import Treeprint.Tree.Expr

/-!
# Induction over trees

Patterns hold patterns in chains and lists, and expressions and statements hold each other. What a
proof by induction must show is collected in one structure for patterns (`Pattern.Steps`) and one
for expressions and statements together (`Expr.Steps`): one step for each form, in which the
statement may be assumed of all the parts that the form holds. From the steps the statement
follows for every pattern (`Pattern.Steps.all`), every expression (`Expr.Steps.all`) and every
statement (`Expr.Steps.allStmts`). For chains there is a single step, from the tail of a node to the
node (`Chain.ofParts_induction`).
-/

namespace Treeprint

namespace Chain

variable {α : Type}

/-- A statement about chains holds if it holds of each node once it holds of its tail, if
there is one. -/
theorem ofParts_induction {P : Chain α → Prop}
    (h : ∀ v tail, (∀ t ∈ tail, P t) → P (ofParts v tail)) : ∀ c, P c
  | .element v t => h (some v) (some t) fun _ ht => Option.some.inj ht ▸ ofParts_induction h t
  | .last v => h (some v) none fun _ ht => by cases ht
  | .rest t => h none (some t) fun _ ht => Option.some.inj ht ▸ ofParts_induction h t
  | .terminator => h none none fun _ ht => by cases ht

theorem mem_slots_of_tail {v x : Option α} {tail : Option (Chain α)} {t : Chain α}
    (ht : t ∈ tail) (hx : x ∈ t.slots) : x ∈ (ofParts v tail).slots := by
  cases ht
  rw [slots_ofParts_some]
  exact List.mem_cons_of_mem v hx

end Chain

/-- A statement about patterns holds of each form if it holds of its parts. -/
structure Pattern.Steps (P : Pattern → Prop) : Prop where
  list : ∀ c ty span, (∀ p, some p ∈ c.slots → P p) → P ⟨.list c, ty, span⟩
  map : ∀ es ty span, (∀ e ∈ es, P e.1 ∧ P e.2) → P ⟨.map es, ty, span⟩
  record : ∀ name fs ty span, (∀ f ∈ fs, P f.2) → P ⟨.record name fs, ty, span⟩
  symbol : ∀ path ty span, P ⟨.symbol path, ty, span⟩
  value : ∀ v ty span, P ⟨.value v, ty, span⟩

namespace Pattern.Steps

variable {P : Pattern → Prop}

mutual

theorem all (h : Steps P) : ∀ p : Pattern, P p
  | ⟨.list c, ty, span⟩ => h.list c ty span (allChain h c)
  | ⟨.map es, ty, span⟩ => h.map es ty span (allEntries h es)
  | ⟨.record name fs, ty, span⟩ => h.record name fs ty span (allFields h fs)
  | ⟨.symbol path, ty, span⟩ => h.symbol path ty span
  | ⟨.value v, ty, span⟩ => h.value v ty span

theorem allChain (h : Steps P) : ∀ (c : Chain Pattern) (p : Pattern), some p ∈ c.slots → P p
  | .element v t, p, hp => by
    rcases List.mem_cons.mp hp with hp | hp
    · exact Option.some.inj hp ▸ all h v
    · exact allChain h t p hp
  | .last v, p, hp => Option.some.inj (List.mem_singleton.mp hp) ▸ all h v
  | .rest t, p, hp => by
    rcases List.mem_cons.mp hp with hp | hp
    · cases hp
    · exact allChain h t p hp
  | .terminator, p, hp => by cases List.mem_singleton.mp hp

theorem allEntries (h : Steps P) : ∀ (es : List (Pattern × Pattern)), ∀ e ∈ es, P e.1 ∧ P e.2
  | [] => List.forall_mem_nil _
  | (k, v) :: es => List.forall_mem_cons.mpr ⟨⟨all h k, all h v⟩, allEntries h es⟩

theorem allFields (h : Steps P) : ∀ (fs : List (Name × Pattern)), ∀ f ∈ fs, P f.2
  | [] => List.forall_mem_nil _
  | (_, p) :: fs => List.forall_mem_cons.mpr ⟨all h p, allFields h fs⟩

end

end Pattern.Steps

/-- A statement about expressions and one about statements hold of each form if they hold of its
parts. -/
structure Expr.Steps (P : Expr → Prop) (Q : Stmt → Prop) : Prop where
  ifElse : ∀ cond body elseBody ty span, P cond → (∀ s ∈ body, Q s) →
    (∀ ss, elseBody = some ss → ∀ s ∈ ss, Q s) → P ⟨.ifElse cond body elseBody, ty, span⟩
  case : ∀ scrutinee arms ty span, P scrutinee → (∀ a ∈ arms, P a.2) →
    P ⟨.case scrutinee arms, ty, span⟩
  record : ∀ name fs ty span, (∀ f ∈ fs, P f.2) → P ⟨.record name fs, ty, span⟩
  list : ∀ c ty span, (∀ e, some e ∈ c.slots → P e) → P ⟨.list c, ty, span⟩
  map : ∀ es ty span, (∀ e ∈ es, P e.1 ∧ P e.2) → P ⟨.map es, ty, span⟩
  value : ∀ v ty span, P ⟨.value v, ty, span⟩
  symbol : ∀ path ty span, P ⟨.symbol path, ty, span⟩
  call : ∀ callee args ty span, (∀ e ∈ args, P e) → P ⟨.call callee args, ty, span⟩
  binary : ∀ op lhs rhs ty span, P lhs → P rhs → P ⟨.binary op lhs rhs, ty, span⟩
  unary : ∀ op operand ty span, P operand → P ⟨.unary op operand, ty, span⟩
  compound : ∀ exprs ty span, (∀ e ∈ exprs, P e) → P ⟨.compound exprs, ty, span⟩
  define : ∀ name params result body span, (∀ s ∈ body, Q s) →
    Q ⟨.define name params result body, span⟩
  recordType : ∀ name fields span, Q ⟨.record name fields, span⟩
  val : ∀ name init span, P init → Q ⟨.val name init, span⟩
  module : ∀ name body span, (∀ s ∈ body, Q s) → Q ⟨.module name body, span⟩
  expr : ∀ e span, P e → Q ⟨.expr e, span⟩
  loop : ∀ pattern container span, P container → Q ⟨.loop pattern container, span⟩

namespace Expr.Steps

variable {P : Expr → Prop} {Q : Stmt → Prop}

mutual

theorem all (h : Steps P Q) : ∀ e : Expr, P e
  | ⟨.ifElse cond body none, ty, span⟩ =>
    h.ifElse cond body none ty span (all h cond) (allBody h body) fun _ hs => nomatch hs
  | ⟨.ifElse cond body (some stmts), ty, span⟩ =>
    h.ifElse cond body (some stmts) ty span (all h cond) (allBody h body)
      fun _ hs => Option.some.inj hs ▸ allBody h stmts
  | ⟨.case scrutinee arms, ty, span⟩ =>
    h.case scrutinee arms ty span (all h scrutinee) (allArms h arms)
  | ⟨.record name fs, ty, span⟩ => h.record name fs ty span (allFields h fs)
  | ⟨.list c, ty, span⟩ => h.list c ty span (allChain h c)
  | ⟨.map es, ty, span⟩ => h.map es ty span (allEntries h es)
  | ⟨.value v, ty, span⟩ => h.value v ty span
  | ⟨.symbol path, ty, span⟩ => h.symbol path ty span
  | ⟨.call callee args, ty, span⟩ => h.call callee args ty span (allExprs h args)
  | ⟨.binary op lhs rhs, ty, span⟩ => h.binary op lhs rhs ty span (all h lhs) (all h rhs)
  | ⟨.unary op operand, ty, span⟩ => h.unary op operand ty span (all h operand)
  | ⟨.compound exprs, ty, span⟩ => h.compound exprs ty span (allExprs h exprs)

theorem allExprs (h : Steps P Q) : ∀ (es : List Expr), ∀ e ∈ es, P e
  | [] => List.forall_mem_nil _
  | e :: es => List.forall_mem_cons.mpr ⟨all h e, allExprs h es⟩

theorem allArms (h : Steps P Q) : ∀ (as : List (Pattern × Expr)), ∀ a ∈ as, P a.2
  | [] => List.forall_mem_nil _
  | (_, e) :: as => List.forall_mem_cons.mpr ⟨all h e, allArms h as⟩

theorem allFields (h : Steps P Q) : ∀ (fs : List (Name × Expr)), ∀ f ∈ fs, P f.2
  | [] => List.forall_mem_nil _
  | (_, e) :: fs => List.forall_mem_cons.mpr ⟨all h e, allFields h fs⟩

theorem allChain (h : Steps P Q) : ∀ (c : Chain Expr) (e : Expr), some e ∈ c.slots → P e
  | .element v t, e, he => by
    rcases List.mem_cons.mp he with he | he
    · exact Option.some.inj he ▸ all h v
    · exact allChain h t e he
  | .last v, e, he => Option.some.inj (List.mem_singleton.mp he) ▸ all h v
  | .rest t, e, he => by
    rcases List.mem_cons.mp he with he | he
    · cases he
    · exact allChain h t e he
  | .terminator, e, he => by cases List.mem_singleton.mp he

theorem allEntries (h : Steps P Q) : ∀ (es : List (Expr × Expr)), ∀ e ∈ es, P e.1 ∧ P e.2
  | [] => List.forall_mem_nil _
  | (k, v) :: es => List.forall_mem_cons.mpr ⟨⟨all h k, all h v⟩, allEntries h es⟩

theorem allStmts (h : Steps P Q) : ∀ s : Stmt, Q s
  | ⟨.define name params result body, span⟩ =>
    h.define name params result body span (allBody h body)
  | ⟨.record name fields, span⟩ => h.recordType name fields span
  | ⟨.val name init, span⟩ => h.val name init span (all h init)
  | ⟨.module name body, span⟩ => h.module name body span (allBody h body)
  | ⟨.expr e, span⟩ => h.expr e span (all h e)
  | ⟨.loop pattern container, span⟩ => h.loop pattern container span (all h container)

theorem allBody (h : Steps P Q) : ∀ (ss : List Stmt), ∀ s ∈ ss, Q s
  | [] => List.forall_mem_nil _
  | s :: ss => List.forall_mem_cons.mpr ⟨allStmts h s, allBody h ss⟩

end

end Expr.Steps

end Treeprint
