import Treeprint.Datum.Feed
import Treeprint.Proofs.Wire.SameBytes

/-!
# Equality of trees against their other views

Comparing two trees decides whether they are the same (`Node.decides_beq`). Chains are compared in
rounds, one for each node: first the value slots, and then whether both have a tail or neither has
(`Chain.round`). As the rounds follow the chain, what they decide is shown by induction on its
nodes, given that the comparison decides equality of the values.

Trees are the same just when their bytes are, and then they feed the same to a hasher, for which a
chain is run through once more, node by node (`Chain.feed_datum`).
-/

namespace Treeprint

variable {α β : Type}

/-- A comparison tells `x` from everything else. -/
def Decides (r : α → α → Bool) (x : α) : Prop := ∀ y, r x y = true ↔ x = y

/-! ## Containers -/

theorem decides_list {r : α → α → Bool} {xs : List α} (h : ∀ x ∈ xs, Decides r x) :
    Decides (fun xs ys => xs.isEqv ys r) xs := by
  induction xs with
  | nil =>
    intro ys
    cases ys <;> simp [List.isEqv]
  | cons x xs ih =>
    rw [List.forall_mem_cons] at h
    intro ys
    cases ys with
    | nil => simp [List.isEqv]
    | cons y ys => simpa [List.isEqv] using and_congr (h.1 y) (ih h.2 ys)

theorem decides_pair {r : α → α → Bool} {s : β → β → Bool} {x : α × β} (hr : Decides r x.1)
    (hs : Decides s x.2) : Decides (fun x y : α × β => r x.1 y.1 && s x.2 y.2) x := by
  intro y
  rw [Bool.and_eq_true, hr y.1, hs y.2, Prod.ext_iff]

/-- Optional parts are alike if neither is there or both are and are alike. -/
def alike (r : α → α → Bool) : Option α → Option α → Bool
  | none, none => true
  | some x, some y => r x y
  | _, _ => false

theorem decides_option {r : α → α → Bool} {o : Option α} (h : ∀ x ∈ o, Decides r x) :
    Decides (alike r) o := by
  intro o'
  cases o with
  | none => cases o' <;> simp [alike]
  | some x =>
    cases o' with
    | none => simp [alike]
    | some y => simpa [alike] using h x rfl y

namespace Chain

/-- One round of a comparison: the value slots, and then the tails. -/
def round (r : α → α → Bool) (again : Chain α → Chain α → Bool) (c c' : Chain α) : Bool :=
  alike r c.value? c'.value? && alike again c.tail? c'.tail?

/-- A comparison in rounds decides equality of chains. -/
theorem decides_of_rounds {r : α → α → Bool} {eqv : Chain α → Chain α → Bool}
    (hround : ∀ c c', eqv c c' = round r eqv c c') {c : Chain α}
    (h : ∀ x, some x ∈ c.slots → Decides r x) : Decides eqv c := by
  induction c using ofParts_induction with
  | h v tail ih =>
    intro c'
    have hv : Decides (alike r) v :=
      decides_option fun x hx => h x (mem_slots_of_value? (by rwa [value?_ofParts]))
    have htail : Decides (alike eqv) tail :=
      decides_option fun t ht => ih t ht fun x hx => h x (mem_slots_of_tail ht hx)
    rw [hround, round, value?_ofParts, tail?_ofParts, Bool.and_eq_true, hv, htail]
    constructor
    · rintro ⟨rfl, rfl⟩
      exact ofParts_parts c'
    · rintro rfl
      exact ⟨(value?_ofParts v tail).symm, (tail?_ofParts v tail).symm⟩

end Chain

/-! ## Patterns -/

namespace Pattern

theorem beqChain_eq_round (c c' : Chain Pattern) :
    beqChain c c' = Chain.round beq beqChain c c' := by
  cases c <;> cases c' <;> simp [beqChain, Chain.round, alike, Chain.value?, Chain.tail?]

theorem beqEntries_eq_isEqv : ∀ es es' : List (Pattern × Pattern),
    beqEntries es es' = es.isEqv es' fun e e' => e.1.beq e'.1 && e.2.beq e'.2
  | [], [] | [], _ :: _ | _ :: _, [] => by simp [beqEntries, List.isEqv]
  | (k, v) :: es, (k', v') :: es' => by rw [beqEntries, beqEntries_eq_isEqv es es', List.isEqv]

theorem beqFields_eq_isEqv : ∀ fs fs' : List (Name × Pattern),
    beqFields fs fs' = fs.isEqv fs' fun f f' => f.1 == f'.1 && f.2.beq f'.2
  | [], [] | [], _ :: _ | _ :: _, [] => by simp [beqFields, List.isEqv]
  | (n, p) :: fs, (n', p') :: fs' => by rw [beqFields, beqFields_eq_isEqv fs fs', List.isEqv]

theorem decides_of_form {form : PatternForm} (h : Decides PatternForm.beq form)
    (ty : Option TypeExpr) (place : Span) : Decides beq ⟨form, ty, place⟩ := by
  rintro ⟨form', ty', place'⟩
  rw [beq, Bool.and_eq_true, Bool.and_eq_true, h form', beq_iff_eq, beq_iff_eq, Pattern.mk.injEq,
    and_assoc]

theorem beq_steps : Steps (Decides beq) where
  list c ty place ih := by
    refine decides_of_form (fun form => ?_) ty place
    cases form with
    | list c' =>
      rw [PatternForm.beq, Chain.decides_of_rounds beqChain_eq_round ih, PatternForm.list.injEq]
    | _ => simp [PatternForm.beq]
  map es ty place ih := by
    refine decides_of_form (fun form => ?_) ty place
    cases form with
    | map es' =>
      rw [PatternForm.beq, beqEntries_eq_isEqv, PatternForm.map.injEq]
      exact decides_list (fun e he => decides_pair (ih e he).1 (ih e he).2) es'
    | _ => simp [PatternForm.beq]
  record name fs ty place ih := by
    refine decides_of_form (fun form => ?_) ty place
    cases form with
    | record name' fs' =>
      rw [PatternForm.beq, beqFields_eq_isEqv, Bool.and_eq_true, beq_iff_eq,
        PatternForm.record.injEq]
      exact and_congr_right fun _ =>
        decides_list (fun f hf => decides_pair (fun _ => beq_iff_eq) (ih f hf)) fs'
    | _ => simp [PatternForm.beq]
  symbol path ty place := by
    refine decides_of_form (fun form => ?_) ty place
    cases form <;> simp [PatternForm.beq]
  value v ty place := by
    refine decides_of_form (fun form => ?_) ty place
    cases form <;> simp [PatternForm.beq]

theorem decides_beq (p : Pattern) : Decides beq p := beq_steps.all p

instance : LawfulBEq Pattern where
  eq_of_beq h := (decides_beq _ _).mp h
  rfl := (decides_beq _ _).mpr rfl

end Pattern

/-! ## Expressions and statements -/

namespace Expr

theorem beqList_eq_isEqv : ∀ es es' : List Expr, beqList es es' = es.isEqv es' beq
  | [], [] | [], _ :: _ | _ :: _, [] => by simp [beqList, List.isEqv]
  | e :: es, e' :: es' => by rw [beqList, beqList_eq_isEqv es es', List.isEqv]

theorem beqArms_eq_isEqv : ∀ as as' : List (Pattern × Expr),
    beqArms as as' = as.isEqv as' fun a a' => a.1 == a'.1 && a.2.beq a'.2
  | [], [] | [], _ :: _ | _ :: _, [] => by simp [beqArms, List.isEqv]
  | (p, e) :: as, (p', e') :: as' => by rw [beqArms, beqArms_eq_isEqv as as', List.isEqv]

theorem beqFields_eq_isEqv : ∀ fs fs' : List (Name × Expr),
    beqFields fs fs' = fs.isEqv fs' fun f f' => f.1 == f'.1 && f.2.beq f'.2
  | [], [] | [], _ :: _ | _ :: _, [] => by simp [beqFields, List.isEqv]
  | (n, e) :: fs, (n', e') :: fs' => by rw [beqFields, beqFields_eq_isEqv fs fs', List.isEqv]

theorem beqChain_eq_round (c c' : Chain Expr) :
    beqChain c c' = Chain.round beq beqChain c c' := by
  cases c <;> cases c' <;> simp [beqChain, Chain.round, alike, Chain.value?, Chain.tail?]

theorem beqEntries_eq_isEqv : ∀ es es' : List (Expr × Expr),
    beqEntries es es' = es.isEqv es' fun e e' => e.1.beq e'.1 && e.2.beq e'.2
  | [], [] | [], _ :: _ | _ :: _, [] => by simp [beqEntries, List.isEqv]
  | (k, v) :: es, (k', v') :: es' => by rw [beqEntries, beqEntries_eq_isEqv es es', List.isEqv]

end Expr

theorem Stmt.beqList_eq_isEqv : ∀ ss ss' : List Stmt, beqList ss ss' = ss.isEqv ss' beq
  | [], [] | [], _ :: _ | _ :: _, [] => by simp [beqList, List.isEqv]
  | s :: ss, s' :: ss' => by rw [beqList, beqList_eq_isEqv ss ss', List.isEqv]

theorem Stmt.decides_beqList {ss : List Stmt} (h : ∀ s ∈ ss, Decides beq s) :
    Decides beqList ss := by
  intro ss'
  rw [beqList_eq_isEqv]
  exact decides_list h ss'

theorem Stmt.decides_of_form {form : StmtForm} (h : Decides StmtForm.beq form) (place : Span) :
    Decides beq ⟨form, place⟩ := by
  rintro ⟨form', place'⟩
  rw [beq, Bool.and_eq_true, h form', beq_iff_eq, Stmt.mk.injEq]

namespace Expr

theorem decides_of_form {form : ExprForm} (h : Decides ExprForm.beq form) (ty : Option TypeExpr)
    (place : Span) : Decides beq ⟨form, ty, place⟩ := by
  rintro ⟨form', ty', place'⟩
  rw [beq, Bool.and_eq_true, Bool.and_eq_true, h form', beq_iff_eq, beq_iff_eq, Expr.mk.injEq,
    and_assoc]

theorem decides_beqList {es : List Expr} (h : ∀ e ∈ es, Decides beq e) : Decides beqList es := by
  intro es'
  rw [beqList_eq_isEqv]
  exact decides_list h es'

/-- The second branches are optional parts like any other. -/
theorem beq_ifElse (cond cond' : Expr) (body body' : List Stmt) (o o' : Option (List Stmt)) :
    (ExprForm.ifElse cond body o).beq (.ifElse cond' body' o') =
      (cond.beq cond' && Stmt.beqList body body' && alike Stmt.beqList o o') := by
  cases o <;> cases o' <;> simp [ExprForm.beq, alike]

theorem beq_steps : Steps (Decides beq) (Decides Stmt.beq) where
  ifElse cond body elseBody ty place ihc ihb ihe := by
    refine decides_of_form (fun form => ?_) ty place
    cases form with
    | ifElse cond' body' elseBody' =>
      have helse := decides_option fun ss hss => Stmt.decides_beqList (ihe ss hss)
      rw [beq_ifElse, Bool.and_eq_true, Bool.and_eq_true, ihc cond',
        Stmt.decides_beqList ihb body', helse elseBody', ExprForm.ifElse.injEq, and_assoc]
    | _ => cases elseBody <;> simp [ExprForm.beq]
  case scrutinee arms ty place ihs iha := by
    refine decides_of_form (fun form => ?_) ty place
    cases form with
    | case scrutinee' arms' =>
      rw [ExprForm.beq, beqArms_eq_isEqv, Bool.and_eq_true, ihs scrutinee', ExprForm.case.injEq]
      exact and_congr_right fun _ =>
        decides_list (fun a ha => decides_pair (fun _ => beq_iff_eq) (iha a ha)) arms'
    | _ => simp [ExprForm.beq]
  record name fs ty place ih := by
    refine decides_of_form (fun form => ?_) ty place
    cases form with
    | record name' fs' =>
      rw [ExprForm.beq, beqFields_eq_isEqv, Bool.and_eq_true, beq_iff_eq, ExprForm.record.injEq]
      exact and_congr_right fun _ =>
        decides_list (fun f hf => decides_pair (fun _ => beq_iff_eq) (ih f hf)) fs'
    | _ => simp [ExprForm.beq]
  list c ty place ih := by
    refine decides_of_form (fun form => ?_) ty place
    cases form with
    | list c' =>
      rw [ExprForm.beq, Chain.decides_of_rounds beqChain_eq_round ih, ExprForm.list.injEq]
    | _ => simp [ExprForm.beq]
  map es ty place ih := by
    refine decides_of_form (fun form => ?_) ty place
    cases form with
    | map es' =>
      rw [ExprForm.beq, beqEntries_eq_isEqv, ExprForm.map.injEq]
      exact decides_list (fun e he => decides_pair (ih e he).1 (ih e he).2) es'
    | _ => simp [ExprForm.beq]
  value v ty place := by
    refine decides_of_form (fun form => ?_) ty place
    cases form <;> simp [ExprForm.beq]
  symbol path ty place := by
    refine decides_of_form (fun form => ?_) ty place
    cases form <;> simp [ExprForm.beq]
  call callee args ty place ih := by
    refine decides_of_form (fun form => ?_) ty place
    cases form with
    | call callee' args' =>
      rw [ExprForm.beq, Bool.and_eq_true, beq_iff_eq, decides_beqList ih args',
        ExprForm.call.injEq]
    | _ => simp [ExprForm.beq]
  binary op lhs rhs ty place ihl ihr := by
    refine decides_of_form (fun form => ?_) ty place
    cases form with
    | binary op' lhs' rhs' =>
      rw [ExprForm.beq, Bool.and_eq_true, Bool.and_eq_true, beq_iff_eq, ihl lhs', ihr rhs',
        ExprForm.binary.injEq, and_assoc]
    | _ => simp [ExprForm.beq]
  unary op operand ty place ih := by
    refine decides_of_form (fun form => ?_) ty place
    cases form with
    | unary op' operand' =>
      rw [ExprForm.beq, Bool.and_eq_true, beq_iff_eq, ih operand', ExprForm.unary.injEq]
    | _ => simp [ExprForm.beq]
  compound exprs ty place ih := by
    refine decides_of_form (fun form => ?_) ty place
    cases form with
    | compound exprs' =>
      rw [ExprForm.beq, decides_beqList ih exprs', ExprForm.compound.injEq]
    | _ => simp [ExprForm.beq]
  define name params result body place ih := by
    refine Stmt.decides_of_form (fun form => ?_) place
    cases form with
    | define name' params' result' body' =>
      rw [StmtForm.beq, Bool.and_eq_true, Bool.and_eq_true, Bool.and_eq_true, beq_iff_eq,
        beq_iff_eq, beq_iff_eq, Stmt.decides_beqList ih body', StmtForm.define.injEq, and_assoc,
        and_assoc]
    | _ => simp [StmtForm.beq]
  recordType name fields place := by
    refine Stmt.decides_of_form (fun form => ?_) place
    cases form <;> simp [StmtForm.beq]
  val name init place ih := by
    refine Stmt.decides_of_form (fun form => ?_) place
    cases form with
    | val name' init' =>
      rw [StmtForm.beq, Bool.and_eq_true, beq_iff_eq, ih init', StmtForm.val.injEq]
    | _ => simp [StmtForm.beq]
  module name body place ih := by
    refine Stmt.decides_of_form (fun form => ?_) place
    cases form with
    | module name' body' =>
      rw [StmtForm.beq, Bool.and_eq_true, beq_iff_eq, Stmt.decides_beqList ih body',
        StmtForm.module.injEq]
    | _ => simp [StmtForm.beq]
  expr e place ih := by
    refine Stmt.decides_of_form (fun form => ?_) place
    cases form with
    | expr e' => rw [StmtForm.beq, ih e', StmtForm.expr.injEq]
    | _ => simp [StmtForm.beq]
  loop pattern container place ih := by
    refine Stmt.decides_of_form (fun form => ?_) place
    cases form with
    | loop pattern' container' =>
      rw [StmtForm.beq, Bool.and_eq_true, beq_iff_eq, ih container', StmtForm.loop.injEq]
    | _ => simp [StmtForm.beq]

instance : LawfulBEq Expr where
  eq_of_beq h := (beq_steps.all _ _).mp h
  rfl := (beq_steps.all _ _).mpr rfl

instance : LawfulBEq Stmt where
  eq_of_beq h := (beq_steps.allStmts _ _).mp h
  rfl := (beq_steps.allStmts _ _).mpr rfl

end Expr

/-- Comparing nodes decides whether they are the same. -/
theorem Node.decides_beq (a : Node) : Decides beq a := by
  intro b
  cases a with
  | program p =>
    cases b with
    | program q =>
      obtain ⟨ss⟩ := p
      obtain ⟨ts⟩ := q
      rw [Node.program.injEq, Program.mk.injEq]
      exact beq_iff_eq (a := ss) (b := ts)
    | _ => simp [beq]
  | exprChain c =>
    cases b with
    | exprChain c' =>
      rw [Node.exprChain.injEq]
      exact Chain.decides_of_rounds Expr.beqChain_eq_round (fun e _ => Expr.beq_steps.all e) c'
    | _ => simp [beq]
  | patternChain c =>
    cases b with
    | patternChain c' =>
      rw [Node.patternChain.injEq]
      exact Chain.decides_of_rounds Pattern.beqChain_eq_round (fun p _ => p.decides_beq) c'
    | _ => simp [beq]
  | _ => cases b <;> simp [beq]

/-! ## What trees feed to a hasher -/

namespace Datum

mutual

theorem feedTo_eq_append : ∀ (d : Datum) (k : List Fed), d.feedTo k = d.feed ++ k
  | handle n, k => by simp [feed, feedTo]
  | span s, k => by simp [feed, feedTo]
  | word n, k => by simp [feed, feedTo]
  | flag b, k => by simp [feed, feedTo]
  | absent, k => by simp [feed, feedTo]
  | present d, k => by
    rw [feed, feedTo, feedTo, feedTo_eq_append d k, feedTo_eq_append d []]
    simp
  | seq items, k => by
    rw [feed, feedTo, feedTo, feedItems_eq_append items k]
    simp
  | chain slots, k => by rw [feed, feedTo, feedTo, feedSlots_eq_append slots k]
  | tuple tag items, k => by
    rw [feed, feedTo, feedTo, feedItems_eq_append items k]
    simp
  | record tag fields, k => by
    rw [feed, feedTo, feedTo, feedFields_eq_append fields k]
    simp

theorem feedItems_eq_append : ∀ (ds : List Datum) (k : List Fed),
    feedItems ds k = feedItems ds [] ++ k
  | [], k => rfl
  | d :: ds, k => by
    rw [feedItems, feedItems, feedItems_eq_append ds k, feedTo_eq_append d, feedTo_eq_append d]
    simp

theorem feedSlots_eq_append : ∀ (ds : List Datum) (k : List Fed),
    feedSlots ds k = feedSlots ds [] ++ k
  | [], k => rfl
  | d :: ds, k => by
    rw [feedSlots, feedSlots, feedSlots_eq_append ds k, feedTo_eq_append d, feedTo_eq_append d]
    simp

theorem feedFields_eq_append : ∀ (fs : List (String × Datum)) (k : List Fed),
    feedFields fs k = feedFields fs [] ++ k
  | [], k => rfl
  | (_, d) :: fs, k => by
    rw [feedFields, feedFields, feedFields_eq_append fs k, feedTo_eq_append d,
      feedTo_eq_append d]
    simp

end

end Datum

namespace Chain

/-- All nodes of a chain, the first one first. -/
def nodes : Chain α → List (Chain α)
  | .element v t => .element v t :: t.nodes
  | .last v => [.last v]
  | .rest t => .rest t :: t.nodes
  | .terminator => [.terminator]

theorem nodes_ofParts_none (v : Option α) : (ofParts v none).nodes = [ofParts v none] := by
  cases v <;> rfl

theorem nodes_ofParts_some (v : Option α) (t : Chain α) :
    (ofParts v (some t)).nodes = ofParts v (some t) :: t.nodes := by
  cases v <;> rfl

/-- What a node of a chain feeds: its value slot, and whether it has a tail. -/
def feedNode (node : Chain Datum) : List Fed :=
  (Datum.ofOption node.value?).feed ++ [.byte node.tail?.isSome.toUInt8]

theorem feedNode_ofParts (v : Option Datum) (tail : Option (Chain Datum)) :
    feedNode (ofParts v tail) = (Datum.ofOption v).feed ++ [.byte tail.isSome.toUInt8] := by
  rw [feedNode, value?_ofParts, tail?_ofParts]

theorem feed_slots (slot : Datum) (slots : List Datum) :
    (Datum.chain (slot :: slots)).feed =
      slot.feed ++ .byte (!slots.isEmpty).toUInt8 :: (Datum.chain slots).feed := by
  rw [Datum.feed, Datum.feedTo, Datum.feedSlots, Datum.feedTo_eq_append]
  rfl

/-- A chain feeds what its nodes feed, the first one first. -/
theorem feed_datum (c : Chain Datum) : c.datum.feed = c.nodes.flatMap feedNode := by
  induction c using ofParts_induction with
  | h v tail ih =>
    cases tail with
    | none =>
      rw [nodes_ofParts_none, List.flatMap_singleton, feedNode_ofParts, datum, slots_ofParts_none,
        List.map_singleton, feed_slots]
      rfl
    | some t =>
      have hslots : (t.slots.map Datum.ofOption).isEmpty = false := by
        simpa using slots_ne_nil t
      rw [nodes_ofParts_some, List.flatMap_cons, feedNode_ofParts, ← ih t rfl, datum,
        slots_ofParts_some, List.map_cons, feed_slots, hslots, List.append_assoc]
      rfl

end Chain

/-- Equality of trees of one family is that of their bytes, if the lengths of all sequences fit,
and equal trees feed the same to a hasher, for which a chain is run through node by node. -/
theorem Node.beq_iff_encode_eq {a b : Node} (hab : a.family = b.family) :
    ((a == b) = true ↔ a = b) ∧
      (a.datum.Short → b.datum.Short → ((a == b) = true ↔ a.encode = b.encode)) ∧
      ((a == b) = true → a.datum.feed = b.datum.feed) ∧
      ∀ c : Chain Datum, c.datum.feed = c.nodes.flatMap Chain.feedNode := by
  have heq : (a == b) = true ↔ a = b := a.decides_beq b
  refine ⟨heq, fun ha hb => ?_, fun h => ?_, Chain.feed_datum⟩
  · exact heq.trans ⟨congrArg Node.encode, Node.eq_of_encode_eq hab ha hb⟩
  · rw [heq.mp h]

/-- The two zeros, each as the rest of a list without elements. -/
theorem Node.beq_iff_encode_eq_zeros :
    ((Node.exprChain (.restCapture ⟨.value (.float 0), none, ⟨3, 9⟩⟩) ==
        .exprChain (.restCapture ⟨.value (.float 0x8000000000000000), none, ⟨3, 9⟩⟩)) = true ↔
      (Node.exprChain (.restCapture ⟨.value (.float 0), none, ⟨3, 9⟩⟩)).encode =
        (Node.exprChain (.restCapture
          ⟨.value (.float 0x8000000000000000), none, ⟨3, 9⟩⟩)).encode) := by
  refine (Node.beq_iff_encode_eq ?_).2.1 ?_ ?_
  · rfl
  · decide
  · decide

end Treeprint
