import Mathlib.Algebra.GroupWithZero.Nat
import Treeprint.Proofs.Induction
import Treeprint.Proofs.Wire.Layout

/-!
# Trees and bytes counted

How many trees a node holds can be read off it, form by form: its types, patterns, expressions and
statements at any depth, and the nodes of its chains (`Node.treeCount`). Each of them has bytes of
its own among the bytes of the node: a type, a pattern, an expression and a statement its place,
and the node of a chain the mark of its tail. So there are at most as many trees as bytes
(`Node.treeCount_le_length_encode`).
-/

namespace Treeprint

/-- The types in an annotation: a type holds no other type. -/
def TypeExpr.count (ty : Option TypeExpr) : Nat := ty.toList.length

/-- The nodes of a chain, each with what its value counts. -/
def Chain.count {α : Type} (f : α → Nat) : Chain α → Nat
  | .element v t => 1 + f v + t.count f
  | .last v => 1 + f v
  | .rest t => 1 + t.count f
  | .terminator => 1

mutual

def Pattern.treeCount : Pattern → Nat
  | ⟨form, ty, _⟩ => 1 + form.treeCount + TypeExpr.count ty

def PatternForm.treeCount : PatternForm → Nat
  | .list chain => Pattern.chainCount chain
  | .map entries => Pattern.entryCount entries
  | .record _ fields => Pattern.fieldCount fields
  | .symbol _ | .value _ => 0

def Pattern.chainCount : Chain Pattern → Nat
  | .element v t => 1 + v.treeCount + Pattern.chainCount t
  | .last v => 1 + v.treeCount
  | .rest t => 1 + Pattern.chainCount t
  | .terminator => 1

def Pattern.entryCount : List (Pattern × Pattern) → Nat
  | [] => 0
  | (key, value) :: rest => key.treeCount + value.treeCount + Pattern.entryCount rest

def Pattern.fieldCount : List (Name × Pattern) → Nat
  | [] => 0
  | (_, p) :: rest => p.treeCount + Pattern.fieldCount rest

end

mutual

def Expr.treeCount : Expr → Nat
  | ⟨form, ty, _⟩ => 1 + form.treeCount + TypeExpr.count ty

def ExprForm.treeCount : ExprForm → Nat
  | .ifElse cond body elseBody =>
    cond.treeCount + Stmt.listCount body +
      (match elseBody with
        | none => 0
        | some stmts => Stmt.listCount stmts)
  | .case scrutinee arms => scrutinee.treeCount + Expr.armCount arms
  | .record _ fields => Expr.fieldCount fields
  | .list chain => Expr.chainCount chain
  | .map entries => Expr.entryCount entries
  | .value _ | .symbol _ => 0
  | .call _ args => Expr.listCount args
  | .binary _ lhs rhs => lhs.treeCount + rhs.treeCount
  | .unary _ operand => operand.treeCount
  | .compound exprs => Expr.listCount exprs

def Expr.listCount : List Expr → Nat
  | [] => 0
  | e :: rest => e.treeCount + Expr.listCount rest

def Expr.armCount : List (Pattern × Expr) → Nat
  | [] => 0
  | (p, e) :: rest => p.treeCount + e.treeCount + Expr.armCount rest

def Expr.fieldCount : List (Name × Expr) → Nat
  | [] => 0
  | (_, e) :: rest => e.treeCount + Expr.fieldCount rest

def Expr.chainCount : Chain Expr → Nat
  | .element v t => 1 + v.treeCount + Expr.chainCount t
  | .last v => 1 + v.treeCount
  | .rest t => 1 + Expr.chainCount t
  | .terminator => 1

def Expr.entryCount : List (Expr × Expr) → Nat
  | [] => 0
  | (key, value) :: rest => key.treeCount + value.treeCount + Expr.entryCount rest

def Stmt.treeCount : Stmt → Nat
  | ⟨form, _⟩ => 1 + form.treeCount

def StmtForm.treeCount : StmtForm → Nat
  | .define _ params result body =>
    (params.map Pattern.treeCount).sum + TypeExpr.count result + Stmt.listCount body
  | .record _ fields => fields.length
  | .val _ init => init.treeCount
  | .module _ body => Stmt.listCount body
  | .expr e => e.treeCount
  | .loop pattern container => pattern.treeCount + container.treeCount

def Stmt.listCount : List Stmt → Nat
  | [] => 0
  | s :: rest => s.treeCount + Stmt.listCount rest

end

/-- The types, patterns, expressions, statements and chain nodes of a node, itself included. -/
def Node.treeCount : Node → Nat
  | .value _ | .symbol _ => 0
  | .type _ => 1
  | .pattern p => p.treeCount
  | .expr e => e.treeCount
  | .stmt s => s.treeCount
  | .program p => Stmt.listCount p.body
  | .exprChain c => Expr.chainCount c
  | .patternChain c => Pattern.chainCount c

/-! ## The parts one by one -/

theorem Pattern.chainCount_eq_count (c : Chain Pattern) :
    Pattern.chainCount c = c.count Pattern.treeCount := by
  induction c <;> simp_all [Pattern.chainCount, Chain.count]

theorem Pattern.entryCount_eq_sum (es : List (Pattern × Pattern)) :
    Pattern.entryCount es = (es.map fun e => e.1.treeCount + e.2.treeCount).sum := by
  induction es <;> simp_all [Pattern.entryCount]

theorem Pattern.fieldCount_eq_sum (fs : List (Name × Pattern)) :
    Pattern.fieldCount fs = (fs.map fun f => f.2.treeCount).sum := by
  induction fs <;> simp_all [Pattern.fieldCount]

theorem Expr.listCount_eq_sum (es : List Expr) :
    Expr.listCount es = (es.map Expr.treeCount).sum := by
  induction es <;> simp_all [Expr.listCount]

theorem Expr.armCount_eq_sum (as : List (Pattern × Expr)) :
    Expr.armCount as = (as.map fun a => a.1.treeCount + a.2.treeCount).sum := by
  induction as <;> simp_all [Expr.armCount]

theorem Expr.fieldCount_eq_sum (fs : List (Name × Expr)) :
    Expr.fieldCount fs = (fs.map fun f => f.2.treeCount).sum := by
  induction fs <;> simp_all [Expr.fieldCount]

theorem Expr.chainCount_eq_count (c : Chain Expr) :
    Expr.chainCount c = c.count Expr.treeCount := by
  induction c <;> simp_all [Expr.chainCount, Chain.count]

theorem Expr.entryCount_eq_sum (es : List (Expr × Expr)) :
    Expr.entryCount es = (es.map fun e => e.1.treeCount + e.2.treeCount).sum := by
  induction es <;> simp_all [Expr.entryCount]

theorem Stmt.listCount_eq_sum (ss : List Stmt) :
    Stmt.listCount ss = (ss.map Stmt.treeCount).sum := by
  induction ss <;> simp_all [Stmt.listCount]

/-! ## Bytes -/

namespace Datum

/-- Items that take as many bytes as they count do so one after the other. -/
theorem sum_le_length_encode_seq {α : Type} {w : α → Nat} {f : α → Datum} {xs : List α}
    (h : ∀ x ∈ xs, w x ≤ (f x).encode.length) :
    (xs.map w).sum ≤ (seq (xs.map f)).encode.length := by
  suffices hsum : (xs.map w).sum ≤ ((xs.map f).flatMap encode).length by
    rw [encode_seq, List.length_append]
    omega
  induction xs with
  | nil => simp
  | cons x xs ih =>
    rw [List.forall_mem_cons] at h
    have hxs := ih h.2
    simp only [List.map_cons, List.sum_cons, List.flatMap_cons, List.length_append]
    omega

theorem count_le_length_encode_chain {α : Type} {w : α → Nat} {f : α → Datum} {c : Chain α}
    (h : ∀ x, some x ∈ c.slots → w x ≤ (f x).encode.length) :
    c.count w ≤ (c.map f).datum.encode.length := by
  induction c with
  | element v t ih =>
    have hv := h v List.mem_cons_self
    have ht := ih fun x hx => h x (List.mem_cons_of_mem _ hx)
    simp only [Chain.count, Chain.map, Chain.encode_element, List.length_append, List.length_cons]
    omega
  | last v =>
    have hv := h v List.mem_cons_self
    simp only [Chain.count, Chain.map, Chain.encode_last, List.length_append, List.length_cons]
    omega
  | rest t ih =>
    have ht := ih fun x hx => h x (List.mem_cons_of_mem _ hx)
    simp only [Chain.count, Chain.map, Chain.encode_rest, List.length_cons]
    omega
  | terminator => simp [Chain.count, Chain.map]

/-- A type takes bytes for its place. -/
theorem one_le_length_encode_type (t : TypeExpr) : 1 ≤ t.datum.encode.length := by
  simp only [TypeExpr.datum, encode_record, List.flatMap_cons, encode_span, List.length_append,
    Wire.length_leBytes]
  omega

theorem count_le_length_encode_ofType (ty : Option TypeExpr) :
    TypeExpr.count ty ≤ (ofType ty).encode.length := by
  cases ty <;> simp [TypeExpr.count, ofType, ofOption]

theorem add_le_length_encode_pair {m n : Nat} {a b : Datum} {label first second : String}
    (ha : m ≤ a.encode.length) (hb : n ≤ b.encode.length) :
    m + n ≤ (pair label first second a b).encode.length := by
  rw [encode_pair, List.length_append]
  omega

theorem le_length_encode_pair {n : Nat} {a b : Datum} {label first second : String}
    (hb : n ≤ b.encode.length) : n ≤ (pair label first second a b).encode.length := by
  rw [encode_pair, List.length_append]
  omega

theorem length_encode_variant (label : String) (i : Nat) (ds : List Datum) :
    (variant label i ds).encode.length = 4 + (ds.map fun d => d.encode.length).sum := by
  simp [List.length_flatMap]

theorem length_encode_variantRecord (label : String) (i : Nat) (fs : List (String × Datum)) :
    (variantRecord label i fs).encode.length = 4 + (fs.map fun f => f.2.encode.length).sum := by
  simp [List.length_flatMap]

theorem length_encode_body (ds : List Datum) :
    (body ds).encode.length = (seq ds).encode.length := by
  simp

end Datum

open Datum (sum_le_length_encode_seq count_le_length_encode_chain one_le_length_encode_type
  count_le_length_encode_ofType
  add_le_length_encode_pair le_length_encode_pair length_encode_variant
  length_encode_variantRecord length_encode_body)

/-! ## Patterns -/

/-- The pattern itself is counted with the bytes of its place. -/
theorem Pattern.treeCount_le_of_form {form : PatternForm}
    (h : form.treeCount ≤ form.datum.encode.length) (ty : Option TypeExpr) (place : Span) :
    Pattern.treeCount ⟨form, ty, place⟩ ≤ (Pattern.datum ⟨form, ty, place⟩).encode.length := by
  have hty := count_le_length_encode_ofType ty
  simp only [Pattern.treeCount, Pattern.datum, Datum.encode_record, List.flatMap_cons,
    Datum.encode_span, List.length_append, Wire.length_leBytes]
  omega

theorem pattern_treeCount_steps :
    Pattern.Steps fun p => p.treeCount ≤ p.datum.encode.length where
  list c ty place ih := by
    refine Pattern.treeCount_le_of_form ?_ ty place
    have hc := count_le_length_encode_chain ih
    rw [← Pattern.chainCount_eq_count, ← Pattern.chainData_eq_map] at hc
    simp only [PatternForm.treeCount, PatternForm.datum, length_encode_variant, List.map_cons,
      List.sum_cons]
    omega
  map es ty place ih := by
    refine Pattern.treeCount_le_of_form ?_ ty place
    have hes : Pattern.entryCount es ≤ (Datum.seq (Pattern.entryData es)).encode.length := by
      rw [Pattern.entryCount_eq_sum, Pattern.entryData_eq_map]
      exact sum_le_length_encode_seq fun e he =>
        add_le_length_encode_pair (ih e he).1 (ih e he).2
    simp only [PatternForm.treeCount, PatternForm.datum, length_encode_variant, List.map_cons,
      List.sum_cons]
    omega
  record name fs ty place ih := by
    refine Pattern.treeCount_le_of_form ?_ ty place
    have hfs : Pattern.fieldCount fs ≤ (Datum.seq (Pattern.fieldData fs)).encode.length := by
      rw [Pattern.fieldCount_eq_sum, Pattern.fieldData_eq_map]
      exact sum_le_length_encode_seq fun f hf => le_length_encode_pair (ih f hf)
    simp only [PatternForm.treeCount, PatternForm.datum, length_encode_variantRecord,
      List.map_cons, List.sum_cons]
    omega
  symbol path ty place := Pattern.treeCount_le_of_form (Nat.zero_le _) ty place
  value v ty place := Pattern.treeCount_le_of_form (Nat.zero_le _) ty place

theorem Pattern.treeCount_le_length_encode (p : Pattern) :
    p.treeCount ≤ p.datum.encode.length :=
  pattern_treeCount_steps.all p

/-! ## Expressions and statements -/

theorem Expr.treeCount_le_of_form {form : ExprForm}
    (h : form.treeCount ≤ form.datum.encode.length) (ty : Option TypeExpr) (place : Span) :
    Expr.treeCount ⟨form, ty, place⟩ ≤ (Expr.datum ⟨form, ty, place⟩).encode.length := by
  have hty := count_le_length_encode_ofType ty
  simp only [Expr.treeCount, Expr.datum, Datum.encode_record, List.flatMap_cons,
    Datum.encode_span, List.length_append, Wire.length_leBytes]
  omega

theorem Stmt.treeCount_le_of_form {form : StmtForm}
    (h : form.treeCount ≤ form.datum.encode.length) (place : Span) :
    Stmt.treeCount ⟨form, place⟩ ≤ (Stmt.datum ⟨form, place⟩).encode.length := by
  simp only [Stmt.treeCount, Stmt.datum, Datum.encode_pair, Datum.encode_span,
    List.length_append, Wire.length_leBytes]
  omega

theorem Stmt.listCount_le {ss : List Stmt} (h : ∀ s ∈ ss, s.treeCount ≤ s.datum.encode.length) :
    Stmt.listCount ss ≤ (Datum.body (Stmt.data ss)).encode.length := by
  rw [Stmt.listCount_eq_sum, Stmt.data_eq_map, length_encode_body]
  exact sum_le_length_encode_seq h

theorem Expr.listCount_le {es : List Expr} (h : ∀ e ∈ es, e.treeCount ≤ e.datum.encode.length) :
    Expr.listCount es ≤ (Datum.seq (Expr.data es)).encode.length := by
  rw [Expr.listCount_eq_sum, Expr.data_eq_map]
  exact sum_le_length_encode_seq h

theorem expr_treeCount_steps :
    Expr.Steps (fun e => e.treeCount ≤ e.datum.encode.length)
      (fun s => s.treeCount ≤ s.datum.encode.length) where
  ifElse cond body elseBody ty place ihc ihb ihe := by
    refine Expr.treeCount_le_of_form ?_ ty place
    have hb := Stmt.listCount_le ihb
    cases elseBody with
    | none =>
      simp only [ExprForm.treeCount, ExprForm.datum, length_encode_variantRecord, List.map_cons,
        List.sum_cons]
      omega
    | some stmts =>
      have he := Stmt.listCount_le (ihe stmts rfl)
      simp only [ExprForm.treeCount, ExprForm.datum, length_encode_variantRecord, List.map_cons,
        List.sum_cons, Datum.encode_present, List.length_cons]
      omega
  case scrutinee arms ty place ihs iha := by
    refine Expr.treeCount_le_of_form ?_ ty place
    have harms : Expr.armCount arms ≤ (Datum.seq (Expr.armData arms)).encode.length := by
      rw [Expr.armCount_eq_sum, Expr.armData_eq_map]
      exact sum_le_length_encode_seq fun a ha =>
        add_le_length_encode_pair a.1.treeCount_le_length_encode (iha a ha)
    simp only [ExprForm.treeCount, ExprForm.datum, length_encode_variantRecord, List.map_cons,
      List.sum_cons]
    omega
  record name fs ty place ih := by
    refine Expr.treeCount_le_of_form ?_ ty place
    have hfs : Expr.fieldCount fs ≤ (Datum.seq (Expr.fieldData fs)).encode.length := by
      rw [Expr.fieldCount_eq_sum, Expr.fieldData_eq_map]
      exact sum_le_length_encode_seq fun f hf => le_length_encode_pair (ih f hf)
    simp only [ExprForm.treeCount, ExprForm.datum, length_encode_variantRecord, List.map_cons,
      List.sum_cons]
    omega
  list c ty place ih := by
    refine Expr.treeCount_le_of_form ?_ ty place
    have hc := count_le_length_encode_chain ih
    rw [← Expr.chainCount_eq_count, ← Expr.chainData_eq_map] at hc
    simp only [ExprForm.treeCount, ExprForm.datum, length_encode_variant, List.map_cons,
      List.sum_cons]
    omega
  map es ty place ih := by
    refine Expr.treeCount_le_of_form ?_ ty place
    have hes : Expr.entryCount es ≤ (Datum.seq (Expr.entryData es)).encode.length := by
      rw [Expr.entryCount_eq_sum, Expr.entryData_eq_map]
      exact sum_le_length_encode_seq fun e he =>
        add_le_length_encode_pair (ih e he).1 (ih e he).2
    simp only [ExprForm.treeCount, ExprForm.datum, length_encode_variant, List.map_cons,
      List.sum_cons]
    omega
  value v ty place := Expr.treeCount_le_of_form (Nat.zero_le _) ty place
  symbol path ty place := Expr.treeCount_le_of_form (Nat.zero_le _) ty place
  call callee args ty place ih := by
    refine Expr.treeCount_le_of_form ?_ ty place
    have hargs := Expr.listCount_le ih
    simp only [ExprForm.treeCount, ExprForm.datum, length_encode_variantRecord, List.map_cons,
      List.sum_cons]
    omega
  binary op lhs rhs ty place ihl ihr := by
    refine Expr.treeCount_le_of_form ?_ ty place
    simp only [ExprForm.treeCount, ExprForm.datum, length_encode_variantRecord, List.map_cons,
      List.sum_cons]
    omega
  unary op operand ty place ih := by
    refine Expr.treeCount_le_of_form ?_ ty place
    simp only [ExprForm.treeCount, ExprForm.datum, length_encode_variantRecord, List.map_cons,
      List.sum_cons]
    omega
  compound exprs ty place ih := by
    refine Expr.treeCount_le_of_form ?_ ty place
    have hexprs := Expr.listCount_le ih
    simp only [ExprForm.treeCount, ExprForm.datum, length_encode_variant, List.map_cons,
      List.sum_cons]
    omega
  define name params result body place ih := by
    refine Stmt.treeCount_le_of_form ?_ place
    have hparams := sum_le_length_encode_seq fun p (_ : p ∈ params) =>
      p.treeCount_le_length_encode
    have hresult := count_le_length_encode_ofType result
    have hbody := Stmt.listCount_le ih
    simp only [StmtForm.treeCount, StmtForm.datum, length_encode_variant, List.map_cons,
      List.sum_cons, Datum.encode_record, List.flatMap_cons, List.length_append]
    omega
  recordType name fields place := by
    refine Stmt.treeCount_le_of_form ?_ place
    have hfields : (fields.map fun _ => 1).sum ≤ (Datum.seq (fields.map fun f =>
        .pair "RecordField" "name" "ty" (.handle f.1) f.2.datum)).encode.length :=
      sum_le_length_encode_seq fun f _ => le_length_encode_pair (one_le_length_encode_type f.2)
    rw [List.map_const', List.sum_replicate_nat, Nat.mul_one] at hfields
    simp only [StmtForm.treeCount, StmtForm.datum, length_encode_variant, List.map_cons,
      List.sum_cons, Datum.encode_pair, List.length_append]
    omega
  val name init place ih := by
    refine Stmt.treeCount_le_of_form ?_ place
    simp only [StmtForm.treeCount, StmtForm.datum, length_encode_variantRecord, List.map_cons,
      List.sum_cons]
    omega
  module name body place ih := by
    refine Stmt.treeCount_le_of_form ?_ place
    have hbody := Stmt.listCount_le ih
    simp only [StmtForm.treeCount, StmtForm.datum, length_encode_variant, List.map_cons,
      List.sum_cons, Datum.encode_pair, List.length_append]
    omega
  expr e place ih := by
    refine Stmt.treeCount_le_of_form ?_ place
    simp only [StmtForm.treeCount, StmtForm.datum, length_encode_variant, List.map_cons,
      List.sum_cons]
    omega
  loop pattern container place ih := by
    refine Stmt.treeCount_le_of_form ?_ place
    have hpattern := pattern.treeCount_le_length_encode
    simp only [StmtForm.treeCount, StmtForm.datum, length_encode_variantRecord, List.map_cons,
      List.sum_cons]
    omega

theorem Pattern.one_le_length_encode (p : Pattern) : 1 ≤ p.datum.encode.length := by
  have h := p.treeCount_le_length_encode
  obtain ⟨form, ty, place⟩ := p
  rw [Pattern.treeCount] at h
  omega

theorem Expr.one_le_length_encode (e : Expr) : 1 ≤ e.datum.encode.length := by
  have h := expr_treeCount_steps.all e
  obtain ⟨form, ty, place⟩ := e
  rw [Expr.treeCount] at h
  omega

theorem Stmt.one_le_length_encode (s : Stmt) : 1 ≤ s.datum.encode.length := by
  have h := expr_treeCount_steps.allStmts s
  obtain ⟨form, place⟩ := s
  rw [Stmt.treeCount] at h
  omega

/-- A node has at most as many trees as bytes. -/
theorem Node.treeCount_le_length_encode (n : Node) : n.treeCount ≤ n.encode.length := by
  cases n with
  | value v => exact Nat.zero_le _
  | symbol s => exact Nat.zero_le _
  | type t => exact one_le_length_encode_type t
  | pattern p => exact p.treeCount_le_length_encode
  | expr e => exact expr_treeCount_steps.all e
  | stmt s => exact expr_treeCount_steps.allStmts s
  | program p =>
    have hbody := Stmt.listCount_le fun s (_ : s ∈ p.body) => expr_treeCount_steps.allStmts s
    simp only [Node.treeCount, Node.encode, Node.datum, Program.datum, Datum.encode_record,
      List.flatMap_cons, List.length_append]
    omega
  | exprChain c =>
    rw [Node.treeCount, Node.encode, Node.datum, Expr.chainCount_eq_count, Expr.chainData_eq_map]
    exact count_le_length_encode_chain fun e _ => expr_treeCount_steps.all e
  | patternChain c =>
    rw [Node.treeCount, Node.encode, Node.datum, Pattern.chainCount_eq_count,
      Pattern.chainData_eq_map]
    exact count_le_length_encode_chain fun p _ => p.treeCount_le_length_encode

end Treeprint
