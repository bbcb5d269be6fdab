import Mathlib.Algebra.GroupWithZero.Nat
import Treeprint.Proofs.Printer.Lines

/-!
# The parts that shape a text

What a node has on lines of its own, and what in it stands one scope deeper, can be read off the
tree: statements and arms take a line each, and a definition, a module, a case and the two bodies
of an `if` open a scope each. These parts are listed form by form (`Node.parts`). What is not
printed is not listed: the types of expressions, and what a chain holds behind its rest.

In the document of a node there are exactly the line ends and the scopes of these parts
(`Node.weight_doc`). Line ends and scopes are weighed together, so that each of the two can be
counted by giving the other no weight.
-/

namespace Treeprint

/-- What takes a line of its own or opens a scope. -/
inductive Part where
  /-- A statement of a body or of a program. -/
  | stmt
  /-- An arm of a case. -/
  | arm
  | define
  | module
  | case
  /-- An `if` with its first body. -/
  | ifElse
  /-- The second body of an `if` that has one. -/
  | elseBody
  deriving DecidableEq, Repr

/-- The parts of a list: those of its elements and then those of its rest. -/
def Chain.parts (c : Chain (List Part)) : List Part := c.elements.flatten ++ c.rest?.getD []

mutual

def Expr.parts : Expr → List Part
  | ⟨form, _, _⟩ => form.parts

def ExprForm.parts : ExprForm → List Part
  | .ifElse cond body elseBody =>
    .ifElse :: cond.parts ++ Stmt.listParts body ++
      (match elseBody with
        | none => []
        | some stmts => .elseBody :: Stmt.listParts stmts)
  | .case scrutinee arms => .case :: scrutinee.parts ++ Expr.armParts arms
  | .record _ fields => Expr.fieldParts fields
  | .list chain => (Expr.chainParts chain).parts
  | .map entries => Expr.entryParts entries
  | .value _ | .symbol _ => []
  | .call _ args => Expr.listParts args
  | .binary _ lhs rhs => lhs.parts ++ rhs.parts
  | .unary _ operand => operand.parts
  | .compound exprs => Expr.listParts exprs

def Expr.listParts : List Expr → List Part
  | [] => []
  | e :: rest => e.parts ++ Expr.listParts rest

def Expr.armParts : List (Pattern × Expr) → List Part
  | [] => []
  | (_, e) :: rest => .arm :: e.parts ++ Expr.armParts rest

def Expr.fieldParts : List (Name × Expr) → List Part
  | [] => []
  | (_, e) :: rest => e.parts ++ Expr.fieldParts rest

def Expr.chainParts : Chain Expr → Chain (List Part)
  | .element v t => .element v.parts (Expr.chainParts t)
  | .last v => .last v.parts
  | .rest t => .rest (Expr.chainParts t)
  | .terminator => .terminator

def Expr.entryParts : List (Expr × Expr) → List Part
  | [] => []
  | (key, value) :: rest => key.parts ++ value.parts ++ Expr.entryParts rest

def Stmt.parts : Stmt → List Part
  | ⟨form, _⟩ => form.parts

def StmtForm.parts : StmtForm → List Part
  | .define _ _ _ body => .define :: Stmt.listParts body
  | .record _ _ => []
  | .val _ init => init.parts
  | .module _ body => .module :: Stmt.listParts body
  | .expr e => e.parts
  | .loop _ container => container.parts

def Stmt.listParts : List Stmt → List Part
  | [] => []
  | s :: rest => .stmt :: s.parts ++ Stmt.listParts rest

end

/-- The printed parts of a node. Literals, symbols, types and patterns stand on one line. -/
def Node.parts : Node → List Part
  | .value _ | .symbol _ | .type _ | .pattern _ | .patternChain _ => []
  | .expr e => e.parts
  | .stmt s => s.parts
  | .program p => Stmt.listParts p.body
  | .exprChain c => (Expr.chainParts c).parts

/-! ## The parts one by one -/

theorem Expr.listParts_eq_flatMap (es : List Expr) :
    Expr.listParts es = es.flatMap Expr.parts := by
  induction es <;> simp_all [Expr.listParts]

theorem Expr.armParts_eq_flatMap (as : List (Pattern × Expr)) :
    Expr.armParts as = as.flatMap fun a => .arm :: a.2.parts := by
  induction as <;> simp_all [Expr.armParts]

theorem Expr.fieldParts_eq_flatMap (fs : List (Name × Expr)) :
    Expr.fieldParts fs = fs.flatMap fun f => f.2.parts := by
  induction fs <;> simp_all [Expr.fieldParts]

theorem Expr.chainParts_eq_map (c : Chain Expr) : Expr.chainParts c = c.map Expr.parts := by
  induction c <;> simp_all [Expr.chainParts, Chain.map]

theorem Expr.entryParts_eq_flatMap (es : List (Expr × Expr)) :
    Expr.entryParts es = es.flatMap fun e => e.1.parts ++ e.2.parts := by
  induction es <;> simp_all [Expr.entryParts]

theorem Stmt.listParts_eq_flatMap (ss : List Stmt) :
    Stmt.listParts ss = ss.flatMap fun s => .stmt :: s.parts := by
  induction ss <;> simp_all [Stmt.listParts]

/-! ## Weights -/

namespace Part

/-- What a part adds, if a line end counts `line` and a scope counts `scope`. -/
def weight (line scope : Nat) : Part → Nat
  | .stmt | .arm => line
  | .case => scope
  | .define | .module | .ifElse | .elseBody => line + scope

def total (line scope : Nat) (ps : List Part) : Nat := (ps.map (weight line scope)).sum

variable {line scope : Nat}

@[simp] theorem total_nil : total line scope [] = 0 := rfl

@[simp] theorem total_cons (p : Part) (ps : List Part) :
    total line scope (p :: ps) = p.weight line scope + total line scope ps := rfl

@[simp] theorem total_append (ps qs : List Part) :
    total line scope (ps ++ qs) = total line scope ps + total line scope qs := by
  simp [total]

theorem total_flatMap {α : Type} {w : α → Nat} {f : α → List Part} {xs : List α}
    (h : ∀ x ∈ xs, w x = total line scope (f x)) :
    (xs.map w).sum = total line scope (xs.flatMap f) := by
  induction xs with
  | nil => rfl
  | cons x xs ih =>
    rw [List.forall_mem_cons] at h
    simp [h.1, ih h.2]

end Part

namespace Doc

variable (line scope : Nat)

/-- The line ends of a document, each counting `line`, and its scopes, each counting `scope`. -/
def weight : Doc → Nat
  | .text s => line * s.toList.count '\n'
  | .append a b => a.weight + b.weight
  | .scope d => scope + d.weight
  | .empty | .name _ | .quoted _ | .indent => 0

variable {line scope}

@[simp] theorem weight_append (a b : Doc) :
    (a ++ b).weight line scope = a.weight line scope + b.weight line scope := rfl

theorem weight_of_oneLine {s : String} (h : Text.OneLine s) :
    (Doc.text s).weight line scope = 0 := by
  rw [weight, List.count_eq_zero.mpr h, Nat.mul_zero]

theorem weight_concat (ds : List Doc) :
    (concat ds).weight line scope = (ds.map (weight line scope)).sum := by
  induction ds with
  | nil => rfl
  | cons d ds ih => simp [concat, ih]

theorem weight_separatedTail (sep : String) (ds : List Doc) :
    (separatedTail sep ds).weight line scope =
      (ds.map fun d => (Doc.text sep).weight line scope + d.weight line scope).sum := by
  induction ds with
  | nil => rfl
  | cons d ds ih => simp [separatedTail, ih]

theorem weight_separated {sep : String} (h : Text.OneLine sep) (ds : List Doc) :
    (separated sep ds).weight line scope = (ds.map (weight line scope)).sum := by
  cases ds with
  | nil => rfl
  | cons d ds => simp [separated, weight_separatedTail, weight_of_oneLine h]

theorem weight_braced (ds : List Doc) :
    (braced ds).weight line scope = (ds.map (weight line scope)).sum := by
  cases ds with
  | nil => simp [braced, weight]
  | cons d ds => simp [braced, weight_separated (show Text.OneLine ", " by decide), weight]

/-- Every line of a block ends, and so does the block. -/
theorem weight_lines (ds : List Doc) :
    (lines ds).weight line scope = (ds.map fun d => line + d.weight line scope).sum := by
  induction ds with
  | nil => rfl
  | cons d ds ih => simp [lines, ih, weight, Nat.add_comm]

/-- The semicolons do not count: a line end between two statements and one after the last make as
many as there are in a block. -/
theorem weight_sequence (ds : List Doc) :
    (sequence ds).weight line scope = (ds.map fun d => line + d.weight line scope).sum := by
  cases ds with
  | nil => rfl
  | cons d ds =>
    simp [sequence, separated, weight_separatedTail, weight, Function.comp_def]
    omega

theorem weight_walk (first : Bool) (c : Chain Doc) :
    (walk first c).weight line scope =
      (c.elements.map (weight line scope)).sum + (c.rest?.map (weight line scope)).getD 0 := by
  induction c generalizing first with
  | element v t ih =>
    cases first <;> simp [walk, ih, weight, Chain.elements, Chain.rest?, Nat.add_assoc]
  | last v => cases first <;> simp [walk, weight, Chain.elements, Chain.rest?]
  | rest t => cases t <;> simp [walk, weight, Chain.elements, Chain.rest?, Chain.value?]
  | terminator => rfl

theorem weight_bracketed_map {α : Type} {f : α → Doc} {g : α → List Part} {c : Chain α}
    (h : ∀ x, some x ∈ c.slots → (f x).weight line scope = Part.total line scope (g x)) :
    (bracketed (c.map f)).weight line scope = Part.total line scope (c.map g).parts := by
  have he : (c.elements.map fun x => (f x).weight line scope).sum =
      Part.total line scope (c.elements.flatMap g) :=
    Part.total_flatMap fun x hx => h x (Chain.mem_slots_of_mem_elements hx)
  have hr : (c.rest?.map fun x => (f x).weight line scope).getD 0 =
      Part.total line scope ((c.rest?.map g).getD []) := by
    rcases hrest : c.rest? with _ | x
    · rfl
    · exact h x (Chain.mem_slots_of_rest? hrest)
  rw [bracketed, weight_append, weight_append, weight_walk, Chain.elements_map, Chain.rest?_map,
    Chain.parts, Chain.elements_map, Chain.rest?_map, Part.total_append, ← List.flatMap_def, ← he,
    ← hr]
  simp [weight, Function.comp_def]

end Doc

/-! ## The document of a tree -/

variable {line scope : Nat}

theorem Value.weight_doc (v : Value) : v.doc.weight line scope = 0 := by
  cases v with
  | str n => rfl
  | unit => simp [doc, Doc.weight]
  | int n => exact Doc.weight_of_oneLine (Text.oneLine_toString _)
  | float bits => exact Doc.weight_of_oneLine (Text.oneLine_float bits)
  | bool b => cases b <;> simp [doc, Doc.weight]
  | atom n => simp [doc, Doc.weight]

theorem Symbol.weight_doc (s : Symbol) : s.doc.weight line scope = 0 := by
  simp [doc, Doc.weight_concat, Doc.weight, Function.comp_def]

theorem TypeExpr.weight_doc (t : TypeExpr) : t.doc.weight line scope = 0 := by
  obtain ⟨form, _⟩ := t
  cases form with
  | record name => exact name.weight_doc
  | prim p => cases p <;> simp [doc, Doc.weight, PrimType.keyword]
  | _ => simp [doc, Doc.weight]

theorem Doc.weight_typed {mark : String} (h : Text.OneLine mark) (ty : Option TypeExpr) :
    (Doc.typed mark ty).weight line scope = 0 := by
  cases ty with
  | none => rfl
  | some t => simp [typed, weight_of_oneLine h, t.weight_doc]

/-- Documents that stand on one line, in a row. -/
theorem Doc.sum_weights_eq_zero {α : Type} {f : α → Doc} {xs : List α}
    (h : ∀ x ∈ xs, (f x).weight line scope = 0) :
    (xs.map (Doc.weight line scope ∘ f)).sum = 0 := by
  induction xs with
  | nil => rfl
  | cons x xs ih =>
    rw [List.forall_mem_cons] at h
    simp [h.1, ih h.2]

theorem Doc.weight_bracketed_eq_zero {α : Type} {f : α → Doc} {c : Chain α}
    (h : ∀ x, some x ∈ c.slots → (f x).weight line scope = 0) :
    (bracketed (c.map f)).weight line scope = 0 := by
  rw [weight_bracketed_map (g := fun _ => []) h, Chain.parts, Chain.elements_map, Chain.rest?_map]
  cases c.rest? <;> simp

theorem Pattern.weight_of_form (form : PatternForm) (ty : Option TypeExpr) (place : Span)
    (h : form.doc.weight line scope = 0) :
    (Pattern.doc ⟨form, ty, place⟩).weight line scope = 0 := by
  rw [Pattern.doc, Doc.weight_append, h, Doc.weight_typed (by decide)]

theorem pattern_weight_steps : Pattern.Steps fun p => p.doc.weight line scope = 0 where
  list c ty place ih := by
    refine Pattern.weight_of_form _ ty place ?_
    rw [PatternForm.doc, Pattern.chainDocs_eq_map, Doc.weight_bracketed_eq_zero ih]
  map es ty place ih := by
    refine Pattern.weight_of_form _ ty place ?_
    rw [PatternForm.doc, Doc.weight_braced, Pattern.entryDocs_eq_map, List.map_map]
    refine Doc.sum_weights_eq_zero fun e he => ?_
    simp [Doc.entry, Doc.weight, (ih e he).1, (ih e he).2]
  record name fs ty place ih := by
    refine Pattern.weight_of_form _ ty place ?_
    have hf : ((Pattern.fieldDocs fs).map (Doc.weight line scope)).sum = 0 := by
      rw [Pattern.fieldDocs_eq_map, List.map_map]
      exact Doc.sum_weights_eq_zero fun f hf => by simp [Doc.field, Doc.weight, ih f hf]
    simp [PatternForm.doc, Doc.weight_braced, Doc.weight, name.weight_doc, hf]
  symbol path ty place := Pattern.weight_of_form _ ty place path.weight_doc
  value v ty place := Pattern.weight_of_form _ ty place v.weight_doc

theorem weight_stmts {ss : List Stmt}
    (h : ∀ s ∈ ss, s.doc.weight line scope = Part.total line scope s.parts) :
    ((Stmt.docs ss).map fun d => line + d.weight line scope).sum =
      Part.total line scope (Stmt.listParts ss) := by
  rw [Stmt.docs_eq_map, List.map_map, Stmt.listParts_eq_flatMap]
  exact Part.total_flatMap fun s hs => by simp [Part.weight, h s hs]

theorem weight_exprs {es : List Expr}
    (h : ∀ e ∈ es, e.doc.weight line scope = Part.total line scope e.parts) :
    ((Expr.docs es).map (Doc.weight line scope)).sum =
      Part.total line scope (Expr.listParts es) := by
  rw [Expr.docs_eq_map, List.map_map, Expr.listParts_eq_flatMap]
  exact Part.total_flatMap h

theorem expr_weight_steps :
    Expr.Steps (fun e => e.doc.weight line scope = Part.total line scope e.parts)
      (fun s => s.doc.weight line scope = Part.total line scope s.parts) where
  ifElse cond body elseBody ty place ihc ihb ihe := by
    cases elseBody with
    | none =>
      simp [Expr.doc, ExprForm.doc, Expr.parts, ExprForm.parts, Doc.block, Doc.closing,
        Doc.weight, Doc.weight_lines, Part.weight, ihc, weight_stmts ihb]
      omega
    | some stmts =>
      simp [Expr.doc, ExprForm.doc, Expr.parts, ExprForm.parts, Doc.block, Doc.closing,
        Doc.weight, Doc.weight_lines, Part.weight, ihc, weight_stmts ihb,
        weight_stmts (ihe stmts rfl)]
      omega
  case scrutinee arms ty place ihs iha := by
    have ha : ((Expr.armDocs arms).map (Doc.weight line scope)).sum =
        Part.total line scope (Expr.armParts arms) := by
      rw [Expr.armDocs_eq_map, List.map_map, Expr.armParts_eq_flatMap]
      refine Part.total_flatMap fun a ha => ?_
      simp [Doc.arm, Doc.entry, Doc.weight, Part.weight, iha a ha, pattern_weight_steps.all a.1]
    simp [Expr.doc, ExprForm.doc, Expr.parts, ExprForm.parts, Doc.weight, Doc.weight_concat,
      Part.weight, ihs, ha]
    omega
  record name fs ty place ih := by
    have hf : ((Expr.fieldDocs fs).map (Doc.weight line scope)).sum =
        Part.total line scope (Expr.fieldParts fs) := by
      rw [Expr.fieldDocs_eq_map, List.map_map, Expr.fieldParts_eq_flatMap]
      exact Part.total_flatMap fun f hf => by simp [Doc.field, Doc.weight, ih f hf]
    simp [Expr.doc, ExprForm.doc, Expr.parts, ExprForm.parts, Doc.weight, Doc.weight_braced,
      name.weight_doc, hf]
  list c ty place ih := by
    rw [Expr.doc, ExprForm.doc, Expr.parts, ExprForm.parts, Expr.chainDocs_eq_map,
      Expr.chainParts_eq_map, Doc.weight_bracketed_map ih]
  map es ty place ih := by
    rw [Expr.doc, ExprForm.doc, Expr.parts, ExprForm.parts, Doc.weight_braced,
      Expr.entryDocs_eq_map, List.map_map, Expr.entryParts_eq_flatMap]
    refine Part.total_flatMap fun e he => ?_
    simp [Doc.entry, Doc.weight, (ih e he).1, (ih e he).2]
  value v ty place := v.weight_doc
  symbol path ty place := path.weight_doc
  call callee args ty place ih := by
    simp [Expr.doc, ExprForm.doc, Expr.parts, ExprForm.parts, Doc.weight,
      Doc.weight_separated (show Text.OneLine ", " by decide), callee.weight_doc, weight_exprs ih]
  binary op lhs rhs ty place ihl ihr := by
    have hop : List.count '\n' op.symbol.toList = 0 := by cases op <;> decide
    rw [Expr.doc, ExprForm.doc, Expr.parts, ExprForm.parts]
    split <;> simp [Doc.weight, hop, ihl, ihr]
  unary op operand ty place ih := by
    have hop : List.count '\n' op.symbol.toList = 0 := by cases op <;> decide
    simp [Expr.doc, ExprForm.doc, Expr.parts, ExprForm.parts, Doc.weight, hop, ih]
  compound exprs ty place ih := by
    rw [Expr.doc, ExprForm.doc, Expr.parts, ExprForm.parts, Doc.weight_separated (by decide),
      weight_exprs ih]
  define name params result body place ih := by
    have hp : (params.map (Doc.weight line scope ∘ Pattern.doc)).sum = 0 :=
      Doc.sum_weights_eq_zero fun p _ => pattern_weight_steps.all p
    simp [Stmt.doc, StmtForm.doc, Stmt.parts, StmtForm.parts, Doc.closing, Doc.weight,
      Doc.weight_separated (show Text.OneLine ", " by decide),
      Doc.weight_typed (show Text.OneLine " => " by decide), Doc.weight_sequence, Part.weight, hp,
      weight_stmts ih]
    omega
  recordType name fields place := by
    have hf : (fields.map (Doc.weight line scope ∘ fun f => Doc.field f.1 f.2.doc)).sum = 0 :=
      Doc.sum_weights_eq_zero fun f _ => by simp [Doc.field, Doc.weight, f.2.weight_doc]
    simp [Stmt.doc, StmtForm.doc, Stmt.parts, StmtForm.parts, Doc.weight, Doc.weight_braced, hf]
  val name init place ih := by
    simp [Stmt.doc, StmtForm.doc, Stmt.parts, StmtForm.parts, Doc.weight, ih]
  module name body place ih := by
    simp [Stmt.doc, StmtForm.doc, Stmt.parts, StmtForm.parts, Doc.block, Doc.closing, Doc.weight,
      Doc.weight_lines, Part.weight, weight_stmts ih]
    omega
  expr e place ih := ih
  loop p container place ih := by
    simp [Stmt.doc, StmtForm.doc, Stmt.parts, StmtForm.parts, Doc.weight, ih,
      pattern_weight_steps.all p]

/-- The line ends and scopes in the document of a node are those of its parts. -/
theorem Node.weight_doc (n : Node) :
    n.doc.weight line scope = Part.total line scope n.parts := by
  cases n with
  | value v => exact v.weight_doc
  | symbol s => exact s.weight_doc
  | type t => exact t.weight_doc
  | pattern p => exact pattern_weight_steps.all p
  | expr e => exact expr_weight_steps.all e
  | stmt s => exact expr_weight_steps.allStmts s
  | program p =>
    rw [doc, Program.doc, Doc.weight_lines, parts,
      weight_stmts fun s _ => expr_weight_steps.allStmts s]
  | exprChain c =>
    rw [doc, parts, Expr.chainDocs_eq_map, Expr.chainParts_eq_map]
    exact Doc.weight_bracketed_map fun e _ => expr_weight_steps.all e
  | patternChain c =>
    rw [doc, Pattern.chainDocs_eq_map]
    exact Doc.weight_bracketed_eq_zero fun p _ => pattern_weight_steps.all p

end Treeprint
