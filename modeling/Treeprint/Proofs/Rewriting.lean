import Treeprint.Tree.Node

/-!
# Rewriting trees

A rewriting says what becomes of the parts of which trees are made (`Rewriting`): of names, of
places, of the types of expressions, and of chains, which keep their elements and their rest. A tree
is rewritten by doing this to all its parts, from the innermost outwards (`Node.rewrite`).

The normal form of a tree (`Node.normal`) has no places, no types of expressions, and only chains as
they are made from elements and a rest.
-/

namespace Treeprint

/-- What becomes of the parts of a tree. -/
structure Rewriting where
  name : Name → Name := fun n => n
  place : Span → Span := fun s => s
  /-- What becomes of the type of an expression. Types elsewhere are rewritten in their parts. -/
  note : Option TypeExpr → Option TypeExpr := fun ty => ty
  chain : {α : Type} → Chain α → Chain α := fun c => c
  elements_chain : ∀ {α : Type} (c : Chain α), (chain c).elements = c.elements := by intros; rfl
  rest?_chain : ∀ {α : Type} (c : Chain α), (chain c).rest? = c.rest? := by intros; rfl

section

variable (r : Rewriting)

def Value.rewrite : Value → Value
  | .str n => .str (r.name n)
  | .atom n => .atom (r.name n)
  | .unit => .unit
  | .int n => .int n
  | .float bits => .float bits
  | .bool b => .bool b

def Symbol.rewrite (s : Symbol) : Symbol := ⟨s.modules.map r.name, r.name s.name⟩

def TypeForm.rewrite : TypeForm → TypeForm
  | .record name => .record (name.rewrite r)
  | .list => .list
  | .map => .map
  | .any => .any
  | .prim p => .prim p

def TypeExpr.rewrite (t : TypeExpr) : TypeExpr := ⟨t.form.rewrite r, r.place t.span⟩

mutual

def Pattern.rewrite : Pattern → Pattern
  | ⟨form, ty, place⟩ => ⟨form.rewrite, ty.map (TypeExpr.rewrite r), r.place place⟩

def PatternForm.rewrite : PatternForm → PatternForm
  | .list chain => .list (r.chain (Pattern.rewriteChain chain))
  | .map entries => .map (Pattern.rewriteEntries entries)
  | .record name fields => .record (name.rewrite r) (Pattern.rewriteFields fields)
  | .symbol path => .symbol (path.rewrite r)
  | .value literal => .value (literal.rewrite r)

def Pattern.rewriteChain : Chain Pattern → Chain Pattern
  | .element v t => .element v.rewrite (Pattern.rewriteChain t)
  | .last v => .last v.rewrite
  | .rest t => .rest (Pattern.rewriteChain t)
  | .terminator => .terminator

def Pattern.rewriteEntries : List (Pattern × Pattern) → List (Pattern × Pattern)
  | [] => []
  | (k, v) :: rest => (k.rewrite, v.rewrite) :: Pattern.rewriteEntries rest

def Pattern.rewriteFields : List (Name × Pattern) → List (Name × Pattern)
  | [] => []
  | (n, p) :: rest => (r.name n, p.rewrite) :: Pattern.rewriteFields rest

end

mutual

def Expr.rewrite : Expr → Expr
  | ⟨form, ty, place⟩ => ⟨form.rewrite, r.note ty, r.place place⟩

def ExprForm.rewrite : ExprForm → ExprForm
  | .ifElse cond body none => .ifElse cond.rewrite (Stmt.rewriteList body) none
  | .ifElse cond body (some stmts) =>
    .ifElse cond.rewrite (Stmt.rewriteList body) (some (Stmt.rewriteList stmts))
  | .case scrutinee arms => .case scrutinee.rewrite (Expr.rewriteArms arms)
  | .record name fields => .record (name.rewrite r) (Expr.rewriteFields fields)
  | .list chain => .list (r.chain (Expr.rewriteChain chain))
  | .map entries => .map (Expr.rewriteEntries entries)
  | .value literal => .value (literal.rewrite r)
  | .symbol path => .symbol (path.rewrite r)
  | .call callee args => .call (callee.rewrite r) (Expr.rewriteList args)
  | .binary op lhs rhs => .binary op lhs.rewrite rhs.rewrite
  | .unary op operand => .unary op operand.rewrite
  | .compound exprs => .compound (Expr.rewriteList exprs)

def Expr.rewriteArms : List (Pattern × Expr) → List (Pattern × Expr)
  | [] => []
  | (p, e) :: rest => (p.rewrite r, e.rewrite) :: Expr.rewriteArms rest

def Expr.rewriteFields : List (Name × Expr) → List (Name × Expr)
  | [] => []
  | (n, e) :: rest => (r.name n, e.rewrite) :: Expr.rewriteFields rest

def Expr.rewriteChain : Chain Expr → Chain Expr
  | .element v t => .element v.rewrite (Expr.rewriteChain t)
  | .last v => .last v.rewrite
  | .rest t => .rest (Expr.rewriteChain t)
  | .terminator => .terminator

def Expr.rewriteEntries : List (Expr × Expr) → List (Expr × Expr)
  | [] => []
  | (k, v) :: rest => (k.rewrite, v.rewrite) :: Expr.rewriteEntries rest

def Expr.rewriteList : List Expr → List Expr
  | [] => []
  | e :: rest => e.rewrite :: Expr.rewriteList rest

def Stmt.rewrite : Stmt → Stmt
  | ⟨form, place⟩ => ⟨form.rewrite, r.place place⟩

def StmtForm.rewrite : StmtForm → StmtForm
  | .define name params result body =>
    .define (r.name name) (params.map (Pattern.rewrite r)) (result.map (TypeExpr.rewrite r))
      (Stmt.rewriteList body)
  | .record name fields => .record (r.name name) (fields.map fun (n, t) => (r.name n, t.rewrite r))
  | .val name init => .val (r.name name) init.rewrite
  | .module name body => .module (r.name name) (Stmt.rewriteList body)
  | .expr e => .expr e.rewrite
  | .loop pattern container => .loop (pattern.rewrite r) container.rewrite

def Stmt.rewriteList : List Stmt → List Stmt
  | [] => []
  | s :: rest => s.rewrite :: Stmt.rewriteList rest

end

def Node.rewrite : Node → Node
  | .value v => .value (v.rewrite r)
  | .symbol s => .symbol (s.rewrite r)
  | .type t => .type (t.rewrite r)
  | .pattern p => .pattern (p.rewrite r)
  | .expr e => .expr (e.rewrite r)
  | .stmt s => .stmt (s.rewrite r)
  | .program p => .program ⟨Stmt.rewriteList r p.body⟩
  | .exprChain c => .exprChain (r.chain (Expr.rewriteChain r c))
  | .patternChain c => .patternChain (r.chain (Pattern.rewriteChain r c))

end

/-- No places, no types of expressions, and chains as `Chain.make` makes them. -/
def Rewriting.normal : Rewriting where
  place _ := .dummy
  note _ := none
  chain c := .make c.elements c.rest?
  elements_chain c := Chain.elements_make c.elements c.rest?
  rest?_chain c := Chain.rest?_make c.elements c.rest?

def Node.normal (n : Node) : Node := n.rewrite .normal

/-! ## The parts one by one -/

section

variable {r : Rewriting}

theorem Pattern.rewriteChain_eq_map (c : Chain Pattern) :
    Pattern.rewriteChain r c = c.map (Pattern.rewrite r) := by
  induction c <;> simp_all [Pattern.rewriteChain, Chain.map]

theorem Pattern.rewriteEntries_eq_map (es : List (Pattern × Pattern)) :
    Pattern.rewriteEntries r es = es.map fun (k, v) => (k.rewrite r, v.rewrite r) := by
  induction es <;> simp_all [Pattern.rewriteEntries]

theorem Pattern.rewriteFields_eq_map (fs : List (Name × Pattern)) :
    Pattern.rewriteFields r fs = fs.map fun (n, p) => (r.name n, p.rewrite r) := by
  induction fs <;> simp_all [Pattern.rewriteFields]

theorem Expr.rewriteArms_eq_map (as : List (Pattern × Expr)) :
    Expr.rewriteArms r as = as.map fun (p, e) => (p.rewrite r, e.rewrite r) := by
  induction as <;> simp_all [Expr.rewriteArms]

theorem Expr.rewriteFields_eq_map (fs : List (Name × Expr)) :
    Expr.rewriteFields r fs = fs.map fun (n, e) => (r.name n, e.rewrite r) := by
  induction fs <;> simp_all [Expr.rewriteFields]

theorem Expr.rewriteChain_eq_map (c : Chain Expr) :
    Expr.rewriteChain r c = c.map (Expr.rewrite r) := by
  induction c <;> simp_all [Expr.rewriteChain, Chain.map]

theorem Expr.rewriteEntries_eq_map (es : List (Expr × Expr)) :
    Expr.rewriteEntries r es = es.map fun (k, v) => (k.rewrite r, v.rewrite r) := by
  induction es <;> simp_all [Expr.rewriteEntries]

theorem Expr.rewriteList_eq_map (es : List Expr) :
    Expr.rewriteList r es = es.map (Expr.rewrite r) := by
  induction es <;> simp_all [Expr.rewriteList]

theorem Stmt.rewriteList_eq_map (ss : List Stmt) :
    Stmt.rewriteList r ss = ss.map (Stmt.rewrite r) := by
  induction ss <;> simp_all [Stmt.rewriteList]

end

end Treeprint
