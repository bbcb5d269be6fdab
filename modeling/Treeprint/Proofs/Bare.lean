import Treeprint.Tree.Expr

/-!
# Trees without places

Two trees that differ only in where they stand in the source, or in the types that expressions
carry, have the same text. What they have in common is the bare tree (`Expr.bare`): no place
anywhere and no type at an expression. The types of patterns, of record fields and of results are
part of the text, so they stay.
-/

namespace Treeprint

def TypeExpr.bare (t : TypeExpr) : TypeExpr := ⟨t.form, .dummy⟩

mutual

def Pattern.bare : Pattern → Pattern
  | ⟨form, ty, _⟩ => ⟨form.bare, ty.map TypeExpr.bare, .dummy⟩

def PatternForm.bare : PatternForm → PatternForm
  | .list chain => .list (Pattern.bareChain chain)
  | .map entries => .map (Pattern.bareEntries entries)
  | .record name fields => .record name (Pattern.bareFields fields)
  | .symbol path => .symbol path
  | .value literal => .value literal

def Pattern.bareChain : Chain Pattern → Chain Pattern
  | .element v t => .element v.bare (Pattern.bareChain t)
  | .last v => .last v.bare
  | .rest t => .rest (Pattern.bareChain t)
  | .terminator => .terminator

def Pattern.bareEntries : List (Pattern × Pattern) → List (Pattern × Pattern)
  | [] => []
  | (k, v) :: rest => (k.bare, v.bare) :: Pattern.bareEntries rest

def Pattern.bareFields : List (Name × Pattern) → List (Name × Pattern)
  | [] => []
  | (n, p) :: rest => (n, p.bare) :: Pattern.bareFields rest

end

mutual

/-- The expression without places and types. -/
def Expr.bare : Expr → Expr
  | ⟨form, _, _⟩ => .ofForm form.bare

def ExprForm.bare : ExprForm → ExprForm
  | .ifElse cond body none => .ifElse cond.bare (Stmt.bareList body) none
  | .ifElse cond body (some stmts) =>
    .ifElse cond.bare (Stmt.bareList body) (some (Stmt.bareList stmts))
  | .case scrutinee arms => .case scrutinee.bare (Expr.bareArms arms)
  | .record name fields => .record name (Expr.bareFields fields)
  | .list chain => .list (Expr.bareChain chain)
  | .map entries => .map (Expr.bareEntries entries)
  | .value literal => .value literal
  | .symbol path => .symbol path
  | .call callee args => .call callee (Expr.bareList args)
  | .binary op lhs rhs => .binary op lhs.bare rhs.bare
  | .unary op operand => .unary op operand.bare
  | .compound exprs => .compound (Expr.bareList exprs)

def Expr.bareArms : List (Pattern × Expr) → List (Pattern × Expr)
  | [] => []
  | (p, e) :: rest => (p.bare, e.bare) :: Expr.bareArms rest

def Expr.bareFields : List (Name × Expr) → List (Name × Expr)
  | [] => []
  | (n, e) :: rest => (n, e.bare) :: Expr.bareFields rest

def Expr.bareChain : Chain Expr → Chain Expr
  | .element v t => .element v.bare (Expr.bareChain t)
  | .last v => .last v.bare
  | .rest t => .rest (Expr.bareChain t)
  | .terminator => .terminator

def Expr.bareEntries : List (Expr × Expr) → List (Expr × Expr)
  | [] => []
  | (k, v) :: rest => (k.bare, v.bare) :: Expr.bareEntries rest

def Expr.bareList : List Expr → List Expr
  | [] => []
  | e :: rest => e.bare :: Expr.bareList rest

def Stmt.bare : Stmt → Stmt
  | ⟨form, _⟩ => .ofForm form.bare

def StmtForm.bare : StmtForm → StmtForm
  | .define name params result body =>
    .define name (params.map Pattern.bare) (result.map TypeExpr.bare) (Stmt.bareList body)
  | .record name fields => .record name (fields.map fun (n, t) => (n, t.bare))
  | .val name init => .val name init.bare
  | .module name body => .module name (Stmt.bareList body)
  | .expr e => .expr e.bare
  | .loop pattern container => .loop pattern.bare container.bare

def Stmt.bareList : List Stmt → List Stmt
  | [] => []
  | s :: rest => s.bare :: Stmt.bareList rest

end

theorem Expr.bare_ofForm (form : ExprForm) : (Expr.ofForm form).bare = .ofForm form.bare := rfl

/-! ## The parts one by one -/

theorem Pattern.bareChain_eq_map (c : Chain Pattern) :
    Pattern.bareChain c = c.map Pattern.bare := by
  induction c <;> simp_all [Pattern.bareChain, Chain.map]

theorem Pattern.bareEntries_eq_map (es : List (Pattern × Pattern)) :
    Pattern.bareEntries es = es.map fun (k, v) => (k.bare, v.bare) := by
  induction es <;> simp_all [Pattern.bareEntries]

theorem Pattern.bareFields_eq_map (fs : List (Name × Pattern)) :
    Pattern.bareFields fs = fs.map fun (n, p) => (n, p.bare) := by
  induction fs <;> simp_all [Pattern.bareFields]

theorem Expr.bareFields_eq_map (fs : List (Name × Expr)) :
    Expr.bareFields fs = fs.map fun (n, e) => (n, e.bare) := by
  induction fs <;> simp_all [Expr.bareFields]

theorem Expr.bareChain_eq_map (c : Chain Expr) : Expr.bareChain c = c.map Expr.bare := by
  induction c <;> simp_all [Expr.bareChain, Chain.map]

theorem Expr.bareEntries_eq_map (es : List (Expr × Expr)) :
    Expr.bareEntries es = es.map fun (k, v) => (k.bare, v.bare) := by
  induction es <;> simp_all [Expr.bareEntries]

theorem Expr.bareList_eq_map (es : List Expr) : Expr.bareList es = es.map Expr.bare := by
  induction es <;> simp_all [Expr.bareList]

end Treeprint
