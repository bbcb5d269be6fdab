import Treeprint.Tree.Operator
import Treeprint.Tree.Pattern

/-!
# Expressions, statements and programs

Expressions and statements hold each other: the branches of an `if` are statements, and most
statements hold an expression. Every expression may carry a type, and every node has a span.
-/

namespace Treeprint

mutual

/-- An expression with its type, if it has one, and its place. -/
structure Expr where
  form : ExprForm
  ty : Option TypeExpr
  span : Span

inductive ExprForm where
  | ifElse (cond : Expr) (body : List Stmt) (elseBody : Option (List Stmt))
  | case (scrutinee : Expr) (arms : List (Pattern × Expr))
  | record (name : Symbol) (fields : List (Name × Expr))
  | list (chain : Chain Expr)
  /-- Pairs of key and value. -/
  | map (entries : List (Expr × Expr))
  | value (literal : Value)
  | symbol (path : Symbol)
  | call (callee : Symbol) (args : List Expr)
  | binary (op : BinaryOp) (lhs rhs : Expr)
  | unary (op : UnaryOp) (operand : Expr)
  /-- Expressions one after the other, in a scope of their own. -/
  | compound (exprs : List Expr)

structure Stmt where
  form : StmtForm
  span : Span

inductive StmtForm where
  | define (name : Name) (params : List Pattern) (result : Option TypeExpr) (body : List Stmt)
  /-- A record type with its fields. -/
  | record (name : Name) (fields : List (Name × TypeExpr))
  | val (name : Name) (init : Expr)
  | module (name : Name) (body : List Stmt)
  | expr (e : Expr)
  /-- Runs through a container, binding each item to the pattern. -/
  | loop (pattern : Pattern) (container : Expr)

end

namespace Expr

/-- The expression of a form, with no type and no place. -/
def ofForm (form : ExprForm) : Expr := ⟨form, none, .dummy⟩

instance : Inhabited Expr := ⟨ofForm (.value .unit)⟩

/-- The expression `[e₀, e₁, … :: rest]`. -/
def ofList (elements : List Expr) (rest : Option Expr) : Expr :=
  ofForm (.list (.make elements rest))

def unit : Expr := ofForm (.value .unit)

def withType (e : Expr) (ty : TypeExpr) : Expr := ⟨e.form, some ty, e.span⟩

def withSpan (e : Expr) (span : Span) : Expr := ⟨e.form, e.ty, span⟩

end Expr

namespace Stmt

def ofForm (form : StmtForm) : Stmt := ⟨form, .dummy⟩

instance : Inhabited Stmt := ⟨ofForm (.expr .unit)⟩

def withSpan (s : Stmt) (span : Span) : Stmt := ⟨s.form, span⟩

end Stmt

structure Program where
  body : List Stmt

instance : Inhabited Program := ⟨⟨[]⟩⟩

end Treeprint
