import Treeprint.Tree.Equality

/-!
# Nodes

A node is a tree of any family: a literal, a symbol, a type, a pattern, an expression, a
statement, a program, or a chain on its own.
-/

namespace Treeprint

inductive Family where
  | value
  | symbol
  | type
  | pattern
  | expr
  | stmt
  | program
  | exprChain
  | patternChain
  deriving DecidableEq, Repr

inductive Node where
  | value (v : Value)
  | symbol (s : Symbol)
  | type (t : TypeExpr)
  | pattern (p : Pattern)
  | expr (e : Expr)
  | stmt (s : Stmt)
  | program (p : Program)
  | exprChain (c : Chain Expr)
  | patternChain (c : Chain Pattern)

namespace Node

def family : Node → Family
  | .value _ => .value
  | .symbol _ => .symbol
  | .type _ => .type
  | .pattern _ => .pattern
  | .expr _ => .expr
  | .stmt _ => .stmt
  | .program _ => .program
  | .exprChain _ => .exprChain
  | .patternChain _ => .patternChain

/-- Nodes of different families are never equal. -/
def beq : Node → Node → Bool
  | .value a, .value b => a == b
  | .symbol a, .symbol b => a == b
  | .type a, .type b => a == b
  | .pattern a, .pattern b => a == b
  | .expr a, .expr b => a == b
  | .stmt a, .stmt b => a == b
  | .program a, .program b => a == b
  | .exprChain a, .exprChain b => Expr.beqChain a b
  | .patternChain a, .patternChain b => Pattern.beqChain a b
  | _, _ => false

instance : BEq Node := ⟨beq⟩

end Node

end Treeprint
