/-!
# Operators

The operators of expressions, each with the symbol that stands for it in text, its label, and its
position in the list of operators of its kind. Indexing is a binary operator whose operands are
written around its brackets, so its symbol is only a name for it.
-/

namespace Treeprint

inductive BinaryOp where
  | add
  | sub
  | mul
  | div
  | mod
  | logicalAnd
  | logicalOr
  | logicalXor
  | bitAnd
  | bitOr
  | bitXor
  | shl
  | shr
  | eq
  | notEq
  | gt
  | gtEq
  | lt
  | ltEq
  | index
  deriving DecidableEq, Repr, Inhabited

namespace BinaryOp

def all : List BinaryOp :=
  [add, sub, mul, div, mod, logicalAnd, logicalOr, logicalXor, bitAnd, bitOr, bitXor, shl, shr, eq,
    notEq, gt, gtEq, lt, ltEq, index]

def tag (op : BinaryOp) : Nat := op.ctorIdx

theorem all_tag (op : BinaryOp) : all[op.tag]? = some op := by cases op <;> rfl

def label : BinaryOp → String
  | add => "Add"
  | sub => "Sub"
  | mul => "Mul"
  | div => "Div"
  | mod => "Mod"
  | logicalAnd => "LogicalAnd"
  | logicalOr => "LogicalOr"
  | logicalXor => "LogicalXor"
  | bitAnd => "BitAnd"
  | bitOr => "BitOr"
  | bitXor => "BitXor"
  | shl => "Shl"
  | shr => "Shr"
  | eq => "Eq"
  | notEq => "NotEq"
  | gt => "Gt"
  | gtEq => "GtEq"
  | lt => "Lt"
  | ltEq => "LtEq"
  | index => "Index"

def symbol : BinaryOp → String
  | add => "+"
  | sub => "-"
  | mul => "*"
  | div => "/"
  | mod => "%"
  | logicalAnd => "&&"
  | logicalOr => "||"
  | logicalXor => "^^"
  | bitAnd => "band"
  | bitOr => "bor"
  | bitXor => "bxor"
  | shl => "<<"
  | shr => ">>"
  | eq => "=="
  | notEq => "!="
  | gt => ">"
  | gtEq => ">="
  | lt => "<"
  | ltEq => "<="
  | index => "[]"

def ofLabel? (s : String) : Option BinaryOp := all.find? (·.label = s)

end BinaryOp

/-- Operators with one operand, written before it. -/
inductive UnaryOp where
  | not
  | inv
  | neg
  deriving DecidableEq, Repr, Inhabited

namespace UnaryOp

def all : List UnaryOp := [not, inv, neg]

def tag (op : UnaryOp) : Nat := op.ctorIdx

theorem all_tag (op : UnaryOp) : all[op.tag]? = some op := by cases op <;> rfl

def label : UnaryOp → String
  | not => "Not"
  | inv => "Inv"
  | neg => "Neg"

def symbol : UnaryOp → String
  | not => "!"
  | inv => "~"
  | neg => "-"

def ofLabel? (s : String) : Option UnaryOp := all.find? (·.label = s)

end UnaryOp

end Treeprint
