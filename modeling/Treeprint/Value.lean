import Treeprint.Name

/-!
# Literal values

The literals of patterns and expressions. Texts are names. A float is kept as its 64 bits, so two
floats are the same literal exactly when their bits are.
-/

namespace Treeprint

inductive Value where
  /-- A string, without its quotes and escapes. -/
  | str (text : Name)
  | unit
  | int (n : UInt64)
  | float (bits : UInt64)
  | bool (b : Bool)
  /-- An atom, without its colon. -/
  | atom (text : Name)
  deriving DecidableEq, Repr, Inhabited

inductive ValueKind where
  | str
  | unit
  | int
  | float
  | bool
  | atom
  deriving DecidableEq, Repr

namespace ValueKind

def label : ValueKind → String
  | .str => "Str"
  | .unit => "Unit"
  | .int => "Int"
  | .float => "Float"
  | .bool => "Bool"
  | .atom => "Atom"

def tag : ValueKind → Nat
  | .str => 0
  | .unit => 1
  | .int => 2
  | .float => 3
  | .bool => 4
  | .atom => 5

end ValueKind

namespace Value

def kind : Value → ValueKind
  | .str _ => .str
  | .unit => .unit
  | .int _ => .int
  | .float _ => .float
  | .bool _ => .bool
  | .atom _ => .atom

def floatBits? : Value → Option UInt64
  | .float bits => some bits
  | _ => none

end Value

end Treeprint
