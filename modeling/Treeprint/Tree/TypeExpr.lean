import Treeprint.Span
import Treeprint.Symbol

/-!
# Type annotations

A pattern, an expression, a record field or the result of a definition may carry a type: one of
the two collections, a record type by its path, anything at all, or a scalar.
-/

namespace Treeprint

inductive PrimType where
  | string
  | int
  | float
  | bool
  | atom
  | unit
  deriving DecidableEq, Repr, Inhabited

namespace PrimType

def all : List PrimType := [string, int, float, bool, atom, unit]

def tag (p : PrimType) : Nat := p.ctorIdx

theorem all_tag (p : PrimType) : all[p.tag]? = some p := by cases p <;> rfl

def label : PrimType → String
  | string => "String"
  | int => "Int"
  | float => "Float"
  | bool => "Bool"
  | atom => "Atom"
  | unit => "Unit"

def keyword : PrimType → String
  | string => "string"
  | int => "int"
  | float => "float"
  | bool => "bool"
  | atom => "atom"
  | unit => "()"

def ofLabel? (s : String) : Option PrimType := all.find? (·.label = s)

end PrimType

inductive TypeForm where
  | list
  | map
  | record (name : Symbol)
  | any
  | prim (p : PrimType)
  deriving DecidableEq, Repr, Inhabited

structure TypeExpr where
  form : TypeForm
  span : Span := .dummy
  deriving DecidableEq, Repr, Inhabited

end Treeprint
