import Treeprint.Chain
import Treeprint.Interner
import Treeprint.Tree.TypeExpr
import Treeprint.Value

/-!
# Patterns

Patterns nest: the elements of a list, the keys and values of a map and the fields of a record are
patterns again. Every pattern may carry a type and has a span. The wildcard is not a form of its
own but the unqualified symbol `_`, so only an interner can tell it from another symbol.
-/

namespace Treeprint

mutual

/-- A pattern with its type, if it has one, and its place. -/
structure Pattern where
  form : PatternForm
  ty : Option TypeExpr
  span : Span

inductive PatternForm where
  | list (chain : Chain Pattern)
  /-- Pairs of key and value. -/
  | map (entries : List (Pattern × Pattern))
  | record (name : Symbol) (fields : List (Name × Pattern))
  | symbol (path : Symbol)
  | value (literal : Value)

end

namespace Pattern

/-- The pattern of a form, with no type and no place. -/
def ofForm (form : PatternForm) : Pattern := ⟨form, none, .dummy⟩

instance : Inhabited Pattern := ⟨ofForm (.value .unit)⟩

/-- The pattern `[e₀, e₁, … :: rest]`. -/
def ofList (elements : List Pattern) (rest : Option Pattern) : Pattern :=
  ofForm (.list (.make elements rest))

def withType (p : Pattern) (ty : TypeExpr) : Pattern := ⟨p.form, some ty, p.span⟩

def withSpan (p : Pattern) (span : Span) : Pattern := ⟨p.form, p.ty, span⟩

/-- The pattern `_`, for which the text may have to be interned. -/
def wildcard : InternM Pattern := do
  return ofForm (.symbol (.unqualified (← Interner.intern "_")))

/-- Whether the pattern is the unqualified symbol `_`, whatever its type. -/
def isWildcard (i : Interner) (p : Pattern) : Except Interner.Foreign Bool :=
  match p.form with
  | .symbol path =>
    if path.isQualified then .ok false
    else do return (← i.lookup path.name) = "_"
  | _ => .ok false

end Pattern

end Treeprint
