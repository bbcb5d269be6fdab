import Treeprint.Datum
import Treeprint.Text.Spaces

/-!
# Labelled text of data

A datum in text, with all its labels. The compact style keeps everything on one line. The tall
style gives every part a line of its own, four spaces deeper than what it is a part of, with a
comma behind it.
-/

namespace Treeprint

/-- How the parts of a datum are laid out. -/
inductive Style where
  | compact
  /-- One part per line; the datum itself is so many levels deep. -/
  | tall (level : Nat)
  deriving DecidableEq, Repr

namespace Style

def newline (level : Nat) : String := "\n" ++ Text.spaces (4 * level)

def inner : Style → Style
  | compact => compact
  | tall level => tall (level + 1)

def before (first : Bool) : Style → String
  | compact => if first then "" else ", "
  | tall level => newline (level + 1)

def behind : Style → String
  | compact => ""
  | tall _ => ","

/-- What stands before the bracket that closes the parts. -/
def close : Style → String
  | compact => ""
  | tall level => newline level

/-- What keeps a brace apart from the parts on the same line. -/
def pad : Style → String
  | compact => " "
  | tall _ => ""

end Style

namespace Datum

mutual

/-- Adds the text of a datum to a text. -/
def inspectTo (style : Style) : Datum → String → String
  | handle n, acc => acc ++ n.label
  | span s, acc => acc ++ s.label
  | word n, acc => acc ++ toString n.toNat
  | flag b, acc => acc ++ (if b then "true" else "false")
  | absent, acc => acc ++ "None"
  | present d, acc =>
    d.inspectTo style.inner (acc ++ "Some(" ++ style.before true) ++ style.behind ++ style.close ++
      ")"
  | seq [], acc => acc ++ "[]"
  | seq (d :: ds), acc => inspectItems style true (d :: ds) (acc ++ "[") ++ style.close ++ "]"
  | chain [], acc => acc ++ "ListCons[]"
  | chain (d :: ds), acc =>
    inspectItems style true (d :: ds) (acc ++ "ListCons[") ++ style.close ++ "]"
  | tuple tag [], acc => acc ++ tag.label
  | tuple tag (d :: ds), acc =>
    inspectItems style true (d :: ds) (acc ++ tag.label ++ "(") ++ style.close ++ ")"
  | record tag [], acc => acc ++ tag.label
  | record tag (f :: fs), acc =>
    inspectFields style true (f :: fs) (acc ++ tag.label ++ " \x7b" ++ style.pad) ++ style.close ++
      style.pad ++ "\x7d"

def inspectItems (style : Style) (first : Bool) : List Datum → String → String
  | [], acc => acc
  | d :: ds, acc =>
    inspectItems style false ds
      (d.inspectTo style.inner (acc ++ style.before first) ++ style.behind)

def inspectFields (style : Style) (first : Bool) : List (String × Datum) → String → String
  | [], acc => acc
  | (label, d) :: fs, acc =>
    inspectFields style false fs
      (d.inspectTo style.inner (acc ++ style.before first ++ label ++ ": ") ++ style.behind)

end

def compact (d : Datum) : String := d.inspectTo .compact ""

/-- The text of a datum with a line for each part. -/
def tall (d : Datum) : String := d.inspectTo (.tall 0) ""

end Datum

end Treeprint
