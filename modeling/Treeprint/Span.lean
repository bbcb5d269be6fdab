/-!
# Spans

The byte range of a node in its source file. A node built by hand has the dummy span `0..0`. A span
whose end comes before its start is allowed; it is empty and has length 0.
-/

namespace Treeprint

/-- A range of byte positions, from `start` up to `stop`. -/
structure Span where
  start : UInt32
  stop : UInt32
  deriving DecidableEq, Repr

namespace Span

/-- The span of a node with no place in a source file. -/
def dummy : Span := ⟨0, 0⟩

instance : Inhabited Span := ⟨dummy⟩

/-- The bytes covered; none for an inverted span. -/
def length (s : Span) : Nat := s.stop.toNat - s.start.toNat

def isEmpty (s : Span) : Bool := s.stop ≤ s.start

def merge (s t : Span) : Span := ⟨min s.start t.start, max s.stop t.stop⟩

/-- The span in text: `3..9`. -/
def label (s : Span) : String := toString s.start.toNat ++ ".." ++ toString s.stop.toNat

inductive RangeError where
  | startTooLarge (position : Nat)
  | stopTooLarge (position : Nat)
  deriving DecidableEq, Repr

namespace RangeError

def hex (n : Nat) : String := String.ofList ((Nat.toDigits 16 n).map Char.toUpper)

/-- The cause in words, with the position in both bases. -/
def message : RangeError → String
  | .startTooLarge p => "span start " ++ position p
  | .stopTooLarge p => "span end " ++ position p
where
  position (p : Nat) : String :=
    toString p ++ " (0x" ++ hex p ++ ") exceeds u32::MAX (0x" ++ hex (UInt32.size - 1) ++ ")"

def label : RangeError → String
  | .startTooLarge p => "StartTooLarge(" ++ toString p ++ ")"
  | .stopTooLarge p => "EndTooLarge(" ++ toString p ++ ")"

end RangeError

/-- The span of a range of positions. The start is checked first. -/
def ofRange (start stop : Nat) : Except RangeError Span :=
  if hs : start < UInt32.size then
    if he : stop < UInt32.size then .ok ⟨UInt32.ofNatLT start hs, UInt32.ofNatLT stop he⟩
    else .error (.stopTooLarge stop)
  else .error (.startTooLarge start)

end Span

end Treeprint
