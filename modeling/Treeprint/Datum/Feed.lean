import Treeprint.Datum

/-!
# What data feed to a hasher

The values that a datum feeds to a hasher, in order. Equal data feed the same values, so their
hashes agree whatever the hasher does with them.
-/

namespace Treeprint

inductive Fed where
  | byte (b : UInt8)
  | half (n : UInt32)
  | word (n : UInt64)
  /-- The length of a sequence. -/
  | length (n : Nat)
  /-- The position of an alternative. -/
  | alternative (n : Nat)
  deriving DecidableEq, Repr

/-- What a constructor feeds before its parts. -/
def Tag.feed (t : Tag) : List Fed := t.index.toList.map .alternative

namespace Datum

mutual

/-- What a datum feeds, before what is fed after it. -/
def feedTo : Datum → List Fed → List Fed
  | handle n, k => .half n.raw :: k
  | span s, k => .half s.start :: .half s.stop :: k
  | word n, k => .word n :: k
  | flag b, k => .byte b.toUInt8 :: k
  | absent, k => .alternative 0 :: k
  | present d, k => .alternative 1 :: d.feedTo k
  | seq items, k => .length items.length :: feedItems items k
  | chain slots, k => feedSlots slots k
  | tuple tag items, k => tag.feed ++ feedItems items k
  | record tag fields, k => tag.feed ++ feedFields fields k

def feedItems : List Datum → List Fed → List Fed
  | [], k => k
  | d :: ds, k => d.feedTo (feedItems ds k)

/-- Each slot is followed by whether there is a next one. -/
def feedSlots : List Datum → List Fed → List Fed
  | [], k => k
  | d :: ds, k => d.feedTo (.byte (!ds.isEmpty).toUInt8 :: feedSlots ds k)

def feedFields : List (String × Datum) → List Fed → List Fed
  | [], k => k
  | (_, d) :: fs, k => d.feedTo (feedFields fs k)

end

def feed (d : Datum) : List Fed := d.feedTo []

end Datum

end Treeprint
