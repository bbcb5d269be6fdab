import Treeprint.Datum
import Treeprint.Wire.Bytes

/-!
# Data as bytes

A name takes four bytes and a word eight, a flag or the mark of an optional part takes one, a
sequence is its length in eight bytes and then its items, and an alternative is its position in
four bytes and then its parts. A constructor without alternatives adds nothing to its parts. A
node of a chain is its value slot and then the mark of its tail.
-/

namespace Treeprint

def Tag.bytes (t : Tag) : List UInt8 :=
  match t.index with
  | none => []
  | some i => Wire.leBytes 4 i

namespace Datum

open Wire (leBytes)

mutual

/-- The bytes of a datum, before the bytes that follow it. -/
def encodeTo : Datum → List UInt8 → List UInt8
  | handle n, k => leBytes 4 n.index ++ k
  | span s, k => leBytes 4 s.start.toNat ++ (leBytes 4 s.stop.toNat ++ k)
  | word n, k => leBytes 8 n.toNat ++ k
  | flag b, k => b.toUInt8 :: k
  | absent, k => 0 :: k
  | present d, k => 1 :: d.encodeTo k
  | seq items, k => leBytes 8 items.length ++ encodeItems items k
  | chain slots, k => encodeSlots slots k
  | tuple tag items, k => tag.bytes ++ encodeItems items k
  | record tag fields, k => tag.bytes ++ encodeFields fields k

def encodeItems : List Datum → List UInt8 → List UInt8
  | [], k => k
  | d :: ds, k => d.encodeTo (encodeItems ds k)

/-- Each slot is followed by the mark that says whether there is a next one. -/
def encodeSlots : List Datum → List UInt8 → List UInt8
  | [], k => k
  | d :: ds, k => d.encodeTo ((!ds.isEmpty).toUInt8 :: encodeSlots ds k)

def encodeFields : List (String × Datum) → List UInt8 → List UInt8
  | [], k => k
  | (_, d) :: fs, k => d.encodeTo (encodeFields fs k)

end

def encode (d : Datum) : List UInt8 := d.encodeTo []

end Datum

end Treeprint
