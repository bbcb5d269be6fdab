import Treeprint.Wire.Tree

/-!
# The bytes of data

`Datum.encodeTo` writes a datum before the bytes that follow it. What it writes does not depend on
those (`encodeTo_eq_append`), so the bytes of a datum are the bytes of its parts one after the
other. The lemmas `encode_*` say so for each kind of datum, and for each shape of a chain's first
node.
-/

namespace Treeprint

namespace Datum

open Wire (leBytes)

mutual

theorem encodeTo_eq_append : ∀ (d : Datum) (k : List UInt8), d.encodeTo k = d.encode ++ k
  | handle n, k => by simp [encode, encodeTo]
  | span s, k => by simp [encode, encodeTo]
  | word n, k => by simp [encode, encodeTo]
  | flag b, k => by simp [encode, encodeTo]
  | absent, k => by simp [encode, encodeTo]
  | present d, k => by
    rw [encode, encodeTo, encodeTo, encodeTo_eq_append d k, encodeTo_eq_append d []]
    simp
  | seq items, k => by
    rw [encode, encodeTo, encodeTo, encodeItems_eq_append items k,
      encodeItems_eq_append items []]
    simp
  | chain slots, k => by
    rw [encode, encodeTo, encodeTo, encodeSlots_eq_append slots k]
  | tuple tag items, k => by
    rw [encode, encodeTo, encodeTo, encodeItems_eq_append items k,
      encodeItems_eq_append items []]
    simp
  | record tag fields, k => by
    rw [encode, encodeTo, encodeTo, encodeFields_eq_append fields k,
      encodeFields_eq_append fields []]
    simp

theorem encodeItems_eq_append : ∀ (ds : List Datum) (k : List UInt8),
    encodeItems ds k = ds.flatMap encode ++ k
  | [], k => rfl
  | d :: ds, k => by
    rw [encodeItems, encodeItems_eq_append ds k, encodeTo_eq_append d]
    simp

theorem encodeSlots_eq_append : ∀ (ds : List Datum) (k : List UInt8),
    encodeSlots ds k = encodeSlots ds [] ++ k
  | [], k => rfl
  | d :: ds, k => by
    rw [encodeSlots, encodeSlots, encodeSlots_eq_append ds k, encodeTo_eq_append d,
      encodeTo_eq_append d]
    simp

theorem encodeFields_eq_append : ∀ (fs : List (String × Datum)) (k : List UInt8),
    encodeFields fs k = fs.flatMap (fun f => f.2.encode) ++ k
  | [], k => rfl
  | (_, d) :: fs, k => by
    rw [encodeFields, encodeFields_eq_append fs k, encodeTo_eq_append d]
    simp

end

@[simp] theorem encode_handle (n : Name) : (handle n).encode = leBytes 4 n.index := by
  simp [encode, encodeTo]

@[simp] theorem encode_span (s : Span) :
    (span s).encode = leBytes 4 s.start.toNat ++ leBytes 4 s.stop.toNat := by
  simp [encode, encodeTo]

@[simp] theorem encode_word (n : UInt64) : (word n).encode = leBytes 8 n.toNat := by
  simp [encode, encodeTo]

@[simp] theorem encode_flag (b : Bool) : (flag b).encode = [b.toUInt8] := rfl

@[simp] theorem encode_absent : absent.encode = [0] := rfl

@[simp] theorem encode_present (d : Datum) : (present d).encode = 1 :: d.encode := rfl

@[simp] theorem encode_seq (ds : List Datum) :
    (seq ds).encode = leBytes 8 ds.length ++ ds.flatMap encode := by
  rw [encode, encodeTo, encodeItems_eq_append, List.append_nil]

@[simp] theorem encode_tuple (tag : Tag) (ds : List Datum) :
    (tuple tag ds).encode = tag.bytes ++ ds.flatMap encode := by
  rw [encode, encodeTo, encodeItems_eq_append, List.append_nil]

@[simp] theorem encode_record (tag : Tag) (fs : List (String × Datum)) :
    (record tag fs).encode = tag.bytes ++ fs.flatMap fun f => f.2.encode := by
  rw [encode, encodeTo, encodeFields_eq_append, List.append_nil]

@[simp] theorem encode_variant (label : String) (i : Nat) (ds : List Datum) :
    (variant label i ds).encode = leBytes 4 i ++ ds.flatMap encode :=
  encode_tuple _ _

@[simp] theorem encode_variantRecord (label : String) (i : Nat) (fs : List (String × Datum)) :
    (variantRecord label i fs).encode = leBytes 4 i ++ fs.flatMap fun f => f.2.encode :=
  encode_record _ _

@[simp] theorem encode_pair (label first second : String) (a b : Datum) :
    (pair label first second a b).encode = a.encode ++ b.encode := by
  simp [pair, Tag.bytes]

@[simp] theorem encode_body (ds : List Datum) :
    (body ds).encode = leBytes 8 ds.length ++ ds.flatMap encode := by
  simp [body, Tag.bytes]

end Datum

namespace Chain

variable {α : Type}

theorem slots_ne_nil (c : Chain α) : c.slots ≠ [] := by
  cases c <;> simp [slots]

theorem encodeSlots_cons (slot : Option Datum) (c : Chain Datum) :
    (Datum.chain (Datum.ofOption slot :: c.slots.map Datum.ofOption)).encode =
      (Datum.ofOption slot).encode ++ 1 :: c.datum.encode := by
  have hc : (c.slots.map Datum.ofOption).isEmpty = false := by
    simpa using slots_ne_nil c
  rw [Datum.encode, Datum.encodeTo, Datum.encodeSlots, Datum.encodeTo_eq_append, hc]
  rfl

@[simp] theorem encode_element (d : Datum) (c : Chain Datum) :
    (Chain.element d c).datum.encode = 1 :: d.encode ++ 1 :: c.datum.encode :=
  encodeSlots_cons (some d) c

@[simp] theorem encode_last (d : Datum) :
    (Chain.last d).datum.encode = 1 :: d.encode ++ [0] := by
  rw [datum, slots, List.map_singleton, Datum.encode, Datum.encodeTo, Datum.encodeSlots,
    Datum.encodeTo_eq_append]
  rfl

@[simp] theorem encode_rest (c : Chain Datum) :
    (Chain.rest c).datum.encode = 0 :: 1 :: c.datum.encode :=
  encodeSlots_cons none c

@[simp] theorem encode_terminator : (Chain.terminator : Chain Datum).datum.encode = [0, 0] := rfl

end Chain

end Treeprint
