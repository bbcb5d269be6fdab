import Treeprint.Proofs.Discerning
import Treeprint.Proofs.Wire.Layout

/-!
# Trees told apart by their bytes

Rows of data with the same bytes (`Wire.SameBytes`) can be taken apart from the front, as long as
the length of every sequence fits into the eight bytes that hold it (`Datum.Short`). The leaves
take a fixed number of bytes, the mark of an optional part and the number of an alternative stand
before the part and the parts, and the length of a sequence before its items. A node of a chain is
its value slot and then its tail, both optional parts.

So two trees of one family with the same bytes are the same (`Node.eq_of_encode_eq`).
-/

namespace Treeprint

namespace Datum

mutual

/-- The lengths of all sequences in a datum. -/
def lengths : Datum → List Nat
  | handle _ | span _ | word _ | flag _ | absent => []
  | present d => d.lengths
  | seq items => items.length :: itemLengths items
  | chain slots => itemLengths slots
  | tuple _ items => itemLengths items
  | record _ fields => fieldLengths fields

def itemLengths : List Datum → List Nat
  | [] => []
  | d :: ds => d.lengths ++ itemLengths ds

def fieldLengths : List (String × Datum) → List Nat
  | [] => []
  | (_, d) :: fs => d.lengths ++ fieldLengths fs

end

/-- The length of every sequence fits into eight bytes. -/
def Short (d : Datum) : Prop := ∀ len ∈ d.lengths, len < UInt64.size

instance (d : Datum) : Decidable d.Short :=
  inferInstanceAs (Decidable (∀ len ∈ d.lengths, len < UInt64.size))

theorem forall_mem_itemLengths {P : Nat → Prop} (ds : List Datum) :
    (∀ len ∈ itemLengths ds, P len) ↔ ∀ d ∈ ds, ∀ len ∈ d.lengths, P len := by
  induction ds with
  | nil => simp [itemLengths]
  | cons d ds ih => simp only [itemLengths, List.forall_mem_append, List.forall_mem_cons, ih]

theorem forall_mem_fieldLengths {P : Nat → Prop} (fs : List (String × Datum)) :
    (∀ len ∈ fieldLengths fs, P len) ↔ ∀ f ∈ fs, ∀ len ∈ f.2.lengths, P len := by
  induction fs with
  | nil => simp [fieldLengths]
  | cons f fs ih => simp only [fieldLengths, List.forall_mem_append, List.forall_mem_cons, ih]

/-- A datum is written as some bytes and then its parts, which are short if it is. -/
structure Opens (d : Datum) (front : List UInt8) (parts : List Datum) : Prop where
  bytes : d.encode = front ++ parts.flatMap encode
  short : d.Short → ∀ x ∈ parts, x.Short

theorem opens_present (d : Datum) : (present d).Opens [1] [d] :=
  ⟨by simp, fun h => List.forall_mem_singleton.mpr h⟩

theorem opens_seq (ds : List Datum) : (seq ds).Opens (Wire.leBytes 8 ds.length) ds := by
  refine ⟨encode_seq ds, fun h => ?_⟩
  rw [Short, lengths, List.forall_mem_cons, forall_mem_itemLengths] at h
  exact h.2

theorem opens_tuple (tag : Tag) (ds : List Datum) : (tuple tag ds).Opens tag.bytes ds :=
  ⟨encode_tuple tag ds, (forall_mem_itemLengths ds).mp⟩

theorem opens_record (tag : Tag) (fs : List (String × Datum)) :
    (record tag fs).Opens tag.bytes (fs.map Prod.snd) := by
  refine ⟨by rw [encode_record, List.flatMap_map], fun h => ?_⟩
  rw [List.forall_mem_map]
  exact (forall_mem_fieldLengths fs).mp h

theorem opens_of_tag? {d : Datum} {tag : Tag} (h : d.tag? = some tag) :
    ∃ parts, d.Opens tag.bytes parts := by
  cases d <;> cases h
  · exact ⟨_, opens_tuple _ _⟩
  · exact ⟨_, opens_record _ _⟩

end Datum

namespace Chain

variable {α β : Type}

theorem map_ofParts (f : α → β) (v : Option α) (tail : Option (Chain α)) :
    (ofParts v tail).map f = ofParts (v.map f) (tail.map (map f)) := by
  cases v <;> cases tail <;> rfl

/-- A node is written as its value slot and then its tail, both as optional parts. -/
theorem opens_ofParts (v : Option Datum) (tail : Option (Chain Datum)) :
    (ofParts v tail).datum.Opens [] [Datum.ofOption v, Datum.ofOption (tail.map datum)] := by
  refine ⟨by cases v <;> cases tail <;> simp [ofParts, Datum.ofOption], fun h => ?_⟩
  have hslots := (Datum.forall_mem_itemLengths _).mp h
  cases tail with
  | none =>
    rw [slots_ofParts_none, List.map_singleton, List.forall_mem_singleton] at hslots
    simpa using ⟨hslots, List.forall_mem_nil _⟩
  | some t =>
    rw [slots_ofParts_some, List.map_cons, List.forall_mem_cons] at hslots
    simpa using ⟨hslots.1, (Datum.forall_mem_itemLengths _).mpr hslots.2⟩

end Chain

namespace Wire

open Datum

variable {α : Type} {d e : Datum} {ds es : List Datum}

theorem leBytes_inj {width m n : Nat} (h : leBytes width m = leBytes width n)
    (hm : m < Nat.pow 256 width) (hn : n < Nat.pow 256 width) : m = n := by
  have hvalue := congrArg leValue h
  rwa [leValue_leBytes, leValue_leBytes, Nat.mod_eq_of_lt hm, Nat.mod_eq_of_lt hn] at hvalue

/-- Rows of short data with the same bytes. -/
structure SameBytes (ds es : List Datum) : Prop where
  left : ∀ d ∈ ds, d.Short
  right : ∀ e ∈ es, e.Short
  bytes : ds.flatMap encode = es.flatMap encode

namespace SameBytes

/-- Data that take as many bytes have the same ones. -/
theorem leaf (h : SameBytes (d :: ds) (e :: es)) (hlen : d.encode.length = e.encode.length) :
    d.encode = e.encode ∧ SameBytes ds es := by
  obtain ⟨hds, hes, hbytes⟩ := h
  rw [List.forall_mem_cons] at hds hes
  obtain ⟨hde, hrest⟩ := List.append_inj hbytes hlen
  exact ⟨hde, hds.2, hes.2, hrest⟩

/-- Fronts of one length are the same. -/
theorem front_eq {p q : List UInt8} {xs ys : List Datum} (h : SameBytes (d :: ds) (e :: es))
    (hd : d.Opens p xs) (he : e.Opens q ys) (hlen : p.length = q.length) : p = q := by
  have hbytes := h.bytes
  simp only [List.flatMap_cons, hd.bytes, he.bytes, List.append_assoc] at hbytes
  exact (List.append_inj hbytes hlen).1

/-- The first data give way to their parts. -/
theorem parts {front : List UInt8} {xs ys : List Datum} (h : SameBytes (d :: ds) (e :: es))
    (hd : d.Opens front xs) (he : e.Opens front ys) : SameBytes (xs ++ ds) (ys ++ es) := by
  obtain ⟨hds, hes, hbytes⟩ := h
  rw [List.forall_mem_cons] at hds hes
  simp only [List.flatMap_cons, hd.bytes, he.bytes, List.append_assoc] at hbytes
  refine ⟨List.forall_mem_append.mpr ⟨hd.short hds.1, hds.2⟩,
    List.forall_mem_append.mpr ⟨he.short hes.1, hes.2⟩, ?_⟩
  rw [List.flatMap_append, List.flatMap_append]
  exact List.append_cancel_left hbytes

theorem handle (n : Name) : Discerned SameBytes Datum.handle n := by
  rintro ⟨m⟩ ds es h
  obtain ⟨hbytes, hrest⟩ := h.leaf (by simp)
  rw [encode_handle, encode_handle] at hbytes
  have hindex := leBytes_inj hbytes n.raw.toNat_lt m.toNat_lt
  exact ⟨congrArg Name.mk (UInt32.toNat_inj.mp hindex), hrest⟩

theorem span (place : Span) : Discerned SameBytes Datum.span place := by
  rintro ⟨start, stop⟩ ds es h
  obtain ⟨hbytes, hrest⟩ := h.leaf (by simp)
  rw [encode_span, encode_span] at hbytes
  obtain ⟨hstart, hstop⟩ := List.append_inj hbytes (by simp)
  obtain rfl := UInt32.toNat_inj.mp (leBytes_inj hstart place.start.toNat_lt start.toNat_lt)
  obtain rfl := UInt32.toNat_inj.mp (leBytes_inj hstop place.stop.toNat_lt stop.toNat_lt)
  exact ⟨rfl, hrest⟩

theorem word (n : UInt64) : Discerned SameBytes Datum.word n := by
  intro m ds es h
  obtain ⟨hbytes, hrest⟩ := h.leaf (by simp)
  rw [encode_word, encode_word] at hbytes
  exact ⟨UInt64.toNat_inj.mp (leBytes_inj hbytes n.toNat_lt m.toNat_lt), hrest⟩

theorem flag (b : Bool) : Discerned SameBytes Datum.flag b := by
  intro c ds es h
  obtain ⟨hbytes, hrest⟩ := h.leaf (by simp)
  refine ⟨?_, hrest⟩
  cases b <;> cases c <;> first | rfl | cases hbytes

theorem option {f : α → Datum} {o : Option α} (h : ∀ x ∈ o, Discerned SameBytes f x) :
    Discerned SameBytes (fun o => ofOption (o.map f)) o := by
  intro o' ds es he
  cases o with
  | none =>
    cases o' with
    | none => exact ⟨rfl, (he.leaf rfl).2⟩
    | some y => cases he.bytes
  | some x =>
    cases o' with
    | none => cases he.bytes
    | some y =>
      have hparts := he.parts (opens_present (f x)) (opens_present (f y))
      exact (h x rfl hparts).imp_left (congrArg some)

theorem items {f : α → Datum} {xs ys : List α} (h : ∀ x ∈ xs, Discerned SameBytes f x)
    (hlen : xs.length = ys.length) (he : SameBytes (xs.map f ++ ds) (ys.map f ++ es)) :
    xs = ys ∧ SameBytes ds es := by
  induction xs generalizing ys with
  | nil =>
    obtain rfl := List.length_eq_zero_iff.mp hlen.symm
    exact ⟨rfl, he⟩
  | cons x xs ih =>
    obtain _ | ⟨y, ys⟩ := ys
    · cases hlen
    · rw [List.forall_mem_cons] at h
      obtain ⟨rfl, hrest⟩ := h.1 he
      exact (ih h.2 (Nat.succ.inj hlen) hrest).imp_left (congrArg (x :: ·))

theorem seq {f : α → Datum} {xs : List α} (h : ∀ x ∈ xs, Discerned SameBytes f x) :
    Discerned SameBytes (fun xs => Datum.seq (xs.map f)) xs := by
  intro ys ds es he
  have hx := he.left _ List.mem_cons_self _ List.mem_cons_self
  have hy := he.right _ List.mem_cons_self _ List.mem_cons_self
  have hlen := leBytes_inj (he.front_eq (opens_seq _) (opens_seq _) (by simp)) hx hy
  have hys := opens_seq (ys.map f)
  rw [← hlen] at hys
  exact items h (by simpa using hlen) (he.parts (opens_seq _) hys)

theorem chain {f : α → Datum} {c : Chain α}
    (h : ∀ x, some x ∈ c.slots → Discerned SameBytes f x) :
    Discerned SameBytes (fun c => (c.map f).datum) c := by
  induction c using Chain.ofParts_induction with
  | h v tail ih =>
    intro c' ds es he
    obtain ⟨v', tail', rfl⟩ : ∃ v' tail', c' = Chain.ofParts v' tail' :=
      ⟨_, _, (Chain.ofParts_parts c').symm⟩
    simp only [Chain.map_ofParts] at he
    have hparts := he.parts (Chain.opens_ofParts _ _) (Chain.opens_ofParts _ _)
    simp only [Option.map_map] at hparts
    obtain ⟨rfl, htail⟩ := option
      (fun x hx => h x (Chain.mem_slots_of_value? (by rwa [Chain.value?_ofParts]))) hparts
    have hc := option (fun t ht => ih t ht fun x hx => h x (Chain.mem_slots_of_tail ht hx)) htail
    exact hc.imp_left (congrArg (Chain.ofParts v))

theorem discerns : Discerns SameBytes where
  handle := handle
  span := span
  word := word
  flag := flag
  option := option
  seq := seq
  chain := chain
  tuple h _ := h.parts (opens_tuple _ _) (opens_tuple _ _)
  record h _ := h.parts (opens_record _ _) (opens_record _ _)
  alternative hd he hi hj h := by
    obtain ⟨xs, hd⟩ := opens_of_tag? hd
    obtain ⟨ys, he⟩ := opens_of_tag? he
    exact .inr (leBytes_inj (h.front_eq hd he (by simp)) hi hj)

end SameBytes

end Wire

/-- Two trees of one family with the same bytes are the same. -/
theorem Node.eq_of_encode_eq {a b : Node} (hab : a.family = b.family) (ha : a.datum.Short)
    (hb : b.datum.Short) (h : a.encode = b.encode) : a = b := by
  have hbytes : Wire.SameBytes [a.datum] [b.datum] :=
    ⟨List.forall_mem_singleton.mpr ha, List.forall_mem_singleton.mpr hb,
      by simpa [Node.encode] using h⟩
  exact Wire.SameBytes.discerns.node hab hbytes

end Treeprint
