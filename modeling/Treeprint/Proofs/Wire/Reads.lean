import Treeprint.Wire.Tree

/-!
# Readers in front of further input

A reader reads `x` off `bs` if it gives `x` on `bs` followed by any bytes at all, and leaves exactly
those (`Reads`). Readers that are bound together read what they read one after the other
(`Reads.bind`), so the statement for a composed reader is put together from those of its parts: the
fixed-width numbers first, then marks, sequences, alternatives and chains.
-/

namespace Treeprint.Wire

variable {α β : Type}

/-- The reader takes exactly `bs` off any input that begins with it, and gives `x`. -/
def Reads (r : Reader α) (x : α) (bs : List UInt8) : Prop :=
  ∀ t, r (bs ++ t) = .ok (x, t)

namespace Reads

theorem of_eq {r : Reader α} {x : α} {bs cs : List UInt8} (h : Reads r x bs) (e : cs = bs) :
    Reads r x cs := e ▸ h

theorem pure (x : α) : Reads (pure x) x [] := fun _ => rfl

theorem bind {r : Reader α} {f : α → Reader β} {x : α} {y : β} {bs cs : List UInt8}
    (h : Reads r x bs) (hf : Reads (f x) y cs) : Reads (r >>= f) y (bs ++ cs) := by
  intro t
  rw [List.append_assoc]
  show (r (bs ++ (cs ++ t)) >>= fun p => f p.1 p.2) = .ok (y, t)
  rw [h]
  exact hf t

theorem map {r : Reader α} {x : α} {bs : List UInt8} (f : α → β) (h : Reads r x bs) :
    Reads (r >>= fun a => Pure.pure (f a)) (f x) bs :=
  (h.bind (pure (f x))).of_eq (List.append_nil bs).symm

/-! ## Numbers and marks -/

theorem byte (b : UInt8) : Reads Reader.byte b [b] := fun _ => rfl

theorem items {r : Reader α} {bytes : α → List UInt8} :
    ∀ xs : List α, (∀ x ∈ xs, Reads r x (bytes x)) →
      Reads (Reader.items r xs.length) xs (xs.flatMap bytes)
  | [], _ => pure []
  | x :: xs, h => by
    rw [List.forall_mem_cons] at h
    exact h.1.bind ((items xs h.2).map (x :: ·))

theorem bytes (bs : List UInt8) : Reads (Reader.items Reader.byte bs.length) bs bs :=
  (items bs fun b _ => byte b).of_eq (by simp)

theorem u32 (n : UInt32) : Reads Reader.u32 n (leBytes 4 n.toNat) := by
  have h := (bytes (leBytes 4 n.toNat)).map fun bs => UInt32.ofNat (leValue bs)
  have hn : n.toNat % Nat.pow 256 4 = n.toNat := Nat.mod_eq_of_lt n.toNat_lt
  rw [length_leBytes, leValue_leBytes, hn, UInt32.ofNat_toNat] at h
  exact h

theorem u64 (n : UInt64) : Reads Reader.u64 n (leBytes 8 n.toNat) := by
  have h := (bytes (leBytes 8 n.toNat)).map fun bs => UInt64.ofNat (leValue bs)
  have hn : n.toNat % Nat.pow 256 8 = n.toNat := Nat.mod_eq_of_lt n.toNat_lt
  rw [length_leBytes, leValue_leBytes, hn, UInt64.ofNat_toNat] at h
  exact h

theorem name (n : Name) : Reads Reader.name n (leBytes 4 n.index) :=
  (u32 n.raw).map Name.mk

theorem span (s : Span) :
    Reads Reader.span s (leBytes 4 s.start.toNat ++ leBytes 4 s.stop.toNat) :=
  (u32 s.start).bind ((u32 s.stop).map (Span.mk s.start))

theorem flag (b : Bool) : Reads Reader.flag b [b.toUInt8] := by
  intro t
  cases b <;> rfl

theorem mark (b : Bool) : Reads Reader.mark b [b.toUInt8] := by
  intro t
  cases b <;> rfl

theorem none_optional (r : Reader α) : Reads (Reader.optional r) none [0] :=
  (mark false).bind (pure none)

theorem some_optional {r : Reader α} {x : α} {bs : List UInt8} (h : Reads r x bs) :
    Reads (Reader.optional r) (some x) (1 :: bs) :=
  (mark true).bind (h.map some)

/-! ## Sequences and alternatives -/

/-- The length that stands before a sequence of fewer than `2^64` items is read as it was. -/
theorem length {n : Nat} (h : n < UInt64.size) :
    Reads Reader.u64 (UInt64.ofNat n) (leBytes 8 n) := by
  have hn : (UInt64.ofNat n).toNat = n := UInt64.toNat_ofNat_of_lt' h
  simpa [hn] using u64 (UInt64.ofNat n)

theorem seq {r : Reader α} {bytes : α → List UInt8} {xs : List α} (hlen : xs.length < UInt64.size)
    (h : ∀ x ∈ xs, Reads r x (bytes x)) :
    Reads (Reader.seq r) xs (leBytes 8 xs.length ++ xs.flatMap bytes) := by
  have hn : (UInt64.ofNat xs.length).toNat = xs.length := UInt64.toNat_ofNat_of_lt' hlen
  refine (length hlen).bind ?_
  rw [hn]
  exact items xs h

theorem choice {rs : List (Reader α)} {r : Reader α} {x : α} {bs : List UInt8} (i : Nat)
    (hi : rs[i]? = some r) (hlt : i < UInt32.size) (h : Reads r x bs) :
    Reads (Reader.choice rs) x (leBytes 4 i ++ bs) := by
  have hn : (UInt32.ofNat i).toNat = i := UInt32.toNat_ofNat_of_lt' hlt
  have hu : Reads Reader.u32 (UInt32.ofNat i) (leBytes 4 i) := by
    simpa [hn] using u32 (UInt32.ofNat i)
  refine hu.bind ?_
  simp only [hn, hi]
  exact h

theorem oneOf {xs : List α} {x : α} (i : Nat) (hi : xs[i]? = some x) (hlt : i < UInt32.size) :
    Reads (Reader.oneOf xs) x (leBytes 4 i) :=
  (choice i (by simp [hi]) hlt (pure x)).of_eq (List.append_nil _).symm

theorem pair {r : Reader α} {s : Reader β} {x : α × β} {bs cs : List UInt8}
    (hr : Reads r x.1 bs) (hs : Reads s x.2 cs) : Reads (Wire.pair r s) x (bs ++ cs) :=
  hr.bind (hs.map (x.1, ·))

/-! ## Chains -/

/-- A node of a chain: its slot, and then its tail behind the mark that says whether it has one. -/
theorem chain_cons {r : Reader α} {slot : Option α} {tail : Chain α} {bs cs : List UInt8}
    {fuel : Nat} (hs : Reads (Reader.optional r) slot bs) (ht : Reads (chain r fuel) tail cs) :
    Reads (chain r (fuel + 1)) (.ofParts slot (some tail)) (bs ++ 1 :: cs) :=
  hs.bind ((mark true).bind (ht.map fun t => Chain.ofParts slot (some t)))

theorem chain_end {r : Reader α} {slot : Option α} {bs : List UInt8} {fuel : Nat}
    (hs : Reads (Reader.optional r) slot bs) :
    Reads (chain r (fuel + 1)) (.ofParts slot none) (bs ++ [0]) :=
  hs.bind ((mark false).bind (pure (Chain.ofParts slot none)))

end Reads

end Treeprint.Wire
