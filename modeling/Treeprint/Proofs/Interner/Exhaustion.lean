import Treeprint.Proofs.Interner.Order
import Treeprint.Text.Spaces

/-!
# When the handles run out

There are `2^32` handles, and an interner issues every one of them. The last one is issued like all
others; after that a new text is refused, with the number of texts, and nothing changes
(`Intact.tryIntern_error_iff`). The texts that are there can still be interned, since they are found
before a handle is asked for. As no position is without a handle, no handle is ever issued for two
texts, and a listing never meets a position that has none.

Main statement: `tryIntern_refuses_iff_full`. An interner can be brought to the point where it
refuses (`filled`).
-/

namespace Treeprint

namespace Interner

variable {i : Interner}

namespace Intact

theorem find?_eq_none_iff (hi : i.Intact) {text : String} :
    i.find? text = none ↔ text ∉ i.texts.toList := by
  rw [hi.mem_texts_iff, Option.eq_none_iff_forall_ne_some, not_exists]

/-- A text is refused exactly if it is new and every handle is issued. -/
theorem tryIntern_error_iff (hi : i.Intact) {text : String} :
    (∃ e, (tryIntern text i).1 = .error e) ↔ text ∉ i.texts.toList ∧ i.size = Name.count := by
  rw [← hi.find?_eq_none_iff]
  rcases tryIntern_cases text i with ⟨n, hf, he⟩ | ⟨n, -, -, hs, he⟩ | ⟨hf, hs, he⟩
  · simp [he, hf]
  · simp [he, Nat.ne_of_lt hs]
  · simp [he, hf, Nat.le_antisymm hi.size_le hs]

/-- A refusal says how many texts there are and changes nothing. -/
theorem tryIntern_of_error (hi : i.Intact) {text : String} {e : Error}
    (h : (tryIntern text i).1 = .error e) :
    tryIntern text i = (.error (.overflow Name.count), i) := by
  obtain ⟨-, hfull⟩ := hi.tryIntern_error_iff.mp ⟨e, h⟩
  rcases tryIntern_cases text i with ⟨n, -, he⟩ | ⟨n, -, -, hs, -⟩ | ⟨-, -, he⟩
  · rw [he] at h
    cases h
  · exact absurd hfull (Nat.ne_of_lt hs)
  · rw [he, hfull]

/-- The next handle is issued for a new text, up to the last one. -/
theorem tryIntern_new (hi : i.Intact) {text : String} (hnew : text ∉ i.texts.toList)
    (hroom : i.size < Name.count) : ∃ n : Name, n.index = i.size ∧
      tryIntern text i = (.ok n, ⟨i.names.insert text n, i.texts.push text⟩) := by
  rw [← hi.find?_eq_none_iff] at hnew
  rcases tryIntern_cases text i with ⟨n, hf, -⟩ | ⟨n, -, hn, -, he⟩ | ⟨-, hs, -⟩
  · rw [hf] at hnew
    cases hnew
  · exact ⟨n, hn, he⟩
  · exact absurd hroom (Nat.not_lt.mpr hs)

/-- The text of a name is interned to that name, whether or not there are handles left. -/
theorem tryIntern_of_lookup? (hi : i.Intact) {text : String} {n : Name}
    (hn : i.lookup? n = some text) : tryIntern text i = (.ok n, i) := by
  rw [tryIntern, (hi.coherent text n).mpr hn]

/-- A text has the name that it was interned to. -/
theorem of_tryIntern {i' : Interner} (hi : i.Intact) {text : String} {n : Name}
    (h : tryIntern text i = (.ok n, i')) : i'.Intact ∧ i'.lookup? n = some text := by
  have hstate : ((Request.intern text).run i).2 = i' := by
    rw [state_run, Request.text?, Option.elim_some, h]
  have hreply : ((Request.intern text).run i).1 = .issued n := reply_run rfl (by rw [h])
  rw [← hstate]
  exact ⟨hi.run _, lookup?_run hi.coherent rfl hreply⟩

theorem entries_ok (hi : i.Intact) : ∃ entries, i.entries = .ok entries := by
  obtain ⟨entries, he, -⟩ := entries_from i.texts.toList 0 (by simpa [size] using hi.size_le)
  exact ⟨entries, he⟩

end Intact

/-- A full interner has a text for every name. -/
theorem exists_lookup?_of_full (hfull : i.size = Name.count) (n : Name) :
    ∃ text, i.lookup? n = some text := by
  have hn : n.index < i.size := by
    rw [hfull]
    exact n.raw.toNat_lt_size
  exact ⟨_, Array.getElem?_eq_getElem hn⟩

/-- Names that were given for texts during a session are the same exactly if the texts are. -/
theorem Coherent.answers_inj (hi : i.Coherent) {requests : List Request} {s t : String}
    {m n : Name} (hm : i.Answers requests s m) (hn : i.Answers requests t n) : m = n ↔ s = t := by
  have hs := hi.lookup?_of_answers hm
  have ht := hi.lookup?_of_answers hn
  constructor
  · rintro rfl
    exact Option.some.inj (hs.symm.trans ht)
  · rintro rfl
    exact (hi.after requests).name_eq hs ht

/-- A text is refused exactly if it is new and every handle is issued; then the number of texts is
reported and nothing changes, so that all texts keep their names and every name has a text. A text
that is there gets its name, and a new one the next handle, up to the last. Whatever is asked for
after that, there are never more texts than handles, all of them can be listed, and the names that
are given are the same only for the same text. -/
theorem tryIntern_refuses_iff_full (hi : i.Intact) :
    (∀ text, (∃ e, (tryIntern text i).1 = .error e) ↔
      text ∉ i.texts.toList ∧ i.size = Name.count) ∧
    (∀ text e, (tryIntern text i).1 = .error e →
      tryIntern text i = (.error (.overflow Name.count), i) ∧
      ∀ n : Name, ∃ t, i.lookup? n = some t) ∧
    (∀ text n, i.lookup? n = some text → tryIntern text i = (.ok n, i)) ∧
    (∀ text, text ∉ i.texts.toList → i.size < Name.count → ∃ n : Name, n.index = i.size ∧
      tryIntern text i = (.ok n, ⟨i.names.insert text n, i.texts.push text⟩)) ∧
    ∀ requests, (i.after requests).size ≤ Name.count ∧
      (∃ entries, (i.after requests).entries = .ok entries) ∧
      (∀ text n, i.lookup? n = some text → (i.after requests).lookup? n = some text) ∧
      (∀ text n, i.Answers requests text n → (i.after requests).lookup? n = some text) ∧
      ∀ s t m n, i.Answers requests s m → i.Answers requests t n → (m = n ↔ s = t) := by
  refine ⟨fun _ => hi.tryIntern_error_iff, fun text e he => ⟨hi.tryIntern_of_error he, ?_⟩,
    fun _ _ hn => hi.tryIntern_of_lookup? hn, fun _ hnew hroom => hi.tryIntern_new hnew hroom,
    fun requests => ?_⟩
  · exact exists_lookup?_of_full (hi.tryIntern_error_iff.mp ⟨e, he⟩).2
  · have hafter : (i.after requests).Intact := hi.after requests
    exact ⟨hafter.size_le, hafter.entries_ok, fun _ _ hn => lookup?_after hn requests,
      fun _ _ hn => hi.coherent.lookup?_of_answers hn,
      fun _ _ _ _ hm hn => hi.coherent.answers_inj hm hn⟩

end Interner

/-! ## A full interner -/

theorem Text.spaces_inj {j k : Nat} (h : spaces j = spaces k) : j = k := by
  simpa using congrArg (fun s => s.toList.length) h

namespace Interner

/-- The interner that has met the first `k` rows of spaces, the empty row first. -/
def filled (k : Nat) : Interner :=
  Interner.empty.after ((List.range k).map fun j => .intern (Text.spaces j))

theorem reachable_filled (k : Nat) : (filled k).Reachable := Reachable.empty.after _

theorem filled_succ (k : Nat) : filled (k + 1) = (tryIntern (Text.spaces k) (filled k)).2 := by
  rw [filled, List.range_succ, List.map_append, after_append]
  exact state_run (.intern (Text.spaces k)) _

theorem texts_filled {k : Nat} (hk : k ≤ Name.count) :
    (filled k).texts.toList = (List.range k).map Text.spaces := by
  induction k with
  | zero => rfl
  | succ k ih =>
    have htexts := ih (Nat.le_of_succ_le hk)
    have hsize : (filled k).size = k := by
      simpa [size] using congrArg List.length htexts
    have hnew : Text.spaces k ∉ (filled k).texts.toList := by
      intro hmem
      rw [htexts] at hmem
      obtain ⟨j, hj, hjk⟩ := List.mem_map.mp hmem
      have hlt : j < k := List.mem_range.mp hj
      exact Nat.ne_of_lt hlt (Text.spaces_inj hjk)
    obtain ⟨n, -, he⟩ := (reachable_filled k).intact.tryIntern_new hnew (by omega)
    rw [filled_succ, he, Array.toList_push, htexts, List.range_succ, List.map_append]
    rfl

theorem size_filled {k : Nat} (hk : k ≤ Name.count) : (filled k).size = k := by
  simpa [size] using congrArg List.length (texts_filled hk)

theorem lookup?_filled {k : Nat} (hk : k ≤ Name.count) {n : Name} (hn : n.index < k) :
    (filled k).lookup? n = some (Text.spaces n.index) := by
  rw [lookup?_eq_getElem?, texts_filled hk, List.getElem?_map, List.getElem?_range hn]
  rfl

theorem not_mem_filled {k : Nat} (hk : k ≤ Name.count) {text : String} {c : Char}
    (hc : c ∈ text.toList) (hspace : c ≠ ' ') : text ∉ (filled k).texts.toList := by
  intro hmem
  rw [texts_filled hk] at hmem
  obtain ⟨j, -, rfl⟩ := List.mem_map.mp hmem
  rw [Text.toList_spaces] at hc
  exact hspace (List.eq_of_mem_replicate hc)

/-- With one handle left, a new text gets it, and with none left it is refused, while the empty row
keeps its name. -/
theorem tryIntern_refuses_iff_full_last :
    (filled (Name.count - 1)).Intact ∧ (filled Name.count).Intact ∧
    (∃ j, tryIntern "x" (filled (Name.count - 1)) = (.ok ⟨0xFFFFFFFF⟩, j)) ∧
    tryIntern "x" (filled Name.count) = (.error (.overflow 4294967296), filled Name.count) ∧
    tryIntern "" (filled Name.count) = (.ok ⟨0⟩, filled Name.count) := by
  have hlast := (reachable_filled (Name.count - 1)).intact
  have hfull := (reachable_filled Name.count).intact
  obtain ⟨-, -, -, hissue, -⟩ := tryIntern_refuses_iff_full hlast
  obtain ⟨hrefuse, herror, hkeep, -⟩ := tryIntern_refuses_iff_full hfull
  refine ⟨hlast, hfull, ?_, ?_, ?_⟩
  · have hle : Name.count - 1 ≤ Name.count := Nat.sub_le _ _
    have hsize : (filled (Name.count - 1)).size = 0xFFFFFFFF := size_filled hle
    have hroom : (filled (Name.count - 1)).size < Name.count := by
      rw [hsize]
      decide
    obtain ⟨n, hn, he⟩ := hissue "x" (not_mem_filled hle (c := 'x') (by decide) (by decide)) hroom
    obtain rfl : n = ⟨0xFFFFFFFF⟩ := by
      obtain ⟨raw⟩ := n
      exact congrArg Name.mk (UInt32.toNat_inj.mp (hn.trans hsize))
    exact ⟨_, he⟩
  · have hle : Name.count ≤ Name.count := Nat.le_refl _
    obtain ⟨e, he⟩ := (hrefuse "x").mpr
      ⟨not_mem_filled hle (c := 'x') (by decide) (by decide), size_filled hle⟩
    exact (herror "x" e he).1
  · exact hkeep "" ⟨0⟩ (lookup?_filled (Nat.le_refl _) (show 0 < Name.count by decide))

end Interner

end Treeprint
