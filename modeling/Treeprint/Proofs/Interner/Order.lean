import Mathlib.Data.List.Nodup
import Mathlib.Data.List.Perm.Subperm
import Treeprint.Proofs.Interner.Tables

/-!
# The order of an interner's texts

Whichever way a text is asked for, interning does one of three things (`tryIntern_cases`): it finds
the text, it puts it behind all others, or it refuses it because every handle is issued. So texts
are only ever added at the end (`isPrefix_texts_run`), and names keep their texts (`lookup?_after`).
Coherent tables with no more texts than there are handles stay so (`Intact.run`); then every text is
listed once (`Intact.nodup`).

As long as there are handles, an interner that was made empty lists the distinct texts that it has
met in the order in which they first came up (`texts_after`), each name being the position of its
text (`Reachable.index_eq_idxOf`).

Main statement: all this holds after every session with an interner that was made empty
(`after_lists_first_occurrences`).
-/

namespace Treeprint

theorem Name.ofIndex_ok {k : Nat} (h : k < Name.count) :
    ∃ n : Name, Name.ofIndex k = .ok n ∧ n.index = k :=
  ⟨⟨UInt32.ofNatLT k h⟩, dif_pos h, UInt32.toNat_ofNatLT⟩

namespace Interner

/-- The text that a request interns. -/
def Request.text? : Request → Option String
  | .intern text | .tryIntern text | .internOwned text => some text
  | .lookup _ | .find _ | .list => none

/-- The texts that requests intern, in order and with repetitions. -/
def Request.texts (requests : List Request) : List String := requests.filterMap Request.text?

/-! ## One request -/

theorem insert_cases (text : String) (i : Interner) :
    (∃ n : Name, n.index = i.size ∧ i.size < Name.count ∧
      insert text i = (.ok n, ⟨i.names.insert text n, i.texts.push text⟩)) ∨
    (Name.count ≤ i.size ∧ insert text i = (.error (.overflow i.size), i)) := by
  unfold insert
  split
  · next h => exact .inl ⟨_, UInt32.toNat_ofNatLT, h, rfl⟩
  · next h => exact .inr ⟨Nat.not_lt.mp h, rfl⟩

theorem tryIntern_cases (text : String) (i : Interner) :
    (∃ n, i.find? text = some n ∧ tryIntern text i = (.ok n, i)) ∨
    (∃ n : Name, i.find? text = none ∧ n.index = i.size ∧ i.size < Name.count ∧
      tryIntern text i = (.ok n, ⟨i.names.insert text n, i.texts.push text⟩)) ∨
    (i.find? text = none ∧ Name.count ≤ i.size ∧
      tryIntern text i = (.error (.overflow i.size), i)) := by
  unfold tryIntern
  split
  · next n hf => exact .inl ⟨n, hf, rfl⟩
  · next hf =>
    rcases insert_cases text i with ⟨n, hn, hs, he⟩ | ⟨hs, he⟩
    · exact .inr (.inl ⟨n, hf, hn, hs, he⟩)
    · exact .inr (.inr ⟨hf, hs, he⟩)

/-- A text that is given away gets the name that it would get otherwise. -/
theorem internOwned_eq_intern (text : String) : internOwned text = intern text := by
  funext i
  rcases hf : i.find? text with _ | n <;> simp [internOwned, intern, demand, tryIntern, hf]

/-- A request changes the interner only by the text that it interns. -/
theorem state_run (r : Request) (i : Interner) :
    (r.run i).2 = r.text?.elim i fun text => (tryIntern text i).2 := by
  cases r with
  | intern text => exact ofIntern_demand _ i
  | internOwned text =>
    rw [Request.run, internOwned_eq_intern]
    exact ofIntern_demand _ i
  | tryIntern text =>
    rw [Request.run]
    split <;> next h => simp [Request.text?, h]
  | lookup n =>
    rw [Request.run]
    split <;> rfl
  | find n => rfl
  | list =>
    rw [Request.run]
    split <;> rfl

theorem intern_eq {text : String} {i : Interner} {n : Name}
    (hn : (tryIntern text i).1 = .ok n) : intern text i = .ok n (tryIntern text i).2 := by
  rcases h : tryIntern text i with ⟨answer, i'⟩
  obtain rfl : answer = .ok n := by simpa [h] using hn
  simp [intern, demand, h]

/-- The name that a text has is the reply, whichever way it was asked for. -/
theorem reply_run {r : Request} {text : String} (hr : r.text? = some text) {i : Interner} {n : Name}
    (hn : (tryIntern text i).1 = .ok n) : (r.run i).1 = .issued n := by
  cases r with
  | intern t =>
    obtain rfl : t = text := Option.some.inj hr
    rw [Request.run, intern_eq hn]
    rfl
  | internOwned t =>
    obtain rfl : t = text := Option.some.inj hr
    rw [Request.run, internOwned_eq_intern, intern_eq hn]
    rfl
  | tryIntern t =>
    obtain rfl : t = text := Option.some.inj hr
    rw [Request.run]
    split <;> next h => simp_all
  | lookup m => cases hr
  | find m => cases hr
  | list => cases hr

/-! ## Texts stay -/

theorem isPrefix_texts_tryIntern (text : String) (i : Interner) :
    i.texts.toList <+: (tryIntern text i).2.texts.toList := by
  rcases tryIntern_cases text i with ⟨n, -, he⟩ | ⟨n, -, -, -, he⟩ | ⟨-, -, he⟩ <;> simp [he]

theorem isPrefix_texts_run (r : Request) (i : Interner) :
    i.texts.toList <+: (r.run i).2.texts.toList := by
  rw [state_run]
  cases r.text? with
  | none => exact List.prefix_rfl
  | some text => exact isPrefix_texts_tryIntern text i

theorem after_cons (i : Interner) (r : Request) (rs : List Request) :
    i.after (r :: rs) = (r.run i).2.after rs := rfl

theorem after_append (i : Interner) (rs ss : List Request) :
    i.after (rs ++ ss) = (i.after rs).after ss := List.foldl_append

/-- What every request keeps, a session keeps. -/
theorem after_of_run {P : Interner → Prop} (hrun : ∀ i r, P i → P (Request.run r i).2)
    {i : Interner} (hi : P i) (rs : List Request) : P (i.after rs) := by
  induction rs generalizing i with
  | nil => exact hi
  | cons r rs ih => exact ih (hrun i r hi)

theorem isPrefix_texts_after (rs : List Request) (i : Interner) :
    i.texts.toList <+: (i.after rs).texts.toList := by
  induction rs generalizing i with
  | nil => exact List.prefix_rfl
  | cons r rs ih => exact (isPrefix_texts_run r i).trans (ih _)

theorem texts_run_subset (r : Request) (i : Interner) :
    (r.run i).2.texts.toList ⊆ i.texts.toList ++ r.text?.toList := by
  rw [state_run]
  cases r.text? with
  | none => simp
  | some text =>
    rcases tryIntern_cases text i with ⟨n, -, he⟩ | ⟨n, -, -, -, he⟩ | ⟨-, -, he⟩ <;>
      simp [he]

theorem lookup?_eq_getElem? (i : Interner) (n : Name) : i.lookup? n = i.texts.toList[n.index]? :=
  (Array.getElem?_toList ..).symm

theorem lookup?_of_isPrefix {i j : Interner} (h : i.texts.toList <+: j.texts.toList) {n : Name}
    {text : String} (hn : i.lookup? n = some text) : j.lookup? n = some text := by
  obtain ⟨more, hj⟩ := h
  rw [lookup?_eq_getElem?] at hn ⊢
  rw [← hj, List.getElem?_append_left (List.getElem?_eq_some_iff.mp hn).1, hn]

/-- A name keeps its text. -/
theorem lookup?_after {i : Interner} {n : Name} {text : String} (h : i.lookup? n = some text)
    (rs : List Request) : (i.after rs).lookup? n = some text :=
  lookup?_of_isPrefix (isPrefix_texts_after rs i) h

theorem lookup_eq_ok_iff {i : Interner} {n : Name} {text : String} :
    i.lookup n = .ok text ↔ i.lookup? n = some text := by
  rcases h : i.lookup? n with _ | t <;> simp [lookup, h]

/-! ## Names that were given -/

/-- During a session, which may go on afterwards, a request for the text was answered by the
name. -/
def Answers (i : Interner) (requests : List Request) (text : String) (n : Name) : Prop :=
  ∃ earlier r later, requests = earlier ++ r :: later ∧ r.text? = some text ∧
    (r.run (i.after earlier)).1 = .issued n

theorem tryIntern_of_reply {i : Interner} {r : Request} {text : String} (hr : r.text? = some text)
    {n : Name} (hn : (r.run i).1 = .issued n) : (tryIntern text i).1 = .ok n := by
  rcases h : tryIntern text i with ⟨e | m, j⟩
  · exfalso
    cases r with
    | intern t =>
      obtain rfl : t = text := Option.some.inj hr
      simp [Request.run, intern, demand, h, Reply.ofIntern] at hn
    | internOwned t =>
      obtain rfl : t = text := Option.some.inj hr
      simp [Request.run, internOwned_eq_intern, intern, demand, h, Reply.ofIntern] at hn
    | tryIntern t =>
      obtain rfl : t = text := Option.some.inj hr
      simp [Request.run, h] at hn
    | lookup m => cases hr
    | find m => cases hr
    | list => cases hr
  · rw [reply_run hr (by rw [h])] at hn
    cases hn
    rfl

/-- A request that is answered by a name was for the text that the name stands for from now on. -/
theorem lookup?_run {i : Interner} (hi : i.Coherent) {r : Request} {text : String}
    (hr : r.text? = some text) {n : Name} (hn : (r.run i).1 = .issued n) :
    (r.run i).2.lookup? n = some text := by
  have ht := tryIntern_of_reply hr hn
  rw [state_run, hr, Option.elim_some]
  rcases tryIntern_cases text i with ⟨m, hf, he⟩ | ⟨m, -, hm, -, he⟩ | ⟨-, -, he⟩
  · rw [he] at ht ⊢
    obtain rfl : m = n := Except.ok.inj ht
    exact (hi text m).mp hf
  · rw [he] at ht ⊢
    obtain rfl : m = n := Except.ok.inj ht
    exact Coherent.lookup?_push.mpr (.inr ⟨hm, rfl⟩)
  · rw [he] at ht
    cases ht

theorem Coherent.after {i : Interner} (h : i.Coherent) (rs : List Request) :
    (i.after rs).Coherent :=
  after_of_run (fun _ r hi => hi.run r) h rs

/-- A name that was given during a session has its text at the end of it. -/
theorem Coherent.lookup?_of_answers {i : Interner} (hi : i.Coherent) {requests : List Request}
    {text : String} {n : Name} (h : i.Answers requests text n) :
    (i.after requests).lookup? n = some text := by
  obtain ⟨earlier, r, later, rfl, hr, hn⟩ := h
  rw [after_append, after_cons]
  exact lookup?_after (lookup?_run (hi.after earlier) hr hn) later

/-! ## Intact interners -/

/-- The tables are inverse to each other, and there is a handle for each text. -/
structure Intact (i : Interner) : Prop where
  coherent : i.Coherent
  size_le : i.size ≤ Name.count

namespace Intact

variable {i : Interner}

/-- One request leaves an interner intact. -/
theorem run (h : i.Intact) (r : Request) : (r.run i).2.Intact := by
  refine ⟨h.coherent.run r, ?_⟩
  rw [state_run]
  cases r.text? with
  | none => exact h.size_le
  | some text =>
    rcases tryIntern_cases text i with ⟨n, -, he⟩ | ⟨n, -, -, hs, he⟩ | ⟨-, -, he⟩
    · simpa [he] using h.size_le
    · simpa [he, size] using Nat.succ_le_of_lt hs
    · simpa [he] using h.size_le

theorem after (h : i.Intact) (rs : List Request) : (i.after rs).Intact :=
  after_of_run (fun _ r hi => hi.run r) h rs

/-- Every position has a name, so equal texts would have two names. -/
theorem nodup (h : i.Intact) : i.texts.toList.Nodup := by
  rw [List.nodup_iff_getElem?_ne_getElem?]
  intro j k hjk hk heq
  have hk' : k < Name.count := Nat.lt_of_lt_of_le hk h.size_le
  obtain ⟨a, -, rfl⟩ := Name.ofIndex_ok (Nat.lt_trans hjk hk')
  obtain ⟨b, -, rfl⟩ := Name.ofIndex_ok hk'
  have hb : i.lookup? b = some i.texts.toList[b.index] := by
    rw [lookup?_eq_getElem?, List.getElem?_eq_getElem hk]
  have ha : i.lookup? a = some i.texts.toList[b.index] := by
    rw [← hb, lookup?_eq_getElem?, heq, lookup?_eq_getElem?]
  have hab : a = b := h.coherent.name_eq ha hb
  exact absurd hjk (hab ▸ Nat.lt_irrefl _)

theorem mem_texts_iff (h : i.Intact) {text : String} :
    text ∈ i.texts.toList ↔ ∃ n, i.find? text = some n := by
  constructor
  · intro ht
    obtain ⟨k, hk, htext⟩ := List.getElem_of_mem ht
    obtain ⟨n, -, rfl⟩ := Name.ofIndex_ok (Nat.lt_of_lt_of_le hk h.size_le)
    refine ⟨n, (h.coherent _ _).mpr ?_⟩
    rw [lookup?_eq_getElem?, List.getElem?_eq_getElem hk, htext]
  · rintro ⟨n, hn⟩
    have hl := (h.coherent text n).mp hn
    rw [lookup?_eq_getElem?] at hl
    exact List.mem_of_getElem? hl

end Intact

/-! ## Reachable interners -/

namespace Reachable

variable {i : Interner}

theorem after (h : i.Reachable) (rs : List Request) : (i.after rs).Reachable :=
  after_of_run (fun _ r hi => .run r hi) h rs

theorem intact (h : i.Reachable) : i.Intact := by
  induction h with
  | empty => exact ⟨.empty, Nat.zero_le _⟩
  | withCapacity capacity => exact ⟨.withCapacity capacity, Nat.zero_le _⟩
  | run r _ ih => exact ih.run r

theorem size_le (h : i.Reachable) : i.size ≤ Name.count := h.intact.size_le

theorem nodup (h : i.Reachable) : i.texts.toList.Nodup := h.intact.nodup

theorem mem_texts_iff (h : i.Reachable) {text : String} :
    text ∈ i.texts.toList ↔ ∃ n, i.find? text = some n := h.intact.mem_texts_iff

/-- A name is the position of its text. -/
theorem index_eq_idxOf (h : i.Reachable) {n : Name} {text : String}
    (hn : i.lookup? n = some text) : n.index = i.texts.toList.idxOf text := by
  rw [lookup?_eq_getElem?, List.getElem?_eq_some_iff] at hn
  obtain ⟨hlt, rfl⟩ := hn
  exact (h.nodup.idxOf_getElem n.index hlt).symm

/-- With handles left, a text gets a name that stands for it, and is listed behind all others
unless it was there. -/
theorem tryIntern_ok (h : i.Reachable) {text : String}
    (hroom : text ∈ i.texts.toList ∨ i.size < Name.count) :
    ∃ n, (tryIntern text i).1 = .ok n ∧ (tryIntern text i).2.lookup? n = some text ∧
      (tryIntern text i).2.texts.toList =
        i.texts.toList ++ if text ∈ i.texts.toList then [] else [text] := by
  rcases tryIntern_cases text i with ⟨n, hf, he⟩ | ⟨n, hf, hn, -, he⟩ | ⟨hf, hs, -⟩
  · have hm : text ∈ i.texts.toList := h.mem_texts_iff.mpr ⟨n, hf⟩
    rw [he]
    exact ⟨n, rfl, (h.coherent text n).mp hf, by simp [hm]⟩
  · have hm : text ∉ i.texts.toList := by
      rw [h.mem_texts_iff, hf]
      simp
    rw [he]
    refine ⟨n, rfl, ?_, by simp [hm]⟩
    rw [lookup?_eq_getElem?, hn]
    simp [size]
  · have hm : text ∉ i.texts.toList := by
      rw [h.mem_texts_iff, hf]
      simp
    exact (hroom.elim hm (Nat.not_lt.mpr hs)).elim

/-- There is a handle for a text if all texts together are no more than there are handles. -/
theorem room (h : i.Reachable) {all : List String} (hall : all.eraseDups.length ≤ Name.count)
    (hi : i.texts.toList ⊆ all) {text : String} (ht : text ∈ all) :
    text ∈ i.texts.toList ∨ i.size < Name.count := by
  by_cases hm : text ∈ i.texts.toList
  · exact .inl hm
  · right
    have hd : (text :: i.texts.toList).Nodup := List.nodup_cons.mpr ⟨hm, h.nodup⟩
    have hsub : text :: i.texts.toList ⊆ all.eraseDups := fun t hm' =>
      List.mem_eraseDups.mpr (List.cons_subset.mpr ⟨ht, hi⟩ hm')
    have hle := (hd.subperm hsub).length_le
    simp only [List.length_cons, Array.length_toList] at hle
    exact Nat.lt_of_lt_of_le hle hall

end Reachable

/-! ## Whole sessions -/

theorem eraseDups_concat (texts : List String) (text : String) :
    (texts ++ [text]).eraseDups =
      texts.eraseDups ++ if text ∈ texts.eraseDups then [] else [text] := by
  rw [List.eraseDups_append]
  by_cases h : text ∈ texts <;> simp [List.removeAll, h, List.eraseDups_cons]

/-- The texts are listed in the order in which they first come up. -/
theorem texts_after {i : Interner} (hi : i.Reachable) {met : List String}
    (hmet : i.texts.toList = met.eraseDups) (rs : List Request)
    (hroom : (met ++ Request.texts rs).eraseDups.length ≤ Name.count) :
    (i.after rs).texts.toList = (met ++ Request.texts rs).eraseDups := by
  induction rs generalizing i met with
  | nil => simpa [Interner.after, Request.texts] using hmet
  | cons r rs ih =>
    have hi' : (r.run i).2.Reachable := .run r hi
    rw [after_cons]
    cases hr : r.text? with
    | none =>
      have ht : Request.texts (r :: rs) = Request.texts rs := by simp [Request.texts, hr]
      rw [ht] at hroom ⊢
      refine ih hi' ?_ hroom
      rw [state_run, hr]
      exact hmet
    | some text =>
      have ht : met ++ Request.texts (r :: rs) = (met ++ [text]) ++ Request.texts rs := by
        simp [Request.texts, hr]
      rw [ht] at hroom ⊢
      refine ih hi' ?_ hroom
      have hsub : i.texts.toList ⊆ met ++ [text] ++ Request.texts rs := fun t hm => by
        rw [hmet, List.mem_eraseDups] at hm
        simp [hm]
      have hmem : text ∈ met ++ [text] ++ Request.texts rs := by simp
      obtain ⟨n, -, -, htexts⟩ := hi.tryIntern_ok (hi.room hroom hsub hmem)
      rw [state_run, hr, eraseDups_concat, ← hmet]
      exact htexts

/-- All positions of a list that ends in time have a name. -/
theorem entries_from (texts : List String) (k : Nat) (h : k + texts.length ≤ Name.count) :
    ∃ entries : List (Name × String),
      ((texts.zipIdx k).mapM fun (text, j) => do return (← Name.ofIndex j, text) :
        Except Name.IndexError (List (Name × String))) = .ok entries ∧
      entries.map (·.2) = texts ∧
      entries.map (·.1.index) = List.range' k texts.length := by
  induction texts generalizing k with
  | nil => exact ⟨[], rfl, rfl, rfl⟩
  | cons text texts ih =>
    rw [List.length_cons] at h
    obtain ⟨n, hn, hk⟩ := Name.ofIndex_ok (k := k) (by omega)
    obtain ⟨entries, he, ht, hi⟩ := ih (k + 1) (by omega)
    refine ⟨(n, text) :: entries, ?_, by simp [ht], ?_⟩
    · rw [List.zipIdx_cons, List.mapM_cons, he]
      simp only [hn]
      rfl
    · rw [List.map_cons, hi, hk, List.length_cons, List.range'_succ]

/-- The interner lists the distinct texts among those that it has met, in the order in which they
first came up, with the names 0, 1, 2 and so on; its tables are inverse to each other. -/
structure Lists (i : Interner) (met : List String) : Prop where
  inverse : ∀ (text : String) (n : Name), i.names[text]? = some n ↔ i.texts[n.index]? = some text
  nodup : i.texts.toList.Nodup
  entries : ∃ entries, i.entries = .ok entries ∧ entries.map (·.2) = met.eraseDups ∧
    entries.map (·.1.index) = List.range i.size
  foreign : ∀ n : Name, i.size ≤ n.index → i.lookup? n = none

theorem Reachable.lists {i : Interner} (h : i.Reachable) {met : List String}
    (hmet : i.texts.toList = met.eraseDups) : i.Lists met where
  inverse := h.coherent
  nodup := h.nodup
  entries := by
    obtain ⟨entries, he, ht, hi⟩ := entries_from i.texts.toList 0 (by simpa [size] using h.size_le)
    refine ⟨entries, he, ht.trans hmet, ?_⟩
    rw [hi, List.range_eq_range', size, Array.length_toList]
  foreign n hn := Array.getElem?_eq_none hn

/-- After every session with an interner that was made empty and has handles for all texts: it lists
the texts in the order in which they first came up, each text was answered by its rank in that
order, and the names that were given keep their texts. -/
theorem after_lists_first_occurrences {start : Interner}
    (hstart : start = .empty ∨ ∃ capacity, start = .withCapacity capacity)
    (requests : List Request)
    (hroom : (Request.texts requests).eraseDups.length ≤ Name.count) :
    (start.after requests).Lists (Request.texts requests) ∧
    ∀ earlier r later text, requests = earlier ++ r :: later → r.text? = some text →
      ∃ n, (r.run (start.after earlier)).1 = .issued n ∧
        n.index = (Request.texts requests).eraseDups.idxOf text ∧
        ∀ between rest, later = between ++ rest →
          (start.after (earlier ++ r :: between)).lookup n = .ok text ∧
          (start.after (earlier ++ r :: between)).lookup? n = some text := by
  have hreach : start.Reachable := by
    rcases hstart with rfl | ⟨capacity, rfl⟩
    · exact .empty
    · exact .withCapacity capacity
  have hnone : start.texts.toList = [].eraseDups := by
    rcases hstart with rfl | ⟨capacity, rfl⟩ <;> rfl
  have htexts : (start.after requests).texts.toList = (Request.texts requests).eraseDups :=
    texts_after hreach hnone requests hroom
  refine ⟨(hreach.after requests).lists htexts, ?_⟩
  rintro earlier r later text rfl hr
  have hi : (start.after earlier).Reachable := hreach.after earlier
  have hsub : (start.after earlier).texts.toList ⊆ Request.texts (earlier ++ r :: later) := by
    intro t ht
    have ht' := (isPrefix_texts_after (r :: later) _).subset ht
    rwa [← after_append, htexts, List.mem_eraseDups] at ht'
  have hmem : text ∈ Request.texts (earlier ++ r :: later) :=
    List.mem_filterMap.mpr ⟨r, by simp, hr⟩
  obtain ⟨n, hn, hl, -⟩ := hi.tryIntern_ok (hi.room hroom hsub hmem)
  have hstate : start.after (earlier ++ [r]) = (tryIntern text (start.after earlier)).2 := by
    rw [after_append, after_cons, state_run, hr]
    rfl
  have hlater : ∀ between, (start.after (earlier ++ r :: between)).lookup? n = some text := by
    intro between
    rw [List.append_cons, after_append]
    exact lookup?_after (hstate ▸ hl) between
  refine ⟨n, reply_run hr hn, ?_, fun between rest _ =>
    ⟨lookup_eq_ok_iff.mpr (hlater between), hlater between⟩⟩
  rw [← htexts]
  exact (hreach.after _).index_eq_idxOf (hlater later)

theorem after_lists_first_occurrences_again :
    let requests : List Request := [.intern "b", .tryIntern "a", .find ⟨7⟩, .internOwned "b"]
    (Request.texts requests).eraseDups.length ≤ Name.count ∧
      ((withCapacity 3).after requests).Lists ["b", "a", "b"] ∧
      ∃ n,
        ((Request.internOwned "b").run ((withCapacity 3).after (requests.take 3))).1 = .issued n ∧
        n.index = 0 ∧ ((withCapacity 3).after requests).lookup n = .ok "b" := by
  intro requests
  have hroom : (Request.texts requests).eraseDups.length ≤ Name.count := by decide
  obtain ⟨hlists, hcalls⟩ := after_lists_first_occurrences (.inr ⟨3, rfl⟩) requests hroom
  obtain ⟨n, hn, hrank, hkeeps⟩ := hcalls (requests.take 3) (.internOwned "b") [] "b" rfl rfl
  exact ⟨hroom, hlists, n, hn, hrank, (hkeeps [] [] rfl).1⟩

end Interner

end Treeprint
