import Mathlib.Data.List.Forall2
import Treeprint.Proofs.Interner.Parallel
import Treeprint.Proofs.Printer.Wildcard

/-!
# Symbols that are built from a path

The segments of a path are what stands between its dots (`Text.segments`). A segment may be empty,
and it may come up again. A symbol is built as the segments come: the first one is interned and
made a symbol, and every other one is interned and added at the end (`Symbol.ofPath`). Adding keeps
the order, so the symbol has the names that a single run over the segments gives
(`Symbol.map_segments_ofPath`).

From then on the names of the symbol stand for the segments of the path, one by one
(`Interner.Spells`), whatever else is interned. This alone decides the rest: such a symbol is
printed as the path (`Spells.print_eq`), and symbols that spell paths are the same exactly if the
paths are (`Spells.eq_iff`).

Main statement: `Symbol.ofPath_prints_path`.
-/

namespace Treeprint

/-! ## The segments of a path -/

namespace Text

/-- What stands before, between and after the dots of a path. A path without a dot is its only
segment. -/
def segments (path : String) : List String := (path.split '.').toList.map (·.copy)

theorem segments_eq_splitOn (path : String) :
    segments path = (path.toList.splitOn '.').map String.ofList :=
  String.toList_split_char

theorem segments_ne_nil (path : String) : segments path ≠ [] := by
  simp [segments_eq_splitOn]

/-- With dots between them, the segments are the path again. -/
theorem intercalate_segments (path : String) : ".".intercalate (segments path) = path := by
  have hid : String.toList ∘ String.ofList = id := funext fun _ => String.toList_ofList
  refine String.toList_inj.mp ?_
  rw [String.toList_intercalate, segments_eq_splitOn, List.map_map, hid, List.map_id]
  exact List.intercalate_splitOn '.'

theorem segments_inj {p q : String} (h : segments p = segments q) : p = q := by
  rw [← intercalate_segments p, h, intercalate_segments]

/-- There is one segment more than there are dots. -/
theorem length_segments (path : String) :
    (segments path).length = path.toList.count '.' + 1 := by
  rw [segments_eq_splitOn, List.length_map]
  induction path.toList with
  | nil => rfl
  | cons c cs ih =>
    rw [List.splitOn_cons_eq_if_modifyHead]
    split
    · next hc => simp [ih, beq_iff_eq.mp hc]
    · next hc => simp [ih, List.count_cons, hc]

end Text

/-! ## Building a symbol -/

namespace Symbol

/-- Adds segments to a symbol, each of them interned when its turn comes. -/
def extend (s : Symbol) : List String → InternM Symbol
  | [] => pure s
  | text :: rest => do
    let n ← Interner.intern text
    (s.shift n).extend rest

/-- The symbol of a path, built from its first segment on. -/
def ofPath (path : String) : InternM Symbol := do
  let n ← Interner.intern ((Text.segments path).head (Text.segments_ne_nil path))
  (unqualified n).extend (Text.segments path).tail

theorem segments_shift (s : Symbol) (n : Name) : (s.shift n).segments = s.segments ++ [n] := rfl

theorem segments_ne_nil (s : Symbol) : s.segments ≠ [] := by
  simp [segments]

/-- The last segment is the name, and the ones before it are the modules. -/
theorem eq_dropLast_getLast (s : Symbol) :
    s = ⟨s.segments.dropLast, s.segments.getLast s.segments_ne_nil⟩ := by
  simp [segments]

theorem eq_of_segments_eq {s t : Symbol} (h : s.segments = t.segments) : s = t := by
  rw [s.eq_dropLast_getLast, t.eq_dropLast_getLast]
  simp only [h]

theorem isQualified_iff (s : Symbol) : s.isQualified ↔ 1 < s.segments.length := by
  simp [isQualified, segments, List.length_pos_iff]

/-- Adding segments adds the names that a single run over them gives, in the same order. -/
theorem map_segments_extend (s : Symbol) (texts : List String) :
    segments <$> s.extend texts = (s.segments ++ ·) <$> Interner.internAll texts := by
  induction texts generalizing s with
  | nil => simp [extend, Interner.internAll]
  | cons text rest ih =>
    -- The symbol grows while the rest is added, so the hypothesis is used for the longer symbol.
    simp only [extend, Interner.internAll, map_bind, ih, segments_shift]
    simp

/-- The symbol of a path has the names that a single run over the segments gives. -/
theorem map_segments_ofPath (path : String) :
    segments <$> ofPath path = Interner.internAll (Text.segments path) := by
  have hcons := List.cons_head_tail (Text.segments_ne_nil path)
  rw [← hcons, Interner.internAll, ofPath]
  simp only [map_bind, map_segments_extend]
  simp [segments, unqualified]

theorem ofPath_of_internAll {path : String} {i i' : Interner} {names : List Name}
    (h : Interner.internAll (Text.segments path) i = .ok names i') :
    ∃ s, ofPath path i = .ok s i' ∧ s.segments = names := by
  rw [← map_segments_ofPath] at h
  change EStateM.map segments (ofPath path) i = _ at h
  rcases hs : ofPath path i with ⟨s, j⟩ | ⟨e, j⟩
  · simp only [EStateM.map, hs] at h
    cases h
    exact ⟨s, rfl, rfl⟩
  · simp only [EStateM.map, hs] at h
    cases h

theorem names_doc (s : Symbol) : s.doc.names = s.segments := by
  rw [show s.doc = (Node.symbol s).doc from rfl, Node.names_doc]
  simp [Node.handles, Node.mentions, mentions, Function.comp_def, Mention.name]

end Symbol

/-! ## Symbols that spell a path -/

namespace Interner

variable {i : Interner} {s t : Symbol} {p q : String}

/-- The names of the symbol stand for the segments of the path, one by one. -/
def Spells (i : Interner) (s : Symbol) (path : String) : Prop :=
  List.Forall₂ (fun text n => i.lookup? n = some text) (Text.segments path) s.segments

namespace Spells

theorem after (h : i.Spells s p) (requests : List Request) : (i.after requests).Spells s p :=
  h.imp fun _ _ hn => lookup?_after hn requests

theorem isQualified_iff (h : i.Spells s p) : s.isQualified ↔ '.' ∈ p.toList := by
  rw [s.isQualified_iff, ← h.length_eq, Text.length_segments, ← List.count_pos_iff]
  omega

/-- The names were issued, and their texts are the segments. -/
theorem map_text (h : i.Spells s p) (size : Nat) : let ctx : Context := ⟨i, size⟩
    (∀ n ∈ s.segments, ctx.Issued n) ∧ s.segments.map ctx.text = Text.segments p := by
  intro ctx
  have hboth : List.Forall₂ (fun n text => ctx.Issued n ∧ ctx.text n = text)
      s.segments (Text.segments p) := by
    refine .flip (h.imp fun text n hn => ⟨?_, ?_⟩)
    · exact (Array.getElem?_eq_some_iff.mp hn).1
    · show (i.lookup? n).getD "" = text
      rw [hn]
      rfl
  obtain ⟨hissued, htexts⟩ := (List.forall₂_and_left _ _).mp hboth
  exact ⟨hissued, List.forall₂_eq_eq_eq ▸ List.forall₂_map_left_iff.mpr htexts⟩

/-- The symbol is printed as the path. -/
theorem print_eq (h : i.Spells s p) (size : Nat) (k : Sink) :
    s.doc.print ⟨i, size⟩ k = .ok () (k.wrote p []) := by
  obtain ⟨hissued, htexts⟩ := h.map_text size
  rw [Doc.print_of_inline s.inline_doc (s.names_doc ▸ hissued), Symbol.output_doc,
    Symbol.canonical, htexts, Text.intercalate_segments]

theorem render_eq (h : i.Spells s p) (size : Nat) :
    (Node.symbol s).render ⟨i, size⟩ = .ok p := by
  simp [Node.render, Node.doc, Doc.toText, Doc.render, h.print_eq size, Sink.wrote]

/-- A symbol spells one path only, and a path is spelled by one symbol only. -/
theorem eq_iff (hi : i.Coherent) (hs : i.Spells s p) (ht : i.Spells t q) : s = t ↔ p = q := by
  have hunique : Relator.BiUnique fun text n => i.lookup? n = some text :=
    ⟨fun _ _ _ ha hb => Option.some.inj (ha.symm.trans hb), fun _ _ _ hm hn => hi.name_eq hm hn⟩
  constructor
  · rintro rfl
    exact Text.segments_inj (hunique.forall₂.left hs ht)
  · rintro rfl
    exact Symbol.eq_of_segments_eq (hunique.forall₂.right hs ht)

end Spells

/-- With handles for all segments, a path is made a symbol that spells it. -/
theorem Reachable.ofPath_ok (hi : i.Reachable) {path : String}
    (hroom : (i.texts.toList ++ Text.segments path).eraseDups.length ≤ Name.count) :
    let i' := i.withTexts (Text.segments path)
    ∃ s, internAll (Text.segments path) i = .ok s.segments i' ∧
      Symbol.ofPath path i = .ok s i' ∧ i'.Spells s path := by
  obtain ⟨names, hall, hnames⟩ := hi.internAll_ok hroom (List.subset_append_left _ _)
    (List.subset_append_right _ _)
  obtain ⟨s, hs, rfl⟩ := Symbol.ofPath_of_internAll hall
  exact ⟨s, hall, hs, hnames⟩

end Interner

namespace Symbol

open Interner (internAll)

/-- With handles for all segments, a path is made a symbol. It has the names that a single run over
the segments gives, in order and the last one as its name, and it is qualified exactly if there is a
dot in the path. From then on, whatever the interner is asked for, the symbol is printed as the
path, and another path is made the same symbol exactly if it is the same path. -/
theorem ofPath_prints_path {i : Interner} (hi : i.Reachable) (path : String)
    (hroom : (i.texts.toList ++ Text.segments path).eraseDups.length ≤ Name.count) :
    ∃ names s i', internAll (Text.segments path) i = .ok names i' ∧ ofPath path i = .ok s i' ∧
      (∃ hne : names ≠ [], s = ⟨names.dropLast, names.getLast hne⟩) ∧
      s.segments = names ∧
      (s.isQualified ↔ '.' ∈ path.toList) ∧
      ∀ requests, let j := i'.after requests
        (∀ size k, s.doc.print ⟨j, size⟩ k = .ok () (k.wrote path [])) ∧
        (∀ size, (Node.symbol s).render ⟨j, size⟩ = .ok path) ∧
        ∀ other, (j.texts.toList ++ Text.segments other).eraseDups.length ≤ Name.count →
          ∃ t j', ofPath other j = .ok t j' ∧ (s = t ↔ path = other) := by
  obtain ⟨s, hall, hs, hspells⟩ := hi.ofPath_ok hroom
  refine ⟨s.segments, s, _, hall, hs, ⟨s.segments_ne_nil, s.eq_dropLast_getLast⟩, rfl,
    hspells.isQualified_iff, fun requests => ?_⟩
  have hlater := hspells.after requests
  refine ⟨hlater.print_eq, hlater.render_eq, fun other hother => ?_⟩
  -- The first symbol still spells its path in the state in which the second one has been built.
  have hj : ((i.withTexts (Text.segments path)).after requests).Reachable :=
    (hi.after _).after requests
  obtain ⟨t, -, ht, hspells'⟩ := hj.ofPath_ok hother
  exact ⟨t, _, ht, (hlater.after _).eq_iff (hj.after _).coherent hspells'⟩

/-- A path with an empty segment and one that comes up again, on an interner that knows the latter,
and the path without its end. -/
theorem ofPath_prints_path_repeated :
    let i := Interner.single "A"
    let s : Symbol := ⟨[⟨0⟩, ⟨1⟩, ⟨0⟩], ⟨2⟩⟩
    i.Reachable ∧ (i.texts.toList ++ Text.segments "A..A.b").eraseDups.length ≤ Name.count ∧
    ∃ i', ofPath "A..A.b" i = .ok s i' ∧
      let j := i'.after [.tryIntern "A.b"]
      (Node.symbol s).render ⟨j, 2⟩ = .ok "A..A.b" ∧
      (j.texts.toList ++ Text.segments "A..A").eraseDups.length ≤ Name.count ∧
      ∃ t j', ofPath "A..A" j = .ok t j' ∧ s ≠ t := by
  intro i s
  have hsegments : Text.segments "A..A.b" = ["A", "", "A", "b"] := Text.segments_eq_splitOn _
  have hshorter : Text.segments "A..A" = ["A", "", "A"] := Text.segments_eq_splitOn _
  have hi : i.Reachable := .single "A"
  have hroom : (i.texts.toList ++ Text.segments "A..A.b").eraseDups.length ≤ Name.count := by
    rw [hsegments]
    decide
  let final : Interner := ⟨(i.names.insert "" ⟨1⟩).insert "b" ⟨2⟩, #["A", "", "b"]⟩
  have hall : internAll (Text.segments "A..A.b") i = .ok s.segments final := by
    rw [hsegments]
    show EStateM.bind (Interner.intern "A") _ i = _
    simp [internAll, bind, EStateM.bind, pure, EStateM.pure, Interner.intern, Interner.demand,
      Interner.tryIntern, Interner.find?, Interner.insert, Interner.single, i, s, final, segments,
      Std.HashMap.getElem_insert, Name.count, UInt32.size]
  have hlater : (final.after [.tryIntern "A.b"]).texts.toList = ["A", "", "b", "A.b"] := by
    simp [Interner.after, Interner.state_run, Interner.Request.text?, Interner.tryIntern,
      Interner.find?, Interner.insert, Interner.single, i, final, Name.count, UInt32.size]
  have hroom' : ((final.after [.tryIntern "A.b"]).texts.toList ++
      Text.segments "A..A").eraseDups.length ≤ Name.count := by
    rw [hlater, hshorter]
    decide
  obtain ⟨names, _, i', hnames, hs, ⟨_, rfl⟩, -, -, hprinted⟩ :=
    ofPath_prints_path hi "A..A.b" hroom
  obtain ⟨rfl, rfl⟩ : s.segments = names ∧ final = i' := by simpa [hall] using hnames
  obtain ⟨-, hrender, hothers⟩ := hprinted [.tryIntern "A.b"]
  obtain ⟨t, j', ht, hsame⟩ := hothers "A..A" hroom'
  exact ⟨hi, hroom, final, hs, hrender 2, hroom', t, j', ht,
    fun h => absurd (hsame.mp h) (by decide)⟩

end Symbol

end Treeprint
