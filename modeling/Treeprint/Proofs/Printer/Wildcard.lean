import Treeprint.Proofs.Interner.Exhaustion
import Treeprint.Proofs.Printer.Grouping
import Treeprint.Proofs.Printer.Mentions
import Treeprint.Proofs.Reading.Pattern

/-!
# The wildcard and its text

A pattern stands on one line and has nothing to indent (`Pattern.inline_steps`), so it is printed
whenever all its names were issued. Its text may be any text that was interned. But every form
except an unqualified symbol writes a character of its own that is no underscore, whatever the
texts of its names are (`PatternForm.unqualified_or_other`), and so does a type. This is why `_` is
the text of the wildcard only.

An interner only grows, so the name of `_` stays the name of `_` (`Pattern.wildcard_cases`).

Main statement: `Pattern.wildcard_iff_underscore`.
-/

namespace Treeprint

variable {ctx : Context}

/-! ## Patterns stand on one line -/

namespace Doc

@[simp] theorem inline_append {a b : Doc} : (a ++ b).inline ↔ a.inline ∧ b.inline := by
  show (a.inline && b.inline) = true ↔ _
  rw [Bool.and_eq_true]

theorem inline_concat {ds : List Doc} (h : ∀ d ∈ ds, d.inline) : (concat ds).inline := by
  induction ds with
  | nil => rfl
  | cons d ds ih =>
    obtain ⟨hd, hds⟩ := List.forall_mem_cons.mp h
    exact inline_append.mpr ⟨hd, ih hds⟩

theorem inline_separated (sep : String) {ds : List Doc} (h : ∀ d ∈ ds, d.inline) :
    (separated sep ds).inline := by
  cases ds with
  | nil => rfl
  | cons d ds =>
    obtain ⟨hd, hds⟩ := List.forall_mem_cons.mp h
    exact inline_append.mpr ⟨hd, inline_separatedTail sep hds⟩

theorem inline_braced {ds : List Doc} (h : ∀ d ∈ ds, d.inline) : (braced ds).inline := by
  cases ds with
  | nil => rfl
  | cons d ds => simp [braced, inline_separated ", " h, inline]

theorem inline_walk {c : Chain Doc} (h : ∀ d, some d ∈ c.slots → d.inline) (first : Bool) :
    (walk first c).inline := by
  induction c generalizing first with
  | element v t ih =>
    have hv := h v List.mem_cons_self
    have ht := ih fun d hd => h d (List.mem_cons_of_mem _ hd)
    cases first <;> simp [walk, hv, ht, inline]
  | last v =>
    have hv := h v List.mem_cons_self
    cases first <;> simp [walk, hv, inline]
  | rest t =>
    rw [walk]
    split
    · next v hv =>
      have hv' := h v (List.mem_cons_of_mem _ (Chain.mem_slots_of_value? hv))
      simp [hv', inline]
    · rfl
  | terminator => rfl

theorem inline_bracketed_map {α : Type} {f : α → Doc} {c : Chain α}
    (h : ∀ x, some x ∈ c.slots → (f x).inline) : (bracketed (c.map f)).inline := by
  have hwalk : (walk true (c.map f)).inline := by
    refine inline_walk (fun d hd => ?_) true
    rw [Chain.slots_map] at hd
    obtain ⟨_ | x, hx, he⟩ := List.mem_map.mp hd
    · cases he
    · exact Option.some.inj he ▸ h x hx
  simp [bracketed, hwalk, inline]

theorem extents_of_inline {d : Doc} (h : d.inline) (depth used : Nat) :
    d.extents ctx depth used = [] := by
  induction d generalizing used with
  | empty | text s | name n | quoted n => rfl
  | indent | scope d => cases h
  | append a b iha ihb =>
    obtain ⟨ha, hb⟩ := (Bool.and_eq_true _ _).mp h
    rw [extents, iha ha, ihb hb, List.append_nil]

theorem events_of_inline {d : Doc} (h : d.inline) (depth : Nat) : d.events depth = [] := by
  induction d with
  | empty | text s | name n | quoted n => rfl
  | indent | scope d => cases h
  | append a b iha ihb =>
    obtain ⟨ha, hb⟩ := (Bool.and_eq_true _ _).mp h
    rw [events, iha ha, ihb hb, List.append_nil]

/-- What stands on one line is printed at every depth, and behind every text, once its names were
issued. -/
theorem print_of_inline {d : Doc} (h : d.inline) (hissued : ∀ n ∈ d.names, ctx.Issued n)
    (k : Sink) : d.print ctx k = .ok () (k.wrote (d.output ctx k.depth) []) := by
  refine (d.print_ok_iff k _).mpr ⟨⟨hissued, ?_⟩, ?_⟩
  · rw [extents_of_inline h]
    exact List.forall_mem_nil _
  · rw [events_of_inline h]

end Doc

theorem Value.inline_doc (v : Value) : v.doc.inline := by
  cases v <;> rfl

theorem Symbol.inline_doc (s : Symbol) : s.doc.inline := by
  refine Doc.inline_append.mpr ⟨Doc.inline_concat fun d hd => ?_, rfl⟩
  obtain ⟨m, -, rfl⟩ := List.mem_map.mp hd
  rfl

theorem Doc.inline_typed (mark : String) (ty : Option TypeExpr) : (Doc.typed mark ty).inline := by
  rcases ty with _ | ⟨form, _⟩
  · rfl
  · refine Doc.inline_append.mpr ⟨rfl, ?_⟩
    cases form with
    | record name => exact name.inline_doc
    | _ => rfl

namespace Pattern

theorem inline_of_form (form : PatternForm) (h : form.doc.inline) (ty : Option TypeExpr)
    (place : Span) : (Pattern.doc ⟨form, ty, place⟩).inline :=
  Doc.inline_append.mpr ⟨h, Doc.inline_typed ": " ty⟩

theorem inline_steps : Steps fun p => p.doc.inline where
  list c ty place ih := by
    refine inline_of_form _ ?_ ty place
    rw [PatternForm.doc, chainDocs_eq_map]
    exact Doc.inline_bracketed_map ih
  map es ty place ih := by
    refine inline_of_form _ ?_ ty place
    rw [PatternForm.doc, entryDocs_eq_map]
    refine Doc.inline_braced fun d hd => ?_
    obtain ⟨e, he, rfl⟩ := List.mem_map.mp hd
    simp [Doc.entry, ih e he, Doc.inline]
  record name fs ty place ih := by
    refine inline_of_form _ ?_ ty place
    have hfields : (Doc.braced (fieldDocs fs)).inline := by
      rw [fieldDocs_eq_map]
      refine Doc.inline_braced fun d hd => ?_
      obtain ⟨f, hf, rfl⟩ := List.mem_map.mp hd
      simp [Doc.field, ih f hf, Doc.inline]
    simp [PatternForm.doc, name.inline_doc, hfields, Doc.inline]
  symbol path ty place := inline_of_form (.symbol path) path.inline_doc ty place
  value v ty place := inline_of_form (.value v) v.inline_doc ty place

theorem render_eq {p : Pattern} (h : ∀ n ∈ (Node.pattern p).handles, ctx.Issued n) :
    (Node.pattern p).render ctx = .ok (p.canonical ctx) := by
  have hextents : p.doc.extents ctx 0 0 = [] := Doc.extents_of_inline (inline_steps.all p) 0 0
  refine (Node.render_ok_iff ctx _ _).mpr ⟨⟨?_, ?_⟩, rfl⟩
  · rwa [Node.names_doc]
  · rw [Node.doc, hextents]
    exact List.forall_mem_nil _

end Pattern

/-! ## Texts that are not `_` -/

/-- Some character is no underscore. -/
def Text.Other (s : String) : Prop := ∃ c ∈ s.toList, c ≠ '_'

namespace Text.Other

theorem ne {s : String} (h : Other s) : s ≠ "_" := by
  rintro rfl
  obtain ⟨c, hc, hne⟩ := h
  exact hne (List.mem_singleton.mp hc)

theorem append_right {t : String} (h : Other t) (s : String) : Other (s ++ t) := by
  obtain ⟨c, hc, hne⟩ := h
  exact ⟨c, by simp [hc], hne⟩

theorem toString (n : Nat) : Other (toString n) := by
  obtain ⟨c, hc⟩ := List.exists_mem_of_ne_nil _ (toList_toString_ne_nil n)
  refine ⟨c, hc, ?_⟩
  rintro rfl
  exact absurd (isDigit_of_mem_toString hc) (by decide)

/-- A float that is no number is a word, and every other one has a point. -/
theorem floatText (bits : UInt64) : Other (Decimal.floatText bits) := by
  unfold Decimal.floatText
  split
  · exact ⟨'N', by decide, by decide⟩
  · exact append_right ⟨'i', by decide, by decide⟩ _
  · refine append_right ?_ _
    unfold Decimal.magnitudeText
    split
    · exact append_right ⟨'.', by decide, by decide⟩ _
    · exact ⟨'.', by simp [Decimal.Fixed.toText], by decide⟩

end Text.Other

theorem Value.other_canonical (v : Value) : Text.Other (v.canonical ctx) := by
  cases v with
  | str n => exact ⟨'"', by simp [canonical, Text.quoted], by decide⟩
  | unit => exact ⟨'(', by simp [canonical], by decide⟩
  | int n => exact .toString n.toNat
  | float bits => exact .floatText bits
  | bool b =>
    cases b with
    | true => exact ⟨'t', by simp [canonical], by decide⟩
    | false => exact ⟨'f', by simp [canonical], by decide⟩
  | atom n => exact ⟨':', by simp [canonical], by decide⟩

theorem Text.other_braced (ts : List String) : Other (Text.braced ts) := by
  cases ts with
  | nil => exact ⟨'\x7b', by decide, by decide⟩
  | cons t ts => exact ⟨'\x7b', by simp [braced], by decide⟩

/-- Only an unqualified symbol leaves its whole text to a name. -/
theorem PatternForm.unqualified_or_other (form : PatternForm) :
    (∃ n, form = .symbol (.unqualified n)) ∨ Text.Other (form.canonical ctx) := by
  cases form with
  | list c => exact .inr ⟨'[', by simp [canonical, Text.bracketed], by decide⟩
  | map es =>
    rw [canonical]
    exact .inr (Text.other_braced _)
  | record name fs =>
    rw [canonical]
    exact .inr ((Text.other_braced _).append_right _)
  | symbol path =>
    obtain ⟨_ | ⟨m, ms⟩, n⟩ := path
    · exact .inl ⟨n, rfl⟩
    · rw [canonical]
      exact .inr ⟨'.', Symbol.dot_mem_canonical (List.cons_ne_nil m ms), by decide⟩
  | value v =>
    rw [canonical]
    exact .inr v.other_canonical

namespace Pattern

variable {p : Pattern}

/-- The pattern is an unqualified symbol with the text `_`. -/
def IsUnderscore (ctx : Context) (p : Pattern) : Prop :=
  ∃ n, p.form = .symbol (.unqualified n) ∧ ctx.text n = "_"

theorem canonical_eq_underscore_iff :
    p.canonical ctx = "_" ↔ p.IsUnderscore ctx ∧ p.ty = none := by
  obtain ⟨form, ty, place⟩ := p
  rw [canonical]
  constructor
  · intro h
    have hty : ty = none := by
      cases ty with
      | none => rfl
      | some t =>
        have hmark : Text.Other (": " ++ t.canonical ctx) := ⟨':', by simp, by decide⟩
        exact absurd h (hmark.append_right _).ne
    subst hty
    have hform : form.canonical ctx = "_" := by simpa [Text.marked] using h
    rcases @PatternForm.unqualified_or_other ctx form with ⟨n, rfl⟩ | hother
    · exact ⟨⟨n, rfl, hform⟩, rfl⟩
    · exact absurd hform hother.ne
  · rintro ⟨⟨n, rfl, hn⟩, rfl⟩
    show _ = "_"
    simp [PatternForm.canonical, Symbol.canonical, Symbol.segments, Symbol.unqualified, hn,
      Text.marked]

theorem isWildcard_of_issued (h : ∀ n ∈ (Node.pattern p).handles, ctx.Issued n) :
    ∃ w, p.isWildcard ctx.interner = .ok w ∧ (w = true ↔ p.IsUnderscore ctx) := by
  obtain ⟨form, ty, place⟩ := p
  cases form with
  | symbol path =>
    obtain ⟨_ | ⟨m, ms⟩, n⟩ := path
    · have hn : ctx.Issued n := h n (by
        simp [Node.handles, Node.mentions, mentions, PatternForm.mentions, Symbol.mentions,
          Symbol.segments, Mention.name])
      refine ⟨decide (ctx.text n = "_"), ?_, ?_⟩
      · simp [isWildcard, Symbol.isQualified, Context.lookup_of_issued hn]
      · simp [IsUnderscore, Symbol.unqualified]
    · exact ⟨false, rfl, by simp [IsUnderscore, Symbol.unqualified]⟩
  | _ => exact ⟨false, rfl, by simp [IsUnderscore]⟩

/-! ## The wildcard of an interner -/

/-- The wildcard is made of whatever name `_` gets. -/
theorem wildcard_eq (i : Interner) : wildcard i =
    match Interner.tryIntern "_" i with
    | (.ok n, i') => .ok (ofForm (.symbol (.unqualified n))) i'
    | (.error e, i') => .error e i' := by
  show EStateM.bind (Interner.intern "_") _ i = _
  simp only [EStateM.bind, Interner.intern, Interner.demand]
  rcases Interner.tryIntern "_" i with ⟨n | e, i'⟩
  · rfl
  · rfl

theorem wildcard_ok_iff {i : Interner} (hi : i.Intact) :
    (∃ p i', wildcard i = .ok p i') ↔ "_" ∈ i.texts.toList ∨ i.size < Name.count := by
  rw [wildcard_eq, hi.mem_texts_iff]
  rcases Interner.tryIntern_cases "_" i with ⟨n, hf, he⟩ | ⟨n, -, -, hs, he⟩ | ⟨hf, hs, he⟩
  · simp [he, hf]
  · simp [he, hs]
  · simp [he, hf, Nat.not_lt.mpr hs]

theorem wildcard_of_lookup? {i : Interner} (hi : i.Intact) {n : Name}
    (hn : i.lookup? n = some "_") :
    wildcard i = .ok (ofForm (.symbol (.unqualified n))) i := by
  rw [wildcard_eq, hi.tryIntern_of_lookup? hn]

theorem isWildcard_of_lookup? {i : Interner} {n : Name} (hn : i.lookup? n = some "_") :
    (ofForm (.symbol (.unqualified n))).isWildcard i = .ok true := by
  simp [isWildcard, ofForm, Symbol.isQualified, Symbol.unqualified, Interner.lookup, hn]

theorem wildcard_cases {i i' : Interner} (hi : i.Intact) (h : wildcard i = .ok p i') :
    i'.Intact ∧ ∃ n, i'.lookup? n = some "_" ∧ p = ofForm (.symbol (.unqualified n)) := by
  rw [wildcard_eq] at h
  rcases he : Interner.tryIntern "_" i with ⟨e | n, j⟩
  · rw [he] at h
    cases h
  · rw [he] at h
    cases h
    obtain ⟨hintact, hlookup⟩ := hi.of_tryIntern he
    exact ⟨hintact, n, hlookup, rfl⟩

/-- A pattern whose names were issued is printed, and it is printed as `_` exactly if it is a
wildcard and has no type. What is made as a wildcard is one in every later state of the interner,
and the wildcard that is made then is the same. -/
theorem wildcard_iff_underscore :
    (∀ (ctx : Context) (p : Pattern), (∀ n ∈ (Node.pattern p).handles, ctx.Issued n) →
      (∃ text, (Node.pattern p).render ctx = .ok text) ∧
      (∃ w, p.isWildcard ctx.interner = .ok w) ∧
      ((Node.pattern p).render ctx = .ok "_" ↔
        p.isWildcard ctx.interner = .ok true ∧ p.ty = none)) ∧
    ∀ i : Interner, i.Reachable →
      ((∃ p i', wildcard i = .ok p i') ↔ "_" ∈ i.texts.toList ∨ i.size < Name.count) ∧
      ∀ p i', wildcard i = .ok p i' → ∀ requests, let j := i'.after requests
        p.isWildcard j = .ok true ∧ wildcard j = .ok p j := by
  refine ⟨fun ctx p h => ?_, fun i hi => ⟨wildcard_ok_iff hi.intact, fun p i' h requests => ?_⟩⟩
  · obtain ⟨w, hw, hunderscore⟩ := isWildcard_of_issued h
    refine ⟨⟨_, render_eq h⟩, ⟨w, hw⟩, ?_⟩
    rw [render_eq h, hw, Except.ok.injEq, Except.ok.injEq, canonical_eq_underscore_iff,
      hunderscore]
  · obtain ⟨hi', n, hn, rfl⟩ := wildcard_cases hi.intact h
    have hlater := Interner.lookup?_after hn requests
    exact ⟨isWildcard_of_lookup? hlater, wildcard_of_lookup? (hi'.after requests) hlater⟩

/-- The symbol `_` without a type and with one, and what follows once the interner has met `_`. -/
theorem wildcard_iff_underscore_typed :
    let i := Interner.single "_"
    let p := ofForm (.symbol (.unqualified ⟨0⟩))
    let q := p.withType ⟨.any, .dummy⟩
    (Node.pattern p).render ⟨i, 2⟩ = .ok "_" ∧ (Node.pattern q).render ⟨i, 2⟩ ≠ .ok "_" ∧
    q.isWildcard i = .ok true ∧
    i.Reachable ∧ wildcard i = .ok p i ∧
    let j := i.after [.intern "x"]
    p.isWildcard j = .ok true ∧ wildcard j = .ok p j := by
  intro i p q
  have hp : (Node.pattern p).handles = [⟨0⟩] := rfl
  have hq : (Node.pattern q).handles = [⟨0⟩] := rfl
  have hissued : ∀ n ∈ [(⟨0⟩ : Name)], (⟨i, 2⟩ : Context).Issued n :=
    List.forall_mem_singleton.mpr (by decide)
  have hlookup : i.lookup? ⟨0⟩ = some "_" := rfl
  have hi : i.Reachable := .single "_"
  have hmade : wildcard i = .ok p i := wildcard_of_lookup? hi.intact hlookup
  obtain ⟨hprinted, hlater⟩ := wildcard_iff_underscore
  obtain ⟨-, -, hunderscore⟩ := hprinted ⟨i, 2⟩ p (hp ▸ hissued)
  obtain ⟨-, -, htyped⟩ := hprinted ⟨i, 2⟩ q (hq ▸ hissued)
  have hwildcard : p.isWildcard i = .ok true := isWildcard_of_lookup? hlookup
  have hdiffers : (Node.pattern q).render ⟨i, 2⟩ ≠ .ok "_" := fun h => by
    cases (htyped.mp h).2
  exact ⟨hunderscore.mpr ⟨hwildcard, rfl⟩, hdiffers, hwildcard, hi, hmade,
    (hlater i hi).2 p i hmade [.intern "x"]⟩

end Pattern

end Treeprint
