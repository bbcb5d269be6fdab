import Treeprint.Proofs.Reading.Unique

/-!
# Reading patterns

A pattern is a form with its type behind it, and there are no parentheses to say how far either
goes. They are not needed: a form ends before a colon as it does before the end of an item
(`Scan.closes`), a type is one word, path or pair of parentheses, and what follows a whole pattern
never begins with a colon. So a colon behind a form is always that of its type, also where the form
is the name of a field or an atom (`Scan.read_written`).

Types that are words of their own are read as such; the path of a record type must not be one of
them. Main statement: equal texts come from equal patterns, up to places
(`Pattern.bare_eq_of_same_text`).
-/

namespace Treeprint

/-- The types that are one word. -/
def TypeForm.words : List (String × TypeForm) :=
  [("list", .list), ("map", .map), ("any", .any)] ++
    [PrimType.string, .int, .float, .bool, .atom].map fun p => (p.keyword, .prim p)

/-- Patterns in which names are words of a kind, and literals and types are of a kind. Lists are as
written. -/
inductive Pattern.Written (word : Name → Prop) (leaf : Value → Prop) (type : TypeExpr → Prop) :
    Pattern → Prop
  | list {ps : List Pattern} {r : Option Pattern} {ty : Option TypeExpr} {span : Span}
    (hps : ∀ p ∈ ps, Written word leaf type p) (hr : ∀ p ∈ r, Written word leaf type p)
    (ht : ∀ t ∈ ty, type t) : Written word leaf type ⟨.list (.make ps r), ty, span⟩
  | map {es : List (Pattern × Pattern)} {ty : Option TypeExpr} {span : Span}
    (hk : ∀ e ∈ es, Written word leaf type e.1) (hv : ∀ e ∈ es, Written word leaf type e.2)
    (ht : ∀ t ∈ ty, type t) : Written word leaf type ⟨.map es, ty, span⟩
  | record {name : Symbol} {fs : List (Name × Pattern)} {ty : Option TypeExpr} {span : Span}
    (hn : ∀ n ∈ name.segments, word n) (hf : ∀ f ∈ fs, word f.1)
    (hv : ∀ f ∈ fs, Written word leaf type f.2) (ht : ∀ t ∈ ty, type t) :
    Written word leaf type ⟨.record name fs, ty, span⟩
  | symbol {path : Symbol} {ty : Option TypeExpr} {span : Span}
    (h : ∀ n ∈ path.segments, word n) (ht : ∀ t ∈ ty, type t) :
    Written word leaf type ⟨.symbol path, ty, span⟩
  | value {v : Value} {ty : Option TypeExpr} {span : Span} (h : leaf v) (ht : ∀ t ∈ ty, type t) :
    Written word leaf type ⟨.value v, ty, span⟩

namespace Scan

/-! ## The reader -/

section

variable (names strings : List Char → Option Name)

/-- A type that is a word of its own or the path of a record type. -/
def typePath : Scanner TypeExpr := fun cs =>
  let (w, cs) := run inPath cs
  match TypeForm.words.find? (·.1.toList = w) with
  | some (_, form) => some (⟨form, .dummy⟩, cs)
  | none => (path? names w).map fun path => (⟨.record path, .dummy⟩, cs)

def typeExpr : Scanner TypeExpr
  | '(' :: ')' :: cs => some (⟨.prim .unit, .dummy⟩, cs)
  | cs => typePath names cs

/-- The type behind a form, if there is one. -/
def typing : Scanner (Option TypeExpr)
  | ':' :: ' ' :: cs => (typeExpr names cs).map fun (t, cs) => (some t, cs)
  | cs => some (none, cs)

/-- A path, which is the name of a record if fields follow. -/
def patternPath (q : Scanner Pattern) (n : Nat) (path : Symbol) : Scanner PatternForm
  | ' ' :: '\x7b' :: cs =>
    (braced (field names q) n ('\x7b' :: cs)).map fun (fs, cs) => (.record path fs, cs)
  | cs => some (.symbol path, cs)

def patternCompound (q : Scanner Pattern) (n : Nat) : Scanner PatternForm
  | [] => none
  | '[' :: cs => (bracketed q n ('[' :: cs)).map fun (c, cs) => (.list c, cs)
  | '\x7b' :: cs => (braced (entry q) n ('\x7b' :: cs)).map fun (es, cs) => (.map es, cs)
  | c :: cs =>
    if Text.startsWord c then
      let (w, cs) := run inPath (c :: cs)
      (path? names w).bind fun path => patternPath names q n path cs
    else none

def patternForm (q : Scanner Pattern) (n : Nat) : Scanner PatternForm := fun cs =>
  match literal names strings cs with
  | some (v, cs) => some (.value v, cs)
  | none => patternCompound names q n cs

def pattern : Nat → Scanner Pattern
  | 0, _ => none
  | n + 1, cs => do
    let (form, cs) ← patternForm names strings (pattern n) n cs
    let (ty, cs) ← typing names cs
    return (⟨form, ty, .dummy⟩, cs)

end

variable {ctx : Context} {names strings : List Char → Option Name} {q : Scanner Pattern} {n : Nat}

theorem shy_pattern : ∀ n, Shy (pattern names strings n)
  | 0 => fun _ _ _ => rfl
  | n + 1 => fun c hc cs => by
    simp only [List.mem_cons, List.not_mem_nil, or_false] at hc
    have hl : literal names strings (c :: cs) = none := by
      rcases hc with rfl | rfl | rfl <;> exact literal_eq_none rfl (by decide) cs
    have hf : patternCompound names (pattern names strings n) n (c :: cs) = none := by
      rcases hc with rfl | rfl | rfl <;> rfl
    simp [pattern, patternForm, hl, hf]

/-! ## Types -/

/-- A type that is read as what it is: a record type is a path that is no other type. -/
def LegibleType (ctx : Context) (names : List Char → Option Name) (t : TypeExpr) : Prop :=
  match t.form with
  | .record name => (∀ n ∈ name.segments, Named ctx names n) ∧
      ∀ w ∈ TypeForm.words, name.canonical ctx ≠ w.1
  | _ => True

/-- What may follow a form: its type, or the end of the item. -/
def closes : List Char → Bool
  | ':' :: ' ' :: _ => true
  | cs => stops cs

theorem inPath_head_of_closes {t : List Char} (h : closes t) :
    ∀ c ∈ t.head?, inPath c = false := by
  unfold closes at h
  split at h
  · rintro _ ⟨⟩
    rfl
  · exact inPath_head_of_ends (ends_of_stops h)

theorem typing_of_stops {t : List Char} (h : stops t) :
    typing names t = some (none, t) := by
  unfold typing
  split
  · cases h
  · rfl

theorem typeExpr_eq_typePath {c : Char} (hc : inPath c) (cs : List Char) :
    typeExpr names (c :: cs) = typePath names (c :: cs) := by
  unfold typeExpr
  split
  · next h => cases h; cases hc
  · rfl

theorem typeExpr_word {w : String × TypeForm} (hw : w ∈ TypeForm.words) {t : List Char}
    (ht : ∀ c ∈ t.head?, inPath c = false) :
    typeExpr names (w.1.toList ++ t) = some (⟨w.2, .dummy⟩, t) := by
  have hwords : ∀ w ∈ TypeForm.words, w.1.toList.all inPath ∧ w.1.toList ≠ [] ∧
      TypeForm.words.find? (·.1.toList = w.1.toList) = some w := by decide
  obtain ⟨hall, hne, hfind⟩ := hwords w hw
  have hr : run inPath (w.1.toList ++ t) = (w.1.toList, t) :=
    run_append (List.all_eq_true.mp hall) ht
  obtain ⟨c, cs, hc⟩ := List.exists_cons_of_ne_nil hne
  have hp : inPath c := List.all_eq_true.mp hall c (by simp [hc])
  rw [hc, List.cons_append, typeExpr_eq_typePath hp, ← List.cons_append, ← hc]
  simp only [typePath, hr, hfind]

theorem typeExpr_path {path : Symbol} (h : ∀ n ∈ path.segments, Named ctx names n)
    (hw : ∀ w ∈ TypeForm.words, path.canonical ctx ≠ w.1) {t : List Char}
    (ht : ∀ c ∈ t.head?, inPath c = false) :
    typeExpr names ((path.canonical ctx).toList ++ t) = some (⟨.record path, .dummy⟩, t) := by
  have hr := run_path h ht
  have hfind : TypeForm.words.find? (·.1.toList = (path.canonical ctx).toList) = none := by
    refine List.find?_eq_none.mpr fun w hm he => hw w hm ?_
    exact (String.toList_inj.mp (of_decide_eq_true he)).symm
  obtain ⟨c, cs, hc, hs⟩ := path_starts h
  have hp : inPath c := inPath_of_startsWord hs
  rw [hc, List.cons_append, typeExpr_eq_typePath hp, ← List.cons_append, ← hc]
  simp only [typePath, hr, hfind, path?_canonical h]
  rfl

theorem typeExpr_canonical {ty : TypeExpr} (h : LegibleType ctx names ty) {t : List Char}
    (ht : ∀ c ∈ t.head?, inPath c = false) :
    typeExpr names ((ty.canonical ctx).toList ++ t) = some (ty.bare, t) := by
  obtain ⟨form, span⟩ := ty
  cases form with
  | list => exact typeExpr_word (w := ("list", .list)) (by decide) ht
  | map => exact typeExpr_word (w := ("map", .map)) (by decide) ht
  | any => exact typeExpr_word (w := ("any", .any)) (by decide) ht
  | record name => exact typeExpr_path h.1 h.2 ht
  | prim p =>
    by_cases hp : p = .unit
    · subst hp
      simp [TypeExpr.canonical, PrimType.keyword, typeExpr, TypeExpr.bare]
    · exact typeExpr_word (w := (p.keyword, .prim p)) (by revert hp; cases p <;> decide) ht

/-- The type behind a form is read together with its mark. -/
theorem typing_canonical {ty : Option TypeExpr} (h : ∀ t ∈ ty, LegibleType ctx names t)
    {t : List Char} (ht : stops t) :
    typing names ((Text.marked ": " (ty.map (TypeExpr.canonical ctx))).toList ++ t) =
      some (ty.map TypeExpr.bare, t) := by
  cases ty with
  | none => simpa [Text.marked] using typing_of_stops ht
  | some ty =>
    have hr := typeExpr_canonical (h ty rfl) (inPath_head_of_ends (ends_of_stops ht))
    simp [Text.marked, typing, hr]

theorem closes_typing (ty : Option String) {t : List Char} (ht : stops t) :
    closes ((Text.marked ": " ty).toList ++ t) := by
  cases ty with
  | none =>
    unfold closes
    split
    · rfl
    · exact ht
  | some ty => simp [Text.marked, closes]

/-! ## Forms -/

theorem patternForm_literal {v : Value} (h : Legible ctx names strings v) {t : List Char}
    (ht : closes t) :
    patternForm names strings q n ((v.canonical ctx).toList ++ t) = some (.value v, t) := by
  simp only [patternForm, literal_canonical h (inPath_head_of_closes ht)]

theorem patternForm_path {path : Symbol} (h : ∀ m ∈ path.segments, Named ctx names m)
    {t : List Char} (ht : ∀ c ∈ t.head?, inPath c = false) :
    patternForm names strings q n ((path.canonical ctx).toList ++ t) =
      patternPath names q n path t := by
  have hl : literal names strings ((path.canonical ctx).toList ++ t) = none := literal_path h ht
  have hr := run_path h ht
  have hp := path?_canonical h
  obtain ⟨c, w, hw, hc⟩ := path_starts h
  rw [hw] at hl hr hp ⊢
  rw [List.cons_append] at hl hr ⊢
  simp only [patternForm, hl]
  unfold patternCompound
  split
  · next h => cases h
  · next h => cases h; cases hc
  · next h => cases h; cases hc
  · next h =>
    cases h
    simp only [hc, if_true, hr, hp]
    rfl

theorem patternPath_of_closes (path : Symbol) {t : List Char} (ht : closes t) :
    patternPath names q n path t = some (.symbol path, t) := by
  unfold patternPath
  split
  · cases ht
  · rfl

variable {f : Pattern → String} {g : Pattern → Pattern}

theorem patternForm_record {path : Symbol} (h : ∀ m ∈ path.segments, Named ctx names m)
    {fs : List (Name × Pattern)} (hf : ∀ f ∈ fs, Named ctx names f.1)
    (hv : ∀ a ∈ fs, (f a.2).length < n → Reads q (f a.2) (g a.2))
    (hn : (Text.braced (fs.map fun (m, p) => Text.field (ctx.text m) (f p))).length ≤ n)
    (t : List Char) :
    patternForm names strings q n ((path.canonical ctx ++ " " ++
        Text.braced (fs.map fun (m, p) => Text.field (ctx.text m) (f p))).toList ++ t) =
      some (.record path (fs.map fun (m, p) => (m, g p)), t) := by
  have hb := braced_fields hf hv hn t
  obtain ⟨w, hw⟩ := braced_starts (fs.map fun (m, p) => Text.field (ctx.text m) (f p))
  rw [hw, List.cons_append] at hb
  have hp : patternForm names strings q n
      ((path.canonical ctx).toList ++ ' ' :: '\x7b' :: (w ++ t)) = _ :=
    patternForm_path h (by rintro _ ⟨⟩; rfl)
  rw [patternPath, hb] at hp
  simpa [hw] using hp

theorem patternForm_map {es : List (Pattern × Pattern)}
    (hk : ∀ e ∈ es, (f e.1).length < n → Reads q (f e.1) (g e.1))
    (hv : ∀ e ∈ es, (f e.2).length < n → Reads q (f e.2) (g e.2))
    (hn : (Text.braced (es.map fun (k, v) => Text.entry (f k) (f v))).length ≤ n) (t : List Char) :
    patternForm names strings q n
        ((Text.braced (es.map fun (k, v) => Text.entry (f k) (f v))).toList ++ t) =
      some (.map (es.map fun (k, v) => (g k, g v)), t) := by
  have hb := braced_entries hk hv hn t
  obtain ⟨w, hw⟩ := braced_starts (es.map fun (k, v) => Text.entry (f k) (f v))
  rw [hw, List.cons_append] at hb ⊢
  simp [patternForm, literal_eq_none (c := '\x7b') rfl, patternCompound, hb]

theorem patternForm_list (hq : Shy q) {ps : List Pattern} {r : Option Pattern}
    (hp : ∀ p ∈ ps, (f p).length < n → Reads q (f p) (g p))
    (hr : ∀ p ∈ r, (f p).length < n → Reads q (f p) (g p))
    (hn : (Text.bracketed (ps.map f) (r.map f)).length ≤ n) (t : List Char) :
    patternForm names strings q n ((Text.bracketed (ps.map f) (r.map f)).toList ++ t) =
      some (.list (.make (ps.map g) (r.map g)), t) := by
  have hb := bracketed_of_length hq hp hr hn t
  rw [toList_bracketed] at hb ⊢
  simp [-String.toList_intercalate, -List.map_map, patternForm, literal_eq_none (c := '[') rfl,
    patternCompound, hb]

/-! ## Whole patterns -/

section

variable (ctx names strings)

/-- The text of a pattern is read back by every reader that goes down more levels than the text is
long. -/
def ReadPattern (p : Pattern) : Prop :=
  ∀ n, (p.canonical ctx).length < n → Reads (pattern names strings n) (p.canonical ctx) p.bare

variable {ctx names strings} {ty : Option TypeExpr} {span : Span}

/-- A pattern is read if its form is read, before a type as well as before the end of the item. -/
theorem ReadPattern.of_form {form : PatternForm} (hty : ∀ t ∈ ty, LegibleType ctx names t)
    (hform : ∀ n t, (form.canonical ctx).length ≤ n → closes t →
      patternForm names strings (pattern names strings n) n ((form.canonical ctx).toList ++ t) =
        some (form.bare, t)) : ReadPattern ctx names strings ⟨form, ty, span⟩ := by
  intro n hn t ht
  obtain ⟨n, rfl⟩ : ∃ m, n = m + 1 := ⟨n - 1, by omega⟩
  rw [Pattern.canonical] at hn ⊢
  rw [String.length_append] at hn
  have hf := hform n ((Text.marked ": " (ty.map (TypeExpr.canonical ctx))).toList ++ t) (by omega)
    (closes_typing _ ht)
  simp [pattern, hf, typing_canonical hty ht, Pattern.bare]

theorem ReadPattern.list {ps : List Pattern} {r : Option Pattern}
    (hps : ∀ p ∈ ps, ReadPattern ctx names strings p)
    (hr : ∀ p ∈ r, ReadPattern ctx names strings p) (hty : ∀ t ∈ ty, LegibleType ctx names t) :
    ReadPattern ctx names strings ⟨.list (.make ps r), ty, span⟩ := by
  refine .of_form hty fun n t hn _ => ?_
  have htext : (PatternForm.list (.make ps r)).canonical ctx =
      Text.bracketed (ps.map (Pattern.canonical ctx)) (r.map (Pattern.canonical ctx)) := by
    simp only [PatternForm.canonical, Pattern.chainTexts_eq_map, Chain.map_make,
      Chain.elements_make, Chain.rest?_make]
  have hbare : (PatternForm.list (.make ps r)).bare =
      .list (.make (ps.map Pattern.bare) (r.map Pattern.bare)) := by
    simp only [PatternForm.bare, Pattern.bareChain_eq_map, Chain.map_make]
  rw [htext] at hn ⊢
  rw [hbare]
  exact patternForm_list (shy_pattern n) (fun p hp => hps p hp n) (fun p hp => hr p hp n) hn t

theorem ReadPattern.map {es : List (Pattern × Pattern)}
    (hk : ∀ e ∈ es, ReadPattern ctx names strings e.1)
    (hv : ∀ e ∈ es, ReadPattern ctx names strings e.2) (hty : ∀ t ∈ ty, LegibleType ctx names t) :
    ReadPattern ctx names strings ⟨.map es, ty, span⟩ := by
  refine .of_form hty fun n t hn _ => ?_
  simp only [PatternForm.canonical, Pattern.entryTexts_eq_map, PatternForm.bare,
    Pattern.bareEntries_eq_map] at hn ⊢
  exact patternForm_map (fun e he => hk e he n) (fun e he => hv e he n) hn t

theorem ReadPattern.record {name : Symbol} {fs : List (Name × Pattern)}
    (hn : ∀ m ∈ name.segments, Named ctx names m) (hf : ∀ f ∈ fs, Named ctx names f.1)
    (hv : ∀ f ∈ fs, ReadPattern ctx names strings f.2) (hty : ∀ t ∈ ty, LegibleType ctx names t) :
    ReadPattern ctx names strings ⟨.record name fs, ty, span⟩ := by
  refine .of_form hty fun n t hlen _ => ?_
  simp only [PatternForm.canonical, Pattern.fieldTexts_eq_map, PatternForm.bare,
    Pattern.bareFields_eq_map] at hlen ⊢
  have hb : (Text.braced
      (fs.map fun f => Text.field (ctx.text f.1) (f.2.canonical ctx))).length ≤ n := by
    simp only [String.length_append] at hlen
    omega
  exact patternForm_record hn hf (fun f hf => hv f hf n) hb t

variable {word : Name → Prop} {leaf : Value → Prop} {type : TypeExpr → Prop}

/-- Every pattern is read back from its text, with all types. -/
theorem read_written (hword : ∀ n, word n → Named ctx names n)
    (hleaf : ∀ v, leaf v → Legible ctx names strings v)
    (htype : ∀ t, type t → LegibleType ctx names t) {p : Pattern} (h : p.Written word leaf type) :
    ReadPattern ctx names strings p := by
  induction h with
  | list _ _ ht ihps ihr => exact .list ihps ihr fun t hm => htype t (ht t hm)
  | map _ _ ht ihk ihv => exact .map ihk ihv fun t hm => htype t (ht t hm)
  | record hn hf _ ht ih =>
    exact .record (fun m hm => hword m (hn m hm)) (fun f hm => hword f.1 (hf f hm)) ih
      fun t hm => htype t (ht t hm)
  | @symbol path ty span h ht =>
    have hp : ∀ m ∈ path.segments, Named ctx names m := fun m hm => hword m (h m hm)
    refine .of_form (fun t hm => htype t (ht t hm)) fun n t _ hc => ?_
    exact (patternForm_path hp (inPath_head_of_closes hc)).trans (patternPath_of_closes path hc)
  | value h ht =>
    refine .of_form (fun t hm => htype t (ht t hm)) fun n t _ hc => ?_
    exact patternForm_literal (hleaf _ h) hc

end

end Scan

/-! ## One pattern for each text -/

theorem Symbol.dot_mem_canonical {ctx : Context} {s : Symbol} (h : s.modules ≠ []) :
    '.' ∈ (s.canonical ctx).toList := by
  obtain ⟨m, ms, hm⟩ := List.exists_cons_of_ne_nil h
  rw [canonical, segments, List.map_append, List.map_singleton, Text.intercalate_concat, hm]
  simp

namespace Context

variable {ctx : Context}

/-- A record type is a path of words, and if it is a single word, not that of another type. -/
def Typing (ctx : Context) (t : TypeExpr) : Prop :=
  match t.form with
  | .record name => (∀ n ∈ name.segments, ctx.Word n) ∧
      (name.modules = [] → ctx.text name.name ∉ TypeForm.words.map (·.1))
  | _ => True

theorem Typing.legible (hi : ctx.interner.Coherent) {t : TypeExpr} (h : ctx.Typing t) :
    Scan.LegibleType ctx (ctx.dictionary ctx.Word) t := by
  obtain ⟨form, span⟩ := t
  cases form with
  | record name =>
    obtain ⟨hwords, hother⟩ := h
    refine ⟨fun n hn => (hwords n hn).named hi, fun w hw he => ?_⟩
    by_cases hm : name.modules = []
    · refine hother hm (List.mem_map.mpr ⟨w, hw, ?_⟩)
      rw [← he, Symbol.canonical, Symbol.segments, hm]
      simp
    · have hdot : ∀ w ∈ TypeForm.words, '.' ∉ w.1.toList := by decide
      exact hdot w hw (he ▸ Symbol.dot_mem_canonical hm)
  | list | map | any | prim p => trivial

end Context

/-- Equal texts come from equal patterns, types included, up to places. -/
theorem Pattern.bare_eq_of_same_text {ctx : Context} (hi : ctx.interner.Reachable) {a b : Pattern}
    (ha : a.Written ctx.Word ctx.Literal ctx.Typing)
    (hb : b.Written ctx.Word ctx.Literal ctx.Typing) {s : String}
    (hsa : (Node.pattern a).render ctx = .ok s) (hsb : (Node.pattern b).render ctx = .ok s) :
    a.bare = b.bare := by
  have hc := hi.coherent
  have hread : ∀ p : Pattern, p.Written ctx.Word ctx.Literal ctx.Typing →
      (Node.pattern p).render ctx = .ok s →
      Scan.pattern (ctx.dictionary ctx.Word) (ctx.dictionary ctx.Issued) (s.length + 1) s.toList =
        some (p.bare, []) := by
    intro p hp hs
    obtain rfl : s = p.canonical ctx := ((Node.render_ok_iff ctx (.pattern p) s).mp hs).2
    have hr := Scan.read_written (fun _ hn => Context.Word.named hc hn)
      (fun _ hv => Context.Literal.legible hc hv) (fun _ ht => Context.Typing.legible hc ht) hp
    simpa using hr _ (Nat.lt_succ_self _) [] rfl
  have hab := (hread a ha hsa).symm.trans (hread b hb hsb)
  simpa using hab

theorem Pattern.bare_eq_of_same_text_typed :
    let ctx : Context := ⟨.single "a", 2⟩
    let word : Symbol := .unqualified ⟨0⟩
    let element : Pattern := ⟨.symbol word, some ⟨.record word, .dummy⟩, .dummy⟩
    let rest : Pattern := ⟨.value (.atom ⟨0⟩), some ⟨.prim .atom, .dummy⟩, .dummy⟩
    let items : Pattern := (Pattern.ofList [element] (some rest)).withType ⟨.list, .dummy⟩
    let record : Pattern := .ofForm (.record word [(⟨0⟩, items)])
    let placed : Pattern := record.withSpan ⟨3, 7⟩
    ctx.interner.Reachable ∧ record.Written ctx.Word ctx.Literal ctx.Typing ∧
      placed.Written ctx.Word ctx.Literal ctx.Typing ∧
      (Node.pattern record).render ctx = .ok "a \x7b a: [a: a :: :a: atom]: list \x7d" ∧
      (Node.pattern placed).render ctx = .ok "a \x7b a: [a: a :: :a: atom]: list \x7d" ∧
      record.bare = placed.bare := by
  intro ctx word element rest items record placed
  have hi : ctx.interner.Reachable := .single "a"
  have hw : ctx.Word ⟨0⟩ := ⟨by decide, by decide, by decide, by decide⟩
  have hs : ∀ n ∈ word.segments, ctx.Word n := by
    intro n hn
    obtain rfl := List.mem_singleton.mp hn
    exact hw
  have helement : element.Written ctx.Word ctx.Literal ctx.Typing := by
    refine .symbol hs ?_
    rintro t ⟨⟩
    exact ⟨hs, fun _ => by decide⟩
  have hrest : rest.Written ctx.Word ctx.Literal ctx.Typing := by
    refine .value hw ?_
    rintro t ⟨⟩
    trivial
  have hitems : items.Written ctx.Word ctx.Literal ctx.Typing := by
    refine .list ?_ ?_ ?_
    · intro p hp
      obtain rfl := List.mem_singleton.mp hp
      exact helement
    · rintro p ⟨⟩
      exact hrest
    · rintro t ⟨⟩
      trivial
  have hfields : ∀ f ∈ [((⟨0⟩ : Name), items)],
      ctx.Word f.1 ∧ f.2.Written ctx.Word ctx.Literal ctx.Typing := by
    intro f hf
    obtain rfl := List.mem_singleton.mp hf
    exact ⟨hw, hitems⟩
  have hr : record.Written ctx.Word ctx.Literal ctx.Typing :=
    .record hs (fun f hf => (hfields f hf).1) (fun f hf => (hfields f hf).2) (by rintro t ⟨⟩)
  have hp : placed.Written ctx.Word ctx.Literal ctx.Typing :=
    .record hs (fun f hf => (hfields f hf).1) (fun f hf => (hfields f hf).2) (by rintro t ⟨⟩)
  have hsr : (Node.pattern record).render ctx = .ok "a \x7b a: [a: a :: :a: atom]: list \x7d" :=
    (Node.render_ok_iff _ _ _).mpr ⟨⟨by decide, by decide⟩, by decide⟩
  have hsp : (Node.pattern placed).render ctx = .ok "a \x7b a: [a: a :: :a: atom]: list \x7d" :=
    (Node.render_ok_iff _ _ _).mpr ⟨⟨by decide, by decide⟩, by decide⟩
  exact ⟨hi, hr, hp, hsr, hsp, Pattern.bare_eq_of_same_text hi hr hp hsr hsp⟩

end Treeprint
