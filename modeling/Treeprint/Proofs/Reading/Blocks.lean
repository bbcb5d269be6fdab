import Treeprint.Proofs.Printer.Grouping
import Treeprint.Proofs.Reading.Pattern

/-!
# Reading cases and sequences

Where a sequence ends is not marked in the text, so a reader has to know what belongs to it. A
symbol behind a semicolon belongs to the innermost sequence there is. A case behind a semicolon
belongs to the sequence that stands one depth above its arms, and that depth is seen on the first
line after the one on which the case begins (`Scan.margin`), also where the case has another one
between its words. Such a reader gives back every expression in which no case stands before a symbol
(`Scan.read_blocks`).

There is no word that cannot be a name here. A name `case` is told from the word by the `of` at the
end of the line (`Scan.startsCase`).

So texts are as ambiguous as the regrouping of expressions says and no more: two expressions have
the same text exactly if they are regrouped to the same one (`Expr.render_eq_iff_regroup_eq`). That
different expressions have different texts does not hold (`Expr.not_bare_eq_of_blocks_render_eq`).
-/

namespace Treeprint

namespace Scan

variable {α β : Type}

/-! ## The reader -/

/-- The number of spaces behind the first line end. -/
def margin (cs : List Char) : Nat :=
  (((cs.dropWhile (· != '\n')).drop 1).takeWhile (· == ' ')).length

/-- Whether the text goes on with the `of` at the end of a line. -/
def endsLine (cs : List Char) : Bool :=
  match run Text.inWord cs with
  | (['o', 'f'], '\n' :: _) => true
  | _ => false

/-- Whether a case begins here. There may be a name `case`, but it has a space behind it only before
the `of` at the end of a line. -/
def startsCase (cs : List Char) : Bool :=
  match run Text.inWord cs with
  | (['c', 'a', 's', 'e'], ' ' :: cs) => !endsLine cs
  | _ => false

/-- What begins a line for an arm. -/
def armMark (width : Nat) : List Char := '\n' :: (List.replicate width ' ' ++ ['|', ' '])

def arms (mark : List Char) (p : Scanner α) : Nat → Scanner (List α)
  | 0, _ => none
  | n + 1, cs =>
    if mark <+: cs then do
      let (a, cs) ← p (cs.drop mark.length)
      let (as, cs) ← arms mark p n cs
      return (a :: as, cs)
    else some ([], cs)

/-- What is guarded, behind its guard. -/
def guarded (p : Scanner α) (q : Scanner β) : Scanner (α × β) := fun cs =>
  match p cs with
  | some (a, ' ' :: '=' :: '>' :: ' ' :: cs) => (q cs).map fun (b, cs) => ((a, b), cs)
  | _ => none

/-- Members of a sequence, as long as the next one belongs to it. There is at least one. -/
def members (p : Scanner α) (joins : List Char → Bool) : Nat → Scanner (List α)
  | 0, _ => none
  | n + 1, cs =>
    match p cs with
    | some (a, ';' :: ' ' :: cs) =>
      if joins cs then (members p joins n cs).map fun (as, cs) => (a :: as, cs)
      else some ([a], ';' :: ' ' :: cs)
    | some (a, cs) => some ([a], cs)
    | none => none

section

variable (names : List Char → Option Name) (size : Nat)

/-- The next member belongs to the sequence unless it is a case with arms at another depth. -/
def joins (depth : Nat) (cs : List Char) : Bool :=
  !startsCase cs || margin cs == (depth + 1) * size

def member (p : Nat → Scanner Expr) (n depth : Nat) : Scanner Expr := fun cs =>
  if startsCase cs then
    match p depth (cs.drop 5) with
    | some (scrutinee, ' ' :: 'o' :: 'f' :: cs) =>
      (arms (armMark ((depth + 1) * size))
        (guarded (pattern names (fun _ => none) n) (p (depth + 1))) n cs).map
          fun (as, cs) => (.ofForm (.case scrutinee as), cs)
    | _ => none
  else
    let (w, cs) := run Text.inWord cs
    (names w).map fun m => (.ofForm (.symbol (.unqualified m)), cs)

def blocks : Nat → Nat → Scanner Expr
  | 0, _, _ => none
  | n + 1, depth, cs =>
    (members (member names size (blocks n) n depth) (joins size depth) (n + 1) cs).map
      fun (es, cs) => (Expr.sequence es, cs)

end

/-! ## What may follow -/

/-- What may follow an expression: nothing, the `of` behind it, an arm that is indented by no more
than a width, or a next member of a kind. -/
inductive Follows (width : Nat) (next : List Char → Prop) : List Char → Prop
  | nil : Follows width next []
  | head (t : List Char) : Follows width next (' ' :: 'o' :: 'f' :: '\n' :: t)
  | arm {k : Nat} (hk : k ≤ width) (t : List Char) : Follows width next (armMark k ++ t)
  | next {t : List Char} (ht : next t) : Follows width next (';' :: ' ' :: t)

/-- A case with arms that are indented by no more than a width. -/
def Shallow (width : Nat) (cs : List Char) : Prop := startsCase cs ∧ margin cs ≤ width

namespace Follows

variable {width width' : Nat} {next next' : List Char → Prop} {t : List Char}

theorem mono (h : Follows width next t) (hw : width ≤ width') (hn : ∀ u, next u → next' u) :
    Follows width' next' t := by
  cases h with
  | nil => exact .nil
  | head t => exact .head t
  | arm hk t => exact .arm (Nat.le_trans hk hw) t
  | next ht => exact .next (hn _ ht)

theorem inWord_head (h : Follows width next t) : ∀ c ∈ t.head?, Text.inWord c = false := by
  cases h <;> rintro _ ⟨⟩ <;> rfl

theorem startsCase_word (h : Follows width next t) {w : List Char} (hw : ∀ c ∈ w, Text.inWord c) :
    startsCase (w ++ t) = false := by
  rw [startsCase, run_append hw h.inWord_head]
  split
  · next heq =>
    obtain ⟨-, rfl⟩ := Prod.mk.inj heq
    cases h with
    | head t => rfl
  · rfl

end Follows

theorem margin_append {w : List Char} (hw : '\n' ∉ w) (t : List Char) :
    margin (w ++ t) = margin t := by
  have hall : ∀ c ∈ w, (c != '\n') = true := fun c hc => by
    simpa using fun h : c = '\n' => hw (h ▸ hc)
  rw [margin, List.dropWhile_append_of_pos hall]
  rfl

theorem margin_armMark (width : Nat) (t : List Char) : margin (armMark width ++ t) = width := by
  have hall : ∀ c ∈ List.replicate width ' ', (c == ' ') = true := fun c hc => by
    simpa using List.eq_of_mem_replicate hc
  simp [margin, armMark, List.takeWhile_append_of_pos hall]

/-! ## Texts -/

section

variable {ctx : Context} {depth : Nat} {word : Name → Prop} {type : TypeForm → Prop}

theorem toList_symbol (n : Name) (ty : Option TypeExpr) (span : Span) :
    (Expr.canonical ctx depth ⟨.symbol (.unqualified n), ty, span⟩).toList =
      (ctx.text n).toList := by
  rw [Expr.canonical, ExprForm.canonical]
  simp [Symbol.canonical, Symbol.segments, Symbol.unqualified]

/-- The arms of a case at the depth at which they stand. -/
def armChars (ctx : Context) (depth : Nat) (as : List (Pattern × Expr)) : List Char :=
  as.flatMap fun a => armMark (depth * ctx.indentSize) ++ ((a.1.canonical ctx).toList ++
    (' ' :: '=' :: '>' :: ' ' :: (a.2.canonical ctx depth).toList))

theorem toList_case (scrutinee : Expr) (as : List (Pattern × Expr)) (ty : Option TypeExpr)
    (span : Span) : (Expr.canonical ctx depth ⟨.case scrutinee as, ty, span⟩).toList =
      'c' :: 'a' :: 's' :: 'e' :: ' ' :: ((scrutinee.canonical ctx depth).toList ++
        (' ' :: 'o' :: 'f' :: armChars ctx (depth + 1) as)) := by
  have harms : (String.join ((Expr.armTexts ctx (depth + 1) as).map fun arm =>
      "\n" ++ ctx.pad (depth + 1) ++ "| " ++ arm)).toList = armChars ctx (depth + 1) as := by
    simp [armChars, Expr.armTexts_eq_map, List.flatMap_map, armMark, Text.entry, Context.pad]
  rw [Expr.canonical, ExprForm.canonical]
  simp [harms]

theorem toList_members (e e' : Expr) (es : List Expr) :
    ("; ".intercalate ((e :: e' :: es).map (Expr.canonical ctx depth))).toList =
      (e.canonical ctx depth).toList ++
        ';' :: ' ' :: ("; ".intercalate ((e' :: es).map (Expr.canonical ctx depth))).toList := by
  simp [String.intercalate_cons_cons]

theorem canonical_compound (es : List Expr) (ty : Option TypeExpr) (span : Span) :
    Expr.canonical ctx depth ⟨.compound es, ty, span⟩ =
      "; ".intercalate (es.map (Expr.canonical ctx depth)) := by
  rw [Expr.canonical, ExprForm.canonical, Expr.texts_eq_map]

/-! ## Beginnings and margins -/

theorem not_newline_of_inWord {w : List Char} (hw : ∀ c ∈ w, Text.inWord c) : '\n' ∉ w :=
  fun h => absurd (hw '\n' h) (by decide)

/-- The beginning of an expression is not taken for the `of` at the end of a line. -/
theorem endsLine_canonical (hword : ∀ n, word n → Text.isWord (ctx.text n).toList) {e : Expr}
    (h : e.Blocks word type) {c : Char} (hc : c = ' ' ∨ c = ';') (t : List Char) :
    endsLine ((e.canonical ctx depth).toList ++ c :: t) = false := by
  induction h generalizing c t with
  | @symbol n ty span h =>
    have hr : run Text.inWord ((ctx.text n).toList ++ c :: t) = ((ctx.text n).toList, c :: t) := by
      refine run_append (inWord_of_isWord (hword n h)) ?_
      rintro _ ⟨⟩
      rcases hc with rfl | rfl <;> rfl
    rw [toList_symbol, endsLine, hr]
    split
    · next heq =>
      obtain ⟨-, ht⟩ := Prod.mk.inj heq
      obtain ⟨rfl, -⟩ := List.cons.inj ht
      rcases hc with hc | hc <;> cases hc
    · rfl
  | case =>
    rw [toList_case]
    rfl
  | @compound es ty span hlen _ _ ih =>
    rw [canonical_compound]
    rcases es with _ | ⟨e, _ | ⟨e', es⟩⟩
    · cases hlen
    · exact absurd hlen (Nat.lt_irrefl 1)
    · rw [toList_members, List.append_assoc]
      exact ih e (by simp) (.inr rfl) _

theorem margin_members {width : Nat} {es : List Expr}
    (h : ∀ e ∈ es, ∀ t, margin t = width → margin ((e.canonical ctx depth).toList ++ t) = width)
    {t : List Char} (ht : margin t = width) :
    margin (("; ".intercalate (es.map (Expr.canonical ctx depth))).toList ++ t) = width := by
  induction es with
  | nil => exact ht
  | cons e es ih =>
    obtain ⟨he, hes⟩ := List.forall_mem_cons.mp h
    rcases es with _ | ⟨e', es⟩
    · simpa using he t ht
    · rw [toList_members, List.append_assoc]
      refine he _ ?_
      show margin ([';', ' '] ++ (_ ++ t)) = width
      rw [margin_append (by decide), ih hes]

/-- The first line that an expression has after its own is indented one deeper, and so is the first
line behind an expression with none. -/
theorem margin_canonical (hword : ∀ n, word n → Text.isWord (ctx.text n).toList) {e : Expr}
    (h : e.Blocks word type) :
    (∀ t, margin t = (depth + 1) * ctx.indentSize →
      margin ((e.canonical ctx depth).toList ++ t) = (depth + 1) * ctx.indentSize) ∧
    (e.isCase → ∀ t,
      margin ((e.canonical ctx depth).toList ++ t) = (depth + 1) * ctx.indentSize) := by
  induction h with
  | @symbol n ty span h =>
    refine ⟨fun t ht => ?_, fun hc => nomatch hc⟩
    rw [toList_symbol, margin_append (not_newline_of_inWord (inWord_of_isWord (hword n h))), ht]
  | @case scrutinee as ty span _ hne _ _ ihs _ =>
    have hall : ∀ t,
        margin ((Expr.canonical ctx depth ⟨.case scrutinee as, ty, span⟩).toList ++ t) =
          (depth + 1) * ctx.indentSize := fun t => by
      obtain ⟨a, as, rfl⟩ := List.exists_cons_of_ne_nil hne
      rw [toList_case]
      show margin (['c', 'a', 's', 'e', ' '] ++ ((scrutinee.canonical ctx depth).toList ++
        (' ' :: 'o' :: 'f' :: armChars ctx (depth + 1) (a :: as))) ++ t) = _
      rw [List.append_assoc, margin_append (by decide), List.append_assoc]
      refine ihs.1 _ ?_
      show margin ([' ', 'o', 'f'] ++ (armChars ctx (depth + 1) (a :: as) ++ t)) = _
      rw [margin_append (by decide), armChars, List.flatMap_cons, List.append_assoc,
        List.append_assoc, margin_armMark]
    exact ⟨fun t _ => hall t, fun _ => hall⟩
  | @compound es ty span hlen _ _ ih =>
    refine ⟨fun t ht => ?_, fun hc => nomatch hc⟩
    rw [canonical_compound]
    exact margin_members (fun e he => (ih e he).1) ht

theorem startsCase_canonical (hword : ∀ n, word n → Text.isWord (ctx.text n).toList) {e : Expr}
    (h : e.Blocks word type) (hflat : e.isCompound = false) {width : Nat} {next : List Char → Prop}
    {t : List Char} (ht : Follows width next t) :
    startsCase ((e.canonical ctx depth).toList ++ t) = e.isCase := by
  cases h with
  | symbol h =>
    rw [toList_symbol]
    exact ht.startsCase_word (inWord_of_isWord (hword _ h))
  | @case scrutinee as ty span hs hne hp hb =>
    have hof : endsLine ((scrutinee.canonical ctx depth).toList ++
        ' ' :: 'o' :: 'f' :: (armChars ctx (depth + 1) as ++ t)) = false :=
      endsLine_canonical hword hs (.inl rfl) _
    rw [toList_case]
    show (!endsLine ((scrutinee.canonical ctx depth).toList ++
      (' ' :: 'o' :: 'f' :: armChars ctx (depth + 1) as) ++ t)) = true
    rw [List.append_assoc]
    show (!endsLine (_ ++ ' ' :: 'o' :: 'f' :: (armChars ctx (depth + 1) as ++ t))) = true
    rw [hof]
    rfl
  | compound => cases hflat

/-! ## Reading -/

theorem arms_canonical {mark : List Char} {p : Scanner α} {f : β → List Char} {g : β → α}
    {bs : List β} {t : List Char} (ht : ¬ mark <+: t)
    (hp : ∀ b ∈ bs, ∀ u, (u = t ∨ mark <+: u) → p (f b ++ u) = some (g b, u)) {n : Nat}
    (hn : bs.length < n) :
    arms mark p n (bs.flatMap (fun b => mark ++ f b) ++ t) = some (bs.map g, t) := by
  induction bs generalizing n with
  | nil =>
    obtain ⟨n, rfl⟩ : ∃ m, n = m + 1 := ⟨n - 1, by omega⟩
    simp [arms, ht]
  | cons b bs ih =>
    obtain ⟨hb, hbs⟩ := List.forall_mem_cons.mp hp
    rw [List.length_cons] at hn
    obtain ⟨n, rfl⟩ : ∃ m, n = m + 1 := ⟨n - 1, by omega⟩
    have hrest := ih hbs (show bs.length < n by omega)
    have hread := hb (bs.flatMap (fun b => mark ++ f b) ++ t) (by
      rcases bs with _ | ⟨b', bs⟩
      · exact .inl rfl
      · exact .inr (by simp [List.append_assoc]))
    simp [arms, hread, hrest]

section

variable (ctx) (names : List Char → Option Name)

/-- The text of an expression is read back as a member of a sequence at its depth. -/
def ReadMember (e : Expr) : Prop :=
  ∀ n depth t, (e.canonical ctx depth).length ≤ n →
    Follows (depth * ctx.indentSize)
      (fun u => e.isCase → Shallow ((depth + 1) * ctx.indentSize) u) t →
    member names ctx.indentSize (blocks names ctx.indentSize n) n depth
      ((e.canonical ctx depth).toList ++ t) = some (e.bare, t)

/-- The text of an expression is read back where an expression of its depth is expected. -/
def ReadBlock (e : Expr) : Prop :=
  ∀ n depth t, (e.canonical ctx depth).length < n →
    Follows (depth * ctx.indentSize) (Shallow (depth * ctx.indentSize)) t →
    blocks names ctx.indentSize n depth ((e.canonical ctx depth).toList ++ t) = some (e.bare, t)

end

variable {names : List Char → Option Name}

theorem ReadMember.symbol {n : Name} {ty : Option TypeExpr} {span : Span}
    (h : Named ctx names n) : ReadMember ctx names ⟨.symbol (.unqualified n), ty, span⟩ := by
  intro k depth t _ ht
  have hw := inWord_of_isWord h.isWord
  rw [toList_symbol, member, ht.startsCase_word hw, run_append hw ht.inWord_head]
  simp [h.eq, Expr.bare, ExprForm.bare]

theorem width_lt {size : Nat} (h : 0 < size) (depth : Nat) : depth * size < (depth + 1) * size :=
  Nat.mul_lt_mul_of_pos_right (Nat.lt_succ_self depth) h

theorem Follows.not_armMark_prefix {width k : Nat} {next : List Char → Prop} {t : List Char}
    (h : Follows width next t) (hk : width < k) : ¬ armMark k <+: t := by
  rintro ⟨u, rfl⟩
  generalize hcs : armMark k ++ u = cs at h
  cases h with
  | nil | head | next => cases hcs
  | @arm k' hk' t =>
    have hmargin := congrArg margin hcs
    rw [margin_armMark, margin_armMark] at hmargin
    omega

theorem length_armChars (ctx : Context) (depth : Nat) (as : List (Pattern × Expr)) :
    (∀ a ∈ as, (a.1.canonical ctx).length + (a.2.canonical ctx depth).length <
      (armChars ctx depth as).length) ∧ as.length ≤ (armChars ctx depth as).length := by
  induction as with
  | nil => simp [armChars]
  | cons a as ih =>
    obtain ⟨hparts, hcount⟩ := ih
    have hlen : (armChars ctx depth (a :: as)).length = depth * ctx.indentSize + 7 +
        (a.1.canonical ctx).length + (a.2.canonical ctx depth).length +
        (armChars ctx depth as).length := by
      simp only [armChars, armMark, List.flatMap_cons, List.length_append, List.length_cons,
        List.length_replicate, String.length_toList, List.length_nil]
      omega
    rw [hlen, List.length_cons]
    refine ⟨List.forall_mem_cons.mpr ⟨by omega, fun b hb => ?_⟩, by omega⟩
    have := hparts b hb
    omega

theorem guarded_canonical {p : Pattern} {e : Expr} (hp : ReadPattern ctx names (fun _ => none) p)
    (he : ReadBlock ctx names e) {n depth : Nat} (hpn : (p.canonical ctx).length < n)
    (hen : (e.canonical ctx depth).length < n) {t : List Char}
    (ht : Follows (depth * ctx.indentSize) (Shallow (depth * ctx.indentSize)) t) :
    guarded (pattern names (fun _ => none) n) (blocks names ctx.indentSize n depth)
      ((p.canonical ctx).toList ++ ' ' :: '=' :: '>' :: ' ' :: (e.canonical ctx depth).toList ++
        t) = some ((p.bare, e.bare), t) := by
  have hread := hp n hpn (' ' :: '=' :: '>' :: ' ' :: ((e.canonical ctx depth).toList ++ t)) rfl
  rw [List.append_assoc, guarded]
  simp only [List.cons_append, hread, he n depth t hen ht, Option.map_some]

theorem ReadMember.case {scrutinee : Expr} {as : List (Pattern × Expr)} {ty : Option TypeExpr}
    {span : Span} (hsize : 0 < ctx.indentSize)
    (hword : ∀ n, word n → Text.isWord (ctx.text n).toList)
    (h : Expr.Blocks word type ⟨.case scrutinee as, ty, span⟩) (hne : as ≠ [])
    (hs : ReadBlock ctx names scrutinee)
    (hp : ∀ a ∈ as, ReadPattern ctx names (fun _ => none) a.1)
    (hb : ∀ a ∈ as, ReadBlock ctx names a.2) :
    ReadMember ctx names ⟨.case scrutinee as, ty, span⟩ := by
  intro n depth t hn ht
  have hwidth := width_lt hsize depth
  obtain ⟨hparts, hcount⟩ := length_armChars ctx (depth + 1) as
  have hlen : (scrutinee.canonical ctx depth).length +
      (armChars ctx (depth + 1) as).length < n := by
    rw [← String.length_toList, toList_case] at hn
    simp only [List.length_cons, List.length_append, String.length_toList] at hn
    omega
  have hstart : startsCase ((Expr.canonical ctx depth ⟨.case scrutinee as, ty, span⟩).toList ++ t) =
      true := startsCase_canonical hword h rfl ht
  rw [member, if_pos hstart, toList_case]
  have hhead : blocks names ctx.indentSize n depth ((scrutinee.canonical ctx depth).toList ++
      ' ' :: 'o' :: 'f' :: (armChars ctx (depth + 1) as ++ t)) =
      some (scrutinee.bare, ' ' :: 'o' :: 'f' :: (armChars ctx (depth + 1) as ++ t)) := by
    refine hs n depth _ (by omega) ?_
    obtain ⟨a, as, rfl⟩ := List.exists_cons_of_ne_nil hne
    exact .head _
  have harms : arms (armMark ((depth + 1) * ctx.indentSize))
      (guarded (pattern names (fun _ => none) n) (blocks names ctx.indentSize n (depth + 1))) n
      (armChars ctx (depth + 1) as ++ t) = some (as.map fun a => (a.1.bare, a.2.bare), t) := by
    refine arms_canonical (ht.not_armMark_prefix hwidth) (fun a ha u hu => ?_) (by omega)
    have := hparts a ha
    refine guarded_canonical (hp a ha) (hb a ha) (by omega) (by omega) ?_
    rcases hu with rfl | ⟨v, rfl⟩
    · exact ht.mono (Nat.le_of_lt hwidth) fun v hv => hv rfl
    · exact .arm (Nat.le_refl _) v
  simp [hhead, harms, Expr.bare, ExprForm.bare, Expr.bareArms_eq_map]

/-! ## Sequences -/

theorem members_last {p : Scanner α} {joins : List Char → Bool} {cs t : List Char} {a : α}
    (hp : p cs = some (a, t)) (ht : ∀ u, t = ';' :: ' ' :: u → joins u = false) (n : Nat) :
    members p joins (n + 1) cs = some ([a], t) := by
  rw [members, hp]
  split
  · next h =>
    cases h
    rw [ht _ rfl]
    rfl
  · next h => cases h; rfl
  · next h => cases h

theorem members_more {p : Scanner α} {joins : List Char → Bool} {cs t u : List Char} {a : α}
    {as : List α} {n : Nat} (hp : p cs = some (a, ';' :: ' ' :: t)) (hj : joins t)
    (hm : members p joins n t = some (as, u)) :
    members p joins (n + 1) cs = some (a :: as, u) := by
  simp [members, hp, hj, hm]

/-- A sequence begins with its first member, behind which the sequence may go on. -/
theorem members_begin (ctx : Context) (depth : Nat) (e : Expr) (es : List Expr) {width : Nat}
    {next : List Char → Prop} {t : List Char} (ht : Follows width next t) :
    ∃ u, Follows width (fun _ => True) u ∧
      ("; ".intercalate ((e :: es).map (Expr.canonical ctx depth))).toList ++ t =
        (e.canonical ctx depth).toList ++ u := by
  rcases es with _ | ⟨e', es⟩
  · exact ⟨t, ht.mono (Nat.le_refl _) fun _ _ => trivial, by simp⟩
  · rw [toList_members, List.append_assoc]
    exact ⟨_, .next trivial, rfl⟩

/-- A member is taken for the next one of its sequence. -/
theorem joins_canonical (hword : ∀ n, word n → Text.isWord (ctx.text n).toList) {e : Expr}
    (he : e.Blocks word type) (hflat : e.isCompound = false) {width : Nat}
    {next : List Char → Prop} {t : List Char} (ht : Follows width next t) :
    joins ctx.indentSize depth ((e.canonical ctx depth).toList ++ t) ∧
      (e.isCase → Shallow ((depth + 1) * ctx.indentSize)
        ((e.canonical ctx depth).toList ++ t)) := by
  have hstart : startsCase ((e.canonical ctx depth).toList ++ t) = e.isCase :=
    startsCase_canonical hword he hflat ht
  have hmargin : e.isCase →
      margin ((e.canonical ctx depth).toList ++ t) = (depth + 1) * ctx.indentSize :=
    fun hc => (margin_canonical hword he).2 hc t
  refine ⟨?_, fun hc => ⟨hstart.trans hc, Nat.le_of_eq (hmargin hc)⟩⟩
  rw [joins, hstart]
  cases hc : e.isCase with
  | true => simp [hmargin hc]
  | false => rfl

variable (ctx word type names) in
/-- Expressions that can be told apart as the members of a sequence. -/
structure ReadMembers (es : List Expr) : Prop where
  blocks : ∀ e ∈ es, e.Blocks word type
  flat : ∀ e ∈ es, e.isCompound = false
  order : es.Pairwise fun a b => a.isCase → b.isCase
  read : ∀ e ∈ es, ReadMember ctx names e

theorem ReadMembers.tail {e : Expr} {es : List Expr}
    (h : ReadMembers ctx word type names (e :: es)) : ReadMembers ctx word type names es where
  blocks := (List.forall_mem_cons.mp h.blocks).2
  flat := (List.forall_mem_cons.mp h.flat).2
  order := (List.pairwise_cons.mp h.order).2
  read := (List.forall_mem_cons.mp h.read).2

theorem members_canonical (hsize : 0 < ctx.indentSize)
    (hword : ∀ n, word n → Text.isWord (ctx.text n).toList) {es : List Expr} (hne : es ≠ [])
    (h : ReadMembers ctx word type names es) {n m : Nat}
    (hn : ∀ e ∈ es, (e.canonical ctx depth).length ≤ n) (hm : es.length ≤ m) {t : List Char}
    (ht : Follows (depth * ctx.indentSize) (Shallow (depth * ctx.indentSize)) t) :
    members (member names ctx.indentSize (blocks names ctx.indentSize n) n depth)
      (joins ctx.indentSize depth) m
      (("; ".intercalate (es.map (Expr.canonical ctx depth))).toList ++ t) =
      some (es.map Expr.bare, t) := by
  induction es generalizing m with
  | nil => exact absurd rfl hne
  | cons e es ih =>
    obtain ⟨m, rfl⟩ : ∃ k, m = k + 1 := ⟨m - 1, by rw [List.length_cons] at hm; omega⟩
    obtain ⟨hlen, hn⟩ := List.forall_mem_cons.mp hn
    have hread := h.read e (by simp) n depth
    rcases es with _ | ⟨e', es⟩
    · -- Behind the last member there is no symbol, and no case with its arms as deep as here.
      have hwidth := width_lt hsize depth
      have hlast := hread t hlen (ht.mono (Nat.le_refl _) fun u hu _ =>
        ⟨hu.1, Nat.le_trans hu.2 (Nat.le_of_lt hwidth)⟩)
      have hstop : ∀ u, t = ';' :: ' ' :: u → joins ctx.indentSize depth u = false := by
        rintro u rfl
        cases ht with
        | next hu =>
          have hne : margin u ≠ (depth + 1) * ctx.indentSize :=
            Nat.ne_of_lt (Nat.lt_of_le_of_lt hu.2 hwidth)
          simp [joins, hu.1, hne]
      simpa using members_last hlast hstop m
    · obtain ⟨u, hu, hbegin⟩ := members_begin ctx depth e' es ht
      have hrest := ih (by simp) h.tail hn (by simpa using hm)
      obtain ⟨hjoins, hshallow⟩ : joins ctx.indentSize depth _ ∧ _ :=
        joins_canonical hword (h.tail.blocks e' (by simp)) (h.tail.flat e' (by simp)) hu
      rw [← hbegin] at hjoins hshallow
      rw [toList_members, List.append_assoc]
      refine members_more (hread _ hlen (.next fun hcase => ?_)) hjoins hrest
      exact hshallow ((List.pairwise_cons.mp h.order).1 e' (by simp) hcase)

/-- Members are read as a sequence. -/
theorem blocks_canonical (hsize : 0 < ctx.indentSize)
    (hword : ∀ n, word n → Text.isWord (ctx.text n).toList) {es : List Expr} (hne : es ≠ [])
    (h : ReadMembers ctx word type names es) {n : Nat}
    (hn : ("; ".intercalate (es.map (Expr.canonical ctx depth))).length < n) {t : List Char}
    (ht : Follows (depth * ctx.indentSize) (Shallow (depth * ctx.indentSize)) t) :
    blocks names ctx.indentSize n depth
      (("; ".intercalate (es.map (Expr.canonical ctx depth))).toList ++ t) =
      some (Expr.sequence (es.map Expr.bare), t) := by
  obtain ⟨n, rfl⟩ : ∃ m, n = m + 1 := ⟨n - 1, by omega⟩
  have hcount := count_le_intercalate "; " (by decide) (es.map (Expr.canonical ctx depth))
  rw [List.length_map] at hcount
  have hlen : ∀ e ∈ es, (e.canonical ctx depth).length ≤ n := fun e he =>
    Nat.le_trans (length_le_intercalate "; " (List.mem_map_of_mem he)) (Nat.le_of_lt_succ hn)
  have hm : es.length ≤ n + 1 := Nat.le_trans hcount hn
  rw [blocks, members_canonical hsize hword hne h hlen hm ht]
  rfl

theorem ReadMember.readBlock (hsize : 0 < ctx.indentSize)
    (hword : ∀ n, word n → Text.isWord (ctx.text n).toList) {e : Expr} (he : e.Blocks word type)
    (hflat : e.isCompound = false) (h : ReadMember ctx names e) : ReadBlock ctx names e := by
  intro n depth t hn ht
  have hes : ReadMembers ctx word type names [e] :=
    ⟨by simpa using he, by simpa using hflat, by simp, by simpa using h⟩
  have hlen : ("; ".intercalate ([e].map (Expr.canonical ctx depth))).length < n := by
    simpa using hn
  have hread := blocks_canonical hsize hword (by simp) hes hlen ht
  rw [List.map_singleton, String.intercalate_singleton] at hread
  exact hread

theorem read_symbol_pattern (hword : ∀ n, word n → Named ctx names n)
    (htype : ∀ f, type f → LegibleType ctx names ⟨f, .dummy⟩) {p : Pattern}
    (h : p.IsSymbol word type) : ReadPattern ctx names (fun _ => none) p := by
  obtain ⟨form, ty, span⟩ := p
  obtain ⟨path, rfl, hpath, hty⟩ := h
  have hwritten : Pattern.Written word (fun _ => False) (fun t => type t.form)
      ⟨.symbol path, ty, span⟩ := .symbol hpath hty
  exact read_written hword (fun _ hv => hv.elim) (fun t ht => htype t.form ht) hwritten

/-- An expression in which no case stands before a symbol is read back from its text. -/
theorem read_blocks (hsize : 0 < ctx.indentSize) (hword : ∀ n, word n → Named ctx names n)
    (htype : ∀ f, type f → LegibleType ctx names ⟨f, .dummy⟩) {e : Expr} (h : e.Blocks word type)
    (htrail : e.trailsCase = false) :
    ReadBlock ctx names e ∧ (e.isCompound = false → ReadMember ctx names e) := by
  have hisWord : ∀ n, word n → Text.isWord (ctx.text n).toList := fun n hn => (hword n hn).isWord
  induction h with
  | @symbol n ty span h =>
    have hm : ReadMember ctx names ⟨.symbol (.unqualified n), ty, span⟩ := .symbol (hword n h)
    have hblocks : Expr.Blocks word type ⟨.symbol (.unqualified n), ty, span⟩ := .symbol h
    exact ⟨hm.readBlock hsize hisWord hblocks rfl, fun _ => hm⟩
  | @case scrutinee as ty span hs hne hp hb ihs ihb =>
    rw [Expr.trailsCase, Bool.or_eq_false_iff, Expr.armsTrail_eq_false_iff] at htrail
    have hblocks : Expr.Blocks word type ⟨.case scrutinee as, ty, span⟩ := .case hs hne hp hb
    have hm : ReadMember ctx names ⟨.case scrutinee as, ty, span⟩ :=
      .case hsize hisWord hblocks hne (ihs htrail.1).1
        (fun a ha => read_symbol_pattern hword htype (hp a ha))
        fun a ha => (ihb a ha (htrail.2 a ha)).1
    exact ⟨hm.readBlock hsize hisWord hblocks rfl, fun _ => hm⟩
  | @compound es ty span hlen hes hflat ih =>
    rw [Expr.trailsCase, Expr.membersTrail_eq_false_iff] at htrail
    have hmembers : ReadMembers ctx word type names es :=
      ⟨hes, hflat, htrail.2, fun e he => (ih e he (htrail.1 e he)).2 (hflat e he)⟩
    refine ⟨fun n depth t hn ht => ?_, fun hc => Bool.noConfusion hc⟩
    rw [canonical_compound] at hn ⊢
    have hne : es ≠ [] := List.ne_nil_of_length_pos (Nat.lt_of_succ_lt hlen)
    rw [blocks_canonical hsize hisWord hne hmembers hn ht, Expr.bare, ExprForm.bare,
      Expr.bareList_eq_map, Expr.sequence_of_two_le (by simpa using hlen)]

end

end Scan

/-! ## Rendering -/

/-- Types other than records, and records whose path is none of these types. -/
def Context.Annotation (ctx : Context) : TypeForm → Prop
  | .record name => (∀ n ∈ name.segments, ctx.Issued n) ∧
      ∀ w ∈ TypeForm.words, name.canonical ctx ≠ w.1
  | _ => True

theorem Context.Annotation.legible {ctx : Context} {names : List Char → Option Name}
    (hword : ∀ n, ctx.Issued n → Scan.Named ctx names n) {f : TypeForm} (h : ctx.Annotation f) :
    Scan.LegibleType ctx names ⟨f, .dummy⟩ := by
  cases f with
  | record name => exact ⟨fun n hn => hword n (h.1 n hn), h.2⟩
  | list | map | any | prim p => trivial

theorem Doc.render_congr {ctx : Context} {d d' : Doc} (h : d.print ctx = d'.print ctx) :
    d.render ctx = d'.render ctx := by
  funext k
  rw [render, render, h]

namespace Expr

variable {ctx : Context}

/-- The text of an expression is read as the regrouped expression. -/
theorem Blocks.read_render (hsize : 0 < ctx.indentSize)
    {names : List Char → Option Name} (hword : ∀ n, ctx.Issued n → Scan.Named ctx names n)
    {e : Expr} (h : e.Blocks ctx.Issued ctx.Annotation) {s : String} {k k' : Sink}
    (hs : e.doc.render ctx k = .ok s k') :
    Scan.blocks names ctx.indentSize (s.length + 1) k.depth s.toList =
      some (e.regroup [], []) := by
  have hsettled := h.settled_regroup [] (by simp)
  rw [← Doc.render_congr (h.print_regroup ctx)] at hs
  obtain rfl := ((Doc.render_ok_iff.mp ⟨k', hs⟩).2).trans ((Node.expr _).output_doc ctx k.depth)
  have hread := (Scan.read_blocks hsize hword (fun f hf => hf.legible hword) hsettled.blocks
    hsettled.trailsCase).1 _ k.depth [] (Nat.lt_succ_self _) .nil
  rwa [List.append_nil, hsettled.bare] at hread

/-- Expressions of symbols, cases and sequences have the same text exactly if they are read as the
same expression, and one is read as itself exactly if no case stands before a symbol in it. -/
theorem render_eq_iff_regroup_eq (hsize : 0 < ctx.indentSize)
    (hd : ∀ m n, ctx.Issued m → ctx.Issued n → ctx.text m = ctx.text n → m = n)
    (hw : ∀ n, ctx.Issued n → Text.isWord (ctx.text n).toList) {a b : Expr}
    (ha : a.Blocks ctx.Issued ctx.Annotation) (hb : b.Blocks ctx.Issued ctx.Annotation)
    {s : String} {k k' : Sink} (hs : a.doc.render ctx k = .ok s k') :
    ((∃ l, b.doc.render ctx k = .ok s l) ↔ a.regroup [] = b.regroup []) ∧
      (a.regroup [] = a.bare ↔ a.trailsCase = false) := by
  refine ⟨?_, ha.regroup_eq_bare_iff⟩
  have hword : ∀ n, ctx.Issued n → Scan.Named ctx (ctx.dictionary ctx.Issued) n := fun n hn =>
    ⟨hw n hn, Context.dictionary_text hd hn⟩
  constructor
  · rintro ⟨l, hl⟩
    have hab := (ha.read_render hsize hword hs).symm.trans (hb.read_render hsize hword hl)
    exact (Prod.mk.inj (Option.some.inj hab)).1
  · intro h
    have hprint : b.doc.print ctx = a.doc.print ctx := by
      rw [← hb.print_regroup ctx, ← h, ha.print_regroup ctx]
    exact ⟨k', (Doc.render_congr hprint ▸ hs)⟩

/-- A symbol that follows a case. -/
def afterCase (n : Name) : Expr :=
  let symbol : Expr := .ofForm (.symbol (.unqualified n))
  .ofForm (.compound
    [.ofForm (.case symbol [(.ofForm (.symbol (.unqualified n)), symbol)]), symbol])

/-- A symbol at the end of the arm of a case. -/
def withinCase (n : Name) : Expr :=
  let symbol : Expr := .ofForm (.symbol (.unqualified n))
  .ofForm (.case symbol
    [(.ofForm (.symbol (.unqualified n)), .ofForm (.compound [symbol, symbol]))])

theorem blocks_afterCase {word : Name → Prop} {type : TypeForm → Prop} {n : Name} (h : word n) :
    (afterCase n).Blocks word type ∧ (withinCase n).Blocks word type := by
  have hsymbol : (ofForm (.symbol (.unqualified n))).Blocks word type := .symbol h
  have hguard : (Pattern.ofForm (.symbol (.unqualified n))).IsSymbol word type := by
    refine ⟨.unqualified n, rfl, fun m hm => ?_, fun t ht => nomatch ht⟩
    obtain rfl := List.mem_singleton.mp hm
    exact h
  have hcase : ∀ {e : Expr}, e.Blocks word type →
      (ofForm (.case (ofForm (.symbol (.unqualified n)))
        [(.ofForm (.symbol (.unqualified n)), e)])).Blocks word type := fun he =>
    .case hsymbol (List.cons_ne_nil _ []) (by simpa using hguard) (by simpa using he)
  have hpair : ∀ {e : Expr}, e.Blocks word type → e.isCompound = false →
      (ofForm (.compound [e, ofForm (.symbol (.unqualified n))])).Blocks word type :=
    fun he hflat => .compound (Nat.le_refl 2) (by simpa using ⟨he, hsymbol⟩)
      (by simpa using ⟨hflat, rfl⟩)
  exact ⟨hpair (hcase hsymbol) rfl, hcase (hpair hsymbol rfl)⟩

theorem render_eq_iff_regroup_eq_arm :
    let ctx : Context := ⟨.single "a", 2⟩
    let k : Sink := ⟨1, "", #[]⟩
    let text : String := "case a of\n    | a => a; a"
    (∀ m n, ctx.Issued m → ctx.Issued n → ctx.text m = ctx.text n → m = n) ∧
      (∀ n, ctx.Issued n → Text.isWord (ctx.text n).toList) ∧
      (afterCase ⟨0⟩).Blocks ctx.Issued ctx.Annotation ∧
      (withinCase ⟨0⟩).Blocks ctx.Issued ctx.Annotation ∧
      (∃ l, (afterCase ⟨0⟩).doc.render ctx k = .ok text l) ∧
      (∃ l, (withinCase ⟨0⟩).doc.render ctx k = .ok text l) ∧
      (afterCase ⟨0⟩).regroup [] = (withinCase ⟨0⟩).regroup [] ∧
      (afterCase ⟨0⟩).regroup [] ≠ (afterCase ⟨0⟩).bare := by
  intro ctx k text
  have hd : ∀ m n, ctx.Issued m → ctx.Issued n → ctx.text m = ctx.text n → m = n :=
    fun _ _ => Context.text_inj (Interner.Reachable.single "a").coherent
  have hw : ∀ n, ctx.Issued n → Text.isWord (ctx.text n).toList :=
    Context.isWord_of_issued_single (by decide)
  obtain ⟨hafter, hwithin⟩ : (afterCase ⟨0⟩).Blocks ctx.Issued ctx.Annotation ∧
      (withinCase ⟨0⟩).Blocks ctx.Issued ctx.Annotation :=
    blocks_afterCase (show ctx.Issued ⟨0⟩ by decide)
  obtain ⟨l, hl⟩ : ∃ l, (afterCase ⟨0⟩).doc.render ctx k = .ok text l :=
    Doc.render_ok_iff.mpr ⟨⟨by decide, by decide⟩, by decide⟩
  have h := render_eq_iff_regroup_eq (by decide) hd hw hafter hwithin hl
  have hsame : (afterCase ⟨0⟩).regroup [] = (withinCase ⟨0⟩).regroup [] := rfl
  exact ⟨hd, hw, hafter, hwithin, ⟨l, hl⟩, h.1.mpr hsame, hsame,
    fun he => Bool.noConfusion (h.2.mp he)⟩

/-- The text does not tell what follows a case from what belongs to its last arm. -/
theorem not_bare_eq_of_blocks_render_eq : ¬ ∀ (ctx : Context) (a b : Expr) (s : String)
    (k l l' : Sink), ctx.indentSize = 2 →
    (∀ m n, ctx.Issued m → ctx.Issued n → ctx.text m = ctx.text n → m = n) →
    (∀ n, ctx.Issued n → Text.isWord (ctx.text n).toList) →
    a.Blocks ctx.Issued ctx.Annotation → b.Blocks ctx.Issued ctx.Annotation →
    a.doc.render ctx k = .ok s l → b.doc.render ctx k = .ok s l' → a.bare = b.bare := by
  intro h
  let ctx : Context := ⟨.single "a", 2⟩
  have hd : ∀ m n, ctx.Issued m → ctx.Issued n → ctx.text m = ctx.text n → m = n :=
    fun _ _ => Context.text_inj (Interner.Reachable.single "a").coherent
  have hw : ∀ n, ctx.Issued n → Text.isWord (ctx.text n).toList :=
    Context.isWord_of_issued_single (by decide)
  obtain ⟨hafter, hwithin⟩ : (afterCase ⟨0⟩).Blocks ctx.Issued ctx.Annotation ∧
      (withinCase ⟨0⟩).Blocks ctx.Issued ctx.Annotation :=
    blocks_afterCase (show ctx.Issued ⟨0⟩ by decide)
  let text : String := "case a of\n  | a => a; a"
  obtain ⟨l, hl⟩ : ∃ l, (afterCase ⟨0⟩).doc.render ctx {} = .ok text l :=
    Doc.render_ok_iff.mpr ⟨⟨by decide, by decide⟩, by decide⟩
  obtain ⟨l', hl'⟩ : ∃ l, (withinCase ⟨0⟩).doc.render ctx {} = .ok text l :=
    Doc.render_ok_iff.mpr ⟨⟨by decide, by decide⟩, by decide⟩
  have he := h ctx _ _ text {} l l' rfl hd hw hafter hwithin hl hl'
  exact ExprForm.noConfusion (Expr.mk.inj he).1

end Expr

end Treeprint
