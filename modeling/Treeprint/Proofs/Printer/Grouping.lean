import Treeprint.Proofs.Bare
import Treeprint.Proofs.Printer.Frame
import Treeprint.Proofs.Printer.Normal

/-!
# What follows a `case`

The arms of a `case` are closed by no word, and neither is a sequence. So a symbol that follows a
`case` in a sequence has the same place in the text as one that ends the last arm, within that arm
as far inside as there are cases at its end. A `case` that follows a `case` does not, because its
arms stand at the depth of the sequence.

Here such symbols are taken into the last arm (`Expr.regroup`). Nothing about the printing changes
by it (`Expr.Blocks.print_regroup`), and no sequence is left in which a case stands before a symbol
(`Expr.Blocks.settled_regroup`). An expression stays as it is exactly if it has no such sequence
(`Expr.Blocks.regroup_eq_bare_iff`).
-/

namespace Treeprint

/-- A symbol as a pattern, with a type of a kind if it has one. -/
def Pattern.IsSymbol (word : Name → Prop) (type : TypeForm → Prop) (p : Pattern) : Prop :=
  ∃ path, p.form = .symbol path ∧ (∀ n ∈ path.segments, word n) ∧ ∀ t ∈ p.ty, type t.form

namespace Expr

def isCase : Expr → Bool
  | ⟨.case _ _, _, _⟩ => true
  | _ => false

def isCompound : Expr → Bool
  | ⟨.compound _, _, _⟩ => true
  | _ => false

/-- Expressions of unqualified symbols, cases and sequences. A case has an arm, and a sequence has
two members or more, which are no sequences themselves. -/
inductive Blocks (word : Name → Prop) (type : TypeForm → Prop) : Expr → Prop
  | symbol {n : Name} {ty : Option TypeExpr} {span : Span} (h : word n) :
    Blocks word type ⟨.symbol (.unqualified n), ty, span⟩
  | case {scrutinee : Expr} {arms : List (Pattern × Expr)} {ty : Option TypeExpr} {span : Span}
    (hs : Blocks word type scrutinee) (hne : arms ≠ [])
    (hp : ∀ a ∈ arms, a.1.IsSymbol word type) (hb : ∀ a ∈ arms, Blocks word type a.2) :
    Blocks word type ⟨.case scrutinee arms, ty, span⟩
  | compound {es : List Expr} {ty : Option TypeExpr} {span : Span} (hlen : 2 ≤ es.length)
    (hes : ∀ e ∈ es, Blocks word type e) (hflat : ∀ e ∈ es, e.isCompound = false) :
    Blocks word type ⟨.compound es, ty, span⟩

mutual

/-- Whether a sequence somewhere has a case before a member that is none. -/
def trailsCase : Expr → Bool
  | ⟨.case scrutinee arms, _, _⟩ => scrutinee.trailsCase || armsTrail arms
  | ⟨.compound es, _, _⟩ => membersTrail es
  | _ => false

def armsTrail : List (Pattern × Expr) → Bool
  | [] => false
  | (_, e) :: as => e.trailsCase || armsTrail as

def membersTrail : List Expr → Bool
  | [] => false
  | e :: es => e.trailsCase || (e.isCase && es.any (!·.isCase)) || membersTrail es

end

/-- Expressions one after the other. One alone is no sequence. -/
def sequence : List Expr → Expr
  | [e] => e
  | es => .ofForm (.compound es)

mutual

/-- The expression, with others behind it, as it is read: what stands behind a case is in its last
arm. -/
def regroup (behind : List Expr) : Expr → Expr
  | ⟨.case scrutinee arms, _, _⟩ =>
    .ofForm (.case (scrutinee.regroup []) (regroupArms behind arms))
  | ⟨.compound es, _, _⟩ =>
    let members := regroupMembers behind es
    sequence (members.1 ++ members.2)
  | e => sequence (e.bare :: behind)

def regroupArms (behind : List Expr) : List (Pattern × Expr) → List (Pattern × Expr)
  | [] => []
  | [(p, e)] => [(p.bare, e.regroup behind)]
  | (p, e) :: a :: as => (p.bare, e.regroup []) :: regroupArms behind (a :: as)

/-- The members up to the first case, and the cases with what followed each of them. -/
def regroupMembers (behind : List Expr) : List Expr → List Expr × List Expr
  | [] => (behind, [])
  | e :: es =>
    let rest := regroupMembers behind es
    if e.isCase then ([], e.regroup rest.1 :: rest.2) else (e.bare :: rest.1, rest.2)

end

/-! ## The parts one by one -/

theorem sequence_of_two_le {es : List Expr} (h : 2 ≤ es.length) :
    sequence es = .ofForm (.compound es) := by
  rcases es with _ | ⟨e, _ | ⟨e', es⟩⟩
  · rfl
  · exact absurd h (Nat.lt_irrefl 1)
  · rfl

theorem armsTrail_eq_false_iff {arms : List (Pattern × Expr)} :
    armsTrail arms = false ↔ ∀ a ∈ arms, a.2.trailsCase = false := by
  induction arms with
  | nil => simp [armsTrail]
  | cons a as ih => simp [armsTrail, ih]

theorem membersTrail_eq_false_iff {es : List Expr} :
    membersTrail es = false ↔ (∀ e ∈ es, e.trailsCase = false) ∧
      es.Pairwise fun a b => a.isCase → b.isCase := by
  induction es with
  | nil => simp [membersTrail]
  | cons e es ih =>
    simp only [membersTrail, Bool.or_eq_false_iff, ih, List.forall_mem_cons, List.pairwise_cons]
    have hcase : (e.isCase && es.any (!·.isCase)) = false ↔ ∀ b ∈ es, e.isCase → b.isCase := by
      cases e.isCase <;> simp
    rw [hcase]
    tauto

theorem bareArms_eq_map (arms : List (Pattern × Expr)) :
    bareArms arms = arms.map fun a => (a.1.bare, a.2.bare) := by
  induction arms <;> simp_all [bareArms]

theorem isCase_bare (e : Expr) : e.bare.isCase = e.isCase := by
  obtain ⟨form, ty, span⟩ := e
  cases form with
  | ifElse cond body elseBody => cases elseBody <;> rfl
  | _ => rfl

theorem isCase_regroup {e : Expr} (h : e.isCase) (behind : List Expr) :
    (e.regroup behind).isCase := by
  unfold isCase at h
  split at h
  · rfl
  · cases h

variable {word : Name → Prop} {type : TypeForm → Prop}

/-- A symbol without place and type. -/
def Plain (word : Name → Prop) (e : Expr) : Prop :=
  ∃ n, word n ∧ e = .ofForm (.symbol (.unqualified n))

theorem Blocks.plain {e : Expr} (h : e.Blocks word type) (hcase : e.isCase = false)
    (hflat : e.isCompound = false) : e.bare.Plain word ∧ e.bare.doc = e.doc := by
  cases h with
  | symbol h => exact ⟨⟨_, h, rfl⟩, rfl⟩
  | case => cases hcase
  | compound => cases hflat

theorem plain_regroupMembers {behind es : List Expr} (hbehind : ∀ b ∈ behind, b.Plain word)
    (hes : ∀ e ∈ es, e.isCase = false → e.bare.Plain word) :
    ∀ b ∈ (regroupMembers behind es).1, b.Plain word := by
  induction es with
  | nil => exact hbehind
  | cons e es ih =>
    obtain ⟨he, hes⟩ := List.forall_mem_cons.mp hes
    rw [regroupMembers]
    split
    · simp
    · next hcase => exact List.forall_mem_cons.mpr ⟨he (Bool.eq_false_iff.mpr hcase), ih hes⟩

end Expr

/-! ## The printing stays the same -/

theorem Pattern.IsSymbol.doc_bare {word : Name → Prop} {type : TypeForm → Prop} {p : Pattern}
    (h : p.IsSymbol word type) : p.bare.doc = p.doc := by
  obtain ⟨form, ty, span⟩ := p
  obtain ⟨path, rfl, -⟩ := h
  cases ty <;> rfl

/-- What reports no scope changes may as well stand within a scope that ends before it. -/
theorem Effect.within_andThen (a : Effect) {b : Effect} (h : b.events = []) (depth : Nat) :
    (a.within depth).andThen b = (a.andThen b).within depth := by
  obtain ⟨outcome, text, events⟩ := a
  cases outcome with
  | ok => simp [andThen, within, h]
  | error fault => rfl

namespace Doc

variable {ctx : Context}

/-- Whether the document writes no indentation and enters no scope. -/
def inline : Doc → Bool
  | .indent | .scope _ => false
  | .append a b => a.inline && b.inline
  | .empty | .text _ | .name _ | .quoted _ => true

/-- Its effect is the same at all depths. -/
theorem effect_inline {d : Doc} (h : d.inline) (ctx : Context) (depth depth' used : Nat) :
    d.effect ctx depth used = d.effect ctx depth' used ∧
      (d.effect ctx depth used).events = [] := by
  induction d generalizing used with
  | empty | text s => exact ⟨rfl, rfl⟩
  | name n | quoted n =>
    refine ⟨rfl, ?_⟩
    rw [effect]
    split <;> rfl
  | indent | scope d => cases h
  | append a b iha ihb =>
    obtain ⟨ha, hb⟩ := (Bool.and_eq_true _ _).mp h
    obtain ⟨hsame, hevents⟩ := iha ha used
    simp only [effect, ← hsame]
    refine ⟨by rw [(ihb hb _).1], ?_⟩
    rw [Effect.andThen]
    split
    · simp only [hevents, (ihb hb _).2, List.append_nil]
    · exact hevents

theorem print_scope_append {d : Doc} (h : d.inline) (inner : Doc) :
    (inner.scope ++ d).print ctx = (inner ++ d).scope.print ctx := by
  funext k
  rw [print_eq_onto, print_eq_onto]
  show (Effect.onto ((inner.effect ctx (k.depth + 1) _ |>.within k.depth).andThen
    (d.effect ctx k.depth _)) k) = (Effect.onto ((inner.effect ctx (k.depth + 1) _ |>.andThen
      (d.effect ctx (k.depth + 1) _)).within k.depth) k)
  obtain ⟨hsame, hevents⟩ := effect_inline h ctx k.depth (k.depth + 1)
    (k.out.utf8ByteSize +
      (inner.effect ctx (k.depth + 1) k.out.utf8ByteSize).text.utf8ByteSize)
  rw [← hsame, ← Effect.within_andThen _ hevents]
  rfl

theorem print_separatedTail_append (sep : String) (ds ds' : List Doc) :
    (separatedTail sep (ds ++ ds')).print ctx =
      (separatedTail sep ds ++ separatedTail sep ds').print ctx := by
  induction ds with
  | nil => exact (print_empty_append _).symm
  | cons d ds ih =>
    simp only [List.cons_append, separatedTail, print_append, bind_assoc] at ih ⊢
    rw [ih]

theorem inline_separatedTail (sep : String) {ds : List Doc} (h : ∀ d ∈ ds, d.inline) :
    (separatedTail sep ds).inline := by
  induction ds with
  | nil => rfl
  | cons d ds ih =>
    obtain ⟨hd, hds⟩ := List.forall_mem_cons.mp h
    show ((true && d.inline) && (separatedTail sep ds).inline) = true
    rw [hd, ih hds]
    rfl

end Doc

namespace Expr

variable {ctx : Context} {word : Name → Prop} {type : TypeForm → Prop} {behind : List Expr}

/-- Expressions that follow in a sequence. -/
def following (es : List Expr) : Doc := .separatedTail "; " (docs es)

theorem print_sequence {es : List Expr} (hne : es ≠ []) :
    (sequence es).doc.print ctx = (Doc.separated "; " (docs es)).print ctx := by
  rcases es with _ | ⟨e, _ | ⟨e', es⟩⟩
  · exact absurd rfl hne
  · exact (Doc.print_append_empty _).symm
  · rfl

theorem inline_following (h : ∀ b ∈ behind, b.Plain word) : (following behind).inline := by
  refine Doc.inline_separatedTail _ fun d hd => ?_
  rw [docs_eq_map] at hd
  obtain ⟨b, hb, rfl⟩ := List.mem_map.mp hd
  obtain ⟨n, -, rfl⟩ := h b hb
  rfl

/-- Symbols behind the expression are printed as a part of it when it is regrouped with them. -/
def Regroups (word : Name → Prop) (e : Expr) : Prop :=
  ∀ behind, (∀ b ∈ behind, Plain word b) → ∀ ctx,
    (e.regroup behind).doc.print ctx = (e.doc ++ following behind).print ctx

theorem Regroups.print_nil {e : Expr} (h : e.Regroups word) :
    (e.regroup []).doc.print ctx = e.doc.print ctx :=
  (h [] (by simp) ctx).trans (Doc.print_append_empty _)

theorem print_regroupArms {arms : List (Pattern × Expr)} (hne : arms ≠ [])
    (hp : ∀ a ∈ arms, a.1.IsSymbol word type) (ha : ∀ a ∈ arms, a.2.Regroups word)
    (hbehind : ∀ b ∈ behind, b.Plain word) :
    (Doc.concat (armDocs (regroupArms behind arms))).print ctx =
      (Doc.concat (armDocs arms) ++ following behind).print ctx := by
  induction arms with
  | nil => exact absurd rfl hne
  | cons a arms ih =>
    obtain ⟨hpa, hp⟩ := List.forall_mem_cons.mp hp
    obtain ⟨haa, ha⟩ := List.forall_mem_cons.mp ha
    rcases arms with _ | ⟨a', arms⟩
    · have hbody := haa behind hbehind ctx
      simp only [regroupArms, armDocs, Doc.concat, Doc.arm, Doc.entry, Doc.print_append, hbody,
        hpa.doc_bare, bind_assoc, Doc.print, bind_pure_unit]
    · have hrest := ih (by simp) hp ha
      rw [armDocs, Doc.concat, Doc.print_append, Doc.print_append, bind_assoc,
        ← Doc.print_append, ← hrest, regroupArms, armDocs, Doc.concat, Doc.print_append]
      simp only [Doc.arm, Doc.entry, Doc.print_append, haa.print_nil, hpa.doc_bare]

theorem print_following {es : List Expr} (h : es ≠ []) :
    (following es).print ctx = (.text "; " ++ Doc.separated "; " (docs es)).print ctx := by
  obtain ⟨e, es, rfl⟩ := List.exists_cons_of_ne_nil h
  exact Doc.print_append_assoc _ _ _

theorem print_following_append (es es' : List Expr) :
    (following (es ++ es')).print ctx = (following es ++ following es').print ctx := by
  rw [following, docs_eq_map, List.map_append, Doc.print_separatedTail_append, ← docs_eq_map,
    ← docs_eq_map]
  rfl

/-- The members in their new order. -/
def regrouped (behind es : List Expr) : List Expr :=
  (regroupMembers behind es).1 ++ (regroupMembers behind es).2

theorem regrouped_ne_nil {es : List Expr} (hne : es ≠ []) : regrouped behind es ≠ [] := by
  obtain ⟨e, es, rfl⟩ := List.exists_cons_of_ne_nil hne
  rw [regrouped, regroupMembers]
  split <;> simp

theorem print_regrouped {es : List Expr} (hne : es ≠ [])
    (hplain : ∀ e ∈ es, e.isCase = false → e.bare.Plain word ∧ e.bare.doc = e.doc)
    (hes : ∀ e ∈ es, e.Regroups word) (hbehind : ∀ b ∈ behind, b.Plain word) :
    (Doc.separated "; " (docs (regrouped behind es))).print ctx =
      (Doc.separated "; " (docs es) ++ following behind).print ctx := by
  induction es with
  | nil => exact absurd rfl hne
  | cons e es ih =>
    obtain ⟨hpe, hplain⟩ := List.forall_mem_cons.mp hplain
    obtain ⟨hre, hes⟩ := List.forall_mem_cons.mp hes
    have hrest : (following (regrouped behind es)).print ctx =
        (following es ++ following behind).print ctx := by
      rcases es with _ | ⟨e', es⟩
      · rw [regrouped, regroupMembers, List.append_nil]
        exact (Doc.print_empty_append _).symm
      · have hne : e' :: es ≠ [] := by simp
        rw [print_following (regrouped_ne_nil hne), Doc.print_append, ih hne hplain hes]
        simp only [Doc.print_append, print_following hne, bind_assoc]
    rw [regrouped, regroupMembers]
    split
    · have hsyms : ∀ b ∈ (regroupMembers behind es).1, b.Plain word :=
        plain_regroupMembers hbehind fun b hb hc => (hplain b hb hc).1
      have hcase := hre _ hsyms ctx
      show ((regroup _ e).doc ++ following _).print ctx = (e.doc ++ following es ++ _).print ctx
      rw [Doc.print_append, hcase, Doc.print_append, bind_assoc, ← Doc.print_append,
        ← print_following_append]
      rw [Doc.print_append_assoc, Doc.print_append, ← hrest, regrouped]
    · next hc =>
      have hdoc := (hpe (Bool.eq_false_iff.mpr hc)).2
      show (e.bare.doc ++ following _).print ctx = (e.doc ++ following es ++ _).print ctx
      rw [Doc.print_append_assoc, Doc.print_append, hdoc, Doc.print_append, ← hrest]
      rfl

/-- An expression that is regrouped with symbols behind it is printed as before, up to the same
fault if there is one. -/
theorem Blocks.regroups {e : Expr} (h : e.Blocks word type) : e.Regroups word := by
  induction h with
  | @symbol n ty span h =>
    intro behind hbehind ctx
    exact print_sequence (List.cons_ne_nil _ behind)
  | @case scrutinee arms ty span _ hne hp _ ihs ihb =>
    intro behind hbehind ctx
    have harms : (Doc.scope (.concat (armDocs (regroupArms behind arms)))).print ctx =
        (Doc.scope (.concat (armDocs arms)) ++ following behind).print ctx := by
      rw [Doc.print_scope_append (inline_following hbehind), Doc.print, Doc.print,
        print_regroupArms hne hp ihb hbehind]
    simp only [regroup, ofForm, doc, ExprForm.doc, Doc.print_append, ihs.print_nil, harms,
      bind_assoc]
  | @compound es ty span hlen hes hflat ih =>
    intro behind hbehind ctx
    have hne : es ≠ [] := List.ne_nil_of_length_pos (Nat.lt_of_succ_lt hlen)
    have hplain : ∀ e ∈ es, e.isCase = false → e.bare.Plain word ∧ e.bare.doc = e.doc :=
      fun e he hc => (hes e he).plain hc (hflat e he)
    exact (print_sequence (regrouped_ne_nil hne)).trans (print_regrouped hne hplain ih hbehind)

theorem Blocks.print_regroup {e : Expr} (h : e.Blocks word type) (ctx : Context) :
    (e.regroup []).doc.print ctx = e.doc.print ctx := h.regroups.print_nil

end Expr

/-! ## What is left -/

theorem Pattern.IsSymbol.bare {word : Name → Prop} {type : TypeForm → Prop} {p : Pattern}
    (h : p.IsSymbol word type) : p.bare.IsSymbol word type ∧ p.bare.bare = p.bare := by
  obtain ⟨form, ty, span⟩ := p
  obtain ⟨path, rfl, hpath, hty⟩ := h
  refine ⟨⟨path, rfl, hpath, ?_⟩, ?_⟩
  · cases ty with
    | none => exact fun t ht => (nomatch ht)
    | some ty =>
      rintro _ ⟨⟩
      exact hty ty rfl
  · cases ty <;> rfl

namespace Expr

variable {word : Name → Prop} {type : TypeForm → Prop} {behind : List Expr}

/-- An expression without places in which no case stands before a symbol. -/
structure Settled (word : Name → Prop) (type : TypeForm → Prop) (e : Expr) : Prop where
  blocks : e.Blocks word type
  trailsCase : e.trailsCase = false
  bare : e.bare = e

theorem Plain.settled {e : Expr} (h : e.Plain word) : e.Settled word type := by
  obtain ⟨n, hn, rfl⟩ := h
  exact ⟨.symbol hn, rfl, rfl⟩

theorem Settled.sequence {ps cs : List Expr} (hne : ps ++ cs ≠ []) (hps : ∀ p ∈ ps, p.Plain word)
    (hcs : ∀ c ∈ cs, c.Settled word type ∧ c.isCase) : (sequence (ps ++ cs)).Settled word type := by
  have hall : ∀ e ∈ ps ++ cs, e.Settled word type :=
    List.forall_mem_append.mpr ⟨fun p hp => (hps p hp).settled, fun c hc => (hcs c hc).1⟩
  have hflat : ∀ e ∈ ps ++ cs, e.isCompound = false := by
    refine List.forall_mem_append.mpr ⟨fun p hp => ?_, fun c hc => ?_⟩
    · obtain ⟨n, -, rfl⟩ := hps p hp
      rfl
    · have hcase := (hcs c hc).2
      unfold isCase at hcase
      split at hcase
      · rfl
      · cases hcase
  have horder : (ps ++ cs).Pairwise fun a b => a.isCase → b.isCase := by
    refine List.pairwise_append.mpr ⟨?_, ?_, fun _ _ c hc _ => (hcs c hc).2⟩
    · refine List.pairwise_of_forall_mem_list fun p hp _ _ hcase => ?_
      obtain ⟨n, -, rfl⟩ := hps p hp
      cases hcase
    · exact List.pairwise_of_forall_mem_list fun _ _ c hc _ => (hcs c hc).2
  generalize ps ++ cs = es at *
  rcases es with _ | ⟨e, _ | ⟨e', es⟩⟩
  · exact absurd rfl hne
  · exact hall e (by simp)
  · refine ⟨.compound (by simp) (fun e he => (hall e he).blocks) hflat, ?_, ?_⟩
    · exact membersTrail_eq_false_iff.mpr ⟨fun e he => (hall e he).trailsCase, horder⟩
    · rw [Expr.sequence, bare_ofForm, ExprForm.bare, bareList_eq_map,
        List.map_congr_left fun e he => (hall e he).bare, List.map_id']
      simp

theorem regroupArms_ne_nil {arms : List (Pattern × Expr)} (hne : arms ≠ []) :
    regroupArms behind arms ≠ [] := by
  rcases arms with _ | ⟨a, _ | ⟨a', arms⟩⟩
  · exact hne
  · simp [regroupArms]
  · simp [regroupArms]

theorem forall_mem_regroupArms {P : Pattern × Expr → Prop} {arms : List (Pattern × Expr)}
    (hnil : ∀ a ∈ arms, P (a.1.bare, a.2.regroup []))
    (hlast : ∀ a ∈ arms, P (a.1.bare, a.2.regroup behind)) :
    ∀ a ∈ regroupArms behind arms, P a := by
  induction arms with
  | nil => simp [regroupArms]
  | cons a arms ih =>
    obtain ⟨hna, hnil⟩ := List.forall_mem_cons.mp hnil
    obtain ⟨hla, hlast⟩ := List.forall_mem_cons.mp hlast
    rcases arms with _ | ⟨a', arms⟩
    · simpa [regroupArms] using hla
    · rw [regroupArms]
      exact List.forall_mem_cons.mpr ⟨hna, ih hnil hlast⟩

theorem settled_regroupMembers {es : List Expr} (hbehind : ∀ b ∈ behind, b.Plain word)
    (hplain : ∀ e ∈ es, e.isCase = false → e.bare.Plain word)
    (hes : ∀ e ∈ es, ∀ behind, (∀ b ∈ behind, b.Plain word) →
      (e.regroup behind).Settled word type) :
    ∀ c ∈ (regroupMembers behind es).2, c.Settled word type ∧ c.isCase := by
  induction es with
  | nil => simp [regroupMembers]
  | cons e es ih =>
    obtain ⟨-, hplain⟩ := List.forall_mem_cons.mp hplain
    obtain ⟨he, hes⟩ := List.forall_mem_cons.mp hes
    rw [regroupMembers]
    split
    · next hcase =>
      have hrest := plain_regroupMembers hbehind hplain
      exact List.forall_mem_cons.mpr ⟨⟨he _ hrest, isCase_regroup hcase _⟩, ih hplain hes⟩
    · exact ih hplain hes

theorem Blocks.settled_regroup {e : Expr} (h : e.Blocks word type) (behind : List Expr)
    (hbehind : ∀ b ∈ behind, b.Plain word) : (e.regroup behind).Settled word type := by
  induction h generalizing behind with
  | @symbol n ty span h =>
    have hne : ofForm (.symbol (.unqualified n)) :: behind ++ [] ≠ [] := by simp
    have hs : (sequence (ofForm (.symbol (.unqualified n)) :: behind ++ [])).Settled word type :=
      .sequence hne (List.forall_mem_cons.mpr ⟨⟨n, h, rfl⟩, hbehind⟩) (by simp)
    rwa [List.append_nil] at hs
  | @case scrutinee arms ty span _ hne hp _ ihs ihb =>
    have hs := ihs [] (by simp)
    have harms : ∀ a ∈ regroupArms behind arms, (a.1.IsSymbol word type ∧ a.1.bare = a.1) ∧
        a.2.Settled word type :=
      forall_mem_regroupArms (fun a ha => ⟨(hp a ha).bare, ihb a ha [] (by simp)⟩)
        fun a ha => ⟨(hp a ha).bare, ihb a ha behind hbehind⟩
    refine ⟨.case hs.blocks (regroupArms_ne_nil hne) (fun a ha => (harms a ha).1.1)
      fun a ha => (harms a ha).2.blocks, ?_, ?_⟩
    · rw [regroup, ofForm, trailsCase, hs.trailsCase,
        armsTrail_eq_false_iff.mpr fun a ha => (harms a ha).2.trailsCase]
      rfl
    · have hbare : (regroupArms behind arms).map (fun a => (a.1.bare, a.2.bare)) =
          regroupArms behind arms := by
        refine (List.map_congr_left fun a ha => ?_).trans (List.map_id _)
        exact Prod.ext (harms a ha).1.2 (harms a ha).2.bare
      rw [regroup, bare_ofForm, ExprForm.bare, hs.bare, bareArms_eq_map, hbare]
  | @compound es ty span hlen hes hflat ih =>
    have hne : es ≠ [] := List.ne_nil_of_length_pos (Nat.lt_of_succ_lt hlen)
    have hplain : ∀ e ∈ es, e.isCase = false → e.bare.Plain word :=
      fun e he hc => ((hes e he).plain hc (hflat e he)).1
    exact .sequence (regrouped_ne_nil hne) (plain_regroupMembers hbehind hplain)
      (settled_regroupMembers hbehind hplain fun e he => ih e he)

/-! ## What stays as it is -/

theorem Blocks.trailsCase_bare {e : Expr} (h : e.Blocks word type) :
    e.bare.trailsCase = false ↔ e.trailsCase = false := by
  induction h with
  | symbol h => exact Iff.rfl
  | @case scrutinee arms ty span _ _ _ _ ihs ihb =>
    have harms : (∀ a ∈ arms.map fun a => (a.1.bare, a.2.bare), a.2.trailsCase = false) ↔
        ∀ a ∈ arms, a.2.trailsCase = false := by
      rw [List.forall_mem_map]
      exact forall₂_congr ihb
    simp only [bare, ExprForm.bare, ofForm, trailsCase, Bool.or_eq_false_iff, ihs,
      armsTrail_eq_false_iff, bareArms_eq_map, harms]
  | @compound es ty span _ _ _ ih =>
    have hes : (∀ e ∈ es.map bare, e.trailsCase = false) ↔ ∀ e ∈ es, e.trailsCase = false := by
      rw [List.forall_mem_map]
      exact forall₂_congr ih
    simp only [bare, ExprForm.bare, ofForm, trailsCase, membersTrail_eq_false_iff, bareList_eq_map,
      hes, List.pairwise_map, isCase_bare]

theorem regroupArms_nil {arms : List (Pattern × Expr)}
    (h : ∀ a ∈ arms, a.2.regroup [] = a.2.bare) : regroupArms [] arms = bareArms arms := by
  induction arms with
  | nil => rfl
  | cons a arms ih =>
    obtain ⟨ha, harms⟩ := List.forall_mem_cons.mp h
    rcases arms with _ | ⟨a', arms⟩
    · rw [regroupArms, bareArms, bareArms, ha]
    · rw [regroupArms, bareArms, ha, ih harms]

theorem regroupMembers_of_cases {es : List Expr} (h : ∀ e ∈ es, e.isCase) :
    (regroupMembers [] es).1 = [] := by
  rcases es with _ | ⟨e, es⟩
  · rfl
  · rw [regroupMembers, if_pos (h e (by simp))]

theorem regrouped_nil {es : List Expr} (h : ∀ e ∈ es, e.regroup [] = e.bare)
    (horder : es.Pairwise fun a b => a.isCase → b.isCase) : regrouped [] es = es.map bare := by
  induction es with
  | nil => rfl
  | cons e es ih =>
    obtain ⟨he, hes⟩ := List.forall_mem_cons.mp h
    obtain ⟨hcases, horder⟩ := List.pairwise_cons.mp horder
    have hrest := ih hes horder
    rw [regrouped] at hrest ⊢
    rw [regroupMembers, List.map_cons, ← hrest]
    split
    · next hcase =>
      rw [regroupMembers_of_cases fun b hb => hcases b hb hcase, he]
      rfl
    · rfl

/-- Exactly an expression in which no case stands before a symbol stays as it is. -/
theorem Blocks.regroup_eq_bare_iff {e : Expr} (h : e.Blocks word type) :
    e.regroup [] = e.bare ↔ e.trailsCase = false := by
  refine ⟨fun heq => ?_, fun htrail => ?_⟩
  · exact h.trailsCase_bare.mp (heq ▸ (h.settled_regroup [] (by simp)).trailsCase)
  · induction h with
    | symbol h => rfl
    | @case scrutinee arms ty span _ _ _ _ ihs ihb =>
      rw [trailsCase, Bool.or_eq_false_iff, armsTrail_eq_false_iff] at htrail
      have harms := regroupArms_nil fun a ha => ihb a ha (htrail.2 a ha)
      rw [regroup, bare, ExprForm.bare, ihs htrail.1, harms]
    | @compound es ty span hlen _ _ ih =>
      rw [trailsCase, membersTrail_eq_false_iff] at htrail
      have hes := regrouped_nil (fun e he => ih e he (htrail.1 e he)) htrail.2
      show sequence (regrouped [] es) = _
      rw [hes, bare, ExprForm.bare, bareList_eq_map, sequence_of_two_le (by simpa using hlen)]

end Expr

end Treeprint
