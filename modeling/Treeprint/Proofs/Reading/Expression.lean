import Treeprint.Proofs.Bare
import Treeprint.Proofs.Reading.Scan

/-!
# Reading expressions

The expressions that stand on one line can be read back. A prefix operator takes all that follows,
an index belongs to the operand before it, and every other operator is in parentheses; so the text
of an index whose left operand begins with a prefix operator is read as something else, and such
indices are left out (`Expr.SingleLine`).

The reader goes down one level for each part of an expression, and the length of the text is more
than the number of levels. It gives back the bare expression (`Scan.expr_canonical`).
-/

namespace Treeprint

namespace Expr

def isUnary : Expr → Bool
  | ⟨.unary _ _, _, _⟩ => true
  | _ => false

/-- Expressions without blocks, in which names are words of a kind and literals are of a kind. Lists
are as written, and nothing that begins with a prefix operator is indexed. -/
inductive SingleLine (word : Name → Prop) (leaf : Value → Prop) : Expr → Prop
  | value {v : Value} {ty : Option TypeExpr} {span : Span} (h : leaf v) :
    SingleLine word leaf ⟨.value v, ty, span⟩
  | symbol {path : Symbol} {ty : Option TypeExpr} {span : Span}
    (h : ∀ n ∈ path.segments, word n) : SingleLine word leaf ⟨.symbol path, ty, span⟩
  | list {es : List Expr} {r : Option Expr} {ty : Option TypeExpr} {span : Span}
    (hes : ∀ e ∈ es, SingleLine word leaf e) (hr : ∀ e ∈ r, SingleLine word leaf e) :
    SingleLine word leaf ⟨.list (.make es r), ty, span⟩
  | map {es : List (Expr × Expr)} {ty : Option TypeExpr} {span : Span}
    (hk : ∀ e ∈ es, SingleLine word leaf e.1) (hv : ∀ e ∈ es, SingleLine word leaf e.2) :
    SingleLine word leaf ⟨.map es, ty, span⟩
  | record {name : Symbol} {fs : List (Name × Expr)} {ty : Option TypeExpr} {span : Span}
    (hn : ∀ n ∈ name.segments, word n) (hf : ∀ f ∈ fs, word f.1)
    (hv : ∀ f ∈ fs, SingleLine word leaf f.2) : SingleLine word leaf ⟨.record name fs, ty, span⟩
  | call {callee : Symbol} {args : List Expr} {ty : Option TypeExpr} {span : Span}
    (hc : ∀ n ∈ callee.segments, word n) (ha : ∀ e ∈ args, SingleLine word leaf e) :
    SingleLine word leaf ⟨.call callee args, ty, span⟩
  | unary {op : UnaryOp} {e : Expr} {ty : Option TypeExpr} {span : Span}
    (he : SingleLine word leaf e) : SingleLine word leaf ⟨.unary op e, ty, span⟩
  | binary {op : BinaryOp} {l r : Expr} {ty : Option TypeExpr} {span : Span}
    (hop : op = .index → l.isUnary = false) (hl : SingleLine word leaf l)
    (hr : SingleLine word leaf r) : SingleLine word leaf ⟨.binary op l r, ty, span⟩

end Expr

namespace Scan

/-! ## The reader -/

def prefixOp : Scanner UnaryOp
  | '!' :: cs => some (.not, cs)
  | '~' :: cs => some (.inv, cs)
  | '-' :: cs => some (.neg, cs)
  | _ => none

/-- An operator between operands, up to the space behind it. -/
def infixOp : Scanner BinaryOp := fun cs =>
  let (w, cs) := run (· ≠ ' ') cs
  (BinaryOp.all.find? fun op => op ≠ .index && op.symbol.toList = w).map (·, cs)

/-- What is behind the parenthesis that opens an operation. -/
def infixed (q : Scanner Expr) : Scanner Expr := fun cs => do
  let (l, ' ' :: cs) ← q cs | none
  let (op, ' ' :: cs) ← infixOp cs | none
  let (r, ')' :: cs) ← q cs | none
  return (.ofForm (.binary op l r), cs)

section

variable (names strings : List Char → Option Name)

/-- What may stand behind a path and belong to it. -/
def pathRest (q : Scanner Expr) (n : Nat) (path : Symbol) : Scanner Expr
  | '(' :: cs => (arguments q n ('(' :: cs)).map fun (as, cs) => (.ofForm (.call path as), cs)
  | ' ' :: '\x7b' :: cs =>
    (braced (field names q) n ('\x7b' :: cs)).map fun (fs, cs) => (.ofForm (.record path fs), cs)
  | cs => some (.ofForm (.symbol path), cs)

def pathed (q : Scanner Expr) (n : Nat) : Scanner Expr := fun cs =>
  let (w, cs) := run inPath cs
  (path? names w).bind fun path => pathRest names q n path cs

def compound (q : Scanner Expr) (n : Nat) : Scanner Expr
  | [] => none
  | '[' :: cs => (bracketed q n ('[' :: cs)).map fun (c, cs) => (.ofForm (.list c), cs)
  | '\x7b' :: cs =>
    (braced (entry q) n ('\x7b' :: cs)).map fun (es, cs) => (.ofForm (.map es), cs)
  | '(' :: cs => infixed q cs
  | c :: cs => if Text.startsWord c then pathed names q n (c :: cs) else none

/-- An expression without operators around it. -/
def operand (q : Scanner Expr) (n : Nat) : Scanner Expr := fun cs =>
  match literal names strings cs with
  | some (v, cs) => some (.ofForm (.value v), cs)
  | none => compound names q n cs

/-- The indices behind an expression. -/
def indices (q : Scanner Expr) : Nat → Expr → Scanner Expr
  | n + 1, e, '[' :: cs =>
    match q cs with
    | some (r, ']' :: cs) => indices q n (.ofForm (.binary .index e r)) cs
    | _ => none
  | _, e, cs => some (e, cs)

def indexed (q : Scanner Expr) (n : Nat) : Scanner Expr := fun cs =>
  (operand names strings q n cs).bind fun (e, cs) => indices q n e cs

def expr : Nat → Scanner Expr
  | 0, _ => none
  | n + 1, cs =>
    match prefixOp cs with
    | some (op, cs) => (expr n cs).map fun (e, cs) => (.ofForm (.unary op e), cs)
    | none => indexed names strings (expr n) n cs

end

variable {ctx : Context} {names strings : List Char → Option Name} {q : Scanner Expr}

/-! ## What an operand begins with -/

theorem operand_eq_none {c : Char} (hc : inPath c = false) (hs : c ∉ ['"', ':', '(', '[', '\x7b'])
    (n : Nat) (cs : List Char) : operand names strings q n (c :: cs) = none := by
  simp only [List.mem_cons, List.not_mem_nil, or_false, not_or] at hs
  obtain ⟨h1, h2, h3, h4, h5⟩ := hs
  have hl : literal names strings (c :: cs) = none := literal_eq_none hc (by simp [h1, h2, h3]) cs
  have hw : Text.startsWord c = false :=
    Bool.eq_false_iff.mpr fun hw => by simp [inPath_of_startsWord hw] at hc
  simp [operand, hl, compound, hw]

theorem shy_expr : ∀ n, Shy (expr names strings n)
  | 0 => fun _ _ _ => rfl
  | n + 1 => fun c hc cs => by
    simp only [List.mem_cons, List.not_mem_nil, or_false] at hc
    have hw : inPath c = false ∧ c ∉ ['"', ':', '(', '[', '\x7b'] := by
      rcases hc with rfl | rfl | rfl <;> exact ⟨rfl, by decide⟩
    have hp : prefixOp (c :: cs) = none := by
      rcases hc with rfl | rfl | rfl <;> rfl
    simp [expr, hp, indexed, operand_eq_none hw.1 hw.2]

theorem prefixOp_eq_none {n : Nat} {cs : List Char} {r : Expr × List Char}
    (h : operand names strings q n cs = some r) : prefixOp cs = none := by
  unfold prefixOp
  split
  · rw [operand_eq_none rfl (by decide)] at h
    cases h
  · rw [operand_eq_none rfl (by decide)] at h
    cases h
  · rw [operand_eq_none rfl (by decide)] at h
    cases h
  · rfl

/-! ## The forms of an operand -/

theorem operand_literal {v : Value} (h : Legible ctx names strings v) (n : Nat) {t : List Char}
    (ht : ends t) : operand names strings q n ((v.canonical ctx).toList ++ t) =
      some (.ofForm (.value v), t) := by
  simp [operand, literal_canonical h (inPath_head_of_ends ht)]

theorem operand_path {path : Symbol} (h : ∀ m ∈ path.segments, Named ctx names m) (n : Nat)
    {t : List Char} (ht : ∀ c ∈ t.head?, inPath c = false) :
    operand names strings q n ((path.canonical ctx).toList ++ t) = pathRest names q n path t := by
  have hl : literal names strings ((path.canonical ctx).toList ++ t) = none := literal_path h ht
  have hr := run_path h ht
  have hp := path?_canonical h
  obtain ⟨c, w, hw, hc⟩ := path_starts h
  rw [hw] at hl hr hp ⊢
  rw [List.cons_append] at hl hr ⊢
  have hf : compound names q n (c :: (w ++ t)) = pathed names q n (c :: (w ++ t)) := by
    unfold compound
    split
    · next h => cases h
    · next h => cases h; cases hc
    · next h => cases h; cases hc
    · next h => cases h; cases hc
    · next h => cases h; simp [hc]
  simp only [operand, hl, hf, pathed, hr, hp]
  rfl

theorem infixOp_symbol {op : BinaryOp} (h : op ≠ .index) (t : List Char) :
    infixOp (op.symbol.toList ++ ' ' :: t) = some (op, ' ' :: t) := by
  have hr : run (· ≠ ' ') (op.symbol.toList ++ ' ' :: t) = (op.symbol.toList, ' ' :: t) :=
    run_append (List.all_eq_true.mp (by cases op <;> rfl)) (by simp)
  rw [infixOp, hr]
  cases op with
  | index => exact absurd rfl h
  | _ => rfl

theorem stops_symbol (op : BinaryOp) (t : List Char) :
    stops (' ' :: (op.symbol.toList ++ t)) = true := by
  cases op <;> rfl

theorem pathRest_of_ends (n : Nat) (path : Symbol) {t : List Char} (ht : ends t) :
    pathRest names q n path t = some (.ofForm (.symbol path), t) := by
  unfold pathRest
  split
  · cases ht
  · cases ht
  · rfl

variable {f : Expr → String} {g : Expr → Expr} {n : Nat}

theorem operand_call {path : Symbol} (h : ∀ m ∈ path.segments, Named ctx names m) (hq : Shy q)
    {as : List Expr} (ha : ∀ a ∈ as, Reads q (f a) (g a)) (hn : as.length ≤ n) (t : List Char) :
    operand names strings q n
        ((path.canonical ctx ++ "(" ++ ", ".intercalate (as.map f) ++ ")").toList ++ t) =
      some (.ofForm (.call path (as.map g)), t) := by
  have hp : operand names strings q n ((path.canonical ctx).toList ++
      '(' :: ((", ".intercalate (as.map f)).toList ++ ')' :: t)) = _ :=
    operand_path h n (by rintro _ ⟨⟩; rfl)
  rw [pathRest, arguments_canonical hq ha hn] at hp
  simpa [-String.toList_intercalate] using hp

theorem operand_record {path : Symbol} (h : ∀ m ∈ path.segments, Named ctx names m)
    {fs : List (Name × Expr)} (hf : ∀ f ∈ fs, Named ctx names f.1)
    (hv : ∀ a ∈ fs, (f a.2).length < n → Reads q (f a.2) (g a.2))
    (hn : (Text.braced (fs.map fun (m, e) => Text.field (ctx.text m) (f e))).length ≤ n)
    (t : List Char) :
    operand names strings q n ((path.canonical ctx ++ " " ++
        Text.braced (fs.map fun (m, e) => Text.field (ctx.text m) (f e))).toList ++ t) =
      some (.ofForm (.record path (fs.map fun (m, e) => (m, g e))), t) := by
  have hb := braced_fields hf hv hn t
  obtain ⟨w, hw⟩ := braced_starts (fs.map fun (m, e) => Text.field (ctx.text m) (f e))
  rw [hw, List.cons_append] at hb
  have hp : operand names strings q n
      ((path.canonical ctx).toList ++ ' ' :: '\x7b' :: (w ++ t)) = _ :=
    operand_path h n (by rintro _ ⟨⟩; rfl)
  rw [pathRest, hb] at hp
  simpa [hw] using hp

theorem operand_map {es : List (Expr × Expr)}
    (hk : ∀ e ∈ es, (f e.1).length < n → Reads q (f e.1) (g e.1))
    (hv : ∀ e ∈ es, (f e.2).length < n → Reads q (f e.2) (g e.2))
    (hn : (Text.braced (es.map fun (k, v) => Text.entry (f k) (f v))).length ≤ n) (t : List Char) :
    operand names strings q n
        ((Text.braced (es.map fun (k, v) => Text.entry (f k) (f v))).toList ++ t) =
      some (.ofForm (.map (es.map fun (k, v) => (g k, g v))), t) := by
  have hb := braced_entries hk hv hn t
  obtain ⟨w, hw⟩ := braced_starts (es.map fun (k, v) => Text.entry (f k) (f v))
  rw [hw, List.cons_append] at hb ⊢
  simp [operand, literal_eq_none (c := '\x7b') rfl, compound, hb]

theorem operand_list (hq : Shy q) {es : List Expr} {r : Option Expr}
    (he : ∀ e ∈ es, (f e).length < n → Reads q (f e) (g e))
    (hr : ∀ e ∈ r, (f e).length < n → Reads q (f e) (g e))
    (hn : (Text.bracketed (es.map f) (r.map f)).length ≤ n) (t : List Char) :
    operand names strings q n ((Text.bracketed (es.map f) (r.map f)).toList ++ t) =
      some (.ofForm (.list (.make (es.map g) (r.map g))), t) := by
  have hb := bracketed_of_length hq he hr hn t
  rw [toList_bracketed] at hb ⊢
  simp [-String.toList_intercalate, -List.map_map, operand, literal_eq_none (c := '[') rfl,
    compound, hb]

theorem literal_paren {cs : List Char} (h : ∀ t, cs ≠ ')' :: t) :
    literal names strings ('(' :: cs) = none := by
  unfold literal
  split
  · next h => cases h
  · next h => cases h
  · next h' => cases h'; exact absurd rfl (h _)
  · exact scalar_eq_none rfl cs

theorem operand_operation {op : BinaryOp} (hop : op ≠ .index) (hq : Shy q) {l r : Expr}
    (hl : Reads q (f l) (g l)) (hr : Reads q (f r) (g r)) (t : List Char) :
    operand names strings q n
        (("(" ++ f l ++ " " ++ op.symbol ++ " " ++ f r ++ ")").toList ++ t) =
      some (.ofForm (.binary op (g l) (g r)), t) := by
  let rest := ' ' :: (op.symbol.toList ++ ' ' :: ((f r).toList ++ ')' :: t))
  have hl' : q ((f l).toList ++ rest) = some (g l, rest) := hl rest (stops_symbol op _)
  have ho := infixOp_symbol hop ((f r).toList ++ ')' :: t)
  have hr' := hr (')' :: t) rfl
  have hi : infixed q ((f l).toList ++ rest) = some (.ofForm (.binary op (g l) (g r)), t) := by
    simp [infixed, hl', rest, ho, hr']
  have hc := hq.head_ne hl' (c := ')') (by simp)
  have hn : literal names strings ('(' :: ((f l).toList ++ rest)) = none := literal_paren hc
  have htext : ("(" ++ f l ++ " " ++ op.symbol ++ " " ++ f r ++ ")").toList ++ t =
      '(' :: ((f l).toList ++ rest) := by
    simp [rest]
  rw [htext, operand, hn]
  exact hi

/-! ## Whole expressions -/

theorem indices_of_stops (n : Nat) (e : Expr) {t : List Char} (ht : stops t) :
    indices q n e t = some (e, t) := by
  unfold indices
  split
  · cases ht
  · rfl

section

variable (ctx names strings) (depth : Nat)

/-- The text of an expression is read back, and if the expression does not begin with a prefix
operator, it is read before an index as well. -/
structure Read (e : Expr) : Prop where
  reads : ∀ n, (e.canonical ctx depth).length < n →
    Reads (expr names strings n) (e.canonical ctx depth) e.bare
  indexed : e.isUnary = false → ∀ n t, (e.canonical ctx depth).length ≤ n → ends t →
    ∃ k, n ≤ k + (e.canonical ctx depth).length ∧
      indexed names strings (expr names strings n) n ((e.canonical ctx depth).toList ++ t) =
        indices (expr names strings n) k e.bare t

variable {ctx names strings depth}

theorem Read.of_indexed {e : Expr}
    (h : ∀ n t, (e.canonical ctx depth).length ≤ n → ends t →
      ∃ k, n ≤ k + (e.canonical ctx depth).length ∧
        Scan.indexed names strings (expr names strings n) n ((e.canonical ctx depth).toList ++ t) =
          indices (expr names strings n) k e.bare t) :
    Read ctx names strings depth e := by
  refine ⟨fun n hn t ht => ?_, fun _ => h⟩
  obtain ⟨n, rfl⟩ : ∃ m, n = m + 1 := ⟨n - 1, by omega⟩
  obtain ⟨k, -, hk⟩ := h n t (by omega) (ends_of_stops ht)
  rw [indices_of_stops k e.bare ht] at hk
  obtain ⟨r, hr, -⟩ := Option.bind_eq_some_iff.mp hk
  simp only [expr, prefixOp_eq_none hr, hk]

theorem Read.of_operand {e : Expr}
    (h : ∀ n t, (e.canonical ctx depth).length ≤ n → ends t →
      operand names strings (expr names strings n) n ((e.canonical ctx depth).toList ++ t) =
        some (e.bare, t)) : Read ctx names strings depth e := by
  refine .of_indexed fun n t hn ht => ⟨n, by omega, ?_⟩
  rw [Scan.indexed, h n t hn ht]
  rfl

theorem Read.unary {e : Expr} (he : Read ctx names strings depth e) (op : UnaryOp)
    (ty : Option TypeExpr) (span : Span) :
    Read ctx names strings depth ⟨.unary op e, ty, span⟩ := by
  refine ⟨fun n hn t ht => ?_, fun h => by cases h⟩
  obtain ⟨n, rfl⟩ : ∃ m, n = m + 1 := ⟨n - 1, by omega⟩
  have hs : op.symbol.length = 1 := by cases op <;> rfl
  simp only [Expr.canonical, ExprForm.canonical, String.length_append] at hn ⊢
  have hr := he.reads n (by omega) t ht
  cases op <;> simp [UnaryOp.symbol, expr, prefixOp, hr, Expr.bare, ExprForm.bare]

theorem Read.index {l r : Expr} (hl : Read ctx names strings depth l)
    (hr : Read ctx names strings depth r) (hu : l.isUnary = false) (ty : Option TypeExpr)
    (span : Span) : Read ctx names strings depth ⟨.binary .index l r, ty, span⟩ := by
  refine .of_indexed fun n t hn ht => ?_
  have htext : (Expr.canonical ctx depth ⟨.binary .index l r, ty, span⟩).toList ++ t =
      (l.canonical ctx depth).toList ++ '[' :: ((r.canonical ctx depth).toList ++ ']' :: t) := by
    simp [Expr.canonical, ExprForm.canonical]
  have hlen : (Expr.canonical ctx depth ⟨.binary .index l r, ty, span⟩).length =
      (l.canonical ctx depth).length + (r.canonical ctx depth).length + 2 := by
    simp [← String.length_toList, Expr.canonical, ExprForm.canonical]
    omega
  rw [hlen] at hn ⊢
  obtain ⟨k, hk, hi⟩ := hl.indexed hu n ('[' :: ((r.canonical ctx depth).toList ++ ']' :: t))
    (by omega) rfl
  obtain ⟨k, rfl⟩ : ∃ m, k = m + 1 := ⟨k - 1, by omega⟩
  refine ⟨k, by omega, ?_⟩
  rw [htext, hi, indices, hr.reads n (by omega) (']' :: t) rfl]
  rfl

theorem Read.operation {op : BinaryOp} (hop : op ≠ .index) {l r : Expr}
    (hl : Read ctx names strings depth l) (hr : Read ctx names strings depth r)
    (ty : Option TypeExpr) (span : Span) :
    Read ctx names strings depth ⟨.binary op l r, ty, span⟩ := by
  refine .of_operand fun n t hn ht => ?_
  simp only [Expr.canonical, ExprForm.canonical, if_neg hop, String.length_append] at hn ⊢
  have hs : "(".length = 1 := rfl
  exact operand_operation hop (shy_expr n) (hl.reads n (by omega)) (hr.reads n (by omega)) t

theorem Read.list {es : List Expr} {r : Option Expr}
    (hes : ∀ e ∈ es, Read ctx names strings depth e) (hr : ∀ e ∈ r, Read ctx names strings depth e)
    (ty : Option TypeExpr) (span : Span) :
    Read ctx names strings depth ⟨.list (.make es r), ty, span⟩ := by
  refine .of_operand fun n t hn ht => ?_
  have htext : Expr.canonical ctx depth ⟨.list (.make es r), ty, span⟩ =
      Text.bracketed (es.map (Expr.canonical ctx depth)) (r.map (Expr.canonical ctx depth)) := by
    simp only [Expr.canonical, ExprForm.canonical, Expr.chainTexts_eq_map, Chain.map_make,
      Chain.elements_make, Chain.rest?_make]
  have hbare : Expr.bare ⟨.list (.make es r), ty, span⟩ =
      .ofForm (.list (.make (es.map Expr.bare) (r.map Expr.bare))) := by
    simp only [Expr.bare, ExprForm.bare, Expr.bareChain_eq_map, Chain.map_make]
  rw [htext] at hn ⊢
  rw [hbare]
  exact operand_list (shy_expr n) (fun e he => (hes e he).reads n) (fun e he => (hr e he).reads n)
    hn t

theorem Read.map {es : List (Expr × Expr)} (hk : ∀ e ∈ es, Read ctx names strings depth e.1)
    (hv : ∀ e ∈ es, Read ctx names strings depth e.2) (ty : Option TypeExpr) (span : Span) :
    Read ctx names strings depth ⟨.map es, ty, span⟩ := by
  refine .of_operand fun n t hn ht => ?_
  simp only [Expr.canonical, ExprForm.canonical, Expr.entryTexts_eq_map, Expr.bare, ExprForm.bare,
    Expr.bareEntries_eq_map] at hn ⊢
  exact operand_map (fun e he => (hk e he).reads n) (fun e he => (hv e he).reads n) hn t

theorem Read.record {name : Symbol} {fs : List (Name × Expr)}
    (hn : ∀ m ∈ name.segments, Named ctx names m) (hf : ∀ f ∈ fs, Named ctx names f.1)
    (hv : ∀ f ∈ fs, Read ctx names strings depth f.2) (ty : Option TypeExpr) (span : Span) :
    Read ctx names strings depth ⟨.record name fs, ty, span⟩ := by
  refine .of_operand fun n t hlen ht => ?_
  simp only [Expr.canonical, ExprForm.canonical, Expr.fieldTexts_eq_map, Expr.bare, ExprForm.bare,
    Expr.bareFields_eq_map] at hlen ⊢
  have hb : (Text.braced (fs.map fun f =>
      Text.field (ctx.text f.1) (f.2.canonical ctx depth))).length ≤ n := by
    simp only [String.length_append] at hlen
    omega
  exact operand_record hn hf (fun f hf => (hv f hf).reads n) hb t

theorem Read.call {callee : Symbol} {args : List Expr}
    (hc : ∀ m ∈ callee.segments, Named ctx names m)
    (ha : ∀ e ∈ args, Read ctx names strings depth e) (ty : Option TypeExpr) (span : Span) :
    Read ctx names strings depth ⟨.call callee args, ty, span⟩ := by
  refine .of_operand fun n t hn ht => ?_
  simp only [Expr.canonical, ExprForm.canonical, Expr.texts_eq_map, Expr.bare, ExprForm.bare,
    Expr.bareList_eq_map] at hn ⊢
  have hp : "(".length = 1 := rfl
  have hp' : ")".length = 1 := rfl
  simp only [String.length_append] at hn
  refine operand_call hc (shy_expr n) (fun e he => (ha e he).reads n ?_) ?_ t
  · have := length_le_intercalate ", " (List.mem_map.mpr ⟨e, he, rfl⟩ :
      e.canonical ctx depth ∈ args.map (Expr.canonical ctx depth))
    omega
  · have := count_le_intercalate ", " (by decide) (args.map (Expr.canonical ctx depth))
    rw [List.length_map] at this
    omega

variable {word : Name → Prop} {leaf : Value → Prop}

/-- Every expression on one line is read back from its text. -/
theorem read_singleLine (hword : ∀ n, word n → Named ctx names n)
    (hleaf : ∀ v, leaf v → Legible ctx names strings v) {e : Expr} (h : e.SingleLine word leaf) :
    Read ctx names strings depth e := by
  induction h with
  | value h => exact .of_operand fun n t _ ht => operand_literal (hleaf _ h) n ht
  | @symbol path ty span h =>
    have hp : ∀ m ∈ path.segments, Named ctx names m := fun m hm => hword m (h m hm)
    refine .of_operand fun n t _ ht => ?_
    exact (operand_path hp n (inPath_head_of_ends ht)).trans (pathRest_of_ends n path ht)
  | @list es r ty span _ _ ihes ihr =>
    exact .list ihes ihr ty span
  | @map es ty span _ _ ihk ihv =>
    exact .map ihk ihv ty span
  | @record name fs ty span hn hf _ ih =>
    exact .record (fun m hm => hword m (hn m hm)) (fun f hf' => hword f.1 (hf f hf')) ih ty span
  | @call callee args ty span hc _ ih =>
    exact .call (fun m hm => hword m (hc m hm)) ih ty span
  | unary _ ih => exact ih.unary _ _ _
  | @binary op l r ty span hop _ _ ihl ihr =>
    by_cases h : op = .index
    · subst h
      exact ihl.index ihr (hop rfl) ty span
    · exact ihl.operation h ihr ty span

/-- The text alone determines the bare expression. -/
theorem expr_canonical (hword : ∀ n, word n → Named ctx names n)
    (hleaf : ∀ v, leaf v → Legible ctx names strings v) {e : Expr} (h : e.SingleLine word leaf)
    (depth : Nat) : expr names strings ((e.canonical ctx depth).length + 1)
      (e.canonical ctx depth).toList = some (e.bare, []) := by
  have hr : Read ctx names strings depth e := read_singleLine hword hleaf h
  simpa using hr.reads _ (Nat.lt_succ_self _) [] rfl

end

end Scan

end Treeprint
