import Mathlib.Data.List.Forall2
import Treeprint.Proofs.Wire.RoundTrip

/-!
# Longer and shorter inputs

What a reader does depends only on the bytes it has taken. If it gives a value, or stops for another
reason than the end of its input, it does the same with more bytes behind (`Continues`). The readers
of nested trees have more fuel for longer inputs; the fuel only decides how deep they look before
they call it the end of the input, so more of it is as good.

Hence a proper beginning of a tree's bytes is always found to end too early: anything else would be
found in all of its bytes too, and these are read as the tree.

Main statement: `Family.decode_append`.
-/

namespace Treeprint

namespace Wire

variable {α β : Type}

/-- What one reader gives, or the error other than an early end that it meets, the other one gives
or meets on the same input with more behind. -/
def Continues (r r' : Reader α) : Prop :=
  ∀ bs t, (∀ x u, r bs = .ok (x, u) → r' (bs ++ t) = .ok (x, u ++ t)) ∧
    ∀ e, e ≠ .endOfInput → r bs = .error e → r' (bs ++ t) = .error e

namespace Continues

variable {r r' : Reader α}

theorem pure (x : α) : Continues (pure x) (pure x) := by
  refine fun bs t => ⟨?_, fun e _ h => nomatch h⟩
  rintro _ _ ⟨⟩
  rfl

/-- At the end of the input everything is open. -/
theorem endOfInput (r' : Reader α) : Continues (throw .endOfInput) r' := by
  refine fun bs t => ⟨fun x u h => (nomatch h), ?_⟩
  rintro _ hne ⟨⟩
  exact absurd rfl hne

theorem throw (e : ReadError) : Continues (throw e : Reader α) (throw e) := by
  refine fun bs t => ⟨fun x u h => (nomatch h), ?_⟩
  rintro _ _ ⟨⟩
  rfl

theorem bind {f f' : α → Reader β} (h : Continues r r') (hf : ∀ x, Continues (f x) (f' x)) :
    Continues (r >>= f) (r' >>= f') := by
  intro bs t
  show (∀ y u, (r bs >>= fun a => f a.1 a.2) = .ok (y, u) →
      (r' (bs ++ t) >>= fun a => f' a.1 a.2) = .ok (y, u ++ t)) ∧
    ∀ e, e ≠ .endOfInput → (r bs >>= fun a => f a.1 a.2) = .error e →
      (r' (bs ++ t) >>= fun a => f' a.1 a.2) = .error e
  rcases hr : r bs with e | ⟨x, v⟩
  · refine ⟨fun y u hy => (nomatch hy), fun e' hne he => ?_⟩
    obtain rfl : e = e' := Except.error.inj he
    rw [(h bs t).2 e hne hr]
    rfl
  · rw [(h bs t).1 x v hr]
    exact hf x v t

theorem map {f : α → β} (h : Continues r r') :
    Continues (r >>= fun x => Pure.pure (f x)) (r' >>= fun x => Pure.pure (f x)) :=
  h.bind fun x => pure (f x)

/-! ## Numbers and marks -/

theorem byte : Continues Reader.byte Reader.byte := by
  rintro (_ | ⟨b, bs⟩) t
  · exact endOfInput _ [] t
  · refine ⟨?_, fun e _ h => nomatch h⟩
    rintro _ _ ⟨⟩
    rfl

theorem items (h : Continues r r') : ∀ n, Continues (Reader.items r n) (Reader.items r' n)
  | 0 => pure []
  | n + 1 => h.bind fun _ => (items h n).map

theorem u32 : Continues Reader.u32 Reader.u32 := (items byte 4).map

theorem u64 : Continues Reader.u64 Reader.u64 := (items byte 8).map

theorem name : Continues Reader.name Reader.name := u32.map

theorem span : Continues Reader.span Reader.span := u32.bind fun _ => u32.map

theorem flag : Continues Reader.flag Reader.flag := by
  refine byte.bind fun b => ?_
  split
  · exact pure _
  · exact pure _
  · exact throw _

theorem mark : Continues Reader.mark Reader.mark := by
  refine byte.bind fun b => ?_
  split
  · exact pure _
  · exact pure _
  · exact throw _

theorem optional (h : Continues r r') : Continues (Reader.optional r) (Reader.optional r') := by
  refine mark.bind fun b => ?_
  cases b with
  | true => exact h.map
  | false => exact pure none

/-! ## Sequences and alternatives -/

theorem seq (h : Continues r r') : Continues (Reader.seq r) (Reader.seq r') :=
  u64.bind fun n => items h n.toNat

theorem choice {rs rs' : List (Reader α)} (h : List.Forall₂ Continues rs rs') :
    Continues (Reader.choice rs) (Reader.choice rs') := by
  obtain ⟨hlen, hget⟩ := List.forall₂_iff_get.mp h
  refine u32.bind fun i => ?_
  by_cases hi : i.toNat < rs.length
  · have hi' : i.toNat < rs'.length := hlen ▸ hi
    simp only [List.getElem?_eq_getElem hi, List.getElem?_eq_getElem hi']
    exact hget i.toNat hi hi'
  · have hi' : ¬ i.toNat < rs'.length := hlen ▸ hi
    simp only [List.getElem?_eq_none (Nat.not_lt.mp hi),
      List.getElem?_eq_none (Nat.not_lt.mp hi'), hlen]
    exact throw _

theorem oneOf (xs : List α) : Continues (Reader.oneOf xs) (Reader.oneOf xs) := by
  refine choice ?_
  rw [List.forall₂_map_left_iff, List.forall₂_map_right_iff]
  exact List.forall₂_same.mpr fun x _ => pure x

theorem pair {s s' : Reader β} (hr : Continues r r') (hs : Continues s s') :
    Continues (Wire.pair r s) (Wire.pair r' s') := hr.bind fun _ => hs.map

/-! ## Chains -/

theorem chain (h : Continues r r') : ∀ {fuel fuel' : Nat}, fuel ≤ fuel' →
    Continues (Wire.chain r fuel) (Wire.chain r' fuel')
  | 0, _, _ => endOfInput _
  | fuel + 1, fuel' + 1, hle => by
    refine (optional h).bind fun slot => mark.bind fun more => ?_
    cases more with
    | true => exact (chain h (Nat.le_of_succ_le_succ hle)).map
    | false => exact pure _

end Continues

variable {room : Nat}

/-! ## Leaves -/

theorem continues_value : Continues value value :=
  .choice <| .cons Continues.name.map <| .cons (.pure _) <| .cons Continues.u64.map <|
    .cons Continues.u64.map <| .cons Continues.flag.map <| .cons Continues.name.map .nil

theorem continues_reserve (n : Nat) : Continues (reserve room n) (reserve room n) := by
  simp only [reserve]
  split
  · exact .pure ()
  · split
    · exact .throw _
    · split
      · exact .throw _
      · exact .pure ()

theorem continues_symbol : Continues (symbol room) (symbol room) := by
  have hm : Continues (modules room) (modules room) :=
    Continues.u64.bind fun n => (continues_reserve n.toNat).bind fun _ => .items .name n.toNat
  exact hm.bind fun _ => Continues.name.map

theorem continues_typeExpr : Continues (typeExpr room) (typeExpr room) := by
  have hform : Continues (typeForm room) (typeForm room) :=
    .choice <| .cons (.pure _) <| .cons (.pure _) <| .cons continues_symbol.map <|
      .cons (.pure _) <| .cons (Continues.oneOf _).map .nil
  exact hform.bind fun _ => Continues.span.map

theorem continues_type :
    Continues (Reader.optional (typeExpr room)) (Reader.optional (typeExpr room)) :=
  .optional continues_typeExpr

/-! ## Trees -/

section

variable {q q' : Reader Pattern} {e e' : Reader Expr} {s s' : Reader Stmt} {fuel fuel' : Nat}

theorem continues_patternForm (h : Continues q q') (hle : fuel ≤ fuel') :
    Continues (patternForm room q fuel) (patternForm room q' fuel') :=
  .choice <| .cons (Continues.chain h hle).map <| .cons (Continues.seq (.pair h h)).map <|
    .cons (continues_symbol.bind fun _ => (Continues.seq (.pair .name h)).map) <|
    .cons continues_symbol.map <| .cons continues_value.map .nil

theorem continues_pattern : ∀ {fuel fuel' : Nat}, fuel ≤ fuel' →
    Continues (pattern room fuel) (pattern room fuel')
  | 0, _, _ => .endOfInput _
  | fuel + 1, fuel' + 1, hle => by
    have hle := Nat.le_of_succ_le_succ hle
    refine (continues_patternForm (continues_pattern hle) hle).bind fun form => ?_
    exact continues_type.bind fun ty => Continues.span.map

theorem continues_exprForm (hq : Continues q q') (he : Continues e e') (hs : Continues s s')
    (hle : fuel ≤ fuel') :
    Continues (exprForm room q e s fuel) (exprForm room q' e' s' fuel') := by
  have hif := he.bind fun cond => (Continues.seq hs).bind fun body =>
    (Continues.optional (.seq hs)).map (f := ExprForm.ifElse cond body)
  have hcase := he.bind fun scrutinee =>
    (Continues.seq (.pair hq he)).map (f := ExprForm.case scrutinee)
  have hrecord := (continues_symbol : Continues (symbol room) _).bind fun path =>
    (Continues.seq (.pair .name he)).map (f := ExprForm.record path)
  have hcall := (continues_symbol : Continues (symbol room) _).bind fun callee =>
    (Continues.seq he).map (f := ExprForm.call callee)
  have hbinary := (Continues.oneOf BinaryOp.all).bind fun op => he.bind fun lhs =>
    he.map (f := ExprForm.binary op lhs)
  have hunary := (Continues.oneOf UnaryOp.all).bind fun op => he.map (f := ExprForm.unary op)
  exact .choice <| .cons hif <| .cons hcase <| .cons hrecord <|
    .cons (Continues.chain he hle).map <| .cons (Continues.seq (.pair he he)).map <|
    .cons continues_value.map <| .cons continues_symbol.map <| .cons hcall <| .cons hbinary <|
    .cons hunary <| .cons (Continues.seq he).map .nil

theorem continues_stmtForm (hq : Continues q q') (he : Continues e e') (hs : Continues s s') :
    Continues (stmtForm room q e s) (stmtForm room q' e' s') := by
  have hdefine := Continues.name.bind fun n => (Continues.seq hq).bind fun params =>
    (continues_type : Continues (Reader.optional (typeExpr room)) _).bind fun result =>
      (Continues.seq hs).map (f := StmtForm.define n params result)
  have hrecord := Continues.name.bind fun n =>
    (Continues.seq (.pair .name (continues_typeExpr : Continues (typeExpr room) _))).map
      (f := StmtForm.record n)
  have hval := Continues.name.bind fun n => he.map (f := StmtForm.val n)
  have hmodule := Continues.name.bind fun n => (Continues.seq hs).map (f := StmtForm.module n)
  have hloop := hq.bind fun p => he.map (f := StmtForm.loop p)
  exact .choice <| .cons hdefine <| .cons hrecord <| .cons hval <| .cons hmodule <|
    .cons he.map <| .cons hloop .nil

theorem continues_expr_stmt : ∀ {fuel fuel' : Nat}, fuel ≤ fuel' →
    Continues (expr room fuel) (expr room fuel') ∧ Continues (stmt room fuel) (stmt room fuel')
  | 0, _, _ => ⟨.endOfInput _, .endOfInput _⟩
  | fuel + 1, fuel' + 1, hle => by
    have hle := Nat.le_of_succ_le_succ hle
    obtain ⟨he, hs⟩ := continues_expr_stmt hle
    constructor
    · refine (continues_exprForm (continues_pattern hle) he hs hle).bind fun form => ?_
      exact continues_type.bind fun ty => Continues.span.map
    · refine (continues_stmtForm (continues_pattern hle) he hs).bind fun form => ?_
      exact Continues.span.map

theorem continues_node (hle : fuel ≤ fuel') (f : Family) :
    Continues (node room fuel f) (node room fuel' f) := by
  have hpattern : Continues (pattern room fuel) (pattern room fuel') := continues_pattern hle
  obtain ⟨hexpr, hstmt⟩ : Continues (expr room fuel) (expr room fuel') ∧ _ :=
    continues_expr_stmt hle
  cases f with
  | value => exact continues_value.map
  | symbol => exact continues_symbol.map
  | type => exact continues_typeExpr.map
  | pattern => exact hpattern.map
  | expr => exact hexpr.map
  | stmt => exact hstmt.map
  | program => exact (Continues.seq hstmt).map
  | exprChain => exact (Continues.chain hexpr hle).map
  | patternChain => exact (Continues.chain hpattern hle).map

end

/-- With more bytes behind, a node and every error but an early end stay what they are. -/
theorem decode_continues (room : Nat) (f : Family) (bytes more : List UInt8) :
    (∀ n rest, f.decode room bytes = .ok (n, rest) →
      f.decode room (bytes ++ more) = .ok (n, rest ++ more)) ∧
    ∀ e, e ≠ .endOfInput → f.decode room bytes = .error e →
      f.decode room (bytes ++ more) = .error e := by
  have hle : bytes.length ≤ (bytes ++ more).length := by simp
  exact continues_node hle f bytes more

/-- A proper beginning of a node's bytes cannot be read as anything else, since all of them are read
as the node. -/
theorem decode_of_encode_eq_append {n : Node} {p more : List UInt8} (hfits : n.datum.Fits room)
    (hn : n.encode = p ++ more) (hmore : more ≠ []) :
    n.family.decode room p = .error .endOfInput := by
  have hall : n.family.decode room (p ++ more) = .ok (n, []) := by
    have h := reads_node hfits (Nat.le_refl n.datum.encode.length) []
    rw [List.append_nil] at h
    rw [← hn]
    exact h
  obtain ⟨hok, herror⟩ := decode_continues room n.family p more
  rcases hp : n.family.decode room p with e | ⟨x, rest⟩
  · by_contra hne
    have herr := herror e (fun h => hne (congrArg Except.error h)) hp
    exact nomatch hall.symm.trans herr
  · have h := Except.ok.inj (hall.symm.trans (hok x rest hp))
    have hrest : rest ++ more = [] := (congrArg Prod.snd h).symm
    exact absurd (List.append_eq_nil_iff.mp hrest).2 hmore

end Wire

/-- A proper beginning of a node's bytes ends too early. A node that is read, and an error that is
met before the end of the input, are the same with any bytes behind, which are left unread. -/
theorem Family.decode_append (room : Nat) :
    (∀ (n : Node) (p more : List UInt8), n.datum.Fits room → n.encode = p ++ more → more ≠ [] →
      n.family.decode room p = .error .endOfInput) ∧
    (∀ (f : Family) (bytes more : List UInt8) (n : Node) (rest : List UInt8),
      f.decode room bytes = .ok (n, rest) →
        f.decode room (bytes ++ more) = .ok (n, rest ++ more)) ∧
    ∀ (f : Family) (bytes more : List UInt8) (e : Wire.ReadError), e ≠ .endOfInput →
      f.decode room bytes = .error e → f.decode room (bytes ++ more) = .error e :=
  ⟨fun _ _ _ => Wire.decode_of_encode_eq_append,
    fun f bytes more => (Wire.decode_continues room f bytes more).1,
    fun f bytes more => (Wire.decode_continues room f bytes more).2⟩

/-- A pattern's bytes cut within its place, the whole of them, and a mark that is none. -/
theorem Family.decode_append_pattern :
    let bytes : List UInt8 := [4, 0, 0, 0, 4, 0, 0, 0, 1, 0, 3, 0, 0, 0, 9, 0, 0, 0]
    let n : Node := .pattern ⟨.value (.bool true), none, ⟨3, 9⟩⟩
    Family.pattern.decode Wire.memory (bytes.take 13) = .error .endOfInput ∧
      Family.pattern.decode Wire.memory bytes = .ok (n, []) ∧
      Family.pattern.decode Wire.memory (bytes ++ [7, 8]) = .ok (n, [7, 8]) ∧
      Family.pattern.decode Wire.memory [4, 0, 0, 0, 4, 0, 0, 0, 2] = .error (.badFlag 2) ∧
      Family.pattern.decode Wire.memory ([4, 0, 0, 0, 4, 0, 0, 0, 2] ++ [0]) =
        .error (.badFlag 2) := by
  intro bytes n
  have hall : Family.pattern.decode Wire.memory bytes = .ok (n, []) := rfl
  have hflag : Family.pattern.decode Wire.memory [4, 0, 0, 0, 4, 0, 0, 0, 2] =
      .error (.badFlag 2) := rfl
  obtain ⟨hcut, hok, herror⟩ := Family.decode_append Wire.memory
  refine ⟨?_, hall, hok _ _ [7, 8] _ _ hall, hflag, herror _ _ [0] _ (by decide) hflag⟩
  refine hcut n (bytes.take 13) (bytes.drop 13) ?_ rfl (by decide)
  simp [n, Node.datum, Pattern.datum, PatternForm.datum, Datum.Fits, Datum.FieldsFit,
    Datum.ItemsFit, Datum.ofType, Datum.ofOption, Datum.variant, Value.datum]


end Treeprint
