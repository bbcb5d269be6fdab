import Treeprint.Proofs.Wire.Layout

/-!
# The bytes that readers take

What a reader takes off its input can be told from what it gives: it is the encoding of it
(`Spells`). Nothing is accepted that the encoding would not have written: no number of an
alternative, no mark, no flag and no length. The statement for a composed reader is put together
from those of its parts (`Takes.bind`), and for nested trees it is proved along the fuel, with no
condition on the bytes.

Main statement: `Family.eq_encode_of_decode`.
-/

namespace Treeprint

namespace Wire

variable {α β : Type}

/-- All that the reader can take off an input, and what it gives for it, is as `P` says. -/
def Takes (r : Reader α) (P : α → List UInt8 → Prop) : Prop :=
  ∀ bs x t, r bs = .ok (x, t) → ∃ p, bs = p ++ t ∧ P x p

/-- The reader takes the encoding of what it gives. -/
def Spells (r : Reader α) (f : α → Datum) : Prop := Takes r fun x p => p = (f x).encode

/-- Bytes spell a number that fits into them. -/
theorem leValue_lt (bs : List UInt8) : leValue bs < Nat.pow 256 bs.length := by
  induction bs with
  | nil => decide
  | cons b bs ih =>
    have hb := b.toNat_lt
    have hp : Nat.pow 256 (bs.length + 1) = 256 * Nat.pow 256 bs.length := Nat.mul_comm _ _
    rw [leValue, List.length_cons, hp]
    omega

namespace Takes

variable {r : Reader α} {P : α → List UInt8 → Prop} {Q : β → List UInt8 → Prop}

theorem pure {x : α} (h : P x []) : Takes (pure x) P := by
  rintro bs _ _ ⟨⟩
  exact ⟨[], rfl, h⟩

theorem throw (e : ReadError) : Takes (throw e) P := fun _ _ _ h => nomatch h

theorem bind {f : α → Reader β} (h : Takes r P)
    (hf : ∀ x p, P x p → Takes (f x) fun y q => Q y (p ++ q)) : Takes (r >>= f) Q := by
  intro bs y u hu
  change (r bs >>= fun a => f a.1 a.2) = .ok (y, u) at hu
  rcases hr : r bs with e | ⟨x, t⟩
  · rw [hr] at hu
    cases hu
  · rw [hr] at hu
    obtain ⟨p, rfl, hp⟩ := h bs x t hr
    obtain ⟨q, rfl, hq⟩ := hf x p hp t y u hu
    exact ⟨p ++ q, (List.append_assoc p q u).symm, hq⟩

theorem map {f : α → β} (h : Takes r P) (hf : ∀ x p, P x p → Q (f x) p) :
    Takes (r >>= fun x => Pure.pure (f x)) Q :=
  h.bind fun x p hp => pure ((List.append_nil p).symm ▸ hf x p hp)

/-! ## Numbers and marks -/

theorem byte : Takes Reader.byte fun b p => p = [b] := by
  rintro (_ | ⟨b, bs⟩) _ _ ⟨⟩
  exact ⟨[b], rfl, rfl⟩

theorem items {bytes : α → List UInt8} (h : Takes r fun x p => p = bytes x) :
    ∀ n, Takes (Reader.items r n) fun xs p => xs.length = n ∧ p = xs.flatMap bytes
  | 0 => pure ⟨rfl, rfl⟩
  | n + 1 => h.bind fun x p hp => (items h n).map fun xs q hq => by
    subst hp
    exact ⟨congrArg (· + 1) hq.1, by rw [hq.2, List.flatMap_cons]⟩

theorem bytes (n : Nat) :
    Takes (Reader.items Reader.byte n) fun bs p => bs.length = n ∧ p = bs := by
  refine fun bs x t hx => ?_
  obtain ⟨p, hp, hlen, hx⟩ := items byte n bs x t hx
  exact ⟨p, hp, hlen, by simpa using hx⟩

theorem u32 : Takes Reader.u32 fun n p => p = leBytes 4 n.toNat := by
  refine (bytes 4).map fun bs p hp => ?_
  obtain ⟨hlen, rfl⟩ := hp
  have hlt := leValue_lt p
  rw [hlen] at hlt
  rw [UInt32.toNat_ofNat_of_lt' hlt, ← hlen, leBytes_leValue]

theorem u64 : Takes Reader.u64 fun n p => p = leBytes 8 n.toNat := by
  refine (bytes 8).map fun bs p hp => ?_
  obtain ⟨hlen, rfl⟩ := hp
  have hlt := leValue_lt p
  rw [hlen] at hlt
  rw [UInt64.toNat_ofNat_of_lt' hlt, ← hlen, leBytes_leValue]

theorem name : Spells Reader.name .handle :=
  u32.map fun n p hp => by rw [hp, Datum.encode_handle]; rfl

theorem span : Spells Reader.span .span :=
  u32.bind fun a p hp => u32.map fun b q hq => by rw [hp, hq, Datum.encode_span]

theorem flag : Spells Reader.flag .flag := by
  refine byte.bind fun b p hp => ?_
  subst hp
  split
  · exact pure rfl
  · exact pure rfl
  · exact throw _

theorem mark : Takes Reader.mark fun b p => p = [if b then 1 else 0] := by
  refine byte.bind fun b p hp => ?_
  subst hp
  split
  · exact pure rfl
  · exact pure rfl
  · exact throw _

theorem optional {f : α → Datum} (h : Spells r f) :
    Spells (Reader.optional r) fun x => .ofOption (x.map f) := by
  refine mark.bind fun b p hp => ?_
  subst hp
  cases b with
  | true => exact h.map fun x q hq => by simp [hq, Datum.ofOption]
  | false => exact pure (by simp [Datum.ofOption])

/-! ## Sequences and alternatives -/

theorem seq {f : α → Datum} (h : Spells r f) : Spells (Reader.seq r) fun xs => .seq (xs.map f) := by
  refine u64.bind fun n p hp => ?_
  refine fun bs xs t hx => ?_
  obtain ⟨q, hq, hlen, rfl⟩ := items h n.toNat bs xs t hx
  exact ⟨_, hq, by simp [hp, hlen, List.flatMap_map]⟩

/-- The number before an alternative is its position. -/
theorem choice {rs : List (Reader α)}
    (h : ∀ i r, rs[i]? = some r → Takes r fun x q => P x (leBytes 4 i ++ q)) :
    Takes (Reader.choice rs) P := by
  refine u32.bind fun i p hp => ?_
  subst hp
  rcases hi : rs[i.toNat]? with _ | r
  · simp only [hi]
    exact throw _
  · simp only [hi]
    exact h i.toNat r hi

theorem oneOf {xs : List α} {tag : α → Nat} {f : α → Datum} (hnodup : xs.Nodup)
    (htag : ∀ x, xs[tag x]? = some x) (hf : ∀ x, (f x).encode = leBytes 4 (tag x)) :
    Spells (Reader.oneOf xs) f := by
  refine choice fun i r hi => ?_
  obtain ⟨x, hx, rfl⟩ : ∃ x, xs[i]? = some x ∧ Pure.pure x = r := by
    simpa using hi
  have hlt : i < xs.length := (List.getElem?_eq_some_iff.mp hx).1
  obtain rfl : i = tag x := (List.getElem?_inj hlt hnodup).mp (hx.trans (htag x).symm)
  exact pure (by rw [hf, List.append_nil])

theorem pair {s : Reader β} {f : α → Datum} {g : β → Datum} (hr : Spells r f) (hs : Spells s g)
    (label first second : String) :
    Spells (Wire.pair r s) fun x => .pair label first second (f x.1) (g x.2) :=
  hr.bind fun a p hp => hs.map fun b q hq => by rw [hp, hq, Datum.encode_pair]

/-! ## Chains -/

theorem chain {f : α → Datum} (h : Spells r f) :
    ∀ fuel, Spells (Wire.chain r fuel) fun c => (c.map f).datum
  | 0 => throw _
  | fuel + 1 => by
    refine (optional h).bind fun slot p hp => mark.bind fun more q hq => ?_
    subst hp hq
    cases more with
    | true =>
      refine (chain h fuel).map fun c u hu => ?_
      cases slot <;> simp [hu, Chain.ofParts, Chain.map, Datum.ofOption]
    | false =>
      refine pure ?_
      cases slot <;> simp [Chain.ofParts, Chain.map, Datum.ofOption]

end Takes

variable {room : Nat}

/-! ## Leaves -/

theorem spells_value : Spells value Value.datum := by
  refine Takes.choice fun i r hi => ?_
  match i, hi with
  | 0, rfl => exact Takes.name.map fun n p hp => by simp [hp, Value.datum]
  | 1, rfl => exact .pure (by simp [Value.datum])
  | 2, rfl => exact Takes.u64.map fun n p hp => by simp [hp, Value.datum]
  | 3, rfl => exact Takes.u64.map fun n p hp => by simp [hp, Value.datum]
  | 4, rfl => exact Takes.flag.map fun b p hp => by simp [hp, Value.datum]
  | 5, rfl => exact Takes.name.map fun n p hp => by simp [hp, Value.datum]

/-- Space is set aside without taking anything. -/
theorem takes_reserve (n : Nat) : Takes (reserve room n) fun _ p => p = [] := by
  simp only [reserve]
  split
  · exact .pure rfl
  · split
    · exact .throw _
    · split
      · exact .throw _
      · exact .pure rfl

theorem spells_symbol : Spells (symbol room) Symbol.datum := by
  have hm : Spells (modules room) fun ms => .seq (ms.map .handle) := by
    refine Takes.u64.bind fun n p hp => (takes_reserve n.toNat).bind fun _ q hq => ?_
    subst hp hq
    intro bs ms t hms
    obtain ⟨u, hu, hlen, rfl⟩ := Takes.items Takes.name n.toNat bs ms t hms
    exact ⟨_, hu, by simp [hlen, List.flatMap_map]⟩
  refine hm.bind fun ms p hp => Takes.name.map fun n q hq => ?_
  simp [hp, hq, Symbol.datum, Tag.bytes]

theorem spells_typeForm : Spells (typeForm room) TypeForm.datum := by
  have hprim : Spells (Reader.oneOf PrimType.all) PrimType.datum :=
    .oneOf (by decide) PrimType.all_tag fun p => by simp [PrimType.datum]
  refine Takes.choice fun i r hi => ?_
  match i, hi with
  | 0, rfl => exact .pure (by simp [TypeForm.datum])
  | 1, rfl => exact .pure (by simp [TypeForm.datum])
  | 2, rfl => exact spells_symbol.map fun s p hp => by simp [hp, TypeForm.datum]
  | 3, rfl => exact .pure (by simp [TypeForm.datum])
  | 4, rfl => exact hprim.map fun ty p hp => by simp [hp, TypeForm.datum]

theorem spells_typeExpr : Spells (typeExpr room) TypeExpr.datum :=
  spells_typeForm.bind fun form p hp => Takes.span.map fun place q hq => by
    simp [hp, hq, TypeExpr.datum, Tag.bytes]

/-- The type of a tree that may have one. -/
theorem spells_type : Spells (Reader.optional (typeExpr room)) Datum.ofType :=
  Takes.optional spells_typeExpr

/-! ## Patterns -/

theorem spells_patternForm {q : Reader Pattern} (h : Spells q Pattern.datum) (fuel : Nat) :
    Spells (patternForm room q fuel) PatternForm.datum := by
  refine Takes.choice fun i r hi => ?_
  match i, hi with
  | 0, rfl =>
    refine (Takes.chain h fuel).map fun c p hp => ?_
    simp [hp, PatternForm.datum, Pattern.chainData_eq_map]
  | 1, rfl =>
    refine (Takes.seq (Takes.pair h h "MapPatEntry" "key" "value")).map fun es p hp => ?_
    simp [hp, PatternForm.datum, Pattern.entryData_eq_map]
  | 2, rfl =>
    refine spells_symbol.bind fun path p hp => ?_
    refine (Takes.seq (Takes.pair Takes.name h "FieldPat" "name" "pattern")).map fun fs u hu => ?_
    simp [hp, hu, PatternForm.datum, Pattern.fieldData_eq_map]
  | 3, rfl => exact spells_symbol.map fun path p hp => by simp [hp, PatternForm.datum]
  | 4, rfl => exact spells_value.map fun v p hp => by simp [hp, PatternForm.datum]

theorem spells_pattern : ∀ fuel, Spells (pattern room fuel) Pattern.datum
  | 0 => .throw _
  | fuel + 1 =>
    (spells_patternForm (spells_pattern fuel) fuel).bind fun form p hp =>
      spells_type.bind fun ty u hu => Takes.span.map fun place v hv => by
        simp [hp, hu, hv, Pattern.datum, Tag.bytes]

/-! ## Expressions and statements -/

/-- Statements are taken in their wrapper, which adds nothing to them. -/
theorem spells_body {s : Reader Stmt} (h : Spells s Stmt.datum) :
    Spells (Reader.seq s) fun ss => .body (Stmt.data ss) :=
  fun bs ss t hss => by
    obtain ⟨p, hp, rfl⟩ := Takes.seq h bs ss t hss
    exact ⟨_, hp, by simp [Stmt.data_eq_map]⟩

theorem spells_exprForm {q : Reader Pattern} {e : Reader Expr} {s : Reader Stmt}
    (hq : Spells q Pattern.datum) (he : Spells e Expr.datum) (hs : Spells s Stmt.datum)
    (fuel : Nat) : Spells (exprForm room q e s fuel) ExprForm.datum := by
  refine Takes.choice fun i r hi => ?_
  match i, hi with
  | 0, rfl =>
    refine he.bind fun cond p hp => (spells_body hs).bind fun body u hu => ?_
    refine (Takes.optional (spells_body hs)).map fun elseBody v hv => ?_
    cases elseBody <;> simp [hp, hu, hv, ExprForm.datum, Datum.ofOption]
  | 1, rfl =>
    refine he.bind fun scrutinee p hp => ?_
    refine (Takes.seq (Takes.pair hq he "CaseArm" "pattern" "body")).map fun arms u hu => ?_
    simp [hp, hu, ExprForm.datum, Expr.armData_eq_map]
  | 2, rfl =>
    refine spells_symbol.bind fun path p hp => ?_
    refine (Takes.seq (Takes.pair Takes.name he "FieldInit" "name" "value")).map fun fs u hu => ?_
    simp [hp, hu, ExprForm.datum, Expr.fieldData_eq_map]
  | 3, rfl =>
    refine (Takes.chain he fuel).map fun c p hp => ?_
    simp [hp, ExprForm.datum, Expr.chainData_eq_map]
  | 4, rfl =>
    refine (Takes.seq (Takes.pair he he "MapEntry" "key" "value")).map fun es p hp => ?_
    simp [hp, ExprForm.datum, Expr.entryData_eq_map]
  | 5, rfl => exact spells_value.map fun v p hp => by simp [hp, ExprForm.datum]
  | 6, rfl => exact spells_symbol.map fun path p hp => by simp [hp, ExprForm.datum]
  | 7, rfl =>
    refine spells_symbol.bind fun callee p hp => (Takes.seq he).map fun args u hu => ?_
    simp [hp, hu, ExprForm.datum, Expr.data_eq_map]
  | 8, rfl =>
    have hop : Spells (Reader.oneOf BinaryOp.all) BinaryOp.datum :=
      .oneOf (by decide) BinaryOp.all_tag fun op => by simp [BinaryOp.datum]
    refine hop.bind fun op p hp => he.bind fun lhs u hu => he.map fun rhs v hv => ?_
    simp [hp, hu, hv, ExprForm.datum]
  | 9, rfl =>
    have hop : Spells (Reader.oneOf UnaryOp.all) UnaryOp.datum :=
      .oneOf (by decide) UnaryOp.all_tag fun op => by simp [UnaryOp.datum]
    refine hop.bind fun op p hp => he.map fun operand u hu => ?_
    simp [hp, hu, ExprForm.datum]
  | 10, rfl =>
    refine (Takes.seq he).map fun es p hp => ?_
    simp [hp, ExprForm.datum, Expr.data_eq_map]

theorem spells_stmtForm {q : Reader Pattern} {e : Reader Expr} {s : Reader Stmt}
    (hq : Spells q Pattern.datum) (he : Spells e Expr.datum) (hs : Spells s Stmt.datum) :
    Spells (stmtForm room q e s) StmtForm.datum := by
  refine Takes.choice fun i r hi => ?_
  match i, hi with
  | 0, rfl =>
    refine Takes.name.bind fun n p hp => (Takes.seq hq).bind fun params u hu => ?_
    refine spells_type.bind fun result v hv => (spells_body hs).map fun body w hw => ?_
    simp [hp, hu, hv, hw, StmtForm.datum, Tag.bytes]
  | 1, rfl =>
    refine Takes.name.bind fun n p hp => ?_
    refine (Takes.seq (Takes.pair Takes.name spells_typeExpr "RecordField" "name" "ty")).map
      fun fields u hu => ?_
    simp [hp, hu, StmtForm.datum]
  | 2, rfl =>
    refine Takes.name.bind fun n p hp => he.map fun init u hu => ?_
    simp [hp, hu, StmtForm.datum]
  | 3, rfl =>
    refine Takes.name.bind fun n p hp => (spells_body hs).map fun body u hu => ?_
    simp [hp, hu, StmtForm.datum]
  | 4, rfl => exact he.map fun e p hp => by simp [hp, StmtForm.datum]
  | 5, rfl =>
    refine hq.bind fun pattern p hp => he.map fun container u hu => ?_
    simp [hp, hu, StmtForm.datum]

theorem spells_expr_stmt (fuel : Nat) :
    Spells (expr room fuel) Expr.datum ∧ Spells (stmt room fuel) Stmt.datum := by
  induction fuel with
  | zero => exact ⟨.throw _, .throw _⟩
  | succ fuel ih =>
    obtain ⟨he, hs⟩ := ih
    constructor
    · refine (spells_exprForm (spells_pattern fuel) he hs fuel).bind fun form p hp => ?_
      refine spells_type.bind fun ty u hu => Takes.span.map fun place v hv => ?_
      simp [hp, hu, hv, Expr.datum, Tag.bytes]
    · refine (spells_stmtForm (spells_pattern fuel) he hs).bind fun form p hp => ?_
      refine Takes.span.map fun place u hu => ?_
      simp [hp, hu, Stmt.datum]

/-- A node is read from its own bytes only, and it is of the family that was asked for. -/
theorem takes_node (fuel : Nat) (f : Family) :
    Takes (node room fuel f) fun n p => n.family = f ∧ p = n.encode := by
  have hpattern : Spells (pattern room fuel) Pattern.datum := spells_pattern fuel
  obtain ⟨hexpr, hstmt⟩ : Spells (expr room fuel) Expr.datum ∧ _ := spells_expr_stmt fuel
  cases f with
  | value => exact spells_value.map fun v p hp => ⟨rfl, hp⟩
  | symbol => exact spells_symbol.map fun s p hp => ⟨rfl, hp⟩
  | type => exact spells_typeExpr.map fun t p hp => ⟨rfl, hp⟩
  | pattern => exact hpattern.map fun q p hp => ⟨rfl, hp⟩
  | expr => exact hexpr.map fun e p hp => ⟨rfl, hp⟩
  | stmt => exact hstmt.map fun s p hp => ⟨rfl, hp⟩
  | program =>
    refine (spells_body hstmt).map fun ss p hp => ⟨rfl, ?_⟩
    simp [hp, Node.encode, Node.datum, Program.datum, Tag.bytes]
  | exprChain =>
    refine (Takes.chain hexpr fuel).map fun c p hp => ⟨rfl, ?_⟩
    rw [hp, Node.encode, Node.datum, Expr.chainData_eq_map]
  | patternChain =>
    refine (Takes.chain hpattern fuel).map fun c p hp => ⟨rfl, ?_⟩
    rw [hp, Node.encode, Node.datum, Pattern.chainData_eq_map]

end Wire

/-- A node is read off its own encoding and nothing else. Hence two inputs that are read as the same
node, with no bytes left, are the same. -/
theorem Family.eq_encode_of_decode (room : Nat) (f : Family) :
    (∀ bytes n rest, f.decode room bytes = .ok (n, rest) →
      n.family = f ∧ bytes = n.encode ++ rest) ∧
    (∀ bytes other n, f.decode room bytes = .ok (n, []) → f.decode room other = .ok (n, []) →
      bytes = other) := by
  have hdecode : ∀ bytes n rest, f.decode room bytes = .ok (n, rest) →
      n.family = f ∧ bytes = n.encode ++ rest := by
    intro bytes n rest h
    obtain ⟨p, hp, hfamily, rfl⟩ := Wire.takes_node bytes.length f bytes n rest h
    exact ⟨hfamily, hp⟩
  refine ⟨hdecode, fun bytes other n h hother => ?_⟩
  rw [(hdecode bytes n [] h).2, (hdecode other n [] hother).2]

/-- A pattern with a place, and one byte behind it. -/
theorem Family.eq_encode_of_decode_pattern :
    let bytes : List UInt8 := [4, 0, 0, 0, 4, 0, 0, 0, 1, 0, 3, 0, 0, 0, 9, 0, 0, 0]
    let n : Node := .pattern ⟨.value (.bool true), none, ⟨3, 9⟩⟩
    Family.pattern.decode Wire.memory (bytes ++ [7]) = .ok (n, [7]) ∧
      Family.pattern.decode Wire.memory bytes = .ok (n, []) ∧
      bytes ++ [7] = n.encode ++ [7] ∧
      ∀ other, Family.pattern.decode Wire.memory other = .ok (n, []) → bytes = other := by
  intro bytes n
  have hmore : Family.pattern.decode Wire.memory (bytes ++ [7]) = .ok (n, [7]) := rfl
  have hall : Family.pattern.decode Wire.memory bytes = .ok (n, []) := rfl
  obtain ⟨hdecode, hunique⟩ := Family.eq_encode_of_decode Wire.memory .pattern
  exact ⟨hmore, hall, (hdecode _ n [7] hmore).2, fun other => hunique bytes other n hall⟩

end Treeprint
