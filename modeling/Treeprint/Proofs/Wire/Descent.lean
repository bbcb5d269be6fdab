import Mathlib.Data.List.Forall2
import Treeprint.Proofs.Wire.Spelling
import Treeprint.Proofs.Wire.TreeCount

/-!
# What readers take before they descend

A reader of trees goes into the content of an optional part, the items of a sequence, the tail of a
chain and the trees within a tree. The bytes decide where it goes, and it always takes at least one
of them first. What this says of a reader that is built from the readers of its parts is that it
uses them on inputs shorter than its own and nowhere else: if two readers of a part do the same on
all inputs of fewer than `n` bytes (`AgreeBelow`), then what is built from the one and what is built
from the other do the same on all inputs of at most `n` bytes (`Guarded`). A single use on an input
that is not shorter would show, since one of the two could stop there with an error of its own.

Hence no run goes deeper than the input has bytes, and the fuel never decides
(`decode_eq_of_le_fuel`). Since every item of a sequence takes a byte, a length that is larger than
the number of bytes behind it cannot be met (`Sequence.error_of_lt`).

Main statement: `Family.decode_bounded`.
-/

namespace Treeprint

namespace Wire

variable {α β : Type}

/-- On inputs of fewer than `n` bytes the readers do the same, and leave no more than they got. -/
structure AgreeBelow (n : Nat) (r r' : Reader α) : Prop where
  eq : ∀ bs, bs.length < n → r bs = r' bs
  rest_le : ∀ bs x t, bs.length < n → r bs = .ok (x, t) → t.length ≤ bs.length

/-- Whatever the reader gives, it has taken a byte for it. -/
def Progresses (r : Reader α) : Prop := ∀ bs x t, r bs = .ok (x, t) → t.length < bs.length

theorem Takes.rest_le {r : Reader α} {P : α → List UInt8 → Prop} (h : Takes r P)
    {bs t : List UInt8} {x : α} (hx : r bs = .ok (x, t)) : t.length ≤ bs.length := by
  obtain ⟨p, rfl, -⟩ := h bs x t hx
  simp

theorem Takes.progresses {r : Reader α} {P : α → List UInt8 → Prop} (h : Takes r P)
    (hP : ∀ x p, P x p → 1 ≤ p.length) : Progresses r := by
  intro bs x t hx
  obtain ⟨p, rfl, hp⟩ := h bs x t hx
  have := hP x p hp
  rw [List.length_append]
  omega

theorem Takes.agreeBelow {r : Reader α} {P : α → List UInt8 → Prop} (h : Takes r P) (n : Nat) :
    AgreeBelow n r r :=
  ⟨fun _ _ => rfl, fun _ _ _ _ hx => h.rest_le hx⟩

namespace AgreeBelow

variable {n : Nat} {r r' : Reader α}

theorem mono {m : Nat} (h : AgreeBelow n r r') (hmn : m ≤ n) : AgreeBelow m r r' :=
  ⟨fun bs hbs => h.eq bs (by omega), fun bs x t hbs => h.rest_le bs x t (by omega)⟩

theorem throw (e : ReadError) : AgreeBelow n (throw e : Reader α) (throw e) :=
  ⟨fun _ _ => rfl, fun _ _ _ _ h => nomatch h⟩

theorem pure (x : α) : AgreeBelow n (pure x) (pure x) := by
  refine ⟨fun _ _ => rfl, ?_⟩
  rintro bs _ _ - ⟨⟩
  exact Nat.le_refl _

/-- What comes after a reader gets what that reader leaves. -/
theorem bind_of_rest_lt {m : Nat} {f f' : α → Reader β} (h : AgreeBelow m r r')
    (hrest : ∀ bs x t, bs.length < m → r bs = .ok (x, t) → t.length < n)
    (hf : ∀ x, AgreeBelow n (f x) (f' x)) : AgreeBelow m (r >>= f) (r' >>= f') := by
  constructor
  · intro bs hbs
    show (r bs >>= fun a => f a.1 a.2) = (r' bs >>= fun a => f' a.1 a.2)
    rw [← h.eq bs hbs]
    rcases hr : r bs with e | ⟨x, t⟩
    · rfl
    · exact (hf x).eq t (hrest bs x t hbs hr)
  · intro bs y u hbs hu
    change (r bs >>= fun a => f a.1 a.2) = .ok (y, u) at hu
    rcases hr : r bs with e | ⟨x, t⟩
    · rw [hr] at hu
      cases hu
    · rw [hr] at hu
      have ht := h.rest_le bs x t hbs hr
      have hu := (hf x).rest_le t y u (hrest bs x t hbs hr) hu
      omega

theorem bind {f f' : α → Reader β} (h : AgreeBelow n r r')
    (hf : ∀ x, AgreeBelow n (f x) (f' x)) : AgreeBelow n (r >>= f) (r' >>= f') :=
  h.bind_of_rest_lt (fun bs x t hbs hr => Nat.lt_of_le_of_lt (h.rest_le bs x t hbs hr) hbs) hf

/-- Behind a reader that takes a byte, the input is shorter. -/
theorem after {f f' : α → Reader β} (hr : Progresses r) (hf : ∀ x, AgreeBelow n (f x) (f' x)) :
    AgreeBelow (n + 1) (r >>= f) (r >>= f') := by
  refine bind_of_rest_lt ⟨fun _ _ => rfl, fun bs x t _ hx => Nat.le_of_lt (hr bs x t hx)⟩ ?_ hf
  intro bs x t hbs hx
  have ht := hr bs x t hx
  omega

theorem map {f : α → β} (h : AgreeBelow n r r') :
    AgreeBelow n (r >>= fun x => Pure.pure (f x)) (r' >>= fun x => Pure.pure (f x)) :=
  h.bind fun x => pure (f x)

end AgreeBelow

/-! ## Numbers and marks take bytes -/

theorem progresses_u32 : Progresses Reader.u32 :=
  Takes.u32.progresses fun _ p hp => by simp [hp]

theorem progresses_u64 : Progresses Reader.u64 :=
  Takes.u64.progresses fun _ p hp => by simp [hp]

theorem progresses_mark : Progresses Reader.mark :=
  Takes.mark.progresses fun _ p hp => by simp [hp]

/-! ## Optional parts, sequences, alternatives and chains -/

namespace AgreeBelow

variable {n : Nat} {r r' : Reader α}

theorem optional (h : AgreeBelow n r r') :
    AgreeBelow (n + 1) (Reader.optional r) (Reader.optional r') := by
  refine after progresses_mark fun b => ?_
  cases b with
  | true => exact h.map
  | false => exact pure none

theorem items (h : AgreeBelow n r r') :
    ∀ k, AgreeBelow n (Reader.items r k) (Reader.items r' k)
  | 0 => pure []
  | k + 1 => h.bind fun _ => (items h k).map

theorem seq (h : AgreeBelow n r r') : AgreeBelow (n + 1) (Reader.seq r) (Reader.seq r') :=
  after progresses_u64 fun k => h.items k.toNat

theorem choice {rs rs' : List (Reader α)} (h : List.Forall₂ (AgreeBelow n) rs rs') :
    AgreeBelow (n + 1) (Reader.choice rs) (Reader.choice rs') := by
  obtain ⟨hlen, hget⟩ := List.forall₂_iff_get.mp h
  refine after progresses_u32 fun i => ?_
  by_cases hi : i.toNat < rs.length
  · have hi' : i.toNat < rs'.length := hlen ▸ hi
    simp only [List.getElem?_eq_getElem hi, List.getElem?_eq_getElem hi']
    exact hget i.toNat hi hi'
  · have hi' : ¬ i.toNat < rs'.length := hlen ▸ hi
    simp only [List.getElem?_eq_none (Nat.not_lt.mp hi),
      List.getElem?_eq_none (Nat.not_lt.mp hi'), hlen]
    exact throw _

theorem oneOf (xs : List α) : AgreeBelow n (Reader.oneOf xs) (Reader.oneOf xs) := by
  refine (choice ?_).mono n.le_succ
  exact List.forall₂_same.mpr fun r hr => by
    obtain ⟨x, -, rfl⟩ := List.mem_map.mp hr
    exact pure x

theorem pair {s s' : Reader β} (hr : AgreeBelow n r r') (hs : AgreeBelow n s s') :
    AgreeBelow n (Wire.pair r s) (Wire.pair r' s') := hr.bind fun _ => hs.map

end AgreeBelow

/-- A node of a chain, given the reader of its tail. -/
def chainNode (item : Reader α) (tail : Reader (Chain α)) : Reader (Chain α) := do
  let slot ← Reader.optional item
  if ← Reader.mark then return .ofParts slot (some (← tail))
  else return .ofParts slot none

theorem chain_succ (item : Reader α) (fuel : Nat) :
    chain item (fuel + 1) = chainNode item (chain item fuel) := rfl

namespace AgreeBelow

variable {n : Nat} {item item' : Reader α}

theorem chainNode {tail tail' : Reader (Chain α)} (hitem : AgreeBelow n item item')
    (htail : AgreeBelow n tail tail') :
    AgreeBelow (n + 1) (Wire.chainNode item tail) (Wire.chainNode item' tail') := by
  refine hitem.optional.bind fun slot => after progresses_mark fun more => ?_
  cases more with
  | true => exact htail.map
  | false => exact pure _

/-- A chain whose nodes are read alike, with any fuel for its nodes. -/
theorem chain (h : AgreeBelow n item item') :
    ∀ fuel, AgreeBelow n (Wire.chain item fuel) (Wire.chain item' fuel)
  | 0 => throw _
  | fuel + 1 => (chainNode h (chain h fuel)).mono n.le_succ

end AgreeBelow

/-! ## Trees -/

/-- The readers of the trees that a tree can hold. -/
structure Parts where
  pattern : Reader Pattern
  expr : Reader Expr
  stmt : Reader Stmt

structure Parts.AgreeBelow (n : Nat) (P P' : Parts) : Prop where
  pattern : Wire.AgreeBelow n P.pattern P'.pattern
  expr : Wire.AgreeBelow n P.expr P'.expr
  stmt : Wire.AgreeBelow n P.stmt P'.stmt

/-- The readers of trees, given those of the trees within them. -/
def Parts.next (room fuel : Nat) (P : Parts) : Parts where
  pattern := do
    let form ← patternForm room P.pattern fuel
    let ty ← Reader.optional (typeExpr room)
    let place ← Reader.span
    return ⟨form, ty, place⟩
  expr := do
    let form ← exprForm room P.pattern P.expr P.stmt fuel
    let ty ← Reader.optional (typeExpr room)
    let place ← Reader.span
    return ⟨form, ty, place⟩
  stmt := do
    let form ← stmtForm room P.pattern P.expr P.stmt
    let place ← Reader.span
    return ⟨form, place⟩

def parts (room fuel : Nat) : Parts := ⟨pattern room fuel, expr room fuel, stmt room fuel⟩

theorem parts_succ (room fuel : Nat) :
    parts room (fuel + 1) = (parts room fuel).next room fuel := by
  simp only [parts, Parts.next, pattern, expr, stmt]

section

variable {room n fuel fuel' : Nat} {q q' : Reader Pattern} {e e' : Reader Expr}
  {s s' : Reader Stmt}

theorem agree_value : AgreeBelow n value value := spells_value.agreeBelow n

theorem agree_symbol : AgreeBelow n (symbol room) (symbol room) := spells_symbol.agreeBelow n

theorem agree_type : AgreeBelow n (Reader.optional (typeExpr room))
    (Reader.optional (typeExpr room)) := spells_type.agreeBelow n

theorem agree_name : AgreeBelow n Reader.name Reader.name := Takes.name.agreeBelow n

theorem agree_span : AgreeBelow n Reader.span Reader.span := Takes.span.agreeBelow n

theorem agree_patternForm (hq : AgreeBelow n q q')
    (hc : AgreeBelow n (chain q fuel) (chain q' fuel')) :
    AgreeBelow (n + 1) (patternForm room q fuel) (patternForm room q' fuel') := by
  have hentries := (AgreeBelow.seq (hq.pair hq)).mono n.le_succ
  have hfields := (AgreeBelow.seq (agree_name.pair hq)).mono n.le_succ
  exact .choice <| .cons hc.map <| .cons hentries.map <|
    .cons (agree_symbol.bind fun _ => hfields.map) <| .cons agree_symbol.map <|
    .cons agree_value.map .nil

theorem agree_exprForm (hq : AgreeBelow n q q') (he : AgreeBelow n e e') (hs : AgreeBelow n s s')
    (hc : AgreeBelow n (chain e fuel) (chain e' fuel')) :
    AgreeBelow (n + 1) (exprForm room q e s fuel) (exprForm room q' e' s' fuel') := by
  have hstmts := hs.seq.mono n.le_succ
  have hexprs := he.seq.mono n.le_succ
  have harms := (AgreeBelow.seq (hq.pair he)).mono n.le_succ
  have hfields := (AgreeBelow.seq (agree_name.pair he)).mono n.le_succ
  have hentries := (AgreeBelow.seq (he.pair he)).mono n.le_succ
  have hif := he.bind fun cond => hstmts.bind fun body =>
    (hstmts.optional.mono n.le_succ).map (f := ExprForm.ifElse cond body)
  have hcase := he.bind fun scrutinee => harms.map (f := ExprForm.case scrutinee)
  have hrecord := (agree_symbol : AgreeBelow n (symbol room) _).bind fun path =>
    hfields.map (f := ExprForm.record path)
  have hcall := (agree_symbol : AgreeBelow n (symbol room) _).bind fun callee =>
    hexprs.map (f := ExprForm.call callee)
  have hbinary := (AgreeBelow.oneOf BinaryOp.all).bind fun op => he.bind fun lhs =>
    he.map (f := ExprForm.binary op lhs)
  have hunary := (AgreeBelow.oneOf UnaryOp.all).bind fun op => he.map (f := ExprForm.unary op)
  exact .choice <| .cons hif <| .cons hcase <| .cons hrecord <| .cons hc.map <|
    .cons hentries.map <| .cons agree_value.map <| .cons agree_symbol.map <| .cons hcall <|
    .cons hbinary <| .cons hunary <| .cons hexprs.map .nil

theorem agree_stmtForm (hq : AgreeBelow n q q') (he : AgreeBelow n e e')
    (hs : AgreeBelow n s s') :
    AgreeBelow (n + 1) (stmtForm room q e s) (stmtForm room q' e' s') := by
  have hstmts := hs.seq.mono n.le_succ
  have hparams := hq.seq.mono n.le_succ
  have htypes : AgreeBelow n (Reader.seq (pair Reader.name (typeExpr room))) _ :=
    (AgreeBelow.seq (agree_name.pair (spells_typeExpr.agreeBelow n))).mono n.le_succ
  have hdefine := agree_name.bind fun k => hparams.bind fun params =>
    (agree_type : AgreeBelow n (Reader.optional (typeExpr room)) _).bind fun result =>
      hstmts.map (f := StmtForm.define k params result)
  have hrecord := agree_name.bind fun k => htypes.map (f := StmtForm.record k)
  have hval := agree_name.bind fun k => he.map (f := StmtForm.val k)
  have hmodule := agree_name.bind fun k => hstmts.map (f := StmtForm.module k)
  have hloop := hq.bind fun p => he.map (f := StmtForm.loop p)
  exact .choice <| .cons hdefine <| .cons hrecord <| .cons hval <| .cons hmodule <|
    .cons he.map <| .cons hloop .nil

end

namespace Parts.AgreeBelow

variable {room n fuel fuel' : Nat} {P P' : Parts}

/-- A level of trees, if chains on it are read alike. -/
theorem next_of_chains (h : P.AgreeBelow n P')
    (hpatterns : Wire.AgreeBelow n (chain P.pattern fuel) (chain P'.pattern fuel'))
    (hexprs : Wire.AgreeBelow n (chain P.expr fuel) (chain P'.expr fuel')) :
    (P.next room fuel).AgreeBelow (n + 1) (P'.next room fuel') where
  pattern := (agree_patternForm h.pattern hpatterns).bind fun _ =>
    agree_type.bind fun _ => agree_span.map
  expr := (agree_exprForm h.pattern h.expr h.stmt hexprs).bind fun _ =>
    agree_type.bind fun _ => agree_span.map
  stmt := (agree_stmtForm h.pattern h.expr h.stmt).bind fun _ => agree_span.map

theorem next (h : P.AgreeBelow n P') : (P.next room fuel).AgreeBelow (n + 1) (P'.next room fuel) :=
  h.next_of_chains (h.pattern.chain fuel) (h.expr.chain fuel)

end Parts.AgreeBelow

/-! ## Fuel -/

theorem AgreeBelow.zero (r r' : Reader α) : AgreeBelow 0 r r' :=
  ⟨fun _ h => absurd h (Nat.not_lt_zero _), fun _ _ _ h => absurd h (Nat.not_lt_zero _)⟩

/-- Readers that find an empty input too short. -/
theorem AgreeBelow.one {r r' : Reader α} (h : r [] = .error .endOfInput)
    (h' : r' [] = .error .endOfInput) : AgreeBelow 1 r r' := by
  constructor
  · intro bs hbs
    obtain rfl := List.length_eq_zero_iff.mp (Nat.lt_one_iff.mp hbs)
    rw [h, h']
  · intro bs x t hbs hx
    obtain rfl := List.length_eq_zero_iff.mp (Nat.lt_one_iff.mp hbs)
    exact nomatch h.symm.trans hx

theorem chain_nil (item : Reader α) (fuel : Nat) : chain item fuel [] = .error .endOfInput := by
  cases fuel <;> rfl

/-- As every node of a chain takes a byte, fuel for as many nodes as there are bytes is enough. -/
theorem AgreeBelow.chain_of_fuel {item item' : Reader α} : ∀ {n fuel fuel' : Nat},
    AgreeBelow n item item' → n ≤ fuel + 1 → n ≤ fuel' + 1 →
      AgreeBelow n (Wire.chain item fuel) (Wire.chain item' fuel')
  | 0, _, _, _, _, _ => zero _ _
  | 1, fuel, fuel', _, _, _ => one (chain_nil item fuel) (chain_nil item' fuel')
  | n + 2, fuel + 1, fuel' + 1, h, hn, hn' => by
    have h := h.mono (n + 1).le_succ
    exact h.chainNode (h.chain_of_fuel (by omega) (by omega))

theorem parts_agree (room : Nat) : ∀ {n fuel fuel' : Nat}, n ≤ fuel + 1 → n ≤ fuel' + 1 →
    (parts room fuel).AgreeBelow n (parts room fuel')
  | 0, _, _, _, _ => ⟨.zero _ _, .zero _ _, .zero _ _⟩
  | 1, fuel, fuel', _, _ => by
    have hpattern : ∀ k, pattern room k [] = .error .endOfInput := fun k => by cases k <;> rfl
    have hexpr : ∀ k, expr room k [] = .error .endOfInput := fun k => by cases k <;> rfl
    have hstmt : ∀ k, stmt room k [] = .error .endOfInput := fun k => by cases k <;> rfl
    exact ⟨.one (hpattern fuel) (hpattern fuel'), .one (hexpr fuel) (hexpr fuel'),
      .one (hstmt fuel) (hstmt fuel')⟩
  | n + 2, fuel + 1, fuel' + 1, hn, hn' => by
    have h := parts_agree room (show n + 1 ≤ fuel + 1 by omega) (show n + 1 ≤ fuel' + 1 by omega)
    rw [parts_succ, parts_succ]
    exact h.next_of_chains (h.pattern.chain_of_fuel (by omega) (by omega))
      (h.expr.chain_of_fuel (by omega) (by omega))

theorem node_agree {room n fuel fuel' : Nat} (hn : n ≤ fuel + 1) (hn' : n ≤ fuel' + 1)
    (f : Family) : AgreeBelow n (node room fuel f) (node room fuel' f) := by
  obtain ⟨hpattern, hexpr, hstmt⟩ := parts_agree room hn hn'
  cases f with
  | value => exact agree_value.map
  | symbol => exact agree_symbol.map
  | type => exact (spells_typeExpr.agreeBelow n).map
  | pattern => exact hpattern.map
  | expr => exact hexpr.map
  | stmt => exact hstmt.map
  | program => exact (hstmt.seq.mono n.le_succ).map
  | exprChain => exact (hexpr.chain_of_fuel hn hn').map
  | patternChain => exact (hpattern.chain_of_fuel hn hn').map

/-- With more fuel than the input has bytes, nothing else is found. -/
theorem decode_eq_of_le_fuel {room fuel : Nat} {f : Family} {bytes : List UInt8}
    (h : bytes.length ≤ fuel) : node room fuel f bytes = f.decode room bytes :=
  (node_agree (Nat.succ_le_succ h) (Nat.le_refl _) f).eq bytes (Nat.lt_succ_self _)

/-! ## Lengths -/

theorem items_succ_of_ok {r : Reader α} {bs t : List UInt8} {x : α} (h : r bs = .ok (x, t))
    (k : Nat) : Reader.items r (k + 1) bs = (Reader.items r k t).map fun a => (x :: a.1, a.2) := by
  change (r bs >>= fun a => (Reader.items r k >>= fun xs => pure (a.1 :: xs)) a.2) = _
  rw [h]
  change (Reader.items r k t >>= fun a => pure (x :: a.1, a.2)) = _
  cases Reader.items r k t <;> rfl

theorem items_succ_of_error {r : Reader α} {bs : List UInt8} {e : ReadError}
    (h : r bs = .error e) (k : Nat) : Reader.items r (k + 1) bs = .error e := by
  change (r bs >>= fun a => (Reader.items r k >>= fun xs => pure (a.1 :: xs)) a.2) = _
  rw [h]
  rfl

/-- If every item takes a byte, more items than bytes are not there, and how many more they should
be makes no difference. -/
theorem items_of_length_lt {r : Reader α} (h : Progresses r) (bs : List UInt8) :
    ∃ e, ∀ k, bs.length < k → Reader.items r k bs = .error e := by
  rcases hr : r bs with e | ⟨x, t⟩
  · refine ⟨e, fun k hk => ?_⟩
    obtain ⟨k, rfl⟩ := Nat.exists_eq_succ_of_ne_zero (Nat.ne_zero_of_lt hk)
    exact items_succ_of_error hr k
  · have ht := h bs x t hr
    obtain ⟨e, he⟩ := items_of_length_lt h t
    refine ⟨e, fun k hk => ?_⟩
    obtain ⟨k, rfl⟩ := Nat.exists_eq_succ_of_ne_zero (Nat.ne_zero_of_lt hk)
    rw [items_succ_of_ok hr, he k (by omega)]
    rfl
termination_by bs.length

/-- The sequences that the readers of symbols, trees and programs meet. -/
inductive Sequence (room fuel : Nat) : {α : Type} → Reader (List α) → Prop
  | modules : Sequence room fuel (modules room)
  | patterns : Sequence room fuel (Reader.seq (pattern room fuel))
  | patternEntries :
    Sequence room fuel (Reader.seq (pair (pattern room fuel) (pattern room fuel)))
  | patternFields : Sequence room fuel (Reader.seq (pair Reader.name (pattern room fuel)))
  | exprs : Sequence room fuel (Reader.seq (expr room fuel))
  | exprEntries : Sequence room fuel (Reader.seq (pair (expr room fuel) (expr room fuel)))
  | exprFields : Sequence room fuel (Reader.seq (pair Reader.name (expr room fuel)))
  | arms : Sequence room fuel (Reader.seq (pair (pattern room fuel) (expr room fuel)))
  | stmts : Sequence room fuel (Reader.seq (stmt room fuel))
  | typeFields : Sequence room fuel (Reader.seq (pair Reader.name (typeExpr room)))

theorem Spells.progresses {r : Reader α} {f : α → Datum} (h : Spells r f)
    (hf : ∀ x, 1 ≤ (f x).encode.length) : Progresses r :=
  Takes.progresses h fun x _ hp => hp ▸ hf x

theorem Spells.progresses_pair {r : Reader α} {s : Reader β} {f : α → Datum} {g : β → Datum}
    (hr : Spells r f) (hs : Spells s g) (hg : ∀ y, 1 ≤ (g y).encode.length) :
    Progresses (pair r s) :=
  (Takes.pair hr hs "" "" "").progresses fun x => Datum.le_length_encode_pair (hg x.2)

theorem seq_error_of_lt {r : Reader α} (h : Progresses r) {bs rest : List UInt8} {k : UInt64}
    (hk : Reader.u64 bs = .ok (k, rest)) (hlt : rest.length < k.toNat) :
    ∃ e, Reader.seq r bs = .error e := by
  obtain ⟨e, he⟩ := items_of_length_lt h rest
  refine ⟨e, ?_⟩
  change (Reader.u64 bs >>= fun a => Reader.items r a.1.toNat a.2) = _
  rw [hk]
  exact he k.toNat hlt

theorem modules_error_of_lt {room : Nat} {bs rest : List UInt8} {k : UInt64}
    (hk : Reader.u64 bs = .ok (k, rest)) (hlt : rest.length < k.toNat) :
    ∃ e, modules room bs = .error e := by
  have hname : Progresses Reader.name := Takes.name.progresses fun n => by simp
  obtain ⟨e, he⟩ := items_of_length_lt hname rest
  change ∃ e, (Reader.u64 bs >>= fun a => (reserve room a.1.toNat >>= fun _ =>
    Reader.items Reader.name a.1.toNat) a.2) = .error e
  rw [hk]
  change ∃ e, (reserve room k.toNat rest >>= fun a =>
    Reader.items Reader.name k.toNat a.2) = .error e
  rcases hr : reserve room k.toNat rest with e' | ⟨u, t⟩
  · exact ⟨e', rfl⟩
  · obtain ⟨p, hp, rfl⟩ := takes_reserve k.toNat rest u t hr
    obtain rfl : rest = t := hp
    exact ⟨e, he k.toNat hlt⟩

/-- A sequence that should have more items than there are bytes is never read. -/
theorem Sequence.error_of_lt {room fuel : Nat} {r : Reader (List α)} (h : Sequence room fuel r)
    {bs rest : List UInt8} {k : UInt64} (hk : Reader.u64 bs = .ok (k, rest))
    (hlt : rest.length < k.toNat) : ∃ e, r bs = .error e := by
  have hpattern : Spells (pattern room fuel) Pattern.datum := spells_pattern fuel
  obtain ⟨hexpr, hstmt⟩ : Spells (expr room fuel) Expr.datum ∧ _ := spells_expr_stmt fuel
  cases h with
  | modules => exact modules_error_of_lt hk hlt
  | patterns => exact seq_error_of_lt (hpattern.progresses Pattern.one_le_length_encode) hk hlt
  | patternEntries =>
    exact seq_error_of_lt (hpattern.progresses_pair hpattern Pattern.one_le_length_encode) hk hlt
  | patternFields =>
    exact seq_error_of_lt (Takes.name.progresses_pair hpattern Pattern.one_le_length_encode) hk hlt
  | exprs => exact seq_error_of_lt (hexpr.progresses Expr.one_le_length_encode) hk hlt
  | exprEntries =>
    exact seq_error_of_lt (hexpr.progresses_pair hexpr Expr.one_le_length_encode) hk hlt
  | exprFields =>
    exact seq_error_of_lt (Takes.name.progresses_pair hexpr Expr.one_le_length_encode) hk hlt
  | arms =>
    exact seq_error_of_lt (hpattern.progresses_pair hexpr Expr.one_le_length_encode) hk hlt
  | stmts => exact seq_error_of_lt (hstmt.progresses Stmt.one_le_length_encode) hk hlt
  | typeFields =>
    exact seq_error_of_lt
      (Takes.name.progresses_pair spells_typeExpr Datum.one_le_length_encode_type) hk hlt

/-- Before each descent a byte is taken: what is built from the readers of its parts uses them on
shorter inputs only. The parts are the content of an optional part, the items of a sequence, the
slot and the tail of a chain's node, and the trees within a tree. -/
structure Guarded (room : Nat) : Prop where
  optional : ∀ {α : Type} {n : Nat} {r r' : Reader α}, AgreeBelow n r r' →
    AgreeBelow (n + 1) (Reader.optional r) (Reader.optional r')
  seq : ∀ {α : Type} {n : Nat} {r r' : Reader α}, AgreeBelow n r r' →
    AgreeBelow (n + 1) (Reader.seq r) (Reader.seq r')
  chain_eq : ∀ {α : Type} (item : Reader α) (fuel : Nat),
    chain item (fuel + 1) = chainNode item (chain item fuel)
  chain : ∀ {α : Type} {n : Nat} {item item' : Reader α} {tail tail' : Reader (Chain α)},
    AgreeBelow n item item' → AgreeBelow n tail tail' →
      AgreeBelow (n + 1) (chainNode item tail) (chainNode item' tail')
  trees_eq : ∀ fuel, parts room (fuel + 1) = (parts room fuel).next room fuel
  trees : ∀ {n fuel : Nat} {P P' : Parts}, P.AgreeBelow n P' →
    (P.next room fuel).AgreeBelow (n + 1) (P'.next room fuel)

theorem guarded (room : Nat) : Guarded room where
  optional := AgreeBelow.optional
  seq := AgreeBelow.seq
  chain_eq := chain_succ
  chain := AgreeBelow.chainNode
  trees_eq := parts_succ room
  trees := Parts.AgreeBelow.next

end Wire

theorem Node.encode_ne_nil (n : Node) : n.encode ≠ [] := by
  refine List.ne_nil_of_length_pos ?_
  cases n with
  | value v => cases v <;> simp [Node.encode, Node.datum, Value.datum]
  | symbol s =>
    simp only [Node.encode, Node.datum, Symbol.datum, Datum.encode_record, List.flatMap_cons,
      Datum.encode_handle, List.length_append, Wire.length_leBytes]
    omega
  | type t => exact Datum.one_le_length_encode_type t
  | pattern p => exact p.one_le_length_encode
  | expr e => exact e.one_le_length_encode
  | stmt s => exact s.one_le_length_encode
  | program p =>
    simp only [Node.encode, Node.datum, Program.datum, Datum.encode_record, List.flatMap_cons,
      Datum.encode_body, List.length_append, Wire.length_leBytes]
    omega
  | exprChain c => cases c <;> simp [Node.encode, Node.datum, Expr.chainData]
  | patternChain c => cases c <;> simp [Node.encode, Node.datum, Pattern.chainData]

/-- Decoding ends on all bytes. Fuel for as many levels as there are bytes is as good as any more,
since a byte is taken before each descent. What is read stands at the front of the bytes and takes
at least one of them, and at least as many as it has trees. A length that is larger than the number
of bytes behind it is an error, whatever sequence it belongs to. -/
theorem Family.decode_bounded (room : Nat) :
    (∀ (f : Family) (bytes : List UInt8) (fuel : Nat), bytes.length ≤ fuel →
      Wire.node room fuel f bytes = f.decode room bytes) ∧
    Wire.Guarded room ∧
    (∀ (f : Family) (bytes : List UInt8) (n : Node) (rest : List UInt8),
      f.decode room bytes = .ok (n, rest) →
        ∃ taken, bytes = taken ++ rest ∧ taken ≠ [] ∧ n.treeCount ≤ taken.length) ∧
    ∀ (fuel : Nat) (α : Type) (r : Wire.Reader (List α)), Wire.Sequence room fuel r →
      ∀ (bytes : List UInt8) (length : UInt64) (rest : List UInt8),
        Wire.Reader.u64 bytes = .ok (length, rest) → rest.length < length.toNat →
          ∃ e, r bytes = .error e := by
  refine ⟨fun f bytes fuel => Wire.decode_eq_of_le_fuel, Wire.guarded room, ?_, ?_⟩
  · intro f bytes n rest h
    obtain ⟨p, hp, -, rfl⟩ := Wire.takes_node bytes.length f bytes n rest h
    exact ⟨n.encode, hp, n.encode_ne_nil, n.treeCount_le_length_encode⟩
  · intro fuel α r hr bytes length rest
    exact hr.error_of_lt

/-- A chain of one pattern with a byte behind it, and a path that should have `2^64 - 1` modules in
three bytes. -/
theorem Family.decode_bounded_chain :
    let bytes : List UInt8 := [1, 4, 0, 0, 0, 4, 0, 0, 0, 1, 0, 3, 0, 0, 0, 9, 0, 0, 0, 0]
    let n : Node := .patternChain (.last ⟨.value (.bool true), none, ⟨3, 9⟩⟩)
    let path : List UInt8 := [255, 255, 255, 255, 255, 255, 255, 255, 1, 2, 3]
    Wire.node Wire.memory 1000 .patternChain (bytes ++ [7]) = .ok (n, [7]) ∧
      n.treeCount = 2 ∧
      (∃ taken, bytes ++ [7] = taken ++ [7] ∧ taken ≠ [] ∧ n.treeCount ≤ taken.length) ∧
      ∃ e, Wire.modules Wire.memory path = .error e := by
  intro bytes n path
  obtain ⟨hfuel, -, htaken, hlength⟩ := Family.decode_bounded Wire.memory
  have hn : Family.patternChain.decode Wire.memory (bytes ++ [7]) = .ok (n, [7]) := rfl
  refine ⟨(hfuel _ _ 1000 (by decide)).trans hn, rfl, htaken _ _ _ _ hn, ?_⟩
  exact hlength 0 _ _ .modules path 0xffffffffffffffff [1, 2, 3] rfl (by decide)

end Treeprint
