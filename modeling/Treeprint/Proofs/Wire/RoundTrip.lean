import Treeprint.Proofs.Induction
import Treeprint.Proofs.Wire.Layout
import Treeprint.Proofs.Wire.Reads

/-!
# Trees read back from their bytes

Every tree is read off its own bytes, whatever follows them (`Family.decode_encode`). Two things
must fit: the length of every sequence into the eight bytes that hold it, and the modules of every
symbol into the room there is for them (`Datum.Fits`). A symbol that was built at all had that room,
as the space for its modules is set aside in the same steps when it is built.

The readers of nested trees take fuel. A tree's reader is given as many units as the tree has bytes
or more, and hands one less to the readers of its parts. As the alternative's number comes before
the parts, every part has fewer bytes than the whole, so the fuel suffices for each of them.
-/

namespace Treeprint

namespace Wire

/-- Space for so many names can be set aside. -/
def Roomy (room n : Nat) : Prop :=
  n ≤ 2 ∨ 4 * n.nextPowerOfTwo < addressLimit ∧ 4 * n.nextPowerOfTwo ≤ room

theorem Reads.reserve {room n : Nat} (h : Roomy room n) : Reads (reserve room n) () [] := by
  unfold Wire.reserve
  rcases h with h | ⟨hsize, hroom⟩
  · simpa only [if_pos h] using Reads.pure ()
  · simp only [if_neg (Nat.not_le.mpr hsize), if_neg (Nat.not_lt.mpr hroom), ite_self]
    exact Reads.pure ()

end Wire

namespace Datum

def isHandle : Datum → Bool
  | handle _ => true
  | _ => false

mutual

/-- The length of every sequence fits into eight bytes, and every sequence of names into the
room. -/
def Fits (room : Nat) : Datum → Prop
  | handle _ | span _ | word _ | flag _ | absent => True
  | present d => d.Fits room
  | seq items => items.length < UInt64.size ∧
      (items.all isHandle → Wire.Roomy room items.length) ∧ ItemsFit room items
  | chain slots => ItemsFit room slots
  | tuple _ items => ItemsFit room items
  | record _ fields => FieldsFit room fields

def ItemsFit (room : Nat) : List Datum → Prop
  | [] => True
  | d :: ds => d.Fits room ∧ ItemsFit room ds

def FieldsFit (room : Nat) : List (String × Datum) → Prop
  | [] => True
  | (_, d) :: fs => d.Fits room ∧ FieldsFit room fs

end

variable {room : Nat}

theorem itemsFit_iff (ds : List Datum) : ItemsFit room ds ↔ ∀ d ∈ ds, d.Fits room := by
  induction ds with
  | nil => simp [ItemsFit]
  | cons d ds ih => simp [ItemsFit, ih]

theorem fits_ofOption (d : Option Datum) : (ofOption d).Fits room ↔ ∀ x ∈ d, x.Fits room := by
  cases d <;> simp [ofOption, Fits]

theorem fits_pair (label first second : String) (a b : Datum) :
    (pair label first second a b).Fits room ↔ a.Fits room ∧ b.Fits room := by
  simp [pair, Fits, FieldsFit]

theorem fits_body (ds : List Datum) : (body ds).Fits room ↔ (seq ds).Fits room := by
  simp [body, Fits, ItemsFit]

/-- What a sequence of data that stand for the items `xs` must fit. -/
theorem Fits.items {α : Type} {f : α → Datum} {xs : List α} (h : (seq (xs.map f)).Fits room) :
    xs.length < UInt64.size ∧ ∀ x ∈ xs, (f x).Fits room := by
  obtain ⟨hlen, -, hall⟩ := h
  rw [itemsFit_iff] at hall
  exact ⟨by simpa using hlen, fun x hx => hall _ (List.mem_map_of_mem hx)⟩

theorem Fits.slots {α : Type} {f : α → Datum} {c : Chain α} (h : (c.map f).datum.Fits room) :
    ∀ x, some x ∈ c.slots → (f x).Fits room := by
  intro x hx
  have hall := (itemsFit_iff _).mp h
  rw [Chain.slots_map, List.map_map] at hall
  exact (fits_ofOption (some (f x))).mp (hall _ (List.mem_map_of_mem hx)) (f x) rfl

end Datum

namespace Wire

open Datum (Fits)

variable {room : Nat}

/-! ## Leaves -/

theorem reads_value (v : Value) : Reads value v v.datum.encode := by
  cases v with
  | str n =>
    refine (Reads.choice 0 rfl (by decide) ((Reads.name n).map Value.str)).of_eq ?_
    simp [Value.datum]
  | unit =>
    refine (Reads.choice 1 rfl (by decide) (Reads.pure Value.unit)).of_eq ?_
    simp [Value.datum]
  | int n =>
    refine (Reads.choice 2 rfl (by decide) ((Reads.u64 n).map Value.int)).of_eq ?_
    simp [Value.datum]
  | float bits =>
    refine (Reads.choice 3 rfl (by decide) ((Reads.u64 bits).map Value.float)).of_eq ?_
    simp [Value.datum]
  | bool b =>
    refine (Reads.choice 4 rfl (by decide) ((Reads.flag b).map Value.bool)).of_eq ?_
    simp [Value.datum]
  | atom n =>
    refine (Reads.choice 5 rfl (by decide) ((Reads.name n).map Value.atom)).of_eq ?_
    simp [Value.datum]

theorem reads_symbol {s : Symbol} (h : s.datum.Fits room) :
    Reads (symbol room) s s.datum.encode := by
  obtain ⟨⟨hlen, hroom, -⟩, -⟩ := h
  rw [List.length_map] at hlen hroom
  have hn : (UInt64.ofNat s.modules.length).toNat = s.modules.length :=
    UInt64.toNat_ofNat_of_lt' hlen
  have hm : Reads (modules room) s.modules
      (leBytes 8 s.modules.length ++ s.modules.flatMap fun n => leBytes 4 n.index) := by
    refine (Reads.length hlen).bind ?_
    rw [hn]
    exact (Reads.reserve (hroom (by simp [Datum.isHandle]))).bind
      (Reads.items s.modules fun n _ => Reads.name n)
  refine (hm.bind ((Reads.name s.name).map (Symbol.mk s.modules))).of_eq ?_
  simp [Symbol.datum, Tag.bytes, List.flatMap_map]

theorem reads_primType (p : PrimType) : Reads (Reader.oneOf PrimType.all) p p.datum.encode := by
  refine (Reads.oneOf p.tag p.all_tag (by cases p <;> decide)).of_eq ?_
  simp [PrimType.datum]

theorem reads_typeForm {f : TypeForm} (h : f.datum.Fits room) :
    Reads (typeForm room) f f.datum.encode := by
  cases f with
  | list =>
    refine (Reads.choice 0 rfl (by decide) (Reads.pure TypeForm.list)).of_eq ?_
    simp [TypeForm.datum]
  | map =>
    refine (Reads.choice 1 rfl (by decide) (Reads.pure TypeForm.map)).of_eq ?_
    simp [TypeForm.datum]
  | record name =>
    refine (Reads.choice 2 rfl (by decide) ((reads_symbol h.1).map TypeForm.record)).of_eq ?_
    simp [TypeForm.datum]
  | any =>
    refine (Reads.choice 3 rfl (by decide) (Reads.pure TypeForm.any)).of_eq ?_
    simp [TypeForm.datum]
  | prim p =>
    refine (Reads.choice 4 rfl (by decide) ((reads_primType p).map TypeForm.prim)).of_eq ?_
    simp [TypeForm.datum]

theorem reads_typeExpr {t : TypeExpr} (h : t.datum.Fits room) :
    Reads (typeExpr room) t t.datum.encode := by
  refine ((reads_typeForm h.1).bind ((Reads.span t.span).map (TypeExpr.mk t.form))).of_eq ?_
  simp [TypeExpr.datum, Tag.bytes]

/-- The type of a tree that may have one. -/
theorem reads_type {ty : Option TypeExpr} (h : (Datum.ofType ty).Fits room) :
    Reads (Reader.optional (typeExpr room)) ty (Datum.ofType ty).encode := by
  cases ty with
  | none => exact Reads.none_optional _
  | some t => exact Reads.some_optional (reads_typeExpr h)

/-! ## Parts of trees

The readers of a tree's parts are known to read only trees of at most `n` bytes, where `n` is the
fuel that is left for them. Each part is within that bound if all of them together are. -/

theorem length_le_flatMap_of_mem {α : Type} (bytes : α → List UInt8) {xs : List α} {x : α}
    (h : x ∈ xs) : (bytes x).length ≤ (xs.flatMap bytes).length := by
  obtain ⟨as, bs, rfl⟩ := List.append_of_mem h
  simp only [List.flatMap_append, List.flatMap_cons, List.length_append]
  omega

theorem reads_seq {α : Type} {r : Reader α} {f : α → Datum} {xs : List α} {n : Nat}
    (h : (Datum.seq (xs.map f)).Fits room) (hn : (Datum.seq (xs.map f)).encode.length ≤ n)
    (hr : ∀ x ∈ xs, (f x).Fits room → (f x).encode.length ≤ n → Reads r x (f x).encode) :
    Reads (Reader.seq r) xs (Datum.seq (xs.map f)).encode := by
  rw [Datum.encode_seq, List.length_map, List.flatMap_map] at hn ⊢
  obtain ⟨hlen, hfit⟩ := h.items
  refine Reads.seq hlen fun x hx => hr x hx (hfit x hx) ?_
  have hle := length_le_flatMap_of_mem (fun x => (f x).encode) hx
  rw [List.length_append] at hn
  omega

theorem reads_chain {α : Type} {r : Reader α} {f : α → Datum} {n : Nat} :
    ∀ (c : Chain α) (fuel : Nat), (c.map f).datum.encode.length ≤ fuel →
      (c.map f).datum.encode.length ≤ n →
      (∀ x, some x ∈ c.slots → (f x).encode.length ≤ n → Reads r x (f x).encode) →
      Reads (chain r fuel) c (c.map f).datum.encode
  | .element v t, fuel, hfuel, hn, h => by
    simp only [Chain.map, Chain.encode_element, List.length_append, List.length_cons] at hfuel hn
    obtain ⟨fuel, rfl⟩ : ∃ m, fuel = m + 1 := ⟨fuel - 1, by omega⟩
    have hv := Reads.some_optional (h v (by simp [Chain.slots]) (by omega))
    have ht := reads_chain t fuel (by omega) (by omega)
      fun x hx => h x (by simp [Chain.slots, hx])
    exact (Reads.chain_cons hv ht).of_eq (by simp [Chain.map])
  | .last v, fuel, hfuel, hn, h => by
    simp only [Chain.map, Chain.encode_last, List.length_append, List.length_cons] at hfuel hn
    obtain ⟨fuel, rfl⟩ : ∃ m, fuel = m + 1 := ⟨fuel - 1, by omega⟩
    have hv := Reads.some_optional (h v (by simp [Chain.slots]) (by omega))
    exact (Reads.chain_end hv).of_eq (by simp [Chain.map])
  | .rest t, fuel, hfuel, hn, h => by
    simp only [Chain.map, Chain.encode_rest, List.length_cons] at hfuel hn
    obtain ⟨fuel, rfl⟩ : ∃ m, fuel = m + 1 := ⟨fuel - 1, by omega⟩
    have ht := reads_chain t fuel (by omega) (by omega)
      fun x hx => h x (by simp [Chain.slots, hx])
    exact (Reads.chain_cons (Reads.none_optional r) ht).of_eq (by simp [Chain.map])
  | .terminator, fuel, hfuel, hn, h => by
    simp only [Chain.map, Chain.encode_terminator, List.length_cons] at hfuel
    obtain ⟨fuel, rfl⟩ : ∃ m, fuel = m + 1 := ⟨fuel - 1, by omega⟩
    exact (Reads.chain_end (Reads.none_optional r)).of_eq (by simp [Chain.map])

theorem reads_pair {α β : Type} {r : Reader α} {s : Reader β} {a : α} {b : β}
    {label first second : String} {da db : Datum} {n : Nat}
    (h : (Datum.pair label first second da db).Fits room)
    (hn : (Datum.pair label first second da db).encode.length ≤ n)
    (hr : da.Fits room → da.encode.length ≤ n → Reads r a da.encode)
    (hs : db.Fits room → db.encode.length ≤ n → Reads s b db.encode) :
    Reads (pair r s) (a, b) (Datum.pair label first second da db).encode := by
  rw [Datum.encode_pair] at hn ⊢
  rw [List.length_append] at hn
  obtain ⟨ha, hb⟩ := (Datum.fits_pair _ _ _ _ _).mp h
  exact Reads.pair (hr ha (by omega)) (hs hb (by omega))

/-! ## Patterns -/

/-- A pattern is read with fuel for all its bytes, if with fuel for the bytes behind its
alternative's number its form is. -/
theorem reads_pattern {form : PatternForm} {ty : Option TypeExpr} {place : Span} {i fuel : Nat}
    {bs : List UInt8} (hty : (Datum.ofType ty).Fits room)
    (hlen : (Pattern.datum ⟨form, ty, place⟩).encode.length ≤ fuel)
    (he : form.datum.encode = leBytes 4 i ++ bs)
    (hform : ∀ n, bs.length ≤ n →
      Reads (patternForm room (pattern room n) n) form (leBytes 4 i ++ bs)) :
    Reads (pattern room fuel) ⟨form, ty, place⟩ (Pattern.datum ⟨form, ty, place⟩).encode := by
  have hd : (Pattern.datum ⟨form, ty, place⟩).encode =
      leBytes 4 i ++ bs ++ ((Datum.ofType ty).encode ++ (Datum.span place).encode) := by
    simp [Pattern.datum, Tag.bytes, he]
  simp only [hd, List.length_append, length_leBytes] at hlen
  obtain ⟨n, rfl⟩ : ∃ m, fuel = m + 1 := ⟨fuel - 1, by omega⟩
  rw [hd, Datum.encode_span]
  exact (hform n (by omega)).bind ((reads_type hty).bind
    ((Reads.span place).map (Pattern.mk form ty)))

theorem pattern_steps (room : Nat) : Pattern.Steps fun p => ∀ fuel, p.datum.Fits room →
    p.datum.encode.length ≤ fuel → Reads (pattern room fuel) p p.datum.encode where
  list c ty place ih fuel h hlen := by
    obtain ⟨⟨hc, -⟩, hty, -⟩ := h
    have he : (PatternForm.list c).datum.encode =
        leBytes 4 0 ++ (Pattern.chainData c).datum.encode := by simp [PatternForm.datum]
    rw [Pattern.chainData_eq_map] at he hc
    refine reads_pattern hty hlen he fun n hn => ?_
    have hparts := reads_chain c n hn hn fun p hp => ih p hp n (hc.slots p hp)
    exact Reads.choice 0 rfl (by decide) (hparts.map PatternForm.list)
  map es ty place ih fuel h hlen := by
    obtain ⟨⟨hes, -⟩, hty, -⟩ := h
    have he : (PatternForm.map es).datum.encode =
        leBytes 4 1 ++ (Datum.seq (Pattern.entryData es)).encode := by simp [PatternForm.datum]
    rw [Pattern.entryData_eq_map] at he hes
    refine reads_pattern hty hlen he fun n hn => ?_
    have hparts := reads_seq hes hn fun e hmem hfit hle =>
      reads_pair hfit hle ((ih e hmem).1 n) ((ih e hmem).2 n)
    exact Reads.choice 1 rfl (by decide) (hparts.map PatternForm.map)
  record name fs ty place ih fuel h hlen := by
    obtain ⟨⟨hname, hfs, -⟩, hty, -⟩ := h
    have he : (PatternForm.record name fs).datum.encode =
        leBytes 4 2 ++ (name.datum.encode ++ (Datum.seq (Pattern.fieldData fs)).encode) := by
      simp [PatternForm.datum]
    rw [Pattern.fieldData_eq_map] at he hfs
    refine reads_pattern hty hlen he fun n hn => ?_
    rw [List.length_append] at hn
    have hparts := reads_seq hfs (Nat.le_of_add_left_le hn) fun f hf hfit hle =>
      reads_pair hfit hle (fun _ _ => Reads.name f.1) (ih f hf n)
    exact Reads.choice 2 rfl (by decide)
      ((reads_symbol hname).bind (hparts.map (PatternForm.record name)))
  symbol path ty place fuel h hlen := by
    obtain ⟨⟨hpath, -⟩, hty, -⟩ := h
    have he : (PatternForm.symbol path).datum.encode = leBytes 4 3 ++ path.datum.encode := by
      simp [PatternForm.datum]
    refine reads_pattern hty hlen he fun n hn => ?_
    exact Reads.choice 3 rfl (by decide) ((reads_symbol hpath).map PatternForm.symbol)
  value v ty place fuel h hlen := by
    obtain ⟨-, hty, -⟩ := h
    have he : (PatternForm.value v).datum.encode = leBytes 4 4 ++ v.datum.encode := by
      simp [PatternForm.datum]
    refine reads_pattern hty hlen he fun n hn => ?_
    exact Reads.choice 4 rfl (by decide) ((reads_value v).map PatternForm.value)

/-! ## Expressions and statements -/

theorem reads_expr {form : ExprForm} {ty : Option TypeExpr} {place : Span} {i fuel : Nat}
    {bs : List UInt8} (hty : (Datum.ofType ty).Fits room)
    (hlen : (Expr.datum ⟨form, ty, place⟩).encode.length ≤ fuel)
    (he : form.datum.encode = leBytes 4 i ++ bs)
    (hform : ∀ n, bs.length ≤ n →
      Reads (exprForm room (pattern room n) (expr room n) (stmt room n) n) form
        (leBytes 4 i ++ bs)) :
    Reads (expr room fuel) ⟨form, ty, place⟩ (Expr.datum ⟨form, ty, place⟩).encode := by
  have hd : (Expr.datum ⟨form, ty, place⟩).encode =
      leBytes 4 i ++ bs ++ ((Datum.ofType ty).encode ++ (Datum.span place).encode) := by
    simp [Expr.datum, Tag.bytes, he]
  simp only [hd, List.length_append, length_leBytes] at hlen
  obtain ⟨n, rfl⟩ : ∃ m, fuel = m + 1 := ⟨fuel - 1, by omega⟩
  rw [hd, Datum.encode_span]
  exact (hform n (by omega)).bind ((reads_type hty).bind
    ((Reads.span place).map (Expr.mk form ty)))

theorem reads_stmt {form : StmtForm} {place : Span} {i fuel : Nat} {bs : List UInt8}
    (hlen : (Stmt.datum ⟨form, place⟩).encode.length ≤ fuel)
    (he : form.datum.encode = leBytes 4 i ++ bs)
    (hform : ∀ n, bs.length ≤ n →
      Reads (stmtForm room (pattern room n) (expr room n) (stmt room n)) form
        (leBytes 4 i ++ bs)) :
    Reads (stmt room fuel) ⟨form, place⟩ (Stmt.datum ⟨form, place⟩).encode := by
  have hd : (Stmt.datum ⟨form, place⟩).encode =
      leBytes 4 i ++ bs ++ (Datum.span place).encode := by
    simp [Stmt.datum, he]
  simp only [hd, List.length_append, length_leBytes] at hlen
  obtain ⟨n, rfl⟩ : ∃ m, fuel = m + 1 := ⟨fuel - 1, by omega⟩
  rw [hd, Datum.encode_span]
  exact (hform n (by omega)).bind ((Reads.span place).map (Stmt.mk form))

theorem reads_binaryOp (op : BinaryOp) : Reads (Reader.oneOf BinaryOp.all) op op.datum.encode := by
  refine (Reads.oneOf op.tag op.all_tag (by cases op <;> decide)).of_eq ?_
  simp [BinaryOp.datum]

theorem reads_unaryOp (op : UnaryOp) : Reads (Reader.oneOf UnaryOp.all) op op.datum.encode := by
  refine (Reads.oneOf op.tag op.all_tag (by cases op <;> decide)).of_eq ?_
  simp [UnaryOp.datum]

/-- Statements in their wrapper, which adds nothing to them. -/
theorem reads_body {ss : List Stmt} {n : Nat} (h : (Datum.body (Stmt.data ss)).Fits room)
    (hn : (Datum.body (Stmt.data ss)).encode.length ≤ n)
    (ih : ∀ s ∈ ss, ∀ fuel, s.datum.Fits room → s.datum.encode.length ≤ fuel →
      Reads (stmt room fuel) s s.datum.encode) :
    Reads (Reader.seq (stmt room n)) ss (Datum.body (Stmt.data ss)).encode := by
  rw [Stmt.data_eq_map] at h hn ⊢
  rw [Datum.encode_body, ← Datum.encode_seq] at hn ⊢
  exact reads_seq ((Datum.fits_body _).mp h) hn fun s hs => ih s hs n

theorem expr_steps (room : Nat) : Expr.Steps
    (fun e => ∀ fuel, e.datum.Fits room → e.datum.encode.length ≤ fuel →
      Reads (expr room fuel) e e.datum.encode)
    (fun s => ∀ fuel, s.datum.Fits room → s.datum.encode.length ≤ fuel →
      Reads (stmt room fuel) s s.datum.encode) where
  ifElse cond body elseBody ty place ihc ihb ihe fuel h hlen := by
    cases elseBody with
    | none =>
      obtain ⟨⟨hcond, hbody, -⟩, hty, -⟩ := h
      have he : (ExprForm.ifElse cond body none).datum.encode = leBytes 4 0 ++
          (cond.datum.encode ++ ((Datum.body (Stmt.data body)).encode ++ [0])) := by
        simp [ExprForm.datum]
      refine reads_expr hty hlen he fun n hn => ?_
      simp only [List.length_append] at hn
      exact Reads.choice 0 rfl (by decide) ((ihc n hcond (by omega)).bind
        ((reads_body hbody (by omega) ihb).bind
          ((Reads.none_optional _).map (ExprForm.ifElse cond body))))
    | some stmts =>
      obtain ⟨⟨hcond, hbody, helse, -⟩, hty, -⟩ := h
      have he : (ExprForm.ifElse cond body (some stmts)).datum.encode = leBytes 4 0 ++
          (cond.datum.encode ++ ((Datum.body (Stmt.data body)).encode ++
            1 :: (Datum.body (Stmt.data stmts)).encode)) := by
        simp [ExprForm.datum]
      refine reads_expr hty hlen he fun n hn => ?_
      simp only [List.length_append, List.length_cons] at hn
      have hstmts : Reads (Reader.seq (stmt room n)) stmts _ :=
        reads_body helse (by omega) (ihe stmts rfl)
      exact Reads.choice 0 rfl (by decide) ((ihc n hcond (by omega)).bind
        ((reads_body hbody (by omega) ihb).bind
          ((Reads.some_optional hstmts).map (ExprForm.ifElse cond body))))
  case scrutinee arms ty place ihs iha fuel h hlen := by
    obtain ⟨⟨hs, harms, -⟩, hty, -⟩ := h
    have he : (ExprForm.case scrutinee arms).datum.encode = leBytes 4 1 ++
        (scrutinee.datum.encode ++ (Datum.seq (Expr.armData arms)).encode) := by
      simp [ExprForm.datum]
    rw [Expr.armData_eq_map] at he harms
    refine reads_expr hty hlen he fun n hn => ?_
    rw [List.length_append] at hn
    have hparts := reads_seq harms (Nat.le_of_add_left_le hn) fun a ha hfit hle =>
      reads_pair hfit hle ((pattern_steps room).all a.1 n) (iha a ha n)
    exact Reads.choice 1 rfl (by decide)
      ((ihs n hs (by omega)).bind (hparts.map (ExprForm.case scrutinee)))
  record name fs ty place ih fuel h hlen := by
    obtain ⟨⟨hname, hfs, -⟩, hty, -⟩ := h
    have he : (ExprForm.record name fs).datum.encode =
        leBytes 4 2 ++ (name.datum.encode ++ (Datum.seq (Expr.fieldData fs)).encode) := by
      simp [ExprForm.datum]
    rw [Expr.fieldData_eq_map] at he hfs
    refine reads_expr hty hlen he fun n hn => ?_
    rw [List.length_append] at hn
    have hparts := reads_seq hfs (Nat.le_of_add_left_le hn) fun f hf hfit hle =>
      reads_pair hfit hle (fun _ _ => Reads.name f.1) (ih f hf n)
    exact Reads.choice 2 rfl (by decide)
      ((reads_symbol hname).bind (hparts.map (ExprForm.record name)))
  list c ty place ih fuel h hlen := by
    obtain ⟨⟨hc, -⟩, hty, -⟩ := h
    have he : (ExprForm.list c).datum.encode =
        leBytes 4 3 ++ (Expr.chainData c).datum.encode := by simp [ExprForm.datum]
    rw [Expr.chainData_eq_map] at he hc
    refine reads_expr hty hlen he fun n hn => ?_
    have hparts := reads_chain c n hn hn fun e hmem => ih e hmem n (hc.slots e hmem)
    exact Reads.choice 3 rfl (by decide) (hparts.map ExprForm.list)
  map es ty place ih fuel h hlen := by
    obtain ⟨⟨hes, -⟩, hty, -⟩ := h
    have he : (ExprForm.map es).datum.encode =
        leBytes 4 4 ++ (Datum.seq (Expr.entryData es)).encode := by simp [ExprForm.datum]
    rw [Expr.entryData_eq_map] at he hes
    refine reads_expr hty hlen he fun n hn => ?_
    have hparts := reads_seq hes hn fun e hmem hfit hle =>
      reads_pair hfit hle ((ih e hmem).1 n) ((ih e hmem).2 n)
    exact Reads.choice 4 rfl (by decide) (hparts.map ExprForm.map)
  value v ty place fuel h hlen := by
    obtain ⟨-, hty, -⟩ := h
    have he : (ExprForm.value v).datum.encode = leBytes 4 5 ++ v.datum.encode := by
      simp [ExprForm.datum]
    refine reads_expr hty hlen he fun n hn => ?_
    exact Reads.choice 5 rfl (by decide) ((reads_value v).map ExprForm.value)
  symbol path ty place fuel h hlen := by
    obtain ⟨⟨hpath, -⟩, hty, -⟩ := h
    have he : (ExprForm.symbol path).datum.encode = leBytes 4 6 ++ path.datum.encode := by
      simp [ExprForm.datum]
    refine reads_expr hty hlen he fun n hn => ?_
    exact Reads.choice 6 rfl (by decide) ((reads_symbol hpath).map ExprForm.symbol)
  call callee args ty place ih fuel h hlen := by
    obtain ⟨⟨hcallee, hargs, -⟩, hty, -⟩ := h
    have he : (ExprForm.call callee args).datum.encode =
        leBytes 4 7 ++ (callee.datum.encode ++ (Datum.seq (Expr.data args)).encode) := by
      simp [ExprForm.datum]
    rw [Expr.data_eq_map] at he hargs
    refine reads_expr hty hlen he fun n hn => ?_
    rw [List.length_append] at hn
    have hparts := reads_seq hargs (Nat.le_of_add_left_le hn) fun e hmem => ih e hmem n
    exact Reads.choice 7 rfl (by decide)
      ((reads_symbol hcallee).bind (hparts.map (ExprForm.call callee)))
  binary op lhs rhs ty place ihl ihr fuel h hlen := by
    obtain ⟨⟨-, hl, hr, -⟩, hty, -⟩ := h
    have he : (ExprForm.binary op lhs rhs).datum.encode =
        leBytes 4 8 ++ (op.datum.encode ++ (lhs.datum.encode ++ rhs.datum.encode)) := by
      simp [ExprForm.datum]
    refine reads_expr hty hlen he fun n hn => ?_
    simp only [List.length_append] at hn
    exact Reads.choice 8 rfl (by decide) ((reads_binaryOp op).bind
      ((ihl n hl (by omega)).bind ((ihr n hr (by omega)).map (ExprForm.binary op lhs))))
  unary op operand ty place ih fuel h hlen := by
    obtain ⟨⟨-, ho, -⟩, hty, -⟩ := h
    have he : (ExprForm.unary op operand).datum.encode =
        leBytes 4 9 ++ (op.datum.encode ++ operand.datum.encode) := by
      simp [ExprForm.datum]
    refine reads_expr hty hlen he fun n hn => ?_
    rw [List.length_append] at hn
    exact Reads.choice 9 rfl (by decide)
      ((reads_unaryOp op).bind ((ih n ho (by omega)).map (ExprForm.unary op)))
  compound exprs ty place ih fuel h hlen := by
    obtain ⟨⟨hes, -⟩, hty, -⟩ := h
    have he : (ExprForm.compound exprs).datum.encode =
        leBytes 4 10 ++ (Datum.seq (Expr.data exprs)).encode := by simp [ExprForm.datum]
    rw [Expr.data_eq_map] at he hes
    refine reads_expr hty hlen he fun n hn => ?_
    have hparts := reads_seq hes hn fun e hmem => ih e hmem n
    exact Reads.choice 10 rfl (by decide) (hparts.map ExprForm.compound)
  define name params result body place ih fuel h hlen := by
    obtain ⟨⟨⟨-, hparams, hresult, hbody, -⟩, -⟩, -⟩ := h
    have he : (StmtForm.define name params result body).datum.encode = leBytes 4 0 ++
        (leBytes 4 name.index ++ ((Datum.seq (params.map Pattern.datum)).encode ++
          ((Datum.ofType result).encode ++ (Datum.body (Stmt.data body)).encode))) := by
      simp [StmtForm.datum, Tag.bytes]
    refine reads_stmt hlen he fun n hn => ?_
    simp only [List.length_append] at hn
    have hps : Reads (Reader.seq (pattern room n)) params _ :=
      reads_seq hparams (by omega) fun p _ => (pattern_steps room).all p n
    exact Reads.choice 0 rfl (by decide) ((Reads.name name).bind (hps.bind
      ((reads_type hresult).bind
        ((reads_body hbody (by omega) ih).map (StmtForm.define name params result)))))
  recordType name fields place fuel h hlen := by
    obtain ⟨⟨hfields, -⟩, -⟩ := h
    obtain ⟨-, hfields⟩ := (Datum.fits_pair _ _ _ _ _).mp hfields
    have he : (StmtForm.record name fields).datum.encode = leBytes 4 1 ++
        (leBytes 4 name.index ++ (Datum.seq (fields.map fun f =>
          Datum.pair "RecordField" "name" "ty" (.handle f.1) f.2.datum)).encode) := by
      simp [StmtForm.datum]
    refine reads_stmt hlen he fun n hn => ?_
    rw [List.length_append] at hn
    have hparts := reads_seq hfields (Nat.le_of_add_left_le hn) fun f _ hfit hle =>
      reads_pair hfit hle (fun _ _ => Reads.name f.1) (fun ht _ => reads_typeExpr ht)
    exact Reads.choice 1 rfl (by decide)
      ((Reads.name name).bind (hparts.map (StmtForm.record name)))
  val name init place ih fuel h hlen := by
    obtain ⟨⟨-, hinit, -⟩, -⟩ := h
    have he : (StmtForm.val name init).datum.encode =
        leBytes 4 2 ++ (leBytes 4 name.index ++ init.datum.encode) := by
      simp [StmtForm.datum]
    refine reads_stmt hlen he fun n hn => ?_
    rw [List.length_append] at hn
    exact Reads.choice 2 rfl (by decide)
      ((Reads.name name).bind ((ih n hinit (by omega)).map (StmtForm.val name)))
  module name body place ih fuel h hlen := by
    obtain ⟨⟨hbody, -⟩, -⟩ := h
    obtain ⟨-, hbody⟩ := (Datum.fits_pair _ _ _ _ _).mp hbody
    have he : (StmtForm.module name body).datum.encode =
        leBytes 4 3 ++ (leBytes 4 name.index ++ (Datum.body (Stmt.data body)).encode) := by
      simp [StmtForm.datum]
    refine reads_stmt hlen he fun n hn => ?_
    rw [List.length_append] at hn
    exact Reads.choice 3 rfl (by decide)
      ((Reads.name name).bind ((reads_body hbody (by omega) ih).map (StmtForm.module name)))
  expr e place ih fuel h hlen := by
    obtain ⟨⟨hexpr, -⟩, -⟩ := h
    have he : (StmtForm.expr e).datum.encode = leBytes 4 4 ++ e.datum.encode := by
      simp [StmtForm.datum]
    refine reads_stmt hlen he fun n hn => ?_
    exact Reads.choice 4 rfl (by decide) ((ih n hexpr hn).map StmtForm.expr)
  loop p container place ih fuel h hlen := by
    obtain ⟨⟨hp, hc, -⟩, -⟩ := h
    have he : (StmtForm.loop p container).datum.encode =
        leBytes 4 5 ++ (p.datum.encode ++ container.datum.encode) := by
      simp [StmtForm.datum]
    refine reads_stmt hlen he fun n hn => ?_
    rw [List.length_append] at hn
    exact Reads.choice 5 rfl (by decide) (((pattern_steps room).all p n hp (by omega)).bind
      ((ih n hc (by omega)).map (StmtForm.loop p)))

theorem reads_node {n : Node} {fuel : Nat} (h : n.datum.Fits room)
    (hfuel : n.datum.encode.length ≤ fuel) :
    Reads (node room fuel n.family) n n.datum.encode := by
  cases n with
  | value v => exact (reads_value v).map Node.value
  | symbol s => exact (reads_symbol h).map Node.symbol
  | type ty => exact (reads_typeExpr h).map Node.type
  | pattern p => exact ((pattern_steps room).all p fuel h hfuel).map Node.pattern
  | expr e => exact ((expr_steps room).all e fuel h hfuel).map Node.expr
  | stmt s => exact ((expr_steps room).allStmts s fuel h hfuel).map Node.stmt
  | program p =>
    have he : (Node.program p).datum.encode = (Datum.body (Stmt.data p.body)).encode := by
      simp [Node.datum, Program.datum, Tag.bytes]
    rw [he] at hfuel ⊢
    exact (reads_body h.1 hfuel fun s _ => (expr_steps room).allStmts s).map
      fun ss => Node.program ⟨ss⟩
  | exprChain c =>
    simp only [Node.datum, Expr.chainData_eq_map] at h hfuel ⊢
    exact (reads_chain c fuel hfuel hfuel fun e hmem =>
      (expr_steps room).all e fuel (h.slots e hmem)).map Node.exprChain
  | patternChain c =>
    simp only [Node.datum, Pattern.chainData_eq_map] at h hfuel ⊢
    exact (reads_chain c fuel hfuel hfuel fun p hmem =>
      (pattern_steps room).all p fuel (h.slots p hmem)).map Node.patternChain

end Wire

/-- Every node is read off its own bytes in front of any further ones, which are left unread. -/
theorem Family.decode_encode {room : Nat} (n : Node) (t : List UInt8) (h : n.datum.Fits room) :
    n.family.decode room (n.encode ++ t) = .ok (n, t) :=
  Wire.reads_node h (by simp [Node.encode]) t

/-- A chain that no list as written stands for, with a path of three modules in its element. -/
theorem Family.decode_encode_chain :
    Family.exprChain.decode Wire.memory
      ((Node.exprChain (.element ⟨.call ⟨[⟨0⟩, ⟨1⟩, ⟨2⟩], ⟨7⟩⟩ [.unit], some ⟨.any, ⟨3, 9⟩⟩, ⟨9, 3⟩⟩
        (.rest .terminator))).encode ++ [1, 2]) =
      .ok (.exprChain (.element ⟨.call ⟨[⟨0⟩, ⟨1⟩, ⟨2⟩], ⟨7⟩⟩ [.unit], some ⟨.any, ⟨3, 9⟩⟩, ⟨9, 3⟩⟩
        (.rest .terminator)), [1, 2]) := by
  refine Family.decode_encode (.exprChain _) [1, 2] ?_
  have hroom : Wire.Roomy Wire.memory 3 := .inr (by decide +kernel)
  simp [Node.datum, Expr.chainData, Expr.datum, ExprForm.datum, Chain.datum, Chain.slots,
    Datum.Fits, Datum.ItemsFit, Datum.FieldsFit, Datum.ofOption, Datum.variantRecord,
    Datum.variant, Symbol.datum, Datum.ofType, Expr.data, Expr.unit, Expr.ofForm, Value.datum,
    TypeExpr.datum, TypeForm.datum, Datum.isHandle, UInt64.size, hroom]

end Treeprint
