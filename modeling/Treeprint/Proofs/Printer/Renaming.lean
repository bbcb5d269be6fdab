import Treeprint.Proofs.Printer.Foreign
import Treeprint.Proofs.Printer.Normal

/-!
# Only the texts of names count

Which number a name has is up to the interner that issued it, and printing shows texts only. A tree
with other names (`Node.rename`), printed with an interner that knows the new names by the texts of
the old ones, has the same effect as before (`Doc.effect_rename`). So what is printed does not
depend on the order in which the texts of a tree were interned, nor on what else was.

Main statement: `Node.print_rename`.
-/

namespace Treeprint

/-- Other names everywhere, also in the types of expressions. -/
def Rewriting.renaming (f : Name → Name) : Rewriting where
  name := f
  note := Option.map (TypeExpr.rewrite { name := f })

def Node.rename (f : Name → Name) (n : Node) : Node := n.rewrite (.renaming f)

namespace Interner

/-- Two interners know two names by the same text. -/
def Agree (i j : Interner) (m n : Name) : Prop :=
  ∃ text, i.lookup? m = some text ∧ j.lookup? n = some text

theorem Answers.lookup? {i : Interner} (hi : i.Reachable) {requests : List Request} {text : String}
    {n : Name} (h : i.Answers requests text n) : (i.after requests).lookup? n = some text :=
  hi.coherent.lookup?_of_answers h

end Interner

/-! ## Documents with other names -/

theorem Interner.Agree.issued {i j : Interner} {m n : Name} (h : i.Agree j m n) (size : Nat) :
    (Context.mk i size).Issued m ∧ (Context.mk j size).Issued n ∧
      (Context.mk i size).text m = (Context.mk j size).text n := by
  obtain ⟨text, hm, hn⟩ := h
  refine ⟨(Array.getElem?_eq_some_iff.mp hm).1, (Array.getElem?_eq_some_iff.mp hn).1, ?_⟩
  rw [Context.text, Context.text, hm, hn]

theorem Effect.ofName_of_agree {i j : Interner} {m n : Name} (h : i.Agree j m n) (size : Nat)
    (form : String → String) : ofName ⟨i, size⟩ form m = ofName ⟨j, size⟩ form n := by
  obtain ⟨hm, hn, htext⟩ := h.issued size
  rw [ofName, ofName, if_pos hm, if_pos hn, htext]

/-- A document under two namings has one effect, if its names stand for the same texts. -/
theorem Doc.effect_rename {i j : Interner} {size : Nat} {f g : Name → Name} {d : Doc}
    (h : ∀ m ∈ d.names, i.Agree j (f m) (g m)) (depth used : Nat) :
    (d.rename f).effect ⟨i, size⟩ depth used = (d.rename g).effect ⟨j, size⟩ depth used := by
  induction d generalizing depth used with
  | empty | text s | indent => rfl
  | name n => exact Effect.ofName_of_agree (h n (by simp [names])) size fun s => s
  | quoted n => exact Effect.ofName_of_agree (h n (by simp [names])) size Text.quoted
  | append a b iha ihb =>
    obtain ⟨ha, hb⟩ := List.forall_mem_append.mp h
    simp only [rename, effect, iha ha, ihb hb]
  | scope d ih => simp only [rename, effect, ih h]

/-- Two trees that are one tree under two namings are printed alike. -/
theorem Node.print_rename_congr {i j : Interner} {f g : Name → Name} {n : Node}
    (h : ∀ m ∈ n.handles, i.Agree j (f m) (g m)) (size : Nat) (k : Sink) :
    (n.rename f).doc.print ⟨i, size⟩ k = (n.rename g).doc.print ⟨j, size⟩ k := by
  rw [← n.names_doc] at h
  rw [rename, rename, n.prints_rewrite (.renaming f), n.prints_rewrite (.renaming g),
    Doc.print_eq_onto, Doc.print_eq_onto]
  exact congrArg (Effect.onto · k) (Doc.effect_rename h k.depth k.out.utf8ByteSize)

theorem Node.print_rename_id (ctx : Context) (n : Node) :
    (n.rename fun m => m).doc.print ctx = n.doc.print ctx := by
  rw [rename, n.prints_rewrite (.renaming fun m => m)]
  exact congrArg (Doc.print ctx) n.doc.rename_id

/-- Handles can be exchanged for others that stand for the same texts, and nothing about the
printing changes: the text, the scope events and the outcome are the same. Hence the text of a tree
does not depend on the sessions in which the interners for it met its texts. -/
theorem Node.print_rename (n : Node) (size : Nat) (k : Sink) :
    (∀ (i j : Interner) (f : Name → Name),
      (∀ m ∈ n.handles, ∃ text, i.lookup? m = some text ∧ j.lookup? (f m) = some text) →
      (n.rename f).doc.print ⟨j, size⟩ k = n.doc.print ⟨i, size⟩ k) ∧
    (∀ (i j : Interner) (rs ss : List Interner.Request) (source : Name → String)
      (f g : Name → Name), i.Reachable → j.Reachable →
      (∀ m ∈ n.handles, i.Answers rs (source m) (f m) ∧ j.Answers ss (source m) (g m)) →
      (n.rename f).doc.print ⟨i.after rs, size⟩ k =
        (n.rename g).doc.print ⟨j.after ss, size⟩ k) := by
  refine ⟨fun i j f h => ?_, fun i j rs ss source f g hi hj h => ?_⟩
  · rw [← print_rename_id ⟨i, size⟩ n]
    exact (print_rename_congr h size k).symm
  · refine print_rename_congr (fun m hm => ?_) size k
    obtain ⟨hf, hg⟩ := h m hm
    exact ⟨source m, hf.lookup? hi, hg.lookup? hj⟩

/-- A call with a string literal and a typed argument, built with two interners that met the texts
in opposite orders, one of them with another text in between. -/
theorem Node.print_rename_call :
    let swap : Name → Name := fun m => if m = ⟨0⟩ then ⟨2⟩ else ⟨0⟩
    let source : Name → String := fun m => if m = ⟨0⟩ then "a" else "b"
    let argument : Expr := .withType (.ofForm (.value (.str ⟨1⟩))) ⟨.record ⟨[⟨0⟩], ⟨1⟩⟩, .dummy⟩
    let n : Node := .expr (.ofForm (.call ⟨[⟨1⟩], ⟨0⟩⟩ [argument]))
    let rs : List Interner.Request := [.intern "a", .internOwned "b"]
    let ss : List Interner.Request := [.intern "b", .tryIntern "c", .intern "a"]
    let i : Interner := .empty
    let j : Interner := .withCapacity 3
    i.Reachable ∧ j.Reachable ∧
      (∀ m ∈ n.handles, i.Answers rs (source m) m ∧ j.Answers ss (source m) (swap m)) ∧
      (n.rename swap).doc.print ⟨j.after ss, 4⟩ {} = n.doc.print ⟨i.after rs, 4⟩ {} ∧
      (n.rename fun m => m).doc.print ⟨i.after rs, 4⟩ {} =
        (n.rename swap).doc.print ⟨j.after ss, 4⟩ {} := by
  intro swap source argument n rs ss i j
  have hfirst : ∀ m ∈ [(⟨0⟩ : Name), ⟨1⟩], i.Answers rs (source m) m := by
    intro m hm
    simp only [List.mem_cons, List.not_mem_nil, or_false] at hm
    rcases hm with rfl | rfl
    · refine ⟨[], .intern "a", [.internOwned "b"], rfl, rfl, ?_⟩
      simp [i, Interner.after, Interner.Request.run, Interner.intern, Interner.demand,
        Interner.tryIntern, Interner.find?, Interner.insert, Name.count, UInt32.size,
        Interner.Reply.ofIntern, Interner.empty]
    · refine ⟨[.intern "a"], .internOwned "b", [], rfl, rfl, ?_⟩
      simp [i, Interner.after, Interner.Request.run, Interner.intern, Interner.internOwned,
        Interner.demand, Interner.tryIntern, Interner.find?, Interner.insert, Name.count,
        UInt32.size, Interner.Reply.ofIntern, Interner.empty]
  have hsecond : ∀ m ∈ [(⟨0⟩ : Name), ⟨1⟩], j.Answers ss (source m) (swap m) := by
    intro m hm
    simp only [List.mem_cons, List.not_mem_nil, or_false] at hm
    rcases hm with rfl | rfl
    · refine ⟨[.intern "b", .tryIntern "c"], .intern "a", [], rfl, rfl, ?_⟩
      simp [j, swap, Interner.after, Interner.Request.run, Interner.intern, Interner.demand,
        Interner.tryIntern, Interner.find?, Interner.insert, Name.count, UInt32.size,
        Interner.Reply.ofIntern, Interner.withCapacity]
    · refine ⟨[], .intern "b", [.tryIntern "c", .intern "a"], rfl, rfl, ?_⟩
      simp [j, swap, Interner.after, Interner.Request.run, Interner.intern, Interner.demand,
        Interner.tryIntern, Interner.find?, Interner.insert, Name.count, UInt32.size,
        Interner.Reply.ofIntern, Interner.withCapacity]
  have h : ∀ m ∈ n.handles, i.Answers rs (source m) m ∧ j.Answers ss (source m) (swap m) := by
    intro m hm
    have hsub : n.handles ⊆ [⟨0⟩, ⟨1⟩] := by decide
    exact ⟨hfirst m (hsub hm), hsecond m (hsub hm)⟩
  obtain ⟨hrename, hsessions⟩ := Node.print_rename n 4 {}
  refine ⟨.empty, .withCapacity 3, h, hrename _ _ _ fun m hm => ?_,
    hsessions i j rs ss source _ _ .empty (.withCapacity 3) h⟩
  obtain ⟨hf, hg⟩ := h m hm
  exact ⟨source m, hf.lookup? .empty, hg.lookup? (.withCapacity 3)⟩

end Treeprint
