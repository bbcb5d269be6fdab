import Treeprint.Interner.Request

/-!
# The two tables of an interner

An interner is coherent if its two tables are inverse to each other (`Interner.Coherent`), so that
a text has one name at most. Interning a text keeps an interner coherent, whichever way it is asked
for, and no other request changes the interner (`Coherent.run`). An interner that was made empty and
then only asked things (`Interner.Reachable`) is therefore coherent (`Reachable.coherent`).
-/

namespace Treeprint.Interner

/-- The interners that come about: they start empty, and requests follow. -/
inductive Reachable : Interner → Prop
  | empty : Reachable .empty
  | withCapacity (capacity : Nat) : Reachable (.withCapacity capacity)
  | run {i : Interner} (r : Request) : Reachable i → Reachable (r.run i).2

/-- The tables are inverse to each other. -/
def Coherent (i : Interner) : Prop :=
  ∀ text n, i.find? text = some n ↔ i.lookup? n = some text

namespace Coherent

variable {i : Interner}

theorem name_eq (h : i.Coherent) {m n : Name} {text : String} (hm : i.lookup? m = some text)
    (hn : i.lookup? n = some text) : m = n := by
  have hm' := (h text m).mpr hm
  rw [(h text n).mpr hn] at hm'
  exact (Option.some.inj hm').symm

theorem of_no_texts {i : Interner} (hn : ∀ text, i.find? text = none) (ht : i.texts = #[]) :
    i.Coherent := by
  intro text n
  rw [hn, lookup?, ht]
  simp

theorem empty : Interner.empty.Coherent :=
  of_no_texts (fun _ => Std.HashMap.getElem?_empty) rfl

theorem withCapacity (capacity : Nat) : (Interner.withCapacity capacity).Coherent :=
  of_no_texts (fun _ => Std.HashMap.getElem?_emptyWithCapacity) rfl

/-- A name's text is where it was, or the name is the new one. -/
theorem lookup?_push {n : Name} {new text : String} :
    (i.texts.push new)[n.index]? = some text ↔
      i.lookup? n = some text ∨ n.index = i.texts.size ∧ new = text := by
  rw [Array.getElem?_push]
  split
  · next hn => simp [hn, lookup?]
  · next hn => simp [hn, lookup?]

theorem insert (h : i.Coherent) {new : String} (hnew : i.find? new = none) :
    (Interner.insert new i).2.Coherent := by
  unfold Interner.insert
  split
  · next hs =>
    intro text n
    show (i.names.insert new _)[text]? = some n ↔ (i.texts.push new)[n.index]? = some text
    rw [lookup?_push, Std.HashMap.getElem?_insert]
    by_cases ht : new = text
    · subst ht
      have hl : i.lookup? n ≠ some new := fun hl => by
        rw [(h new n).mpr hl] at hnew
        cases hnew
      simp only [beq_self_eq_true, if_true, Option.some.injEq, hl, false_or, and_true]
      constructor
      · rintro rfl
        exact UInt32.toNat_ofNatLT
      · intro hn
        obtain ⟨raw⟩ := n
        exact congrArg Name.mk (UInt32.toNat_inj.mp (UInt32.toNat_ofNatLT.trans hn.symm))
    · simp only [beq_iff_eq, ht, if_false, and_false, or_false]
      exact h text n
  · exact h

theorem tryIntern (h : i.Coherent) (text : String) : (Interner.tryIntern text i).2.Coherent := by
  unfold Interner.tryIntern
  split
  · exact h
  · next hf => exact h.insert hf

end Coherent

theorem ofIntern_demand (answer : Interner → Except Error Name × Interner) (i : Interner) :
    (Reply.ofIntern (demand answer i)).2 = (answer i).2 := by
  unfold demand
  split <;> next h => rw [h]; rfl

/-- One request keeps the tables coherent. -/
theorem Coherent.run {i : Interner} (h : i.Coherent) (r : Request) : (r.run i).2.Coherent := by
  cases r with
  | intern text =>
    rw [Request.run, Interner.intern, ofIntern_demand]
    exact h.tryIntern text
  | tryIntern text =>
    have ht := h.tryIntern text
    rw [Request.run]
    split <;> next he => rw [he] at ht; exact ht
  | internOwned text =>
    rw [Request.run, Interner.internOwned]
    split
    · exact h
    · next hf =>
      rw [ofIntern_demand]
      exact h.insert hf
  | lookup n =>
    rw [Request.run]
    split <;> exact h
  | find n => exact h
  | list =>
    rw [Request.run]
    split <;> exact h

/-- The interner that has met one text. -/
def single (text : String) : Interner := ⟨(∅ : Std.HashMap String Name).insert text ⟨0⟩, #[text]⟩

theorem Reachable.single (text : String) : Reachable (.single text) := by
  have h := Reachable.run (.intern text) .empty
  have hf : Interner.empty.find? text = none := Std.HashMap.getElem?_empty
  rw [Request.run, Interner.intern, ofIntern_demand, Interner.tryIntern, hf] at h
  exact h

theorem Reachable.coherent {i : Interner} (h : i.Reachable) : i.Coherent := by
  induction h with
  | empty => exact .empty
  | withCapacity capacity => exact .withCapacity capacity
  | run r _ ih => exact ih.run r

end Treeprint.Interner
