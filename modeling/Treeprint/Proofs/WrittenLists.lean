import Treeprint.Proofs.Equality

/-!
# The chains of written lists

Elements and rest of a chain say what list it stands for, and `Chain.make` builds a chain for every
list. Making a chain and looking at it are inverse as far as they can be: what was put in is seen
again, and the chain that is made from what is seen is the one that was looked at exactly if it has
the shape of a written list (`Chain.Written`), that is elements up to a terminator, or up to a node
without value with one last value behind it. The other chains stand for lists too, but for lists
that are made with another chain: one that ends in its last element, one with nothing behind the
node without value, and one that goes on behind the rest.

Main statement: `Chain.make_elements_rest_iff`.
-/

namespace Treeprint.Chain

variable {α : Type}

/-- Elements up to a terminator, or up to a node without value with one last value behind it. -/
def Written (c : Chain α) : Prop :=
  ∃ k, c.shapes = List.replicate k .element ++ [.terminator] ∨
    c.shapes = List.replicate k .element ++ [.rest, .last]

theorem written_element {v : α} {t : Chain α} : (element v t).Written ↔ t.Written := by
  constructor
  · rintro ⟨k, h⟩
    cases k with
    | zero => simp [shapes] at h
    | succ k => exact ⟨k, by simpa [shapes, List.replicate_succ] using h⟩
  · rintro ⟨k, h⟩
    exact ⟨k + 1, by simpa [shapes, List.replicate_succ] using h⟩

theorem not_written_last (v : α) : ¬ (last v).Written := by
  rintro ⟨k, h⟩
  cases k <;> simp [shapes, List.replicate_succ] at h

/-- Behind a node without value there is nothing but the rest. -/
theorem exists_of_written_rest {t : Chain α} (h : (rest t).Written) : ∃ v, t = last v := by
  obtain ⟨k, h⟩ := h
  have ht : t.shapes = [.last] := by
    cases k with
    | zero => simpa [shapes] using h
    | succ k => simp [shapes, List.replicate_succ] at h
  cases t with
  | last v => exact ⟨v, rfl⟩
  | element v t | rest t | terminator => simp [shapes] at ht

theorem written_make (es : List α) (r : Option α) : (make es r).Written := by
  induction es with
  | nil => cases r <;> exact ⟨0, by simp [make, restCapture, shapes]⟩
  | cons e es ih => exact written_element.mpr ih

/-- A chain of a written list is made once more from its elements and its rest. -/
theorem Written.make_eq {c : Chain α} (h : c.Written) : make c.elements c.rest? = c := by
  induction c with
  | element v t ih => exact congrArg (element v) (ih (written_element.mp h))
  | last v => exact absurd h (not_written_last v)
  | rest t =>
    obtain ⟨v, rfl⟩ := exists_of_written_rest h
    rfl
  | terminator => rfl

theorem make_eq_iff_written {c : Chain α} : make c.elements c.rest? = c ↔ c.Written :=
  ⟨fun h => h ▸ written_make c.elements c.rest?, Written.make_eq⟩

theorem make_inj {es es' : List α} {r r' : Option α} :
    make es r = make es' r' ↔ es = es' ∧ r = r' := by
  refine ⟨fun h => ⟨?_, ?_⟩, fun ⟨he, hr⟩ => he ▸ hr ▸ rfl⟩
  · rw [← elements_make es r, h, elements_make]
  · rw [← rest?_make es r, h, rest?_make]

/-- What a chain is made of is seen again as its elements and its rest. A chain is the one made of
what is seen exactly if it is that of a written list, also by the comparison of trees; so no two
lists make the same chain, and the chains of written lists are those that are made. -/
theorem make_elements_rest_iff (α : Type) :
    (∀ (es : List α) (r : Option α), (make es r).elements = es ∧ (make es r).rest? = r) ∧
    (∀ c : Chain α, make c.elements c.rest? = c ↔ c.Written) ∧
    (∀ (es es' : List α) (r r' : Option α), make es r = make es' r' ↔ es = es' ∧ r = r') ∧
    (∀ c : Chain α, (∃ es r, make es r = c) ↔ c.Written) ∧
    (∀ c : Chain Expr, Node.exprChain (make c.elements c.rest?) == .exprChain c ↔ c.Written) ∧
    ∀ c : Chain Pattern,
      Node.patternChain (make c.elements c.rest?) == .patternChain c ↔ c.Written := by
  refine ⟨fun es r => ⟨elements_make es r, rest?_make es r⟩, fun _ => make_eq_iff_written,
    fun _ _ _ _ => make_inj, fun c => ⟨?_, fun h => ⟨_, _, h.make_eq⟩⟩, fun c => ?_, fun c => ?_⟩
  · rintro ⟨es, r, rfl⟩
    exact written_make es r
  · rw [← make_eq_iff_written, ← Node.exprChain.injEq]
    exact Node.decides_beq _ _
  · rw [← make_eq_iff_written, ← Node.patternChain.injEq]
    exact Node.decides_beq _ _

/-- The look-alikes: one that ends in its last element, one with nothing behind the node without
value, and one that goes on behind the rest. -/
example : ∀ c ∈ [element 1 (last 2), rest terminator, rest (element 1 terminator)],
    make c.elements c.rest? ≠ c := by
  decide

end Treeprint.Chain
