/-!
# Chains

The elements of a list, `[a, b :: rest]`, are a chain of nodes. A node has an optional value and an
optional tail, which makes four shapes: an element with more after it, a last element, a node
without value whose tail holds the rest, and a terminator, which ends the list. Chains of any mix
of shapes can be built; `make` builds the ones that a list as written stands for.
-/

namespace Treeprint

inductive Chain (α : Type) where
  /-- A value and what follows it. -/
  | element (value : α) (tail : Chain α)
  /-- A value with nothing after it. -/
  | last (value : α)
  /-- No value: the value of the tail's first node is the rest of the list. -/
  | rest (tail : Chain α)
  /-- No value and no tail. -/
  | terminator
  deriving DecidableEq, Repr, Inhabited

inductive Shape where
  | element
  | last
  | rest
  | terminator
  deriving DecidableEq, Repr

def Shape.label : Shape → String
  | .element => "Element"
  | .last => "Last"
  | .rest => "Rest"
  | .terminator => "Terminator"

namespace Chain

variable {α β : Type}

def value? : Chain α → Option α
  | .element v _ => some v
  | .last v => some v
  | .rest _ => none
  | .terminator => none

def tail? : Chain α → Option (Chain α)
  | .element _ t => some t
  | .last _ => none
  | .rest t => some t
  | .terminator => none

def ofParts : Option α → Option (Chain α) → Chain α
  | some v, some t => .element v t
  | some v, none => .last v
  | none, some t => .rest t
  | none, none => .terminator

def toParts (c : Chain α) : Option α × Option (Chain α) := (c.value?, c.tail?)

@[simp] theorem value?_ofParts (v : Option α) (t : Option (Chain α)) :
    (ofParts v t).value? = v := by
  cases v <;> cases t <;> rfl

@[simp] theorem tail?_ofParts (v : Option α) (t : Option (Chain α)) :
    (ofParts v t).tail? = t := by
  cases v <;> cases t <;> rfl

@[simp] theorem ofParts_parts (c : Chain α) : ofParts c.value? c.tail? = c := by
  cases c <;> rfl

def shape : Chain α → Shape
  | .element _ _ => .element
  | .last _ => .last
  | .rest _ => .rest
  | .terminator => .terminator

def shapes : Chain α → List Shape
  | .element _ t => .element :: t.shapes
  | .last _ => [.last]
  | .rest t => .rest :: t.shapes
  | .terminator => [.terminator]

def isTerminator (c : Chain α) : Bool := c.shape = .terminator

def slots : Chain α → List (Option α)
  | .element v t => some v :: t.slots
  | .last v => [some v]
  | .rest t => none :: t.slots
  | .terminator => [none]

/-- The chain with the given value slots, one per node. There is at least one. -/
def ofSlots (first : Option α) : List (Option α) → Chain α
  | [] => ofParts first none
  | next :: more => ofParts first (some (ofSlots next more))

theorem slots_ofParts_none (v : Option α) : (ofParts v none).slots = [v] := by
  cases v <;> rfl

theorem slots_ofParts_some (v : Option α) (t : Chain α) :
    (ofParts v (some t)).slots = v :: t.slots := by
  cases v <;> rfl

/-- A chain has exactly the slots that it was built from. -/
theorem slots_ofSlots (first : Option α) (more : List (Option α)) :
    (ofSlots first more).slots = first :: more := by
  induction more generalizing first with
  | nil => exact slots_ofParts_none first
  | cons next more ih => rw [ofSlots, slots_ofParts_some, ih]

/-- A node without value whose tail is the given value alone. -/
def restCapture (v : α) : Chain α := .rest (.last v)

/-- The chain of `[e₀, e₁, … :: rest]`. -/
def make (elements : List α) (rest : Option α) : Chain α :=
  elements.foldr .element (match rest with
    | some v => restCapture v
    | none => .terminator)

/-- The values up to the first node without one. -/
def elements : Chain α → List α
  | .element v t => v :: t.elements
  | .last v => [v]
  | .rest _ => []
  | .terminator => []

/-- The value after the first node that has a tail and no value. -/
def rest? : Chain α → Option α
  | .element _ t => t.rest?
  | .last _ => none
  | .rest t => t.value?
  | .terminator => none

theorem mem_slots_of_value? {c : Chain α} {v : α} (h : c.value? = some v) : some v ∈ c.slots := by
  cases c <;> simp_all [value?, slots]

theorem mem_slots_of_mem_elements {c : Chain α} {v : α} (h : v ∈ c.elements) :
    some v ∈ c.slots := by
  induction c with
  | element w t ih =>
    rcases List.mem_cons.mp h with rfl | h
    · exact List.mem_cons_self
    · exact List.mem_cons_of_mem _ (ih h)
  | last w => simpa [elements, slots] using h
  | rest t => simp [elements] at h
  | terminator => simp [elements] at h

theorem mem_slots_of_rest? {c : Chain α} {v : α} (h : c.rest? = some v) : some v ∈ c.slots := by
  induction c with
  | element w t ih => exact List.mem_cons_of_mem _ (ih h)
  | last w => simp [rest?] at h
  | rest t => exact List.mem_cons_of_mem _ (mem_slots_of_value? h)
  | terminator => simp [rest?] at h

def map (f : α → β) : Chain α → Chain β
  | .element v t => .element (f v) (t.map f)
  | .last v => .last (f v)
  | .rest t => .rest (t.map f)
  | .terminator => .terminator

theorem slots_map (f : α → β) (c : Chain α) : (c.map f).slots = c.slots.map (Option.map f) := by
  induction c <;> simp_all [map, slots]

theorem value?_map (f : α → β) (c : Chain α) : (c.map f).value? = c.value?.map f := by
  cases c <;> rfl

theorem elements_map (f : α → β) (c : Chain α) : (c.map f).elements = c.elements.map f := by
  induction c <;> simp_all [map, elements]

theorem rest?_map (f : α → β) (c : Chain α) : (c.map f).rest? = c.rest?.map f := by
  induction c <;> simp_all [map, rest?, value?_map]

theorem map_make (f : α → β) (es : List α) (r : Option α) :
    (make es r).map f = make (es.map f) (r.map f) := by
  induction es with
  | nil => cases r <;> rfl
  | cons e es ih => exact congrArg (element (f e)) ih

theorem elements_make (es : List α) (r : Option α) : (make es r).elements = es := by
  induction es with
  | nil => cases r <;> rfl
  | cons e es ih => exact congrArg (e :: ·) ih

theorem rest?_make (es : List α) (r : Option α) : (make es r).rest? = r := by
  induction es with
  | nil => cases r <;> rfl
  | cons e es ih => exact ih

end Chain

end Treeprint
