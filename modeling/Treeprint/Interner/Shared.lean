import Treeprint.Interner

/-!
# Interners shared by workers

Several workers intern into one store. A worker interns a text in two steps, each atomic: it reads
the store, and is done if the text is there; otherwise it later writes, which interns the text as
if the read had not happened. Between the two steps other workers may run, so a text that was
absent at the read may be present at the write. A schedule says which worker moves next.
-/

namespace Treeprint.Interner

/-- A worker: the texts it still has to intern, whether it has read the store for the first of
them without finding it, and the names it has received. -/
structure Worker where
  pending : List String
  missed : Bool
  names : List Name
  deriving Repr, Inhabited

namespace Worker

def start (texts : List String) : Worker := ⟨texts, false, []⟩

def receive (w : Worker) (n : Name) : Worker := ⟨w.pending.tail, false, w.names ++ [n]⟩

/-- The worker after a write that found the store full. It gives up. -/
def abandon (w : Worker) : Worker := ⟨[], false, w.names⟩

/-- The next atomic step of a worker. -/
def step (w : Worker) (store : Interner) : Worker × Interner :=
  match w.pending, w.missed with
  | [], _ => (w, store)
  | text :: _, false =>
    match store.find? text with
    | some n => (w.receive n, store)
    | none => ({ w with missed := true }, store)
  | text :: _, true =>
    match intern text store with
    | .ok n store => (w.receive n, store)
    | .error _ store => (w.abandon, store)

end Worker

structure Shared where
  store : Interner
  workers : List Worker

namespace Shared

/-- Workers that have not moved yet, one for each list of texts. -/
def start (store : Interner) (jobs : List (List String)) : Shared := ⟨store, jobs.map Worker.start⟩

/-- The next step of worker `k`, if there is such a worker. -/
def step (s : Shared) (k : Nat) : Shared :=
  match s.workers[k]? with
  | none => s
  | some w =>
    let (w, store) := w.step s.store
    ⟨store, s.workers.set k w⟩

def run (s : Shared) (schedule : List Nat) : Shared := schedule.foldl step s

def finished (s : Shared) : Bool := s.workers.all (·.pending.isEmpty)

/-- A schedule that lets each of `workers` workers move once per round. -/
def roundRobin (workers rounds : Nat) : List Nat :=
  (List.replicate rounds (List.range workers)).flatten

/-- Lets `workers` workers intern the same texts, two rounds per text. -/
def internParallel (store : Interner) (workers : Nat) (texts : List String) : Shared :=
  (start store (List.replicate workers texts)).run (roundRobin workers (2 * texts.length))

end Shared

end Treeprint.Interner
