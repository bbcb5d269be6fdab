import Mathlib.Data.List.Forall2
import Treeprint.Interner.Shared
import Treeprint.Proofs.Interner.Order

/-!
# Workers on one interner

A worker reads, and writes only if it has not found its text; what it read may be out of date by
then. The write looks once more, so it never stores a text twice. A read changes nothing, hence the
store is always the one that an interner of its own comes to when it is given the texts of the
writes, one after the other (`Shared.store_run`).

At each step a worker has a name for each text that it is done with, and the store knows the name by
that text (`Worker.Served`). A step of the worker keeps this (`Worker.Served.step`), and so does a
step of any other worker, because names keep their texts. So it holds under every schedule
(`Shared.Sound.run`).

Main statement: under every schedule names and texts go together, for all workers alike, as in one
sequential run (`Shared.run_linearizable`).
-/

namespace Treeprint.Interner

/-! ## The store -/

/-- The text that the worker's next step writes. -/
def Worker.write? (w : Worker) : Option String := if w.missed then w.pending.head? else none

namespace Shared

/-- The texts that are written under a schedule, in order. -/
def writes (s : Shared) : List Nat → List String
  | [] => []
  | k :: ks => (s.workers[k]?.bind Worker.write?).toList ++ (s.step k).writes ks

/-- The calls that are answered: texts of the jobs with the names received for them. -/
def answers (jobs : List (List String)) (s : Shared) : List (String × Name) :=
  (jobs.zip s.workers).flatMap fun (job, w) => job.zip w.names

end Shared

theorem Worker.store_step (w : Worker) (store : Interner) :
    (w.step store).2 = store.after (w.write?.toList.map .intern) := by
  obtain ⟨pending, missed, names⟩ := w
  rcases pending with _ | ⟨text, rest⟩
  · cases missed <;> rfl
  · cases missed with
    | false =>
      simp only [step]
      split <;> rfl
    | true =>
      show _ = (Reply.ofIntern (intern text store)).2
      simp only [step]
      split <;> next h => rw [h]; rfl

namespace Shared

theorem store_step (s : Shared) (k : Nat) :
    (s.step k).store = s.store.after ((s.workers[k]?.bind Worker.write?).toList.map .intern) := by
  rcases h : s.workers[k]? with _ | w
  · simp only [step, h]
    rfl
  · simp only [step, h]
    exact w.store_step s.store

/-- The store is that of one sequential run over the texts that were written. -/
theorem store_run (schedule : List Nat) (s : Shared) :
    (s.run schedule).store = s.store.after ((s.writes schedule).map .intern) := by
  induction schedule generalizing s with
  | nil => rfl
  | cons k ks ih =>
    show ((s.step k).run ks).store = _
    rw [ih, store_step, writes, List.map_append, after_append]

end Shared

/-! ## One worker -/

/-- The worker has a name for each text of its job that it is done with, and each stands for its
text. -/
def Worker.Served (store : Interner) (job : List String) (w : Worker) : Prop :=
  ∃ done, job = done ++ w.pending ∧
    List.Forall₂ (fun text n => store.lookup? n = some text) done w.names

namespace Worker.Served

variable {store : Interner} {job : List String} {w : Worker}

theorem start (store : Interner) (job : List String) : (Worker.start job).Served store job :=
  ⟨[], rfl, .nil⟩

theorem after (h : w.Served store job) (rs : List Request) : w.Served (store.after rs) job := by
  obtain ⟨done, hjob, hnames⟩ := h
  exact ⟨done, hjob, hnames.imp fun _ _ hn => lookup?_after hn rs⟩

theorem receive (h : w.Served store job) {text : String} {rest : List String}
    (hw : w.pending = text :: rest) {n : Name} (hn : store.lookup? n = some text) :
    (w.receive n).Served store job := by
  obtain ⟨done, hjob, hnames⟩ := h
  refine ⟨done ++ [text], ?_, List.rel_append hnames (.cons hn .nil)⟩
  simp [Worker.receive, hjob, hw]

/-- A step of the worker itself. A write does not fail, because there is a handle for its text. -/
theorem step (h : w.Served store job) (hs : store.Reachable)
    (hroom : ∀ text ∈ job, text ∈ store.texts.toList ∨ store.size < Name.count) :
    (w.step store).1.Served (w.step store).2 job := by
  have hlater := h.after (w.write?.toList.map .intern)
  rw [w.store_step store]
  obtain ⟨pending, missed, names⟩ := w
  rcases pending with _ | ⟨text, rest⟩
  · cases missed <;> exact hlater
  · cases missed with
    | false =>
      simp only [Worker.step]
      split
      · next n hf => exact hlater.receive rfl ((hs.coherent text n).mp hf)
      · exact hlater
    | true =>
      have ht : text ∈ job := by
        obtain ⟨done, hjob, -⟩ := h
        simp [hjob]
      obtain ⟨n, hn, hl, -⟩ := hs.tryIntern_ok (hroom text ht)
      have hi : intern text store = .ok n (tryIntern text store).2 := intern_eq hn
      have hstore : store.after [.intern text] = (tryIntern text store).2 := by
        rw [after_cons, state_run]
        rfl
      simp only [Worker.step, hi]
      exact hlater.receive rfl (hstore ▸ hl)

/-- No call is skipped: the pending texts are those behind the ones that have a name. -/
theorem pending_eq (h : w.Served store job) : w.pending = job.drop w.names.length := by
  obtain ⟨done, hjob, hnames⟩ := h
  rw [hjob, ← hnames.length_eq, List.drop_left]

theorem lookup? (h : w.Served store job) {text : String} {n : Name}
    (hm : (text, n) ∈ job.zip w.names) : store.lookup? n = some text := by
  obtain ⟨done, hjob, hnames⟩ := h
  have hz : job.zip w.names = done.zip w.names := by
    have hz : (done ++ w.pending).zip (w.names ++ []) = _ := List.zip_append hnames.length_eq
    simpa [hjob] using hz
  exact (List.forall₂_iff_zip.mp hnames).2 (hz ▸ hm)

end Worker.Served

/-! ## All workers -/

namespace Shared

/-- All workers are served from a reachable store, and the texts are among `all`. -/
structure Sound (all : List String) (jobs : List (List String)) (s : Shared) : Prop where
  reachable : s.store.Reachable
  within : s.store.texts.toList ⊆ all
  served : List.Forall₂ (fun job w => w.Served s.store job) jobs s.workers

theorem Sound.start {store : Interner} (h : store.Reachable) (jobs : List (List String)) :
    (Shared.start store jobs).Sound (store.texts.toList ++ jobs.flatten) jobs := by
  refine ⟨h, List.subset_append_left _ _, ?_⟩
  rw [Shared.start, List.forall₂_map_right_iff]
  exact List.forall₂_same.mpr fun job _ => .start store job

theorem forall₂_set {α β : Type} {R : α → β → Prop} {as : List α} {bs : List β}
    (h : List.Forall₂ R as bs) {k : Nat} {b : β} (hb : ∀ a, as[k]? = some a → R a b) :
    List.Forall₂ R as (bs.set k b) := by
  induction h generalizing k with
  | nil => exact .nil
  | cons hab h ih =>
    cases k with
    | zero => exact .cons (hb _ rfl) h
    | succ k => exact .cons hab (ih hb)

theorem mem_job_of_write? {store : Interner} {job : List String} {w : Worker}
    (h : w.Served store job) {text : String} (hw : w.write? = some text) : text ∈ job := by
  obtain ⟨done, rfl, -⟩ := h
  unfold Worker.write? at hw
  split at hw
  · exact List.mem_append_right _ (List.mem_of_mem_head? hw)
  · cases hw

/-- One step of any worker. -/
theorem Sound.step {all : List String} {jobs : List (List String)} {s : Shared}
    (h : s.Sound all jobs) (hjobs : ∀ job ∈ jobs, job ⊆ all)
    (hall : all.eraseDups.length ≤ Name.count) (k : Nat) : (s.step k).Sound all jobs := by
  rcases hw : s.workers[k]? with _ | w
  · simpa only [Shared.step, hw] using h
  · have hstore : (s.step k).store = s.store.after (w.write?.toList.map .intern) := by
      rw [store_step, hw]
      rfl
    have hk : k < jobs.length := by
      rw [h.served.length_eq]
      exact (List.getElem?_eq_some_iff.mp hw).1
    have hjob : jobs[k] ⊆ all := hjobs _ (List.getElem_mem hk)
    have hserved : w.Served s.store jobs[k] :=
      (List.forall₂_iff_zip.mp h.served).2 (List.mem_of_getElem?
        (List.getElem?_zip_eq_some.mpr ⟨List.getElem?_eq_getElem hk, hw⟩))
    refine ⟨hstore ▸ h.reachable.after _, ?_, ?_⟩
    · rw [hstore]
      rcases hwrite : w.write? with _ | text
      · exact h.within
      · have hm : text ∈ all := hjob (mem_job_of_write? hserved hwrite)
        refine List.Subset.trans (texts_run_subset (.intern text) s.store) ?_
        exact List.append_subset.mpr ⟨h.within, List.cons_subset.mpr ⟨hm, List.nil_subset _⟩⟩
    · have hothers := h.served.imp fun job v hv => hv.after (w.write?.toList.map .intern)
      have hself := hserved.step h.reachable fun text ht => h.reachable.room hall h.within (hjob ht)
      rw [w.store_step] at hself
      simp only [hstore]
      simp only [Shared.step, hw]
      refine forall₂_set hothers fun job hj => ?_
      rw [List.getElem?_eq_getElem hk, Option.some.injEq] at hj
      exact hj ▸ hself

/-- A whole run, under any schedule. -/
theorem Sound.run {all : List String} {jobs : List (List String)} {s : Shared}
    (h : s.Sound all jobs) (hjobs : ∀ job ∈ jobs, job ⊆ all)
    (hall : all.eraseDups.length ≤ Name.count) (schedule : List Nat) :
    (s.run schedule).Sound all jobs := by
  induction schedule generalizing s with
  | nil => exact h
  | cons k ks ih => exact ih (h.step hjobs hall k)

theorem Sound.lookup?_of_mem_answers {all : List String} {jobs : List (List String)} {s : Shared}
    (h : s.Sound all jobs) {text : String} {n : Name} (hc : (text, n) ∈ s.answers jobs) :
    s.store.lookup? n = some text := by
  obtain ⟨⟨job, w⟩, hz, hm⟩ := List.mem_flatMap.mp hc
  exact ((List.forall₂_iff_zip.mp h.served).2 hz).lookup? hm

/-- Under every schedule, with handles for all texts: each answer stands for its text from then on,
two answers are the same name exactly if they are to the same text, each worker has answers to all
that it is done with, no text is stored twice, and the store is that of one sequential run over the
texts that were written. -/
theorem run_linearizable {store : Interner} (hstore : store.Reachable) (jobs : List (List String))
    (hroom : (store.texts.toList ++ jobs.flatten).eraseDups.length ≤ Name.count)
    (schedule : List Nat) :
    let s := (Shared.start store jobs).run schedule
    (∀ c ∈ s.answers jobs, ∀ later, (s.run later).store.lookup c.2 = .ok c.1) ∧
    (∀ c ∈ s.answers jobs, ∀ d ∈ s.answers jobs, c.2 = d.2 ↔ c.1 = d.1) ∧
    List.Forall₂ (fun job w => w.pending = job.drop w.names.length) jobs s.workers ∧
    s.store.texts.toList.Nodup ∧
    s.store = store.after (((Shared.start store jobs).writes schedule).map .intern) := by
  intro s
  have hjobs : ∀ job ∈ jobs, job ⊆ store.texts.toList ++ jobs.flatten := fun job hjob text ht =>
    List.mem_append_right _ (List.mem_flatten.mpr ⟨job, hjob, ht⟩)
  have hs : s.Sound _ jobs := (Sound.start hstore jobs).run hjobs hroom schedule
  refine ⟨?_, ?_, hs.served.imp fun job w h => h.pending_eq, hs.reachable.nodup,
    store_run schedule _⟩
  · rintro ⟨text, n⟩ hc later
    rw [lookup_eq_ok_iff, store_run]
    exact lookup?_after (hs.lookup?_of_mem_answers hc) _
  · rintro ⟨t, m⟩ hc ⟨u, n⟩ hd
    have hm := hs.lookup?_of_mem_answers hc
    have hn := hs.lookup?_of_mem_answers hd
    constructor
    · rintro rfl
      exact Option.some.inj (hm.symm.trans hn)
    · rintro rfl
      exact hs.reachable.coherent.name_eq hm hn

/-- Two workers miss the same text, and both write it. -/
theorem run_linearizable_race :
    let jobs := [["a", "b"], ["a"]]
    let s := (Shared.start .empty jobs).run [0, 1, 1, 0]
    (Interner.empty.texts.toList ++ jobs.flatten).eraseDups.length ≤ Name.count ∧
      (Shared.start .empty jobs).writes [0, 1, 1, 0] = ["a", "a"] ∧
      s.answers jobs = [("a", ⟨0⟩), ("a", ⟨0⟩)] ∧
      (∀ c ∈ s.answers jobs, ∀ later, (s.run later).store.lookup c.2 = .ok c.1) ∧
      s.store.texts.toList.Nodup := by
  intro jobs s
  have hroom : (Interner.empty.texts.toList ++ jobs.flatten).eraseDups.length ≤ Name.count := by
    decide
  have hwrites : (Shared.start .empty jobs).writes [0, 1, 1, 0] = ["a", "a"] := by
    simp [jobs, start, writes, step, Worker.start, Worker.write?, Worker.step, Worker.receive,
      intern, demand, tryIntern, insert, find?, empty, Name.count]
  have hanswers : s.answers jobs = [("a", ⟨0⟩), ("a", ⟨0⟩)] := by
    simp [s, jobs, start, answers, run, step, Worker.start, Worker.step, Worker.receive,
      intern, demand, tryIntern, insert, find?, empty, Name.count]
  obtain ⟨hkeeps, -, -, hnodup, -⟩ := run_linearizable .empty jobs hroom [0, 1, 1, 0]
  exact ⟨hroom, hwrites, hanswers, hkeeps, hnodup⟩

end Shared

end Treeprint.Interner
