import Mathlib.Data.List.Forall2
import Treeprint.Proofs.Interner.Linearizable

/-!
# Workers with the same job

Which name a new text gets depends on when it is written, so in general it depends on the schedule.
Workers that all intern the same list cannot get ahead of each other in this way: the store is
always the one that a single run comes to after some of the list, and no worker is further along
than that (`Shared.Along`). The worker that is furthest along extends the store by the next text of
the list, as the single run would; for all others their next text is there already
(`tryIntern_withTexts_take`). A step keeps this (`Shared.Along.step`), hence so does a run
(`Shared.Along.run`).

A text takes a worker two turns at most, so a worker that is given turns enough comes to the end
of its job (`Shared.finished_of_count`).

Main statement: under every schedule every worker receives the names of a single run, and the store
is that of the single run in the end (`Shared.run_same_job`).
-/

namespace Treeprint.Interner

/-! ## A single run -/

/-- The interner after it has met the texts one by one. -/
def withTexts (i : Interner) (texts : List String) : Interner := i.after (texts.map .intern)

theorem withTexts_append (i : Interner) (xs ys : List String) :
    i.withTexts (xs ++ ys) = (i.withTexts xs).withTexts ys := by
  rw [withTexts, List.map_append, after_append]
  rfl

theorem withTexts_singleton (i : Interner) (text : String) :
    i.withTexts [text] = (tryIntern text i).2 := by
  show (Request.run (.intern text) i).2 = _
  rw [state_run]
  rfl

theorem Reachable.tryIntern_of_mem {i : Interner} (hi : i.Reachable) {text : String}
    (ht : text ∈ i.texts.toList) : (tryIntern text i).2 = i := by
  obtain ⟨n, hn⟩ := hi.mem_texts_iff.mp ht
  rw [tryIntern, hn]

/-- With handles for all texts, a single run gives each text a name that stands for it. -/
theorem Reachable.internAll_ok {i : Interner} (hi : i.Reachable) {all : List String}
    (hall : all.eraseDups.length ≤ Name.count) (hmet : i.texts.toList ⊆ all) {texts : List String}
    (htexts : texts ⊆ all) :
    ∃ names, internAll texts i = .ok names (i.withTexts texts) ∧
      List.Forall₂ (fun text n => (i.withTexts texts).lookup? n = some text) texts names := by
  induction texts generalizing i with
  | nil => exact ⟨[], rfl, .nil⟩
  | cons text rest ih =>
    obtain ⟨htext, hrest⟩ := List.cons_subset.mp htexts
    obtain ⟨n, hn, hl, -⟩ := hi.tryIntern_ok (hi.room hall hmet htext)
    have hstate : (Request.run (.intern text) i).2 = (tryIntern text i).2 :=
      withTexts_singleton i text
    have hmet' : (tryIntern text i).2.texts.toList ⊆ all := by
      rw [← hstate]
      refine List.Subset.trans (texts_run_subset (.intern text) i) ?_
      exact List.append_subset.mpr ⟨hmet, List.cons_subset.mpr ⟨htext, List.nil_subset _⟩⟩
    have hi' : (tryIntern text i).2.Reachable := hstate ▸ .run (.intern text) hi
    obtain ⟨names, hnames, hlookup⟩ := ih hi' hmet' hrest
    have hfinal : i.withTexts (text :: rest) = (tryIntern text i).2.withTexts rest := by
      rw [← withTexts_singleton, ← withTexts_append]
      rfl
    refine ⟨n :: names, ?_, ?_⟩
    · show EStateM.bind (intern text) _ i = _
      simp only [EStateM.bind, intern_eq hn, hfinal]
      show EStateM.bind (internAll rest) _ _ = _
      simp only [EStateM.bind, hnames]
      rfl
    · rw [hfinal]
      exact .cons (lookup?_after hl _) hlookup

/-- The next text of the list, for someone who is no further along than the store: the store is
brought as far as that text, or it was there before. -/
theorem Reachable.tryIntern_withTexts_take {i : Interner} (hi : i.Reachable) {all : List String}
    (hall : all.eraseDups.length ≤ Name.count) (hmet : i.texts.toList ⊆ all)
    {done rest : List String} {text : String} (htexts : done ++ text :: rest ⊆ all) {m : Nat}
    (hm : done.length ≤ m) :
    (tryIntern text (i.withTexts ((done ++ text :: rest).take m))).2 =
      i.withTexts ((done ++ text :: rest).take (max m (done.length + 1))) := by
  rcases Nat.eq_or_lt_of_le hm with rfl | hlt
  · have htake : (done ++ text :: rest).take (done.length + 1) = done ++ [text] := by
      rw [List.take_length_add_append, List.take_succ_cons, List.take_zero]
    rw [Nat.max_eq_right (Nat.le_succ _), List.take_left, htake, withTexts_append,
      withTexts_singleton]
  · rw [Nat.max_eq_left hlt]
    have hsub : (done ++ text :: rest).take m ⊆ all :=
      List.Subset.trans (List.take_subset _ _) htexts
    obtain ⟨names, -, hlookup⟩ := hi.internAll_ok hall hmet hsub
    have hthere := ((List.forall₂_and_left _ names).mp (hlookup.imp fun _ n hn =>
      ⟨List.mem_of_getElem? (lookup?_eq_getElem? _ n ▸ hn), hn⟩)).1
    refine (hi.after _).tryIntern_of_mem (hthere text ?_)
    refine List.mem_take_iff_getElem.mpr ⟨done.length, by simp; omega, by simp⟩

/-! ## Progress of the workers -/

/-- A step gives the worker the answer to its next text, as one sequential request would, or it
gives no answer and leaves the store as it is. -/
theorem Worker.step_cases (w : Worker) (store : Interner) :
    (∃ text rest n, w.pending = text :: rest ∧
      w.step store = (w.receive n, (tryIntern text store).2)) ∨
    ((w.step store).1.names = w.names ∧ (w.step store).2 = store) := by
  obtain ⟨pending, missed, names⟩ := w
  rcases pending with _ | ⟨text, rest⟩
  · cases missed <;> exact .inr ⟨rfl, rfl⟩
  · rcases tryIntern_cases text store with ⟨n, hf, he⟩ | ⟨n, hf, -, -, he⟩ | ⟨hf, -, he⟩
    · refine .inl ⟨text, rest, n, rfl, ?_⟩
      cases missed <;> simp [step, hf, intern, demand, he]
    · cases missed with
      | false => exact .inr (by simp [step, hf])
      | true => exact .inl ⟨text, rest, n, rfl, by simp [step, intern, demand, he]⟩
    · right
      cases missed <;> simp [step, hf, intern, demand, he, abandon]

/-- The turns that the worker needs at most: two for each text, less one that it has had. -/
def Worker.turns (w : Worker) : Nat := 2 * w.pending.length - w.missed.toNat

theorem Worker.turns_step (w : Worker) (store : Interner) :
    (w.step store).1.turns ≤ w.turns - 1 := by
  obtain ⟨pending, missed, names⟩ := w
  rcases pending with _ | ⟨text, rest⟩
  · cases missed <;> simp [step, turns]
  · cases missed <;> simp only [step] <;> split <;>
      simp [turns, receive, abandon, Nat.mul_add]

/-- A worker at the end of its job has received a name for each text. -/
theorem Worker.Served.length_names {store : Interner} {job : List String} {w : Worker}
    (h : w.Served store job) (hdone : w.pending = []) : w.names.length = job.length := by
  obtain ⟨done, hjob, hserved⟩ := h
  rw [hjob, hdone, List.append_nil, hserved.length_eq]

namespace Shared

/-- The store is that of a single run over the first `m` texts of the list, and no worker has
received more names than that. -/
structure Along (start : Interner) (texts : List String) (m : Nat) (s : Shared) : Prop where
  store : s.store = start.withTexts (texts.take m)
  behind : ∀ w ∈ s.workers, w.names.length ≤ m

theorem Sound.served_same {all texts : List String} {workers : Nat} {s : Shared}
    (h : s.Sound all (List.replicate workers texts)) {w : Worker} (hw : w ∈ s.workers) :
    w.Served s.store texts := by
  obtain ⟨k, hk, rfl⟩ := List.getElem_of_mem hw
  have hlen : workers = s.workers.length := by simpa using h.served.length_eq
  have hz : ((List.replicate workers texts).zip s.workers)[k]? = some (texts, s.workers[k]) := by
    simp [hlen, hk]
  exact (List.forall₂_iff_zip.mp h.served).2 (List.mem_of_getElem? hz)

/-- The names that a worker has received are the first ones of a single run over the list, as in the
store of that run a text has only one name. -/
theorem Along.names_eq_take {start : Interner} (hstart : start.Reachable) {texts : List String}
    {m : Nat} {s : Shared} (h : s.Along start texts m) {names : List Name} {w : Worker}
    (hnames : List.Forall₂ (fun text n => (start.withTexts texts).lookup? n = some text)
      texts names) (hw : w.Served s.store texts) : w.names = names.take w.names.length := by
  obtain ⟨done, hjob, hserved⟩ := hw
  have hfinal : start.withTexts texts = s.store.withTexts (texts.drop m) := by
    rw [h.store, ← withTexts_append, List.take_append_drop]
  have hlookup : List.Forall₂ (fun text n => (start.withTexts texts).lookup? n = some text)
      done w.names := hserved.imp fun _ _ hn => hfinal ▸ lookup?_after hn _
  have hunique : Relator.RightUnique fun text n => (start.withTexts texts).lookup? n = some text :=
    fun _ _ _ hm hn => (hstart.after _).coherent.name_eq hm hn
  have htake := List.forall₂_take done.length hnames
  rw [hjob, List.take_left, hserved.length_eq] at htake
  exact hunique.forall₂ hlookup (hjob ▸ htake)

/-- One step of any worker. -/
theorem Along.step {start : Interner} (hstart : start.Reachable) {all texts : List String}
    (hall : all.eraseDups.length ≤ Name.count) (hmet : start.texts.toList ⊆ all)
    (htexts : texts ⊆ all) {workers m : Nat} {s : Shared}
    (hs : s.Sound all (List.replicate workers texts)) (h : s.Along start texts m) (k : Nat) :
    ∃ m', (s.step k).Along start texts m' := by
  rcases hw : s.workers[k]? with _ | w
  · exact ⟨m, by simpa only [Shared.step, hw] using h⟩
  · have hmem : w ∈ s.workers := List.mem_of_getElem? hw
    have hstep : s.step k = ⟨(w.step s.store).2, s.workers.set k (w.step s.store).1⟩ := by
      simp only [Shared.step, hw]
    obtain ⟨done, hjob, hnames⟩ := hs.served_same hmem
    have hlen : w.names.length = done.length := hnames.length_eq.symm
    rw [hstep]
    rcases w.step_cases s.store with ⟨text, rest, n, hpending, he⟩ | ⟨hsame, hstore⟩
    · rw [hpending] at hjob
      subst hjob
      refine ⟨max m (done.length + 1), ?_, ?_⟩
      · rw [he, h.store]
        exact hstart.tryIntern_withTexts_take hall hmet htexts (hlen ▸ h.behind w hmem)
      · intro v hv
        rcases List.mem_or_eq_of_mem_set hv with hv | rfl
        · exact Nat.le_trans (h.behind v hv) (Nat.le_max_left _ _)
        · rw [he]
          show (w.names ++ [n]).length ≤ max m (done.length + 1)
          rw [List.length_append, hlen]
          exact Nat.le_max_right m _
    · refine ⟨m, hstore.trans h.store, ?_⟩
      intro v hv
      rcases List.mem_or_eq_of_mem_set hv with hv | rfl
      · exact h.behind v hv
      · rw [hsame]
        exact h.behind w hmem

/-- A whole run, under any schedule. -/
theorem Along.run {start : Interner} (hstart : start.Reachable) {all texts : List String}
    (hall : all.eraseDups.length ≤ Name.count) (hmet : start.texts.toList ⊆ all)
    (htexts : texts ⊆ all) {workers m : Nat} {s : Shared}
    (hs : s.Sound all (List.replicate workers texts)) (h : s.Along start texts m)
    (schedule : List Nat) : ∃ m', (s.run schedule).Along start texts m' := by
  induction schedule generalizing s m with
  | nil => exact ⟨m, h⟩
  | cons k ks ih =>
    have hjobs : ∀ job ∈ List.replicate workers texts, job ⊆ all := fun job hjob =>
      (List.eq_of_mem_replicate hjob).symm ▸ htexts
    obtain ⟨m', h'⟩ := h.step hstart hall hmet htexts hs k
    exact ih (hs.step hjobs hall k) h'

/-- A worker's turns are used up one by one, whatever the others do meanwhile. -/
theorem turns_run {s : Shared} {k : Nat} {w : Worker} (hw : s.workers[k]? = some w)
    (schedule : List Nat) : ∃ w', (s.run schedule).workers[k]? = some w' ∧
      w'.turns ≤ w.turns - schedule.count k := by
  induction schedule generalizing s w with
  | nil => exact ⟨w, hw, by simp⟩
  | cons j js ih =>
    by_cases hj : j = k
    · subst hj
      have hk : j < s.workers.length := (List.getElem?_eq_some_iff.mp hw).1
      have hw' : (s.step j).workers[j]? = some (w.step s.store).1 := by
        simp only [step, hw, List.getElem?_set_self hk]
      obtain ⟨w', hrun, hle⟩ := ih hw'
      refine ⟨w', hrun, ?_⟩
      have hturn := w.turns_step s.store
      rw [List.count_cons_self]
      omega
    · have hw' : (s.step j).workers[k]? = some w := by
        rcases hv : s.workers[j]? with _ | v
        · simp only [step, hv, hw]
        · simp only [step, hv, List.getElem?_set_ne hj, hw]
      rw [List.count_cons_of_ne hj]
      exact ih hw'

theorem length_workers_run (schedule : List Nat) (s : Shared) :
    (s.run schedule).workers.length = s.workers.length := by
  induction schedule generalizing s with
  | nil => rfl
  | cons k ks ih =>
    refine (ih (s.step k)).trans ?_
    unfold step
    split <;> simp

/-- Workers that are given turns enough come to the end of their jobs. -/
theorem finished_of_count (store : Interner) {jobs : List (List String)} {schedule : List Nat}
    (h : ∀ k job, jobs[k]? = some job → 2 * job.length ≤ schedule.count k) :
    ((start store jobs).run schedule).finished := by
  rw [finished, List.all_eq_true]
  intro w hw
  obtain ⟨k, hk, rfl⟩ := List.getElem_of_mem hw
  have hjob : k < jobs.length := by simpa [length_workers_run, start] using hk
  have hstart : (start store jobs).workers[k]? = some (Worker.start jobs[k]) := by
    simp [start, hjob]
  obtain ⟨w, hw, hturns⟩ := turns_run hstart schedule
  obtain rfl : _ = w := Option.some.inj ((List.getElem?_eq_getElem hk).symm.trans hw)
  have hcount := h k jobs[k] (List.getElem?_eq_getElem hjob)
  have hmissed := Bool.toNat_le ((start store jobs).run schedule).workers[k].missed
  simp only [Worker.turns, Worker.start, Bool.toNat_false] at hturns
  rw [List.isEmpty_iff_length_eq_zero]
  omega

/-- Workers that intern the same list, under every schedule, with handles for all texts: each worker
receives the names of a single run over the list, from the first to the last; the store is that of
the single run once all are done; and they are all done after two turns per text. -/
theorem run_same_job {store : Interner} (hstore : store.Reachable) {workers : Nat}
    (hworkers : 0 < workers) (texts : List String)
    (hroom : (store.texts.toList ++ texts).eraseDups.length ≤ Name.count) (schedule : List Nat) :
    ∃ names final, internAll texts store = .ok names final ∧
      let s := (Shared.start store (List.replicate workers texts)).run schedule
      s.workers.length = workers ∧
      (∀ w ∈ s.workers, w.names <+: names ∧ (w.pending = [] → w.names = names)) ∧
      (s.finished → s.store = final) ∧
      ((∀ k < workers, 2 * texts.length ≤ schedule.count k) → s.finished) := by
  have hmet : store.texts.toList ⊆ store.texts.toList ++ texts := List.subset_append_left _ _
  have htexts : texts ⊆ store.texts.toList ++ texts := List.subset_append_right _ _
  have hjobs : ∀ job ∈ List.replicate workers texts, job ⊆ store.texts.toList ++ texts :=
    fun job hjob => (List.eq_of_mem_replicate hjob).symm ▸ htexts
  have hstart : (Shared.start store (List.replicate workers texts)).Sound
      (store.texts.toList ++ texts) (List.replicate workers texts) :=
    ⟨hstore, hmet, (Sound.start hstore _).served⟩
  obtain ⟨names, hall, hnames⟩ := hstore.internAll_ok hroom hmet htexts
  refine ⟨names, _, hall, ?_⟩
  intro s
  have hs : s.Sound _ (List.replicate workers texts) := hstart.run hjobs hroom schedule
  obtain ⟨m, halong⟩ : ∃ m, s.Along store texts m :=
    Along.run hstore hroom hmet htexts (m := 0) hstart ⟨rfl, by simp [Shared.start, Worker.start]⟩
      schedule
  have hgiven : ∀ w ∈ s.workers, w.names = names.take w.names.length := fun w hw =>
    halong.names_eq_take hstore hnames (hs.served_same hw)
  have hcomplete : ∀ w ∈ s.workers, w.pending = [] → w.names.length = texts.length :=
    fun w hw => (hs.served_same hw).length_names
  have hlen : s.workers.length = workers := by simp [s, length_workers_run, Shared.start]
  refine ⟨hlen, fun w hw => ⟨?_, fun hdone => ?_⟩, fun hfinished => ?_, fun hcount => ?_⟩
  · rw [hgiven w hw]
    exact List.take_prefix _ _
  · rw [hgiven w hw, hcomplete w hw hdone, hnames.length_eq, List.take_length]
  · -- Some worker has all names, so the store has been brought to the end of the list.
    have hw : s.workers[0] ∈ s.workers := List.getElem_mem _
    have hdone := List.all_eq_true.mp hfinished _ hw
    have hle := halong.behind _ hw
    rw [hcomplete _ hw (List.isEmpty_iff.mp hdone)] at hle
    rw [halong.store, List.take_of_length_le hle]
  · refine finished_of_count store fun k job hjob => ?_
    obtain ⟨hk, rfl⟩ : k < workers ∧ texts = job := by simpa [List.getElem?_replicate] using hjob
    exact hcount k hk

/-- Two workers in turns, on an interner that knows one of the texts. Both miss the other text, and
both write it. -/
theorem run_same_job_race :
    let texts := ["a", "b", "a"]
    let schedule := roundRobin 2 6
    let s := (Shared.start (.single "b") (List.replicate 2 texts)).run schedule
    ((Interner.single "b").texts.toList ++ texts).eraseDups.length ≤ Name.count ∧
      (Shared.start (.single "b") (List.replicate 2 texts)).writes schedule = ["a", "a"] ∧
      s.finished ∧ ∃ names final, internAll texts (.single "b") = .ok names final ∧
        (∀ w ∈ s.workers, w.names <+: names) ∧ s.store = final := by
  intro texts schedule s
  have hroom : ((Interner.single "b").texts.toList ++ texts).eraseDups.length ≤ Name.count := by
    decide
  have hwrites :
      (Shared.start (.single "b") (List.replicate 2 texts)).writes schedule = ["a", "a"] := by
    simp [texts, schedule, roundRobin, start, writes, step, Worker.start, Worker.write?,
      Worker.step, Worker.receive, intern, demand, tryIntern, insert, find?, single, Name.count,
      UInt32.size, List.range_succ]
  obtain ⟨names, final, hall, -, hnames, hfinal, hturns⟩ :=
    run_same_job (.single "b") (by decide : 0 < 2) texts hroom schedule
  have hfinished : s.finished := hturns (by decide)
  exact ⟨hroom, hwrites, hfinished, names, final, hall, fun w hw => (hnames w hw).1,
    hfinal hfinished⟩

end Shared

end Treeprint.Interner
