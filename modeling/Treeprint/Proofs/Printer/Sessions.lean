import Treeprint.Printer.Session

/-!
# What sessions do to the depth

The scope changes of a session are its moves (`Session.moves`): scopes entered by hand, and guards
opened and dropped, by the session itself and by the documents that it prints. A fault ends the
action that it strikes, and so no later move of that action is made; but the guards that are open
then are dropped all the same.

If no scope is left by hand, only those entered by hand add to the depth, and the moves can be made
once more on their own, with the same changes of depth and the same events (`Accounts`). As leaving
a scope at depth 0 is a fault, no guard is ever dropped at depth 0. This holds of every printer that
is put together from quiet ones by sequence and by guards (`Logs.bind`, `Logs.within`), and so of
every action. Main statement: `Session.run_accounts`.
-/

namespace Treeprint

/-- A change of scope: one is entered by hand, or a guard is opened or dropped. -/
inductive Move where
  | start
  | opened
  | dropped
  deriving DecidableEq, Repr

namespace Move

/-- Makes a move. To drop a guard is to leave a scope, which is a fault at depth 0. -/
def make : Move → Printer Unit
  | .start | .opened => Printer.scopeStart
  | .dropped => Printer.scopeEnd

def makeAll : List Move → Printer Unit
  | [] => pure ()
  | m :: ms => do
    m.make
    makeAll ms

theorem makeAll_append {ms ns : List Move} {k k' : Sink} (h : makeAll ms k = .ok () k') :
    makeAll (ms ++ ns) k = makeAll ns k' := by
  induction ms generalizing k with
  | nil =>
    cases h
    rfl
  | cons m ms ih =>
    simp only [List.cons_append, makeAll, bind, EStateM.bind] at h ⊢
    cases hm : m.make k with
    | ok _ k₁ =>
      rw [hm] at h
      exact ih h
    | error fault k₁ =>
      rw [hm] at h
      cases h

end Move

open Move (makeAll)

/-- From one sink to the other the moves are made and text is added, and nothing else is done. Only
scopes entered by hand add to the depth. -/
structure Accounts (ms : List Move) (k k' : Sink) : Prop where
  depth : k'.depth = k.depth + ms.count .start
  out : ∃ w, k'.out = k.out ++ w
  moves : ∀ out, makeAll ms ⟨k.depth, out, k.events⟩ = .ok () ⟨k'.depth, out, k'.events⟩

namespace Accounts

variable {ms ns : List Move} {k k' k'' : Sink}

theorem quiet {w : String} : Accounts [] k ⟨k.depth, k.out ++ w, k.events⟩ :=
  ⟨rfl, ⟨w, rfl⟩, fun _ => rfl⟩

theorem refl (k : Sink) : Accounts [] k k := ⟨rfl, ⟨"", String.append_empty.symm⟩, fun _ => rfl⟩

theorem start (k : Sink) : Accounts [.start] k k.enter :=
  ⟨rfl, ⟨"", String.append_empty.symm⟩, fun _ => rfl⟩

theorem trans (h : Accounts ms k k') (h' : Accounts ns k' k'') : Accounts (ms ++ ns) k k'' := by
  obtain ⟨w, hw⟩ := h.out
  obtain ⟨w', hw'⟩ := h'.out
  refine ⟨?_, ⟨w ++ w', ?_⟩, fun out => ?_⟩
  · rw [h'.depth, h.depth, List.count_append, Nat.add_assoc]
  · rw [hw', hw, String.append_assoc]
  · rw [Move.makeAll_append (h.moves out), h'.moves out]

/-- Within a guard the depth is not 0 in the end, so the guard can be dropped. -/
theorem guard (h : Accounts ms k.enter k') : Printer.scopeEnd k' = .ok () k'.leave ∧
    Accounts (.opened :: ms ++ [.dropped]) k k'.leave := by
  have hdepth : k'.depth = k.depth + 1 + ms.count .start := h.depth
  have hpos : k'.depth ≠ 0 := by omega
  refine ⟨if_neg hpos, ?_, h.out, fun out => ?_⟩
  · have hcount : List.count Move.start (.opened :: ms ++ [.dropped]) = ms.count .start := by simp
    rw [hcount]
    show k'.depth - 1 = k.depth + ms.count .start
    omega
  · have hmoves : makeAll (.opened :: ms) ⟨k.depth, out, k.events⟩ = _ := h.moves out
    have hdrop : Printer.scopeEnd ⟨k'.depth, out, k'.events⟩ =
        .ok () ⟨k'.leave.depth, out, k'.leave.events⟩ := if_neg hpos
    rw [Move.makeAll_append hmoves]
    simp only [makeAll, Move.make, bind, EStateM.bind, hdrop]
    rfl

end Accounts

/-! ## Printers -/

namespace Printer

variable {α β : Type}

/-- A printer ends, on success or at a fault, with all its moves accounted for, and not because a
scope was left at depth 0. -/
def Ends (ms : List Move) (k : Sink) : EStateM.Result Fault Sink α → Prop
  | .ok _ k' => Accounts ms k k'
  | .error fault k' => Accounts ms k k' ∧ fault ≠ .unmatchedEnd

/-- The moves of a printer, from every sink. -/
def Logs (p : Printer α) (moves : Sink → List Move) : Prop := ∀ k, Ends (moves k) k (p k)

/-- A printer that only adds text. -/
def Quiet (p : Printer α) : Prop := Logs p fun _ => []

/-- The moves of a second printer, if there is no fault before it. -/
def movesAfter (r : EStateM.Result Fault Sink α) (moves : α → Sink → List Move) : List Move :=
  match r with
  | .ok a k => moves a k
  | .error _ _ => []

theorem Logs.bind {p : Printer α} {f : α → Printer β} {first : Sink → List Move}
    {second : α → Sink → List Move} (hp : Logs p first) (hf : ∀ a, Logs (f a) (second a)) :
    Logs (p >>= f) fun k => first k ++ movesAfter (p k) second := by
  intro k
  have hfirst := hp k
  show Ends _ k (EStateM.bind p f k)
  simp only [EStateM.bind]
  cases hr : p k with
  | ok a k' =>
    rw [hr] at hfirst
    have hsecond := hf a k'
    show Ends _ k (f a k')
    cases hr' : f a k' with
    | ok b k'' =>
      rw [hr'] at hsecond
      exact hfirst.trans hsecond
    | error fault k'' =>
      rw [hr'] at hsecond
      exact ⟨hfirst.trans hsecond.1, hsecond.2⟩
  | error fault k' =>
    rw [hr] at hfirst
    simp only [movesAfter, List.append_nil]
    exact ⟨hfirst.1, hfirst.2⟩

/-- The guard is dropped on both exits. -/
theorem Logs.within {p : Printer α} {moves : Sink → List Move} (hp : Logs p moves) :
    Logs (within p) fun k => .opened :: moves k.enter ++ [.dropped] := by
  intro k
  have hinner := hp k.enter
  simp only [Printer.within]
  cases hr : p k.enter with
  | ok a k' =>
    rw [hr] at hinner
    obtain ⟨hend, haccounts⟩ := Accounts.guard hinner
    simp only [hend]
    exact haccounts
  | error fault k' =>
    rw [hr] at hinner
    obtain ⟨hend, haccounts⟩ := Accounts.guard hinner.1
    simp only [hend]
    exact ⟨haccounts, hinner.2⟩

theorem movesAfter_nil (r : EStateM.Result Fault Sink α) : movesAfter r (fun _ _ => []) = [] := by
  cases r <;> rfl

/-- What a quiet printer does behind another one adds no moves. -/
theorem Logs.bind_quiet {p : Printer α} {f : α → Printer β} {moves : Sink → List Move}
    (hp : Logs p moves) (hf : ∀ a, Quiet (f a)) : Logs (p >>= f) moves := by
  intro k
  have h := hp.bind hf k
  simp only [movesAfter_nil, List.append_nil] at h
  exact h

theorem quiet_pure (a : α) : Quiet (pure a) := fun k => .refl k

theorem Logs.map {p : Printer α} {moves : Sink → List Move} (hp : Logs p moves) (f : α → β) :
    Logs (do return f (← p)) moves :=
  hp.bind_quiet fun a => quiet_pure (f a)

theorem quiet_write (s : String) : Quiet (write s) := fun _ => .quiet

theorem quiet_lookup (ctx : Context) (n : Name) : Quiet (lookup ctx n) := by
  intro k
  rw [lookup]
  cases ctx.interner.lookup n with
  | ok text => exact .refl k
  | error complaint => exact ⟨.refl k, fun h => by cases h⟩

theorem quiet_indentWidth (ctx : Context) : Quiet (indentWidth ctx) := by
  intro k
  rw [indentWidth]
  split
  · exact .refl k
  · exact ⟨.refl k, fun h => by cases h⟩

theorem quiet_spaces (used width : Nat) : Quiet (spaces used width) := by
  intro k
  rw [spaces]
  split
  · exact .refl k
  · exact ⟨.refl k, fun h => by cases h⟩

theorem quiet_size : Quiet size := fun k => .refl k

theorem quiet_indentation (ctx : Context) : Quiet (indentation ctx) :=
  (quiet_indentWidth ctx).bind_quiet fun width => quiet_spaces 0 width

theorem quiet_writeIndent (ctx : Context) : Quiet (writeIndent ctx) :=
  (quiet_indentWidth ctx).bind_quiet fun width => quiet_size.bind_quiet fun used =>
    (quiet_spaces used width).bind_quiet quiet_write

end Printer

open Printer (Logs movesAfter)

variable (ctx : Context)

/-! ## Documents and actions -/

namespace Doc

/-- The guards that are opened and dropped when a document is printed. -/
def moves : Doc → Sink → List Move
  | .append a b, k => a.moves k ++ movesAfter (a.print ctx k) fun _ => b.moves
  | .scope d, k => .opened :: d.moves k.enter ++ [.dropped]
  | _, _ => []

theorem logs_print (d : Doc) : Logs (d.print ctx) (d.moves ctx) := by
  induction d with
  | empty => exact Printer.quiet_pure ()
  | text s => exact Printer.quiet_write s
  | name n => exact (Printer.quiet_lookup ctx n).bind_quiet Printer.quiet_write
  | quoted n =>
    exact (Printer.quiet_lookup ctx n).bind_quiet fun s => Printer.quiet_write (Text.quoted s)
  | indent => exact Printer.quiet_writeIndent ctx
  | append a b iha ihb => exact iha.bind fun _ => ihb
  | scope d ih => exact ih.within

/-- In a text of its own, a document makes the same moves and adds nothing to the sink's text. -/
theorem logs_render (d : Doc) :
    Logs (d.render ctx) fun k => d.moves ctx ⟨k.depth, "", k.events⟩ := by
  intro k
  have h := d.logs_print ctx ⟨k.depth, "", k.events⟩
  rw [render]
  cases hr : d.print ctx ⟨k.depth, "", k.events⟩ with
  | ok _ k' =>
    rw [hr] at h
    exact ⟨h.depth, ⟨"", String.append_empty.symm⟩, h.moves⟩
  | error fault k' =>
    rw [hr] at h
    exact ⟨⟨h.1.depth, ⟨"", String.append_empty.symm⟩, h.1.moves⟩, h.2⟩

end Doc

namespace Session

mutual

/-- No scope is left by hand, here or within guards. -/
def Action.keepsScopes : Action → Bool
  | .scopeEnd => false
  | .within actions => Action.allKeepScopes actions
  | _ => true

def Action.allKeepScopes : List Action → Bool
  | [] => true
  | a :: rest => a.keepsScopes && Action.allKeepScopes rest

end

mutual

/-- The moves of an action. What follows a fault is not done, but guards that are open then are
dropped. -/
def Action.moves : Action → Sink → List Move
  | .scopeStart, _ => [.start]
  | .print d, k => d.moves ctx k
  | .render d, k => d.moves ctx ⟨k.depth, "", k.events⟩
  | .within actions, k => .opened :: Action.allMoves actions k.enter ++ [.dropped]
  | _, _ => []

def Action.allMoves : List Action → Sink → List Move
  | [], _ => []
  | a :: rest, k => a.moves k ++ movesAfter (a.run ctx k) fun _ => Action.allMoves rest

end

/-- The moves of a session, which goes on after a fault. -/
def moves : List Action → Sink → List Move
  | [], _ => []
  | a :: rest, k => a.moves ctx k ++ moves rest (a.report ctx k).sink

mutual

theorem Action.logs_run : ∀ a : Action, a.keepsScopes → Logs (a.run ctx) (a.moves ctx)
  | .scopeStart, _ => fun k => .start k
  | .writeIndent, _ => (Printer.quiet_writeIndent ctx).map fun _ => Answer.done
  | .print d, _ => (d.logs_print ctx).map fun _ => Answer.done
  | .render d, _ => (d.logs_render ctx).map Answer.text
  | .depth, _ => fun k => .refl k
  | .indentWidth, _ => (Printer.quiet_indentWidth ctx).map Answer.number
  | .indentation, _ => (Printer.quiet_indentation ctx).map Answer.text
  | .lookup n, _ => (Printer.quiet_lookup ctx n).map Answer.text
  | .within actions, h => (Action.logs_runAll actions h).within.map Answer.nested

theorem Action.logs_runAll : ∀ actions : List Action, Action.allKeepScopes actions →
    Logs (Action.runAll ctx actions) (Action.allMoves ctx actions)
  | [], _ => Printer.quiet_pure []
  | a :: rest, h => by
    rw [Action.allKeepScopes, Bool.and_eq_true] at h
    have hrest := Action.logs_runAll rest h.2
    exact (Action.logs_run a h.1).bind fun answer k =>
      (hrest.map fun answers => (answer, k.depth) :: answers) k

end

variable {ctx}

theorem Action.report_accounts {a : Action} (h : a.keepsScopes) (k : Sink) :
    Accounts (a.moves ctx k) k (a.report ctx k).sink ∧
      (a.report ctx k).outcome ≠ .error .unmatchedEnd := by
  have hends := a.logs_run ctx h k
  rw [Action.report]
  cases hr : a.run ctx k with
  | ok answer k' =>
    rw [hr] at hends
    exact ⟨hends, fun hfault => by cases hfault⟩
  | error fault k' =>
    rw [hr] at hends
    exact ⟨hends.1, fun hfault => hends.2 (Except.error.inj hfault)⟩

/-- After each action the moves of all actions up to it are accounted for. -/
theorem accounts_of_run {actions : List Action} (h : ∀ a ∈ actions, a.keepsScopes) {k : Sink}
    {i : Nat} {r : Report} (hr : (run ctx actions k)[i]? = some r) :
    Accounts (moves ctx (actions.take (i + 1)) k) k r.sink ∧
      r.outcome ≠ .error .unmatchedEnd := by
  induction actions generalizing k i with
  | nil => cases hr
  | cons a rest ih =>
    rw [List.forall_mem_cons] at h
    obtain ⟨hfirst, houtcome⟩ := Action.report_accounts h.1 k
    cases i with
    | zero =>
      cases hr
      refine ⟨?_, houtcome⟩
      simpa only [List.take_succ_cons, List.take_zero, moves, List.append_nil] using hfirst
    | succ i =>
      obtain ⟨hrest, houtcome⟩ := ih h.2 hr
      exact ⟨hfirst.trans hrest, houtcome⟩

theorem length_run (actions : List Action) (k : Sink) :
    (run ctx actions k).length = actions.length := by
  induction actions generalizing k with
  | nil => rfl
  | cons a rest ih => rw [run, List.length_cons, List.length_cons, ih]

/-- What is in the text stays there. -/
theorem pairwise_out_run {actions : List Action} (h : ∀ a ∈ actions, a.keepsScopes) (k : Sink) :
    (run ctx actions k).Pairwise fun r r' => ∃ w, r'.sink.out = r.sink.out ++ w := by
  induction actions generalizing k with
  | nil => exact .nil
  | cons a rest ih =>
    rw [List.forall_mem_cons] at h
    refine .cons (fun r hr => ?_) (ih h.2 _)
    obtain ⟨i, hi⟩ := List.mem_iff_getElem?.mp hr
    exact (accounts_of_run h.2 hi).1.out

/-- In a session in which no scope is left by hand, the depth after each action is that at the start
and one more for each scope that was entered by hand so far; no guard was dropped at depth 0, as the
moves up to there can all be made on their own and change depth and events as the session did; no
action stopped because a scope was left at depth 0; and text is only added. -/
theorem run_accounts (ctx : Context) (actions : List Action) (h : ∀ a ∈ actions, a.keepsScopes)
    (k : Sink) :
    (run ctx actions k).length = actions.length ∧
    (∀ (i : Nat) (r : Report), (run ctx actions k)[i]? = some r →
      let made := moves ctx (actions.take (i + 1)) k
      r.sink.depth = k.depth + made.count .start ∧
      makeAll made k = .ok () ⟨r.sink.depth, k.out, r.sink.events⟩ ∧
      r.outcome ≠ .error .unmatchedEnd ∧ ∃ w, r.sink.out = k.out ++ w) ∧
    (run ctx actions k).Pairwise fun r r' => ∃ w, r'.sink.out = r.sink.out ++ w := by
  refine ⟨length_run actions k, fun i r hr => ?_, pairwise_out_run h k⟩
  obtain ⟨haccounts, houtcome⟩ := accounts_of_run h hr
  exact ⟨haccounts.depth, haccounts.moves k.out, houtcome, haccounts.out⟩

/-- A foreign name within two guards, behind a scope that was entered by hand: both guards are
dropped, and the scope stays. -/
theorem run_accounts_foreign :
    let ctx : Context := ⟨.empty, 2⟩
    let actions : List Action :=
      [.within [.scopeStart, .within [.lookup ⟨7⟩], .scopeStart], .writeIndent]
    let made := moves ctx (actions.take 1) {}
    (∀ a ∈ actions, a.keepsScopes) ∧ made = [.opened, .start, .opened, .dropped, .dropped] ∧
      ∀ r, (run ctx actions {})[0]? = some r →
        r.sink.depth = made.count .start ∧
          makeAll made {} = .ok () ⟨r.sink.depth, "", r.sink.events⟩ := by
  intro ctx actions made
  have hkeeps : ∀ a ∈ actions, a.keepsScopes := by decide
  refine ⟨hkeeps, by decide, fun r hr => ?_⟩
  obtain ⟨hdepth, hmade, -⟩ := (run_accounts ctx actions hkeeps {}).2.1 0 r hr
  exact ⟨hdepth.trans (Nat.zero_add _), hmade⟩

end Session

end Treeprint
