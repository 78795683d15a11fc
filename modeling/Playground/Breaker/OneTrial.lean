/-
  Playground.Breaker.OneTrial — one trial at a time.

  A half-open breaker is to let one call through and turn the others away until that
  one has decided. The code lets every call through that finds it half-open, and keeps
  no record of a trial under way. What a run says of its trials is read off its log
  (`Mark`), for the Python breaker and for the NestJS service alike:
  - `one_trial`: as long as no call's check finds the breaker half-open while a trial is
    under way, or after one in the same half-open period, trials are one at a time and
    one a period; the first such check breaks this.
  - `two_trials`: two calls that come after the recovery timeout both run `func`.
-/

import Playground.Breaker.Cooldown

namespace Playground.Breaker

open Playground.Lib

/-! ## Trials in a history -/

/-- What becomes of trials: call `i` was let through while half-open; its `func` ended;
    some call's outcome was recorded, which ends a half-open period. -/
inductive Mark (ι : Type) where
  | tried (i : ι)
  | ended (i : ι)
  | recorded
  deriving DecidableEq

section Marks

variable {ι : Type} {l : List (Mark ι)} {i j : ι}

/-- Let through as a trial, and its `func` not ended. -/
def UnderWay (l : List (Mark ι)) (i : ι) : Prop := .tried i ∈ l ∧ .ended i ∉ l

/-- Let through as a trial in the half-open period that is still on. -/
def TriedSince (l : List (Mark ι)) (i : ι) : Prop := ∃ before after, l = before ++ .tried i :: after ∧ .recorded ∉ after

structure OneTrial (l : List (Mark ι)) : Prop where
  atATime : ∀ i j, UnderWay l i → UnderWay l j → i = j
  aPeriod : ∀ before between after i j, l = before ++ .tried i :: (between ++ .tried j :: after) → .recorded ∈ between

instance [DecidableEq ι] : Decidable (UnderWay l i) := inferInstanceAs (Decidable (_ ∧ _))

theorem oneTrial_nil : OneTrial ([] : List (Mark ι)) where
  atATime _ _ h := nomatch h.1
  aPeriod before _ _ _ _ h := by
    cases before <;> cases h

theorem UnderWay.of_snoc {m : Mark ι} (h : UnderWay (l ++ [m]) j) (hm : m ≠ .tried j) : UnderWay l j := by
  refine ⟨?_, fun he => h.2 (List.mem_append_left _ he)⟩
  rcases List.mem_append.mp h.1 with ht | ht
  · exact ht
  · exact absurd (List.mem_singleton.mp ht).symm hm

/-- Two trials of a longer history are two trials before its newest mark, or the second
    is the newest mark. -/
theorem split_tried {m : Mark ι} {before between after : List (Mark ι)}
    (h : l ++ [m] = before ++ .tried i :: (between ++ .tried j :: after)) :
    (∃ rest, l = before ++ .tried i :: (between ++ .tried j :: rest)) ∨
      (m = .tried j ∧ l = before ++ .tried i :: between) := by
  have h' : l ++ [m] = (before ++ .tried i :: between) ++ .tried j :: after := by simpa using h
  rcases split_snoc h' with ⟨rest, -, hl⟩ | ⟨-, hm, hl⟩
  · exact .inl ⟨rest, by simpa using hl⟩
  · exact .inr ⟨hm.symm, hl.symm⟩

theorem OneTrial.snoc (h : OneTrial l) {m : Mark ι} (hm : ∀ i, m ≠ .tried i) : OneTrial (l ++ [m]) where
  atATime i j hi hj := h.atATime i j (hi.of_snoc (hm i)) (hj.of_snoc (hm j))
  aPeriod before between after i j he := by
    rcases split_tried he with ⟨rest, hl⟩ | ⟨hj, -⟩
    · exact h.aPeriod _ _ _ _ _ hl
    · exact absurd hj (hm j)

theorem OneTrial.append (h : OneTrial l) (ms : List (Mark ι)) (hm : ∀ m ∈ ms, ∀ i, m ≠ .tried i) :
    OneTrial (l ++ ms) := by
  induction ms generalizing l with
  | nil => simpa using h
  | cons m ms ih =>
    have hl : l ++ m :: ms = (l ++ [m]) ++ ms := by simp
    rw [hl]
    exact ih (h.snoc (hm m (List.mem_cons_self ..))) fun n hn => hm n (List.mem_cons_of_mem _ hn)

/-- Another trial keeps them one at a time, and one a period, exactly when none is under
    way and none was let through in this period. -/
theorem oneTrial_tried (h : OneTrial l) (hi : .tried i ∉ l) (he : .ended i ∉ l) :
    OneTrial (l ++ [.tried i]) ↔ ∀ j, ¬ UnderWay l j ∧ ¬ TriedSince l j := by
  constructor
  · intro h' j
    constructor
    · intro hj
      have hnew : UnderWay (l ++ [.tried i]) i := ⟨by simp, by simpa using he⟩
      have hold : UnderWay (l ++ [.tried i]) j := ⟨List.mem_append_left _ hj.1, by simpa using hj.2⟩
      exact hi (h'.atATime i j hnew hold ▸ hj.1)
    · rintro ⟨before, after, hl, hn⟩
      exact hn (h'.aPeriod before after [] j i (by rw [hl]; simp))
  · intro hno
    constructor
    · have hall : ∀ j, UnderWay (l ++ [.tried i]) j → j = i := by
        intro j hj
        by_contra hne
        refine (hno j).1 (hj.of_snoc ?_)
        intro heq
        cases heq
        exact hne rfl
      intro j k hj hk
      rw [hall j hj, hall k hk]
    · intro before between after j k hs
      rcases split_tried hs with ⟨rest, hl⟩ | ⟨-, hl⟩
      · exact h.aPeriod _ _ _ _ _ hl
      · by_contra hn
        exact (hno j).2 ⟨before, between, hl, hn⟩

end Marks

/-! ## In the Python breaker -/

section Python

variable {ι T E V : Type}

def marksOf : Entry ι Cmd (Ans V) (Exc E) Empty → List (Mark ι)
  | .did i .state (.ok .halfOpen) => [.tried i]
  | .did i .awaitFunc _ => [.ended i]
  | .did _ .onSuccess _ => [.recorded]
  | .did _ .onFailure _ => [.recorded]
  | _ => []

def marks (log : Log ι E V) : List (Mark ι) := log.flatMap marksOf

/-- A check that finds the breaker half-open comes when no trial is under way, and none
    was let through in this half-open period. -/
def Alone (s : Calling ι T E V) : Ev ι (Chance T E V) Empty → Prop
  | .run i _ => (s.thr i).next = some .state → s.mem.state = .halfOpen →
      ∀ j, ¬ UnderWay (marks s.log) j ∧ ¬ TriedSince (marks s.log) j
  | .env e => nomatch e

@[simp] theorem marks_snoc (log : Log ι E V) (e : Entry ι Cmd (Ans V) (Exc E) Empty) :
    marks (log ++ [e]) = marks log ++ marksOf e := by
  simp [marks]

/-- A call that has not passed its check left no mark. -/
def Unmarked (u : St ι T E V) : Prop :=
  ∀ i, ¬ (u.ph i).past → .tried i ∉ marks u.log ∧ .ended i ∉ marks u.log

theorem unmarked_start (m : Mem ι T) : Unmarked (⟨m, fun _ => .locking, []⟩ : St ι T E V) := by
  intro i _
  simp [marks]

/-- A call is marked by its own check and by the end of its own `func`. -/
theorem mark_own {i j : ι} {c : Cmd} {r : Except (Exc E) (Ans V c)}
    (h : .tried j ∈ marksOf (.did i c r) ∨ .ended j ∈ marksOf (.did i c r)) :
    j = i ∧ (c = .state ∨ c = .awaitFunc) := by
  cases c with
  | state =>
    cases r with
    | error x => simp [marksOf] at h
    | ok state =>
      cases state <;> simp [marksOf] at h
      exact ⟨h, .inl rfl⟩
  | awaitFunc =>
    simp [marksOf] at h
    exact ⟨h, .inr rfl⟩
  | lock | unlock | updateStateIfNeeded | startFunc | onSuccess | onFailure | fallback => simp [marksOf] at h

variable [Sub T] [LE T] [DecidableLE T] {cb : CircuitBreaker T} {fallback : ι → Bool}

/-- A call's step lets it through as a trial, or no call. -/
theorem marks_cases {i : ι} {p : Phase E V} {c : Cmd} {k : Except (Exc E) (Ans V c) → Phase E V}
    (hh : headOf cb fallback i p = .goes c k) {x : Chance T E V} {m : Mem ι T}
    {rm : Except (Exc E) (Ans V c) × Mem ι T} (hx : (memory cb).exec i c x m = some rm) :
    (p = .checking ∧ c = .state ∧ m.state = .halfOpen ∧ marksOf (.did i c rm.1) = [.tried i]) ∨
      ((c = .state → m.state ≠ .halfOpen) ∧ ∀ n ∈ marksOf (.did i c rm.1), ∀ j, n ≠ Mark.tried j) := by
  cases p with
  | checking =>
    cases hh; cases hx
    cases hs : m.state with
    | halfOpen => exact .inl ⟨rfl, rfl, rfl, rfl⟩
    | closed => exact .inr ⟨fun _ => by decide, by simp [marksOf]⟩
    | opened => exact .inr ⟨fun _ => by decide, by simp [marksOf]⟩
  | locking | updating | fallingFast | leaving | starting | running | lockingOk | recordingOk | leavingOk | lockingErr
  | recordingErr | leavingErr | fallingBack =>
    cases hh
    refine .inr ⟨?_, by simp [marksOf]⟩
    intro h
    cases h
  | ended r => cases hh

variable [DecidableEq ι]

theorem Unmarked.step {u u' : St ι T E V} (hu : Unmarked u) {e : Ev ι (Chance T E V) Empty}
    (hs : ((calls cb fallback).phases (memory cb)).step u e = some u') : Unmarked u' := by
  cases e with
  | env e => exact nomatch e
  | run i x =>
    obtain ⟨c, k, rm, hh, hx, rfl⟩ := Flow.step_run _ hs
    change headOf cb fallback i (u.ph i) = .goes c k at hh
    intro j hj
    have hkeep : ¬ (u.ph j).past → (j = i → c ≠ .state ∧ c ≠ .awaitFunc) →
        .tried j ∉ marks (u.log ++ [.did i c rm.1]) ∧ .ended j ∉ marks (u.log ++ [.did i c rm.1]) := by
      intro hold hc
      have hno : ¬ (.tried j ∈ marksOf (.did i c rm.1) ∨ .ended j ∈ marksOf (.did i c rm.1)) := by
        intro h
        obtain ⟨e, h⟩ := mark_own h
        exact h.elim (hc e).1 (hc e).2
      rw [marks_snoc, List.mem_append, List.mem_append]
      exact ⟨fun h => h.elim (hu j hold).1 fun h => hno (.inl h), fun h => h.elim (hu j hold).2 fun h => hno (.inr h)⟩
    by_cases e : j = i
    · subst e
      rw [Phases.did_ph_same] at hj
      have hold : ¬ (u.ph j).past := fun h => hj (past_step hh h hx).2
      refine hkeep hold fun _ => ?_
      cases hp : u.ph j with
      | locking => rw [hp] at hh; cases hh; decide
      | updating => rw [hp] at hh; cases hh; decide
      | checking =>
        rw [hp] at hh; cases hh; cases hx
        exact absurd (past_checked _ _) hj
      | fallingFast | leaving | starting | running | lockingOk | recordingOk | leavingOk | lockingErr | recordingErr
      | leavingErr | fallingBack | ended => exact absurd (by rw [hp]; trivial) hold
    · rw [Phases.did_ph_ne _ _ _ _ _ _ e] at hj
      exact hkeep hj fun h => absurd h e

theorem oneTrial_step {u u' : St ι T E V} (hu : Unmarked u) (h : OneTrial (marks u.log)) {e : Ev ι (Chance T E V) Empty}
    (hs : ((calls cb fallback).phases (memory cb)).step u e = some u') :
    OneTrial (marks u'.log) ↔ Alone ((calls cb fallback).threadsOf u) e := by
  cases e with
  | env e => exact nomatch e
  | run i x =>
    obtain ⟨c, k, rm, hh, hx, rfl⟩ := Flow.step_run _ hs
    have hcode : (codeOf cb fallback i (u.ph i)).next = some c := (calls cb fallback).next_of_head hh
    show _ ↔ ((codeOf cb fallback i (u.ph i)).next = some .state → u.mem.state = .halfOpen → _)
    rw [hcode, Phases.did_log, marks_snoc]
    rcases marks_cases hh hx with ⟨hp, rfl, hstate, hm⟩ | ⟨hc, hm⟩
    · obtain ⟨hno, hne⟩ := hu i (by rw [hp]; exact id)
      rw [hm, oneTrial_tried h hno hne]
      exact ⟨fun h _ _ => h, fun h => h rfl hstate⟩
    · refine iff_of_true (h.append _ hm) ?_
      intro he hstate
      exact absurd hstate (hc (Option.some.inj he))

end Python

/-! ## In the NestJS service -/

namespace Nest

section Trials

variable {ι E V : Type}

def marksOf : Did ι E V → List (Mark ι)
  | .checked i .halfOpen => [.tried i]
  | .checked _ _ => []
  | .settled i _ => [.ended i, .recorded]

def marks (log : List (Did ι E V)) : List (Mark ι) := log.flatMap marksOf

/-- Half-open, or open with the recovery timeout over at `now`. -/
def Trying (b : CircuitBreakerService) (now : Int) : Prop :=
  b.state = .halfOpen ∨ (b.state = .opened ∧ recoveryTimeoutMs ≤ now - b.lastStateChange)

/-- A call that comes when the breaker tries again comes when no trial is under way,
    and none was let through in this half-open period. -/
def Alone (s : Run ι E V) : Ev ι E V → Prop
  | .arrive _ now _ => Trying s.breaker now → ∀ j, ¬ UnderWay (marks s.log) j ∧ ¬ TriedSince (marks s.log) j
  | _ => True

@[simp] theorem marks_snoc (log : List (Did ι E V)) (d : Did ι E V) : marks (log ++ [d]) = marks log ++ marksOf d := by
  simp [marks]

theorem update_halfOpen {b : CircuitBreakerService} {now later : Int} :
    (b.updateStateIfNeeded now later).state = .halfOpen ↔ Trying b now := by
  unfold CircuitBreakerService.updateStateIfNeeded Trying
  split
  · split <;> simp_all
  · simp_all

/-- A call that has not come left no mark. -/
def Unmarked (s : Run ι E V) : Prop :=
  ∀ i, s.phase i = .uncalled → .tried i ∉ marks s.log ∧ .ended i ∉ marks s.log

variable [DecidableEq ι] {fallback : ι → Bool} {s s' : Run ι E V} {e : Ev ι E V}

theorem unmarked_snoc (hu : Unmarked s) {i : ι} {p : Phase E V} (hp : p ≠ .uncalled) {d : Did ι E V}
    (hd : ∀ j, .tried j ∈ marksOf d ∨ .ended j ∈ marksOf d → j = i) (b : CircuitBreakerService) :
    Unmarked (⟨b, Function.update s.phase i p, s.log ++ [d]⟩ : Run ι E V) := by
  intro j hj
  change Function.update s.phase i p j = .uncalled at hj
  by_cases e : j = i
  · subst e
    rw [Function.update_self] at hj
    exact absurd hj hp
  · rw [Function.update_of_ne e] at hj
    rw [marks_snoc, List.mem_append, List.mem_append]
    exact ⟨fun h => h.elim (hu j hj).1 fun h => e (hd j (.inl h)),
      fun h => h.elim (hu j hj).2 fun h => e (hd j (.inr h))⟩

theorem oneTrial_step (hu : Unmarked s) (h : OneTrial (marks s.log)) (hs : (service fallback).step s e = some s') :
    Unmarked s' ∧ (OneTrial (marks s'.log) ↔ Alone s e) := by
  cases e with
  | query now later =>
    rw [step_query hs]
    exact ⟨hu, iff_of_true h trivial⟩
  | settle i outcome now =>
    obtain ⟨-, rfl⟩ := step_settle hs
    refine ⟨unmarked_snoc hu (Phase.settled_ne _ _) (fun j hj => by simpa [marksOf] using hj) _, ?_⟩
    rw [marks_snoc]
    exact iff_of_true (h.append _ (by simp [marksOf])) trivial
  | arrive i now later =>
    obtain ⟨hold, rfl⟩ := step_arrive hs
    have htry : (s.breaker.updateStateIfNeeded now later).state = .halfOpen ↔ Trying s.breaker now := update_halfOpen
    generalize s.breaker.updateStateIfNeeded now later = b at htry
    refine ⟨unmarked_snoc hu (Phase.arrived_ne _ _) ?_ b, ?_⟩
    · intro j hj
      cases hs : b.state with
      | halfOpen => rw [hs] at hj; simpa [marksOf] using hj
      | closed => rw [hs] at hj; simp [marksOf] at hj
      | opened => rw [hs] at hj; simp [marksOf] at hj
    · rw [marks_snoc]
      show _ ↔ (Trying s.breaker now → _)
      rw [← htry]
      cases hs : b.state with
      | halfOpen =>
        obtain ⟨hno, hne⟩ := hu i hold
        rw [marksOf, oneTrial_tried h hno hne]
        exact ⟨fun h _ => h, fun h => h rfl⟩
      | closed => exact iff_of_true (h.append _ (by simp [marksOf])) fun h => by cases h
      | opened => exact iff_of_true (h.append _ (by simp [marksOf])) fun h => by cases h

end Trials

end Nest

section OneTrial

variable {ι T E V : Type} [Sub T] [LE T] [DecidableLE T] [DecidableEq ι] {cb : CircuitBreaker T} {fallback : ι → Bool}

/-- Every run in which no call's check finds the breaker half-open while a trial is
    under way, or after one in the same half-open period: at most one trial is under way
    at a time, and only one call a half-open period is let through. The step that breaks
    this first is such a check. -/
theorem one_trial :
    (∀ (t₀ : T) (s : Calling ι T E V),
      (threads (memory cb)).Reach Alone (start (Mem.init t₀) fun i => call cb (fallback i)) s →
      OneTrial (marks s.log) ∧
        ∀ e s', (threads (memory cb)).step s e = some s' → (OneTrial (marks s'.log) ↔ Alone s e)) ∧
    (∀ (t₀ : Int) (s : Nest.Run ι E V), (Nest.service fallback).Reach Nest.Alone (Nest.Run.start t₀) s →
      OneTrial (Nest.marks s.log) ∧
        ∀ e s', (Nest.service fallback).step s e = some s' → (OneTrial (Nest.marks s'.log) ↔ Nest.Alone s e)) := by
  constructor
  · intro t₀ s h
    rw [← calls_start] at h
    obtain ⟨u, hu, rfl⟩ := Flow.follows _ h
    obtain ⟨hunmarked, hone⟩ := hu.invariant (P := fun u => Unmarked u ∧ OneTrial (marks u.log))
      ⟨unmarked_start _, oneTrial_nil⟩ fun _ _ _ hi hok hs => ⟨hi.1.step hs, (oneTrial_step hi.1 hi.2 hs).mpr hok⟩
    refine ⟨hone, ?_⟩
    intro e s' hs
    rw [Flow.step_threadsOf, Option.map_eq_some_iff] at hs
    obtain ⟨u', hu', rfl⟩ := hs
    exact oneTrial_step hunmarked hone hu'
  · intro t₀ s h
    have h0 : Nest.Unmarked (Nest.Run.start t₀ : Nest.Run ι E V) ∧
        OneTrial (Nest.marks (Nest.Run.start t₀ : Nest.Run ι E V).log) :=
      ⟨fun i _ => ⟨List.not_mem_nil, List.not_mem_nil⟩, oneTrial_nil⟩
    obtain ⟨hunmarked, hone⟩ := h.invariant (P := fun s => Nest.Unmarked s ∧ OneTrial (Nest.marks s.log)) h0
      fun _ _ _ hi hok hs => by
        obtain ⟨hunmarked', hiff⟩ := Nest.oneTrial_step hi.1 hi.2 hs
        exact ⟨hunmarked', hiff.mpr hok⟩
    exact ⟨hone, fun e s' hs => (Nest.oneTrial_step hunmarked hone hs).2⟩

end OneTrial

/-! ## Two trials -/

/-- The first call fails and opens the breaker; after the recovery timeout the second
    comes, and then the third. -/
def crowdRun : List (Ev Caller (Chance Int Unit Unit) Empty) :=
  List.replicate 9 (.run Caller.first (failing 1)) ++ List.replicate 5 (.run Caller.second (succeeding 10)) ++
    List.replicate 5 (.run Caller.third (succeeding 11))

def crowd : Calling Caller Int Unit Unit :=
  ((threads (memory flaky)).run (start (Mem.init 0) fun _ => call flaky false) crowdRun).get rfl

/-- Both run `func`, in one half-open period. -/
theorem two_trials : (clock crowdRun).Pairwise (· ≤ ·) ∧
    (threads (memory flaky)).Reach Machine.any (start (Mem.init 0) fun _ => call flaky false) crowd ∧
    crowd.mem.state = .halfOpen ∧ (crowd.thr .second).next = some .awaitFunc ∧
    (crowd.thr .third).next = some .awaitFunc ∧ ¬ OneTrial (marks crowd.log) := by
  refine ⟨by decide, Machine.reach_any_of_run crowdRun (Option.some_get _).symm, rfl, rfl, rfl, ?_⟩
  intro h
  have hm : marks crowd.log = [.ended .first, .recorded, .tried .second, .tried .third] := rfl
  have h' := h.atATime .second .third (by rw [hm, UnderWay]; simp) (by rw [hm, UnderWay]; simp)
  cases h'

def Mark.isTried {ι : Type} : Mark ι → Bool
  | .tried _ => true
  | _ => false

theorem untried {ι : Type} {l : List (Mark ι)} (h : l.all fun m => !m.isTried) (j : ι) :
    ¬ UnderWay l j ∧ ¬ TriedSince l j := by
  have hno : .tried j ∉ l := fun hm => by simpa [Mark.isTried] using List.all_eq_true.mp h _ hm
  refine ⟨fun hu => hno hu.1, ?_⟩
  rintro ⟨before, after, hl, -⟩
  exact hno (by simp [hl])

/-- No trial yet when a check finds the breaker half-open. -/
def FirstTrial (s : Calling Caller Int Unit Unit) : Ev Caller (Chance Int Unit Unit) Empty → Prop
  | .run i _ => (s.thr i).next = some .state → s.mem.state = .halfOpen → (marks s.log).all fun m => !m.isTried
  | .env e => nomatch e

instance (s : Calling Caller Int Unit Unit) (e : Ev Caller (Chance Int Unit Unit) Empty) :
    Decidable (FirstTrial s e) :=
  match e with
  | .run _ _ => inferInstanceAs (Decidable (_ → _ → _))
  | .env e => nomatch e

/-- The first call fails and opens the breaker; the second comes after the recovery
    timeout. -/
def loneRun : List (Ev Caller (Chance Int Unit Unit) Empty) :=
  List.replicate 9 (.run Caller.first (failing 1)) ++ List.replicate 5 (.run Caller.second (succeeding 10))

def lone : Calling Caller Int Unit Unit :=
  ((threads (memory flaky)).runIf FirstTrial (start (Mem.init 0) fun _ => call flaky false) loneRun).get rfl

theorem lone_reach : (threads (memory flaky)).Reach Alone (start (Mem.init 0) fun _ => call flaky false) lone :=
  (Machine.reach_of_runIf loneRun (Option.some_get _).symm).mono fun s e h => by
    cases e with
    | env e => exact nomatch e
    | run i x => exact fun hn hs j => untried (h hn hs) j

/-- Three failures open the service, and a call comes after the recovery timeout. -/
def nestRetry : List (Nest.Ev Nat Unit Unit) :=
  [.arrive 0 0 0, .arrive 1 0 0, .arrive 2 0 0, .settle 0 (.error ()) 1, .settle 1 (.error ()) 2,
    .settle 2 (.error ()) 3, .arrive 3 4003 4003]

def NestFirstTrial (s : Nest.Run Nat Unit Unit) (_ : Nest.Ev Nat Unit Unit) : Prop :=
  (Nest.marks s.log).all fun m => !m.isTried

instance (s : Nest.Run Nat Unit Unit) (e : Nest.Ev Nat Unit Unit) : Decidable (NestFirstTrial s e) :=
  inferInstanceAs (Decidable (_ = true))

def nestLone : Nest.Run Nat Unit Unit :=
  ((Nest.service fun _ => false).runIf NestFirstTrial (Nest.Run.start 0) nestRetry).get rfl

theorem nestLone_reach : (Nest.service fun _ => false).Reach Nest.Alone (Nest.Run.start 0) nestLone :=
  (Machine.reach_of_runIf nestRetry (Option.some_get _).symm).mono fun s e h => by
    cases e with
    | arrive i now later => exact fun _ j => untried h j
    | settle i outcome now => trivial
    | query now later => trivial

theorem lone_trial : (UnderWay (marks lone.log) .second ∧ OneTrial (marks lone.log)) ∧
    UnderWay (Nest.marks nestLone.log) 3 ∧ OneTrial (Nest.marks nestLone.log) := by
  have h := @one_trial Caller Int Unit Unit _ _ _ _ flaky fun _ => false
  have h' := @one_trial Nat Int Unit Unit _ _ _ _ flaky fun _ => false
  exact ⟨⟨by decide, (h.1 0 lone lone_reach).1⟩, by decide, (h'.2 0 nestLone nestLone_reach).1⟩

end Playground.Breaker
