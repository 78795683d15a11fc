/-
  Playground.Breaker.Trial — who decides a half-open breaker.

  A half-open breaker should be closed, or opened again, by a call that was let
  through while it was half-open. The code records any outcome in whatever state the
  breaker is by then, in Python and in the NestJS service alike:
  - `trial_decides`: while no call let through earlier is still in flight when the
    breaker turns half-open, only calls let through since decide it.
  - `slow_call_decides`: a slow call from before the outage closes it instead.
-/

import Playground.Breaker.Invariant
import Playground.Breaker.NestService

namespace Playground.Breaker

open Playground.Lib

section Trial

variable {ι T E V : Type}

/-- Call `i` was let through while the breaker was half-open, and nothing was recorded
    since, so it is the same half-open period. -/
def LetThroughSince (log : Log ι E V) (i : ι) : Prop :=
  ∃ before after, log = before ++ .did i .state (.ok .halfOpen) :: after ∧ ∀ j, ¬ Recorded after j

/-- Let through, its outcome not recorded, and not given up. -/
def InFlight (s : Calling ι T E V) (j : ι) : Prop := Pending s.log j ∧ ∃ c k, s.thr j = .cmd c k

/-- When an admission check is to turn the breaker half-open, no call is in flight. -/
def Cooled [Sub T] [LE T] (cb : CircuitBreaker T) (s : Calling ι T E V) : Ev ι (Chance T E V) Empty → Prop
  | .run i x => (∃ k, s.thr i = .cmd .updateStateIfNeeded k) → s.mem.state = .opened →
      cb.recoveryTimeoutSec ≤ x.now - s.mem.lastStateChange → ∀ j, ¬ InFlight s j
  | .env e => nomatch e

theorem LetThroughSince.snoc {log : Log ι E V} {i j : ι} {c : Cmd} {r : Except (Exc E) (Ans V c)}
    (h : LetThroughSince log j) (hc : c ≠ .onSuccess ∧ c ≠ .onFailure) :
    LetThroughSince (log ++ [.did i c r]) j := by
  obtain ⟨before, after, rfl, hn⟩ := h
  exact ⟨before, after ++ [.did i c r], by simp, fun k => by rw [recorded_snoc (.inr hc)]; exact hn k⟩

structure TrialInv (u : St ι T E V) : Prop where
  known : ∀ j, Known u.log j (u.ph j)
  /-- In a half-open breaker every pending call was let through since it is so. -/
  trial : u.mem.state = .halfOpen → ∀ j, (u.ph j).pending → LetThroughSince u.log j

theorem trialInv_start (m : Mem ι T) : TrialInv (⟨m, fun _ => .locking, []⟩ : St ι T E V) where
  known := known_start
  trial _ _ hp := False.elim hp

variable [Sub T] [LE T] [DecidableLE T] {cb : CircuitBreaker T} {fallback : ι → Bool}

/-- A call is pending after its step only if it was before, and did not record, or if it
    has just been let through. -/
theorem pending_from {log : Log ι E V} {i : ι} {p : Phase E V} (hk : Known log i p) {c : Cmd}
    {k : Except (Exc E) (Ans V c) → Phase E V} (hh : headOf cb fallback i p = .goes c k) {x : Chance T E V}
    {m : Mem ι T} {rm : Except (Exc E) (Ans V c) × Mem ι T} (hx : (memory cb).exec i c x m = some rm)
    (hp : (k rm.1).pending) : p.pending ∨ p = .checking := by
  cases p with
  | checking => exact .inr rfl
  | locking => cases hh; cases hr : rm.1 <;> (rw [hr] at hp; exact hp.elim)
  | updating => cases hh; cases hx; exact hp.elim
  | fallingFast => cases hh; cases hr : rm.1 <;> (rw [hr] at hp; exact hp.elim)
  | leaving r =>
    cases hh; cases hx
    cases r with
    | error y => exact hp.elim
    | ok a =>
      cases a with
      | none => exact .inl trivial
      | some v => exact hp.elim
  | leavingOk r =>
    cases hh; cases hx
    obtain ⟨-, v, rfl⟩ := hk
    exact hp.elim
  | leavingErr y r =>
    cases hh; cases hx
    obtain ⟨-, rfl⟩ := hk
    change (if fallback i then Phase.fallingBack y else .fail y : Phase E V).pending at hp
    split at hp <;> exact hp.elim
  | fallingBack y => cases hh; cases hr : rm.1 <;> (rw [hr] at hp; exact hp.elim)
  | ended r => cases hh
  | starting | running | lockingOk | recordingOk | lockingErr | recordingErr => exact .inl trivial

/-- A record in a half-open breaker decides it, and nothing else makes it half-open but
    an admission check after the recovery timeout. -/
theorem exec_halfOpen {i : ι} {c : Cmd} {x : Chance T E V} {m : Mem ι T} {rm : Except (Exc E) (Ans V c) × Mem ι T}
    (hx : (memory cb).exec i c x m = some rm) (hs : rm.2.state = .halfOpen) :
    (m.state = .halfOpen ∧ c ≠ .onSuccess ∧ c ≠ .onFailure) ∨
      (c = .updateStateIfNeeded ∧ m.state = .opened ∧ cb.recoveryTimeoutSec ≤ x.now - m.lastStateChange) := by
  cases c with
  | onSuccess =>
    cases hx
    simp only [Mem.onSuccess] at hs
    split at hs
    · cases hs
    · split at hs <;> exact absurd hs ‹_›
  | onFailure =>
    cases hx
    simp only [Mem.onFailure] at hs
    split at hs
    · cases hs
    · rename_i hn
      exact absurd (.inl hs) hn
  | updateStateIfNeeded =>
    cases hx
    rcases update_cases cb m x.now x.later with hu | ⟨h1, h2, -⟩
    · rw [hu] at hs
      exact .inl ⟨hs, by decide⟩
    · exact .inr ⟨rfl, h1, h2⟩
  | lock | unlock | state | startFunc | awaitFunc | fallback =>
    obtain ⟨l, hl⟩ := exec_quiet hx trivial
    rw [hl] at hs
    exact .inl ⟨hs, by decide⟩

variable [DecidableEq ι]

theorem TrialInv.step {u u' : St ι T E V} (hi : TrialInv u) {e : Ev ι (Chance T E V) Empty}
    (hok : Cooled cb ((calls cb fallback).threadsOf u) e)
    (hs : ((calls cb fallback).phases (memory cb)).step u e = some u') : TrialInv u' := by
  refine ⟨known_step hi.known hs, ?_⟩
  intro hhalf j hj
  cases e with
  | env e => exact nomatch e
  | run i x =>
    obtain ⟨c, k, rm, hh, hx, rfl⟩ := Flow.step_run _ hs
    rcases exec_halfOpen hx hhalf with ⟨hold, hc⟩ | ⟨rfl, hopen, htime⟩
    · by_cases e : j = i
      · subst e
        rw [Phases.did_ph_same] at hj
        rcases pending_from (hi.known j) hh hx hj with hp | hp
        · exact (hi.trial hold j hp).snoc hc
        · -- it reads the state that it is let through in
          change headOf cb fallback j (u.ph j) = _ at hh
          rw [hp] at hh
          cases hh
          cases hx
          refine ⟨u.log, [], ?_, ?_⟩
          · rw [Phases.did_log, hold]
          · intro k h
            rcases h with ⟨_, h⟩ | ⟨_, h⟩ <;> cases h
      · rw [Phases.did_ph_ne _ _ _ _ _ _ e] at hj
        exact (hi.trial hold j hj).snoc hc
    · by_cases e : j = i
      · subst e
        rw [Phases.did_ph_same] at hj
        rcases pending_from (hi.known j) hh hx hj with hp | hp
        · have hcmd := Flow.cmd_of_head (calls cb fallback) hh
          exact absurd ⟨(hi.known j).pending hp, _, hcmd⟩ (hok hcmd hopen htime j)
        · change headOf cb fallback j (u.ph j) = _ at hh
          rw [hp] at hh
          cases hh
      · rw [Phases.did_ph_ne _ _ _ _ _ _ e] at hj
        have hcmd := Flow.cmd_of_head (calls cb fallback) hh
        obtain ⟨c', k', hh'⟩ : ∃ c k, headOf cb fallback j (u.ph j) = .goes c k := by
          cases hq : u.ph j <;> first | exact ⟨_, _, rfl⟩ | (rw [hq] at hj; exact hj.elim)
        have hcmd' := Flow.cmd_of_head (calls cb fallback) hh'
        exact absurd ⟨(hi.known j).pending hj, _, hcmd'⟩ (hok hcmd hopen htime j)

/-- A step that takes the breaker out of half-open is the record of a call, which is
    pending. -/
theorem pending_of_leaves {u u' : St ι T E V} (hs : u.mem.state = .halfOpen) {i : ι} {x : Chance T E V}
    (hstep : ((calls cb fallback).phases (memory cb)).step u (.run i x) = some u') (hleave : u'.mem.state ≠ .halfOpen) :
    (u.ph i).pending := by
  obtain ⟨c, k, rm, hh, hx, rfl⟩ := Flow.step_run _ hstep
  have hrec : c = .onSuccess ∨ c = .onFailure := by
    by_contra hn
    apply hleave
    change rm.2.state = .halfOpen
    cases c with
    | onSuccess => exact absurd (.inl rfl) hn
    | onFailure => exact absurd (.inr rfl) hn
    | updateStateIfNeeded =>
      cases hx
      rcases update_cases cb u.mem x.now x.later with hu | ⟨h1, -⟩
      · rw [hu]; exact hs
      · rw [hs] at h1; cases h1
    | lock | unlock | state | startFunc | awaitFunc | fallback =>
      obtain ⟨l, hl⟩ := exec_quiet hx trivial
      rw [hl]
      exact hs
  change headOf cb fallback i (u.ph i) = .goes c k at hh
  rcases hrec with rfl | rfl <;> cases hp : u.ph i <;> (rw [hp] at hh; cases hh) <;> trivial

end Trial

/-! ## In the NestJS service -/

namespace Nest

section Trial

variable {ι E V : Type}

/-- Call `i` was let through while the service was half-open, and nothing was recorded
    since, so it is the same half-open period. -/
def LetThroughSince (log : List (Did ι E V)) (i : ι) : Prop :=
  ∃ before after, log = before ++ .checked i .halfOpen :: after ∧ ∀ j outcome, .settled j outcome ∉ after

/-- When the recovery timeout is found to be over, no call is running its `func`. -/
def Cooled (s : Run ι E V) : Ev ι E V → Prop
  | .arrive _ now _ | .query now _ =>
    s.breaker.state = .opened → recoveryTimeoutMs ≤ now - s.breaker.lastStateChange → ∀ j, s.phase j ≠ .running
  | .settle _ _ _ => True

/-- In a half-open service every running call was let through since it is so. -/
def Trials (s : Run ι E V) : Prop :=
  s.breaker.state = .halfOpen → ∀ j, s.phase j = .running → LetThroughSince s.log j

theorem LetThroughSince.checked {log : List (Did ι E V)} {i j : ι} {found : CircuitState} (h : LetThroughSince log j) :
    LetThroughSince (log ++ [.checked i found]) j := by
  obtain ⟨before, after, rfl, hn⟩ := h
  exact ⟨before, after ++ [.checked i found], by simp, fun k outcome => by simpa using hn k outcome⟩

theorem letThroughSince_new (log : List (Did ι E V)) (i : ι) : LetThroughSince (log ++ [.checked i .halfOpen]) i :=
  ⟨log, [], rfl, fun _ _ => List.not_mem_nil⟩

/-- A record decides a half-open service, and makes none half-open. -/
theorem record_ne_halfOpen (b : CircuitBreakerService) (outcome : Except E V) (now : Int) :
    (b.record outcome now).state ≠ .halfOpen := by
  cases outcome with
  | ok v =>
    show (b.onSuccess now).state ≠ .halfOpen
    unfold CircuitBreakerService.onSuccess
    split
    · simp
    · split
      · simp_all
      · assumption
  | error y =>
    show (b.onFailure now).state ≠ .halfOpen
    simp only [CircuitBreakerService.onFailure]
    split
    · simp
    · rename_i hn
      exact fun h => hn (.inl h)

theorem update_keeps_halfOpen {b : CircuitBreakerService} (h : b.state = .halfOpen) (now later : Int) :
    b.updateStateIfNeeded now later = b := by
  rcases update_cases b now later with hu | ⟨ho, -⟩
  · exact hu
  · rw [h] at ho; cases ho

variable [DecidableEq ι] {fallback : ι → Bool} {s s' : Run ι E V} {e : Ev ι E V}

theorem Trials.step (hi : Trials s) (hok : Cooled s e) (hs : (service fallback).step s e = some s') : Trials s' := by
  cases e with
  | query now later =>
    rw [step_query hs]
    intro hhalf j hj
    rcases update_cases s.breaker now later with hu | ⟨hopen, htime, -⟩
    · rw [hu] at hhalf
      exact hi hhalf j hj
    · exact absurd hj (hok hopen htime j)
  | settle i outcome now =>
    obtain ⟨-, rfl⟩ := step_settle hs
    exact fun hhalf => absurd hhalf (record_ne_halfOpen s.breaker outcome now)
  | arrive i now later =>
    obtain ⟨-, rfl⟩ := step_arrive hs
    intro hhalf j hj
    change (s.breaker.updateStateIfNeeded now later).state = .halfOpen at hhalf
    change Function.update s.phase i _ j = .running at hj
    change LetThroughSince (s.log ++ [.checked i (s.breaker.updateStateIfNeeded now later).state]) j
    by_cases e : j = i
    · -- it found the state that it is let through in
      subst e
      rw [hhalf]
      exact letThroughSince_new s.log j
    · rw [Function.update_of_ne e] at hj
      rcases update_cases s.breaker now later with hu | ⟨hopen, htime, -⟩
      · rw [hu] at hhalf
        exact (hi hhalf j hj).checked
      · exact absurd hj (hok hopen htime j)

/-- Only the record of a running call takes the service out of half-open. -/
theorem settle_of_leaves (hhalf : s.breaker.state = .halfOpen) (hs : (service fallback).step s e = some s')
    (hleave : s'.breaker.state ≠ .halfOpen) : ∃ i outcome now, e = .settle i outcome now ∧ s.phase i = .running := by
  cases e with
  | query now later =>
    rw [step_query hs, update_keeps_halfOpen hhalf] at hleave
    exact absurd hhalf hleave
  | settle i outcome now => exact ⟨i, outcome, now, rfl, (step_settle hs).1⟩
  | arrive i now later =>
    obtain ⟨-, rfl⟩ := step_arrive hs
    change (s.breaker.updateStateIfNeeded now later).state ≠ .halfOpen at hleave
    rw [update_keeps_halfOpen hhalf] at hleave
    exact absurd hhalf hleave

end Trial

end Nest

section Trial

variable {ι T E V : Type} [Sub T] [LE T] [DecidableLE T] [DecidableEq ι] {cb : CircuitBreaker T} {fallback : ι → Bool}

/-- In every run in which no call from before is in flight when the breaker turns
    half-open: the call whose record takes it out of half-open was let through in that
    same half-open period. The same for the NestJS service, which a query turns
    half-open too, and only a call's record takes out of it. -/
theorem trial_decides :
    (∀ (t₀ : T) (s s' : Calling ι T E V) (i : ι) (x : Chance T E V),
      (threads (memory cb)).Reach (Cooled cb) (start (Mem.init t₀) fun i => call cb (fallback i)) s →
      s.mem.state = .halfOpen → (threads (memory cb)).step s (.run i x) = some s' → s'.mem.state ≠ .halfOpen →
      LetThroughSince s.log i) ∧
    (∀ (t₀ : Int) (s s' : Nest.Run ι E V) (e : Nest.Ev ι E V),
      (Nest.service fallback).Reach Nest.Cooled (Nest.Run.start t₀) s → s.breaker.state = .halfOpen →
      (Nest.service fallback).step s e = some s' → s'.breaker.state ≠ .halfOpen →
      ∃ i outcome now, e = .settle i outcome now ∧ Nest.LetThroughSince s.log i) := by
  constructor
  · intro t₀ s s' i x h hs hstep hleave
    rw [← calls_start] at h
    obtain ⟨u, hu, rfl⟩ := Flow.follows _ h
    have hi : TrialInv u := hu.invariant (P := TrialInv) (trialInv_start _)
      fun _ _ _ hi hok hs => hi.step hok hs
    rw [Flow.step_threadsOf, Option.map_eq_some_iff] at hstep
    obtain ⟨u', hu', rfl⟩ := hstep
    exact hi.trial hs i (pending_of_leaves hs hu' hleave)
  · intro t₀ s s' e h hs hstep hleave
    have h0 : Nest.Trials (Nest.Run.start t₀ : Nest.Run ι E V) := fun hs => by cases hs
    have hi : Nest.Trials s := h.invariant (P := Nest.Trials) h0 fun _ _ _ hi hok hs => hi.step hok hs
    obtain ⟨i, outcome, now, rfl, hrunning⟩ := Nest.settle_of_leaves hs hstep hleave
    exact ⟨i, outcome, now, rfl, hi hs i hrunning⟩

end Trial

/-! ## A slow call -/

section Readings

variable {ι E V : Type} [DecidableEq ι]

/-- The states that call `i`'s admission check found. -/
def readings (log : Log ι E V) (i : ι) : List CircuitState :=
  log.filterMap fun
    | .did j .state (.ok state) => if j = i then some state else none
    | _ => none

theorem found_iff {log : Log ι E V} {i : ι} {state : CircuitState} : Found log i state ↔ state ∈ readings log i := by
  unfold Found readings
  rw [List.mem_filterMap]
  constructor
  · exact fun h => ⟨_, h, if_pos rfl⟩
  · rintro ⟨e, he, h⟩
    split at h
    · simp only [Option.ite_none_right_eq_some, Option.some.injEq] at h
      obtain ⟨rfl, rfl⟩ := h
      exact he
    · cases h

/-- The calls that recorded an outcome. -/
def recorders (log : Log ι E V) : List ι :=
  log.filterMap fun
    | .did j .onSuccess _ => some j
    | .did j .onFailure _ => some j
    | _ => none

omit [DecidableEq ι] in
theorem recorded_of_mem {log : Log ι E V} {i : ι} (h : i ∈ recorders log) : Recorded log i := by
  obtain ⟨e, he, h⟩ := List.mem_filterMap.mp h
  split at h
  · cases h; exact .inl ⟨_, he⟩
  · cases h; exact .inr ⟨_, he⟩
  · cases h

end Readings

def flaky : CircuitBreaker Int := ⟨"flaky", 1, 5⟩

def succeeding (now : Int) : Chance Int Unit Unit := ⟨now, now, .ok (), false⟩

/-- The first call is slow; the second fails and opens the breaker; the third is let
    through to try again; then the first one's `func` returns. -/
def slowRun : List (Ev Caller (Chance Int Unit Unit) Empty) :=
  List.replicate 5 (.run Caller.first (succeeding 0)) ++ List.replicate 9 (.run Caller.second (failing 1)) ++
    List.replicate 5 (.run Caller.third (succeeding 10)) ++ List.replicate 2 (.run Caller.first (succeeding 12))

def slow : Calling Caller Int Unit Unit :=
  ((threads (memory flaky)).run (start (Mem.init 0) fun _ => call flaky false) slowRun).get rfl

/-- Its success closes the breaker, though it was let through before the outage and the
    trial call is still running. -/
theorem slow_call_decides : ∃ s s' : Calling Caller Int Unit Unit,
    (threads (memory flaky)).Reach Machine.any (start (Mem.init 0) fun _ => call flaky false) s ∧
      s.mem.state = .halfOpen ∧ (threads (memory flaky)).step s (.run .first (succeeding 12)) = some s' ∧
      s'.mem.state = .closed ∧ ¬ LetThroughSince s.log .first := by
  refine ⟨slow, _, Machine.reach_any_of_run slowRun (Option.some_get _).symm, rfl, rfl, rfl, ?_⟩
  rintro ⟨before, after, hlog, -⟩
  have hfound : Found slow.log .first .halfOpen := by rw [Found, hlog]; simp
  rw [found_iff] at hfound
  exact absurd hfound (by decide)

/-- The first call fails and opens the breaker; the second tries again later. -/
def retryRun : List (Ev Caller (Chance Int Unit Unit) Empty) :=
  List.replicate 9 (.run Caller.first (failing 1)) ++ List.replicate 7 (.run Caller.second (succeeding 10))

/-- Every call has recorded, or has not been let through yet. -/
def Settled (s : Calling Caller Int Unit Unit) (_ : Ev Caller (Chance Int Unit Unit) Empty) : Prop :=
  s.mem.state = .opened → ∀ j, j ∈ recorders s.log ∨ readings s.log j = []

instance (s : Calling Caller Int Unit Unit) (e : Ev Caller (Chance Int Unit Unit) Empty) : Decidable (Settled s e) :=
  inferInstanceAs (Decidable (_ → ∀ _, _))

theorem Settled.cooled {s : Calling Caller Int Unit Unit} {e : Ev Caller (Chance Int Unit Unit) Empty}
    (h : Settled s e) : Cooled flaky s e := by
  cases e with
  | env e => exact nomatch e
  | run i x =>
    intro _ hs _ j hj
    rcases h hs j with hr | hr
    · exact hj.1.unrecorded (recorded_of_mem hr)
    · obtain ⟨state, -, hf⟩ := hj.1.found
      rw [found_iff, hr] at hf
      cases hf

def retrying : Calling Caller Int Unit Unit :=
  ((threads (memory flaky)).runIf Settled (start (Mem.init 0) fun _ => call flaky false) retryRun).get rfl

instance {E V : Type} (p : Nest.Phase E V) : Decidable (p = .running) :=
  match p with
  | .running => isTrue rfl
  | .uncalled => isFalse fun h => by cases h
  | .ended _ => isFalse fun h => by cases h

instance (s : Nest.Run (Fin 5) Unit Unit) (e : Nest.Ev (Fin 5) Unit Unit) : Decidable (Nest.Cooled s e) :=
  match e with
  | .arrive _ _ _ | .query _ _ => inferInstanceAs (Decidable (_ → _ → ∀ _, ¬ _))
  | .settle _ _ _ => isTrue trivial

/-- Four calls fail and leave the service open; a query turns it half-open, and another
    call comes. -/
def queriedRun : List (Nest.Ev (Fin 5) Unit Unit) :=
  [.arrive 0 0 0, .arrive 1 0 0, .arrive 2 0 0, .arrive 3 0 0, .settle 0 (.error ()) 1, .settle 1 (.error ()) 2,
    .settle 2 (.error ()) 3, .settle 3 (.error ()) 4, .query 4004 4004, .arrive 4 4005 4005]

def queried : Nest.Run (Fin 5) Unit Unit :=
  ((Nest.service fun _ => false).runIf Nest.Cooled (Nest.Run.start 0) queriedRun).get rfl

theorem retry_decides : (retrying.mem.state = .halfOpen ∧ LetThroughSince retrying.log .second) ∧
    queried.breaker.state = .halfOpen ∧ Nest.LetThroughSince queried.log 4 := by
  have hr : (threads (memory flaky)).Reach (Cooled flaky) (start (Mem.init 0) fun i => call flaky false) retrying :=
    (Machine.reach_of_runIf retryRun (Option.some_get _).symm).mono fun _ _ h => h.cooled
  have hq : (Nest.service fun _ => false).Reach Nest.Cooled (Nest.Run.start 0) queried :=
    Machine.reach_of_runIf queriedRun (Option.some_get _).symm
  have h := @trial_decides Caller Int Unit Unit _ _ _ _ flaky fun _ => false
  have h' := @trial_decides (Fin 5) Int Unit Unit _ _ _ _ flaky fun _ => false
  refine ⟨⟨rfl, h.1 0 retrying _ .second (succeeding 10) hr rfl rfl (by decide)⟩, rfl, ?_⟩
  obtain ⟨i, outcome, now, he, hi⟩ := h'.2 0 queried _ (.settle 4 (.ok ()) 4006) hq rfl rfl (by decide)
  cases he
  exact hi

end Playground.Breaker
