/-
  Playground.Breaker.Cooldown — from when the cooldown counts.

  `last_state_change` is to be the time of the latest change of state, so that an open
  breaker tries again `recovery_timeout_sec` after it opened. `_on_failure` sets it for
  every failure it records at or over the threshold, also when the breaker is open
  already:
  - `cooldown_from_opening`: as long as no failure is recorded in an open breaker at a
    new reading of the clock, `last_state_change` is the time of the latest change, and
    a call that comes a recovery timeout after it is let through to try; the first such
    failure is the first to break this. The same for the NestJS service.
  - `cooldown_pushed_back`: a slow call that fails while the breaker is open pushes the
    end of the cooldown back.
-/

import Playground.Breaker.NestService
import Playground.Breaker.UserCode

namespace Playground.Breaker

open Playground.Lib

section Cooldown

variable {ι T E V : Type}

/-- The last reading of the clock in a step. -/
def stepTime (s : Calling ι T E V) : Ev ι (Chance T E V) Empty → T
  | .run i x => if (s.thr i).next = some .updateStateIfNeeded then x.later else x.now
  | .env e => nomatch e

/-- The time of the latest step that changed `state`, after one more step. -/
def changeTime (since : T) (s : Calling ι T E V) (e : Ev ι (Chance T E V) Empty) (s' : Calling ι T E V) : T :=
  if s'.mem.state = s.mem.state then since else stepTime s e

/-- A failure recorded while the breaker is open is recorded at the reading it is
    stamped with already. -/
def Unstamped (s : Calling ι T E V) : Ev ι (Chance T E V) Empty → Prop
  | .run i x => (s.thr i).next = some .onFailure → s.mem.state = .opened → x.now = s.mem.lastStateChange
  | .env e => nomatch e

/-- Call `i` is let through to try: its check found the breaker half-open, or is to
    find it so. -/
def LetThrough (s : Calling ι T E V) (i : ι) : Prop :=
  ((s.thr i).next = some .state ∧ s.mem.state = .halfOpen) ∨ (Found s.log i .halfOpen ∧ ¬ Found s.log i .opened)

/-- Past the admission check. -/
def Phase.past : Phase E V → Prop
  | .locking => False
  | .updating => False
  | .checking => False
  | _ => True

theorem past_caught (x : Exc E) : (Phase.caught x : Phase E V).past := by
  unfold Phase.caught
  split <;> trivial

theorem past_checked {cb : CircuitBreaker T} (hasFallback : Bool) (state : CircuitState) :
    (Phase.checked cb hasFallback state : Phase E V).past := by
  unfold Phase.checked
  split
  · split <;> trivial
  · trivial

variable {cb : CircuitBreaker T} {fallback : ι → Bool}

theorem LetThrough.of_checked {u : St ι T E V} {i : ι} (h : (u.ph i = .checking ∧
    u.mem.state = .halfOpen ∧ ¬ Found u.log i .opened) ∨ ((u.ph i).past ∧ Found u.log i .halfOpen ∧
      ¬ Found u.log i .opened)) : LetThrough ((calls cb fallback).threadsOf u) i := by
  rcases h with ⟨hp, hs, -⟩ | ⟨-, hf⟩
  · refine .inl ⟨?_, hs⟩
    show (codeOf cb fallback i (u.ph i)).next = _
    rw [hp]
    rfl
  · exact .inr hf

variable [Sub T] [LE T] [DecidableLE T]

/-- A command stamps the breaker with the time of its change of state, if it is no
    failure of an open breaker at another reading. -/
theorem stamp_iff {m : Mem ι T} (htrip : m.state ≠ .closed → cb.failureThreshold ≤ m.failureCount) {i : ι} {c : Cmd}
    {x : Chance T E V} {rm : Except (Exc E) (Ans V c) × Mem ι T} (hx : (memory cb).exec i c x m = some rm) :
    rm.2.lastStateChange = (if rm.2.state = m.state then m.lastStateChange
      else if some c = some .updateStateIfNeeded then x.later else x.now) ↔
    (some c = some .onFailure → m.state = .opened → x.now = m.lastStateChange) := by
  cases c with
  | lock | unlock | state | startFunc | awaitFunc | fallback =>
    obtain ⟨l, hl⟩ := exec_quiet hx trivial
    rw [hl]
    simp
  | updateStateIfNeeded =>
    cases hx
    rcases update_cases cb m x.now x.later with hu | ⟨hs, -, hu⟩
    · rw [hu]; simp
    · rw [hu]; simp [hs]
  | onSuccess =>
    cases hx
    simp only [Mem.onSuccess]
    split
    · rename_i hs
      simp [hs]
    · split <;> simp
  | onFailure =>
    cases hx
    by_cases ho : m.state = .opened
    · have := htrip (by rw [ho]; decide)
      have hm : m.onFailure cb x.now =
          { m with failureCount := m.failureCount + 1, state := .opened, lastStateChange := x.now } :=
        if_pos (.inr (by omega))
      simp [hm, ho]
    · simp only [Mem.onFailure]
      split
      · simp [ho, Ne.symm ho]
      · simp [ho]

theorem past_step {i : ι} {p : Phase E V} {c : Cmd} {k : Except (Exc E) (Ans V c) → Phase E V}
    (hh : headOf cb fallback i p = .goes c k) (hp : p.past) {x : Chance T E V} {m : Mem ι T}
    {rm : Except (Exc E) (Ans V c) × Mem ι T} (hx : (memory cb).exec i c x m = some rm) :
    c ≠ .state ∧ (k rm.1).past := by
  cases p with
  | locking | updating | checking => exact hp.elim
  | fallingFast => cases hh; exact ⟨by decide, by cases rm.1 <;> trivial⟩
  | leaving r =>
    cases hh; cases hx
    refine ⟨by decide, ?_⟩
    cases r with
    | error y => trivial
    | ok a => cases a <;> trivial
  | starting => cases hh; cases hx; exact ⟨by decide, trivial⟩
  | running => cases hh; exact ⟨by decide, by cases rm.1 <;> first | trivial | exact past_caught _⟩
  | lockingOk v => cases hh; exact ⟨by decide, by cases rm.1 <;> first | trivial | exact past_caught _⟩
  | recordingOk v => cases hh; cases hx; exact ⟨by decide, trivial⟩
  | leavingOk r =>
    cases hh; cases hx
    refine ⟨by decide, ?_⟩
    cases r with
    | ok v => trivial
    | error y => exact past_caught y
  | lockingErr y => cases hh; exact ⟨by decide, by cases rm.1 <;> trivial⟩
  | recordingErr y => cases hh; cases hx; exact ⟨by decide, trivial⟩
  | leavingErr y r =>
    cases hh; cases hx
    refine ⟨by decide, ?_⟩
    cases r with
    | error z => trivial
    | ok a =>
      show (if fallback i then Phase.fallingBack y else .fail y : Phase E V).past
      split <;> trivial
  | fallingBack y => cases hh; exact ⟨by decide, by cases rm.1 <;> trivial⟩
  | ended r => cases hh

/-- Only from inside the lock does a call change the state. -/
theorem state_kept {i : ι} {p : Phase E V} {c : Cmd} {k : Except (Exc E) (Ans V c) → Phase E V}
    (hh : headOf cb fallback i p = .goes c k) (hp : ¬ p.holds) {x : Chance T E V} {m : Mem ι T}
    {rm : Except (Exc E) (Ans V c) × Mem ι T} (hx : (memory cb).exec i c x m = some rm) : rm.2.state = m.state := by
  cases p with
  | updating | checking | fallingFast | leaving | recordingOk | leavingOk | recordingErr | leavingErr =>
    exact absurd trivial hp
  | locking | lockingOk | lockingErr => cases hh; rcases exec_lock hx with ⟨-, rfl⟩ | rfl <;> rfl
  | starting | running | fallingBack => cases hh; cases hx; rfl
  | ended r => cases hh

theorem tripped {t₀ : T} [DecidableEq ι] {s : Calling ι T E V} (h : (threads (memory cb)).Reach Machine.any
    (start (Mem.init t₀) fun i => call cb (fallback i)) s) :
    s.mem.state ≠ .closed → cb.failureThreshold ≤ s.mem.failureCount := by
  by_cases hthr : 1 ≤ cb.failureThreshold
  · exact (sound_of_reach hthr h).tripped
  · intro _
    omega

variable [DecidableEq ι]

/-- The call that turned the breaker half-open holds the lock until its check, so nobody
    changes the state before. -/
theorem letThrough_step {u u' : St ι T E V} (hu : HeldInside u) {i : ι} (hi : (u.ph i = .checking ∧
    u.mem.state = .halfOpen ∧ ¬ Found u.log i .opened) ∨ ((u.ph i).past ∧ Found u.log i .halfOpen ∧
      ¬ Found u.log i .opened)) {e : Ev ι (Chance T E V) Empty}
    (hs : ((calls cb fallback).phases (memory cb)).step u e = some u') :
    (u'.ph i = .checking ∧ u'.mem.state = .halfOpen ∧ ¬ Found u'.log i .opened) ∨
      ((u'.ph i).past ∧ Found u'.log i .halfOpen ∧ ¬ Found u'.log i .opened) := by
  cases e with
  | env e => exact nomatch e
  | run j x =>
    obtain ⟨c, k, rm, hh, hx, rfl⟩ := Flow.step_run _ hs
    change headOf cb fallback j (u.ph j) = .goes c k at hh
    rcases hi with ⟨hp, hstate, hno⟩ | ⟨hp, hyes, hno⟩
    · by_cases e : i = j
      · subst e
        rw [hp] at hh
        cases hh; cases hx
        refine .inr ⟨?_, ?_, ?_⟩
        · rw [Phases.did_ph_same]
          exact past_checked _ _
        · rw [Phases.did_log, hstate]
          exact List.mem_append_right _ (List.mem_singleton.mpr rfl)
        · rw [Phases.did_log, hstate]
          intro h
          rcases List.mem_append.mp h with h | h
          · exact hno h
          · cases List.mem_singleton.mp h
      · have hin : ¬ (u.ph j).holds := by
          intro hj
          have hheld := (hu i).mpr (by rw [hp]; trivial)
          exact e (Option.some.inj (hheld.symm.trans ((hu j).mpr hj)))
        refine .inl ⟨?_, ?_, ?_⟩
        · rw [Phases.did_ph_ne _ _ _ _ _ _ e]
          exact hp
        · rw [Phases.did_mem, state_kept hh hin hx]
          exact hstate
        · rw [Phases.did_log, found_snoc (.inl e)]
          exact hno
    · refine .inr ?_
      by_cases e : i = j
      · subst e
        obtain ⟨hc, hpast⟩ := past_step hh hp hx
        rw [Phases.did_ph_same, Phases.did_log, found_snoc (.inr hc), found_snoc (.inr hc)]
        exact ⟨hpast, hyes, hno⟩
      · rw [Phases.did_ph_ne _ _ _ _ _ _ e, Phases.did_log, found_snoc (.inl e), found_snoc (.inl e)]
        exact ⟨hp, hyes, hno⟩

/-- A call that finds the recovery timeout over is let through, whatever the others do
    in the meantime. -/
theorem update_letsThrough {t₀ : T} {s s' s'' : Calling ι T E V} (h : (threads (memory cb)).Reach Machine.any
    (start (Mem.init t₀) fun i => call cb (fallback i)) s) {i : ι} {x : Chance T E V}
    (hnext : (s.thr i).next = some .updateStateIfNeeded) (hopen : s.mem.state = .opened)
    (htime : cb.recoveryTimeoutSec ≤ x.now - s.mem.lastStateChange)
    (hs : (threads (memory cb)).step s (.run i x) = some s') (h' : (threads (memory cb)).Reach Machine.any s' s'') :
    LetThrough s'' i := by
  rw [← calls_start] at h
  obtain ⟨u, hu, rfl⟩ := Flow.follows _ h
  obtain ⟨hheld, hknown⟩ := hu.invariant (P := fun u => HeldInside u ∧ ∀ j, Known u.log j (u.ph j))
    ⟨heldInside_start t₀, known_start⟩ fun _ _ _ hi _ hs => ⟨hi.1.step hs, known_step hi.2 hs⟩
  rw [Flow.step_threadsOf, Option.map_eq_some_iff] at hs
  obtain ⟨u', hu', rfl⟩ := hs
  have hheld' := hheld.step hu'
  obtain ⟨c, k, rm, hh, hx, rfl⟩ := Flow.step_run _ hu'
  have hcode := (calls cb fallback).next_of_head hh
  cases Option.some.inj (hcode.symm.trans hnext)
  have hp : u.ph i = .updating := by
    change headOf cb fallback i (u.ph i) = _ at hh
    cases hp : u.ph i <;> rw [hp] at hh <;> cases hh
  change headOf cb fallback i (u.ph i) = _ at hh
  have hno := hknown i
  rw [hp] at hh hno
  cases hh; cases hx
  obtain ⟨w, hw, rfl⟩ := Flow.follows _ h'
  apply LetThrough.of_checked
  refine (hw.invariant (P := fun w => HeldInside w ∧ ((w.ph i = .checking ∧ w.mem.state = .halfOpen ∧
    ¬ Found w.log i .opened) ∨ ((w.ph i).past ∧ Found w.log i .halfOpen ∧ ¬ Found w.log i .opened)))
    ⟨hheld', .inl ⟨Phases.did_ph_same .., ?_, ?_⟩⟩ fun _ _ _ hi _ hs => ⟨hi.1.step hs, letThrough_step hi.1 hi.2 hs⟩).2
  · show (u.mem.updateStateIfNeeded cb x.now x.later).state = .halfOpen
    change u.mem.state = .opened at hopen
    change cb.recoveryTimeoutSec ≤ x.now - u.mem.lastStateChange at htime
    simp only [Mem.updateStateIfNeeded, hopen, htime, if_true]
  · rw [Phases.did_log, found_snoc (.inr (by decide))]
    exact hno.1

end Cooldown

/-! ## The same in the NestJS service -/

namespace Nest

section Cooldown

variable {ι E V : Type}

def stepTime : Ev ι E V → Int
  | .arrive _ _ later => later
  | .settle _ _ now => now
  | .query _ later => later

def changeTime (since : Int) (s : Run ι E V) (e : Ev ι E V) (s' : Run ι E V) : Int :=
  if s'.breaker.state = s.breaker.state then since else stepTime e

def Unstamped (s : Run ι E V) : Ev ι E V → Prop
  | .settle _ (.error _) now => s.breaker.state = .opened → now = s.breaker.lastStateChange
  | _ => True

/-- Open and half-open only from the threshold on. -/
def Tripped (b : CircuitBreakerService) : Prop := b.state ≠ .closed → failureThreshold ≤ b.failureCount

theorem Tripped.update {b : CircuitBreakerService} (h : Tripped b) (now later : Int) :
    Tripped (b.updateStateIfNeeded now later) := by
  rcases update_cases b now later with hu | ⟨ho, -, hu⟩
  · rw [hu]
    exact h
  · rw [hu]
    intro _
    exact h (by rw [ho]; decide)

theorem Tripped.record {b : CircuitBreakerService} (h : Tripped b) (outcome : Except E V) (now : Int) :
    Tripped (b.record outcome now) := by
  cases outcome with
  | ok v =>
    show Tripped (b.onSuccess now)
    unfold CircuitBreakerService.onSuccess
    split
    · exact fun hc => absurd rfl hc
    · split
      · exact fun hc => absurd ‹_› hc
      · exact h
  | error y =>
    show Tripped (b.onFailure now)
    simp only [CircuitBreakerService.onFailure]
    split
    · rename_i ho
      intro _
      show failureThreshold ≤ b.failureCount + 1
      rcases ho with ho | hle
      · have := h (by rw [ho]; decide)
        omega
      · exact hle
    · intro hc
      have := h hc
      show failureThreshold ≤ b.failureCount + 1
      omega

/-- Recording stamps the breaker with the time of its change of state, if it is no
    failure of an open breaker at another reading. -/
theorem record_stamp_iff {b : CircuitBreakerService} (htrip : Tripped b) (outcome : Except E V) (now : Int) :
    (b.record outcome now).lastStateChange =
      (if (b.record outcome now).state = b.state then b.lastStateChange else now) ↔
      (outcome.isOk = false → b.state = .opened → now = b.lastStateChange) := by
  cases outcome with
  | ok v =>
    simp only [CircuitBreakerService.record, CircuitBreakerService.onSuccess]
    split
    · simp_all [Except.isOk, Except.toBool]
    · split <;> simp [Except.isOk, Except.toBool]
  | error y =>
    by_cases ho : b.state = .opened
    · have := htrip (by rw [ho]; decide)
      have hb : b.onFailure now =
          { b with failureCount := b.failureCount + 1, state := .opened, lastStateChange := now } :=
        if_pos (.inr (by omega))
      simp [CircuitBreakerService.record, hb, ho, Except.isOk, Except.toBool]
    · simp only [CircuitBreakerService.record, CircuitBreakerService.onFailure]
      split
      · simp [ho, Ne.symm ho]
      · simp [ho]

theorem update_stamp (b : CircuitBreakerService) (now later : Int) :
    (b.updateStateIfNeeded now later).lastStateChange =
      if (b.updateStateIfNeeded now later).state = b.state then b.lastStateChange else later := by
  rcases update_cases b now later with hu | ⟨ho, -, hu⟩
  · rw [hu, if_pos rfl]
  · simp [hu, ho]

variable [DecidableEq ι] {fallback : ι → Bool} {s s' : Run ι E V} {e : Ev ι E V}

theorem stamp_step (htrip : Tripped s.breaker) (hs : (service fallback).step s e = some s') :
    Tripped s'.breaker ∧
      (s'.breaker.lastStateChange = changeTime s.breaker.lastStateChange s e s' ↔ Unstamped s e) := by
  cases e with
  | arrive i now later =>
    obtain ⟨-, rfl⟩ := step_arrive hs
    exact ⟨htrip.update now later, iff_of_true (update_stamp ..) trivial⟩
  | query now later =>
    rw [step_query hs, changeTime]
    exact ⟨htrip.update now later, iff_of_true (update_stamp ..) trivial⟩
  | settle i outcome now =>
    obtain ⟨-, rfl⟩ := step_settle hs
    refine ⟨htrip.record outcome now, (record_stamp_iff htrip outcome now).trans ?_⟩
    cases outcome <;> simp [Unstamped, Except.isOk, Except.toBool]

/-- A call that finds the recovery timeout over runs `func`. -/
theorem arrive_letsThrough {i : ι} {now later : Int} (hopen : s.breaker.state = .opened)
    (htime : recoveryTimeoutMs ≤ now - s.breaker.lastStateChange)
    (hs : (service fallback).step s (.arrive i now later) = some s') :
    s'.phase i = .running ∧ s'.log = s.log ++ [.checked i .halfOpen] := by
  obtain ⟨-, rfl⟩ := step_arrive hs
  have hhalf : (s.breaker.updateStateIfNeeded now later).state = .halfOpen := by
    simp only [CircuitBreakerService.updateStateIfNeeded, hopen, htime, if_true]
  simp [hhalf, Phase.arrived]

end Cooldown

end Nest

/-! ## From the opening on -/

section Cooldown

variable {ι T E V : Type} [Sub T] [LE T] [DecidableLE T] [DecidableEq ι] {cb : CircuitBreaker T} {fallback : ι → Bool}

theorem stamp_step {s s' : Calling ι T E V} {e : Ev ι (Chance T E V) Empty}
    (htrip : s.mem.state ≠ .closed → cb.failureThreshold ≤ s.mem.failureCount)
    (hs : (threads (memory cb)).step s e = some s') :
    s'.mem.lastStateChange = changeTime s.mem.lastStateChange s e s' ↔ Unstamped s e := by
  cases e with
  | env e => exact nomatch e
  | run i x =>
    obtain ⟨c, k, rm, hk, hx, rfl⟩ := threads_run hs
    have hnext : (s.thr i).next = some c := by rw [hk]; rfl
    show rm.2.lastStateChange = (if rm.2.state = s.mem.state then s.mem.lastStateChange
      else if (s.thr i).next = some .updateStateIfNeeded then x.later else x.now) ↔
      ((s.thr i).next = some .onFailure → _)
    rw [hnext]
    exact stamp_iff htrip hx

/-- Every run in which no failure is recorded in an open breaker at a new reading:
    `last_state_change` is the time of the latest change of state, or of the creation; a
    call whose check comes a recovery timeout after that, in an open breaker, is let
    through to try; and the first step to break this records such a failure. -/
theorem cooldown_from_opening :
    (∀ (t₀ : T) (s : Calling ι T E V) (since : T),
      ((threads (memory cb)).noting changeTime).Reach (fun t e => Unstamped t.1 e)
        (start (Mem.init t₀) fun i => call cb (fallback i), t₀) (s, since) →
      s.mem.lastStateChange = since ∧
        (∀ i x s' s'', (s.thr i).next = some .updateStateIfNeeded → s.mem.state = .opened →
          cb.recoveryTimeoutSec ≤ x.now - since → (threads (memory cb)).step s (.run i x) = some s' →
          (threads (memory cb)).Reach Machine.any s' s'' → LetThrough s'' i) ∧
        (∀ e s', (threads (memory cb)).step s e = some s' →
          (s'.mem.lastStateChange = changeTime since s e s' ↔ Unstamped s e))) ∧
    (∀ (t₀ : Int) (s : Nest.Run ι E V) (since : Int),
      ((Nest.service fallback).noting Nest.changeTime).Reach (fun t e => Nest.Unstamped t.1 e)
        (Nest.Run.start t₀, t₀) (s, since) →
      s.breaker.lastStateChange = since ∧
        (∀ i now later s', s.breaker.state = .opened → since + Nest.recoveryTimeoutMs ≤ now →
          (Nest.service fallback).step s (.arrive i now later) = some s' →
          s'.phase i = .running ∧ s'.log = s.log ++ [.checked i .halfOpen]) ∧
        (∀ e s', (Nest.service fallback).step s e = some s' →
          (s'.breaker.lastStateChange = Nest.changeTime since s e s' ↔ Nest.Unstamped s e))) := by
  constructor
  · intro t₀ s since h
    have hany : ∀ {t : Calling ι T E V × T}, ((threads (memory cb)).noting changeTime).Reach
        (fun t e => Unstamped t.1 e) (start (Mem.init t₀) fun i => call cb (fallback i), t₀) t →
        (threads (memory cb)).Reach Machine.any (start (Mem.init t₀) fun i => call cb (fallback i)) t.1 :=
      fun ht => ht.forget.mono fun _ _ _ => trivial
    have hsince : s.mem.lastStateChange = since := by
      have h' : ((threads (memory cb)).noting changeTime).Reach (fun t e => Unstamped t.1 e ∧
          (t.1.mem.state ≠ .closed → cb.failureThreshold ≤ t.1.mem.failureCount))
          (start (Mem.init t₀) fun i => call cb (fallback i), t₀) (s, since) :=
        h.mono_of fun t e ht ho => ⟨ho, tripped (hany ht)⟩
      refine h'.invariant (P := fun t => t.1.mem.lastStateChange = t.2) rfl ?_
      rintro ⟨t, g⟩ e ⟨t', g'⟩ hi ⟨ho, htrip⟩ hs
      obtain ⟨hst, rfl⟩ := Machine.noting_step.mp hs
      change t.mem.lastStateChange = g at hi
      subst hi
      exact (stamp_step htrip hst).mpr ho
    subst hsince
    refine ⟨rfl, ?_, fun e s' hs => stamp_step (tripped (hany h)) hs⟩
    intro i x s' s'' hnext hopen htime hs h'
    exact update_letsThrough (hany h) hnext hopen htime hs h'
  · intro t₀ s since h
    obtain ⟨hsince, htrip⟩ := h.invariant (P := fun t => t.1.breaker.lastStateChange = t.2 ∧ Nest.Tripped t.1.breaker)
      ⟨rfl, fun hc => absurd rfl hc⟩ fun t e t' hi ho hs => by
        obtain ⟨hs, hg⟩ := Machine.noting_step.mp hs
        obtain ⟨htrip', hiff⟩ := Nest.stamp_step hi.2 hs
        rw [hg, ← hi.1]
        exact ⟨hiff.mpr ho, htrip'⟩
    change s.breaker.lastStateChange = since at hsince
    subst hsince
    refine ⟨rfl, ?_, fun e s' hs => (Nest.stamp_step htrip hs).2⟩
    intro i now later s' hopen htime hs
    exact Nest.arrive_letsThrough hopen (by omega) hs

instance (s : Calling ι T E V) [DecidableEq T] (e : Ev ι (Chance T E V) Empty) : Decidable (Unstamped s e) :=
  match e with
  | .run _ _ => inferInstanceAs (Decidable (_ → _ → _))
  | .env e => nomatch e

end Cooldown

/-! ## A late failure -/

/-- The first call is slow; the second fails at 1 and opens the breaker, which is to try
    again from 6 on; at 4 the first one fails too; the third comes at 7. -/
def lateFailure : List (Ev Caller (Chance Int Unit Unit) Empty) :=
  List.replicate 5 (.run Caller.first (failing 0)) ++ List.replicate 9 (.run Caller.second (failing 1)) ++
    List.replicate 4 (.run Caller.first (failing 4)) ++ [.run Caller.third (failing 7)]

/-- The readings of the clock, in order. -/
def clock (es : List (Ev Caller (Chance Int Unit Unit) Empty)) : List Int :=
  es.flatMap fun
    | .run _ x => [x.now, x.later]
    | .env e => nomatch e

def pushedBack : Calling Caller Int Unit Unit × Int :=
  (((threads (memory flaky)).noting changeTime).run (start (Mem.init 0) fun _ => call flaky false, 0)
    lateFailure).get rfl

/-- It is turned away, six units of time after the breaker opened for five. -/
theorem cooldown_pushed_back : (clock lateFailure).Pairwise (· ≤ ·) ∧
    ((threads (memory flaky)).noting changeTime).Reach Machine.any
      (start (Mem.init 0) fun _ => call flaky false, 0) pushedBack ∧
    pushedBack.1.mem.state = .opened ∧ pushedBack.2 = 1 ∧ pushedBack.1.mem.lastStateChange = 4 ∧
    ∃ s', (threads (memory flaky)).step pushedBack.1 (.run .third (failing 7)) = some s' ∧
      flaky.recoveryTimeoutSec ≤ (failing 7).now - pushedBack.2 ∧ ¬ LetThrough s' .third := by
  refine ⟨by decide, Machine.reach_any_of_run lateFailure (Option.some_get _).symm, rfl, rfl, rfl, _, rfl,
    by decide, ?_⟩
  rintro (⟨-, hs⟩ | ⟨hf, -⟩)
  · cases hs
  · rw [found_iff] at hf
    exact absurd hf (by decide)

instance {ι E V : Type} (s : Nest.Run ι E V) (e : Nest.Ev ι E V) : Decidable (Nest.Unstamped s e) :=
  match e with
  | .settle _ (.error _) _ => inferInstanceAs (Decidable (_ → _))
  | .settle _ (.ok _) _ => .isTrue trivial
  | .arrive _ _ _ => .isTrue trivial
  | .query _ _ => .isTrue trivial

/-- The first call fails at 1 and opens the breaker; the second comes at 6. -/
def promptRun : List (Ev Caller (Chance Int Unit Unit) Empty) :=
  List.replicate 9 (.run Caller.first (failing 1)) ++ [.run Caller.second (failing 6)]

def prompt : Calling Caller Int Unit Unit × Int :=
  (((threads (memory flaky)).noting changeTime).runIf (fun t e => Unstamped t.1 e)
    (start (Mem.init 0) fun _ => call flaky false, 0) promptRun).get rfl

/-- The service with three failures by one second, and the time it opened. -/
def nestFailures : List (Nest.Ev Caller Unit Unit) :=
  [.arrive .first 0 0, .arrive .second 0 0, .arrive .third 0 0, .settle .first (.error ()) 1,
    .settle .second (.error ()) 2, .settle .third (.error ()) 3]

def nestOpened : Nest.Run Caller Unit Unit × Int :=
  (((Nest.service fun _ => false).noting Nest.changeTime).runIf (fun t e => Nest.Unstamped t.1 e)
    (Nest.Run.start 0, 0) nestFailures).get rfl

theorem prompt_reach : ((threads (memory flaky)).noting changeTime).Reach (fun t e => Unstamped t.1 e)
    (start (Mem.init 0) fun _ => call flaky false, 0) (prompt.1, prompt.2) := by
  rw [Prod.mk.eta]
  exact Machine.reach_of_runIf promptRun (Option.some_get _).symm

theorem nestOpened_reach : ((Nest.service fun _ => false).noting Nest.changeTime).Reach
    (fun t e => Nest.Unstamped t.1 e) (Nest.Run.start 0, 0) (nestOpened.1, nestOpened.2) := by
  rw [Prod.mk.eta]
  exact Machine.reach_of_runIf nestFailures (Option.some_get _).symm

theorem prompt_trial : (∃ s', (threads (memory flaky)).step prompt.1 (.run .second (failing 6)) = some s' ∧
    LetThrough s' .second) ∧ nestOpened.1.breaker.lastStateChange = 3 := by
  have h := @cooldown_from_opening Caller Int Unit Unit _ _ _ _ flaky fun _ => false
  constructor
  · refine ⟨_, rfl, ?_⟩
    exact (h.1 0 prompt.1 prompt.2 prompt_reach).2.1 .second (failing 6) _ _ rfl rfl (by decide) rfl .init
  · exact (h.2 0 nestOpened.1 nestOpened.2 nestOpened_reach).1

end Playground.Breaker
