/-
  Playground.Breaker.Monitoring — what asking the NestJS service for its state does.

  `getState` takes the step from open to half-open when the recovery timeout has
  passed, as its comment says. A call takes the same step before it looks, so the next
  call is let through either way. What differs in the meantime is what a late outcome
  finds:
  - `queries_transparent`: as long as no call succeeds while the service nobody asks is
    open with its recovery timeout over, runs that differ in queries let the same calls
    through, which find the same states.
  - `query_unblocks`: a slow call that succeeds after a query closes the service, and
    without the query leaves it open; calls are let through in the one run and turned
    away in the other.
-/

import Playground.Breaker.Cooldown

namespace Playground.Breaker.Nest

open Playground.Lib

section Monitoring

variable {ι E V : Type}

/-- No reading of the clock is before `t`, or before an earlier one. -/
def Clocked (t : Int) : List (Ev ι E V) → Prop
  | [] => True
  | .arrive _ now later :: es => t ≤ now ∧ now ≤ later ∧ Clocked later es
  | .settle _ _ now :: es => t ≤ now ∧ Clocked now es
  | .query now later :: es => t ≤ now ∧ now ≤ later ∧ Clocked later es

def isQuery : Ev ι E V → Bool
  | .query _ _ => true
  | _ => false

/-- The run's calls, without its queries. -/
def unasked (es : List (Ev ι E V)) : List (Ev ι E V) := es.filter fun e => !isQuery e

/-- A success that finds the service open finds its recovery timeout not over. -/
def NoLateSuccess (s : Run ι E V) : Ev ι E V → Prop
  | .settle _ (.ok _) now => s.breaker.state = .opened → now - s.breaker.lastStateChange < recoveryTimeoutMs
  | _ => True

instance (s : Run ι E V) (e : Ev ι E V) : Decidable (NoLateSuccess s e) :=
  match e with
  | .settle _ (.ok _) _ => inferInstanceAs (Decidable (_ → _))
  | .settle _ (.error _) _ => .isTrue trivial
  | .arrive _ _ _ => .isTrue trivial
  | .query _ _ => .isTrue trivial

end Monitoring

/-- The service `b` that was asked, and `b'` that was not, at the time `t`. -/
inductive Apart (t : Int) (b b' : CircuitBreakerService) : Prop
  | same : b = b' → Apart t b b'
  /-- A query took the step that the next call will take. -/
  | asked : b'.state = .opened → recoveryTimeoutMs ≤ t - b'.lastStateChange → b.state = .halfOpen →
      b.failureCount = b'.failureCount → Apart t b b'
  /-- Both took it, at different times. -/
  | tried : b.state = .halfOpen → b'.state = .halfOpen → b.failureCount = b'.failureCount → Apart t b b'

section Apart

variable {E V : Type} {t now later : Int} {b b' : CircuitBreakerService}

theorem update_opened {b : CircuitBreakerService} (ho : b.state = .opened)
    (ht : recoveryTimeoutMs ≤ now - b.lastStateChange) :
    b.updateStateIfNeeded now later = { b with state := .halfOpen, lastStateChange := later } := by
  rw [CircuitBreakerService.updateStateIfNeeded, if_pos ho, if_pos ht]

theorem update_unopened {b : CircuitBreakerService} (ho : b.state ≠ .opened) : b.updateStateIfNeeded now later = b :=
  if_neg ho

theorem Apart.query (h : Apart t b b') (ht : t ≤ now) (hl : now ≤ later) :
    Apart later (b.updateStateIfNeeded now later) b' := by
  cases h with
  | same he =>
    subst he
    rcases update_cases b now later with hu | ⟨ho, hexpired, hu⟩
    · rw [hu]
      exact .same rfl
    · rw [hu]
      exact .asked ho (by omega) rfl rfl
  | asked ho hexpired hs hc =>
    rw [update_unopened (by rw [hs]; decide)]
    exact .asked ho (by omega) hs hc
  | tried hs hs' hc =>
    rw [update_unopened (by rw [hs]; decide)]
    exact .tried hs hs' hc

/-- A call finds the same state in both. -/
theorem Apart.arrive (h : Apart t b b') (ht : t ≤ now) (later : Int) :
    (b.updateStateIfNeeded now later).state = (b'.updateStateIfNeeded now later).state ∧
      Apart later (b.updateStateIfNeeded now later) (b'.updateStateIfNeeded now later) := by
  cases h with
  | same he => exact ⟨by rw [he], .same (by rw [he])⟩
  | asked ho hexpired hs hc =>
    rw [update_unopened (b := b) (by rw [hs]; decide), update_opened ho (by omega)]
    exact ⟨hs, .tried hs rfl hc⟩
  | tried hs hs' hc =>
    rw [update_unopened (b := b) (by rw [hs]; decide), update_unopened (b := b') (by rw [hs']; decide)]
    exact ⟨hs.trans hs'.symm, .tried hs hs' hc⟩

theorem onFailure_opens {b : CircuitBreakerService} (h : b.state = .halfOpen ∨ failureThreshold ≤ b.failureCount) :
    b.onFailure now = ⟨.opened, b.failureCount + 1, now⟩ :=
  if_pos (h.imp_right Nat.le_succ_of_le)

theorem onSuccess_halfOpen {b : CircuitBreakerService} (h : b.state = .halfOpen) :
    b.onSuccess now = ⟨.closed, 0, now⟩ :=
  if_pos h

/-- An outcome leaves both the same, or as they were apart. -/
theorem Apart.record (h : Apart t b b') (htrip : Tripped b') (ht : t ≤ now) (outcome : Except E V)
    (hok : outcome.isOk → b'.state = .opened → now - b'.lastStateChange < recoveryTimeoutMs) :
    Apart now (b.record outcome now) (b'.record outcome now) := by
  cases h with
  | same he => exact .same (by rw [he])
  | asked ho hexpired hs hc =>
    cases outcome with
    | ok v =>
      have := hok rfl ho
      omega
    | error e =>
      have hthr := htrip (by rw [ho]; decide)
      have hb : b.onFailure now = ⟨.opened, b.failureCount + 1, now⟩ := onFailure_opens (.inl hs)
      have hb' : b'.onFailure now = ⟨.opened, b'.failureCount + 1, now⟩ := onFailure_opens (.inr hthr)
      exact .same (by rw [CircuitBreakerService.record, CircuitBreakerService.record, hb, hb', hc])
  | tried hs hs' hc =>
    cases outcome with
    | ok v =>
      have hb : b.onSuccess now = ⟨.closed, 0, now⟩ := onSuccess_halfOpen hs
      have hb' : b'.onSuccess now = ⟨.closed, 0, now⟩ := onSuccess_halfOpen hs'
      exact .same (by rw [CircuitBreakerService.record, CircuitBreakerService.record, hb, hb'])
    | error e =>
      have hb : b.onFailure now = ⟨.opened, b.failureCount + 1, now⟩ := onFailure_opens (.inl hs)
      have hb' : b'.onFailure now = ⟨.opened, b'.failureCount + 1, now⟩ := onFailure_opens (.inl hs')
      exact .same (by rw [CircuitBreakerService.record, CircuitBreakerService.record, hb, hb', hc])

end Apart

section Runs

variable {ι E V : Type} [DecidableEq ι] {fallback : ι → Bool} {t t₀ : Int} {s s' s'' : Run ι E V}
  {es es' : List (Ev ι E V)}

/-- The run `s` that was asked and the run `s'` that was not, at the time `t`. -/
structure Alike (t : Int) (s s' : Run ι E V) : Prop where
  apart : Apart t s.breaker s'.breaker
  tripped : Tripped s'.breaker
  phase : s.phase = s'.phase
  log : s.log = s'.log

/-- A call's step in the one run is a step in the other, and does the same to the calls. -/
theorem Alike.step (h : Alike t s s') {e : Ev ι E V} (hclock : Clocked t (e :: es)) (he : isQuery e = false)
    (hok : NoLateSuccess s' e) (hs : (service fallback).step s' e = some s'') :
    ∃ t' u, Clocked t' es ∧ (service fallback).step s e = some u ∧ Alike t' u s'' := by
  cases e with
  | query now later => cases he
  | arrive i now later =>
    obtain ⟨hn, hl, hrest⟩ := hclock
    obtain ⟨hp, rfl⟩ := step_arrive hs
    obtain ⟨hfound, hapart⟩ := h.apart.arrive hn later
    refine ⟨later, _, hrest, arrive_eq (by rw [h.phase]; exact hp), hapart, h.tripped.update now later, ?_, ?_⟩
    · rw [hfound, h.phase]
    · rw [hfound, h.log]
  | settle i outcome now =>
    obtain ⟨hn, hrest⟩ := hclock
    obtain ⟨hp, rfl⟩ := step_settle hs
    have hapart : Apart now (s.breaker.record outcome now) (s'.breaker.record outcome now) := by
      apply h.apart.record h.tripped hn
      intro hout
      cases outcome with
      | ok v => exact hok
      | error e => cases hout
    refine ⟨now, _, hrest, settle_eq (by rw [h.phase]; exact hp), hapart, h.tripped.record outcome now, ?_, ?_⟩
    · rw [h.phase]
    · rw [h.log]

theorem Alike.run (h : Alike t s s') (hclock : Clocked t es)
    (hs : (service fallback).runIf NoLateSuccess s' (unasked es) = some s'') :
    ∃ t' u, (service fallback).run s es = some u ∧ Alike t' u s'' := by
  induction es generalizing t s s' with
  | nil =>
    cases hs
    exact ⟨t, s, rfl, h⟩
  | cons e es ih =>
    cases he : isQuery e with
    | true =>
      cases e with
      | query now later =>
        obtain ⟨hn, hl, hrest⟩ := hclock
        have hs' : (service fallback).runIf NoLateSuccess s' (unasked es) = some s'' := by
          simpa [unasked, isQuery] using hs
        exact ih ⟨h.apart.query hn hl, h.tripped, h.phase, h.log⟩ hrest hs'
      | arrive i now later => cases he
      | settle i outcome now => cases he
    | false =>
      have hcons : unasked (e :: es) = e :: unasked es := by simp [unasked, he]
      rw [hcons] at hs
      simp only [Machine.runIf, Option.ite_none_right_eq_some, Option.bind_eq_some_iff] at hs
      obtain ⟨hok, w, hw, hrun⟩ := hs
      obtain ⟨t', u, hrest, hu, hlike⟩ := h.step hclock he hok hw
      obtain ⟨t'', v, hv, hlike'⟩ := ih hlike hrest hrun
      exact ⟨t'', v, by rw [Machine.run, hu, Option.bind_some, hv], hlike'⟩

/-- Two runs with the same calls, that differ in their queries: if their calls, with no
    query at all, make a run in which none succeeds while the service is open with its
    recovery timeout over, the two let the same calls through, which find the same
    states, and leave every call where the other does. -/
theorem queries_transparent (hclock : Clocked t₀ es) (hclock' : Clocked t₀ es') (hsame : unasked es = unasked es')
    (h : (service fallback).runIf NoLateSuccess (Run.start t₀) (unasked es) = some s'') :
    ∃ s s', (service fallback).run (Run.start t₀) es = some s ∧ (service fallback).run (Run.start t₀) es' = some s' ∧
      s.log = s'.log ∧ s.phase = s'.phase := by
  have h0 : Alike t₀ (Run.start t₀ : Run ι E V) (Run.start t₀) := ⟨.same rfl, fun hc => absurd rfl hc, rfl, rfl⟩
  obtain ⟨_, s, hs, hlike⟩ := h0.run hclock h
  obtain ⟨_, s', hs', hlike'⟩ := h0.run hclock' (hsame ▸ h)
  exact ⟨s, s', hs, hs', hlike.log.trans hlike'.log.symm, hlike.phase.trans hlike'.phase.symm⟩

end Runs

/-! ## A query that unblocks -/

/-- A slow call, and three that fail and open the service at 3. -/
def outageEvents : List (Ev Nat Unit Unit) :=
  [.arrive 0 0 0, .arrive 1 0 0, .arrive 2 0 0, .arrive 3 0 0, .settle 1 (.error ()) 1, .settle 2 (.error ()) 2,
    .settle 3 (.error ()) 3]

/-- The slow call succeeds after the recovery timeout; then one fails, and another comes. -/
def lateEvents : List (Ev Nat Unit Unit) :=
  [.settle 0 (.ok ()) 4004, .arrive 4 4005 4005, .settle 4 (.error ()) 4006, .arrive 5 4007 4007]

def unaskedRun : Run Nat Unit Unit :=
  ((service fun _ => true).run (Run.start 0) (outageEvents ++ lateEvents)).get rfl

def askedRun : Run Nat Unit Unit :=
  ((service fun _ => true).run (Run.start 0) (outageEvents ++ .query 4003 4003 :: lateEvents)).get rfl

/-- With one query the last call runs `func`; without, it is turned away. -/
theorem query_unblocks :
    Clocked 0 (outageEvents ++ .query 4003 4003 :: lateEvents) ∧
    unasked (outageEvents ++ .query 4003 4003 :: lateEvents) = outageEvents ++ lateEvents ∧
    (service fun _ => true).run (Run.start 0) (outageEvents ++ lateEvents) = some unaskedRun ∧
    (service fun _ => true).run (Run.start 0) (outageEvents ++ .query 4003 4003 :: lateEvents) = some askedRun ∧
    unaskedRun.phase 5 = .ended .fallback ∧ askedRun.phase 5 = .running :=
  ⟨by simp [Clocked, outageEvents, lateEvents], rfl, (Option.some_get _).symm, (Option.some_get _).symm, rfl, rfl⟩

/-- The slow call fails instead. -/
def lateFailures : List (Ev Nat Unit Unit) :=
  [.settle 0 (.error ()) 4004, .arrive 4 8003 8003, .arrive 5 8004 8004]

/-- Then the query makes no difference, to those who come before the new recovery
    timeout and to those who come after it. -/
theorem query_harmless : ∃ s s',
    (service fun _ => true).run (Run.start 0) (outageEvents ++ .query 4003 4003 :: lateFailures) = some s ∧
    (service fun _ => true).run (Run.start 0) (outageEvents ++ lateFailures) = some s' ∧ s.log = s'.log ∧
      s.phase = s'.phase := by
  obtain ⟨s₀, hs₀⟩ : ∃ s₀, (service fun _ => true).runIf NoLateSuccess (Run.start 0)
      (outageEvents ++ lateFailures) = some s₀ := ⟨_, rfl⟩
  exact queries_transparent (by simp [Clocked, outageEvents, lateFailures])
    (by simp [Clocked, outageEvents, lateFailures]) rfl hs₀

end Playground.Breaker.Nest
