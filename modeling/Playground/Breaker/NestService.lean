/-
  Playground.Breaker.NestService — `case4-resilience/circuit-breaker.service.ts`:
  `CircuitBreakerService`.

  JavaScript runs from one await to the next without interruption, so `call` is two
  steps: up to `await func()`, and from there to its end. Between them other calls
  arrive and settle, and the state is asked for; a `Run` takes these in any order.
  What follows a call's end, its fallback, does not come back to the breaker.

  Times are the milliseconds of `Date.now()`, which a JavaScript number holds exactly.
-/

import Playground.Breaker.CircuitBreaker

namespace Playground.Breaker.Nest

open Playground.Lib

structure CircuitBreakerService where
  state : CircuitState
  failureCount : Nat
  lastStateChange : Int
  deriving DecidableEq, Repr

def failureThreshold : Nat := 3

def recoveryTimeoutMs : Int := 4000

namespace CircuitBreakerService

/-- As its field initialisers leave it at the time `now`. -/
def init (now : Int) : CircuitBreakerService := ⟨.closed, 0, now⟩

variable (b : CircuitBreakerService)

/-- `now` and `later` are the two readings of the clock. -/
def updateStateIfNeeded (now later : Int) : CircuitBreakerService :=
  if b.state = .opened then
    if recoveryTimeoutMs ≤ now - b.lastStateChange then { b with state := .halfOpen, lastStateChange := later } else b
  else b

def getState (now later : Int) : CircuitState × CircuitBreakerService :=
  ((b.updateStateIfNeeded now later).state, b.updateStateIfNeeded now later)

def onSuccess (now : Int) : CircuitBreakerService :=
  if b.state = .halfOpen then { b with state := .closed, failureCount := 0, lastStateChange := now }
  else if b.state = .closed then { b with failureCount := 0 }
  else b

def onFailure (now : Int) : CircuitBreakerService :=
  let count := b.failureCount + 1
  if b.state = .halfOpen ∨ failureThreshold ≤ count then
    { b with failureCount := count, state := .opened, lastStateChange := now }
  else { b with failureCount := count }

end CircuitBreakerService

/-- What `getStatus` answers. -/
structure Status where
  state : CircuitState
  failureCount : Nat
  failureThreshold : Nat
  recoveryTimeoutSec : Rat
  deriving DecidableEq, Repr

def CircuitBreakerService.getStatus (b : CircuitBreakerService) (now later : Int) : Status × CircuitBreakerService :=
  let (state, b) := b.getState now later
  (⟨state, b.failureCount, Nest.failureThreshold, recoveryTimeoutMs / 1000⟩, b)

/-- It asks for the state once, as `getState` does. -/
theorem getStatus_state (b : CircuitBreakerService) (now later : Int) :
    ((b.getStatus now later).1.state, (b.getStatus now later).2) = b.getState now later := rfl

/-! ## A call -/

inductive Thrown (E : Type) where
  | error (message : String)
  | app (e : E)
  deriving DecidableEq, Repr

/-- How a call ends: with a value, in its fallback, or with an exception. -/
inductive Ending (E V : Type) where
  | returns (v : V)
  | fallback
  | throws (e : Thrown E)
  deriving DecidableEq, Repr

section Call

variable {ι E V : Type}

/-- `call` up to `await func()`; `none` when `func` is to run. -/
def callStart (b : CircuitBreakerService) (fallback : Bool) (now later : Int) :
    Option (Ending E V) × CircuitBreakerService :=
  let b := b.updateStateIfNeeded now later
  if b.state = .opened then
    if fallback then (some .fallback, b) else (some (.throws (.error "Circuit is OPEN (Fast-fail)")), b)
  else (none, b)

/-- The rest of `call`, once `func` has ended. -/
def callSettled (b : CircuitBreakerService) (fallback : Bool) (outcome : Except E V) (now : Int) :
    Ending E V × CircuitBreakerService :=
  match outcome with
  | .ok result => (.returns result, b.onSuccess now)
  | .error err => (if fallback then .fallback else .throws (.app err), b.onFailure now)

inductive Phase (E V : Type) where
  | uncalled
  | running
  | ended (r : Ending E V)

inductive Ev (ι E V : Type) where
  | arrive (i : ι) (now later : Int)
  /-- `func` of call `i` ended with `outcome`. -/
  | settle (i : ι) (outcome : Except E V) (now : Int)
  /-- `getState()`, asked for by itself or by `getStatus()`. -/
  | query (now later : Int)

/-- What a run did to its calls. -/
inductive Did (ι E V : Type) where
  | checked (i : ι) (found : CircuitState)
  | settled (i : ι) (outcome : Except E V)

structure Run (ι E V : Type) where
  breaker : CircuitBreakerService
  phase : ι → Phase E V
  log : List (Did ι E V)

/-- The service as made at `now`, and nothing called. -/
def Run.start (now : Int) : Run ι E V := ⟨.init now, fun _ => .uncalled, []⟩

variable [DecidableEq ι]

/-- `fallback i`: whether call `i` is given one. -/
def service (fallback : ι → Bool) : Machine (Run ι E V) (Ev ι E V) where
  step s
    | .arrive i now later =>
      match s.phase i with
      | .uncalled =>
        let (ending, b) := callStart s.breaker (fallback i) now later
        some ⟨b, Function.update s.phase i (ending.elim .running .ended), s.log ++ [.checked i b.state]⟩
      | _ => none
    | .settle i outcome now =>
      match s.phase i with
      | .running =>
        let (ending, b) := callSettled s.breaker (fallback i) outcome now
        some ⟨b, Function.update s.phase i (.ended ending), s.log ++ [.settled i outcome]⟩
      | _ => none
    | .query now later => some { s with breaker := (s.breaker.getState now later).2 }

/-! ## What each step does -/

/-- A call's record of its outcome. -/
def CircuitBreakerService.record (b : CircuitBreakerService) (outcome : Except E V) (now : Int) :
    CircuitBreakerService :=
  match outcome with
  | .ok _ => b.onSuccess now
  | .error _ => b.onFailure now

omit [DecidableEq ι] in
theorem update_cases (b : CircuitBreakerService) (now later : Int) :
    b.updateStateIfNeeded now later = b ∨ (b.state = .opened ∧ recoveryTimeoutMs ≤ now - b.lastStateChange ∧
      b.updateStateIfNeeded now later = { b with state := .halfOpen, lastStateChange := later }) := by
  unfold CircuitBreakerService.updateStateIfNeeded
  split
  · split
    · exact .inr ⟨‹_›, ‹_›, rfl⟩
    · exact .inl rfl
  · exact .inl rfl

variable {fallback : ι → Bool} {s s' : Run ι E V} {i : ι} {now later : Int}

/-- Where an arriving call that finds the state `found` goes. -/
def Phase.arrived (fallback : Bool) (found : CircuitState) : Phase E V :=
  if found = .opened then
    if fallback then .ended .fallback else .ended (.throws (.error "Circuit is OPEN (Fast-fail)"))
  else .running

/-- Where a call whose `func` ended goes. -/
def Phase.settled (fallback : Bool) (outcome : Except E V) : Phase E V :=
  match outcome with
  | .ok v => .ended (.returns v)
  | .error e => if fallback then .ended .fallback else .ended (.throws (.app e))

omit [DecidableEq ι] in
theorem Phase.arrived_ne (fallback : Bool) (found : CircuitState) :
    (arrived fallback found : Phase E V) ≠ .uncalled := by
  cases fallback <;> cases found <;> simp [arrived]

omit [DecidableEq ι] in
theorem Phase.settled_ne (fallback : Bool) (outcome : Except E V) : settled fallback outcome ≠ .uncalled := by
  cases fallback <;> cases outcome <;> simp [settled]

theorem arrive_eq (hp : s.phase i = .uncalled) : (service fallback).step s (.arrive i now later) =
    some ⟨s.breaker.updateStateIfNeeded now later,
      Function.update s.phase i (.arrived (fallback i) (s.breaker.updateStateIfNeeded now later).state),
      s.log ++ [.checked i (s.breaker.updateStateIfNeeded now later).state]⟩ := by
  simp only [service, hp, callStart, Phase.arrived]
  split
  · split <;> rfl
  · rfl

theorem settle_eq {outcome : Except E V} (hp : s.phase i = .running) :
    (service fallback).step s (.settle i outcome now) = some ⟨s.breaker.record outcome now,
      Function.update s.phase i (.settled (fallback i) outcome), s.log ++ [.settled i outcome]⟩ := by
  simp only [service, hp, callSettled, Phase.settled]
  cases outcome with
  | ok v => rfl
  | error e => cases fallback i <;> rfl

/-- An arriving call reads the state, and runs `func` unless it is open. -/
theorem step_arrive (h : (service fallback).step s (.arrive i now later) = some s') :
    s.phase i = .uncalled ∧ s' = ⟨s.breaker.updateStateIfNeeded now later,
      Function.update s.phase i (.arrived (fallback i) (s.breaker.updateStateIfNeeded now later).state),
      s.log ++ [.checked i (s.breaker.updateStateIfNeeded now later).state]⟩ := by
  cases hp : s.phase i with
  | uncalled =>
    rw [arrive_eq hp] at h
    exact ⟨rfl, (Option.some.inj h).symm⟩
  | running => simp only [service, hp] at h; cases h
  | ended r => simp only [service, hp] at h; cases h

/-- A call whose `func` ended records its outcome, and ends. -/
theorem step_settle {outcome : Except E V} (h : (service fallback).step s (.settle i outcome now) = some s') :
    s.phase i = .running ∧ s' = ⟨s.breaker.record outcome now,
      Function.update s.phase i (.settled (fallback i) outcome), s.log ++ [.settled i outcome]⟩ := by
  cases hp : s.phase i with
  | running =>
    rw [settle_eq hp] at h
    exact ⟨rfl, (Option.some.inj h).symm⟩
  | uncalled => simp only [service, hp] at h; cases h
  | ended r => simp only [service, hp] at h; cases h

/-- A query leaves all but the breaker as it was. -/
theorem step_query (h : (service fallback).step s (.query now later) = some s') :
    s' = { s with breaker := s.breaker.updateStateIfNeeded now later } := by
  cases h
  rfl

end Call

end Playground.Breaker.Nest
