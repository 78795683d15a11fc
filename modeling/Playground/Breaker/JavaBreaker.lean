/-
  Playground.Breaker.JavaBreaker — `case4/CircuitBreaker.java`.

  Every method is `synchronized`, so a call of `execute` runs whole, its action
  included. The counter is an `int` and wraps around; times are `long`s.
-/

import Mathlib.Algebra.Order.Group.Int
import Playground.Breaker.CircuitBreaker

namespace Playground.Breaker.Java

/-- What `System.currentTimeMillis()` reads: a `long`, counted from 1970 on. -/
structure Millis where
  val : Int64
  nonneg : 0 ≤ val
  deriving DecidableEq

instance : Preorder Millis where
  le t t' := t.val.toInt ≤ t'.val.toInt
  le_refl _ := Int.le_refl _
  le_trans _ _ _ := Int.le_trans

structure CircuitBreaker where
  state : CircuitState
  failureCount : Int32
  lastStateChange : Int64
  deriving DecidableEq

def failureThreshold : Int32 := 3

def recoveryTimeoutMs : Int64 := 4000

namespace CircuitBreaker

/-- As its field initialisers leave it at the time `now`. -/
def init (now : Millis) : CircuitBreaker := ⟨.closed, 0, now.val⟩

variable (b : CircuitBreaker)

/-- `now` and `later` are the two readings of the clock. -/
def updateStateIfNeeded (now later : Millis) : CircuitBreaker :=
  if b.state = .opened then
    let elapsed := now.val - b.lastStateChange
    if recoveryTimeoutMs ≤ elapsed then { b with state := .halfOpen, lastStateChange := later.val } else b
  else b

def getState (now later : Millis) : CircuitState × CircuitBreaker :=
  ((b.updateStateIfNeeded now later).state, b.updateStateIfNeeded now later)

def onSuccess (now : Millis) : CircuitBreaker :=
  if b.state = .halfOpen then { b with state := .closed, failureCount := 0, lastStateChange := now.val }
  else if b.state = .closed then { b with failureCount := 0 }
  else b

def onFailure (now : Millis) : CircuitBreaker :=
  let count := b.failureCount + 1
  if b.state = .halfOpen ∨ failureThreshold ≤ count then
    { b with failureCount := count, state := .opened, lastStateChange := now.val }
  else { b with failureCount := count }

end CircuitBreaker

/-- What `getStatus` answers. -/
structure Status where
  state : CircuitState
  failureCount : Int32
  failureThreshold : Int32
  recoveryTimeoutSec : Rat
  deriving DecidableEq

def CircuitBreaker.getStatus (b : CircuitBreaker) (now later : Millis) : Status × CircuitBreaker :=
  let (state, b) := b.getState now later
  (⟨state, b.failureCount, Java.failureThreshold, (recoveryTimeoutMs.toInt : Rat) / 1000⟩, b)

/-- It asks for the state once, as `getState` does. -/
theorem getStatus_state (b : CircuitBreaker) (now later : Millis) :
    ((b.getStatus now later).1.state, (b.getStatus now later).2) = b.getState now later := rfl

inductive Throwable (E : Type) where
  /-- Caught by `catch (Exception e)`. -/
  | exception (e : E)
  | error (e : E)

/-- How `execute` ends: with a value, in the fallback, or with an exception. -/
inductive Ending (E V : Type) where
  | returns (v : V)
  | fallback
  | throws (e : Throwable E)
  | runtimeException (message : String)

section Execute

variable {E V : Type}

/-- Whether `action` ran, how the call ended, and the breaker it leaves; `done` is the
    reading of the clock at the record. -/
def CircuitBreaker.execute (b : CircuitBreaker) (fallback : Bool) (now later : Millis)
    (outcome : Except (Throwable E) V) (done : Millis) : Bool × Ending E V × CircuitBreaker :=
  let b := b.updateStateIfNeeded now later
  if b.state = .opened then
    if fallback then (false, .fallback, b) else (false, .runtimeException "Circuit is OPEN (Fast-Fail)", b)
  else match outcome with
    | .ok result => (true, .returns result, b.onSuccess done)
    | .error (.exception e) =>
      if fallback then (true, .fallback, b.onFailure done) else (true, .throws (.exception e), b.onFailure done)
    | .error (.error e) => (true, .throws (.error e), b)

end Execute

end Playground.Breaker.Java
