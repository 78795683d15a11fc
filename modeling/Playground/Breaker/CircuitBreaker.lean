/-
  Playground.Breaker.CircuitBreaker — `case4_resilience/circuit_breaker.py`:
  `CircuitBreaker.call` and what it keeps.

  A call is a coroutine over the breaker's own fields and its `asyncio.Lock`; each
  step between two awaits or lock operations is one command, so calls overlap in every
  way the event loop allows, and more. What a call cannot know is in `Chance`: what
  `time.time()` reads, how `func` or the fallback ends, and whether the task is
  cancelled while it waits for the lock.

  Time is any type with a subtraction and a decidable order; nothing here rests on how
  they round.
-/

import Playground.Lib.Coroutine

namespace Playground.Breaker

open Playground.Lib

inductive CircuitState where
  | closed
  | opened
  | halfOpen
  deriving DecidableEq, Repr

/-- What a coroutine ends with when it does not return. -/
inductive Exc (E : Type) where
  | circuitBreakerOpenException (msg : String)
  | app (e : E)
  /-- `CancelledError`, which is no `Exception`. -/
  | cancelled
  deriving DecidableEq, Repr

/-- Caught by `except Exception`. -/
def Exc.isException {E : Type} : Exc E → Bool
  | .circuitBreakerOpenException _ => true
  | .app _ => true
  | .cancelled => false

/-- What a breaker is made with. -/
structure CircuitBreaker (T : Type) where
  name : String
  failureThreshold : Nat
  recoveryTimeoutSec : T

/-- Its fields; `lock` is the call that holds `self._lock`. -/
structure Mem (ι T : Type) where
  state : CircuitState
  failureCount : Nat
  lastStateChange : T
  lock : Option ι

/-- As `__init__` leaves it at the time `now`. -/
def Mem.init {ι T : Type} (now : T) : Mem ι T := ⟨.closed, 0, now, none⟩

structure Chance (T E V : Type) where
  /-- The readings of `time.time()` in one step, in their order. -/
  now : T
  later : T
  outcome : Except (Exc E) V
  cancelled : Bool

section Fields

variable {ι T : Type} [Sub T] [LE T] [DecidableLE T] (cb : CircuitBreaker T)

def Mem.updateStateIfNeeded (m : Mem ι T) (now later : T) : Mem ι T :=
  if m.state = .opened then
    if cb.recoveryTimeoutSec ≤ now - m.lastStateChange then
      { m with state := .halfOpen, lastStateChange := later }
    else m
  else m

def Mem.onSuccess (m : Mem ι T) (now : T) : Mem ι T :=
  if m.state = .halfOpen then { m with state := .closed, failureCount := 0, lastStateChange := now }
  else if m.state = .closed then { m with failureCount := 0 }
  else m

def Mem.onFailure (m : Mem ι T) (now : T) : Mem ι T :=
  let count := m.failureCount + 1
  if m.state = .halfOpen ∨ cb.failureThreshold ≤ count then
    { m with failureCount := count, state := .opened, lastStateChange := now }
  else { m with failureCount := count }

end Fields

/-! ## Commands -/

inductive Cmd where
  | lock
  | unlock
  | updateStateIfNeeded
  /-- Reads `self.state`. -/
  | state
  /-- `func` begins to run. -/
  | startFunc
  | awaitFunc
  | onSuccess
  | onFailure
  | fallback
  deriving DecidableEq, Repr

@[reducible] def Ans (V : Type) : Cmd → Type
  | .state => CircuitState
  | .awaitFunc => V
  | .fallback => V
  | _ => Unit

section Call

variable {ι T E V : Type}

abbrev Prog (E V α : Type) := Co Cmd (Ans V) (Exc E) α

def await (c : Cmd) : Prog E V (Ans V c) := Co.await c

/-- `async with self._lock: body`. -/
def locked {α : Type} (body : Prog E V α) : Prog E V α := do
  await .lock
  body.andFinally (await .unlock)

variable (cb : CircuitBreaker T) (fallback : Bool)

/-- The first `async with`: `some v` when the call returns from inside it. -/
def admission : Prog E V (Option V) := locked do
  await .updateStateIfNeeded
  let state ← await .state
  if state = .opened then
    if fallback then
      let v ← await .fallback
      pure (some v)
    else Co.raise (.circuitBreakerOpenException ("Circuit '" ++ cb.name ++ "' is OPEN. Fast-failing request."))
  else pure none

/-- The body of `try`. -/
def attempt : Prog E V V := do
  await .startFunc
  let result ← await .awaitFunc
  locked (await .onSuccess)
  pure result

/-- The body of `except Exception`. -/
def onException (exc : Exc E) : Prog E V V := do
  locked (await .onFailure)
  if fallback then await .fallback else Co.raise exc

/-- `fallback`: whether the caller gave one. -/
def call : Prog E V V := do
  match ← admission cb fallback with
  | some v => pure v
  | none => attempt.handle fun exc => if exc.isException then onException fallback exc else Co.raise exc

variable [DecidableEq ι] [Sub T] [LE T] [DecidableLE T]

/-- The lock is granted while nobody holds it; a task may be cancelled while it waits. -/
def memory : Memory ι Cmd (Ans V) (Exc E) (Chance T E V) Empty (Mem ι T) where
  exec i c x m := match c with
    | .lock =>
      if x.cancelled then some (.error .cancelled, m)
      else if m.lock = none then some (.ok (), { m with lock := some i }) else none
    | .unlock => some (.ok (), { m with lock := none })
    | .updateStateIfNeeded => some (.ok (), m.updateStateIfNeeded cb x.now x.later)
    | .state => some (.ok m.state, m)
    | .startFunc => some (.ok (), m)
    | .awaitFunc => some (x.outcome, m)
    | .onSuccess => some (.ok (), m.onSuccess x.now)
    | .onFailure => some (.ok (), m.onFailure cb x.now)
    | .fallback => some (x.outcome, m)
  env e := nomatch e

omit [DecidableEq ι] in
/-- Asking for the lock: granted while it is free, or given up. -/
theorem exec_lock {cb : CircuitBreaker T} {i : ι} {x : Chance T E V} {m : Mem ι T} {rm : Except (Exc E) Unit × Mem ι T}
    (hx : (memory cb).exec i .lock x m = some rm) :
    (m.lock = none ∧ rm = (.ok (), { m with lock := some i })) ∨ rm = (.error .cancelled, m) := by
  simp only [memory] at hx
  split at hx
  · exact .inr (Option.some.inj hx).symm
  · split at hx
    · exact .inl ⟨‹_›, (Option.some.inj hx).symm⟩
    · cases hx

/-- The commands that leave the breaker's fields alone. -/
def Cmd.quiet : Cmd → Prop
  | .updateStateIfNeeded => False
  | .onSuccess => False
  | .onFailure => False
  | _ => True

omit [DecidableEq ι] in
theorem exec_quiet {cb : CircuitBreaker T} {i : ι} {c : Cmd} {x : Chance T E V} {m : Mem ι T}
    {rm : Except (Exc E) (Ans V c) × Mem ι T} (hx : (memory cb).exec i c x m = some rm) (hc : c.quiet) :
    ∃ l, rm.2 = { m with lock := l } := by
  cases c with
  | updateStateIfNeeded | onSuccess | onFailure => exact hc.elim
  | lock => rcases exec_lock hx with ⟨-, rfl⟩ | rfl <;> exact ⟨_, rfl⟩
  | unlock | state | startFunc | awaitFunc | fallback => cases hx; exact ⟨_, rfl⟩

end Call

/-! ## The flow chart of a call -/

section Flow

variable {ι T E V : Type} (cb : CircuitBreaker T) (fallback : ι → Bool)

inductive Phase (E V : Type) where
  | locking
  | updating
  | checking
  | fallingFast
  /-- Out of the first `async with`, with its outcome. -/
  | leaving (r : Except (Exc E) (Option V))
  | starting
  | running
  | lockingOk (v : V)
  | recordingOk (v : V)
  | leavingOk (r : Except (Exc E) V)
  | lockingErr (x : Exc E)
  | recordingErr (x : Exc E)
  | leavingErr (x : Exc E) (r : Except (Exc E) Unit)
  | fallingBack (x : Exc E)
  | ended (r : Except (Exc E) V)

def fastFail : Exc E := .circuitBreakerOpenException ("Circuit '" ++ cb.name ++ "' is OPEN. Fast-failing request.")

/-- An exception left the body of `try`. -/
def Phase.caught (x : Exc E) : Phase E V := if x.isException then .lockingErr x else .ended (.error x)

/-- After the first `async with`. -/
def Phase.admitted : Option V → Phase E V
  | some v => .ended (.ok v)
  | none => .starting

def Phase.on {α : Type} (k : α → Phase E V) (h : Exc E → Phase E V) : Except (Exc E) α → Phase E V
  | .ok a => k a
  | .error x => h x

def Phase.fail (x : Exc E) : Phase E V := .ended (.error x)

/-- The rest of the call from the outcome of the body of `try`. -/
def rest (hasFallback : Bool) (body : Prog E V V) : Prog E V V :=
  body.handle fun exc => if exc.isException then onException hasFallback exc else Co.raise exc

def afterAdmission (hasFallback : Bool) : Option V → Prog E V V
  | some v => .ret v
  | none => rest hasFallback attempt

/-- What the first `async with` does after reading `self.state`. -/
def afterCheck (hasFallback : Bool) (state : CircuitState) : Prog E V (Option V) :=
  if state = .opened then
    if hasFallback then (await .fallback).bind fun v => .ret (some v) else .raise (fastFail cb)
  else .ret none

def codeOf (i : ι) : Phase E V → Prog E V V
  | .locking => call cb (fallback i)
  | .updating => ((await .updateStateIfNeeded).bind fun _ =>
      (await .state).bind (afterCheck cb (fallback i))).andFinally (await .unlock) |>.bind (afterAdmission (fallback i))
  | .checking =>
    ((await .state).bind (afterCheck cb (fallback i))).andFinally (await .unlock) |>.bind (afterAdmission (fallback i))
  | .fallingFast => ((await .fallback).bind fun v => .ret (some v)).andFinally (await .unlock) |>.bind
      (afterAdmission (fallback i))
  | .leaving r => ((Co.resume r).andFinally (await .unlock)).bind (afterAdmission (fallback i))
  | .starting => rest (fallback i) attempt
  | .running => rest (fallback i) ((await .awaitFunc).bind fun v => (locked (await .onSuccess)).bind fun _ => .ret v)
  | .lockingOk v => rest (fallback i) ((locked (await .onSuccess)).bind fun _ => .ret v)
  | .recordingOk v => rest (fallback i) (((await .onSuccess).andFinally (await .unlock)).bind fun _ => .ret v)
  | .leavingOk r => rest (fallback i) ((Co.resume r).andFinally (await .unlock))
  | .lockingErr x => onException (fallback i) x
  | .recordingErr x => ((await .onFailure).andFinally (await .unlock)).bind fun _ =>
      if fallback i then await .fallback else .raise x
  | .leavingErr x r => ((Co.resume r).andFinally (await .unlock)).bind fun _ =>
      if fallback i then await .fallback else .raise x
  | .fallingBack _ => await .fallback
  | .ended r => Co.resume r

/-- After reading `self.state`, inside the first `async with`. -/
def Phase.checked (hasFallback : Bool) (state : CircuitState) : Phase E V :=
  if state = .opened then
    if hasFallback then .fallingFast else .leaving (.error (fastFail cb))
  else .leaving (.ok none)

def headOf (i : ι) : Phase E V → Head Cmd (Ans V) (Exc E) V (Phase E V)
  | .locking => .goes .lock (.on (fun _ => .updating) .fail)
  | .updating => .goes .updateStateIfNeeded (.on (fun _ => .checking) fun x => .leaving (.error x))
  | .checking => .goes .state (.on (.checked cb (fallback i)) fun x => .leaving (.error x))
  | .fallingFast => .goes .fallback (.on (fun v => .leaving (.ok (some v))) fun x => .leaving (.error x))
  | .leaving r => .goes .unlock (.on (fun _ => .on .admitted .fail r) .fail)
  | .starting => .goes .startFunc (.on (fun _ => .running) .caught)
  | .running => .goes .awaitFunc (.on .lockingOk .caught)
  | .lockingOk v => .goes .lock (.on (fun _ => .recordingOk v) .caught)
  | .recordingOk v => .goes .onSuccess (.on (fun _ => .leavingOk (.ok v)) fun x => .leavingOk (.error x))
  | .leavingOk r => .goes .unlock (.on (fun _ => .on (fun v => .ended (.ok v)) .caught r) .caught)
  | .lockingErr x => .goes .lock (.on (fun _ => .recordingErr x) .fail)
  | .recordingErr x => .goes .onFailure (.on (fun _ => .leavingErr x (.ok ())) fun y => .leavingErr x (.error y))
  | .leavingErr x r => .goes .unlock
    (.on (fun _ => .on (fun _ => if fallback i then .fallingBack x else .fail x) .fail r) .fail)
  | .fallingBack _ => .goes .fallback (.on (fun v => .ended (.ok v)) .fail)
  | .ended r => .ended r

theorem code_caught (i : ι) (x : Exc E) : codeOf (V := V) cb fallback i (.caught x) =
    if x.isException then onException (fallback i) x else .raise x := by
  unfold Phase.caught
  split <;> rfl

theorem code_checked (i : ι) (state : CircuitState) :
    codeOf (E := E) (V := V) cb fallback i (.checked cb (fallback i) state) =
    ((afterCheck cb (fallback i) state).andFinally (await .unlock)).bind (afterAdmission (fallback i)) := by
  unfold Phase.checked afterCheck
  split
  · split <;> rfl
  · rfl

theorem unfolds (i : ι) (p : Phase E V) :
    codeOf cb fallback i p = (headOf cb fallback i p).code (codeOf cb fallback i) := by
  cases p with
  | locking =>
    refine Co.cmd_congr ?_ (fun _ => rfl)
    intro _
    exact congrArg₂ Co.bind rfl (funext fun a => by cases a <;> rfl)
  | updating => exact Co.cmd_congr (fun _ => rfl) (fun _ => rfl)
  | checking => exact Co.cmd_congr (fun state => (code_checked cb fallback i state).symm) (fun _ => rfl)
  | fallingFast => exact Co.cmd_congr (fun _ => rfl) (fun _ => rfl)
  | leaving r =>
    cases r with
    | ok a => cases a <;> exact Co.cmd_congr (fun _ => rfl) (fun _ => rfl)
    | error x => exact Co.cmd_congr (fun _ => rfl) (fun _ => rfl)
  | starting => exact Co.cmd_congr (fun _ => rfl) (fun x => (code_caught cb fallback i x).symm)
  | running => exact Co.cmd_congr (fun _ => rfl) (fun x => (code_caught cb fallback i x).symm)
  | lockingOk v => exact Co.cmd_congr (fun _ => rfl) (fun x => (code_caught cb fallback i x).symm)
  | recordingOk v =>
    refine Co.cmd_congr (fun _ => ?_) (fun _ => ?_)
    · exact Co.cmd_congr (fun _ => rfl) (fun _ => rfl)
    · exact Co.cmd_congr (fun _ => rfl) (fun _ => rfl)
  | leavingOk r =>
    cases r with
    | ok v => exact Co.cmd_congr (fun _ => rfl) (fun x => (code_caught cb fallback i x).symm)
    | error y =>
      exact Co.cmd_congr (fun _ => (code_caught cb fallback i y).symm) (fun x => (code_caught cb fallback i x).symm)
  | lockingErr x => exact Co.cmd_congr (fun _ => rfl) (fun _ => rfl)
  | recordingErr x => exact Co.cmd_congr (fun _ => rfl) (fun _ => rfl)
  | leavingErr x r =>
    cases r with
    | ok a =>
      refine Co.cmd_congr ?_ (fun _ => rfl)
      intro _
      show (if fallback i then await .fallback else .raise x) =
        codeOf cb fallback i (if fallback i then .fallingBack x else .fail x)
      split <;> rfl
    | error y => exact Co.cmd_congr (fun _ => rfl) (fun _ => rfl)
  | fallingBack x => exact Co.cmd_congr (fun _ => rfl) (fun _ => rfl)
  | ended r => rfl

end Flow

end Playground.Breaker
