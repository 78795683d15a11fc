/-
  Playground.Breaker.Sequential — the three breakers under calls one at a time.

  Each is an implementation of the timed automaton: `breakers_refine`. The Python
  breaker's calls are its coroutine run by itself (`Co.alone`); the NestJS service's are
  the two halves of `call`, one after the other. `failureCount` of the Java breaker is
  not reset when it opens and wraps around in the end, but is only looked at while
  closed, where it is below three.
-/

import Mathlib.Algebra.Order.Group.Int
import Mathlib.Algebra.Order.Group.Unbundled.Basic
import Playground.Breaker.Automaton
import Playground.Breaker.JavaBreaker
import Playground.Breaker.NestService
import Playground.Breaker.Admission

namespace Playground.Breaker

open Playground.Lib

/-! ## Python -/

/-- How `func` and the fallback of a call end. -/
structure Outcomes (E V : Type) where
  func : Except (Exc E) V
  fallback : Except (Exc E) V

section Python

variable {ι T E V : Type}

/-- What the commands of a call by itself find. Nobody else holds the lock, so it does
    not wait for it and cannot be cancelled there. -/
def chance (c : Call T (Outcomes E V)) : Cmd → Chance T E V
  | .updateStateIfNeeded => ⟨c.now, c.later, c.outcome.func, false⟩
  | .fallback => ⟨c.done, c.done, c.outcome.fallback, false⟩
  | _ => ⟨c.done, c.done, c.outcome.func, false⟩

def verdict (o : Outcomes E V) : Verdict :=
  match o.func with
  | .ok _ => .success
  | .error x => if x.isException then .failure else .unseen

def core [Sub T] [LE T] [DecidableLE T] (cb : CircuitBreaker T) : Core (Mem ι T) T where
  state := Mem.state
  update := Mem.updateStateIfNeeded cb
  success := Mem.onSuccess
  failure := Mem.onFailure cb

section Group

variable [AddCommGroup T] [LinearOrder T] [IsOrderedAddMonoid T] (cb : CircuitBreaker T)

def settings : Settings T where
  threshold := cb.failureThreshold
  expired since t := since + cb.recoveryTimeoutSec ≤ t
  expired_mono h ht := decide_eq_true (le_trans (of_decide_eq_true h) ht)

theorem core_lawful : (core cb : Core (Mem ι T) T).Lawful (settings cb) (fun m n => m.failureCount = n)
    (fun m t => m.lastStateChange = t) where
  update_expired {m since now later} ho hs _ hexpired := by
    subst hs
    change m.state = .opened at ho
    have hle : cb.recoveryTimeoutSec ≤ now - m.lastStateChange := le_sub_iff_add_le'.mpr (of_decide_eq_true hexpired)
    show (m.updateStateIfNeeded cb now later).state = _
    rw [Mem.updateStateIfNeeded, if_pos ho, if_pos hle]
  update_wait {m since now later} ho hs _ hexpired := by
    subst hs
    change m.state = .opened at ho
    have hle : ¬ cb.recoveryTimeoutSec ≤ now - m.lastStateChange :=
      fun h => hexpired (decide_eq_true (le_sub_iff_add_le'.mp h))
    show m.updateStateIfNeeded cb now later = m
    rw [Mem.updateStateIfNeeded, if_pos ho, if_neg hle]
  update_other ho := if_neg ho
  success {m t} ho := by
    change m.state ≠ .opened at ho
    show (m.onSuccess t).state = .closed ∧ (m.onSuccess t).failureCount = 0
    unfold Mem.onSuccess
    split
    · exact ⟨rfl, rfl⟩
    · split
      · exact ⟨‹_›, rfl⟩
      · cases hs : m.state <;> contradiction
  failure_half {m t} hh := by
    change m.state = .halfOpen at hh
    show (m.onFailure cb t).state = .opened ∧ (m.onFailure cb t).lastStateChange = t
    simp only [Mem.onFailure, hh, true_or, if_true, and_self]
  failure_trip {m n t} hc hn hle := by
    subst hn
    change cb.failureThreshold ≤ m.failureCount + 1 at hle
    show (m.onFailure cb t).state = .opened ∧ (m.onFailure cb t).lastStateChange = t
    simp only [Mem.onFailure, hle, or_true, if_true, and_self]
  failure_count {m n t} hc hn hle := by
    subst hn
    change m.state = .closed at hc
    change ¬ cb.failureThreshold ≤ m.failureCount + 1 at hle
    show (m.onFailure cb t).state = .closed ∧ (m.onFailure cb t).failureCount = m.failureCount + 1
    simp [Mem.onFailure, hc, hle]

end Group

/-! ### The fields and the lock -/

theorem lock_free {m : Mem ι T} (hl : m.lock = none) : { m with lock := none } = m := by
  cases m
  cases hl
  rfl

theorem onSuccess_lock (m : Mem ι T) (l : Option ι) (now : T) :
    Mem.onSuccess { m with lock := l } now = { m.onSuccess now with lock := l } := by
  simp only [Mem.onSuccess]
  split
  · rfl
  · split <;> rfl

theorem onFailure_lock (cb : CircuitBreaker T) (m : Mem ι T) (l : Option ι) (now : T) :
    Mem.onFailure cb { m with lock := l } now = { m.onFailure cb now with lock := l } := by
  simp only [Mem.onFailure]
  split <;> rfl

variable [Sub T] [LE T] [DecidableLE T] (cb : CircuitBreaker T)

theorem update_lock (m : Mem ι T) (l : Option ι) (now later : T) :
    Mem.updateStateIfNeeded cb { m with lock := l } now later =
      { m.updateStateIfNeeded cb now later with lock := l } := by
  simp only [Mem.updateStateIfNeeded]
  split
  · split <;> rfl
  · rfl

/-! ### A call by itself -/

/-- Task `c.1` makes the call `c.2`, and nobody else is there. -/
def callAlone (m : Mem ι T) (c : ι × Call T (Outcomes E V)) : Option (Mem ι T × Seen) :=
  ((call cb c.2.fallback).alone (memory cb) c.1 (chance c.2) m).map fun t =>
    (t.2.1, .call (t.2.2.contains .startFunc) (t.2.2.contains .fallback))

section Alone

variable (i : ι) (c : Call T (Outcomes E V))

/-- The call from the phase `p` on, by itself. -/
def onward (p : Phase E V) (m : Mem ι T) : Option (Mem ι T × Seen) :=
  (((calls cb fun _ => c.fallback).code i p).alone (memory cb) i (chance c) m).map fun t =>
    (t.2.1, .call (t.2.2.contains .startFunc) (t.2.2.contains .fallback))

theorem onward_goes (p : Phase E V) {d : Cmd} {k : Except (Exc E) (Ans V d) → Phase E V} {m m' : Mem ι T}
    {rm : Except (Exc E) (Ans V d) × Mem ι T} {action fallback : Bool}
    (hh : headOf cb (fun _ => c.fallback) i p = .goes d k) (hx : (memory cb).exec i d (chance c d) m = some rm)
    (h : onward cb i c (k rm.1) rm.2 = some (m', .call action fallback)) :
    onward cb i c p m = some (m', .call (.startFunc == d || action) (.fallback == d || fallback)) := by
  simp only [onward, Option.map_eq_some_iff] at h ⊢
  obtain ⟨t, ht, heq⟩ := h
  refine ⟨(t.1, t.2.1, d :: t.2.2), ?_, ?_⟩
  · rw [Flow.alone_goes (calls cb fun _ => c.fallback) _ i (chance c) p hh hx, ht]
    rfl
  · cases heq
    rfl

theorem onward_ended (m : Mem ι T) (r : Except (Exc E) V) :
    onward cb i c (.ended r) m = some (m, .call false false) := by
  rw [onward, Flow.alone_ended (calls cb fun _ => c.fallback) _ i (chance c) (.ended r) rfl]
  rfl

theorem exec_lock_free {m : Mem ι T} (hl : m.lock = none) :
    (memory cb).exec i .lock (chance c .lock) m = some (.ok (), { m with lock := some i }) := by
  simp [memory, chance, hl]

theorem onward_enter {m m' : Mem ι T} {action fallback : Bool} (hl : m.lock = none)
    (h : onward cb i c (.checked cb c.fallback (m.updateStateIfNeeded cb c.now c.later).state)
      { m.updateStateIfNeeded cb c.now c.later with lock := some i } = some (m', .call action fallback)) :
    onward cb i c .locking m = some (m', .call action fallback) := by
  refine onward_goes cb i c .locking rfl (exec_lock_free cb i c hl) ?_
  refine onward_goes cb i c .updating rfl rfl ?_
  refine onward_goes cb i c .checking rfl rfl ?_
  show onward cb i c (.checked cb c.fallback (Mem.updateStateIfNeeded cb { m with lock := some i } c.now c.later).state)
    (Mem.updateStateIfNeeded cb { m with lock := some i } c.now c.later) = _
  rw [update_lock]
  exact h

theorem onward_opened (m : Mem ι T) :
    onward cb i c (.checked cb c.fallback .opened) m = some ({ m with lock := none }, .call false c.fallback) := by
  cases hf : c.fallback with
  | false => exact onward_goes cb i c (.leaving (.error (fastFail cb))) rfl rfl (onward_ended ..)
  | true =>
    have hleave : onward cb i c (Phase.on (fun v => .leaving (.ok (some v))) (fun x => .leaving (.error x))
        c.outcome.fallback) m = some ({ m with lock := none }, .call false false) := by
      cases c.outcome.fallback with
      | ok v => exact onward_goes cb i c (.leaving (.ok (some v))) rfl rfl (onward_ended ..)
      | error x => exact onward_goes cb i c (.leaving (.error x)) rfl rfl (onward_ended ..)
    exact onward_goes cb i c .fallingFast rfl rfl hleave

theorem onward_success {m : Mem ι T} (hl : m.lock = none) (v : V) :
    onward cb i c (.lockingOk v) m = some ({ m.onSuccess c.done with lock := none }, .call false false) := by
  refine onward_goes cb i c (.lockingOk v) rfl (exec_lock_free cb i c hl) ?_
  refine onward_goes cb i c (.recordingOk v) rfl rfl ?_
  refine onward_goes cb i c (.leavingOk (.ok v)) rfl rfl ?_
  show onward cb i c (.ended (.ok v)) { Mem.onSuccess { m with lock := some i } c.done with lock := none } = _
  rw [onSuccess_lock]
  exact onward_ended ..

theorem onward_failure {m : Mem ι T} (hl : m.lock = none) (x : Exc E) :
    onward cb i c (.lockingErr x) m = some ({ m.onFailure cb c.done with lock := none }, .call false c.fallback) := by
  refine onward_goes cb i c (.lockingErr x) rfl (exec_lock_free cb i c hl) ?_
  refine onward_goes cb i c (.recordingErr x) rfl rfl ?_
  refine onward_goes cb i c (.leavingErr x (.ok ())) rfl rfl ?_
  show onward cb i c (if c.fallback then .fallingBack x else .fail x)
    { Mem.onFailure cb { m with lock := some i } c.done with lock := none } = _
  rw [onFailure_lock]
  cases hf : c.fallback with
  | false => exact onward_ended ..
  | true =>
    have hend : onward cb i c (Phase.on (fun v => .ended (.ok v)) .fail c.outcome.fallback)
        { m.onFailure cb c.done with lock := none } =
        some ({ m.onFailure cb c.done with lock := none }, .call false false) := by
      cases c.outcome.fallback <;> exact onward_ended ..
    exact onward_goes cb i c (.fallingBack x) rfl rfl hend

theorem onward_running {m : Mem ι T} (hl : m.lock = none) : onward cb i c .running m = some (
    match verdict c.outcome with
    | .success => ({ m.onSuccess c.done with lock := none }, .call false false)
    | .failure => ({ m.onFailure cb c.done with lock := none }, .call false c.fallback)
    | .unseen => (m, .call false false)) := by
  cases ho : c.outcome.func with
  | ok v =>
    simp only [verdict, ho]
    refine onward_goes cb i c .running rfl rfl ?_
    show onward cb i c (Phase.on _ _ c.outcome.func) m = _
    rw [ho]
    exact onward_success cb i c hl v
  | error x =>
    simp only [verdict, ho]
    cases hx : x.isException with
    | true =>
      refine onward_goes cb i c .running rfl rfl ?_
      show onward cb i c (Phase.on _ _ c.outcome.func) m = _
      rw [ho]
      show onward cb i c (.caught x) m = _
      rw [Phase.caught, if_pos hx]
      exact onward_failure cb i c hl x
    | false =>
      refine onward_goes cb i c .running rfl rfl ?_
      show onward cb i c (Phase.on _ _ c.outcome.func) m = _
      rw [ho]
      show onward cb i c (.caught x) m = _
      rw [Phase.caught, if_neg (by rw [hx]; decide)]
      exact onward_ended ..

/-- What the coroutine does by itself is what the operations on the fields do. -/
theorem callAlone_eq {m : Mem ι T} (hl : m.lock = none) :
    callAlone cb m (i, c) = some ((core cb).take verdict m (.call c)) ∧
      ((core cb).take verdict m (.call c)).1.lock = none := by
  have hu : (m.updateStateIfNeeded cb c.now c.later).lock = none := by
    rw [← lock_free hl, update_lock]
  have hs : (Mem.onSuccess (m.updateStateIfNeeded cb c.now c.later) c.done).lock = none := by
    rw [← lock_free hu, onSuccess_lock]
  have hf : (Mem.onFailure cb (m.updateStateIfNeeded cb c.now c.later) c.done).lock = none := by
    rw [← lock_free hu, onFailure_lock]
  show onward cb i c .locking m = _ ∧ _
  by_cases ho : (m.updateStateIfNeeded cb c.now c.later).state = .opened
  · simp only [Core.take, core, ho, if_true]
    refine ⟨onward_enter cb i c hl ?_, hu⟩
    rw [ho, onward_opened]
    exact congrArg (fun m' => some (m', Seen.call false c.fallback)) (lock_free hu)
  · simp only [Core.take, core, ho, if_false]
    have hrun := onward_running cb i c hu
    have hstart : ∀ {m' : Mem ι T} {fallback : Bool},
        onward cb i c .running (m.updateStateIfNeeded cb c.now c.later) = some (m', .call false fallback) →
        onward cb i c .locking m = some (m', .call true fallback) := by
      intro m' fallback h
      apply onward_enter cb i c hl
      rw [Phase.checked, if_neg ho]
      refine onward_goes cb i c (.leaving (.ok none)) rfl rfl ?_
      refine onward_goes cb i c .starting rfl rfl (?_ : _ = some (m', Seen.call false fallback))
      rw [← h]
      exact congrArg (onward cb i c .running) (lock_free hu)
    cases hv : verdict c.outcome with
    | success =>
      rw [hv] at hrun
      exact ⟨hstart (hrun.trans (congrArg (fun m' => some (m', Seen.call false false)) (lock_free hs))), hs⟩
    | failure =>
      rw [hv] at hrun
      exact ⟨hstart (hrun.trans (congrArg (fun m' => some (m', Seen.call false c.fallback)) (lock_free hf))), hf⟩
    | unseen =>
      rw [hv] at hrun
      exact ⟨hstart hrun, hu⟩

end Alone

/-- It is a run of the calls side by side in which only that one moves. -/
theorem callAlone_reach [DecidableEq ι] {s : Calling ι T E V} {i : ι} {c : Call T (Outcomes E V)}
    (hthr : s.thr i = call cb c.fallback) {m : Mem ι T} {seen : Seen} (h : callAlone cb s.mem (i, c) = some (m, seen)) :
    ∃ s', (threads (memory cb)).Reach Machine.any s s' ∧ s'.mem = m ∧ ∀ j, j ≠ i → s'.thr j = s.thr j := by
  simp only [callAlone, Option.map_eq_some_iff] at h
  obtain ⟨⟨r, m', cs⟩, hrun, heq⟩ := h
  cases heq
  obtain ⟨log, hreach, -⟩ := alone_reach hthr hrun
  refine ⟨_, hreach, rfl, ?_⟩
  intro j hj
  exact Function.update_of_ne hj _ _

end Python

/-! ## NestJS -/

namespace Nest

variable {ι E V : Type}

def verdict : Except E V → Verdict
  | .ok _ => .success
  | .error _ => .failure

def settings : Settings Int where
  threshold := failureThreshold
  expired since t := since + recoveryTimeoutMs ≤ t
  expired_mono h ht := decide_eq_true (le_trans (of_decide_eq_true h) ht)

def core : Core CircuitBreakerService Int where
  state := CircuitBreakerService.state
  update := CircuitBreakerService.updateStateIfNeeded
  success := CircuitBreakerService.onSuccess
  failure := CircuitBreakerService.onFailure

def Ending.fellBack : Ending E V → Bool
  | .fallback => true
  | _ => false

/-- `call` with nothing in between its two halves, or a query. -/
def takeAlone (b : CircuitBreakerService) : Item Int (Except E V) → CircuitBreakerService × Seen
  | .call c =>
    match callStart (E := E) (V := V) b c.fallback c.now c.later with
    | (some r, b) => (b, .call false r.fellBack)
    | (none, b) =>
      let (r, b) := callSettled b c.fallback c.outcome c.done
      (b, .call true r.fellBack)
  | .query now later =>
    let (state, b) := b.getState now later
    (b, .query state)

theorem takeAlone_eq (b : CircuitBreakerService) (item : Item Int (Except E V)) :
    takeAlone b item = core.take verdict b item := by
  cases item with
  | query now later => rfl
  | call c =>
    by_cases ho : (b.updateStateIfNeeded c.now c.later).state = .opened
    · cases hf : c.fallback <;> simp [takeAlone, callStart, Core.take, core, ho, hf, Ending.fellBack]
    · cases hc : c.outcome with
      | ok v => simp [takeAlone, callStart, callSettled, verdict, Core.take, core, ho, hc, Ending.fellBack]
      | error e =>
        cases hf : c.fallback <;>
          simp [takeAlone, callStart, callSettled, verdict, Core.take, core, ho, hc, hf, Ending.fellBack]

/-- It is a run of the service in which only that call comes and ends. -/
theorem takeAlone_reach [DecidableEq ι] {fallback : ι → Bool} {s : Run ι E V} {i : ι} (hp : s.phase i = .uncalled)
    (c : Call Int (Except E V)) :
    ∃ s', (service fallback).Reach Machine.any s s' ∧ s'.breaker = (takeAlone s.breaker (.call c)).1 := by
  let s₁ : Run ι E V := ⟨s.breaker.updateStateIfNeeded c.now c.later,
    Function.update s.phase i (.arrived (fallback i) (s.breaker.updateStateIfNeeded c.now c.later).state),
    s.log ++ [.checked i (s.breaker.updateStateIfNeeded c.now c.later).state]⟩
  have harrive : (service fallback).step s (.arrive i c.now c.later) = some s₁ := arrive_eq hp
  have hreach : (service fallback).Reach Machine.any s s₁ := .step _ .init trivial harrive
  rw [takeAlone_eq]
  by_cases ho : (s.breaker.updateStateIfNeeded c.now c.later).state = .opened
  · exact ⟨s₁, hreach, by simp [Core.take, core, ho, s₁]⟩
  · have hp₁ : s₁.phase i = .running := by simp [s₁, Phase.arrived, ho]
    refine ⟨_, .step (.settle i c.outcome c.done) hreach trivial (settle_eq hp₁), ?_⟩
    cases hc : c.outcome <;> simp [Core.take, core, ho, s₁, CircuitBreakerService.record, verdict, hc]

theorem core_lawful : core.Lawful settings (fun b n => b.failureCount = n) (fun b t => b.lastStateChange = t) where
  update_expired {b since now later} ho hs _ hexpired := by
    subst hs
    change b.state = .opened at ho
    have hle : recoveryTimeoutMs ≤ now - b.lastStateChange := by
      have := of_decide_eq_true hexpired
      omega
    show (b.updateStateIfNeeded now later).state = _
    rw [CircuitBreakerService.updateStateIfNeeded, if_pos ho, if_pos hle]
  update_wait {b since now later} ho hs _ hexpired := by
    subst hs
    change b.state = .opened at ho
    have hle : ¬ recoveryTimeoutMs ≤ now - b.lastStateChange := by
      intro h
      exact hexpired (decide_eq_true (by omega))
    show b.updateStateIfNeeded now later = b
    rw [CircuitBreakerService.updateStateIfNeeded, if_pos ho, if_neg hle]
  update_other ho := if_neg ho
  success {b t} ho := by
    change b.state ≠ .opened at ho
    show (b.onSuccess t).state = .closed ∧ (b.onSuccess t).failureCount = 0
    unfold CircuitBreakerService.onSuccess
    split
    · exact ⟨rfl, rfl⟩
    · split
      · exact ⟨‹_›, rfl⟩
      · cases hs : b.state <;> contradiction
  failure_half {b t} hh := by
    change b.state = .halfOpen at hh
    show (b.onFailure t).state = .opened ∧ (b.onFailure t).lastStateChange = t
    simp only [CircuitBreakerService.onFailure, hh, true_or, if_true, and_self]
  failure_trip {b n t} hc hn hle := by
    subst hn
    change failureThreshold ≤ b.failureCount + 1 at hle
    show (b.onFailure t).state = .opened ∧ (b.onFailure t).lastStateChange = t
    simp only [CircuitBreakerService.onFailure, hle, or_true, if_true, and_self]
  failure_count {b n t} hc hn hle := by
    subst hn
    change b.state = .closed at hc
    change ¬ failureThreshold ≤ b.failureCount + 1 at hle
    show (b.onFailure t).state = .closed ∧ (b.onFailure t).failureCount = b.failureCount + 1
    simp [CircuitBreakerService.onFailure, hc, hle]

end Nest

/-! ## Java -/

namespace Java

variable {E V : Type}

def verdict : Except (Throwable E) V → Verdict
  | .ok _ => .success
  | .error (.exception _) => .failure
  | .error (.error _) => .unseen

def settings : Settings Millis where
  threshold := 3
  expired since t := since.val.toInt + 4000 ≤ t.val.toInt
  expired_mono {since t t'} h ht := by
    have h' := of_decide_eq_true h
    have ht' : t.val.toInt ≤ t'.val.toInt := ht
    exact decide_eq_true (by omega)

def core : Core CircuitBreaker Millis where
  state := CircuitBreaker.state
  update := CircuitBreaker.updateStateIfNeeded
  success := CircuitBreaker.onSuccess
  failure := CircuitBreaker.onFailure

def Ending.fellBack : Ending E V → Bool
  | .fallback => true
  | _ => false

def takeAlone (b : CircuitBreaker) : Item Millis (Except (Throwable E) V) → CircuitBreaker × Seen
  | .call c =>
    let (action, r, b) := b.execute c.fallback c.now c.later c.outcome c.done
    (b, .call action r.fellBack)
  | .query now later =>
    let (state, b) := b.getState now later
    (b, .query state)

theorem takeAlone_eq (b : CircuitBreaker) (item : Item Millis (Except (Throwable E) V)) :
    takeAlone b item = core.take verdict b item := by
  cases item with
  | query now later => rfl
  | call c =>
    by_cases ho : (b.updateStateIfNeeded c.now c.later).state = .opened
    · cases hf : c.fallback <;> simp [takeAlone, CircuitBreaker.execute, Core.take, core, ho, hf, Ending.fellBack]
    · cases hc : c.outcome with
      | ok v => simp [takeAlone, CircuitBreaker.execute, verdict, Core.take, core, ho, hc, Ending.fellBack]
      | error e =>
        cases e with
        | error e => simp [takeAlone, CircuitBreaker.execute, verdict, Core.take, core, ho, hc, Ending.fellBack]
        | exception e =>
          cases hf : c.fallback <;>
            simp [takeAlone, CircuitBreaker.execute, verdict, Core.take, core, ho, hc, hf, Ending.fellBack]

/-- The `int` counter stands at `n`, which is all that is looked at while closed: below
    three it has not wrapped around. -/
def Shows (b : CircuitBreaker) (n : Nat) : Prop := b.failureCount = Int32.ofNat n ∧ n < 3

theorem elapsed_iff {since now : Millis} (h : since ≤ now) :
    recoveryTimeoutMs ≤ now.val - since.val ↔ settings.expired since now := by
  have hle : since.val ≤ now.val := Int64.le_iff_toInt_le.mpr h
  have hsub := Int64.toInt_sub_of_le now.val since.val since.nonneg hle
  have hto : recoveryTimeoutMs.toInt = 4000 := rfl
  rw [Int64.le_iff_toInt_le, hsub, hto]
  show _ ↔ decide (since.val.toInt + 4000 ≤ now.val.toInt) = true
  rw [decide_eq_true_iff]
  omega

theorem core_lawful : core.Lawful settings Shows (fun b t => b.lastStateChange = t.val) where
  update_expired {b since now later} ho hs hle hexpired := by
    change b.state = .opened at ho
    have hel := (elapsed_iff hle).mpr hexpired
    show (b.updateStateIfNeeded now later).state = _
    simp only [CircuitBreaker.updateStateIfNeeded, ho, hs, hel, if_true]
  update_wait {b since now later} ho hs hle hexpired := by
    change b.state = .opened at ho
    have hel := mt (elapsed_iff hle).mp hexpired
    show b.updateStateIfNeeded now later = b
    simp only [CircuitBreaker.updateStateIfNeeded, ho, hs, hel, if_true, if_false]
  update_other ho := if_neg ho
  success {b t} ho := by
    change b.state ≠ .opened at ho
    show (b.onSuccess t).state = .closed ∧ Shows (b.onSuccess t) 0
    unfold CircuitBreaker.onSuccess
    split
    · exact ⟨rfl, rfl, by decide⟩
    · split
      · exact ⟨‹_›, rfl, by decide⟩
      · cases hs : b.state <;> contradiction
  failure_half {b t} hh := by
    change b.state = .halfOpen at hh
    show (b.onFailure t).state = .opened ∧ (b.onFailure t).lastStateChange = t.val
    simp only [CircuitBreaker.onFailure, hh, true_or, if_true, and_self]
  failure_trip {b n t} hc hn hle := by
    obtain ⟨hcount, hlt⟩ := hn
    change 3 ≤ n + 1 at hle
    have hn : n = 2 := by omega
    subst hn
    have hthr : failureThreshold ≤ b.failureCount + 1 := by rw [hcount]; decide
    show (b.onFailure t).state = .opened ∧ (b.onFailure t).lastStateChange = t.val
    simp only [CircuitBreaker.onFailure, hthr, or_true, if_true, and_self]
  failure_count {b n t} hc hn hle := by
    obtain ⟨hcount, hlt⟩ := hn
    change b.state = .closed at hc
    change ¬ 3 ≤ n + 1 at hle
    have hthr : ¬ failureThreshold ≤ b.failureCount + 1 := by
      rw [hcount]
      have hn : n = 0 ∨ n = 1 := by omega
      rcases hn with rfl | rfl <;> decide
    have hnext : b.failureCount + 1 = Int32.ofNat (n + 1) := by
      rw [hcount]
      have hn : n = 0 ∨ n = 1 := by omega
      rcases hn with rfl | rfl <;> rfl
    have hb : b.onFailure t = { b with failureCount := b.failureCount + 1 } := by
      simp [CircuitBreaker.onFailure, hc, hthr]
    show (b.onFailure t).state = .closed ∧ Shows (b.onFailure t) (n + 1)
    rw [hb]
    exact ⟨hc, hnext, by omega⟩

end Java

/-! ## All three -/

section Refine

variable {ι T E V : Type} [AddCommGroup T] [LinearOrder T] [IsOrderedAddMonoid T]

/-- The items of a Python history: its state is only read where nothing changes it. -/
def items (hist : List (ι × Call T (Outcomes E V))) : List (Item T (Outcomes E V)) := hist.map fun c => .call c.2

end Refine

/-! ## An outage -/

section Outage

variable {T O : Type} (time : Nat → T) (fails works : O)

/-- A call with a fallback, all at the time `t`. -/
def callAt (t : T) (outcome : O) : Call T O := ⟨t, t, t, true, outcome⟩

end Outage

/-- The time `t` on the Java clock, in its range. -/
def javaTime (t : Nat) : Java.Millis :=
  if h : 0 ≤ Int64.ofNat t then ⟨Int64.ofNat t, h⟩ else ⟨0, by decide⟩

theorem javaTime_toInt {t : Nat} (h : t < 9223372036854775808) : (javaTime t).val.toInt = t := by
  have hto := Int64.toInt_ofNat_of_lt h
  have hle : 0 ≤ Int64.ofNat t := Int64.le_iff_toInt_le.mpr (by rw [hto, Int64.toInt_zero]; omega)
  rw [javaTime, dif_pos hle, hto]

theorem javaTime_mono (m n : Nat) (h : m ≤ n) (hn : n ≤ 5000) : javaTime m ≤ javaTime n := by
  show (javaTime m).val.toInt ≤ (javaTime n).val.toInt
  rw [javaTime_toInt (by omega), javaTime_toInt (by omega)]
  omega

def paymentGateway : CircuitBreaker Int := ⟨"payment-gateway", 3, 4000⟩

end Playground.Breaker
