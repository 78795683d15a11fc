/-
  Playground.Breaker.UserCode — what runs under the breaker's lock.

  A call takes the lock three times: to check the state, and to record a success or a
  failure. A failed call runs its fallback after it let go of the lock. A call that is
  turned away runs it inside the first `async with`:
  - `user_code_unlocked`: as long as no call with a fallback is turned away, whoever
    holds the lock is in the breaker's own code, and can go on; and the first such call
    is the first to hold the lock in its caller's code.
  - `fallback_locked`: a call turned away with a slow fallback keeps the next one
    waiting before it is even looked at.
-/

import Playground.Breaker.Trial

namespace Playground.Breaker

open Playground.Lib

section UserCode

variable {ι T E V : Type}

/-- Inside one of the three `async with self._lock`. -/
def Phase.holds : Phase E V → Prop
  | .updating => True
  | .checking => True
  | .fallingFast => True
  | .leaving _ => True
  | .recordingOk _ => True
  | .leavingOk _ => True
  | .recordingErr _ => True
  | .leavingErr _ _ => True
  | _ => False

/-- The lock is held by the call that is inside, if any. -/
def HeldInside (u : St ι T E V) : Prop := ∀ i, u.mem.lock = some i ↔ (u.ph i).holds

theorem heldInside_start (now : T) : HeldInside (⟨Mem.init now, fun _ => .locking, []⟩ : St ι T E V) := by
  intro i
  simp [Mem.init, Phase.holds]

theorem holds_caught (x : Exc E) : ¬ (Phase.caught x : Phase E V).holds := by
  unfold Phase.caught
  split <;> exact id

theorem caught_ne_fallingFast (x : Exc E) : (Phase.caught x : Phase E V) ≠ .fallingFast := by
  unfold Phase.caught
  split <;> simp

theorem holds_checked {cb : CircuitBreaker T} (hasFallback : Bool) (state : CircuitState) :
    (Phase.checked cb hasFallback state : Phase E V).holds := by
  unfold Phase.checked
  split
  · split <;> trivial
  · trivial

/-- A fast fallback begins where a call with one finds the breaker open. -/
theorem checked_fallingFast {cb : CircuitBreaker T} {hasFallback : Bool} {state : CircuitState} :
    (Phase.checked cb hasFallback state : Phase E V) = .fallingFast ↔ state = .opened ∧ hasFallback = true := by
  unfold Phase.checked
  split
  · split <;> simp_all
  · simp_all

/-- Suspended in what the caller passed in. -/
def InUserCode (s : Calling ι T E V) (i : ι) : Prop :=
  (s.thr i).next = some .awaitFunc ∨ (s.thr i).next = some .fallback

/-- No holder of the lock is. -/
def UserCodeFree (s : Calling ι T E V) : Prop := ∀ i, s.mem.lock = some i → ¬ InUserCode s i

/-- A call whose check finds the breaker open has no fallback. -/
def NoFastFallback (fallback : ι → Bool) (s : Calling ι T E V) : Ev ι (Chance T E V) Empty → Prop
  | .run i _ => (s.thr i).next = some .state → s.mem.state = .opened → fallback i = false
  | .env e => nomatch e

variable {cb : CircuitBreaker T} {fallback : ι → Bool}

/-- With the lock held from inside only, it is held in user code exactly when a call
    turned away is in its fallback. -/
theorem userCodeFree_iff {u : St ι T E V} (hu : HeldInside u) :
    UserCodeFree ((calls cb fallback).threadsOf u) ↔ ∀ i, u.ph i ≠ .fallingFast := by
  have hnext : ∀ i, ((calls cb fallback).threadsOf u).thr i = codeOf cb fallback i (u.ph i) := fun _ => rfl
  constructor
  · intro h i hi
    have hheld : u.mem.lock = some i := (hu i).mpr (by rw [hi]; trivial)
    apply h i hheld
    rw [InUserCode, hnext, hi]
    exact .inr rfl
  · intro h i hheld huser
    have hin := (hu i).mp hheld
    have hfast := h i
    rw [InUserCode, hnext] at huser
    have hcode := (calls cb fallback).next_code i (u.ph i)
    change (codeOf cb fallback i (u.ph i)).next = _ at hcode
    rw [hcode] at huser
    cases hp : u.ph i with
    | fallingFast => exact hfast hp
    | locking | starting | running | lockingOk | lockingErr | fallingBack | ended => rw [hp] at hin; exact hin
    | updating | checking | leaving | recordingOk | leavingOk | recordingErr | leavingErr =>
      rw [hp] at huser
      rcases huser with h | h <;> cases h

theorem head_inside (cb : CircuitBreaker T) (fallback : ι → Bool) (i : ι) {p : Phase E V} (hp : p.holds) :
    ∃ c k, headOf cb fallback i p = .goes c k ∧ c ≠ .lock := by
  cases p with
  | locking | starting | running | lockingOk | lockingErr | fallingBack | ended => exact hp.elim
  | updating | checking | fallingFast | leaving | recordingOk | leavingOk | recordingErr | leavingErr =>
    exact ⟨_, _, rfl, by decide⟩

variable [Sub T] [LE T] [DecidableLE T]

/-- What a step does to the lock, and to being inside. -/
theorem lock_cases {i : ι} {p : Phase E V} {c : Cmd} {k : Except (Exc E) (Ans V c) → Phase E V}
    (hh : headOf cb fallback i p = .goes c k) {x : Chance T E V} {m : Mem ι T}
    {rm : Except (Exc E) (Ans V c) × Mem ι T} (hx : (memory cb).exec i c x m = some rm) :
    (c = .lock ∧ m.lock = none ∧ rm.2.lock = some i ∧ (k rm.1).holds) ∨
      (c = .unlock ∧ p.holds ∧ rm.2.lock = none ∧ ¬ (k rm.1).holds) ∨
      (rm.2.lock = m.lock ∧ ((k rm.1).holds ↔ p.holds)) := by
  cases p with
  | locking =>
    cases hh
    rcases exec_lock hx with ⟨hfree, rfl⟩ | rfl
    · exact .inl ⟨rfl, hfree, rfl, trivial⟩
    · exact .inr (.inr ⟨rfl, Iff.rfl⟩)
  | lockingOk v =>
    cases hh
    rcases exec_lock hx with ⟨hfree, rfl⟩ | rfl
    · exact .inl ⟨rfl, hfree, rfl, trivial⟩
    · exact .inr (.inr ⟨rfl, iff_of_false (holds_caught _) id⟩)
  | lockingErr y =>
    cases hh
    rcases exec_lock hx with ⟨hfree, rfl⟩ | rfl
    · exact .inl ⟨rfl, hfree, rfl, trivial⟩
    · exact .inr (.inr ⟨rfl, Iff.rfl⟩)
  | leaving r =>
    cases hh; cases hx
    refine .inr (.inl ⟨rfl, trivial, rfl, ?_⟩)
    cases r with
    | error y => exact id
    | ok a => cases a <;> exact id
  | leavingOk r =>
    cases hh; cases hx
    refine .inr (.inl ⟨rfl, trivial, rfl, ?_⟩)
    cases r with
    | ok v => exact id
    | error y => exact holds_caught y
  | leavingErr y r =>
    cases hh; cases hx
    refine .inr (.inl ⟨rfl, trivial, rfl, ?_⟩)
    cases r with
    | error z => exact id
    | ok a =>
      show ¬ (if fallback i then Phase.fallingBack y else .fail y : Phase E V).holds
      split <;> exact id
  | updating =>
    cases hh; cases hx
    refine .inr (.inr ⟨?_, Iff.rfl⟩)
    rcases update_cases cb m x.now x.later with hu | ⟨-, -, hu⟩ <;> rw [hu]
  | checking => cases hh; cases hx; exact .inr (.inr ⟨rfl, iff_of_true (holds_checked ..) trivial⟩)
  | fallingFast =>
    cases hh; cases hx
    refine .inr (.inr ⟨rfl, iff_of_true ?_ trivial⟩)
    cases x.outcome <;> trivial
  | starting => cases hh; cases hx; exact .inr (.inr ⟨rfl, Iff.rfl⟩)
  | running =>
    cases hh; cases hx
    refine .inr (.inr ⟨rfl, iff_of_false ?_ id⟩)
    cases x.outcome with
    | ok v => exact id
    | error y => exact holds_caught y
  | recordingOk v =>
    cases hh; cases hx
    refine .inr (.inr ⟨?_, Iff.rfl⟩)
    simp only [Mem.onSuccess]
    split
    · rfl
    · split <;> rfl
  | recordingErr y =>
    cases hh; cases hx
    refine .inr (.inr ⟨?_, Iff.rfl⟩)
    simp only [Mem.onFailure]
    split <;> rfl
  | fallingBack y =>
    cases hh; cases hx
    refine .inr (.inr ⟨rfl, iff_of_false ?_ id⟩)
    cases x.outcome <;> exact id
  | ended r => cases hh

omit [Sub T] [LE T] [DecidableLE T] in
theorem checking_of_state {i : ι} {p : Phase E V} {k : Except (Exc E) CircuitState → Phase E V}
    (hh : headOf cb fallback i p = .goes .state k) : p = .checking := by
  cases p <;> cases hh
  rfl

omit [Sub T] [LE T] [DecidableLE T] in
/-- Only a check leads to a fallback under the lock. -/
theorem fallingFast_from {i : ι} {p : Phase E V} {c : Cmd} {k : Except (Exc E) (Ans V c) → Phase E V}
    (hh : headOf cb fallback i p = .goes c k) {r : Except (Exc E) (Ans V c)} (hk : k r = .fallingFast) :
    p = .checking := by
  cases p with
  | checking => rfl
  | ended r => cases hh
  | locking | updating | fallingFast | recordingOk | lockingErr | recordingErr | fallingBack =>
    cases hh
    cases r <;> simp [Phase.on, Phase.fail] at hk
  | starting | running | lockingOk =>
    cases hh
    cases r <;> simp [Phase.on, caught_ne_fallingFast] at hk
  | leaving a =>
    cases hh
    rcases a with y | (_ | v) <;> cases r <;> simp [Phase.on, Phase.fail, Phase.admitted] at hk
  | leavingOk a =>
    cases hh
    cases a <;> cases r <;> simp [Phase.on, caught_ne_fallingFast] at hk
  | leavingErr y a =>
    cases hh
    cases a <;> cases r <;> cases hf : fallback i <;> simp [Phase.on, Phase.fail, hf] at hk

variable [DecidableEq ι]

theorem HeldInside.step {u u' : St ι T E V} (hu : HeldInside u) {e : Ev ι (Chance T E V) Empty}
    (hs : ((calls cb fallback).phases (memory cb)).step u e = some u') : HeldInside u' := by
  cases e with
  | env e => exact nomatch e
  | run i x =>
    obtain ⟨c, k, rm, hh, hx, rfl⟩ := Flow.step_run _ hs
    refine (Phases.forall_did (Q := fun j p => rm.2.lock = some j ↔ Phase.holds p)).mpr ?_
    rcases lock_cases hh hx with ⟨-, hfree, htaken, hin⟩ | ⟨-, hin, hfree, hout⟩ | ⟨hsame, hiff⟩
    · refine ⟨iff_of_true htaken hin, fun j e => ?_⟩
      have hj : ¬ (u.ph j).holds := fun h => by cases hfree.symm.trans ((hu j).mpr h)
      simpa [htaken, Ne.symm e] using hj
    · refine ⟨by simpa [hfree] using hout, fun j e => ?_⟩
      have hj : ¬ (u.ph j).holds := fun h => e (Option.some.inj (((hu j).mpr h).symm.trans ((hu i).mpr hin)))
      simpa [hfree] using hj
    · rw [hsame, hiff]
      exact ⟨hu i, fun j _ => hu j⟩

/-- The step that first lets a call into its fallback under the lock is a check that
    turns away a call with one. -/
theorem fallingFast_step {u u' : St ι T E V} (hu : ∀ i, u.ph i ≠ .fallingFast) {e : Ev ι (Chance T E V) Empty}
    (hs : ((calls cb fallback).phases (memory cb)).step u e = some u') :
    (∀ i, u'.ph i ≠ .fallingFast) ↔ NoFastFallback fallback ((calls cb fallback).threadsOf u) e := by
  cases e with
  | env e => exact nomatch e
  | run i x =>
    obtain ⟨c, k, rm, hh, hx, rfl⟩ := Flow.step_run _ hs
    have hcode : (codeOf cb fallback i (u.ph i)).next = some c := (calls cb fallback).next_of_head hh
    have hall : (∀ j, (u.did i c rm.1 rm.2 (k rm.1)).ph j ≠ .fallingFast) ↔ k rm.1 ≠ .fallingFast :=
      (Phases.forall_did (Q := fun _ p => p ≠ (.fallingFast : Phase E V))).trans (and_iff_left fun j _ => hu j)
    rw [hall]
    show _ ↔ ((codeOf cb fallback i (u.ph i)).next = some .state → u.mem.state = .opened → fallback i = false)
    rw [hcode]
    change headOf cb fallback i (u.ph i) = .goes c k at hh
    by_cases hp : u.ph i = .checking
    · rw [hp] at hh; cases hh; cases hx
      rw [Phase.on, ne_eq, checked_fallingFast]
      simp
    · refine iff_of_true (fun hk => hp (fallingFast_from hh hk)) ?_
      intro e
      cases e
      exact absurd (checking_of_state hh) hp

/-- The holder of the lock can go on, whatever happens: of a call's commands only the
    lock is waited for. -/
theorem holder_goes {u : St ι T E V} (hu : HeldInside u) {i : ι} (hi : u.mem.lock = some i) (y : Chance T E V) :
    ∃ s', (threads (memory cb)).step ((calls cb fallback).threadsOf u) (.run i y) = some s' := by
  obtain ⟨c, k, hh, hc⟩ := head_inside cb fallback i ((hu i).mp hi)
  obtain ⟨rm, hx⟩ : ∃ rm, (memory cb).exec i c y u.mem = some rm := by
    cases c with
    | lock => exact absurd rfl hc
    | unlock | updateStateIfNeeded | state | startFunc | awaitFunc | onSuccess | onFailure | fallback =>
      exact ⟨_, rfl⟩
  rw [Flow.step_threadsOf, Flow.step_of_head (calls cb fallback) hh hx]
  exact ⟨_, rfl⟩

/-- In every run in which no call with a fallback is turned away: the lock is never
    held in a caller's code; a call kept waiting for it waits for one that is not, and
    that can go on whatever happens. The step that breaks this first is such a call's
    check. -/
theorem user_code_unlocked {t₀ : T} {s : Calling ι T E V} (h : (threads (memory cb)).Reach
    (NoFastFallback fallback) (start (Mem.init t₀) fun i => call cb (fallback i)) s) :
    UserCodeFree s ∧
      (∀ j x, (s.thr j).next = some .lock → (threads (memory cb)).step s (.run j x) = none →
        ∃ i, s.mem.lock = some i ∧ ¬ InUserCode s i ∧
          ∀ y, ∃ s', (threads (memory cb)).step s (.run i y) = some s') ∧
      (∀ e s', (threads (memory cb)).step s e = some s' → (UserCodeFree s' ↔ NoFastFallback fallback s e)) := by
  rw [← calls_start] at h
  obtain ⟨u, hu, rfl⟩ := Flow.follows _ h
  obtain ⟨hheld, hfast⟩ := hu.invariant (P := fun u => HeldInside u ∧ ∀ i, u.ph i ≠ .fallingFast)
    ⟨heldInside_start t₀, fun _ h => by cases h⟩
    fun _ _ _ hi hok hs => ⟨hi.1.step hs, (fallingFast_step hi.2 hs).mpr hok⟩
  have hfree : UserCodeFree ((calls cb fallback).threadsOf u) := (userCodeFree_iff hheld).mpr hfast
  refine ⟨hfree, ?_, ?_⟩
  · intro j x hj hwait
    cases hl : u.mem.lock with
    | some i => exact ⟨i, hl, hfree i hl, holder_goes hheld hl⟩
    | none =>
      obtain ⟨k, hk⟩ := Co.next_eq_some.mp hj
      simp only [threads, hk, Option.map_eq_none_iff] at hwait
      change (memory cb).exec j .lock x u.mem = none at hwait
      simp only [memory, hl, if_true] at hwait
      split at hwait <;> cases hwait
  · intro e s' hs
    rw [Flow.step_threadsOf, Option.map_eq_some_iff] at hs
    obtain ⟨u', hu', rfl⟩ := hs
    rw [userCodeFree_iff (hheld.step hu')]
    exact fallingFast_step hfast hu'

instance (fallback : ι → Bool) (s : Calling ι T E V) (e : Ev ι (Chance T E V) Empty) :
    Decidable (NoFastFallback fallback s e) :=
  match e with
  | .run _ _ => inferInstanceAs (Decidable (_ → _ → _))
  | .env e => nomatch e

end UserCode

/-! ## A slow fallback -/

/-- The first call fails and opens the breaker; the second, with a fallback, is turned
    away; the third has come. -/
def slowFallback : List (Ev Caller (Chance Int Unit Unit) Empty) :=
  List.replicate 10 (.run Caller.first (failing 1)) ++ List.replicate 3 (.run Caller.second (failing 2))

def inFallback : Calling Caller Int Unit Unit :=
  ((threads (memory flaky)).run (start (Mem.init 0) fun _ => call flaky true) slowFallback).get rfl

/-- The second runs its fallback with the lock held, and the third waits for it. -/
theorem fallback_locked : (threads (memory flaky)).Reach Machine.any (start (Mem.init 0) fun _ => call flaky true)
    inFallback ∧ ¬ UserCodeFree inFallback ∧
      ∀ now, (threads (memory flaky)).step inFallback (.run .third (succeeding now)) = none := by
  refine ⟨Machine.reach_any_of_run slowFallback (Option.some_get _).symm, ?_, fun _ => rfl⟩
  intro h
  exact h .second rfl (.inr rfl)

/-- Only the first call has a fallback. -/
def firstOnly : Caller → Bool
  | .first => true
  | _ => false

def inCheck : Calling Caller Int Unit Unit :=
  ((threads (memory flaky)).runIf (NoFastFallback firstOnly) (start (Mem.init 0) fun i => call flaky (firstOnly i))
    slowFallback).get rfl

theorem check_locked : inCheck.mem.lock = some .second ∧ ¬ InUserCode inCheck .second :=
  ⟨rfl, (user_code_unlocked (Machine.reach_of_runIf slowFallback (Option.some_get _).symm)).1 .second rfl⟩

end Playground.Breaker
