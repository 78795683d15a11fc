/-
  Playground.Breaker.Invariant — the breaker under overlapping calls.

  Old calls finish in any state and in any order, and the counter is not reset on
  every transition. What holds all the same (`breaker_invariant`): while closed the
  counter is the run of failures since the last success and below the threshold, and
  open or half-open it is not below; the state changes in four ways, each when it
  should; and `func` does not run for a call that was turned away.
-/

import Mathlib.Data.Fintype.Basic
import Playground.Breaker.Admission

namespace Playground.Breaker

open Playground.Lib

section Breaker

variable {ι T E V : Type}

/-- What an entry does to the run of failures. -/
def tally (n : Nat) : Entry ι Cmd (Ans V) (Exc E) Empty → Nat
  | .did _ .onSuccess _ => 0
  | .did _ .onFailure _ => n + 1
  | _ => n

/-- The failures recorded since the last success. -/
def failuresSince (log : Log ι E V) : Nat := log.foldl tally 0

@[simp] theorem failuresSince_snoc (log : Log ι E V) (e : Entry ι Cmd (Ans V) (Exc E) Empty) :
    failuresSince (log ++ [e]) = tally (failuresSince log) e := by
  simp [failuresSince]

variable (cb : CircuitBreaker T)

structure Sound (m : Mem ι T) (log : Log ι E V) : Prop where
  closed : m.state = .closed → m.failureCount < cb.failureThreshold ∧ m.failureCount = failuresSince log
  tripped : m.state ≠ .closed → cb.failureThreshold ≤ m.failureCount

/-- A change of state: by which command, and when. -/
inductive Change [Sub T] [LE T] (m : Mem ι T) (log : Log ι E V) (x : Chance T E V) :
    Cmd → CircuitState → CircuitState → Prop
  | trip : failuresSince log + 1 = cb.failureThreshold → Change m log x .onFailure .closed .opened
  | probe : cb.recoveryTimeoutSec ≤ x.now - m.lastStateChange → Change m log x .updateStateIfNeeded .opened .halfOpen
  | recover : Change m log x .onSuccess .halfOpen .closed
  | relapse : Change m log x .onFailure .halfOpen .opened

variable {cb} {m : Mem ι T} {log : Log ι E V}

theorem sound_init (hthr : 1 ≤ cb.failureThreshold) (now : T) : Sound cb (Mem.init now : Mem ι T) ([] : Log ι E V) :=
  ⟨fun _ => ⟨hthr, rfl⟩, fun hs => absurd rfl hs⟩

theorem Sound.success (h : Sound cb m log) (hthr : 1 ≤ cb.failureThreshold) (i : ι) (now : T) :
    Sound cb (m.onSuccess now) (log ++ [.did i .onSuccess (.ok ())]) := by
  unfold Mem.onSuccess
  split
  · exact ⟨fun _ => ⟨hthr, by simp [tally]⟩, fun hs => absurd rfl hs⟩
  · split
    · exact ⟨fun _ => ⟨hthr, by simp [tally]⟩, fun hs => absurd ‹_› hs⟩
    · exact ⟨fun hs => absurd hs ‹_›, h.tripped⟩

theorem Sound.failure (h : Sound cb m log) (i : ι) (now : T) :
    Sound cb (m.onFailure cb now) (log ++ [.did i .onFailure (.ok ())]) := by
  simp only [Mem.onFailure]
  split
  · rename_i hopen
    refine ⟨fun hs => (nomatch hs), ?_⟩
    intro _
    rcases hopen with hs | hle
    · have := h.tripped (by rw [hs]; decide)
      show cb.failureThreshold ≤ m.failureCount + 1
      omega
    · exact hle
  · rename_i hopen
    obtain ⟨hs, hlt⟩ := not_or.mp hopen
    refine ⟨fun hc => ⟨Nat.lt_of_not_le hlt, ?_⟩, fun hc => Nat.le_succ_of_le (h.tripped hc)⟩
    simpa [tally] using (h.closed hc).2

/-- A step that records nothing and leaves the count keeps the breaker sound. -/
theorem Sound.keep (h : Sound cb m log) {m' : Mem ι T} {e : Entry ι Cmd (Ans V) (Exc E) Empty}
    (hstate : m'.state = m.state ∨ m.state = .opened ∧ m'.state = .halfOpen) (hcount : m'.failureCount = m.failureCount)
    (ht : tally (failuresSince log) e = failuresSince log) : Sound cb m' (log ++ [e]) := by
  constructor
  · intro hs
    rcases hstate with h' | ⟨-, h'⟩
    · rw [hcount, failuresSince_snoc, ht]
      exact h.closed (h' ▸ hs)
    · rw [h'] at hs
      cases hs
  · intro hs
    rw [hcount]
    rcases hstate with h' | ⟨h', -⟩
    · exact h.tripped (h' ▸ hs)
    · exact h.tripped (by rw [h']; decide)

/-- Recording a failure in a closed breaker opens it when it is the threshold's. -/
theorem failure_trips (h : Sound cb m log) (hs : m.state = .closed) (now : T) :
    (m.onFailure cb now).state = .opened ↔ failuresSince log + 1 = cb.failureThreshold := by
  obtain ⟨hlt, hcount⟩ := h.closed hs
  simp only [Mem.onFailure, hs, reduceCtorEq, false_or]
  split
  · simp only [true_iff]
    omega
  · simp only [reduceCtorEq, false_iff]
    omega

variable [Sub T] [LE T] [DecidableLE T]

theorem update_cases (cb : CircuitBreaker T) (m : Mem ι T) (now later : T) :
    m.updateStateIfNeeded cb now later = m ∨ (m.state = .opened ∧ cb.recoveryTimeoutSec ≤ now - m.lastStateChange ∧
      m.updateStateIfNeeded cb now later = { m with state := .halfOpen, lastStateChange := later }) := by
  unfold Mem.updateStateIfNeeded
  split
  · split
    · exact .inr ⟨‹_›, ‹_›, rfl⟩
    · exact .inl rfl
  · exact .inl rfl

theorem exec_sound (hthr : 1 ≤ cb.failureThreshold) (h : Sound cb m log) {i : ι} {c : Cmd} {x : Chance T E V}
    {rm : Except (Exc E) (Ans V c) × Mem ι T} (hx : (memory cb).exec i c x m = some rm) :
    Sound cb rm.2 (log ++ [.did i c rm.1]) := by
  cases c with
  | onSuccess => cases hx; exact h.success hthr i x.now
  | onFailure => cases hx; exact h.failure i x.now
  | updateStateIfNeeded =>
    cases hx
    rcases update_cases cb m x.now x.later with hu | ⟨hs, -, hu⟩
    · exact h.keep (.inl (by rw [hu])) (by rw [hu]) rfl
    · exact h.keep (.inr ⟨hs, by rw [hu]⟩) (by rw [hu]) rfl
  | lock | unlock | state | startFunc | awaitFunc | fallback =>
    obtain ⟨l, hl⟩ := exec_quiet hx trivial
    exact h.keep (.inl (by rw [hl])) (by rw [hl]) rfl

theorem exec_change (h : Sound cb m log) {i : ι} {c : Cmd} {x : Chance T E V}
    {rm : Except (Exc E) (Ans V c) × Mem ι T} (hx : (memory cb).exec i c x m = some rm) (hne : rm.2.state ≠ m.state) :
    Change cb m log x c m.state rm.2.state := by
  cases c with
  | onSuccess =>
    cases hx
    simp only [Mem.onSuccess] at hne ⊢
    split at hne
    · rename_i hs
      rw [hs]
      exact .recover
    · split at hne <;> exact absurd rfl hne
  | onFailure =>
    cases hx
    cases hs : m.state with
    | closed =>
      have hcase : (m.onFailure cb x.now).state = .opened ∨ (m.onFailure cb x.now).state = m.state := by
        simp only [Mem.onFailure]
        split <;> simp
      have hopen := hcase.resolve_right hne
      rw [hopen]
      exact .trip ((failure_trips h hs x.now).mp hopen)
    | opened =>
      refine absurd ?_ hne
      simp only [Mem.onFailure, hs]
      split <;> rfl
    | halfOpen =>
      simp only [Mem.onFailure, hs, true_or, if_true]
      exact .relapse
  | updateStateIfNeeded =>
    cases hx
    rcases update_cases cb m x.now x.later with hu | ⟨hs, ht, hu⟩
    · exact absurd (by rw [hu]) hne
    · rw [hu, hs]
      exact .probe ht
  | lock | unlock | state | startFunc | awaitFunc | fallback =>
    obtain ⟨l, hl⟩ := exec_quiet hx trivial
    exact absurd (by rw [hl]) hne

variable [DecidableEq ι]

theorem sound_of_reach (hthr : 1 ≤ cb.failureThreshold) {fallback : ι → Bool} {t₀ : T} {s : Calling ι T E V}
    (h : (threads (memory cb)).Reach Machine.any (start (Mem.init t₀) fun i => call cb (fallback i)) s) :
    Sound cb s.mem s.log := by
  refine h.invariant (P := fun s => Sound cb s.mem s.log) (sound_init hthr t₀) ?_
  intro s e s' hi _ hs
  cases e with
  | env e => exact nomatch e
  | run i x =>
    obtain ⟨c, k, rm, -, hx, rfl⟩ := threads_run hs
    exact exec_sound hthr hi hx

/-- The breaker in every run of any number of overlapping calls. -/
theorem breaker_invariant (hthr : 1 ≤ cb.failureThreshold) {fallback : ι → Bool} {t₀ : T} {s : Calling ι T E V}
    (h : (threads (memory cb)).Reach Machine.any (start (Mem.init t₀) fun i => call cb (fallback i)) s) :
    (s.mem.state = .closed →
      s.mem.failureCount < cb.failureThreshold ∧ s.mem.failureCount = failuresSince s.log) ∧
      (s.mem.state ≠ .closed → cb.failureThreshold ≤ s.mem.failureCount) ∧
      (∀ i x s', (threads (memory cb)).step s (.run i x) = some s' → ∃ c r, s'.log = s.log ++ [.did i c r] ∧
        (s'.mem.state ≠ s.mem.state → Change cb s.mem s.log x c s.mem.state s'.mem.state) ∧
        (s.mem.state = .closed → c = .onFailure → failuresSince s.log + 1 = cb.failureThreshold →
          s'.mem.state = .opened)) ∧
      (∀ i, Found s.log i .opened → ¬ Started s.log i) := by
  have hsound := sound_of_reach hthr h
  refine ⟨hsound.closed, hsound.tripped, ?_, ?_⟩
  · intro i x s' hs
    obtain ⟨c, k, rm, -, hx, rfl⟩ := threads_run hs
    refine ⟨c, rm.1, rfl, exec_change hsound hx, ?_⟩
    intro hc he hn
    subst he
    cases hx
    exact (failure_trips hsound hc x.now).mpr hn
  · intro i
    rw [← calls_start] at h
    obtain ⟨u, hu, rfl⟩ := Flow.follows _ h
    have hknown := hu.invariant (P := fun u => ∀ j, Known u.log j (u.ph j)) known_start
      (fun _ _ _ hk _ hs => known_step hk hs) i
    exact hknown.unstarted

end Breaker

/-! ## Two failures and a call turned away -/

/-- Three callers. -/
inductive Caller
  | first
  | second
  | third
  deriving DecidableEq

instance : Fintype Caller := ⟨{.first, .second, .third}, fun c => by cases c <;> decide⟩

/-- One that opens at the second failure, for five units of time. -/
def payments : CircuitBreaker Int := ⟨"payments", 2, 5⟩

/-- At the time `now`; `func`, should it end, raises. -/
def failing (now : Int) : Chance Int Unit Unit := ⟨now, now, .error (.app ()), false⟩

/-- Two calls run to their end; the third comes before the recovery timeout. -/
def twoFailures : List (Ev Caller (Chance Int Unit Unit) Empty) :=
  List.replicate 9 (.run Caller.first (failing 1)) ++ List.replicate 9 (.run Caller.second (failing 2)) ++
    List.replicate 3 (.run Caller.third (failing 3))

def turnedAway : Calling Caller Int Unit Unit :=
  ((threads (memory payments)).run (start (Mem.init 0) fun _ => call payments false) twoFailures).get rfl

theorem turned_away : turnedAway.mem.state = .opened ∧ 2 ≤ turnedAway.mem.failureCount ∧
    Found turnedAway.log .third .opened ∧ ¬ Started turnedAway.log .third := by
  have h := breaker_invariant (by decide)
    (Machine.reach_any_of_run twoFailures (Option.some_get _).symm : (threads (memory payments)).Reach
      Machine.any (start (Mem.init 0) fun _ => call payments false) turnedAway)
  have hfound : Found turnedAway.log .third .opened := by
    show _ ∈ turnedAway.log
    have hlast : turnedAway.log[20]? = some (.did .third .state (.ok .opened)) := rfl
    exact List.mem_of_getElem? hlast
  exact ⟨rfl, h.2.1 (by decide), hfound, h.2.2.2 .third hfound⟩

end Playground.Breaker
