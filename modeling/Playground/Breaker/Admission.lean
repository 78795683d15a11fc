/-
  Playground.Breaker.Admission — what the log says of a call in its phase.

  A call reads the state once, under the lock. From then on it is in flight, unless it
  read `OPEN`: it runs `func` and records one outcome, or gives up when it is
  cancelled.
-/

import Playground.Breaker.CircuitBreaker

namespace Playground.Breaker

open Playground.Lib

section Admission

variable {ι T E V : Type}

abbrev Log (ι E V : Type) := List (Entry ι Cmd (Ans V) (Exc E) Empty)

/-- The calls being made. -/
abbrev Calling (ι T E V : Type) := Threads ι Cmd (Ans V) (Exc E) V Empty (Mem ι T)

abbrev St (ι T E V : Type) := Phases ι Cmd (Ans V) (Exc E) Empty (Mem ι T) (Phase E V)

/-- Call `i`'s admission check found the state `state`. -/
def Found (log : Log ι E V) (i : ι) (state : CircuitState) : Prop := .did i .state (.ok state) ∈ log

/-- Call `i` started `func`. -/
def Started (log : Log ι E V) (i : ι) : Prop := ∃ r, .did i .startFunc r ∈ log

/-- Call `i` recorded its outcome. -/
def Recorded (log : Log ι E V) (i : ι) : Prop := (∃ r, .did i .onSuccess r ∈ log) ∨ ∃ r, .did i .onFailure r ∈ log

/-- Past its admission, and its outcome not recorded. -/
structure Pending (log : Log ι E V) (i : ι) : Prop where
  passed : ¬ Found log i .opened
  found : ∃ state, state ≠ .opened ∧ Found log i state
  unrecorded : ¬ Recorded log i

def Known (log : Log ι E V) (i : ι) : Phase E V → Prop
  | .locking => ¬ Found log i .opened ∧ ¬ Started log i ∧ ¬ Recorded log i
  | .updating => ¬ Found log i .opened ∧ ¬ Started log i ∧ ¬ Recorded log i
  | .checking => ¬ Found log i .opened ∧ ¬ Started log i ∧ ¬ Recorded log i
  | .fallingFast => ¬ Started log i
  | .leaving (.ok (some _)) => ¬ Started log i
  | .leaving (.error _) => ¬ Started log i
  | .leaving (.ok none) => Pending log i
  | .starting => Pending log i
  | .running => Pending log i
  | .lockingOk _ => Pending log i
  | .recordingOk _ => Pending log i
  | .lockingErr _ => Pending log i
  | .recordingErr _ => Pending log i
  | .leavingOk r => ¬ Found log i .opened ∧ ∃ v, r = .ok v
  | .leavingErr _ r => ¬ Found log i .opened ∧ r = .ok ()
  | .fallingBack _ => ¬ Found log i .opened
  | .ended _ => Found log i .opened → ¬ Started log i

/-- A phase between the admission and the record. -/
def Phase.pending : Phase E V → Prop
  | .leaving (.ok none) => True
  | .starting => True
  | .running => True
  | .lockingOk _ => True
  | .recordingOk _ => True
  | .lockingErr _ => True
  | .recordingErr _ => True
  | _ => False

theorem Known.pending {log : Log ι E V} {i : ι} {p : Phase E V} (h : Known log i p) (hp : p.pending) :
    Pending log i := by
  cases p with
  | leaving r =>
    cases r with
    | ok a =>
      cases a with
      | none => exact h
      | some v => exact hp.elim
    | error x => exact hp.elim
  | starting => exact h
  | running => exact h
  | lockingOk v => exact h
  | recordingOk v => exact h
  | lockingErr x => exact h
  | recordingErr x => exact h
  | locking | updating | checking | fallingFast | leavingOk | leavingErr | fallingBack | ended => exact hp.elim

/-- A call that was turned away did not start `func`. -/
theorem Known.unstarted {log : Log ι E V} {i : ι} {p : Phase E V} (h : Known log i p) (hf : Found log i .opened) :
    ¬ Started log i := by
  cases p with
  | locking => exact h.2.1
  | updating => exact h.2.1
  | checking => exact h.2.1
  | fallingFast => exact h
  | leaving r =>
    cases r with
    | error x => exact h
    | ok a =>
      cases a with
      | none => exact absurd hf h.passed
      | some v => exact h
  | leavingOk r => exact absurd hf h.1
  | leavingErr x r => exact absurd hf h.1
  | fallingBack x => exact absurd hf h
  | ended r => exact h hf
  | starting | running | lockingOk | recordingOk | lockingErr | recordingErr => exact absurd hf h.passed

/-! ## Entries -/

theorem found_snoc {log : Log ι E V} {i j : ι} {c : Cmd} {r : Except (Exc E) (Ans V c)} {state : CircuitState}
    (h : j ≠ i ∨ c ≠ .state) : Found (log ++ [.did i c r]) j state ↔ Found log j state := by
  unfold Found
  rw [List.mem_append, List.mem_singleton]
  apply or_iff_left
  intro he
  cases he
  exact h.elim (fun h => h rfl) fun h => h rfl

theorem started_snoc {log : Log ι E V} {i j : ι} {c : Cmd} {r : Except (Exc E) (Ans V c)}
    (h : j ≠ i ∨ c ≠ .startFunc) : Started (log ++ [.did i c r]) j ↔ Started log j := by
  unfold Started
  apply exists_congr
  intro r
  rw [List.mem_append, List.mem_singleton]
  apply or_iff_left
  intro he
  cases he
  exact h.elim (fun h => h rfl) fun h => h rfl

theorem recorded_snoc {log : Log ι E V} {i j : ι} {c : Cmd} {r : Except (Exc E) (Ans V c)}
    (h : j ≠ i ∨ c ≠ .onSuccess ∧ c ≠ .onFailure) : Recorded (log ++ [.did i c r]) j ↔ Recorded log j := by
  unfold Recorded
  refine or_congr (exists_congr fun r => ?_) (exists_congr fun r => ?_) <;>
    rw [List.mem_append, List.mem_singleton] <;>
    refine or_iff_left fun he => ?_ <;>
    cases he
  · exact h.elim (fun h => h rfl) fun h => h.1 rfl
  · exact h.elim (fun h => h rfl) fun h => h.2 rfl

/-- A pending call stays pending over an entry that is no reading or record of its own. -/
theorem Pending.snoc {log : Log ι E V} {i j : ι} {c : Cmd} {r : Except (Exc E) (Ans V c)} (h : Pending log j)
    (hc : j ≠ i ∨ c ≠ .state ∧ c ≠ .onSuccess ∧ c ≠ .onFailure) : Pending (log ++ [.did i c r]) j where
  passed := by rw [found_snoc (hc.imp_right And.left)]; exact h.passed
  found := by
    obtain ⟨state, hs, hf⟩ := h.found
    exact ⟨state, hs, (found_snoc (hc.imp_right And.left)).mpr hf⟩
  unrecorded := by rw [recorded_snoc (hc.imp_right And.right)]; exact h.unrecorded

/-- Another call's step says nothing of a call. -/
theorem Known.other {log : Log ι E V} {i j : ι} {c : Cmd} {r : Except (Exc E) (Ans V c)} {p : Phase E V}
    (h : Known log j p) (hj : j ≠ i) : Known (log ++ [.did i c r]) j p := by
  have hp : Pending log j → Pending (log ++ [.did i c r]) j := fun h => h.snoc (.inl hj)
  unfold Known at h ⊢
  simp only [found_snoc (.inl hj), started_snoc (.inl hj), recorded_snoc (.inl hj)]
  split at h
  all_goals first | exact h | exact hp h

/-! ## Every step -/

/-- The flow chart of the calls. -/
def calls (cb : CircuitBreaker T) (fallback : ι → Bool) : Flow ι Cmd (Ans V) (Exc E) V (Phase E V) :=
  ⟨codeOf cb fallback, headOf cb fallback, unfolds cb fallback⟩

theorem calls_start [Sub T] [LE T] [DecidableLE T] (cb : CircuitBreaker T) (fallback : ι → Bool) (m : Mem ι T) :
    (calls cb fallback).threadsOf (⟨m, fun _ => .locking, []⟩ : St ι T E V) =
      start m fun i => call cb (fallback i) := rfl

theorem known_start (i : ι) : Known ([] : Log ι E V) i .locking := by
  simp [Known, Found, Started, Recorded]

theorem known_did [DecidableEq ι] {s : St ι T E V} (hk : ∀ j, Known s.log j (s.ph j)) {i : ι} {c : Cmd}
    {r : Except (Exc E) (Ans V c)} {m : Mem ι T}
    {p : Phase E V} (hp : Known (s.log ++ [.did i c r]) i p) :
    ∀ j, Known (s.did i c r m p).log j ((s.did i c r m p).ph j) :=
  (Phases.forall_did (Q := Known _)).mpr ⟨hp, fun j e => (hk j).other e⟩

/-- A call whose `try` body raised is pending still, or ended. -/
theorem known_caught {log : Log ι E V} {i : ι} (h : Pending log i) (x : Exc E) : Known log i (.caught x) := by
  unfold Phase.caught
  split
  · exact h
  · exact fun ho => absurd ho h.passed

theorem known_checked {cb : CircuitBreaker T} {log : Log ι E V} {i : ι} {state : CircuitState}
    (h : ¬ Found log i .opened ∧ ¬ Started log i ∧ ¬ Recorded log i) (hasFallback : Bool) :
    Known (log ++ [.did i .state (.ok state)]) i (.checked cb hasFallback state) := by
  have hstart : ¬ Started (log ++ [.did i .state (.ok state)]) i := by
    rw [started_snoc (.inr (by decide))]
    exact h.2.1
  unfold Phase.checked
  split
  · split <;> exact hstart
  · rename_i hs
    refine ⟨?_, ⟨state, hs, List.mem_append_right _ (List.mem_singleton.mpr rfl)⟩, ?_⟩
    · intro ho
      rcases List.mem_append.mp ho with ho | ho
      · exact h.1 ho
      · cases List.mem_singleton.mp ho
        exact hs rfl
    · rw [recorded_snoc (.inr (by decide))]
      exact h.2.2

variable [DecidableEq ι] [Sub T] [LE T] [DecidableLE T] {cb : CircuitBreaker T} {fallback : ι → Bool}
  {s s' : St ι T E V}

theorem known_step {e : Ev ι (Chance T E V) Empty} (hk : ∀ j, Known s.log j (s.ph j))
    (hs : ((calls cb fallback).phases (memory cb)).step s e = some s') : ∀ j, Known s'.log j (s'.ph j) := by
  cases e with
  | env e => exact nomatch e
  | run i x =>
    obtain ⟨c, k, rm, hh, hx, rfl⟩ := Flow.step_run _ hs
    have hi := hk i
    change headOf cb fallback i (s.ph i) = .goes c k at hh
    -- before the admission, and after it without having started, an entry that is no reading or start
    have hearly : ∀ {c : Cmd} {r : Except (Exc E) (Ans V c)},
        c ≠ .state ∧ c ≠ .startFunc ∧ c ≠ .onSuccess ∧ c ≠ .onFailure →
        (¬ Found s.log i .opened ∧ ¬ Started s.log i ∧ ¬ Recorded s.log i) →
        ¬ Found (s.log ++ [.did i c r]) i .opened ∧ ¬ Started (s.log ++ [.did i c r]) i ∧
          ¬ Recorded (s.log ++ [.did i c r]) i := fun hc h =>
      ⟨by rw [found_snoc (.inr hc.1)]; exact h.1, by rw [started_snoc (.inr hc.2.1)]; exact h.2.1,
        by rw [recorded_snoc (.inr hc.2.2)]; exact h.2.2⟩
    have hunstarted : ∀ {c : Cmd} {r : Except (Exc E) (Ans V c)}, c ≠ .startFunc → ¬ Started s.log i →
        ¬ Started (s.log ++ [.did i c r]) i := fun hc h => by rw [started_snoc (.inr hc)]; exact h
    have hunfound : ∀ {c : Cmd} {r : Except (Exc E) (Ans V c)}, c ≠ .state → ¬ Found s.log i .opened →
        ¬ Found (s.log ++ [.did i c r]) i .opened := fun hc h => by rw [found_snoc (.inr hc)]; exact h
    have hpend : ∀ {c : Cmd} {r : Except (Exc E) (Ans V c)}, c ≠ .state ∧ c ≠ .onSuccess ∧ c ≠ .onFailure →
        Pending s.log i → Pending (s.log ++ [.did i c r]) i := fun hc h => h.snoc (.inr hc)
    cases hp : s.ph i with
    | locking =>
      rw [hp] at hh hi; cases hh
      apply known_did hk
      have h := hearly (c := .lock) (r := rm.1) (by decide) hi
      cases hr : rm.1 with
      | ok a => rw [hr] at h; exact h
      | error y => rw [hr] at h; exact fun _ => h.2.1
    | updating =>
      rw [hp] at hh hi; cases hh; cases hx
      exact known_did hk (hearly (by decide) hi)
    | checking =>
      rw [hp] at hh hi; cases hh; cases hx
      exact known_did hk (known_checked hi _)
    | fallingFast =>
      rw [hp] at hh hi; cases hh
      apply known_did hk
      have h := hunstarted (c := .fallback) (r := rm.1) (by decide) hi
      cases hr : rm.1 <;> (rw [hr] at h; exact h)
    | leaving r =>
      rw [hp] at hh hi; cases hh; cases hx
      apply known_did hk
      cases r with
      | error y => exact fun _ => hunstarted (c := .unlock) (by decide) hi
      | ok a =>
        cases a with
        | some v => exact fun _ => hunstarted (c := .unlock) (by decide) hi
        | none => exact hpend (c := .unlock) (by decide) hi
    | starting =>
      rw [hp] at hh hi; cases hh; cases hx
      exact known_did hk (hpend (c := .startFunc) (by decide) hi)
    | running =>
      rw [hp] at hh hi; cases hh
      apply known_did hk
      have h := hpend (c := .awaitFunc) (r := rm.1) (by decide) hi
      cases hr : rm.1 with
      | ok v => rw [hr] at h; exact h
      | error y => rw [hr] at h; exact known_caught h y
    | lockingOk v =>
      rw [hp] at hh hi; cases hh
      apply known_did hk
      have h := hpend (c := .lock) (r := rm.1) (by decide) hi
      cases hr : rm.1 with
      | ok a => rw [hr] at h; exact h
      | error y => rw [hr] at h; exact known_caught h y
    | recordingOk v =>
      rw [hp] at hh hi; cases hh; cases hx
      exact known_did hk ⟨hunfound (c := .onSuccess) (by decide) hi.passed, v, rfl⟩
    | leavingOk r =>
      rw [hp] at hh hi; cases hh; cases hx
      obtain ⟨hf, v, rfl⟩ := hi
      exact known_did hk fun ho => absurd ho (hunfound (c := .unlock) (by decide) hf)
    | lockingErr y =>
      rw [hp] at hh hi; cases hh
      apply known_did hk
      have h := hpend (c := .lock) (r := rm.1) (by decide) hi
      cases hr : rm.1 with
      | ok a => rw [hr] at h; exact h
      | error z => rw [hr] at h; exact fun ho => absurd ho h.passed
    | recordingErr y =>
      rw [hp] at hh hi; cases hh; cases hx
      exact known_did hk ⟨hunfound (c := .onFailure) (by decide) hi.passed, rfl⟩
    | leavingErr y r =>
      rw [hp] at hh hi; cases hh; cases hx
      obtain ⟨hf, rfl⟩ := hi
      apply known_did hk
      have h := hunfound (c := .unlock) (r := .ok ()) (by decide) hf
      show Known _ i (if fallback i then .fallingBack y else .fail y)
      split
      · exact h
      · exact fun ho => absurd ho h
    | fallingBack y =>
      rw [hp] at hh hi; cases hh
      apply known_did hk
      have h := hunfound (c := .fallback) (r := rm.1) (by decide) hi
      cases hr : rm.1 <;> (rw [hr] at h; exact fun ho => absurd ho h)
    | ended r => rw [hp] at hh; cases hh

end Admission

end Playground.Breaker
