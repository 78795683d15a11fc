/-
  Playground.Limiter.Skew — scripts that run in another order than their stamps.

  `now_ms` is read on the node, so a call stamped earlier may run after one stamped
  later, which has already pruned what the earlier one still has to count.
  - `window_bound`: while no call runs after such a pruning, or after the key of a
    call near its own stamp may have run out, no window holds more than the limit.
  - `skewed_window_exceeds`: two stamps, a later one and a late one: three calls in a
    window with limit two.
-/

import Playground.Limiter.Window

namespace Playground.Limiter

open Playground.Lib Playground.Redis

section Skew

variable (py : IntText) (clientId : String) (limit : Int) (windowSeconds : Nat)

/-- The stamps are less than a window apart, so some window has both. -/
def Near (a b : Call) : Prop := a.nowMs < b.nowMs + windowSeconds * 1000 ∧ b.nowMs < a.nowMs + windowSeconds * 1000

instance (a b : Call) : Decidable (Near windowSeconds a b) := inferInstanceAs (Decidable (_ ∧ _))

/-- A call near `c` ran, and after it one stamped at least a window later. -/
def Overtaken (c : Call) : List Done → Prop
  | [] => False
  | d :: rest => Near windowSeconds d.call c ∧ (∃ d' ∈ rest, d.call.nowMs + windowSeconds * 1000 ≤ d'.call.nowMs) ∨
      Overtaken c rest

instance decidableOvertaken (c : Call) : (log : List Done) → Decidable (Overtaken windowSeconds c log)
  | [] => inferInstanceAs (Decidable False)
  | _ :: rest =>
    have := decidableOvertaken c rest
    inferInstanceAs (Decidable (_ ∨ _))

/-- A call runs in time: no call near it has been overtaken, or may have lost its key. -/
def Timely (s : St) : Ev → Prop
  | .check c => (∀ d ∈ s.log, d.call.uniqueMember py ≠ c.uniqueMember py) ∧ ¬ Overtaken windowSeconds c s.log ∧
      ∀ d ∈ s.log, Near windowSeconds d.call c → c.clock < d.call.clock + (windowSeconds + 1) * 1000
  | .lapse _ => True

instance (s : St) : (e : Ev) → Decidable (Timely py windowSeconds s e)
  | .check _ => inferInstanceAs (Decidable (_ ∧ _ ∧ _))
  | .lapse _ => inferInstanceAs (Decidable True)

variable {py clientId limit windowSeconds}

theorem Timely.newMember {s : St} {e : Ev} (h : Timely py windowSeconds s e) : NewMember py s e := by
  cases e with
  | check c => exact h.1
  | lapse clock => trivial

theorem overtaken_of_split {c : Call} {before after : List Done} {d d' : Done} (hn : Near windowSeconds d.call c)
    (hd' : d' ∈ after) (hw : d.call.nowMs + windowSeconds * 1000 ≤ d'.call.nowMs) :
    Overtaken windowSeconds c (before ++ d :: after) := by
  induction before with
  | nil => exact .inl ⟨hn, d', hd', hw⟩
  | cons x before ih => exact .inr ih

/-- A timely call still finds every allowed call near it. -/
theorem Inv.near_kept {s : St} (hi : Inv py clientId windowSeconds s) {c : Call}
    (ht : Timely py windowSeconds s (.check c)) (hclock : s.clock ≤ c.clock) {d : Done} (hd : d ∈ s.log)
    (ha : d.allowed = true) (hn : Near windowSeconds d.call c) :
    d.call.entry py ∈ pruned clientId windowSeconds s.redis c.nowMs := by
  obtain ⟨-, hover, hlive⟩ := ht
  obtain ⟨before, after, hlog⟩ := List.append_of_mem hd
  rcases hi.kept_pruned c.nowMs hlog ha with h | h | ⟨d', hd', h⟩ | h
  · exact h
  · have := hn.2
    omega
  · rw [hlog] at hover
    exact absurd (overtaken_of_split hn hd' h) hover
  · have := hlive d hd hn
    omega

theorem allowedStamps_snoc (log : List Done) (d : Done) :
    allowedStamps (log ++ [d]) = allowedStamps log ++ if d.allowed then [(d.call.nowMs : Int)] else [] := by
  unfold allowedStamps
  rw [List.filter_append, List.map_append]
  cases h : d.allowed <;> simp [h]

/-- The calls of one window that were allowed before an allowed call of it are fewer
    than the limit. -/
theorem Inv.below_limit {s : St} (hi : Inv py clientId windowSeconds s) {c : Call}
    (ht : Timely py windowSeconds s (.check c)) (hclock : s.clock ≤ c.clock)
    (ha : (checkRateLimit py clientId limit windowSeconds s.redis c).1.1 = true) {t : Int}
    (hc : Window.covers (windowSeconds * 1000) t c.nowMs = true) :
    (Window.held (windowSeconds * 1000) (allowedStamps s.log) t : Int) < limit := by
  rw [check_answer] at ha
  split at ha
  · rename_i hlt
    have hcov := Window.covers_iff.mp hc
    have hle := hi.count_le c.nowMs
      (Q := fun d => d.allowed && Window.covers (windowSeconds * 1000) t d.call.nowMs) fun d hd hq => by
        rw [Bool.and_eq_true, Window.covers_iff] at hq
        exact hi.near_kept ht hclock hd hq.1 ⟨by omega, by omega⟩
    rw [held_stamps]
    omega
  · cases ha

/-- The invariant, and what it bounds. -/
theorem inv_bound {clock₀ : Int} {s : St}
    (h : (limiter py clientId limit windowSeconds).Reach (Timely py windowSeconds) (fresh clock₀) s) :
    Inv py clientId windowSeconds s ∧
      ∀ t, (Window.held (windowSeconds * 1000) (allowedStamps s.log) t : Int) ≤ max limit 0 := by
  refine h.invariant (P := fun s => Inv py clientId windowSeconds s ∧
    ∀ t, (Window.held (windowSeconds * 1000) (allowedStamps s.log) t : Int) ≤ max limit 0)
    ⟨inv_fresh clock₀, fun t => Int.le_max_right _ _⟩ ?_
  intro s e s' ⟨hi, hb⟩ hok hs
  refine ⟨hi.step hok.newMember hs, ?_⟩
  intro t
  cases e with
  | check c =>
    simp only [limiter, Option.ite_none_right_eq_some, Option.some.injEq] at hs
    obtain ⟨hclock, rfl⟩ := hs
    simp only [allowedStamps_snoc]
    split
    · rename_i ha
      rw [Window.held, List.countP_append, ← Window.held]
      cases hc : Window.covers (windowSeconds * 1000) t c.nowMs with
      | true =>
        have := hi.below_limit hok hclock ha hc
        simp only [List.countP_cons, List.countP_nil, hc, if_true]
        omega
      | false => simpa [hc] using hb t
    · simpa using hb t
  | lapse clock =>
    simp only [limiter, Option.ite_none_right_eq_some, Option.map_eq_some_iff] at hs
    obtain ⟨-, r, -, rfl⟩ := hs
    exact hb t

/-- In every run whose calls are timely no half-open window holds more allowed calls
    than the limit. -/
theorem window_bound {clock₀ : Int} {s : St}
    (h : (limiter py clientId limit windowSeconds).Reach (Timely py windowSeconds) (fresh clock₀) s) (t : Int) :
    (Window.held (windowSeconds * 1000) (allowedStamps s.log) t : Int) ≤ max limit 0 :=
  (inv_bound h).2 t

end Skew

/-! ## A late call -/

/-- The call stamped 1500 runs after the one stamped 2500. -/
def skewedCalls : List Ev :=
  [.check ⟨1000, 1000, "a"⟩, .check ⟨1001, 1001, "b"⟩, .check ⟨2500, 2500, "c"⟩, .check ⟨2501, 1500, "d"⟩]

def skewed : St := ((limiter IntText.decimal "u" 2 1).runIf (NewMember IntText.decimal) (fresh 0) skewedCalls).get rfl

/-- With distinct members and Redis's clock always on time, three of its calls are in
    `(501, 1501]`, where the limit is 2. -/
theorem skewed_window_exceeds :
    (limiter IntText.decimal "u" 2 1).Reach (NewMember IntText.decimal) (fresh 0) skewed ∧
      Window.held 1000 (allowedStamps skewed.log) 1501 = 3 :=
  ⟨Machine.reach_of_runIf skewedCalls (Option.some_get _).symm, rfl⟩

/-- The same calls, but for the late one, which is on time. -/
def timelyCalls : List Ev :=
  [.check ⟨1000, 1000, "a"⟩, .check ⟨1001, 1001, "b"⟩, .check ⟨1501, 1500, "d"⟩, .check ⟨2500, 2500, "c"⟩]

def timely : St := ((limiter IntText.decimal "u" 2 1).runIf (Timely IntText.decimal 1) (fresh 0) timelyCalls).get rfl

theorem timely_window_bound : (Window.held (1 * 1000) (allowedStamps timely.log) 1501 : Int) ≤ max 2 0 :=
  have h : (limiter IntText.decimal "u" 2 1).Reach (Timely IntText.decimal 1) (fresh 0) timely :=
    Machine.reach_of_runIf timelyCalls (Option.some_get _).symm
  window_bound h 1501

end Playground.Limiter
