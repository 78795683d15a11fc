/-
  Playground.Limiter.Exact — calls in the order of their stamps: the limiter is the
  window over the whole history.

  Redis's clock is the nodes' clock, read when the script runs, at most a second after
  `now_ms`. Pruning then drops only what no later call counts, and so does the key's
  expiry, which comes a second after the window (`lapse_harmless`).
-/

import Playground.Limiter.Skew

namespace Playground.Limiter

open Playground.Lib Playground.Redis

section Exact

variable (py : IntText) (clientId : String) (limit : Int) (windowSeconds : Nat)

/-- Distinct members, stamps in the order of the calls, and Redis's clock at the call's
    stamp or at most 1000 ms past it when the script runs. -/
def InOrder (s : St) : Ev → Prop
  | .check c => (∀ d ∈ s.log, d.call.uniqueMember py ≠ c.uniqueMember py) ∧ (∀ d ∈ s.log, d.call.nowMs ≤ c.nowMs) ∧
      c.nowMs ≤ c.clock ∧ c.clock ≤ c.nowMs + 1000
  | .lapse _ => True

instance (s : St) : (e : Ev) → Decidable (InOrder py s e)
  | .check _ => inferInstanceAs (Decidable ((∀ d ∈ _, _) ∧ (∀ d ∈ _, _) ∧ _ ∧ _))
  | .lapse _ => inferInstanceAs (Decidable True)

/-- What the log says when the calls come in order. -/
structure Exact (s : St) : Prop where
  inv : Inv py clientId windowSeconds s
  clocks : ∀ d ∈ s.log, d.call.nowMs ≤ d.call.clock
  decided : ∀ before d after, s.log = before ++ d :: after →
    (d.allowed, d.remaining) = Window.decide limit (windowSeconds * 1000) (allowedStamps before) d.call.nowMs

variable {py clientId limit windowSeconds} {s s' : St}

/-- The set that a call prunes to is the window of the history. -/
theorem Inv.count_eq (hi : Inv py clientId windowSeconds s) (hclocks : ∀ d ∈ s.log, (d.call.nowMs : Int) ≤ d.call.clock)
    {c : Call} (ho : InOrder py s (.check c)) (hclock : s.clock ≤ c.clock) :
    (pruned clientId windowSeconds s.redis c.nowMs).length =
      Window.held (windowSeconds * 1000) (allowedStamps s.log) c.nowMs := by
  obtain ⟨-, hle, -, hlag⟩ := ho
  rw [held_stamps]
  refine Nat.le_antisymm (le_count py fun e he => ?_) (hi.count_le _ fun d hd hq => ?_)
  · obtain ⟨d, hd, ha, rfl⟩ := hi.listed_pruned he
    have hscore := ((mem_pruned (Int.natCast_nonneg _)).mp he).2
    have := hle d hd
    refine ⟨d, hd, ?_, rfl⟩
    rw [ha, Bool.true_and, Window.covers_iff]
    change (c.nowMs : Int) - windowSeconds * 1000 < d.call.nowMs at hscore
    exact ⟨hscore, by omega⟩
  · rw [Bool.and_eq_true, Window.covers_iff] at hq
    obtain ⟨ha, hlo, -⟩ := hq
    obtain ⟨before, after, hlog⟩ := List.append_of_mem hd
    rcases hi.kept_pruned c.nowMs hlog ha with h | h | ⟨d', hd', h⟩ | h
    · exact h
    · omega
    · have := hle d' (by rw [hlog]; simp [hd'])
      omega
    · have := hclocks d hd
      omega

theorem Exact.step (hx : Exact py clientId limit windowSeconds s) {e : Ev} (ho : InOrder py s e)
    (hs : (limiter py clientId limit windowSeconds).step s e = some s') : Exact py clientId limit windowSeconds s' := by
  cases e with
  | check c =>
    have hinv := hx.inv.step (e := .check c) ho.1 hs
    simp only [limiter, Option.ite_none_right_eq_some, Option.some.injEq] at hs
    obtain ⟨hclock, rfl⟩ := hs
    refine ⟨hinv, ?_, ?_⟩
    · intro d hd
      rcases List.mem_append.mp hd with hd | hd
      · exact hx.clocks d hd
      · cases List.mem_singleton.mp hd
        exact ho.2.2.1
    · intro before d after hlog
      rcases split_snoc hlog with ⟨rest, rfl, hold⟩ | ⟨rfl, rfl, rfl⟩
      · exact hx.decided before d rest hold
      · show (checkRateLimit py clientId limit windowSeconds s.redis c).1 = _
        rw [check_answer, hx.inv.count_eq hx.clocks ho hclock]
        rfl
  | lapse clock =>
    have hinv := hx.inv.step (e := .lapse clock) trivial hs
    simp only [limiter, Option.ite_none_right_eq_some, Option.map_eq_some_iff] at hs
    obtain ⟨-, r, -, rfl⟩ := hs
    exact ⟨hinv, hx.clocks, hx.decided⟩

theorem exact_fresh (clock : Int) : Exact py clientId limit windowSeconds (fresh clock) where
  inv := inv_fresh clock
  clocks _ h := nomatch h
  decided before _ _ h := absurd h (by simp [fresh])

theorem exact_of_reach {clock₀ : Int}
    (h : (limiter py clientId limit windowSeconds).Reach (InOrder py) (fresh clock₀) s) :
    Exact py clientId limit windowSeconds s :=
  h.invariant (exact_fresh clock₀) fun _ _ _ hx ho hs => hx.step ho hs

/-- Calls in order are timely. -/
theorem InOrder.timely (hx : Exact py clientId limit windowSeconds s) {e : Ev} (ho : InOrder py s e) :
    Timely py windowSeconds s e := by
  cases e with
  | lapse clock => trivial
  | check c =>
    obtain ⟨hnew, hle, -, hlag⟩ := ho
    refine ⟨hnew, ?_, ?_⟩
    · have hover : ∀ log : List Done, (∀ d ∈ log, d.call.nowMs ≤ c.nowMs) → ¬ Overtaken windowSeconds c log := by
        intro log
        induction log with
        | nil => exact fun _ h => h
        | cons d rest ih =>
          rintro hle (⟨hn, d', hd', hw⟩ | h)
          · have := hle d' (List.mem_cons_of_mem _ hd')
            have := hn.2
            omega
          · exact ih (fun d hd => hle d (List.mem_cons_of_mem _ hd)) h
      exact hover s.log hle
    · intro d hd hn
      have := hx.clocks d hd
      have := hn.2
      omega

/-- A call in order after the key was gone counts none of the calls before. -/
theorem Exact.lapse_harmless (hx : Exact py clientId limit windowSeconds s) {clock : Int}
    (hs : (limiter py clientId limit windowSeconds).step s (.lapse clock) = some s') {d : Done} (hd : d ∈ s.log)
    (ha : d.allowed = true) {c : Call} (hclock : s'.clock ≤ c.clock) (hlag : c.clock ≤ c.nowMs + 1000) :
    Window.covers (windowSeconds * 1000) c.nowMs d.call.nowMs = false := by
  simp only [limiter, Option.ite_none_right_eq_some, Option.map_eq_some_iff] at hs
  obtain ⟨hle, r, hr, rfl⟩ := hs
  have h1 := (hx.inv.lapse hle hr).1 d hd ha
  have h2 := hx.clocks d hd
  rw [Bool.eq_false_iff, Ne, Window.covers_iff]
  change clock ≤ c.clock at hclock
  omega

/-- Every call is answered by the window of the calls allowed before it, a rejected call
    changes no later answer, no window holds more than the limit, and the key's expiry
    loses nothing that counts. -/
theorem sliding_window_exact {clock₀ : Int}
    (h : (limiter py clientId limit windowSeconds).Reach (InOrder py) (fresh clock₀) s) :
    (∀ before d after, s.log = before ++ d :: after →
      (d.allowed, d.remaining) =
        Window.decide limit (windowSeconds * 1000) (allowedStamps before) d.call.nowMs) ∧
      (∀ before r mid d after, s.log = before ++ r :: (mid ++ d :: after) → r.allowed = false →
        (d.allowed, d.remaining) =
          Window.decide limit (windowSeconds * 1000) (allowedStamps (before ++ mid)) d.call.nowMs) ∧
      (∀ t, (Window.held (windowSeconds * 1000) (allowedStamps s.log) t : Int) ≤ max limit 0) ∧
      (∀ clock s', (limiter py clientId limit windowSeconds).step s (.lapse clock) = some s' →
        ∀ d ∈ s.log, d.allowed = true → ∀ c : Call, s'.clock ≤ c.clock → c.clock ≤ c.nowMs + 1000 →
          Window.covers (windowSeconds * 1000) c.nowMs d.call.nowMs = false) := by
  have hx := exact_of_reach h
  refine ⟨hx.decided, ?_, ?_, ?_⟩
  · intro before r mid d after hlog hr
    have hd := hx.decided (before ++ r :: mid) d after (by rw [hlog]; simp)
    have hsame : allowedStamps (before ++ r :: mid) = allowedStamps (before ++ mid) := by
      simp [allowedStamps, hr]
    rwa [hsame] at hd
  · intro t
    exact (inv_bound (h.mono_of fun s e hs ho => ho.timely (exact_of_reach hs))).2 t
  · intro clock s' hs d hd ha c
    exact hx.lapse_harmless hs hd ha

end Exact

/-! ## Two calls a second -/

/-- The key is gone after the third call, and nothing of it is missed. -/
def orderlyCalls : List Ev :=
  [.check ⟨1000, 1000, "a"⟩, .check ⟨1000, 1000, "b"⟩, .check ⟨1999, 1999, "c"⟩, .lapse 3000, .check ⟨3000, 3000, "d"⟩]

def orderly : St := ((limiter IntText.decimal "u" 2 1).runIf (InOrder IntText.decimal) (fresh 0) orderlyCalls).get rfl

theorem orderly_exact : orderly.log.map (fun d => (d.allowed, d.remaining)) =
      [(true, 1), (true, 0), (false, 0), (true, 1)] ∧
    ∀ before d after, orderly.log = before ++ d :: after →
      (d.allowed, d.remaining) = Window.decide 2 ((1 : Nat) * 1000) (allowedStamps before) d.call.nowMs :=
  have h : (limiter IntText.decimal "u" 2 1).Reach (InOrder IntText.decimal) (fresh 0) orderly :=
    Machine.reach_of_runIf orderlyCalls (Option.some_get _).symm
  ⟨rfl, (sliding_window_exact h).1⟩

end Playground.Limiter
