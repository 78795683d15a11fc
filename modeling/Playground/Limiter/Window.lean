/-
  Playground.Limiter.Window — the window over the whole history, and what of it the
  sorted set still holds.

  `Window.decide` is the limiter's purpose: count the calls allowed so far whose stamp
  is in `(now - W, now]`. The set is that history, pruned by every call and lost with
  its key. `Inv` says what is left: an allowed call is in the set, or some later call
  was stamped a window or more after it, or Redis's clock has moved on by more than a
  window since (`Inv.kept`).
-/

import Playground.Limiter.RateLimiter

namespace Playground.Limiter

open Playground.Lib Playground.Redis

namespace Window

/-- `x` is in `(t - W, t]`. -/
def covers (W t x : Int) : Bool := t - W < x && x ≤ t

/-- How many of `past` are in `(t - W, t]`. -/
def held (W : Int) (past : List Int) (t : Int) : Nat := past.countP (covers W t)

/-- A call at `now` after the allowed calls `past`: whether it is allowed, and how many
    more there could be. -/
def decide (limit W : Int) (past : List Int) (now : Int) : Bool × Int :=
  if (held W past now : Int) < limit then (true, limit - held W past now - 1) else (false, 0)

theorem covers_iff {W t x : Int} : covers W t x = true ↔ t - W < x ∧ x ≤ t := by simp [covers]

end Window

/-- The stamps of the calls that were allowed. -/
def allowedStamps (log : List Done) : List Int := (log.filter (·.allowed)).map fun d => (d.call.nowMs : Int)

theorem held_stamps (W : Int) (log : List Done) (t : Int) :
    Window.held W (allowedStamps log) t =
      (log.filter fun d => d.allowed && Window.covers W t d.call.nowMs).length := by
  rw [Window.held, allowedStamps, List.countP_map, List.countP_filter, ← List.countP_eq_length_filter]
  exact List.countP_congr fun d _ => by simp [and_comm]

section Inv

variable (py : IntText) (clientId : String) (limit : Int) (windowSeconds : Nat)

/-- The member and score that a call adds. -/
def Call.entry (c : Call) : String × Int := (c.uniqueMember py, c.nowMs)

structure Inv (s : St) : Prop where
  members : (s.log.map fun d => d.call.uniqueMember py).Nodup
  ticks : ∀ d ∈ s.log, d.call.clock ≤ s.clock
  listed : ∀ e ∈ s.entries clientId, ∃ d ∈ s.log, d.allowed = true ∧ e = d.call.entry py
  /-- The key's time to live outlasts every allowed call by a window and a second. -/
  deadline : ∀ z expireAt, s.redis (keyOf clientId) = some ⟨z, some expireAt⟩ →
    ∀ d ∈ s.log, d.allowed = true → d.call.clock + (windowSeconds + 1) * 1000 ≤ expireAt
  kept : ∀ before d after, s.log = before ++ d :: after → d.allowed = true →
    d.call.entry py ∈ s.entries clientId ∨ (∃ d' ∈ after, d.call.nowMs + windowSeconds * 1000 ≤ d'.call.nowMs) ∨
      d.call.clock + (windowSeconds + 1) * 1000 ≤ s.clock

/-- No two calls have the same member. -/
def NewMember (s : St) : Ev → Prop
  | .check c => ∀ d ∈ s.log, d.call.uniqueMember py ≠ c.uniqueMember py
  | .lapse _ => True

instance (s : St) : (e : Ev) → Decidable (NewMember py s e)
  | .check _ => inferInstanceAs (Decidable (∀ d ∈ _, _))
  | .lapse _ => inferInstanceAs (Decidable True)

variable {py clientId limit windowSeconds}

theorem inv_fresh (clock : Int) : Inv py clientId windowSeconds (fresh clock) where
  members := List.nodup_nil
  ticks _ h := nomatch h
  listed _ h := nomatch h
  deadline _ _ h := nomatch h
  kept before _ _ h := absurd h (by simp [fresh])

variable {s s' : St}

theorem mem_pruned {e : String × Int} {now : Nat} (h0 : 0 ≤ e.2) :
    e ∈ pruned clientId windowSeconds s.redis now ↔ e ∈ s.entries clientId ∧ now - windowSeconds * 1000 < e.2 := by
  rw [pruned, ZSet.mem_remRange]
  exact and_congr_right fun _ => by omega

/-- What a call leaves of an allowed call's entry, or why it does not. -/
theorem Inv.kept_pruned (hi : Inv py clientId windowSeconds s) {before after : List Done} {d : Done} (now : Nat)
    (hlog : s.log = before ++ d :: after) (ha : d.allowed = true) :
    d.call.entry py ∈ pruned clientId windowSeconds s.redis now ∨ d.call.nowMs + windowSeconds * 1000 ≤ now ∨
      (∃ d' ∈ after, d.call.nowMs + windowSeconds * 1000 ≤ d'.call.nowMs) ∨
      d.call.clock + (windowSeconds + 1) * 1000 ≤ s.clock := by
  rcases hi.kept before d after hlog ha with h | h | h
  · by_cases hnow : d.call.nowMs + windowSeconds * 1000 ≤ now
    · exact .inr (.inl hnow)
    · refine .inl ((mem_pruned (Int.natCast_nonneg _)).mpr ⟨h, ?_⟩)
      show (now : Int) - windowSeconds * 1000 < d.call.nowMs
      omega
  · exact .inr (.inr (.inl h))
  · exact .inr (.inr (.inr h))

/-- The same, once that call is in the log. -/
theorem Inv.kept_past (hi : Inv py clientId windowSeconds s) (new : Done) {clock : Int} (hclock : s.clock ≤ clock)
    {entries : List (String × Int)}
    (hleft : ∀ e ∈ pruned clientId windowSeconds s.redis new.call.nowMs, e ∈ entries) {before rest : List Done}
    {d : Done} (hlog : s.log = before ++ d :: rest) (ha : d.allowed = true) :
    d.call.entry py ∈ entries ∨ (∃ d' ∈ rest ++ [new], d.call.nowMs + windowSeconds * 1000 ≤ d'.call.nowMs) ∨
      d.call.clock + (windowSeconds + 1) * 1000 ≤ clock := by
  rcases hi.kept_pruned new.call.nowMs hlog ha with h | h | ⟨d', hd', h⟩ | h
  · exact .inl (hleft _ h)
  · exact .inr (.inl ⟨new, List.mem_append_right _ (List.mem_singleton.mpr rfl), h⟩)
  · exact .inr (.inl ⟨d', List.mem_append_left _ hd', h⟩)
  · exact .inr (.inr (Int.le_trans h hclock))

/-- What pruning leaves is an allowed call's. -/
theorem Inv.listed_pruned (hi : Inv py clientId windowSeconds s) {now : Nat} {e : String × Int}
    (he : e ∈ pruned clientId windowSeconds s.redis now) : ∃ d ∈ s.log, d.allowed = true ∧ e = d.call.entry py :=
  hi.listed e (ZSet.mem_remRange.mp he).1

theorem Inv.check (hi : Inv py clientId windowSeconds s) {c : Call} (hclock : s.clock ≤ c.clock)
    (hnew : ∀ d ∈ s.log, d.call.uniqueMember py ≠ c.uniqueMember py)
    {r : (Bool × Int) × SortedSets String} (hr : checkRateLimit py clientId limit windowSeconds s.redis c = r) :
    Inv py clientId windowSeconds ⟨r.2, c.clock, s.log ++ [⟨c, r.1.1, r.1.2⟩]⟩ := by
  have hmembers : ((s.log ++ [(⟨c, r.1.1, r.1.2⟩ : Done)]).map fun d => d.call.uniqueMember py).Nodup := by
    rw [List.map_append, List.nodup_append]
    refine ⟨hi.members, by simp, ?_⟩
    intro a ha b hb
    obtain ⟨d, hd, rfl⟩ := List.mem_map.mp ha
    rw [List.mem_singleton.mp hb]
    exact hnew d hd
  have hticks : ∀ d ∈ s.log ++ [(⟨c, r.1.1, r.1.2⟩ : Done)], d.call.clock ≤ c.clock := by
    intro d hd
    rcases List.mem_append.mp hd with hd | hd
    · have := hi.ticks d hd
      omega
    · cases List.mem_singleton.mp hd
      exact Int.le_refl _
  have hnewEntry : ∀ e ∈ s.entries clientId, e.1 ≠ c.uniqueMember py := by
    intro e he
    obtain ⟨d, hd, -, rfl⟩ := hi.listed e he
    exact hnew d hd
  cases hallowed : r.1.1 with
  | true =>
    have hdo := check_allowed py clientId limit windowSeconds s.redis c (by rw [hr]; exact hallowed) hnewEntry
    rw [hr] at hdo
    obtain ⟨hentries, z, hz⟩ := hdo
    refine ⟨by simpa [hallowed] using hmembers, by simpa [hallowed] using hticks, ?_, ?_, ?_⟩
    · intro e he
      rcases (hentries e).mp he with he | rfl
      · obtain ⟨d, hd, h⟩ := hi.listed_pruned he
        exact ⟨d, List.mem_append_left _ hd, h⟩
      · exact ⟨_, List.mem_append_right _ (List.mem_singleton.mpr rfl), rfl, rfl⟩
    · intro z' at' hat d hd _
      change r.2 (keyOf clientId) = _ at hat
      rw [hz] at hat
      cases hat
      have := hticks d (by simpa [hallowed] using hd)
      omega
    · intro before d after hlog ha
      rcases split_snoc hlog with ⟨rest, rfl, hold⟩ | ⟨rfl, rfl, -⟩
      · exact hi.kept_past ⟨c, true, r.1.2⟩ hclock (fun e he => (hentries e).mpr (.inl he)) hold ha
      · exact .inl ((hentries _).mpr (.inr rfl))
  | false =>
    have hdo := check_rejected py clientId limit windowSeconds s.redis c (by rw [hr]; exact hallowed)
    rw [hr] at hdo
    have hentries : ∀ e, e ∈ (r.2.zset (keyOf clientId)).entries ↔
        e ∈ pruned clientId windowSeconds s.redis c.nowMs := by
      intro e
      rw [hdo, SortedSets.zset_zremrangebyscore]
      rfl
    refine ⟨by simpa [hallowed] using hmembers, by simpa [hallowed] using hticks, ?_, ?_, ?_⟩
    · intro e he
      obtain ⟨d, hd, h⟩ := hi.listed_pruned ((hentries e).mp he)
      exact ⟨d, List.mem_append_left _ hd, h⟩
    · intro z' at' hat d hd ha
      change r.2 (keyOf clientId) = _ at hat
      rw [hdo] at hat
      obtain ⟨⟨z, exp⟩, hz, rfl⟩ := SortedSets.expireAt_zremrangebyscore hat
      rcases List.mem_append.mp hd with hd | hd
      · exact hi.deadline z at' hz d hd ha
      · rw [List.mem_singleton.mp hd] at ha
        cases ha
    · intro before d after hlog ha
      rcases split_snoc hlog with ⟨rest, rfl, hold⟩ | ⟨rfl, rfl, -⟩
      · exact hi.kept_past ⟨c, false, r.1.2⟩ hclock (fun e he => (hentries e).mpr he) hold ha
      · cases ha

/-- When the key is gone, every allowed call is more than a window old. -/
theorem Inv.lapse (hi : Inv py clientId windowSeconds s) {clock : Int} (hclock : s.clock ≤ clock)
    {r : SortedSets String} (hr : s.redis.lapse clock (keyOf clientId) = some r) :
    (∀ d ∈ s.log, d.allowed = true → d.call.clock + (windowSeconds + 1) * 1000 ≤ clock) ∧
      Inv py clientId windowSeconds ⟨r, clock, s.log⟩ := by
  obtain ⟨⟨⟨z, exp⟩, expireAt, hz, rfl, hle⟩, hgone⟩ := SortedSets.lapse_some hr
  have hold : ∀ d ∈ s.log, d.allowed = true → d.call.clock + (windowSeconds + 1) * 1000 ≤ clock := by
    intro d hd ha
    have := hi.deadline z expireAt hz d hd ha
    omega
  refine ⟨hold, hi.members, fun d hd => Int.le_trans (hi.ticks d hd) hclock, ?_, ?_, fun before d after hlog ha =>
    .inr (.inr (hold d (by simp [show s.log = _ from hlog]) ha))⟩
  · intro e he
    simp [St.entries, SortedSets.zset, hgone, ZSet.empty] at he
  · intro z' at' hat
    cases hgone.symm.trans hat

theorem Inv.step (hi : Inv py clientId windowSeconds s) {e : Ev} (hok : NewMember py s e)
    (hs : (limiter py clientId limit windowSeconds).step s e = some s') : Inv py clientId windowSeconds s' := by
  cases e with
  | check c =>
    simp only [limiter, Option.ite_none_right_eq_some, Option.some.injEq] at hs
    obtain ⟨hclock, rfl⟩ := hs
    exact hi.check hclock hok rfl
  | lapse clock =>
    simp only [limiter, Option.ite_none_right_eq_some, Option.map_eq_some_iff] at hs
    obtain ⟨hclock, r, hr, rfl⟩ := hs
    exact (hi.lapse hclock hr).2

/-! ## Counting -/

/-- A call that no entry is missing from counts no less than `Q`. -/
theorem Inv.count_le (hi : Inv py clientId windowSeconds s) (now : Nat) {Q : Done → Bool}
    (hQ : ∀ d ∈ s.log, Q d = true → d.call.entry py ∈ pruned clientId windowSeconds s.redis now) :
    (s.log.filter Q).length ≤ (pruned clientId windowSeconds s.redis now).length := by
  have hnd : ((s.log.filter Q).map fun d => d.call.uniqueMember py).Nodup :=
    hi.members.sublist (List.filter_sublist.map _)
  have hsub : (s.log.filter Q).map (fun d => d.call.uniqueMember py) ⊆
      (pruned clientId windowSeconds s.redis now).map Prod.fst := by
    intro m hm
    obtain ⟨d, hd, rfl⟩ := List.mem_map.mp hm
    obtain ⟨hd, hq⟩ := List.mem_filter.mp hd
    exact List.mem_map.mpr ⟨_, hQ d hd hq, rfl⟩
  simpa using List.Nodup.length_le_of_subset hnd hsub

/-- And no more, when its entries are all of `Q`. -/
theorem le_count (py : IntText) {now : Nat} {Q : Done → Bool}
    (hQ : ∀ e ∈ pruned clientId windowSeconds s.redis now, ∃ d ∈ s.log, Q d = true ∧ e = d.call.entry py) :
    (pruned clientId windowSeconds s.redis now).length ≤ (s.log.filter Q).length := by
  have hnd : ((pruned clientId windowSeconds s.redis now).map Prod.fst).Nodup :=
    ((s.redis.zset (keyOf clientId)).remRange 0 (now - windowSeconds * 1000)).nodup
  have hsub : (pruned clientId windowSeconds s.redis now).map Prod.fst ⊆
      (s.log.filter Q).map fun d => d.call.uniqueMember py := by
    intro m hm
    obtain ⟨e, he, rfl⟩ := List.mem_map.mp hm
    obtain ⟨d, hd, hq, rfl⟩ := hQ e he
    exact List.mem_map.mpr ⟨d, List.mem_filter.mpr ⟨hd, hq⟩, rfl⟩
  simpa using List.Nodup.length_le_of_subset hnd hsub

end Inv

end Playground.Limiter
