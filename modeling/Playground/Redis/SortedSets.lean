/-
  Playground.Redis.SortedSets — sorted-set keys of one Redis database:
  `ZREMRANGEBYSCORE`, `ZCARD`, `ZADD`, `EXPIRE`, and the key's expiry.

  A set names each member once. A key whose set has become empty is gone, with its
  time to live; `ZADD` makes a key without one. Redis's clock, in milliseconds, is an
  argument of what reads it.
-/

import Mathlib.Data.List.Nodup
import Mathlib.Logic.Function.Basic

namespace Playground.Redis

structure ZSet where
  entries : List (String × Int)
  nodup : (entries.map Prod.fst).Nodup

namespace ZSet

def card (z : ZSet) : Nat := z.entries.length

/-- Without the members whose score is from `lo` to `hi`, both inclusive. -/
def remRange (z : ZSet) (lo hi : Int) : ZSet where
  entries := z.entries.filter fun e => !(lo ≤ e.2 && e.2 ≤ hi)
  nodup := z.nodup.sublist (List.filter_sublist.map _)

/-- With `member` at `score`, whether it was there before or not. -/
def add (z : ZSet) (score : Int) (member : String) : ZSet where
  entries := z.entries.filter (fun e => e.1 ≠ member) ++ [(member, score)]
  nodup := by
    rw [List.map_append, List.nodup_append]
    refine ⟨z.nodup.sublist (List.filter_sublist.map _), by simp, ?_⟩
    intro a ha b hb
    obtain ⟨e, he, rfl⟩ := List.mem_map.mp ha
    simpa [List.mem_singleton.mp hb] using (List.mem_filter.mp he).2

def empty : ZSet := ⟨[], List.nodup_nil⟩

theorem card_remRange (z : ZSet) (lo hi : Int) : (z.remRange lo hi).card ≤ z.card := List.length_filter_le ..

theorem card_add (z : ZSet) (score : Int) (member : String) : (z.add score member).card ≤ z.card + 1 := by
  simp only [card, add, List.length_append, List.length_singleton]
  exact Nat.add_le_add_right (List.length_filter_le ..) 1

theorem mem_remRange {z : ZSet} {lo hi : Int} {e : String × Int} :
    e ∈ (z.remRange lo hi).entries ↔ e ∈ z.entries ∧ ¬ (lo ≤ e.2 ∧ e.2 ≤ hi) := by
  simp only [remRange, List.mem_filter, Bool.not_eq_true', Bool.and_eq_false_iff, decide_eq_false_iff_not]
  exact and_congr_right fun _ => by omega

theorem mem_add_new {z : ZSet} (score : Int) {member : String} (h : ∀ e ∈ z.entries, e.1 ≠ member)
    {e : String × Int} : e ∈ (z.add score member).entries ↔ e ∈ z.entries ∨ e = (member, score) := by
  simp only [add, List.mem_append, List.mem_filter, List.mem_singleton, decide_eq_true_eq]
  exact or_congr_left ⟨fun h => h.1, fun he => ⟨he, h e he⟩⟩

end ZSet

structure ZCell where
  zset : ZSet
  /-- When Redis's clock reaches it the key is gone; `none` for no time to live. -/
  expireAt : Option Int

abbrev SortedSets (κ : Type) := κ → Option ZCell

namespace SortedSets

variable {κ : Type} [DecidableEq κ]

def zset (s : SortedSets κ) (k : κ) : ZSet := ((s k).map (·.zset)).getD .empty

def zremrangebyscore (s : SortedSets κ) (k : κ) (lo hi : Int) : SortedSets κ :=
  match s k with
  | none => s
  | some c =>
    let z := c.zset.remRange lo hi
    Function.update s k (if z.entries.isEmpty then none else some { c with zset := z })

def zcard (s : SortedSets κ) (k : κ) : Nat := (s.zset k).card

def zadd (s : SortedSets κ) (k : κ) (score : Int) (member : String) : SortedSets κ :=
  Function.update s k (some ⟨(s.zset k).add score member, (s k).bind (·.expireAt)⟩)

/-- `EXPIRE k seconds` at the time `clock`. -/
def expire (s : SortedSets κ) (clock : Int) (k : κ) (seconds : Int) : SortedSets κ :=
  Function.update s k ((s k).map fun c => { c with expireAt := some (clock + seconds * 1000) })

/-- The key's time to live has run out at the time `clock`. -/
def lapse (s : SortedSets κ) (clock : Int) (k : κ) : Option (SortedSets κ) :=
  if (s k).any fun c => c.expireAt.any (· ≤ clock) then some (Function.update s k none) else none

theorem zset_zremrangebyscore (s : SortedSets κ) (k : κ) (lo hi : Int) :
    ((s.zremrangebyscore k lo hi).zset k).entries = ((s.zset k).remRange lo hi).entries := by
  unfold zremrangebyscore zset
  cases h : s k with
  | none => simp [h, ZSet.empty, ZSet.remRange]
  | some c =>
    simp only [Function.update_self, Option.map_some, Option.getD_some]
    split
    · rename_i hz
      simp [ZSet.empty, List.isEmpty_iff.mp hz]
    · rfl

@[simp] theorem zset_zadd (s : SortedSets κ) (k : κ) (score : Int) (member : String) :
    (s.zadd k score member).zset k = (s.zset k).add score member := by simp [zadd, zset]

@[simp] theorem zset_expire (s : SortedSets κ) (clock : Int) (k : κ) (seconds : Int) :
    (s.expire clock k seconds).zset k = s.zset k := by
  unfold expire zset
  cases s k <;> simp

/-! A command reads and writes its own key only. -/

section Key

variable {s s' : SortedSets κ} {k j : κ}

theorem zremrangebyscore_ne (s : SortedSets κ) (lo hi : Int) (h : j ≠ k) : s.zremrangebyscore k lo hi j = s j := by
  unfold zremrangebyscore
  cases s k with
  | none => rfl
  | some c => exact Function.update_of_ne h ..

theorem zadd_ne (s : SortedSets κ) (score : Int) (member : String) (h : j ≠ k) : s.zadd k score member j = s j :=
  Function.update_of_ne h ..

theorem expire_ne (s : SortedSets κ) (clock seconds : Int) (h : j ≠ k) : s.expire clock k seconds j = s j :=
  Function.update_of_ne h ..

theorem zremrangebyscore_congr (lo hi : Int) (h : s k = s' k) :
    s.zremrangebyscore k lo hi k = s'.zremrangebyscore k lo hi k := by
  unfold zremrangebyscore
  cases hk : s' k with
  | none => simp only [h, hk]
  | some c => simp only [h, hk, Function.update_self]

/-- What a key that is still there has kept. -/
theorem zremrangebyscore_some {lo hi : Int} {c : ZCell} (h : s.zremrangebyscore k lo hi k = some c) :
    ∃ c', s k = some c' ∧ c'.expireAt = c.expireAt ∧ c.zset = c'.zset.remRange lo hi ∧ c.zset.entries ≠ [] := by
  unfold zremrangebyscore at h
  cases hk : s k with
  | none =>
    simp only [hk] at h
    cases h
  | some c' =>
    simp only [hk, Function.update_self, Option.ite_none_left_eq_some, Option.some.injEq] at h
    obtain ⟨hne, rfl⟩ := h
    exact ⟨c', rfl, rfl, rfl, fun he => hne (List.isEmpty_iff.mpr he)⟩

omit [DecidableEq κ] in
theorem zcard_congr (h : s k = s' k) : s.zcard k = s'.zcard k := by simp only [zcard, zset, h]

theorem zadd_congr (score : Int) (member : String) (h : s k = s' k) :
    s.zadd k score member k = s'.zadd k score member k := by simp only [zadd, zset, h, Function.update_self]

theorem expire_congr (clock seconds : Int) (h : s k = s' k) :
    s.expire clock k seconds k = s'.expire clock k seconds k := by
  simp only [expire, h, Function.update_self]

end Key

theorem expireAt_zremrangebyscore {s : SortedSets κ} {k : κ} {lo hi : Int} {c : ZCell}
    (h : s.zremrangebyscore k lo hi k = some c) : ∃ c', s k = some c' ∧ c'.expireAt = c.expireAt := by
  unfold zremrangebyscore at h
  cases hk : s k with
  | none => simp [hk] at h
  | some c' =>
    simp only [hk, Function.update_self, Option.ite_none_left_eq_some, Option.some.injEq] at h
    exact ⟨c', rfl, by rw [← h.2]⟩

theorem lapse_some {s s' : SortedSets κ} {clock : Int} {k : κ} (h : s.lapse clock k = some s') :
    (∃ c d, s k = some c ∧ c.expireAt = some d ∧ d ≤ clock) ∧ s' k = none := by
  unfold lapse at h
  split at h
  · rename_i hd
    cases h
    cases hk : s k with
    | none => simp [hk] at hd
    | some c =>
      cases hc : c.expireAt with
      | none => simp [hk, hc] at hd
      | some d => exact ⟨⟨c, d, rfl, hc, by simpa [hk, hc] using hd⟩, by simp⟩
  · cases h

theorem lapse_ne {s s' : SortedSets κ} {clock : Int} {k j : κ} (h : s.lapse clock k = some s') (hj : j ≠ k) :
    s' j = s j := by
  unfold lapse at h
  split at h
  · cases h
    exact Function.update_of_ne hj ..
  · cases h

end SortedSets

end Playground.Redis
