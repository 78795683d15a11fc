/-
  Playground.Redis.Strings — string keys of one Redis database: `GET`, `SET`,
  `SET NX PX`, `DEL` and expiry.

  A key holds a value, with or without a time to live. Expiry is an event of the
  database: it may strike any key that has a time to live, at any moment (how long
  the clients take is not bounded), and no other key.
-/

import Mathlib.Logic.Function.Basic

namespace Playground.Redis

structure Cell (ν : Type) where
  val : ν
  /-- The milliseconds of `PX`; `none` for a key without a time to live. -/
  px : Option Nat
  deriving DecidableEq, Repr

abbrev Strings (κ ν : Type) := κ → Option (Cell ν)

namespace Strings

variable {κ ν : Type} [DecidableEq κ]

def get (s : Strings κ ν) (k : κ) : Option ν := (s k).map (·.val)

/-- `SET k v`: a plain `SET` clears a time to live. -/
def set (s : Strings κ ν) (k : κ) (v : ν) : Strings κ ν := Function.update s k (some ⟨v, none⟩)

/-- `SET k v NX PX px`: whether it took the key, and the database after. -/
def setNxPx (s : Strings κ ν) (k : κ) (v : ν) (px : Nat) : Bool × Strings κ ν :=
  match s k with
  | none => (true, Function.update s k (some ⟨v, some px⟩))
  | some _ => (false, s)

/-- `DEL k`: how many keys it removed, and the database after. -/
def del (s : Strings κ ν) (k : κ) : Nat × Strings κ ν :=
  match s k with
  | none => (0, s)
  | some _ => (1, Function.update s k none)

/-- The key's time to live runs out. -/
def expire (s : Strings κ ν) (k : κ) : Option (Strings κ ν) :=
  if (s k).any (·.px.isSome) then some (Function.update s k none) else none

@[simp] theorem get_set_same (s : Strings κ ν) (k : κ) (v : ν) : (s.set k v).get k = some v := by
  simp [get, set]

@[simp] theorem get_set_ne (s : Strings κ ν) {k j : κ} (v : ν) (h : j ≠ k) : (s.set k v).get j = s.get j := by
  simp [get, set, h]

theorem setNxPx_fst (s : Strings κ ν) (k : κ) (v : ν) (px : Nat) :
    (s.setNxPx k v px).1 = true ↔ s.get k = none := by
  unfold setNxPx get
  cases s k <;> simp

theorem setNxPx_denied (s : Strings κ ν) (k : κ) (v : ν) (px : Nat) (h : s.get k ≠ none) :
    s.setNxPx k v px = (false, s) := by
  unfold setNxPx
  unfold get at h
  cases hk : s k with
  | none => simp [hk] at h
  | some c => rfl

/-- A `SET NX` that takes the key leaves its value there. -/
theorem get_setNxPx_same (s : Strings κ ν) (k : κ) (v : ν) (px : Nat) :
    (s.setNxPx k v px).2.get k = if s.get k = none then some v else s.get k := by
  unfold setNxPx get
  cases h : s k <;> simp [h]

theorem get_setNxPx_ne (s : Strings κ ν) {k j : κ} (v : ν) (px : Nat) (h : j ≠ k) :
    (s.setNxPx k v px).2.get j = s.get j := by
  unfold setNxPx get
  cases s k <;> simp [h]

theorem get_del_same (s : Strings κ ν) (k : κ) : (s.del k).2.get k = none := by
  unfold del get
  cases h : s k <;> simp [h]

theorem get_del_ne (s : Strings κ ν) {k j : κ} (h : j ≠ k) : (s.del k).2.get j = s.get j := by
  unfold del get
  cases s k <;> simp [h]

theorem del_fst (s : Strings κ ν) (k : κ) : (s.del k).1 = if s.get k = none then 0 else 1 := by
  unfold del get
  cases s k <;> simp

/-- Only a key that is there expires, and it alone is gone. -/
theorem expire_some {s s' : Strings κ ν} {k : κ} (h : s.expire k = some s') :
    s.get k ≠ none ∧ s'.get k = none ∧ ∀ j, j ≠ k → s'.get j = s.get j := by
  unfold expire at h
  split at h
  · rename_i hv
    cases h
    refine ⟨?_, by simp [get], fun j hj => by simp [get, hj]⟩
    cases hk : s k with
    | none => simp [hk] at hv
    | some c => simp [get, hk]
  · cases h

end Strings

end Playground.Redis
