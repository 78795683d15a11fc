/-
  Playground.Redis.Hashes — hash keys of one Redis database: `HSET`, `HGETALL`.

  A key that is there holds a hash with at least one field. The mapping of an `HSET`
  comes from a dictionary, so it names each field once.
-/

import Mathlib.Logic.Function.Basic

namespace Playground.Redis

/-- `none`: no such key. -/
abbrev Hashes (κ φ ν : Type) := κ → Option (φ → Option ν)

namespace Hashes

variable {κ φ ν : Type}

/-- `HGETALL k`: nothing for a key that is not there. -/
def hgetall (s : Hashes κ φ ν) (k : κ) : Option (φ → Option ν) := s k

/-- The value of one field of one key. -/
def field (s : Hashes κ φ ν) (k : κ) (f : φ) : Option ν := (s k).bind (· f)

variable [DecidableEq κ] [DecidableEq φ]

/-- `HSET k mapping`: the fields of the mapping are set, the others stay. -/
def hset (s : Hashes κ φ ν) (k : κ) (mapping : List (φ × ν)) : Hashes κ φ ν :=
  Function.update s k (some fun f => (mapping.lookup f).or (s.field k f))

@[simp] theorem field_hset_same (s : Hashes κ φ ν) (k : κ) (mapping : List (φ × ν)) (f : φ) :
    (s.hset k mapping).field k f = (mapping.lookup f).or (s.field k f) := by
  simp [hset, field]

theorem hset_ne (s : Hashes κ φ ν) {k j : κ} (mapping : List (φ × ν)) (h : j ≠ k) : s.hset k mapping j = s j := by
  simp [hset, h]

end Hashes

end Playground.Redis
