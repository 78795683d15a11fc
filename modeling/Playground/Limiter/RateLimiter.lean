/-
  Playground.Limiter.RateLimiter — `case1_lock/rate_limiter.py`: the sliding-window
  script and `check_rate_limit`.

  A call reads `now_ms` on its node and sends the script, which Redis runs whole, at a
  time `clock` of its own. `limiter` is one client's key under any sequence of such
  calls, in the order in which Redis runs them; between two of them the key may be
  gone, once its time to live has run out on Redis's clock. The log keeps the calls
  with their answers.

  Timestamps are whole milliseconds, small enough for Lua's numbers to be exact.
-/

import Playground.Lib.IntText
import Playground.Lib.Machine
import Playground.Redis.SortedSets

namespace Playground.Limiter

open Playground.Lib Playground.Redis

/-- `math.ceil(a / b)`. -/
def ceilDiv (a b : Int) : Int := -(-a / b)

/-- `SLIDING_WINDOW_LUA`: its reply, and the database after. -/
def slidingWindowLua (redis : SortedSets String) (clock : Int) (key : String) (now window limit : Int)
    (uniqueMember : String) : (Int × Int) × SortedSets String :=
  let redis := redis.zremrangebyscore key 0 (now - window)
  let count := redis.zcard key
  if count < limit then
    let redis := redis.zadd key now uniqueMember
    let redis := redis.expire clock key (ceilDiv window 1000 + 1)
    ((1, limit - count - 1), redis)
  else
    ((0, 0), redis)

/-- What differs between two calls for one client: Redis's clock when the script runs,
    the node's when the call began, and the drawn part of the member. -/
structure Call where
  clock : Int
  nowMs : Nat
  hex : String
  deriving DecidableEq, Repr

section Limiter

variable (py : IntText)

def Call.uniqueMember (c : Call) : String := py.str c.nowMs ++ ":" ++ c.hex

def keyOf (clientId : String) : String := "ratelimit:" ++ clientId

variable (clientId : String) (limit : Int) (windowSeconds : Nat)

def checkRateLimit (redis : SortedSets String) (c : Call) : (Bool × Int) × SortedSets String :=
  let windowMs : Int := windowSeconds * 1000
  let r := slidingWindowLua redis c.clock (keyOf clientId) c.nowMs windowMs limit (c.uniqueMember py)
  ((r.1.1 != 0, r.1.2), r.2)

/-- A call and its answer. -/
structure Done where
  call : Call
  allowed : Bool
  remaining : Int
  deriving DecidableEq, Repr

structure St where
  redis : SortedSets String
  clock : Int
  log : List Done

inductive Ev where
  | check (c : Call)
  /-- The client's key is gone at the time `clock`. -/
  | lapse (clock : Int)

def limiter : Machine St Ev where
  step s
    | .check c =>
      if s.clock ≤ c.clock then
        let r := checkRateLimit py clientId limit windowSeconds s.redis c
        some ⟨r.2, c.clock, s.log ++ [⟨c, r.1.1, r.1.2⟩]⟩
      else none
    | .lapse clock =>
      if s.clock ≤ clock then (s.redis.lapse clock (keyOf clientId)).map fun r => ⟨r, clock, s.log⟩ else none

/-- Nobody has called yet. -/
def fresh (clock : Int) : St := ⟨fun _ => none, clock, []⟩

/-- The client's set. -/
def St.entries (s : St) : List (String × Int) := (s.redis.zset (keyOf clientId)).entries

end Limiter

/-! ## What a call does -/

section Check

variable (py : IntText) (clientId : String) (limit : Int) (windowSeconds : Nat)

/-- The entries a call at `now` leaves when it prunes. -/
def pruned (redis : SortedSets String) (now : Nat) : List (String × Int) :=
  ((redis.zset (keyOf clientId)).remRange 0 (now - windowSeconds * 1000)).entries

theorem ceilDiv_seconds (n : Nat) : ceilDiv (n * 1000) 1000 = n := by
  unfold ceilDiv
  omega

/-- A call's answer is decided by how many entries it leaves. -/
theorem check_answer (redis : SortedSets String) (c : Call) :
    (checkRateLimit py clientId limit windowSeconds redis c).1 =
      if ((pruned clientId windowSeconds redis c.nowMs).length : Int) < limit then
        (true, limit - (pruned clientId windowSeconds redis c.nowMs).length - 1) else (false, 0) := by
  have hcard : (redis.zremrangebyscore (keyOf clientId) 0 (c.nowMs - windowSeconds * 1000)).zcard (keyOf clientId) =
      (pruned clientId windowSeconds redis c.nowMs).length := by
    rw [SortedSets.zcard, ZSet.card, SortedSets.zset_zremrangebyscore]
    rfl
  simp only [checkRateLimit, slidingWindowLua, hcard]
  split <;> rfl

/-- An allowed call adds itself to what it leaves, and renews the time to live. -/
theorem check_allowed (redis : SortedSets String) (c : Call)
    (h : (checkRateLimit py clientId limit windowSeconds redis c).1.1 = true)
    (hnew : ∀ e ∈ (redis.zset (keyOf clientId)).entries, e.1 ≠ c.uniqueMember py) :
    (∀ e, e ∈ ((checkRateLimit py clientId limit windowSeconds redis c).2.zset (keyOf clientId)).entries ↔
      e ∈ pruned clientId windowSeconds redis c.nowMs ∨ e = (c.uniqueMember py, (c.nowMs : Int))) ∧
      ∃ z, (checkRateLimit py clientId limit windowSeconds redis c).2 (keyOf clientId) =
        some ⟨z, some (c.clock + (windowSeconds + 1) * 1000)⟩ := by
  simp only [checkRateLimit, slidingWindowLua] at h ⊢
  split at h
  · rename_i hlt
    rw [if_pos hlt]
    have hz := SortedSets.zset_zremrangebyscore redis (keyOf clientId) 0 (c.nowMs - windowSeconds * 1000)
    constructor
    · intro e
      have hadd := ZSet.mem_add_new (c.nowMs : Int)
        (z := (redis.zremrangebyscore (keyOf clientId) 0 (c.nowMs - windowSeconds * 1000)).zset (keyOf clientId))
        (fun e he => hnew e (ZSet.mem_remRange.mp (hz ▸ he)).1) (e := e)
      rw [hz] at hadd
      rw [SortedSets.zset_expire, SortedSets.zset_zadd]
      exact hadd
    · simp [SortedSets.expire, SortedSets.zadd, ceilDiv_seconds]
  · simp at h

/-- A rejected call only prunes. -/
theorem check_rejected (redis : SortedSets String) (c : Call)
    (h : (checkRateLimit py clientId limit windowSeconds redis c).1.1 = false) :
    (checkRateLimit py clientId limit windowSeconds redis c).2 =
      redis.zremrangebyscore (keyOf clientId) 0 (c.nowMs - windowSeconds * 1000) := by
  simp only [checkRateLimit, slidingWindowLua] at h ⊢
  split at h
  · simp at h
  · rename_i hlt
    rw [if_neg hlt]

end Check

end Playground.Limiter
