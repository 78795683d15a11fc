/-
  Playground.Limiter.Clients — the rate-limit endpoints for many clients
  (`rate_limit_test` of `case1_lock/router.py`, `testRateLimit` of `case1.controller.ts`,
  `checkRateLimit` of `Case1Controller.java`).

  One Redis database serves every client; requests of different clients interleave in
  any way, and any client's key may run out. The three versions run the same script.
  - `clients_independent`: clients whose own requests come in order, none of them more
    than a second late at Redis, are each answered as if nobody else were there, and 200
    at most five times in ten seconds.
  - `sets_bounded`: whatever the order of requests and the clocks of nodes, no key has
    more than the limit's entries, and every key has a time to live.
-/

import Playground.Limiter.Exact

namespace Playground.Limiter

open Playground.Lib Playground.Redis

/-! ## The endpoints -/

inductive Response where
  | ok (nodeId clientId : String) (allowed : Bool) (remainingRequests : Int)
  /-- Status 429. -/
  | tooManyRequests (detail : String)
  deriving DecidableEq, Repr

def Response.isOk : Response → Bool
  | .ok .. => true
  | .tooManyRequests _ => false

section Endpoint

variable (py : IntText)

def respond (nodeId clientId : String) (allowed : Bool) (remaining : Int) : Response :=
  if allowed then .ok nodeId clientId allowed remaining
  else .tooManyRequests ("Rate limit exceeded. Remaining: " ++ py.str remaining)

def rateLimitTest (nodeId : String) (redis : SortedSets String) (clientId : Option String) (c : Call) :
    Response × SortedSets String :=
  let clientId := clientId.getD "client-default"
  let r := checkRateLimit py clientId 5 10 redis c
  (respond py nodeId clientId r.1.1 r.1.2, r.2)

namespace Nest

def checkLimit (clientId : String) (limit : Int) (windowSeconds : Nat) (redis : SortedSets String) (c : Call) :
    (Bool × Int) × SortedSets String :=
  let windowMs : Int := windowSeconds * 1000
  let r := slidingWindowLua redis c.clock (keyOf clientId) c.nowMs windowMs limit (c.uniqueMember py)
  ((r.1.1 == 1, r.1.2), r.2)

def testRateLimit (nodeId : String) (redis : SortedSets String) (clientId : Option String) (c : Call) :
    Response × SortedSets String :=
  let clientId := clientId.getD "client-default"
  let r := checkLimit py clientId 5 10 redis c
  (respond py nodeId clientId r.1.1 r.1.2, r.2)

end Nest

namespace Spring

structure RateLimitResult where
  allowed : Bool
  remaining : Int
  deriving DecidableEq, Repr

def RateLimitResult.blocked : RateLimitResult := ⟨false, 0⟩

/-- What `checkLimit` makes of the script's reply. -/
def RateLimitResult.ofReply : List Int → RateLimitResult
  | allowed :: remaining :: _ => ⟨allowed == 1, remaining⟩
  | _ => .blocked

def checkLimit (clientId : String) (limit : Int) (windowSeconds : Nat) (redis : SortedSets String) (c : Call) :
    RateLimitResult × SortedSets String :=
  let windowMs : Int := windowSeconds * 1000
  let r := slidingWindowLua redis c.clock (keyOf clientId) c.nowMs windowMs limit (c.uniqueMember py)
  (.ofReply [r.1.1, r.1.2], r.2)

/-- An empty `client_id` is as good as none. -/
def checkRateLimit (nodeId : String) (redis : SortedSets String) (clientId : Option String) (c : Call) :
    Response × SortedSets String :=
  let clientId := (clientId.filter (· ≠ "")).getD "client-default"
  let r := checkLimit py clientId 5 10 redis c
  (respond py nodeId clientId r.1.allowed r.1.remaining, r.2)

end Spring

inductive Version where
  | fastApi
  | nest
  | spring
  deriving DecidableEq

/-- The client that a query's `client_id` stands for, if it has one. -/
def Version.clientOf : Version → Option String → String
  | .fastApi, clientId | .nest, clientId => clientId.getD "client-default"
  | .spring, clientId => (clientId.filter (· ≠ "")).getD "client-default"

def Version.endpoint : Version → String → SortedSets String → Option String → Call → Response × SortedSets String
  | .fastApi => rateLimitTest py
  | .nest => Nest.testRateLimit py
  | .spring => Spring.checkRateLimit py

/-- The script's first number is 1 or 0. -/
theorem reply_flag (redis : SortedSets String) (clock : Int) (key : String) (now window limit : Int) (member : String) :
    ((slidingWindowLua redis clock key now window limit member).1.1 == 1) =
      ((slidingWindowLua redis clock key now window limit member).1.1 != 0) := by
  unfold slidingWindowLua
  dsimp only
  split <;> rfl

/-- The versions differ in what they take for the client's name only. -/
theorem endpoint_eq (v : Version) (nodeId : String) (redis : SortedSets String) (clientId : Option String) (c : Call) :
    v.endpoint py nodeId redis clientId c =
      (respond py nodeId (v.clientOf clientId) (checkRateLimit py (v.clientOf clientId) 5 10 redis c).1.1
        (checkRateLimit py (v.clientOf clientId) 5 10 redis c).1.2,
        (checkRateLimit py (v.clientOf clientId) 5 10 redis c).2) := by
  cases v with
  | fastApi => rfl
  | nest => simp only [Version.endpoint, Nest.testRateLimit, Nest.checkLimit, reply_flag]; rfl
  | spring =>
    simp only [Version.endpoint, Spring.checkRateLimit, Spring.checkLimit, Spring.RateLimitResult.ofReply, reply_flag]
    rfl

/-- A request that was answered. -/
structure Answered where
  nodeId : String
  client : String
  call : Call
  response : Response
  deriving DecidableEq, Repr

structure Service where
  redis : SortedSets String
  clock : Int
  log : List Answered

inductive Arrival where
  | get (nodeId : String) (clientId : Option String) (c : Call)
  /-- A client's key is gone at the time `clock`. -/
  | lapse (clock : Int) (client : String)

def service (v : Version) : Machine Service Arrival where
  step s
    | .get nodeId clientId c =>
      if s.clock ≤ c.clock then
        let r := v.endpoint py nodeId s.redis clientId c
        some ⟨r.2, c.clock, s.log ++ [⟨nodeId, v.clientOf clientId, c, r.1⟩]⟩
      else none
    | .lapse clock client =>
      if s.clock ≤ clock then (s.redis.lapse clock (keyOf client)).map fun r => ⟨r, clock, s.log⟩ else none

def Service.fresh (clock : Int) : Service := ⟨fun _ => none, clock, []⟩

/-- What a response tells of the limiter's answer. -/
def Answered.done (a : Answered) : Done :=
  match a.response with
  | .ok _ _ _ remaining => ⟨a.call, true, remaining⟩
  | .tooManyRequests _ => ⟨a.call, false, 0⟩

/-- A client's own requests. -/
def own (log : List Answered) (client : String) : List Done := (log.filter (·.client = client)).map (·.done)

/-- Each client's own requests come in order: with members of their own, no stamp before
    an earlier one's, and Redis's clock at the request's stamp or at most 1000 ms past it
    when its script runs. -/
def EachInOrder (v : Version) (s : Service) : Arrival → Prop
  | .get _ clientId c => InOrder py ⟨s.redis, s.clock, own s.log (v.clientOf clientId)⟩ (.check c)
  | .lapse .. => True

instance (v : Version) (s : Service) : (e : Arrival) → Decidable (EachInOrder py v s e)
  | .get _ clientId c =>
    inferInstanceAs (Decidable (InOrder py ⟨s.redis, s.clock, own s.log (v.clientOf clientId)⟩ (.check c)))
  | .lapse .. => inferInstanceAs (Decidable True)

end Endpoint

/-! ## A script's own key -/

section Local

variable (py : IntText) (client : String) (limit : Int) (windowSeconds : Nat)

theorem keyOf_inj {a b : String} (h : keyOf a = keyOf b) : a = b := by
  have := congrArg String.toList h
  simp only [keyOf, String.toList_append, List.append_cancel_left_eq] at this
  exact String.toList_inj.mp this

/-- A call leaves every other key alone. -/
theorem check_other (redis : SortedSets String) (c : Call) {k : String} (hk : k ≠ keyOf client) :
    (checkRateLimit py client limit windowSeconds redis c).2 k = redis k := by
  have hrem := SortedSets.zremrangebyscore_ne redis 0 (c.nowMs - windowSeconds * 1000) hk
  simp only [checkRateLimit, slidingWindowLua]
  split
  · exact (SortedSets.expire_ne _ _ _ hk).trans ((SortedSets.zadd_ne _ _ _ hk).trans hrem)
  · exact hrem

/-- What a call does to its key, and answers, is decided by that key alone. -/
theorem check_own {redis redis' : SortedSets String} (c : Call) (h : redis (keyOf client) = redis' (keyOf client)) :
    (checkRateLimit py client limit windowSeconds redis c).1 = (checkRateLimit py client limit windowSeconds redis' c).1 ∧
      (checkRateLimit py client limit windowSeconds redis c).2 (keyOf client) =
        (checkRateLimit py client limit windowSeconds redis' c).2 (keyOf client) := by
  have hrem := SortedSets.zremrangebyscore_congr 0 (c.nowMs - windowSeconds * 1000) h
  have hcard := SortedSets.zcard_congr hrem
  simp only [checkRateLimit, slidingWindowLua, hcard]
  split
  · exact ⟨rfl, SortedSets.expire_congr _ _ (SortedSets.zadd_congr _ _ hrem)⟩
  · exact ⟨rfl, hrem⟩

end Local

/-! ## Each client by itself -/

section Independent

variable (py : IntText)

/-- The one-client limiter at `t` is what the service is to `client`. -/
structure Follows (client : String) (s : Service) (t : St) : Prop where
  redis : t.redis (keyOf client) = s.redis (keyOf client)
  clock : t.clock ≤ s.clock
  log : t.log = own s.log client

variable {py} {v : Version} {client : String} {s s' : Service} {t : St}

theorem own_append (log : List Answered) (a : Answered) :
    own (log ++ [a]) client = own log client ++ if a.client = client then [a.done] else [] := by
  by_cases h : a.client = client
  · simp [own, h]
  · simp [own, h]

theorem done_respond (nodeId : String) {c : Call} {r : Bool × Int} (hr : r.1 = false → r.2 = 0) :
    (⟨nodeId, client, c, respond py nodeId client r.1 r.2⟩ : Answered).done = ⟨c, r.1, r.2⟩ := by
  obtain ⟨allowed, remaining⟩ := r
  cases allowed with
  | true => rfl
  | false =>
    cases hr rfl
    rfl

theorem rejected_zero (limit : Int) (windowSeconds : Nat) (redis : SortedSets String) (c : Call)
    (h : (checkRateLimit py client limit windowSeconds redis c).1.1 = false) :
    (checkRateLimit py client limit windowSeconds redis c).1.2 = 0 := by
  rw [check_answer] at h ⊢
  split at h
  · cases h
  · rw [if_neg ‹_›]

theorem Follows.step (hf : Follows client s t) {e : Arrival} (ho : EachInOrder py v s e)
    (hs : (service py v).step s e = some s') :
    ∃ t', (t' = t ∨ ∃ e', InOrder py t e' ∧ (limiter py client 5 10).step t e' = some t') ∧ Follows client s' t' := by
  cases e with
  | get nodeId clientId c =>
    simp only [service, endpoint_eq, Option.ite_none_right_eq_some, Option.some.injEq] at hs
    obtain ⟨hclock, rfl⟩ := hs
    by_cases hc : v.clientOf clientId = client
    · subst hc
      obtain ⟨hanswer, hkey⟩ := check_own py (v.clientOf clientId) 5 10 c hf.redis
      refine ⟨_, .inr ⟨.check c, ?_, if_pos (Int.le_trans hf.clock hclock)⟩, hkey, Int.le_refl _, ?_⟩
      · have hlog := hf.log
        obtain ⟨redis, clock, log⟩ := t
        subst hlog
        exact ho
      · rw [own_append, if_pos rfl, hf.log]
        show _ ++ [_] = _ ++ [_]
        rw [hanswer]
        exact congrArg (_ ++ [·]) (done_respond nodeId (rejected_zero 5 10 s.redis c)).symm
    · refine ⟨t, .inl rfl, ?_, Int.le_trans hf.clock hclock, ?_⟩
      · exact hf.redis.trans (check_other py _ 5 10 s.redis c fun h => hc (keyOf_inj h).symm).symm
      · rw [own_append, if_neg hc, List.append_nil, hf.log]
  | lapse clock other =>
    simp only [service, Option.ite_none_right_eq_some, Option.map_eq_some_iff] at hs
    obtain ⟨hclock, redis, hlapse, rfl⟩ := hs
    unfold SortedSets.lapse at hlapse
    split at hlapse
    · rename_i hdue
      cases hlapse
      by_cases hc : other = client
      · subst hc
        refine ⟨⟨Function.update t.redis (keyOf other) none, clock, t.log⟩, .inr ⟨.lapse clock, trivial, ?_⟩, ?_,
          Int.le_refl _, hf.log⟩
        · rw [← hf.redis] at hdue
          simp only [limiter, SortedSets.lapse, if_pos (Int.le_trans hf.clock hclock), if_pos hdue, Option.map_some]
        · simp only [Function.update_self]
      · refine ⟨t, .inl rfl, ?_, Int.le_trans hf.clock hclock, hf.log⟩
        exact hf.redis.trans (Function.update_of_ne (fun h => hc (keyOf_inj h).symm) ..).symm
    · cases hlapse

/-- Whoever else calls, the service is to each client what the one-client limiter is. -/
theorem follows {clock₀ : Int} (h : (service py v).Reach (EachInOrder py v) (.fresh clock₀) s) (client : String) :
    ∃ t, (limiter py client 5 10).Reach (InOrder py) (Limiter.fresh clock₀) t ∧ Follows client s t := by
  refine h.invariant (P := fun s => ∃ t, (limiter py client 5 10).Reach (InOrder py) (Limiter.fresh clock₀) t ∧
    Follows client s t) ⟨_, .init, rfl, Int.le_refl _, rfl⟩ ?_
  rintro s e s' ⟨t, ht, hf⟩ ho hs
  obtain ⟨t', rfl | ⟨e', ho', hs'⟩, hf'⟩ := hf.step ho hs
  · exact ⟨t', ht, hf'⟩
  · exact ⟨t', ht.step e' ho' hs', hf'⟩

/-- The stamps of the client's requests that were answered 200. -/
def granted (log : List Answered) (client : String) : List Int :=
  (log.filter fun a => a.client = client && a.response.isOk).map fun a => (a.call.nowMs : Int)

theorem allowedStamps_own (log : List Answered) (client : String) :
    allowedStamps (own log client) = granted log client := by
  induction log with
  | nil => rfl
  | cons a log ih =>
    obtain ⟨nodeId, name, call, response⟩ := a
    by_cases h : name = client
    · cases response with
      | ok _ _ _ _ => simpa [own, granted, allowedStamps, Answered.done, Response.isOk, h] using ih
      | tooManyRequests _ => simpa [own, granted, allowedStamps, Answered.done, Response.isOk, h] using ih
    · simpa [own, granted, allowedStamps, h] using ih

/-- A response says what the limiter answered. -/
theorem response_done {clock₀ : Int} {ok : Service → Arrival → Prop} (h : (service py v).Reach ok (.fresh clock₀) s) :
    ∀ a ∈ s.log, a.done.call = a.call ∧ a.response = respond py a.nodeId a.client a.done.allowed a.done.remaining := by
  refine h.invariant (P := fun s => ∀ a ∈ s.log, a.done.call = a.call ∧
    a.response = respond py a.nodeId a.client a.done.allowed a.done.remaining) nofun ?_
  intro s e s' hall _ hs
  cases e with
  | get nodeId clientId c =>
    simp only [service, endpoint_eq, Option.ite_none_right_eq_some, Option.some.injEq] at hs
    obtain ⟨-, rfl⟩ := hs
    intro a ha
    rcases List.mem_append.mp ha with ha | ha
    · exact hall a ha
    · obtain rfl := List.mem_singleton.mp ha
      simp only [done_respond nodeId (rejected_zero 5 10 s.redis c), and_self]
  | lapse clock client =>
    simp only [service, Option.ite_none_right_eq_some, Option.map_eq_some_iff] at hs
    obtain ⟨-, _, -, rfl⟩ := hs
    exact hall

/-- As long as each client's requests come in order and within a second, every request is
    answered as its node should have by the window of its client's own earlier requests;
    and no window of ten seconds has more than five of a client's that were answered 200. -/
theorem clients_independent {clock₀ : Int} (h : (service py v).Reach (EachInOrder py v) (.fresh clock₀) s) :
    (∀ before a after, s.log = before ++ a :: after →
      let answer := Window.decide 5 10000 (granted before a.client) a.call.nowMs
      a.response = respond py a.nodeId a.client answer.1 answer.2) ∧
      ∀ client t, Window.held 10000 (granted s.log client) t ≤ 5 := by
  constructor
  · intro before a after hlog
    obtain ⟨t, ht, hf⟩ := follows h a.client
    have hsplit : t.log = own before a.client ++ a.done :: own after a.client := by
      rw [hf.log, hlog]
      simp [own]
    have hdecided := (exact_of_reach ht).decided _ _ _ hsplit
    obtain ⟨hcall, hresponse⟩ := response_done h a (by simp [hlog])
    rw [allowedStamps_own, hcall] at hdecided
    rw [hresponse, show a.done.allowed = _ from congrArg Prod.fst hdecided,
      show a.done.remaining = _ from congrArg Prod.snd hdecided]
    rfl
  · intro client t
    obtain ⟨u, hu, hf⟩ := follows h client
    have hbound := (inv_bound (hu.mono_of fun s e hs ho => ho.timely (exact_of_reach hs))).2 t
    rw [hf.log, allowedStamps_own] at hbound
    exact Int.ofNat_le.mp hbound

end Independent

/-! ## The database -/

section Bounded

variable {py : IntText} {v : Version} {s s' : Service}

/-- A key of the database: of a client that was let through, with at most five entries,
    and with a time to live. -/
structure Kept (s : Service) (k : String) (c : ZCell) : Prop where
  owner : ∃ a ∈ s.log, k = keyOf a.client ∧ a.response.isOk = true
  nonempty : c.zset.entries ≠ []
  card : c.zset.card ≤ 5
  expires : ∃ d, c.expireAt = some d ∧ d ≤ s.clock + 11000

theorem Kept.mono {k : String} {c : ZCell} (h : Kept s k c) (hlog : ∀ a ∈ s.log, a ∈ s'.log)
    (hclock : s.clock ≤ s'.clock) :
    Kept s' k c := by
  obtain ⟨a, ha, hk⟩ := h.owner
  obtain ⟨d, hd, hle⟩ := h.expires
  exact ⟨⟨a, hlog a ha, hk⟩, h.nonempty, h.card, d, hd, by omega⟩

theorem Kept.answered {k : String} {c : ZCell} (h : Kept s k c) (redis : SortedSets String) {clock : Int}
    (hclock : s.clock ≤ clock) (a : Answered) : Kept ⟨redis, clock, s.log ++ [a]⟩ k c :=
  h.mono (fun _ ha => List.mem_append_left _ ha) hclock

/-- What a call leaves under its client's key. -/
theorem check_cell {client : String} {redis : SortedSets String} {c : Call} {cell : ZCell}
    (h : (checkRateLimit py client 5 10 redis c).2 (keyOf client) = some cell) :
    cell.zset.entries ≠ [] ∧
      (((checkRateLimit py client 5 10 redis c).1.1 = true ∧ cell.zset.card ≤ 5 ∧
          cell.expireAt = some (c.clock + 11000)) ∨
        ∃ old, redis (keyOf client) = some old ∧ cell.zset.card ≤ old.zset.card ∧ old.expireAt = cell.expireAt) := by
  simp only [checkRateLimit, slidingWindowLua] at h ⊢
  split at h
  · rename_i hlt
    rw [if_pos hlt]
    simp only [SortedSets.expire, SortedSets.zadd, Function.update_self, Option.map_some, Option.some.injEq] at h
    subst h
    refine ⟨by simp [ZSet.add], .inl ⟨rfl, ?_, rfl⟩⟩
    have hadd := ZSet.card_add
      ((redis.zremrangebyscore (keyOf client) 0 (c.nowMs - (10 : Nat) * 1000)).zset (keyOf client))
      c.nowMs (c.uniqueMember py)
    change (((redis.zremrangebyscore (keyOf client) 0 (c.nowMs - (10 : Nat) * 1000)).zset (keyOf client)).card : Int) < 5 at hlt
    exact Nat.le_trans hadd (by omega)
  · rename_i hlt
    rw [if_neg hlt]
    obtain ⟨old, hold, hexpire, hz, hne⟩ := SortedSets.zremrangebyscore_some h
    exact ⟨hne, .inr ⟨old, hold, hz ▸ ZSet.card_remRange .., hexpire⟩⟩

/-- Whatever the order of the requests and the clocks of their nodes: every key is of a
    client that was let through, has from one to five entries, and has at most eleven
    seconds to live. -/
theorem sets_bounded {clock₀ : Int} (h : (service py v).Reach Machine.any (.fresh clock₀) s) {k : String} {c : ZCell}
    (hk : s.redis k = some c) : Kept s k c := by
  revert k c
  refine h.invariant (P := fun s => ∀ {k c}, s.redis k = some c → Kept s k c)
    (fun h => absurd h (Option.some_ne_none _).symm) ?_
  intro s e s' hall _ hs k cell hk
  cases e with
  | get nodeId clientId c =>
    simp only [service, endpoint_eq, Option.ite_none_right_eq_some, Option.some.injEq] at hs
    obtain ⟨hclock, rfl⟩ := hs
    by_cases hown : k = keyOf (v.clientOf clientId)
    · subst hown
      obtain ⟨hne, ⟨hok, hcard, hexpire⟩ | ⟨old, hold, hcard, hexpire⟩⟩ := check_cell hk
      · refine ⟨⟨_, List.mem_append_right _ (List.mem_singleton.mpr rfl), rfl, ?_⟩, hne, hcard, _, hexpire,
          Int.le_refl _⟩
        simp [respond, hok, Response.isOk]
      · have hkept := hall hold
        exact Kept.answered ⟨hkept.owner, hne, Nat.le_trans hcard hkept.card, hexpire ▸ hkept.expires⟩ _ hclock _
    · exact (hall ((check_other py _ 5 10 s.redis c hown).symm.trans hk)).answered _ hclock _
  | lapse clock client =>
    simp only [service, Option.ite_none_right_eq_some, Option.map_eq_some_iff] at hs
    obtain ⟨hclock, redis, hlapse, rfl⟩ := hs
    by_cases hown : k = keyOf client
    · subst hown
      cases (SortedSets.lapse_some hlapse).2.symm.trans hk
    · exact (hall ((SortedSets.lapse_ne hlapse hown).symm.trans hk)).mono (fun a ha => ha) hclock

end Bounded

/-! ## Two clients -/

/-- One client asks six times within ten seconds, one without a name once in between. -/
def visits : List Arrival :=
  [.get "node-1" (some "client-a") ⟨1000, 1000, "1"⟩, .get "node-2" (some "client-a") ⟨1001, 1001, "2"⟩,
    .get "node-1" (some "client-a") ⟨1002, 1002, "3"⟩, .get "node-2" none ⟨1003, 1003, "4"⟩,
    .get "node-1" (some "client-a") ⟨1004, 1004, "5"⟩, .get "node-2" (some "client-a") ⟨1005, 1005, "6"⟩,
    .get "node-1" (some "client-a") ⟨9000, 9000, "7"⟩]

def visited : Service := ((service .decimal .spring).runIf (EachInOrder .decimal .spring) (.fresh 0) visits).get
    (by decide +kernel)

theorem visited_reach : (service .decimal .spring).Reach (EachInOrder .decimal .spring) (.fresh 0) visited :=
  Machine.reach_of_runIf visits (Option.some_get _).symm

theorem sixth_refused : visited.log.map (·.response.isOk) = [true, true, true, true, true, true, false] ∧
    ∀ client t, Window.held 10000 (granted visited.log client) t ≤ 5 :=
  ⟨by decide +kernel, (clients_independent visited_reach).2⟩

theorem entries_kept : ∃ c, visited.redis (keyOf "client-a") = some c ∧ Kept visited (keyOf "client-a") c := by
  have hsome : (visited.redis (keyOf "client-a")).isSome = true := by decide +kernel
  obtain ⟨c, hc⟩ := Option.isSome_iff_exists.mp hsome
  exact ⟨c, hc, sets_bounded (visited_reach.mono fun _ _ _ => trivial) hc⟩

end Playground.Limiter
