/-
  Playground.Lock.SpringRange — Spring's stock is never out of range.

  Any requests in any interleaving, purchases with and without the lock among them:
  locks may run out at any time, Redis commands may throw and sleeps be interrupted.
  Other clients keep stocks in range too.
  - `stocks_bounded`: no stock is ever negative or above the largest it was set to, no
    answer shows such a stock, no `int` wraps around and none fails to parse.
-/

import Playground.Lock.Count
import Playground.Lock.SpringLock

namespace Playground.Lock.Spring

open Playground.Lib Playground.Redis
open Playground.Lock.Nest (stockKey_inj)

variable {ι : Type} (text : IntText)

/-! ## Numbers as text -/

theorem parseInt_valueOf (n : Int32) : parseInt text (valueOf text n) = some n := by
  have hlow := n.le_toInt
  have hhigh := n.toInt_lt
  rw [parseInt, valueOf, text.int_str, Option.bind_some, if_pos (by omega), Int32.ofInt_toInt]

/-- Not negative and at most `hi`. -/
def Within (hi : Nat) (n : Int32) : Prop := 0 ≤ n ∧ n.toInt ≤ hi

theorem within_zero (hi : Nat) : Within hi 0 := ⟨by decide, Int.natCast_nonneg hi⟩

/-- A purchase does not wrap around. -/
theorem Within.sub {hi : Nat} {n q : Int32} (h : Within hi n) (hq : 0 < q) (hle : ¬ n < q) :
    Within hi (n - q) ∧ (n - q).toInt + q.toInt = n.toInt := by
  have h0 : (0 : Int) < q.toInt := Int32.lt_iff_toInt_lt.mp hq
  have hle : q ≤ n := Int32.not_lt.mp hle
  have hsub := Int32.toInt_sub_of_le n q (Int32.le_of_lt hq) hle
  have hqn : q.toInt ≤ n.toInt := Int32.le_iff_toInt_le.mp hle
  have hn : n.toInt ≤ hi := h.2
  refine ⟨⟨Int32.le_iff_toInt_le.mpr ?_, by omega⟩, by omega⟩
  rw [hsub, Int32.toInt_zero]
  omega

/-- The text of a stock, if there is one. -/
def InRange (hi : Nat) (val : Option String) : Prop := ∀ v, val = some v → ∃ n, Within hi n ∧ v = valueOf text n

variable {text} {hi : Nat}

theorem InRange.stockOf {val : Option String} (h : InRange text hi val) :
    ∃ n, stockOf text val = .ok n ∧ Within hi n := by
  cases val with
  | none => exact ⟨0, rfl, within_zero hi⟩
  | some v =>
    obtain ⟨n, hn, rfl⟩ := h v rfl
    exact ⟨n, by rw [Spring.stockOf, parseInt_valueOf], hn⟩

theorem inRange_valueOf {n : Int32} (h : Within hi n) : InRange text hi (some (valueOf text n)) := by
  rintro v ⟨⟩
  exact ⟨n, h, rfl⟩

/-! ## The contract -/

/-- Stocks are only set in range, and read in range; only Redis and the sleep throw. -/
def inventory (text : IntText) (hi : String → Nat) : Contract Cmd Ans Exc where
  asks
    | .setIfAbsent key .. => ∀ item, stockKey item ≠ key
    | .get key => ∃ item, key = stockKey item
    | .set key value => ∃ item n, Within (hi item) n ∧ key = stockKey item ∧ value = valueOf text n
    | .releaseScript key _ => ∀ item, stockKey item ≠ key
    | .sleep _ => True
  gives
    | .get key, .ok val => ∀ item, key = stockKey item → InRange text (hi item) val
    | .sleep _, .error e => e = .interrupted
    | _, .error e => ∃ message, e = .redis message
    | _, .ok _ => True

/-- What may be thrown at a client. -/
def RedisOnly {α : Type} (q : α → Prop) : Except Exc α → Prop
  | .ok a => q a
  | .error e => ∃ message, e = .redis message

section Programs

variable {hi : String → Nat}

theorem keeps_sleepInterrupted (ms : Nat) :
    (sleepInterrupted ms).Keeps (inventory text hi) (RedisOnly fun _ => True) := by
  refine ⟨trivial, fun r hr => ?_⟩
  cases r with
  | ok _ => trivial
  | error e =>
    obtain rfl : e = .interrupted := hr
    trivial

theorem keeps_getInventory (itemId : String) :
    (getInventory text itemId).Keeps (inventory text hi) (RedisOnly (Within (hi itemId))) := by
  refine ⟨⟨itemId, rfl⟩, fun r hr => ?_⟩
  cases r with
  | ok val =>
    obtain ⟨n, hn, hwithin⟩ := (hr itemId rfl : InRange text (hi itemId) val).stockOf
    show (Co.resume (stockOf text val)).Keeps _ _
    rw [hn]
    exact hwithin
  | error e => exact hr

/-- What a purchase may answer. -/
def Fair (hi : Nat) (quantity : Int32) (res : PurchaseResult) : Prop :=
  Within hi res.remainingStock ∧ (res.success = true → res.remainingStock.toInt + quantity.toInt ≤ hi)

theorem keeps_purchaseWithoutLock (itemId : String) {quantity : Int32} (hq : 0 < quantity) :
    (purchaseWithoutLock text itemId quantity).Keeps (inventory text hi) (RedisOnly (Fair (hi itemId) quantity)) := by
  refine (keeps_getInventory itemId).bind (fun currentStock hcur => ?_) fun _ h => h
  by_cases hlt : currentStock < quantity
  · rw [if_pos hlt]
    exact ⟨hcur, nofun⟩
  · rw [if_neg hlt]
    obtain ⟨hwithin, hsum⟩ := hcur.sub hq hlt
    refine (keeps_sleepInterrupted 10).bind (fun _ _ => ?_) fun _ h => h
    refine ⟨⟨itemId, currentStock - quantity, hwithin, rfl, rfl⟩, fun r hr => ?_⟩
    cases r with
    | ok _ => exact ⟨hwithin, fun _ => hsum.trans_le hcur.2⟩
    | error e => exact hr

theorem keeps_acquireLoop (resource : String) (token : Token) (ttlMs retryDelayMs n : Nat) :
    (acquireLoop (lockKeyOf resource) token ttlMs retryDelayMs n).Keeps (inventory text hi)
      (RedisOnly fun _ => True) := by
  induction n with
  | zero => trivial
  | succ n ih =>
    refine ⟨fun item => (lockKey_ne_stockKey resource item).symm, fun r hr => ?_⟩
    cases r with
    | ok acquired =>
      cases acquired with
      | true => trivial
      | false =>
        refine (keeps_sleepInterrupted retryDelayMs).bind (fun interrupted _ => ?_) fun _ h => h
        cases interrupted with
        | true => trivial
        | false => exact ih
    | error e => exact hr

theorem keeps_releaseLock (resource : String) (token : Token) :
    (releaseLock resource token).Keeps (inventory text hi) (RedisOnly fun _ => True) := by
  refine ⟨fun item => (lockKey_ne_stockKey resource item).symm, fun r hr => ?_⟩
  cases r with
  | ok _ => trivial
  | error e => exact hr

theorem keeps_purchaseWithLock (token : Token) (itemId : String) {quantity : Int32} (hq : 0 < quantity) :
    (purchaseWithLock text token itemId quantity).Keeps (inventory text hi)
      (RedisOnly (Fair (hi itemId) quantity)) := by
  refine (keeps_acquireLoop _ token 5000 50 20).bind (fun got _ => ?_) fun _ h => h
  cases got with
  | none => exact ⟨within_zero _, nofun⟩
  | some token =>
    have hunlock : (releaseLock ("inventory:" ++ itemId) token).Keeps (inventory text hi) (RedisOnly fun _ => True) :=
      keeps_releaseLock ..
    have hrelease : ((releaseLock ("inventory:" ++ itemId) token).bind fun _ => Co.ret ()).Keeps (inventory text hi)
        (RedisOnly fun _ => True) := hunlock.bind (fun _ _ => trivial) fun _ h => h
    exact (keeps_purchaseWithoutLock itemId hq).andFinally hrelease fun _ h => h

/-- No stock is set above its bound. -/
def Request.Bounded (hi : String → Nat) : Request → Prop
  | .initInventory req =>
    (InventoryInitRequest.ofNullable req).stock.toInt ≤ hi (InventoryInitRequest.ofNullable req).itemId
  | _ => True

/-- The answer shows a stock in range, and one that the items sold were taken from. -/
def Request.Answers (hi : String → Nat) : Request → Response → Prop
  | .initInventory req, .initialized _ itemId stock _ =>
    itemId = (InventoryInitRequest.ofNullable req).itemId ∧ stock = (InventoryInitRequest.ofNullable req).stock
  | .getInventory itemId, .inventory _ item stock => item = itemId ∧ Within (hi itemId) stock
  | .purchaseSafe _ req, .purchased _ success _ remaining | .purchaseUnsafe req, .purchased _ success _ remaining =>
    let request := PurchaseRequest.ofNullable req
    Within (hi request.itemId) remaining ∧
      (success = true → remaining.toInt + request.quantity.toInt ≤ hi request.itemId)
  | .purchaseSafe .., .tooManyRequests _ => True
  | _, _ => False

theorem keeps_serve (nodeId : String) (req : Request) (hreq : req.Bounded hi) :
    (serve text nodeId req).Keeps (inventory text hi) (RedisOnly (req.Answers hi)) := by
  cases req with
  | initInventory req =>
    let request := InventoryInitRequest.ofNullable req
    refine ⟨⟨request.itemId, request.stock, ⟨request.counts, hreq⟩, rfl, rfl⟩, fun r hr => ?_⟩
    cases r with
    | ok _ => exact ⟨rfl, rfl⟩
    | error e => exact hr
  | getInventory itemId => exact (keeps_getInventory itemId).bind (fun _ h => ⟨rfl, h⟩) fun _ h => h
  | purchaseSafe token req =>
    refine (keeps_purchaseWithLock token _ (PurchaseRequest.ofNullable req).positive).bind
      (fun res hres => ?_) fun _ h => h
    show RedisOnly _ (.ok (respondSafe nodeId res))
    unfold respondSafe
    split
    · trivial
    · exact hres
  | purchaseUnsafe req =>
    exact (keeps_purchaseWithoutLock _ (PurchaseRequest.ofNullable req).positive).bind (fun _ h => h) fun _ h => h

end Programs

/-! ## Runs -/

section Runs

variable {hi : String → Nat}

/-- The stocks are in range. -/
def Stocked (text : IntText) (hi : String → Nat) (m : Mem) : Prop :=
  ∀ item, InRange text (hi item) (m.get (stockKey item))

theorem Stocked.of_eq {m m' : Mem} (h : Stocked text hi m)
    (hm : ∀ item, m'.get (stockKey item) = m.get (stockKey item)) :
    Stocked text hi m' := by
  intro item
  rw [hm]
  exact h item

/-- A Redis command that may be asked keeps the stocks in range, also when it throws. -/
theorem stocked_outcome {α : Type} {x : Fault} {m : Mem} {r : α × Mem} (hm : Stocked text hi m)
    (hr : Stocked text hi r.2) : Stocked text hi (outcome x m r).2 := by
  rcases x with - | ⟨_ | _, message⟩
  · exact hr
  · exact hm
  · exact hr

theorem stocked_exec {i : ι} {c : Cmd} {x : Fault} {m : Mem} {rm : Except Exc (Ans c) × Mem}
    (hc : (inventory text hi).asks c) (hm : Stocked text hi m) (hx : memory.exec i c x m = some rm) :
    (inventory text hi).gives c rm.1 ∧ Stocked text hi rm.2 := by
  cases c with
  | setIfAbsent key token ttlMs =>
    cases hx
    refine ⟨?_, stocked_outcome hm (hm.of_eq fun item => Strings.get_setNxPx_ne m token ttlMs (hc item))⟩
    rcases x with - | ⟨effect, message⟩
    · trivial
    · exact ⟨message, rfl⟩
  | get key =>
    cases hx
    refine ⟨?_, stocked_outcome hm hm⟩
    rcases x with - | ⟨effect, message⟩
    · rintro item rfl
      exact hm item
    · exact ⟨message, rfl⟩
  | set key value =>
    cases hx
    obtain ⟨item, n, hn, rfl, rfl⟩ := hc
    refine ⟨?_, stocked_outcome hm fun other => ?_⟩
    · rcases x with - | ⟨effect, message⟩
      · trivial
      · exact ⟨message, rfl⟩
    · by_cases e : other = item
      · subst e
        rw [Strings.get_set_same]
        exact inRange_valueOf hn
      · rw [Strings.get_set_ne m _ fun h => e (stockKey_inj h)]
        exact hm other
  | releaseScript key token =>
    cases hx
    refine ⟨?_, stocked_outcome hm (hm.of_eq fun item => get_releaseLockLua_ne m token (hc item))⟩
    rcases x with - | ⟨effect, message⟩
    · trivial
    · exact ⟨message, rfl⟩
  | sleep ms =>
    cases hx
    refine ⟨?_, hm⟩
    cases x with
    | none => trivial
    | some x => exact rfl

variable [DecidableEq ι]

/-- In such a step other clients keep the stocks in range; a lock may run out. -/
def OthersFair (text : IntText) (hi : String → Nat) (_ : Threads ι Cmd Ans Exc Response World Mem) :
    Ev ι Fault World → Prop
  | .run _ _ => True
  | .env (.other redis) => Stocked text hi redis

/-- Whatever races, no stock leaves its range, no answer shows one that did, and only Redis's
    own exceptions get out of a request. -/
theorem stocks_bounded (nodeId : ι → String) {reqs : ι → Request} (hreqs : ∀ i, (reqs i).Bounded hi) {m : Mem}
    (hm : Stocked text hi m) {s : Threads ι Cmd Ans Exc Response World Mem}
    (h : (threads memory).Reach (OthersFair text hi) (start m fun i => serve text (nodeId i) (reqs i)) s) :
    Stocked text hi s.mem ∧ (∀ i res, s.thr i = .ret res → (reqs i).Answers hi res) ∧
      ∀ i e, s.thr i = .raise e → ∃ message, e = .redis message := by
  obtain ⟨hmem, hthr⟩ := threads_keep (q := fun i => RedisOnly ((reqs i).Answers hi)) stocked_exec
    (fun {s e m} hok _ hx => by
      cases e
      cases hx
      exact hok) hm (fun i => keeps_serve (nodeId i) (reqs i) (hreqs i)) h
  refine ⟨hmem, fun i res hi => ?_, fun i e hi => ?_⟩
  · have := hthr i
    rw [hi] at this
    exact this
  · have := hthr i
    rw [hi] at this
    exact this

end Runs

/-! ## A race -/

/-- One buys three with the lock, the other two without it. -/
def racing : Bool → Request
  | true => .purchaseSafe ⟨"r1", by decide⟩ (some (.make (some "x") (some 3)))
  | false => .purchaseUnsafe (some (.make (some "x") (some 2)))

def fiveInStock : Mem := Strings.set (fun _ => none) (stockKey "x") "5"

/-- Both read the stock; the lock runs out, and its holder's sleep is interrupted. -/
def interleaved : List (Ev Bool Fault World) :=
  [.run true none, .run true none, .run false none, .env (.other fiveInStock), .run true (some (false, "")),
    .run false none, .run true none, .run false none, .run true none]

def raced : Threads Bool Cmd Ans Exc Response World Mem :=
  ((threads memory).run (start fiveInStock fun i => serve .decimal "node-1" (racing i)) interleaved).get
    (by decide +kernel)

/-- Both have bought of the same five items, and the stock is in range. -/
theorem raced_in_range : raced.thr true = .ret (.purchased "node-1" true "Purchase successful" 2) ∧
    raced.thr false = .ret (.purchased "node-1" true "Purchase successful" 3) ∧
    Stocked .decimal (fun _ => 5) raced.mem := by
  have hfive : Stocked .decimal (fun _ => 5) fiveInStock := by
    intro item
    by_cases e : item = "x"
    · subst e
      exact inRange_valueOf (n := 5) ⟨by decide, by decide⟩
    · rw [fiveInStock, Strings.get_set_ne _ _ fun h => e (stockKey_inj h)]
      exact nofun
  have hr : (threads memory).Reach (OthersFair .decimal fun _ => 5)
      (start fiveInStock fun i => serve .decimal "node-1" (racing i)) raced :=
    Machine.reach_of_run interleaved (fun _ => by simp [interleaved, OthersFair, hfive]) (Option.some_get _).symm
  refine ⟨rfl, rfl, (stocks_bounded _ ?_ hfive hr).1⟩
  intro i
  cases i <;> trivial

end Playground.Lock.Spring
