/-
  Playground.Lock.LockService — `case1_lock/lock_service.py`: `DistributedLock` and
  the purchases of one Redis.

  Every coroutine of the module is a `Co` over Redis's commands and the client's own:
  an `await` is one command, which Redis runs whole. An object's `token` field is
  memory of the client (`loadToken`, `storeToken`), so that several tasks may use one
  object. The token an `acquire` draws (`uuid4`) is an argument. A lock object in a
  purchase is a fresh one, so the purchase names the object it makes.

  `sleep` has no effect: how long anything takes is the scheduler's choice, and the
  lock key may expire at any moment (`World.expire`).
-/

import Playground.Lib.Coroutine
import Playground.Lib.IntText
import Playground.Redis.Strings

namespace Playground.Lock

open Playground.Lib Playground.Redis

/-! ## Values -/

/-- A `uuid4` as text: never empty. -/
abbrev Token := { s : String // s ≠ "" }

/-- The last two come from Redis's client and the event loop. -/
inductive Exc where
  | timeoutError (msg : String)
  | valueError
  | redisError (msg : String)
  | cancelled
  deriving DecidableEq, Repr

structure PurchaseResult where
  success : Bool
  message : String
  remaining : Int
  deriving DecidableEq, Repr

/-! ## Commands -/

/-- `O`: the lock objects. -/
inductive Cmd (O : Type) where
  | setNxPx (key token : String) (px : Nat)
  | get (key : String)
  | set (key value : String)
  | evalRelease (key token : String)
  | sleep (ms : Nat)
  | loadToken (self : O)
  | storeToken (self : O) (token : Token)

@[reducible] def Ans {O : Type} : Cmd O → Type
  | .setNxPx .. => Bool
  | .get _ => Option String
  | .set .. => Unit
  | .evalRelease .. => Nat
  | .sleep _ => Unit
  | .loadToken _ => Option Token
  | .storeToken .. => Unit

abbrev Prog (O α : Type) := Co (Cmd O) Ans Exc α

def await {O : Type} (c : Cmd O) : Prog O (Ans c) := Co.await c

structure Mem (O : Type) where
  redis : Strings String String
  token : O → Option Token

/-- `RELEASE_LOCK_LUA`. -/
def releaseLockLua (redis : Strings String String) (key token : String) : Nat × Strings String String :=
  if redis.get key = some token then redis.del key else (0, redis)

theorem releaseLockLua_own {redis : Strings String String} {key token : String} (h : redis.get key = some token) :
    releaseLockLua redis key token = redis.del key :=
  if_pos h

/-- The script finds another token, or none. -/
theorem releaseLockLua_other {redis : Strings String String} {key token : String} (h : redis.get key ≠ some token) :
    releaseLockLua redis key token = (0, redis) :=
  if_neg h

theorem get_releaseLockLua_ne (redis : Strings String String) {key k : String} (token : String) (hk : k ≠ key) :
    (releaseLockLua redis key token).2.get k = redis.get k := by
  unfold releaseLockLua
  split
  · exact Strings.get_del_ne _ hk
  · rfl

def lockKeyOf (resource : String) : String := "lock:" ++ resource

/-- The lock key of a resource runs out. -/
inductive World where
  | expire (resource : String)
  deriving DecidableEq, Repr

section Memory

variable {ι O : Type} [DecidableEq O]

/-- No command fails here, and memory leaves nothing open. -/
def memory : Memory ι (Cmd O) Ans Exc Unit World (Mem O) where
  exec _ c _ m := match c with
    | .setNxPx key token px =>
      let r := m.redis.setNxPx key token px
      some (.ok r.1, { m with redis := r.2 })
    | .get key => some (.ok (m.redis.get key), m)
    | .set key value => some (.ok (), { m with redis := m.redis.set key value })
    | .evalRelease key token =>
      let r := releaseLockLua m.redis key token
      some (.ok r.1, { m with redis := r.2 })
    | .sleep _ => some (.ok (), m)
    | .loadToken self => some (.ok (m.token self), m)
    | .storeToken self token => some (.ok (), { m with token := Function.update m.token self (some token) })
  env
    | .expire resource, m => (m.redis.expire (lockKeyOf resource)).map fun r => { m with redis := r }

end Memory

/-! ## `DistributedLock` -/

structure DistributedLock (O : Type) where
  self : O
  resource : String
  ttlMs : Nat := 5000
  retryDelayMs : Nat := 50
  maxRetries : Nat := 20

namespace DistributedLock

variable {O α : Type} (l : DistributedLock O)

def lockKey : String := lockKeyOf l.resource

/-- The attempts of `acquire` still to make. -/
def acquireLoop (token : Token) : Nat → Prog O Bool
  | 0 => pure false
  | n + 1 => do
    let acquired ← await (.setNxPx l.lockKey token l.ttlMs)
    if acquired then
      await (.storeToken l.self token)
      pure true
    else
      await (.sleep l.retryDelayMs)
      acquireLoop token n

def acquire (token : Token) : Prog O Bool := l.acquireLoop token l.maxRetries

def release : Prog O Bool := do
  match ← await (.loadToken l.self) with
  | none => pure false
  | some token =>
    let result ← await (.evalRelease l.lockKey token)
    pure (result != 0)

def aenter (token : Token) : Prog O Unit := do
  let acquired ← l.acquire token
  if acquired then pure ()
  else Co.raise (.timeoutError ("Could not acquire lock for resource '" ++ l.resource ++ "'"))

def aexit : Prog O Unit := do
  let _ ← l.release
  pure ()

/-- `async with l: body`. -/
def asyncWith (token : Token) (body : Prog O α) : Prog O α := do
  l.aenter token
  body.andFinally l.aexit

end DistributedLock

/-! ## Inventory -/

def stockKey (item : String) : String := "stock:" ++ item

section Inventory

variable {O : Type} (py : IntText)

def initInventory (item : String) (stock : Int) : Prog O Unit :=
  await (.set (stockKey item) (py.str stock))

/-- What `get_inventory` makes of the stored text. -/
def readStock : Option String → Prog O Int
  | none => pure 0
  | some val => match py.int val with
    | some n => pure n
    | none => Co.raise .valueError

def getInventory (item : String) : Prog O Int := do
  let val ← await (.get (stockKey item))
  readStock py val

/-- The body of `purchase_with_lock` and all of `purchase_without_lock`. -/
def purchaseWithoutLock (item : String) (quantity : Int) : Prog O PurchaseResult := do
  let currentStock ← getInventory py item
  if currentStock < quantity then
    pure ⟨false, "Out of stock", currentStock⟩
  else
    await (.sleep 10)
    let newStock := currentStock - quantity
    await (.set (stockKey item) (py.str newStock))
    pure ⟨true, "Purchase successful", newStock⟩

/-- The lock `purchase_with_lock` makes. -/
def itemLock (self : O) (item : String) : DistributedLock O := { self := self, resource := "inventory:" ++ item }

def purchaseWithLock (self : O) (token : Token) (item : String) (quantity : Int) : Prog O PurchaseResult :=
  (itemLock self item).asyncWith token (purchaseWithoutLock py item quantity)

end Inventory

/-- A lock key is no stock key: the prefixes differ in their first letter. -/
theorem lockKey_ne_stockKey (resource item : String) : lockKeyOf resource ≠ stockKey item := by
  intro h
  have := congrArg (fun s => s.toList.head?) h
  simp [lockKeyOf, stockKey] at this

theorem lockKeyOf_inj {a b : String} (h : lockKeyOf a = lockKeyOf b) : a = b := by
  have := congrArg String.toList h
  simp only [lockKeyOf, String.toList_append, List.append_cancel_left_eq] at this
  exact String.toList_inj.mp this

end Playground.Lock
