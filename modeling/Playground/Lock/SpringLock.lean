/-
  Playground.Lock.SpringLock — Spring's `DistributedLockService` and the inventory
  endpoints of its `Case1Controller` (`DistributedLockService.java`,
  `PurchaseResult.java`, `Case1Controller.java`).

  A request is served by one thread. A Redis command may throw, before or after it took
  effect, and a sleep may be interrupted; between two commands other clients leave Redis
  as they like. The token of a lock (`UUID.randomUUID`) is an argument of the call that
  draws it. An `int` has 32 bits and wraps around.
-/

import Playground.Lib.Contract
import Playground.Lock.LockService
import Playground.Rooms.ChatHandler

namespace Playground.Lock.Spring

open Playground.Lib Playground.Redis
open Playground.Rooms.Spring (isBlank)

/-! ## Commands -/

inductive Exc where
  /-- Whatever Redis's client throws. -/
  | redis (message : String)
  | interrupted
  | numberFormat (s : String)
  deriving DecidableEq, Repr

inductive Cmd where
  | setIfAbsent (key token : String) (ttlMs : Nat)
  | get (key : String)
  | set (key value : String)
  | releaseScript (key token : String)
  | sleep (ms : Nat)
  deriving DecidableEq

@[reducible] def Ans : Cmd → Type
  | .setIfAbsent .. => Bool
  | .get _ => Option String
  | .set .. => Unit
  | .releaseScript .. => Nat
  | .sleep _ => Unit

abbrev Prog (α : Type) := Co Cmd Ans Exc α

def await (c : Cmd) : Prog (Ans c) := Co.await c

abbrev Mem := Strings String String

/-- How a Redis command goes wrong: whether it took effect, and the message. At a sleep,
    an interruption. -/
abbrev Fault := Option (Bool × String)

/-- A Redis command's outcome, from its answer and the memory it leaves. -/
def outcome {α : Type} (x : Fault) (m : Mem) (r : α × Mem) : Except Exc α × Mem :=
  match x with
  | none => (.ok r.1, r.2)
  | some (effect, message) => (.error (.redis message), if effect then r.2 else m)

/-- Another client leaves Redis so. -/
inductive World where
  | other (redis : Mem)

def memory {ι : Type} : Memory ι Cmd Ans Exc Fault World Mem where
  exec _ c x m := some <| match c with
    | .setIfAbsent key token ttlMs => outcome x m (m.setNxPx key token ttlMs)
    | .get key => outcome x m (m.get key, m)
    | .set key value => outcome x m ((), m.set key value)
    | .releaseScript key token => outcome x m (releaseLockLua m key token)
    | .sleep _ => (if x.isNone then .ok () else .error .interrupted, m)
  env
    | .other redis, _ => some redis

/-! ## `DistributedLockService` -/

section Service

/-- Whether the sleep was interrupted. -/
def sleepInterrupted (ms : Nat) : Prog Bool :=
  Co.handle (do await (.sleep ms); pure false) fun
    | .interrupted => pure true
    | e => Co.raise e

/-- The attempts of `acquireLock` still to make. -/
def acquireLoop (lockKey : String) (token : Token) (ttlMs retryDelayMs : Nat) : Nat → Prog (Option Token)
  | 0 => pure none
  | n + 1 => do
    let acquired ← await (.setIfAbsent lockKey token ttlMs)
    if acquired then
      pure (some token)
    else do
      let interrupted ← sleepInterrupted retryDelayMs
      if interrupted then pure none else acquireLoop lockKey token ttlMs retryDelayMs n

def acquireLock (resource : String) (token : Token) (ttlMs maxRetries retryDelayMs : Nat) : Prog (Option Token) :=
  acquireLoop (lockKeyOf resource) token ttlMs retryDelayMs maxRetries

def releaseLock (resource : String) (token : Token) : Prog Bool := do
  let result ← await (.releaseScript (lockKeyOf resource) token)
  pure (result == 1)

structure PurchaseResult where
  success : Bool
  message : String
  remainingStock : Int32
  deriving DecidableEq, Repr

namespace PurchaseResult

def timeout : PurchaseResult := ⟨false, "Server busy, please retry in a moment", 0⟩

def ok (remainingStock : Int32) : PurchaseResult := ⟨true, "Purchase successful", remainingStock⟩

def outOfStock (currentStock : Int32) : PurchaseResult := ⟨false, "Out of stock", currentStock⟩

end PurchaseResult

variable (text : IntText)

/-- `String.valueOf`. -/
def valueOf (n : Int32) : String := text.str n.toInt

/-- `Integer.parseInt`; `none` is a `NumberFormatException`. -/
def parseInt (s : String) : Option Int32 :=
  (text.int s).bind fun n => if -(2147483648) ≤ n ∧ n ≤ 2147483647 then some (.ofInt n) else none

def initInventory (itemId : String) (stock : Int32) : Prog Unit := await (.set (stockKey itemId) (valueOf text stock))

/-- `val != null ? Integer.parseInt(val) : 0`. -/
def stockOf : Option String → Except Exc Int32
  | none => .ok 0
  | some val => match parseInt text val with
    | some n => .ok n
    | none => .error (.numberFormat val)

def getInventory (itemId : String) : Prog Int32 := do
  let val ← await (.get (stockKey itemId))
  Co.resume (stockOf text val)

/-- `purchaseWithoutLock`, which is the `try` of `purchaseWithLock` too. -/
def purchaseWithoutLock (itemId : String) (quantity : Int32) : Prog PurchaseResult := do
  let currentStock ← getInventory text itemId
  if currentStock < quantity then
    pure (.outOfStock currentStock)
  else do
    -- an interruption is ignored
    let _ ← sleepInterrupted 10
    let newStock := currentStock - quantity
    await (.set (stockKey itemId) (valueOf text newStock))
    pure (.ok newStock)

def purchaseWithLock (token : Token) (itemId : String) (quantity : Int32) : Prog PurchaseResult := do
  match ← acquireLock ("inventory:" ++ itemId) token 5000 20 50 with
  | none => pure .timeout
  | some token => (purchaseWithoutLock text itemId quantity).andFinally do
    let _ ← releaseLock ("inventory:" ++ itemId) token
    pure ()

end Service

/-! ## `Case1Controller` -/

section Controller

/-- `s != null && !s.isBlank() ? s : "item-1"`. -/
def itemOr1 : Option String → String
  | none => "item-1"
  | some s => if isBlank s then "item-1" else s

/-- As its constructor leaves it. -/
structure InventoryInitRequest where
  itemId : String
  stock : Int32
  named : isBlank itemId = false
  counts : 0 ≤ stock

/-- As its constructor leaves it. -/
structure PurchaseRequest where
  itemId : String
  quantity : Int32
  named : isBlank itemId = false
  positive : 0 < quantity

theorem itemOr1_named (s : Option String) : isBlank (itemOr1 s) = false := by
  cases s with
  | none => decide
  | some s =>
    cases h : isBlank s with
    | true => simp only [itemOr1, h, if_true]; decide
    | false => simp only [itemOr1, h, Bool.false_eq_true, if_false]

namespace InventoryInitRequest

/-- The record's constructor; `none` is a null. -/
def make (itemId : Option String) : Option Int32 → InventoryInitRequest
  | none => ⟨itemOr1 itemId, 10, itemOr1_named itemId, by decide⟩
  | some stock =>
    if h : 0 ≤ stock then ⟨itemOr1 itemId, stock, itemOr1_named itemId, h⟩
    else ⟨itemOr1 itemId, 10, itemOr1_named itemId, by decide⟩

def default : InventoryInitRequest := make (some "item-1") (some 10)

def ofNullable (req : Option InventoryInitRequest) : InventoryInitRequest := req.getD default

end InventoryInitRequest

namespace PurchaseRequest

/-- The record's constructor; `none` is a null. -/
def make (itemId : Option String) : Option Int32 → PurchaseRequest
  | none => ⟨itemOr1 itemId, 1, itemOr1_named itemId, by decide⟩
  | some quantity =>
    if h : 0 < quantity then ⟨itemOr1 itemId, quantity, itemOr1_named itemId, h⟩
    else ⟨itemOr1 itemId, 1, itemOr1_named itemId, by decide⟩

def default : PurchaseRequest := make (some "item-1") (some 1)

def ofNullable (req : Option PurchaseRequest) : PurchaseRequest := req.getD default

end PurchaseRequest

inductive Request where
  | initInventory (req : Option InventoryInitRequest)
  | getInventory (itemId : String)
  | purchaseSafe (token : Token) (req : Option PurchaseRequest)
  | purchaseUnsafe (req : Option PurchaseRequest)

/-- What is answered: with status 200, but for `tooManyRequests`. -/
inductive Response where
  | initialized (nodeId itemId : String) (stock : Int32) (message : String)
  | inventory (nodeId itemId : String) (stock : Int32)
  | purchased (nodeId : String) (success : Bool) (message : String) (remainingStock : Int32)
  /-- Status 429. -/
  | tooManyRequests (message : String)
  deriving DecidableEq, Repr

variable (text : IntText) (nodeId : String)

def purchased (res : PurchaseResult) : Response := .purchased nodeId res.success res.message res.remainingStock

/-- The endpoint compares with the object `TIMEOUT`, which no other result equals. -/
def respondSafe (res : PurchaseResult) : Response :=
  if res.success = false ∧ res = .timeout then .tooManyRequests res.message else purchased nodeId res

def purchaseSafe (token : Token) (req : Option PurchaseRequest) : Prog Response := do
  let request := PurchaseRequest.ofNullable req
  let res ← purchaseWithLock text token request.itemId request.quantity
  pure (respondSafe nodeId res)

def serve : Request → Prog Response
  | .initInventory req => do
    let request := InventoryInitRequest.ofNullable req
    initInventory text request.itemId request.stock
    pure (.initialized nodeId request.itemId request.stock "Inventory initialized")
  | .getInventory itemId => do
    let stock ← getInventory text itemId
    pure (.inventory nodeId itemId stock)
  | .purchaseSafe token req => purchaseSafe text nodeId token req
  | .purchaseUnsafe req => do
    let request := PurchaseRequest.ofNullable req
    let res ← purchaseWithoutLock text request.itemId request.quantity
    pure (purchased nodeId res)

end Controller

end Playground.Lock.Spring
