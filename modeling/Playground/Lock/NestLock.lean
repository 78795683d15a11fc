/-
  Playground.Lock.NestLock — `LockService` and the inventory endpoints of
  `Case1Controller` (`lock.service.ts`, `case1.controller.ts`).

  An `await` is one command of Redis or of the timer; a Redis command may throw, before
  or after it took effect, and between two commands other clients leave Redis as they
  like. The token of a lock (`randomUUID`) is an argument of the call that draws it.
  Numbers are those of JSON integers: whole doubles, which Redis keeps as text.
-/

import Playground.Lib.Double
import Playground.Lock.LockService

namespace Playground.Lock.Nest

open Playground.Lib Playground.Redis

/-! ## Commands -/

inductive Exc where
  | error (message : String)
  | httpException (response : String) (status : Nat)
  deriving DecidableEq, Repr

inductive Cmd where
  | setNxPx (key token : String) (px : Nat)
  | get (key : String)
  | set (key value : String)
  | evalRelease (key token : String)
  | setTimeout (ms : Nat)
  deriving DecidableEq

/-- The answers; `SET NX` answers `OK` or null. -/
@[reducible] def Ans : Cmd → Type
  | .setNxPx .. => Option String
  | .get _ => Option String
  | .set .. => Unit
  | .evalRelease .. => Nat
  | .setTimeout _ => Unit

abbrev Prog (α : Type) := Co Cmd Ans Exc α

def await (c : Cmd) : Prog (Ans c) := Co.await c

abbrev Mem := Strings String String

/-- How a Redis command goes wrong: whether it took effect, and what it throws. -/
abbrev Fault := Option (Bool × Exc)

/-- A command's outcome, from its answer and the memory it leaves. -/
def outcome {α : Type} (x : Fault) (m : Mem) (r : α × Mem) : Except Exc α × Mem :=
  match x with
  | none => (.ok r.1, r.2)
  | some (effect, e) => (.error e, if effect then r.2 else m)

/-- Another client leaves Redis so. -/
inductive World where
  | other (redis : Mem)

def memory {ι : Type} : Memory ι Cmd Ans Exc Fault World Mem where
  exec _ c x m := some <| match c with
    | .setNxPx key token px =>
      let r := m.setNxPx key token px
      outcome x m (if r.1 then some "OK" else none, r.2)
    | .get key => outcome x m (m.get key, m)
    | .set key value => outcome x m ((), m.set key value)
    | .evalRelease key token => outcome x m (releaseLockLua m key token)
    | .setTimeout _ => (.ok (), m)
  env
    | .other redis, _ => some redis

/-! ## `LockService` -/

section LockService

/-- The attempts of `acquireLock` still to make. -/
def acquireLoop (lockKey : String) (token : Token) (ttlMs retryDelayMs : Nat) : Nat → Prog (Option Token)
  | 0 => pure none
  | n + 1 => do
    let result ← await (.setNxPx lockKey token ttlMs)
    if result = some "OK" then
      pure (some token)
    else do
      await (.setTimeout retryDelayMs)
      acquireLoop lockKey token ttlMs retryDelayMs n

def acquireLock (resource : String) (token : Token) (ttlMs maxRetries retryDelayMs : Nat) : Prog (Option Token) :=
  acquireLoop (lockKeyOf resource) token ttlMs retryDelayMs maxRetries

def releaseLock (resource : String) (token : Token) : Prog Bool := do
  let result ← await (.evalRelease (lockKeyOf resource) token)
  pure (result == 1)

structure PurchaseResult where
  success : Bool
  message : String
  remaining : Double
  deriving DecidableEq, Repr

variable (text : DoubleText)

def initInventory (itemId : String) (stock : Double) : Prog Unit :=
  await (.set (stockKey itemId) (text.toString stock))

/-- `val !== null ? parseInt(val, 10) : 0`. -/
def stockOf : Option String → Double
  | some val => text.parseInt val
  | none => .int 0

def getInventory (itemId : String) : Prog Double := do
  let val ← await (.get (stockKey itemId))
  pure (stockOf text val)

/-- The `try` of `purchaseWithLock`. -/
def purchase (itemId : String) (quantity : Double) : Prog PurchaseResult := do
  let currentStock ← getInventory text itemId
  if currentStock.lt quantity then
    pure ⟨false, "Out of stock", currentStock⟩
  else do
    await (.setTimeout 10)
    let newStock := currentStock.sub quantity
    await (.set (stockKey itemId) (text.toString newStock))
    pure ⟨true, "Purchase successful", newStock⟩

/-- `acquireLock` has its default arguments. -/
def purchaseWithLock (token : Token) (itemId : String) (quantity : Double) : Prog PurchaseResult := do
  match ← acquireLock ("inventory:" ++ itemId) token 5000 20 50 with
  | none => Co.raise (.error "Lock acquisition timeout")
  | some token => (purchase text itemId quantity).andFinally do
    let _ ← releaseLock ("inventory:" ++ itemId) token
    pure ()

end LockService

/-! ## `Case1Controller` -/

section Controller

variable (text : DoubleText) (nodeId : String)

structure InitResponse where
  nodeId : String
  itemId : String
  stock : Double
  message : String
  deriving DecidableEq, Repr

def setupInventory (itemId : String) (stock : Double) : Prog InitResponse := do
  initInventory text itemId stock
  pure ⟨nodeId, itemId, stock, "Inventory initialized"⟩

/-- `body.quantity || 1`. -/
def quantityOr1 : Option Double → Double
  | some quantity => if quantity.truthy then quantity else .int 1
  | none => .int 1

structure PurchaseResponse where
  nodeId : String
  success : Bool
  message : String
  remainingStock : Double
  deriving DecidableEq, Repr

/-- `HttpStatus.TOO_MANY_REQUESTS`, 429. -/
def tooManyRequests : Exc := .httpException "Server busy, please retry in a moment" 429

def buySafe (token : Token) (itemId : String) (quantity : Option Double) : Prog PurchaseResponse :=
  Co.handle (do
    let res ← purchaseWithLock text token itemId (quantityOr1 quantity)
    pure ⟨nodeId, res.success, res.message, res.remaining⟩)
  fun _ => Co.raise tooManyRequests

end Controller

end Playground.Lock.Nest
