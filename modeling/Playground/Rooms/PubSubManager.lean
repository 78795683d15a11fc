/-
  Playground.Rooms.PubSubManager — the rooms of one server and a broadcast over one.

  `pubsub_manager.py` keeps a dictionary from rooms to sets of sockets.
  `broadcast_locally` iterates over a room's live set and awaits a `send_json` for each
  member; connects and disconnects run at these awaits. The sets are objects of their
  own: a room that is emptied is deleted, and one that is entered again gets a new set,
  which a running iteration does not see.
-/

import Mathlib.Logic.Function.Basic
import Playground.Lib.Machine
import Playground.Lib.PySet

namespace Playground.Rooms

open Playground.Lib

variable {R W : Type}

/-! ## The manager -/

/-- `DistributedPubSubManager`. `localRooms` names each room's set object, `sets` holds
    the set objects, and `fresh` is the next name. -/
structure Manager (R W : Type) where
  localRooms : R → Option Nat
  sets : Nat → PySet W
  fresh : Nat
  known : ∀ {r a}, localRooms r = some a → a < fresh
  apart : ∀ {r r' a}, localRooms r = some a → localRooms r' = some a → r = r'

namespace Manager

/-- `__init__`. -/
def init : Manager R W := ⟨fun _ => none, fun _ => .empty, 0, nofun, nofun⟩

/-- The sockets registered in a room. -/
def registered (m : Manager R W) (room : R) : List W :=
  match m.localRooms room with
  | none => []
  | some a => (m.sets a).members

/-- Set object `a` is now `s`. -/
def put (m : Manager R W) (a : Nat) (s : PySet W) : Manager R W :=
  { m with sets := Function.update m.sets a s }

section Rooms

variable [DecidableEq R]

/-- `self.local_rooms[room_id]` of the `defaultdict`: a room it lacks gets a new set. -/
def entry (m : Manager R W) (room : R) : Nat × Manager R W :=
  match h : m.localRooms room with
  | some a => (a, m)
  | none =>
    (m.fresh,
      { localRooms := Function.update m.localRooms room (some m.fresh)
        sets := Function.update m.sets m.fresh .empty
        fresh := m.fresh + 1
        known := by
          intro r a ha
          by_cases e : r = room
          · subst e
            rw [Function.update_self] at ha
            cases ha
            omega
          · rw [Function.update_of_ne e] at ha
            have := m.known ha
            omega
        apart := by
          intro r r' a ha ha'
          by_cases e : r = room <;> by_cases e' : r' = room
          · rw [e, e']
          · subst e
            rw [Function.update_self] at ha
            rw [Function.update_of_ne e'] at ha'
            cases ha
            have := m.known ha'
            omega
          · subst e'
            rw [Function.update_self] at ha'
            rw [Function.update_of_ne e] at ha
            cases ha'
            have := m.known ha
            omega
          · rw [Function.update_of_ne e] at ha
            rw [Function.update_of_ne e'] at ha'
            exact m.apart ha ha' })

/-- `del self.local_rooms[room_id]`. -/
def delete (m : Manager R W) (room : R) : Manager R W :=
  { m with
    localRooms := Function.update m.localRooms room none
    known := by
      intro r a ha
      by_cases e : r = room
      · subst e
        rw [Function.update_self] at ha
        cases ha
      · rw [Function.update_of_ne e] at ha
        exact m.known ha
    apart := by
      intro r r' a ha ha'
      by_cases e : r = room
      · subst e
        rw [Function.update_self] at ha
        cases ha
      by_cases e' : r' = room
      · subst e'
        rw [Function.update_self] at ha'
        cases ha'
      · rw [Function.update_of_ne e] at ha
        rw [Function.update_of_ne e'] at ha'
        exact m.apart ha ha' }

variable [DecidableEq W]

/-- `connect`, once the socket is accepted. The set's table is `layout` afterwards. -/
def connect (m : Manager R W) (room : R) (websocket : W) (layout : PySet W) : Option (Manager R W) :=
  let (a, m) := m.entry room
  ((m.sets a).add websocket layout).map (m.put a)

/-- `disconnect`. -/
def disconnect (m : Manager R W) (room : R) (websocket : W) : Manager R W :=
  match m.localRooms room with
  | none => m
  | some a =>
    let m := m.put a ((m.sets a).discard websocket)
    if (m.sets a).used = 0 then m.delete room else m

end Rooms

end Manager

/-! ## A broadcast -/

/-- Where a `broadcast_locally` is: awaiting the `send_json` to `ws`, at `it` in set
    object `a`, with the dead connections so far; or over, by its return or by the
    `RuntimeError` of the iterator. -/
inductive Task (W : Type) where
  | sending (a : Nat) (it : PySet.Iter) (dead : List W) (ws : W)
  | finished
  | raised
deriving DecidableEq

def Task.over : Task W → Bool
  | .sending .. => false
  | _ => true

variable [DecidableEq R] [DecidableEq W]

/-- On to the next member of the set; at the end of the loop the dead connections are
    cleaned up. `dead` is a set: each socket is in it once. -/
def advance (room : R) (m : Manager R W) (a : Nat) (it : PySet.Iter) (dead : List W) : Manager R W × Task W :=
  match it.next (m.sets a) with
  | .raised => (m, .raised)
  | .stop => (dead.foldl (fun m ws => m.disconnect room ws) m, .finished)
  | .item ws it => (m, .sending a it dead ws)

/-- What else runs at the awaits of a broadcast, and the outcome of the send it awaits. -/
inductive Event (R W : Type) where
  | connect (room : R) (websocket : W) (layout : PySet W)
  | disconnect (room : R) (websocket : W)
  | sent (ok : Bool)

/-- A broadcast under way: the rooms, the broadcast, the sends it has awaited with
    their outcomes, and the disconnects that ran since it began. -/
structure Broadcast (R W : Type) where
  mgr : Manager R W
  task : Task W
  sends : List (W × Bool)
  left : List (R × W)

/-- `broadcast_locally(room_id, message)` up to its first await. -/
def broadcastLocally (m : Manager R W) (room : R) : Broadcast R W :=
  match m.localRooms room with
  | none => ⟨m, .finished, [], []⟩
  | some a =>
    let (m, task) := advance room m a (m.sets a).iter []
    ⟨m, task, [], []⟩

/-- The broadcast to `room` with whatever runs at its awaits. -/
def broadcasting (room : R) : Machine (Broadcast R W) (Event R W) where
  step t
    | .connect r ws layout => (t.mgr.connect r ws layout).map fun m => { t with mgr := m }
    | .disconnect r ws => some { t with mgr := t.mgr.disconnect r ws, left := t.left ++ [(r, ws)] }
    | .sent ok =>
      match t.task with
      | .sending a it dead ws =>
        let (m, task) := advance room t.mgr a it (if ok then dead else dead.insert ws)
        some ⟨m, task, t.sends ++ [(ws, ok)], t.left⟩
      | _ => none

end Playground.Rooms
