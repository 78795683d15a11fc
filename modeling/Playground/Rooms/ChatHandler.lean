/-
  Playground.Rooms.ChatHandler — Spring's chat handler and its broadcast endpoint
  (`WebSocketChatHandler.java`, `Case3Controller.java`).

  A connection is registered in the room that its query names, and what a client sends
  is published to the room kept in its session's attributes. The published texts are put
  together by `String.format`, here as the template's parts around its arguments.
-/

import Playground.Lib.Split
import Playground.Rooms.Channel

namespace Playground.Rooms.Spring

open Playground.Lib

/-! ## The room of a connection -/

/-- The value of a parameter that `split("=")` takes apart into `room` and a value. -/
def roomParam (param : List Char) : Option (List Char) :=
  match split '=' param with
  | [name, value] => if name = "room".toList then some value else none
  | _ => none

/-- `extractRoom`, from the decoded query; `none` when the session has none. -/
def extractRoom : Option String → String
  | none => "default"
  | some query => (((split '&' query.toList).findSome? roomParam).map String.ofList).getD "default"

/-! ## Published texts -/

def connectedText (room nodeId : String) : String :=
  "\x7b\"type\":\"system\",\"message\":\"New user connected to room '" ++ room ++ "' via node [" ++ nodeId ++
    "]\",\"node_id\":\"" ++ nodeId ++ "\"\x7d"

def disconnectedText (room nodeId : String) : String :=
  "\x7b\"type\":\"system\",\"message\":\"User disconnected from room '" ++ room ++ "' on node [" ++ nodeId ++
    "]\",\"node_id\":\"" ++ nodeId ++ "\"\x7d"

def chatText (content nodeId : String) : String :=
  "\x7b\"type\":\"chat\",\"content\":\"" ++ content ++ "\",\"from_node\":\"" ++ nodeId ++ "\"\x7d"

def broadcastText (sender content nodeId : String) : String :=
  "\x7b\"type\":\"broadcast\",\"sender\":\"" ++ sender ++ "\",\"content\":\"" ++ content ++ "\",\"origin_node\":\"" ++
    nodeId ++ "\"\x7d"

/-! ## The handler -/

/-- The rooms of a node, and each session's attribute `room`. -/
structure Handler (W : Type) where
  rooms : String → Option (List W)
  attributes : W → Option String

namespace Handler

variable {W : Type}

/-- The sessions that `rooms.get(room)` holds. -/
def sessions (h : Handler W) (room : String) : List W := (h.rooms room).getD []

variable [DecidableEq W] (nodeId : String) (h : Handler W) (session : W)

/-- `afterConnectionEstablished`: the handler after it, and what it publishes. -/
def afterConnectionEstablished (query : Option String) : Handler W × (String × String) :=
  let room := extractRoom query
  (⟨Function.update h.rooms room (some ((h.sessions room).insert session)),
    Function.update h.attributes session (some room)⟩, publish room (connectedText room nodeId))

/-- `afterConnectionClosed`. -/
def afterConnectionClosed : Handler W × Option (String × String) :=
  match h.attributes session with
  | none => (h, none)
  | some room =>
    match h.rooms room with
    | none => (h, none)
    | some sessions => ({ h with rooms := Function.update h.rooms room (some (sessions.erase session)) },
        some (publish room (disconnectedText room nodeId)))

omit [DecidableEq W] in
/-- `handleTextMessage`: what it publishes. -/
def handleTextMessage (payload : String) : Option (String × String) :=
  (h.attributes session).map fun room => publish room (chatText payload nodeId)

end Handler

/-! ## The endpoint -/

/-- `Character.isWhitespace`. -/
def isWhitespace (c : Char) : Bool :=
  (9 ≤ c.toNat && c.toNat ≤ 13) || (28 ≤ c.toNat && c.toNat ≤ 32) || c.toNat == 0x1680 ||
    (0x2000 ≤ c.toNat && c.toNat ≤ 0x200A && c.toNat != 0x2007) || c.toNat == 0x2028 || c.toNat == 0x2029 ||
    c.toNat == 0x205F || c.toNat == 0x3000

def isBlank (s : String) : Bool := s.toList.all isWhitespace

structure BroadcastRequest where
  roomId : String
  sender : String
  content : String
  deriving DecidableEq, Repr

namespace BroadcastRequest

/-- `s != null && !s.isBlank() ? s : other`. -/
def orElse (s : Option String) (other : String) : String :=
  match s with
  | none => other
  | some s => if isBlank s then other else s

/-- The record's constructor; `none` is a null. -/
def make (roomId sender content : Option String) : BroadcastRequest :=
  ⟨orElse roomId "general", orElse sender "anonymous", content.getD ""⟩

def default : BroadcastRequest := ⟨"general", "anonymous", ""⟩

def ofNullable (req : Option BroadcastRequest) : BroadcastRequest := req.getD default

end BroadcastRequest

/-- What `broadcast` publishes, and for which room. -/
def broadcast (nodeId : String) (req : Option BroadcastRequest) : String × String :=
  let request := BroadcastRequest.ofNullable req
  publish request.roomId (broadcastText request.sender request.content nodeId)

end Playground.Rooms.Spring
