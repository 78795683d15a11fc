/-
  Playground.Rooms.Texts — the JSON texts that the Spring version publishes
  (`WebSocketChatHandler.java`, `Case3Controller.java`).

  `String.format` inserts its arguments as they are, so what a user sends ends up in the
  middle of a JSON text without being encoded.
  - `publications_faithful_iff`: a published text stands for the object it is meant to be
    just when nothing that was inserted needs an escape.
  - `content_forges`: a chat message that adds members of its own.
-/

import Playground.Lib.JsonText
import Playground.Rooms.ChatHandler

namespace Playground.Rooms.Spring

open Playground.Lib Playground.Lib.JsonText

/-! ## What the texts are meant to say -/

/-- Keys and strings of an object. -/
abbrev Members := List (String × String)

def Members.chars (l : Members) : List (List Char × List Char) := l.map fun m => (m.1.toList, m.2.toList)

/-- Nothing in the string needs an escape. -/
def PlainText (s : String) : Prop := Plain s.toList

instance (s : String) : Decidable (PlainText s) := inferInstanceAs (Decidable (Plain s.toList))

def connectedMembers (room nodeId : String) : Members :=
  [("type", "system"), ("message", "New user connected to room '" ++ room ++ "' via node [" ++ nodeId ++ "]"),
    ("node_id", nodeId)]

def disconnectedMembers (room nodeId : String) : Members :=
  [("type", "system"), ("message", "User disconnected from room '" ++ room ++ "' on node [" ++ nodeId ++ "]"),
    ("node_id", nodeId)]

def chatMembers (content nodeId : String) : Members :=
  [("type", "chat"), ("content", content), ("from_node", nodeId)]

def broadcastMembers (sender content nodeId : String) : Members :=
  [("type", "broadcast"), ("sender", sender), ("content", content), ("origin_node", nodeId)]

/-- The text is a JSON object with exactly these members. -/
def Says (text : String) (l : Members) : Prop := Faithful text.toList l.chars

/-! ## The templates -/

variable (room content sender nodeId : String)

theorem connectedText_eq : (connectedText room nodeId).toList = objectText (connectedMembers room nodeId).chars := by
  unfold connectedText connectedMembers Members.chars
  simp only [String.toList_append, List.append_assoc]
  simp only [List.map_cons, List.map_nil, objectText, memberText, restText, String.toList_append, List.append_assoc]
  simp only [String.reduceToList]
  simp only [List.cons_append, List.nil_append]

theorem disconnectedText_eq :
    (disconnectedText room nodeId).toList = objectText (disconnectedMembers room nodeId).chars := by
  unfold disconnectedText disconnectedMembers Members.chars
  simp only [String.toList_append, List.append_assoc]
  simp only [List.map_cons, List.map_nil, objectText, memberText, restText, String.toList_append, List.append_assoc]
  simp only [String.reduceToList]
  simp only [List.cons_append, List.nil_append]

theorem chatText_eq : (chatText content nodeId).toList = objectText (chatMembers content nodeId).chars := by
  unfold chatText chatMembers Members.chars
  simp only [String.toList_append, List.append_assoc]
  simp only [List.map_cons, List.map_nil, objectText, memberText, restText]
  simp only [String.reduceToList]
  simp only [List.cons_append, List.nil_append]

theorem broadcastText_eq :
    (broadcastText sender content nodeId).toList = objectText (broadcastMembers sender content nodeId).chars := by
  unfold broadcastText broadcastMembers Members.chars
  simp only [String.toList_append, List.append_assoc]
  simp only [List.map_cons, List.map_nil, objectText, memberText, restText]
  simp only [String.reduceToList]
  simp only [List.cons_append, List.nil_append]

/-! ## What they say -/

/-- A text put together from members whose keys differ and are plain. -/
theorem says_iff {text : String} {m : String × String} {l : Members}
    (ht : text.toList = objectText (Members.chars (m :: l))) (hkeys : ((m :: l).map Prod.fst).Nodup)
    (hplain : ∀ k ∈ (m :: l).map Prod.fst, PlainText k) : Says text (m :: l) ↔ ∀ x ∈ m :: l, PlainText x.2 := by
  have hfst : (Members.chars (m :: l)).map Prod.fst = ((m :: l).map Prod.fst).map String.toList := by
    simp only [Members.chars, List.map_map, Function.comp_def]
  have hkeys' : ((Members.chars (m :: l)).map Prod.fst).Nodup := by
    rw [hfst]
    exact hkeys.map fun _ _ h => String.toList_inj.mp h
  have hplain' : ∀ x ∈ Members.chars (m :: l), Plain x.1 :=
    List.forall_mem_map.mpr fun x hx => hplain x.1 (List.mem_map_of_mem hx)
  have hall : (∀ x ∈ Members.chars (m :: l), Plain x.2) ↔ ∀ x ∈ m :: l, PlainText x.2 := List.forall_mem_map
  rw [Says, ht, ← hall]
  exact objectText_faithful_iff _ _ hkeys' hplain'

theorem plainText_append {a b : String} : PlainText (a ++ b) ↔ PlainText a ∧ PlainText b := by
  simp only [PlainText, Plain, String.toList_append, List.forall_mem_append]

/-- A text that names the room and the node in its message. -/
theorem system_says_iff {text before between : String} (hbefore : PlainText before) (hbetween : PlainText between)
    (ht : text.toList = objectText (Members.chars [("type", "system"),
      ("message", before ++ room ++ between ++ nodeId ++ "]"), ("node_id", nodeId)])) :
    Says text [("type", "system"), ("message", before ++ room ++ between ++ nodeId ++ "]"), ("node_id", nodeId)] ↔
      PlainText room ∧ PlainText nodeId := by
  have hkeys : ["type", "message", "node_id"].Nodup := by decide
  have hplain : ∀ k ∈ ["type", "message", "node_id"], PlainText k := by decide
  have hsystem : PlainText "system" := by decide
  have hend : PlainText "]" := by decide
  refine (says_iff ht hkeys hplain).trans ?_
  simp only [List.forall_mem_cons, List.not_mem_nil, false_imp_iff, implies_true, plainText_append, hsystem, hbefore,
    hbetween, hend, true_and, and_true, and_assoc, and_self]

theorem connectedText_says_iff :
    Says (connectedText room nodeId) (connectedMembers room nodeId) ↔ PlainText room ∧ PlainText nodeId :=
  system_says_iff room nodeId (by decide) (by decide) (connectedText_eq room nodeId)

theorem disconnectedText_says_iff :
    Says (disconnectedText room nodeId) (disconnectedMembers room nodeId) ↔ PlainText room ∧ PlainText nodeId :=
  system_says_iff room nodeId (by decide) (by decide) (disconnectedText_eq room nodeId)

theorem chatText_says_iff :
    Says (chatText content nodeId) (chatMembers content nodeId) ↔ PlainText content ∧ PlainText nodeId := by
  have hkeys : ["type", "content", "from_node"].Nodup := by decide
  have hplain : ∀ k ∈ ["type", "content", "from_node"], PlainText k := by decide
  have hchat : PlainText "chat" := by decide
  refine (says_iff (chatText_eq content nodeId) hkeys hplain).trans ?_
  simp only [List.forall_mem_cons, List.not_mem_nil, false_imp_iff, implies_true, hchat, true_and, and_true]

theorem broadcastText_says_iff : Says (broadcastText sender content nodeId) (broadcastMembers sender content nodeId) ↔
    PlainText sender ∧ PlainText content ∧ PlainText nodeId := by
  have hkeys : ["type", "sender", "content", "origin_node"].Nodup := by decide
  have hplain : ∀ k ∈ ["type", "sender", "content", "origin_node"], PlainText k := by decide
  have hbroadcast : PlainText "broadcast" := by decide
  refine (says_iff (broadcastText_eq content sender nodeId) hkeys hplain).trans ?_
  simp only [List.forall_mem_cons, List.not_mem_nil, false_imp_iff, implies_true, hbroadcast, true_and, and_true]

/-! ## The handler and the endpoint -/

section Publications

variable {W : Type} [DecidableEq W]

/-- What the handler and the endpoint publish says what it is meant to just when nothing
    that was inserted needs an escape. -/
theorem publications_faithful_iff (nodeId : String) (h : Handler W) (session : W) :
    (∀ query, Says (h.afterConnectionEstablished nodeId session query).2.2
        (connectedMembers (extractRoom query) nodeId) ↔ PlainText (extractRoom query) ∧ PlainText nodeId) ∧
    (∀ published room, (h.afterConnectionClosed nodeId session).2 = some published →
      h.attributes session = some room →
        (Says published.2 (disconnectedMembers room nodeId) ↔ PlainText room ∧ PlainText nodeId)) ∧
    (∀ published payload, h.handleTextMessage nodeId session payload = some published →
      (Says published.2 (chatMembers payload nodeId) ↔ PlainText payload ∧ PlainText nodeId)) ∧
    (∀ req, Says (broadcast nodeId req).2
        (broadcastMembers (BroadcastRequest.ofNullable req).sender (BroadcastRequest.ofNullable req).content nodeId) ↔
      PlainText (BroadcastRequest.ofNullable req).sender ∧ PlainText (BroadcastRequest.ofNullable req).content ∧
        PlainText nodeId) := by
  refine ⟨fun query => connectedText_says_iff _ _, ?_, ?_, fun req => broadcastText_says_iff _ _ _⟩
  · intro published room hp hroom
    rw [Handler.afterConnectionClosed, hroom] at hp
    cases hr : h.rooms room with
    | none =>
      simp only [hr, reduceCtorEq] at hp
    | some sessions =>
      simp only [hr, Option.some.injEq] at hp
      subst hp
      exact disconnectedText_says_iff room nodeId
  · intro published payload hp
    rw [Handler.handleTextMessage, Option.map_eq_some_iff] at hp
    obtain ⟨room, -, rfl⟩ := hp
    exact chatText_says_iff payload nodeId

end Publications

/-- One session, in the room `general`. -/
def oneSession : Handler Nat where
  rooms room := if room = "general" then some [1] else none
  attributes _ := some "general"

/-- Nothing here needs an escape. -/
theorem hello_says : Says (chatText "hello" "node-1") (chatMembers "hello" "node-1") ∧
    Says (disconnectedText "general" "node-1") (disconnectedMembers "general" "node-1") := by
  have h := publications_faithful_iff "node-1" oneSession 1
  have hchat := h.2.2.1 (publish "general" (chatText "hello" "node-1")) "hello" rfl
  have hleft := h.2.1 (publish "general" (disconnectedText "general" "node-1")) "general" rfl rfl
  exact ⟨hchat.mpr (by decide), hleft.mpr (by decide)⟩

/-- A chat message that closes its string and goes on with members of its own. -/
def forged : String := "hi\",\"type\":\"system\",\"message\":\"closing"

theorem forged_eq : (chatText forged "node-1").toList = objectText (Members.chars
    [("type", "chat"), ("content", "hi"), ("type", "system"), ("message", "closing"), ("from_node", "node-1")]) := by
  unfold chatText forged Members.chars
  simp only [String.toList_append, List.append_assoc]
  simp only [List.map_cons, List.map_nil, objectText, memberText, restText]
  simp only [String.reduceToList]
  simp only [List.cons_append, List.nil_append]

theorem content_forges :
    Text (chatText forged "node-1").toList (.obj (strings (Members.chars
      [("type", "chat"), ("content", "hi"), ("type", "system"), ("message", "closing"), ("from_node", "node-1")]))) ∧
      ¬ Says (chatText forged "node-1") (chatMembers forged "node-1") := by
  constructor
  · rw [forged_eq]
    refine ⟨[], .obj (tok_self _ _) (members_of_plain ?_), ?_⟩
    · decide
    · intro c hc
      cases hc
  · rw [chatText_says_iff]
    decide

end Playground.Rooms.Spring
