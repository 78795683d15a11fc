/-
  Playground.Rooms.Cluster — the chat of the NestJS version over several nodes
  (`ws-pubsub.manager.ts`, `case3.controller.ts`).

  A node keeps the sessions connected to it. What happens in a room is published to
  Redis, which pushes it to every node that is subscribed, the publisher too, and each
  node sends it to its open sessions of the room. A node's commands reach Redis in
  order, one connection carries them; any of them may fail, and so may a node's
  subscription, with what was on its way.
  - `received_in_order`: whatever fails, a session is sent messages of its own room
    only, in the order in which Redis published them and none of them twice.
  - `received_exactly`: while a session stays open and its node subscribed, it is sent
    each of them, so two sessions of one room are sent the same, wherever they are.
-/

import Playground.Lib.JsonObject
import Playground.Rooms.Channel

namespace Playground.Rooms.Nest

open Playground.Lib

variable {ι W : Type}

/-! ## `WsPubsubGateway` -/

/-- The objects that are published. -/
inductive Message where
  | system (message nodeId : String)
  | chat (content fromNode : String)
  | broadcast (sender content originNode : String)
  deriving DecidableEq, Repr

/-- A node's gateway: its rooms and which of its sessions are open, the `roomId` set on a
    session, and what it has sent to each. `outbox` are its `PUBLISH` commands under way
    and `inbox` the `pmessage` events it has not handled, oldest first. -/
structure Gateway (W : Type) where
  node : Node W
  roomId : W → Option String
  received : W → List String
  outbox : List (String × String)
  inbox : List (String × String)
  subscribed : Bool

def Gateway.init : Gateway W := ⟨⟨fun _ => none, fun _ => false⟩, fun _ => none, fun _ => [], [], [], false⟩

/-- `url.searchParams.get('room') || 'default'`. -/
def roomParam : Option String → String
  | none => "default"
  | some room => if room = "" then "default" else room

/-- `add` of a `Set`. -/
def add [DecidableEq W] (sessions : List W) (client : W) : List W :=
  if client ∈ sessions then sessions else sessions ++ [client]

namespace Gateway

variable (json : Json Message) (nodeId : String) (g : Gateway W)

/-- The call of `publishToCluster`, which swallows what its `PUBLISH` comes to. -/
def publishes (room : String) (message : Message) : Gateway W :=
  { g with outbox := g.outbox ++ [publishToCluster json room message] }

variable [DecidableEq W]

/-- A new session, of this room. -/
def register (client : W) (room : String) : Gateway W :=
  { g with
    node := ⟨Function.update g.node.rooms room (some (add ((g.node.rooms room).getD []) client)),
      Function.update g.node.isOpen client true⟩
    roomId := Function.update g.roomId client (some room) }

/-- `this.localRooms.get(roomId)!.delete(client)`. -/
def unregister (client : W) (room : String) (sessions : List W) : Gateway W :=
  { g with node := { g.node with rooms := Function.update g.node.rooms room (some (sessions.erase client)) } }

/-- `handleConnection`, from the value of the query's `room`. -/
def handleConnection (client : W) (param : Option String) : Gateway W :=
  let room := roomParam param
  (g.register client room).publishes json room
    (.system ("New user connected to room '" ++ room ++ "' via node [" ++ nodeId ++ "]") nodeId)

def handleDisconnect (client : W) : Gateway W :=
  match g.roomId client with
  | none => g
  | some room =>
    match g.node.rooms room with
    | none => g
    | some sessions => (g.unregister client room sessions).publishes json room
      (.system ("User disconnected from room '" ++ room ++ "' on node [" ++ nodeId ++ "]") nodeId)

omit [DecidableEq W] in
def handleChatMessage (client : W) (payload : String) : Gateway W :=
  g.publishes json ((g.roomId client).getD "default") (.chat payload nodeId)

/-- `ws.send(msgStr)` to each of the sessions. -/
def send (sessions : List W) (msgStr : String) (received : W → List String) : W → List String :=
  sessions.foldl (fun received ws => Function.update received ws (received ws ++ [msgStr])) received

/-- The `pmessage` handler. -/
def handlePmessage (event : String × String) : Gateway W :=
  match onPmessage json event with
  | none => g
  | some (room, data) => { g with received := send (broadcastLocally g.node room) (json.dumps data) g.received }

end Gateway

/-! ## The cluster -/

/-- The nodes, and what Redis has published, oldest first. -/
structure Cluster (ι W : Type) where
  gateways : ι → Gateway W
  published : List (String × String)

def Cluster.init : Cluster ι W := ⟨fun _ => .init, []⟩

inductive ClusterEvent (ι W : Type) where
  | connect (i : ι) (client : W) (param : Option String)
  /-- The session's `readyState` is no longer `OPEN`. -/
  | closing (i : ι) (client : W)
  | disconnect (i : ι) (client : W)
  | chat (i : ι) (client : W) (payload : String)
  /-- `Case3Controller.broadcast`. -/
  | broadcast (i : ι) (roomId sender content : String)
  /-- The node's oldest `PUBLISH` takes effect or not. -/
  | publish (i : ι) (effect : Bool)
  | subscribe (i : ι)
  /-- The subscription is lost; the first `kept` events had reached the node. -/
  | lose (i : ι) (kept : Nat)
  | pmessage (i : ι)

namespace Cluster

variable [DecidableEq ι]

def put (c : Cluster ι W) (i : ι) (g : Gateway W) : Cluster ι W := { c with gateways := Function.update c.gateways i g }

/-- Redis pushes the event to every node that is subscribed. -/
def push (c : Cluster ι W) (event : String × String) : Cluster ι W where
  gateways j := if (c.gateways j).subscribed then { c.gateways j with inbox := (c.gateways j).inbox ++ [event] }
    else c.gateways j
  published := c.published ++ [event]

end Cluster

/-- `nodeId` is each node's; a session connects once. -/
def cluster [DecidableEq ι] [DecidableEq W] (json : Json Message) (nodeId : ι → String) :
    Machine (Cluster ι W) (ClusterEvent ι W) where
  step c
    | .connect i client param =>
      if (c.gateways i).roomId client = none then
        some (c.put i ((c.gateways i).handleConnection json (nodeId i) client param))
      else none
    | .closing i client =>
      let g := c.gateways i
      some (c.put i { g with node := { g.node with isOpen := Function.update g.node.isOpen client false } })
    | .disconnect i client => some (c.put i ((c.gateways i).handleDisconnect json (nodeId i) client))
    | .chat i client payload => some (c.put i ((c.gateways i).handleChatMessage json (nodeId i) client payload))
    | .broadcast i roomId sender content =>
      some (c.put i ((c.gateways i).publishes json roomId (.broadcast sender content (nodeId i))))
    | .publish i effect =>
      match (c.gateways i).outbox with
      | [] => none
      | event :: outbox =>
        let c := c.put i { c.gateways i with outbox := outbox }
        some (if effect then c.push event else c)
    | .subscribe i => some (c.put i { c.gateways i with subscribed := true })
    | .lose i kept =>
      let g := c.gateways i
      some (c.put i { g with subscribed := false, inbox := g.inbox.take kept })
    | .pmessage i =>
      match (c.gateways i).inbox with
      | [] => none
      | event :: inbox => some (c.put i (Gateway.handlePmessage json { c.gateways i with inbox := inbox } event))

/-- The texts of a room's messages among the events. -/
def texts (room : String) (events : List (String × String)) : List String :=
  (events.filter fun event => event.1 = channelOf room).map Prod.snd

variable {room : String} {P l : List (String × String)} {event : String × String}

@[simp] theorem texts_nil (room : String) : texts room [] = [] := rfl

@[simp] theorem texts_append (room : String) (l P : List (String × String)) :
    texts room (l ++ P) = texts room l ++ texts room P := by
  simp [texts]

theorem texts_cons (room : String) (event : String × String) (l : List (String × String)) :
    texts room (event :: l) = (if event.1 = channelOf room then [event.2] else []) ++ texts room l := by
  unfold texts
  by_cases h : event.1 = channelOf room <;> simp [h]

theorem texts_sublist (room : String) (h : l.Sublist P) : (texts room l).Sublist (texts room P) :=
  (h.filter _).map _

/-! ## What a node sends -/

variable {json : Json Message} {g : Gateway W}

/-- The event was published by a node. -/
def Cast (json : Json Message) (event : String × String) : Prop :=
  ∃ room message, event = publishToCluster json room message

variable [DecidableEq W]

theorem mem_add {sessions : List W} {client ws : W} : ws ∈ add sessions client ↔ ws ∈ sessions ∨ ws = client := by
  unfold add
  split
  · rename_i h
    exact (or_iff_left_of_imp fun e => e ▸ h).symm
  · rw [List.mem_append, List.mem_singleton]

theorem add_nodup {sessions : List W} (client : W) (h : sessions.Nodup) : (add sessions client).Nodup := by
  unfold add
  split
  · exact h
  · rename_i hc
    exact h.append (List.nodup_singleton client) (List.disjoint_singleton.mpr hc)

theorem send_apply {sessions : List W} (h : sessions.Nodup) (msgStr : String) (received : W → List String) (ws : W) :
    Gateway.send sessions msgStr received ws = received ws ++ if ws ∈ sessions then [msgStr] else [] := by
  induction sessions generalizing received with
  | nil => simp [Gateway.send]
  | cons s l ih =>
    rw [List.nodup_cons] at h
    have := ih h.2 (Function.update received s (received s ++ [msgStr]))
    rw [Gateway.send, List.foldl_cons, ← Gateway.send, this]
    by_cases e : ws = s
    · subst e
      simp [h.1]
    · simp [e]

/-- The `pmessage` handler on an event that was published. -/
theorem handlePmessage_cast {message : Message} (he : event = publishToCluster json room message) :
    g.handlePmessage json event =
      { g with received := Gateway.send (broadcastLocally g.node room) event.2 g.received } := by
  have hon : onPmessage json event = some (room, message) := by
    rw [he, onPmessage, publishToCluster, json.loads_dumps, replaceFirst_channelOf]
    rfl
  rw [Gateway.handlePmessage, hon, he]
  rfl

section Rooms

variable (g) (client : W) {room r : String} (sessions : List W)

@[simp] theorem register_rooms_same :
    (g.register client room).node.rooms room = some (add ((g.node.rooms room).getD []) client) :=
  Function.update_self ..

theorem register_rooms_ne (h : r ≠ room) : (g.register client room).node.rooms r = g.node.rooms r :=
  Function.update_of_ne h ..

@[simp] theorem register_roomId_same : (g.register client room).roomId client = some room := Function.update_self ..

theorem register_roomId_ne {ws : W} (h : ws ≠ client) : (g.register client room).roomId ws = g.roomId ws :=
  Function.update_of_ne h ..

@[simp] theorem unregister_rooms_same :
    (g.unregister client room sessions).node.rooms room = some (sessions.erase client) :=
  Function.update_self ..

theorem unregister_rooms_ne (h : r ≠ room) : (g.unregister client room sessions).node.rooms r = g.node.rooms r :=
  Function.update_of_ne h ..

/-- A session that is in no room any more, or never was, leaves nothing to do. -/
theorem handleDisconnect_cases (json : Json Message) (nodeId : String) :
    g.handleDisconnect json nodeId client = g ∨ ∃ room sessions message, g.roomId client = some room ∧
      g.node.rooms room = some sessions ∧
      g.handleDisconnect json nodeId client = (g.unregister client room sessions).publishes json room message := by
  unfold Gateway.handleDisconnect
  split
  · exact .inl rfl
  · split
    · exact .inl rfl
    · exact .inr ⟨_, _, _, ‹_›, ‹_›, rfl⟩

end Rooms

/-- What is known of a node when Redis has published `P`. -/
structure Gateway.Sound (json : Json Message) (P : List (String × String)) (g : Gateway W) : Prop where
  nodup : ∀ {room sessions}, g.node.rooms room = some sessions → sessions.Nodup
  home : ∀ {room sessions ws}, g.node.rooms room = some sessions → ws ∈ sessions → g.roomId ws = some room
  cast : ∀ event ∈ g.outbox, Cast json event
  queued : g.inbox.Sublist P
  seen : ∀ {ws room}, g.roomId ws = some room → (g.received ws ++ texts room g.inbox).Sublist (texts room P)
  fresh : ∀ {ws}, g.roomId ws = none → g.received ws = []

namespace Gateway.Sound

omit [DecidableEq W] in
theorem init (json : Json Message) : (Gateway.init : Gateway W).Sound json [] where
  nodup := nofun
  home := nofun
  cast := nofun
  queued := .slnil
  seen := nofun
  fresh _ := rfl

omit [DecidableEq W] in
theorem publishes (h : g.Sound json P) (room : String) (message : Message) :
    (g.publishes json room message).Sound json P where
  nodup := h.nodup
  home := h.home
  cast event he := by
    rcases List.mem_append.mp he with he | he
    · exact h.cast event he
    · exact ⟨room, message, List.mem_singleton.mp he⟩
  queued := h.queued
  seen := h.seen
  fresh := h.fresh

omit [DecidableEq W] in
/-- A session that has not connected is in no room. -/
theorem absent (h : g.Sound json P) {client : W} (hc : g.roomId client = none) {room : String} {sessions : List W}
    (hr : g.node.rooms room = some sessions) : client ∉ sessions :=
  fun hin => Option.some_ne_none _ ((h.home hr hin).symm.trans hc)

theorem register (h : g.Sound json P) {client : W} (hc : g.roomId client = none) (room : String) :
    (g.register client room).Sound json P where
  nodup {r sessions} hr := by
    by_cases e : r = room
    · subst e
      rw [register_rooms_same] at hr
      cases hr
      cases hs : g.node.rooms r with
      | none => exact add_nodup client List.nodup_nil
      | some sessions => exact add_nodup client (h.nodup hs)
    · exact h.nodup ((register_rooms_ne g client e).symm.trans hr)
  home {r sessions ws} hr hws := by
    by_cases e : r = room
    · subst e
      rw [register_rooms_same] at hr
      cases hr
      rcases mem_add.mp hws with hws | rfl
      · cases hs : g.node.rooms r with
        | none =>
          rw [hs] at hws
          cases hws
        | some sessions =>
          rw [hs] at hws
          have hne : ws ≠ client := fun e => h.absent hc hs (e ▸ hws)
          exact (register_roomId_ne g client hne).trans (h.home hs hws)
      · exact register_roomId_same g ws
    · rw [register_rooms_ne g client e] at hr
      have hne : ws ≠ client := fun e => h.absent hc hr (e ▸ hws)
      exact (register_roomId_ne g client hne).trans (h.home hr hws)
  cast := h.cast
  queued := h.queued
  seen {ws r} hr := by
    by_cases e : ws = client
    · subst e
      show (g.received ws ++ texts r g.inbox).Sublist _
      rw [h.fresh hc, List.nil_append]
      exact texts_sublist r h.queued
    · exact h.seen ((register_roomId_ne g client e).symm.trans hr)
  fresh {ws} hr := by
    by_cases e : ws = client
    · subst e
      cases (register_roomId_same g ws).symm.trans hr
    · exact h.fresh ((register_roomId_ne g client e).symm.trans hr)

theorem unregister (h : g.Sound json P) (client : W) {room : String} {sessions : List W}
    (hs : g.node.rooms room = some sessions) : (g.unregister client room sessions).Sound json P where
  nodup {r sessions'} hr := by
    by_cases e : r = room
    · subst e
      rw [unregister_rooms_same] at hr
      cases hr
      exact (h.nodup hs).erase client
    · exact h.nodup ((unregister_rooms_ne g client sessions e).symm.trans hr)
  home {r sessions' ws} hr hws := by
    by_cases e : r = room
    · subst e
      rw [unregister_rooms_same] at hr
      cases hr
      exact h.home hs (List.mem_of_mem_erase hws)
    · exact h.home ((unregister_rooms_ne g client sessions e).symm.trans hr) hws
  cast := h.cast
  queued := h.queued
  seen := h.seen
  fresh := h.fresh

theorem handleDisconnect (h : g.Sound json P) (nodeId : String) (client : W) :
    (g.handleDisconnect json nodeId client).Sound json P := by
  rcases handleDisconnect_cases g client json nodeId with heq | ⟨room, sessions, message, -, hs, heq⟩
  · rw [heq]
    exact h
  · rw [heq]
    exact (h.unregister client hs).publishes room message

/-- A `pmessage` is handled. -/
theorem handlePmessage (h : g.Sound json P) {inbox : List (String × String)} (hin : g.inbox = event :: inbox)
    (hcast : Cast json event) : (Gateway.handlePmessage json { g with inbox := inbox } event).Sound json P := by
  obtain ⟨room, message, he⟩ := hcast
  rw [handlePmessage_cast he]
  have hsub : inbox.Sublist g.inbox := hin ▸ List.sublist_cons_self event inbox
  have hopen : (broadcastLocally g.node room).Nodup := by
    unfold broadcastLocally Node.openIn
    split
    · exact List.nodup_nil
    · exact (h.nodup ‹_›).filter _
  have hmem : ∀ {ws}, ws ∈ broadcastLocally g.node room → g.roomId ws = some room := by
    intro ws hws
    unfold broadcastLocally Node.openIn at hws
    split at hws
    · cases hws
    · exact h.home ‹_› (List.mem_of_mem_filter hws)
  refine ⟨h.nodup, h.home, h.cast, hsub.trans h.queued, ?_, ?_⟩
  · intro ws r hr
    have hseen := h.seen hr
    rw [hin, texts_cons, ← List.append_assoc] at hseen
    show (Gateway.send (broadcastLocally g.node room) event.2 g.received ws ++ texts r inbox).Sublist _
    rw [send_apply hopen]
    refine List.Sublist.trans (((List.Sublist.refl _).append ?_).append (.refl _)) hseen
    split
    · rename_i hws
      obtain rfl : room = r := Option.some.inj ((hmem hws).symm.trans hr)
      rw [if_pos (by rw [he]; rfl)]
    · exact List.nil_sublist _
  · intro ws hr
    show Gateway.send (broadcastLocally g.node room) event.2 g.received ws = []
    rw [send_apply hopen, h.fresh hr, if_neg fun hws => Option.some_ne_none _ ((hmem hws).symm.trans hr)]
    rfl

omit [DecidableEq W] in
/-- Redis has published one more event, which may have been pushed to the node. -/
theorem push (h : g.Sound json P) (event : String × String) (pushed : Bool) :
    Gateway.Sound json (P ++ [event]) { g with inbox := g.inbox ++ if pushed then [event] else [] } where
  nodup := h.nodup
  home := h.home
  cast := h.cast
  queued := by
    refine h.queued.append ?_
    split
    · exact .refl _
    · exact List.nil_sublist _
  seen {ws room} hr := by
    rw [texts_append, texts_append, ← List.append_assoc]
    refine (h.seen hr).append (texts_sublist room ?_)
    split
    · exact .refl _
    · exact List.nil_sublist _
  fresh := h.fresh

omit [DecidableEq W] in
theorem take (h : g.Sound json P) (kept : Nat) (subscribed : Bool) :
    Gateway.Sound json P { g with subscribed := subscribed, inbox := g.inbox.take kept } where
  nodup := h.nodup
  home := h.home
  cast := h.cast
  queued := (List.take_sublist ..).trans h.queued
  seen {ws room} hr :=
    ((List.Sublist.refl (g.received ws)).append (texts_sublist room (List.take_sublist kept g.inbox))).trans (h.seen hr)
  fresh := h.fresh

end Gateway.Sound

/-! ## A session that stays -/

/-- The session is open and in the room, and its node is subscribed. -/
structure Gateway.Attends (g : Gateway W) (ws : W) (room : String) : Prop where
  subscribed : g.subscribed = true
  isOpen : g.node.isOpen ws = true
  member : ∃ sessions, g.node.rooms room = some sessions ∧ ws ∈ sessions

/-- The session attends still, and what it was sent or is to be sent has grown by the
    room's messages in `news`. -/
structure Gateway.Follows (ws : W) (room : String) (news : List (String × String)) (g g' : Gateway W) : Prop where
  attends : g'.Attends ws room
  sent : g'.received ws ++ texts room g'.inbox = g.received ws ++ texts room g.inbox ++ texts room news

namespace Gateway.Attends

variable {ws : W}

omit [DecidableEq W] in
theorem roomId (h : g.Attends ws room) (hs : g.Sound json P) : g.roomId ws = some room := by
  obtain ⟨sessions, hr, hws⟩ := h.member
  exact hs.home hr hws

omit [DecidableEq W] in
theorem publishes (h : g.Attends ws room) (json : Json Message) (r : String) (message : Message) :
    Follows ws room [] g (g.publishes json r message) :=
  ⟨⟨h.subscribed, h.isOpen, h.member⟩, (List.append_nil _).symm⟩

theorem register (h : g.Attends ws room) {client : W} (hne : ws ≠ client) (r : String) :
    (g.register client r).Attends ws room where
  subscribed := h.subscribed
  isOpen := (Function.update_of_ne hne ..).trans h.isOpen
  member := by
    obtain ⟨sessions, hr, hws⟩ := h.member
    by_cases e : room = r
    · subst e
      refine ⟨_, register_rooms_same g client, mem_add.mpr (.inl ?_)⟩
      rw [hr]
      exact hws
    · exact ⟨sessions, (register_rooms_ne g client e).trans hr, hws⟩

theorem unregister (h : g.Attends ws room) {client : W} (hne : ws ≠ client) {r : String} {sessions : List W}
    (hr : g.node.rooms r = some sessions) : (g.unregister client r sessions).Attends ws room where
  subscribed := h.subscribed
  isOpen := h.isOpen
  member := by
    obtain ⟨sessions', hr', hws⟩ := h.member
    by_cases e : room = r
    · subst e
      cases hr.symm.trans hr'
      exact ⟨_, unregister_rooms_same g client sessions, (List.mem_erase_of_ne hne).mpr hws⟩
    · exact ⟨sessions', (unregister_rooms_ne g client sessions e).trans hr', hws⟩

theorem handleDisconnect (h : g.Attends ws room) (json : Json Message) (nodeId : String) {client : W}
    (hne : ws ≠ client) : Follows ws room [] g (g.handleDisconnect json nodeId client) := by
  rcases handleDisconnect_cases g client json nodeId with heq | ⟨r, sessions, message, -, hr, heq⟩
  · rw [heq]
    exact ⟨h, (List.append_nil _).symm⟩
  · rw [heq]
    have hf := (h.unregister hne hr).publishes json r message
    exact ⟨hf.attends, hf.sent⟩

omit [DecidableEq W] in
theorem push (h : g.Attends ws room) (event : String × String) :
    Follows ws room [event] g { g with inbox := g.inbox ++ [event] } where
  attends := ⟨h.subscribed, h.isOpen, h.member⟩
  sent := by rw [texts_append, ← List.append_assoc]

/-- An event of its room is sent to it, and no other. -/
theorem handlePmessage (h : g.Attends ws room) (hs : g.Sound json P) {inbox : List (String × String)}
    (hin : g.inbox = event :: inbox) (hcast : Cast json event) :
    Follows ws room [] g (Gateway.handlePmessage json { g with inbox := inbox } event) := by
  obtain ⟨r, message, he⟩ := hcast
  rw [handlePmessage_cast he]
  refine ⟨⟨h.subscribed, h.isOpen, h.member⟩, ?_⟩
  obtain ⟨sessions, hr, hws⟩ := h.member
  have hopen : (broadcastLocally g.node r).Nodup ∧ (ws ∈ broadcastLocally g.node r ↔ room = r) := by
    unfold broadcastLocally Node.openIn
    split
    · rename_i hnone
      refine ⟨List.nodup_nil, iff_of_false List.not_mem_nil ?_⟩
      rintro rfl
      cases hr.symm.trans hnone
    · rename_i sessions' hr'
      refine ⟨(hs.nodup hr').filter _, ?_⟩
      rw [List.mem_filter, and_iff_left h.isOpen]
      constructor
      · exact fun hws' => Option.some.inj ((h.roomId hs).symm.trans (hs.home hr' hws'))
      · rintro rfl
        cases hr.symm.trans hr'
        exact hws
  show Gateway.send (broadcastLocally g.node r) event.2 g.received ws ++ texts room inbox = _
  rw [send_apply hopen.1, hin, texts_cons, texts_nil, List.append_nil, List.append_assoc]
  congr 2
  refine if_congr (hopen.2.trans ?_) rfl rfl
  rw [he]
  exact ⟨fun e => e ▸ rfl, fun e => (channelOf_inj e).symm⟩

end Gateway.Attends

/-! ## Runs of the cluster -/

section Runs

variable [DecidableEq ι] {nodeId : ι → String} {c c' : Cluster ι W} {e : ClusterEvent ι W}

section Push

omit [DecidableEq ι] [DecidableEq W]

variable {i : ι}

theorem push_subscribed (event : String × String) (h : (c.gateways i).subscribed = true) :
    (c.push event).gateways i = { c.gateways i with inbox := (c.gateways i).inbox ++ [event] } := if_pos h

theorem push_unsubscribed (event : String × String) (h : ¬ (c.gateways i).subscribed = true) :
    (c.push event).gateways i = c.gateways i := if_neg h

end Push

structure Sound (json : Json Message) (c : Cluster ι W) : Prop where
  cast : ∀ event ∈ c.published, Cast json event
  gateway : ∀ i, (c.gateways i).Sound json c.published

omit [DecidableEq W] in
theorem Sound.put (h : Sound json c) (i : ι) (hg : g.Sound json c.published) : Sound json (c.put i g) where
  cast := h.cast
  gateway j := by
    show Gateway.Sound json c.published (Function.update c.gateways i g j)
    by_cases e : j = i
    · subst e
      rwa [Function.update_self]
    · rw [Function.update_of_ne e]
      exact h.gateway j

omit [DecidableEq ι] [DecidableEq W] in
theorem Sound.push (h : Sound json c) (hcast : Cast json event) : Sound json (c.push event) where
  cast e he := by
    rcases List.mem_append.mp he with he | he
    · exact h.cast e he
    · exact List.mem_singleton.mp he ▸ hcast
  gateway j := by
    have hpush := (h.gateway j).push event (c.gateways j).subscribed
    by_cases hsub : (c.gateways j).subscribed = true
    · rw [if_pos hsub] at hpush
      rw [push_subscribed event hsub]
      exact hpush
    · rw [if_neg hsub, List.append_nil] at hpush
      rw [push_unsubscribed event hsub]
      exact hpush

/-- What an event on the node's own part does. -/
theorem Sound.step (h : Sound json c) (hs : (cluster json nodeId).step c e = some c') : Sound json c' := by
  cases e with
  | connect i client param =>
    obtain ⟨hc, hs⟩ := Option.ite_none_right_eq_some.mp hs
    cases hs
    exact h.put i (((h.gateway i).register hc _).publishes _ _)
  | closing i client =>
    cases hs
    have hg := h.gateway i
    exact h.put i ⟨hg.nodup, hg.home, hg.cast, hg.queued, hg.seen, hg.fresh⟩
  | disconnect i client =>
    cases hs
    exact h.put i ((h.gateway i).handleDisconnect (nodeId i) client)
  | chat i client payload =>
    cases hs
    exact h.put i ((h.gateway i).publishes _ _)
  | broadcast i roomId sender content =>
    cases hs
    exact h.put i ((h.gateway i).publishes _ _)
  | publish i effect =>
    have hg := h.gateway i
    simp only [cluster] at hs
    split at hs
    · cases hs
    · rename_i event outbox hout
      have hcast : Cast json event := hg.cast event (hout ▸ List.mem_cons_self)
      have hput : Sound json (c.put i { c.gateways i with outbox := outbox }) :=
        h.put i ⟨hg.nodup, hg.home, fun e he => hg.cast e (hout ▸ List.mem_cons_of_mem _ he), hg.queued, hg.seen,
          hg.fresh⟩
      cases hs
      split
      · exact hput.push hcast
      · exact hput
  | subscribe i =>
    cases hs
    have hg := h.gateway i
    exact h.put i ⟨hg.nodup, hg.home, hg.cast, hg.queued, hg.seen, hg.fresh⟩
  | lose i kept =>
    cases hs
    exact h.put i ((h.gateway i).take kept false)
  | pmessage i =>
    simp only [cluster] at hs
    split at hs
    · cases hs
    · rename_i event inbox hin
      cases hs
      have hcast := h.cast event ((h.gateway i).queued.subset (hin ▸ List.mem_cons_self))
      exact h.put i ((h.gateway i).handlePmessage hin hcast)

omit [DecidableEq ι] [DecidableEq W] in
theorem Sound.init (json : Json Message) : Sound json (Cluster.init : Cluster ι W) := ⟨nofun, fun _ => .init json⟩

/-- Whatever fails, closes or is lost: a session that connected to a room is sent messages
    of that room only, in the order in which Redis published them and each at most once. -/
theorem received_in_order (h : (cluster json nodeId).Reach Machine.any Cluster.init c) {i : ι} {ws : W} {room : String}
    (hroom : (c.gateways i).roomId ws = some room) :
    ((c.gateways i).received ws).Sublist (texts room c.published) := by
  have hs : Sound json c := h.invariant (.init json) fun _ _ _ hs _ hstep => hs.step hstep
  exact (List.sublist_append_left ..).trans ((hs.gateway i).seen hroom)

/-- The session closes or leaves, or its node's subscription is lost. -/
def Ends (i : ι) (ws : W) : ClusterEvent ι W → Prop
  | .closing j client | .disconnect j client => j = i ∧ client = ws
  | .lose j _ => j = i
  | _ => False

omit [DecidableEq W] in
/-- An event on the part of node `j` alone. -/
theorem follows_put {i j : ι} {ws : W} (ha : (c.gateways i).Attends ws room)
    (hj : i = j → Gateway.Follows ws room [] (c.gateways i) g) :
    Gateway.Follows ws room [] (c.gateways i) ((c.put j g).gateways i) := by
  show Gateway.Follows ws room [] (c.gateways i) (Function.update c.gateways j g i)
  by_cases e : i = j
  · rw [← e, Function.update_self]
    exact hj e
  · rw [Function.update_of_ne e]
    exact ⟨ha, (List.append_nil _).symm⟩

omit [DecidableEq ι] [DecidableEq W] in
theorem follows_push {i : ι} {ws : W} (ha : (c.gateways i).Attends ws room) (event : String × String) :
    Gateway.Follows ws room [event] (c.gateways i) ((c.push event).gateways i) := by
  rw [push_subscribed event ha.subscribed]
  exact ha.push event

/-- What one event adds to what Redis has published, and to what is sent to the sessions
    that stay. -/
theorem follows_step (h : Sound json c) (hs : (cluster json nodeId).step c e = some c') :
    ∃ news, c'.published = c.published ++ news ∧ ∀ {i ws room}, (c.gateways i).Attends ws room → ¬ Ends i ws e →
      Gateway.Follows ws room news (c.gateways i) (c'.gateways i) := by
  have hquiet : c.published = c.published ++ [] := (List.append_nil _).symm
  cases e with
  | connect j client param =>
    obtain ⟨hc, hs⟩ := Option.ite_none_right_eq_some.mp hs
    cases hs
    refine ⟨[], hquiet, fun {i ws room} ha _ => follows_put ha ?_⟩
    rintro rfl
    have hne : ws ≠ client := by
      rintro rfl
      cases hc.symm.trans (ha.roomId (h.gateway i))
    have hr := ha.register hne (roomParam param)
    exact ⟨⟨hr.subscribed, hr.isOpen, hr.member⟩, (List.append_nil _).symm⟩
  | closing j client =>
    cases hs
    refine ⟨[], hquiet, fun {i ws room} ha hstay => follows_put ha ?_⟩
    rintro rfl
    have hne : ws ≠ client := fun e => hstay ⟨rfl, e.symm⟩
    exact ⟨⟨ha.subscribed, (Function.update_of_ne hne ..).trans ha.isOpen, ha.member⟩, (List.append_nil _).symm⟩
  | disconnect j client =>
    cases hs
    refine ⟨[], hquiet, fun {i ws room} ha hstay => follows_put ha ?_⟩
    rintro rfl
    exact ha.handleDisconnect json (nodeId i) fun e => hstay ⟨rfl, e.symm⟩
  | chat j client payload =>
    cases hs
    refine ⟨[], hquiet, fun ha _ => follows_put ha ?_⟩
    rintro rfl
    exact ha.publishes json _ _
  | broadcast j roomId sender content =>
    cases hs
    refine ⟨[], hquiet, fun ha _ => follows_put ha ?_⟩
    rintro rfl
    exact ha.publishes json _ _
  | publish j effect =>
    simp only [cluster] at hs
    split at hs
    · cases hs
    · rename_i event outbox hout
      have hput : ∀ {i ws room}, (c.gateways i).Attends ws room → Gateway.Follows ws room [] (c.gateways i)
          ((c.put j { c.gateways j with outbox := outbox }).gateways i) := by
        intro i ws room ha
        refine follows_put ha ?_
        rintro rfl
        exact ⟨⟨ha.subscribed, ha.isOpen, ha.member⟩, (List.append_nil _).symm⟩
      cases hs
      cases effect with
      | true =>
        refine ⟨[event], rfl, fun {i ws room} ha _ => ?_⟩
        have hf := hput ha
        have hp := follows_push hf.attends event
        refine ⟨hp.attends, hp.sent.trans ?_⟩
        rw [hf.sent, texts_nil, List.append_nil]
      | false => exact ⟨[], hquiet, fun ha _ => hput ha⟩
  | subscribe j =>
    cases hs
    refine ⟨[], hquiet, fun ha _ => follows_put ha ?_⟩
    rintro rfl
    exact ⟨⟨rfl, ha.isOpen, ha.member⟩, (List.append_nil _).symm⟩
  | lose j kept =>
    cases hs
    refine ⟨[], hquiet, fun ha hstay => follows_put ha ?_⟩
    rintro rfl
    exact absurd rfl hstay
  | pmessage j =>
    simp only [cluster] at hs
    split at hs
    · cases hs
    · rename_i event inbox hin
      cases hs
      refine ⟨[], hquiet, fun {i ws room} ha _ => follows_put ha ?_⟩
      rintro rfl
      have hg := h.gateway i
      exact ha.handlePmessage hg hin (h.cast event (hg.queued.subset (hin ▸ List.mem_cons_self)))

/-- Over a run there is one list of news: each session that stays throughout is sent its
    room's messages in it, all of them, once and in their order, as soon as its node has
    handled what was pushed to it. -/
theorem received_exactly (h : (cluster json nodeId).Reach Machine.any Cluster.init c) {es : List (ClusterEvent ι W)}
    (hrun : (cluster json nodeId).run c es = some c') :
    ∃ news, c'.published = c.published ++ news ∧ ∀ i ws room, (c.gateways i).Attends ws room →
      (∀ e ∈ es, ¬ Ends i ws e) → (c'.gateways i).received ws ++ texts room (c'.gateways i).inbox =
        (c.gateways i).received ws ++ texts room (c.gateways i).inbox ++ texts room news := by
  have hs : Sound json c := h.invariant (.init json) fun _ _ _ hs _ hstep => hs.step hstep
  suffices hall : ∃ news, c'.published = c.published ++ news ∧ ∀ i ws room, (c.gateways i).Attends ws room →
      (∀ e ∈ es, ¬ Ends i ws e) → Gateway.Follows ws room news (c.gateways i) (c'.gateways i) by
    obtain ⟨news, hpub, hf⟩ := hall
    exact ⟨news, hpub, fun i ws room ha hstay => (hf i ws room ha hstay).sent⟩
  clear h
  induction es generalizing c with
  | nil =>
    cases hrun
    exact ⟨[], (List.append_nil _).symm, fun i ws room ha _ => ⟨ha, (List.append_nil _).symm⟩⟩
  | cons e es ih =>
    obtain ⟨c₁, hstep, hrest⟩ := Option.bind_eq_some_iff.mp hrun
    obtain ⟨first, hpub₁, hf₁⟩ := follows_step hs hstep
    obtain ⟨news, hpub, hf⟩ := ih hrest (hs.step hstep)
    refine ⟨first ++ news, by rw [hpub, hpub₁, List.append_assoc], fun i ws room ha hstay => ?_⟩
    have h₁ := hf₁ ha (hstay e List.mem_cons_self)
    have h₂ := hf i ws room h₁.attends fun e he => hstay e (List.mem_cons_of_mem _ he)
    exact ⟨h₂.attends, by rw [h₂.sent, h₁.sent, texts_append, List.append_assoc, List.append_assoc]⟩

end Runs

/-! ## Two nodes and a room -/

/-- A message's members, in the order in which the source writes them. -/
def Message.members : Message → List (String × String)
  | .system message nodeId => [("type", "system"), ("message", message), ("node_id", nodeId)]
  | .chat content fromNode => [("type", "chat"), ("content", content), ("from_node", fromNode)]
  | .broadcast sender content originNode =>
    [("type", "broadcast"), ("sender", sender), ("content", content), ("origin_node", originNode)]

def Message.ofMembers : List (String × String) → Option Message
  | [("type", "system"), ("message", message), ("node_id", nodeId)] => some (.system message nodeId)
  | [("type", "chat"), ("content", content), ("from_node", fromNode)] => some (.chat content fromNode)
  | [("type", "broadcast"), ("sender", sender), ("content", content), ("origin_node", originNode)] =>
    some (.broadcast sender content originNode)
  | _ => none

def messageJson : Json Message where
  dumps message := .ofList (JsonObject.writeObject (message.members.map fun m => (m.1.toList, m.2.toList)))
  loads s := (JsonObject.readObject s.toList).bind fun l =>
    Message.ofMembers (l.map fun m => (String.ofList m.1, String.ofList m.2))
  loads_dumps message := by
    rw [String.toList_ofList, JsonObject.readObject_writeObject, Option.bind_some, List.map_map]
    cases message <;> simp [Message.members, Message.ofMembers]

def nodeName (i : Bool) : String := if i then "node-1" else "node-2"

/-- A session connects on each node. -/
def joined : Cluster Bool Nat :=
  ((cluster messageJson nodeName).run .init [.subscribe true, .subscribe false, .connect true 1 (some "lobby"),
    .connect false 2 (some "lobby")]).get rfl

/-- The first one says something. The announcement before it is lost. -/
def chatting : List (ClusterEvent Bool Nat) :=
  [.chat true 1 "hi \"all\"", .publish true false, .publish true true, .pmessage false, .pmessage true]

def chatted : Cluster Bool Nat := ((cluster messageJson nodeName).run joined chatting).get (by decide +kernel)

theorem joined_reached : (cluster messageJson nodeName).Reach Machine.any Cluster.init joined :=
  Machine.reach_any_of_run _ (Option.some_get rfl).symm

theorem chatted_run : (cluster messageJson nodeName).run joined chatting = some chatted := (Option.some_get _).symm

theorem chatted_in_order : ((chatted.gateways true).received 1).Sublist (texts "lobby" chatted.published) :=
  received_in_order (joined_reached.trans (Machine.reach_any_of_run chatting chatted_run)) (by decide +kernel)

/-- Both sessions are sent the same. -/
theorem chatted_exactly : ∃ news, chatted.published = joined.published ++ news ∧
    ∀ i ws, (i, ws) = (true, 1) ∨ (i, ws) = (false, 2) →
      (chatted.gateways i).received ws ++ texts "lobby" (chatted.gateways i).inbox =
        (joined.gateways i).received ws ++ texts "lobby" (joined.gateways i).inbox ++ texts "lobby" news := by
  obtain ⟨news, hpub, hall⟩ := received_exactly joined_reached chatted_run
  refine ⟨news, hpub, ?_⟩
  rintro i ws (h | h) <;> cases h
  · exact hall true 1 "lobby" ⟨by decide +kernel, by decide +kernel, _, rfl, by decide⟩ (by simp [chatting, Ends])
  · exact hall false 2 "lobby" ⟨by decide +kernel, by decide +kernel, _, rfl, by decide⟩ (by simp [chatting, Ends])

end Playground.Rooms.Nest
