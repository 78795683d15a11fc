/-
  Playground.Rooms.Channel — which room a published message is broadcast to.

  A message for a room is published to the room's channel, its name behind a prefix.
  Each node takes the room from the channel's name by replacing the prefix by nothing
  and broadcasts to the sessions it has there. JavaScript replaces the first
  occurrence, which is the one in front; Python and Java replace every occurrence, those
  within the room's own name too (`pubsub_manager.py`, `ws-pubsub.manager.ts`,
  `RedisPubSubService.java`, `WebSocketChatHandler.java`).
  - `isolated_iff`: a room is isolated from the others just when the prefix is not in
    its name.
  - `Nest.isolated`: the NestJS version isolates every room.
  - `leaked`: a room whose messages go to another.
-/

import Playground.Lib.Replace
import Playground.Rooms.Registry

namespace Playground.Rooms

open Playground.Lib

/-! ## Publishing and receiving -/

def channelPrefix : String := "ws:room:"

/-- `f"{CHANNEL_PREFIX}{room_id}"`. -/
def channelOf (room : String) : String := channelPrefix ++ room

/-- `s.replace(old, "")` of Python and Java. -/
def replaceAll (s old : String) : String := .ofList (removeAll old.toList s.toList)

/-- `s.replace(old, '')` of JavaScript. -/
def replaceFirst (s old : String) : String := .ofList (removeFirst old.toList s.toList)

/-- Messages written as JSON text and read back. -/
structure Json (M : Type) where
  dumps : M → String
  loads : String → Option M
  loads_dumps : ∀ message, loads (dumps message) = some message

variable {M W : Type}

namespace FastApi

/-- `publish`: the channel and the data. -/
def publish (json : Json M) (room : String) (message : M) : String × String := (channelOf room, json.dumps message)

/-- What `_reader` makes of a `pmessage`: the room and the message of its
    `broadcast_locally`; an exception of `json.loads` is swallowed. -/
def reader (json : Json M) (event : String × String) : Option (String × M) :=
  (json.loads event.2).map fun data => (replaceAll event.1 channelPrefix, data)

variable [DecidableEq W]

/-- `ws` is not registered in any room but `s` while the broadcast runs. -/
def OnlyIn (s : String) (ws : W) (_ : Broadcast String W) (e : Event String W) : Prop :=
  ∀ room layout, e = .connect room ws layout → room = s

/-- Some run of the broadcast that the event starts sends to `ws`, which may be
    registered in room `s` meanwhile. -/
def Receives (json : Json M) (m : Manager String W) (event : String × String) (s : String) (ws : W) : Prop :=
  ∃ room message t, reader json event = some (room, message) ∧
    (broadcasting room).Reach (OnlyIn s ws) (broadcastLocally m room) t ∧ ws ∈ t.taken

end FastApi

/-- The sessions of a NestJS or Spring node, in the order of each room's set, and
    whether each is open. -/
structure Node (W : Type) where
  rooms : String → Option (List W)
  isOpen : W → Bool

/-- The open sessions of a room. -/
def Node.openIn (n : Node W) (room : String) : List W :=
  match n.rooms room with
  | none => []
  | some sessions => sessions.filter n.isOpen

/-- `ws` is in no room but `s`. -/
def Node.OnlyIn (n : Node W) (s : String) (ws : W) : Prop :=
  ∀ room sessions, room ≠ s → n.rooms room = some sessions → ws ∉ sessions

namespace Nest

/-- `publishToCluster`. -/
def publishToCluster (json : Json M) (room : String) (message : M) : String × String :=
  (channelOf room, json.dumps message)

/-- The `pmessage` handler of `initPubSub`: what it calls `broadcastLocally` with. -/
def onPmessage (json : Json M) (event : String × String) : Option (String × M) :=
  (json.loads event.2).map fun data => (replaceFirst event.1 channelPrefix, data)

/-- Whom `broadcastLocally` sends to. -/
def broadcastLocally (n : Node W) (room : String) : List W := n.openIn room

def Receives (json : Json M) (n : Node W) (event : String × String) (ws : W) : Prop :=
  ∃ room message, onPmessage json event = some (room, message) ∧ ws ∈ broadcastLocally n room

end Nest

namespace Spring

/-- `publish`; the message is JSON text already. -/
def publish (room jsonMessage : String) : String × String := (channelOf room, jsonMessage)

/-- What `onMessage` calls `broadcastLocally` with. -/
def onMessage (event : String × String) : String × String := (replaceAll event.1 channelPrefix, event.2)

/-- Whom `broadcastLocally` sends to; an `IOException` of one send is swallowed. -/
def broadcastLocally (n : Node W) (room : String) : List W := n.openIn room

def Receives (n : Node W) (event : String × String) (ws : W) : Prop := ws ∈ broadcastLocally n (onMessage event).1

end Spring

/-! ## Isolation -/

namespace FastApi

/-- A message for `room` is broadcast to `room`, and no session that is only in another
    receives it. -/
def Isolates (json : Json M) (W : Type) [DecidableEq W] (room : String) : Prop :=
  (∀ message, reader json (publish json room message) = some (room, message)) ∧
    ∀ s, s ≠ room → ∀ (m : Manager String W) ws message, (∀ r, r ≠ s → ws ∉ m.registered r) →
      ¬ Receives json m (publish json room message) s ws

end FastApi

namespace Nest

def Isolates (json : Json M) (W : Type) (room : String) : Prop :=
  (∀ message, onPmessage json (publishToCluster json room message) = some (room, message)) ∧
    ∀ s, s ≠ room → ∀ (n : Node W) ws message, n.OnlyIn s ws → ¬ Receives json n (publishToCluster json room message) ws

end Nest

namespace Spring

def Isolates (W : Type) (room : String) : Prop :=
  (∀ message, onMessage (publish room message) = (room, message)) ∧
    ∀ s, s ≠ room → ∀ (n : Node W) ws message, n.OnlyIn s ws → ¬ Receives n (publish room message) ws

end Spring

/-- In each of the three versions. -/
def Isolated (json : Json M) (W : Type) [DecidableEq W] (room : String) : Prop :=
  FastApi.Isolates json W room ∧ Nest.Isolates json W room ∧ Spring.Isolates W room

/-! ## The room recovered -/

variable {room s : String} {ws : W}

theorem channelPrefix_ne_nil : channelPrefix.toList ≠ [] := by decide

theorem replaceFirst_channelOf (room : String) : replaceFirst (channelOf room) channelPrefix = room := by
  rw [replaceFirst, channelOf, String.toList_append, removeFirst_append, String.ofList_toList]

theorem channelOf_inj {a b : String} (h : channelOf a = channelOf b) : a = b := by
  rw [← replaceFirst_channelOf a, h, replaceFirst_channelOf]

/-- The prefix in front goes, and with it every one in the room's name. -/
theorem replaceAll_channelOf : replaceAll (channelOf room) channelPrefix = room ↔
    ¬ channelPrefix.toList <:+: room.toList := by
  rw [replaceAll, channelOf, String.toList_append, removeAll_append channelPrefix_ne_nil,
    ← removeAll_eq_self channelPrefix_ne_nil, ← String.toList_inj, String.toList_ofList]

theorem channelPrefix_unbordered : Unbordered channelPrefix.toList := by decide

/-- The rooms that are taken for `s`, which has not got the prefix in its name: `s` itself,
    and `s` with the prefix put in. -/
theorem replaceAll_channelOf_iff (hs : ¬ channelPrefix.toList <:+: s.toList) :
    replaceAll (channelOf room) channelPrefix = s ↔ Inserted channelPrefix.toList s.toList room.toList := by
  rw [replaceAll, channelOf, String.toList_append, removeAll_append channelPrefix_ne_nil, ← String.toList_inj,
    String.toList_ofList, removeAll_eq_iff channelPrefix_ne_nil channelPrefix_unbordered hs]

/-- An event on the channel of a room that has not got the prefix in its name. -/
def PrefixedOnce (event : String × String) : Prop :=
  ∃ room, event.1 = channelOf room ∧ ¬ channelPrefix.toList <:+: room.toList

/-- The room is recovered, and is no other channel's. -/
theorem PrefixedOnce.room_iff {event : String × String} (h : PrefixedOnce event) :
    replaceAll event.1 channelPrefix = room ↔ event.1 = channelOf room := by
  obtain ⟨r, he, hr⟩ := h
  rw [he, replaceAll_channelOf.mpr hr]
  exact ⟨congrArg channelOf, channelOf_inj⟩

theorem prefixedOnce_iff {event : String × String} :
    PrefixedOnce event ↔ event.1 = channelOf (replaceAll event.1 channelPrefix) := by
  constructor
  · intro h
    exact h.room_iff.mp rfl
  · intro h
    refine ⟨_, h, replaceAll_channelOf.mp ?_⟩
    rw [← h]

instance (event : String × String) : Decidable (PrefixedOnce event) := decidable_of_iff _ prefixedOnce_iff.symm

theorem Node.openIn_only {n : Node W} (h : n.OnlyIn s ws) (hs : s ≠ room) : ws ∉ n.openIn room := by
  intro hws
  unfold Node.openIn at hws
  split at hws
  · cases hws
  · exact h room _ hs.symm ‹_› (List.mem_of_mem_filter hws)

theorem Nest.isolated (json : Json M) (room : String) : Nest.Isolates json W room := by
  have hroom : ∀ message, Nest.onPmessage json (Nest.publishToCluster json room message) = some (room, message) := by
    intro message
    rw [Nest.onPmessage, Nest.publishToCluster, json.loads_dumps, replaceFirst_channelOf]
    rfl
  refine ⟨hroom, ?_⟩
  rintro s hs n ws message hn ⟨r, data, hr, hws⟩
  cases (hroom message).symm.trans hr
  exact Node.openIn_only hn hs hws

theorem Spring.isolates_iff : Spring.Isolates W room ↔ ¬ channelPrefix.toList <:+: room.toList := by
  rw [← replaceAll_channelOf]
  constructor
  · intro h
    exact (Prod.mk.inj (h.1 "")).1
  · intro hroom
    refine ⟨fun message => by rw [Spring.onMessage, Spring.publish, hroom], ?_⟩
    intro s hs n ws message hn hws
    rw [Spring.Receives, Spring.onMessage, Spring.publish, hroom] at hws
    exact Node.openIn_only hn hs hws

/-! ## A broadcast keeps to its room -/

namespace Manager

variable [DecidableEq W] {m m' : Manager String W} {r x : String} {layout : PySet W} {a : Nat}

/-- A set object stays with the room it was made for. -/
theorem connect_object (h : m.connect x ws layout = some m') (ha : a < m.fresh) (hr : m'.localRooms r = some a) :
    m.localRooms r = some a := by
  simp only [connect, entry] at h
  split at h
  · obtain ⟨s, -, rfl⟩ := Option.map_eq_some_iff.mp h
    exact hr
  · obtain ⟨s, -, rfl⟩ := Option.map_eq_some_iff.mp h
    change Function.update m.localRooms x (some m.fresh) r = some a at hr
    by_cases e : r = x
    · subst e
      rw [Function.update_self] at hr
      cases hr
      omega
    · rwa [Function.update_of_ne e] at hr

theorem disconnect_object (hr : (m.disconnect x ws).localRooms r = some a) : m.localRooms r = some a := by
  simp only [disconnect] at hr
  split at hr
  · exact hr
  · split at hr
    · change Function.update m.localRooms x none r = some a at hr
      by_cases e : r = x
      · subst e
        rw [Function.update_self] at hr
        cases hr
      · rwa [Function.update_of_ne e] at hr
    · exact hr

end Manager

namespace FastApi

variable [DecidableEq W] {t t' : Broadcast String W} {m m' : Manager String W} {a : Nat}

/-- The set object that a broadcast to `room` iterates over is no other room's and has
    not got `ws`. -/
def Without (room : String) (ws : W) (m : Manager String W) (a : Nat) : Prop :=
  a < m.fresh ∧ ws ∉ m.sets a ∧ ∀ r, m.localRooms r = some a → r = room

/-- `ws` has not been sent to, and will not be. -/
def Away (room : String) (ws : W) (t : Broadcast String W) : Prop :=
  ws ∉ t.taken ∧ match t.task with
    | .sending a .. => Without room ws t.mgr a
    | _ => True

theorem Without.connect {r : String} {x : W} {layout : PySet W} (h : Without room ws m a) (hs : s ≠ room)
    (hx : x = ws → r = s) (hc : m.connect r x layout = some m') : Without room ws m' a := by
  obtain ⟨ha, hnot, hroom⟩ := h
  obtain ⟨hfresh, hsets⟩ := Manager.connect_sets hc ha
  refine ⟨Nat.lt_of_lt_of_le ha hfresh, ?_, fun r' hr' => hroom r' (Manager.connect_object hc ha hr')⟩
  rcases hsets with he | ⟨hr, hadd⟩
  · rwa [he]
  · have hne : ws ≠ x := fun e => hs ((hx e.symm).symm.trans (hroom r hr))
    rcases PySet.add_cases hadd with ⟨-, he⟩ | ⟨-, hp⟩
    · rwa [he]
    · intro hws
      exact (List.mem_cons.mp (hp.mem_iff.mp hws)).elim hne hnot

theorem Without.disconnect (h : Without room ws m a) (r : String) (x : W) : Without room ws (m.disconnect r x) a := by
  obtain ⟨ha, hnot, hroom⟩ := h
  obtain ⟨hfresh, hsets⟩ := Manager.disconnect_sets m r x a
  refine ⟨Nat.lt_of_lt_of_le ha hfresh, ?_, fun r' hr' => hroom r' (Manager.disconnect_object hr')⟩
  rcases hsets with he | ⟨-, he⟩
  · rwa [he]
  · rw [he]
    intro hws
    have hmem : ws ∈ ((m.sets a).discard x).members := hws
    rw [PySet.members_discard] at hmem
    exact hnot (List.mem_of_mem_filter hmem)

/-- The next member of the set is not `ws`. -/
theorem away_advance {it : PySet.Iter} {dead : List W} {sends : List (W × Bool)} {left : List (String × W)}
    (h : Without room ws m a) (hsends : ws ∉ sends.map (·.1)) :
    Away room ws ⟨(advance room m a it dead).1, (advance room m a it dead).2, sends, left⟩ := by
  cases hn : it.next (m.sets a) with
  | raised | stop => simpa [advance, hn, Away, Broadcast.taken, Task.current] using hsends
  | item x it' =>
    obtain ⟨-, -, hrest⟩ := PySet.next_item hn
    have hx : x ∈ m.sets a := by
      have hmem : x ∈ (m.sets a).unvisited it.pos := by
        rw [hrest]
        exact List.mem_cons_self ..
      exact PySet.mem_of_unvisited hmem
    have hne : ws ≠ x := by
      rintro rfl
      exact h.2.1 hx
    refine ⟨?_, by simpa [advance, hn] using h⟩
    simpa [advance, hn, Broadcast.taken, Task.current, hne] using hsends

theorem Away.step {e : Event String W} (h : Away room ws t) (hs : s ≠ room) (he : OnlyIn s ws t e)
    (hst : (broadcasting room).step t e = some t') : Away room ws t' := by
  obtain ⟨m, task, sends, left⟩ := t
  cases e with
  | connect r x layout =>
    obtain ⟨m', hc, rfl⟩ := Option.map_eq_some_iff.mp hst
    refine ⟨h.1, ?_⟩
    cases task with
    | finished | raised => trivial
    | sending a it dead cur =>
      refine Without.connect h.2 hs ?_ hc
      rintro rfl
      exact he r layout rfl
  | disconnect r x =>
    cases hst
    refine ⟨h.1, ?_⟩
    cases task with
    | finished | raised => trivial
    | sending a it dead cur => exact Without.disconnect h.2 r x
  | sent ok =>
    cases task with
    | finished | raised => cases hst
    | sending a it dead cur =>
      cases hst
      exact away_advance h.2 (by simpa [Broadcast.taken, Task.current] using h.1)

theorem away_start (h : ws ∉ m.registered room) : Away room ws (broadcastLocally m room) := by
  simp only [Manager.registered] at h
  simp only [broadcastLocally]
  split at h
  · exact ⟨List.not_mem_nil, trivial⟩
  · rename_i a ha
    exact away_advance ⟨m.known ha, h, fun r hr => m.apart hr ha⟩ List.not_mem_nil

theorem isolates_iff [Inhabited M] (json : Json M) :
    FastApi.Isolates json W room ↔ ¬ channelPrefix.toList <:+: room.toList := by
  rw [← replaceAll_channelOf]
  have hreader : ∀ message, reader json (publish json room message) =
      some (replaceAll (channelOf room) channelPrefix, message) := by
    intro message
    rw [reader, publish, json.loads_dumps]
    rfl
  constructor
  · intro h
    have hsome := (hreader default).symm.trans (h.1 default)
    exact (Prod.mk.inj (Option.some.inj hsome)).1
  · intro hroom
    rw [hroom] at hreader
    refine ⟨hreader, ?_⟩
    rintro s hs m ws message honly ⟨r, data, t, hr, ht, hws⟩
    cases (hreader message).symm.trans hr
    have haway : Away room ws t :=
      ht.invariant (away_start (honly room hs.symm)) fun _ _ _ hi he hst => hi.step hs he hst
    exact haway.1 hws

end FastApi

/-- A room is isolated from the others if and only if the prefix is not in its name. -/
theorem isolated_iff [DecidableEq W] [Inhabited M] (json : Json M) (room : String) :
    Isolated json W room ↔ ¬ channelPrefix.toList <:+: room.toList := by
  constructor
  · exact fun h => FastApi.isolates_iff json |>.mp h.1
  · exact fun h => ⟨(FastApi.isolates_iff json).mpr h, Nest.isolated json room, Spring.isolates_iff.mpr h⟩

/-! ## A room named after a channel -/

/-- The messages of one chat line. -/
def greeting : Json Unit where
  dumps _ := "\x7b\"type\": \"chat\", \"content\": \"hi\"\x7d"
  loads s := if s = "\x7b\"type\": \"chat\", \"content\": \"hi\"\x7d" then some () else none
  loads_dumps _ := rfl

/-- One socket, in room `lobby`. -/
def lobbyOnly : Manager String Nat := (Manager.init.connect "lobby" 1 (table [1] one_nodup)).get rfl

def lobbyNode : Node Nat := ⟨fun room => if room = "lobby" then some [1] else none, fun _ => true⟩

/-- It receives what is published to room `ws:room:lobby`, in the Python version and in
    the Spring version. -/
theorem leaked : ¬ Isolated greeting Nat "ws:room:lobby" ∧
    (∀ room, room ≠ "lobby" → 1 ∉ lobbyOnly.registered room) ∧
    FastApi.Receives greeting lobbyOnly (FastApi.publish greeting "ws:room:lobby" ()) "lobby" 1 ∧
    Spring.Receives lobbyNode (Spring.publish "ws:room:lobby" "\"hi\"") 1 := by
  refine ⟨?_, ?_, ⟨"lobby", (), broadcastLocally lobbyOnly "lobby", by decide, .init, by decide⟩, ?_⟩
  · intro h
    exact absurd (h.2.2.1 "") (by decide)
  · intro room hroom hin
    have hconn : Manager.init.connect "lobby" 1 (table [1] one_nodup) = some lobbyOnly := (Option.some_get _).symm
    rcases (Manager.mem_registered_connect hconn).mp hin with ⟨e, -⟩ | hin
    · exact hroom e
    · cases hin
  · show 1 ∈ Spring.broadcastLocally lobbyNode (Spring.onMessage (Spring.publish "ws:room:lobby" "\"hi\"")).1
    decide

end Playground.Rooms
