/-
  Playground.Rooms.Deliveries — the chat of the Spring version over several nodes
  (`WebSocketChatHandler.java`, `RedisPubSubService.java`).

  A node's listener container has a thread of its own call `onMessage` for every message
  that Redis pushes to it, so broadcasts to one room run side by side, and connects and
  disconnects beside them. A broadcast iterates over a concurrent set: it comes to each
  session that stays once, and to those that come and go once or not at all.
  A message is of the room on whose channel it is published. Where no room that is
  published for has the prefix in its name (`PrefixedOnce`):
  - `received_at_most_once`: a session receives messages of its own room only, and none
    more often than Redis published it.
  - `received_all`: while no broadcast to the room is ended by an unchecked exception and
    no send to the session fails, each of them comes exactly once, in some order.
-/

import Mathlib.Data.List.Flatten
import Mathlib.Data.List.Perm.Subperm
import Playground.Rooms.ChatHandler
import Playground.Rooms.Sessions

namespace Playground.Rooms.Spring

open Playground.Lib Playground.Rooms.Sessions

variable {ι W : Type}

/-! ## A node -/

/-- A `broadcastLocally` under way: the sessions that the room had when its iterator was
    made, those that were added since, and those that the iterator has returned. -/
structure Delivery (W : Type) where
  room : String
  message : String
  members : List W
  added : List W
  returned : List W

namespace Delivery

variable (d : Delivery W)

/-- A session is added to a room. -/
def joined (room : String) (s : W) : Delivery W := if d.room = room then { d with added := s :: d.added } else d

/-- The iterator has returned the session. -/
def next (s : W) : Delivery W := { d with returned := d.returned ++ [s] }

/-- What the sessions have received, after the turn of `s`. -/
def send [DecidableEq W] (s : W) (outcome : Outcome) (received : W → List String) : W → List String :=
  if outcome = .delivered then Function.update received s (received s ++ [d.message]) else received

end Delivery

/-- The broadcast that `onMessage` starts, if the room has a set of sessions. -/
def broadcasts (h : Handler W) (event : String × String) : List (Delivery W) :=
  (h.rooms (onMessage event).1).toList.map fun sessions => ⟨(onMessage event).1, (onMessage event).2, sessions, [], []⟩

/-- A node's handler, what its sessions have received, the messages whose `onMessage` has
    not begun, and the broadcasts of the others. -/
structure Server (W : Type) where
  handler : Handler W
  received : W → List String
  waiting : List (String × String)
  running : List (Delivery W)
  listening : Bool

namespace Server

def init : Server W := ⟨⟨fun _ => none, fun _ => none⟩, fun _ => [], [], [], false⟩

variable (g : Server W)

def push (event : String × String) : Server W := if g.listening then { g with waiting := g.waiting ++ [event] } else g

/-- The subscription is lost, and all but the first `kept` of what was pushed with it. -/
def lose (kept : Nat) : Server W := { g with waiting := g.waiting.take kept, listening := false }

/-- A thread begins with `onMessage` of the `k`-th message that waits. -/
def begin (k : Nat) : Option (Server W) :=
  g.waiting[k]?.map fun event => { g with
    waiting := g.waiting.eraseIdx k
    running := g.running ++ broadcasts g.handler event }

variable [DecidableEq W]

/-- `afterConnectionEstablished`. -/
def connect (nodeId : String) (s : W) (query : Option String) : Server W :=
  { g with
    handler := (g.handler.afterConnectionEstablished nodeId s query).1
    running := g.running.map (·.joined (extractRoom query) s) }

/-- `afterConnectionClosed`. -/
def disconnect (nodeId : String) (s : W) : Server W :=
  { g with handler := (g.handler.afterConnectionClosed nodeId s).1 }

/-- The iterator of the `k`-th broadcast returns `s`, for which `isOpen` and `sendMessage`
    come to `outcome`; an unchecked exception ends the broadcast (`Sessions.sendTo_ends`). -/
def turn (k : Nat) (s : W) (outcome : Outcome) : Option (Server W) :=
  match g.running[k]? with
  | none => none
  | some d =>
    if s ∉ d.returned ∧ (s ∈ d.members ∨ s ∈ d.added) then
      some { g with
        received := d.send s outcome g.received
        running := if outcome.unchecked then g.running.eraseIdx k else g.running.set k (d.next s) }
    else none

/-- The `k`-th broadcast has come to every session that was there all along. -/
def finish (k : Nat) : Option (Server W) :=
  match g.running[k]? with
  | none => none
  | some d =>
    if ∀ s ∈ d.members, s ∈ g.handler.sessions d.room → s ∈ d.returned then
      some { g with running := g.running.eraseIdx k }
    else none

variable {g} {g' : Server W} {k : Nat}

theorem turn_cases {s : W} {outcome : Outcome} (h : g.turn k s outcome = some g') :
    ∃ d, g.running[k]? = some d ∧ s ∉ d.returned ∧ (s ∈ d.members ∨ s ∈ d.added) ∧ g' = { g with
      received := d.send s outcome g.received
      running := if outcome.unchecked then g.running.eraseIdx k else g.running.set k (d.next s) } := by
  unfold turn at h
  split at h
  · cases h
  · rename_i d hd
    obtain ⟨⟨hs, hin⟩, h⟩ := Option.ite_none_right_eq_some.mp h
    exact ⟨d, hd, hs, hin, (Option.some.inj h).symm⟩

theorem finish_cases (h : g.finish k = some g') :
    ∃ d, g.running[k]? = some d ∧ (∀ s ∈ d.members, s ∈ g.handler.sessions d.room → s ∈ d.returned) ∧
      g' = { g with running := g.running.eraseIdx k } := by
  unfold finish at h
  split at h
  · cases h
  · rename_i d hd
    obtain ⟨hall, h⟩ := Option.ite_none_right_eq_some.mp h
    exact ⟨d, hd, hall, (Option.some.inj h).symm⟩

end Server

/-! ## The cluster -/

/-- The nodes, and what Redis has published, oldest first. -/
structure Cluster (ι W : Type) where
  servers : ι → Server W
  published : List (String × String)

def Cluster.init : Cluster ι W := ⟨fun _ => .init, []⟩

inductive ClusterEvent (ι W : Type) where
  | connect (i : ι) (session : W) (query : Option String)
  | disconnect (i : ι) (session : W)
  | publish (event : String × String)
  | subscribe (i : ι)
  | lose (i : ι) (kept : Nat)
  | begin (i : ι) (k : Nat)
  | turn (i : ι) (k : Nat) (session : W) (outcome : Outcome)
  | finish (i : ι) (k : Nat)

def Cluster.put [DecidableEq ι] (c : Cluster ι W) (i : ι) (g : Server W) : Cluster ι W :=
  { c with servers := Function.update c.servers i g }

/-- A session connects once. What is published is on a channel of the pattern `ws:room:*`;
    what the handlers publish is among it. -/
def cluster [DecidableEq ι] [DecidableEq W] (nodeId : ι → String) : Machine (Cluster ι W) (ClusterEvent ι W) where
  step c
    | .connect i s query =>
      if (c.servers i).handler.attributes s = none then
        some (c.put i ((c.servers i).connect (nodeId i) s query))
      else none
    | .disconnect i s => some (c.put i ((c.servers i).disconnect (nodeId i) s))
    | .publish event =>
      if channelPrefix.toList <+: event.1.toList then
        some ⟨fun i => (c.servers i).push event, c.published ++ [event]⟩
      else none
    | .subscribe i => some (c.put i { c.servers i with listening := true })
    | .lose i kept => some (c.put i ((c.servers i).lose kept))
    | .begin i k => ((c.servers i).begin k).map (c.put i)
    | .turn i k s outcome => ((c.servers i).turn k s outcome).map (c.put i)
    | .finish i k => ((c.servers i).finish k).map (c.put i)

/-- The message of an event on the room's channel. -/
def textOf (room : String) (event : String × String) : List String :=
  if event.1 = channelOf room then [event.2] else []

def texts (room : String) (events : List (String × String)) : List String := events.flatMap (textOf room)

/-! ## Counting -/

section Count

variable {α β : Type} [DecidableEq β] {l : List α} {k : Nat} {a : α}

theorem count_eraseIdx (f : α → List β) (h : l[k]? = some a) (b : β) :
    (l.flatMap f).count b = (f a).count b + ((l.eraseIdx k).flatMap f).count b := by
  obtain ⟨hk, rfl⟩ := List.getElem?_eq_some_iff.mp h
  have hp : (l[k] :: l.eraseIdx k).Perm l := List.getElem_cons_eraseIdx_perm hk
  rw [← (hp.flatMap_right f).count_eq b, List.flatMap_cons, List.count_append]

theorem count_set (f : α → List β) (h : l[k]? = some a) (a' : α) (b : β) :
    ((l.set k a').flatMap f).count b = (f a').count b + ((l.eraseIdx k).flatMap f).count b := by
  obtain ⟨hk, -⟩ := List.getElem?_eq_some_iff.mp h
  have hp : (l.set k a').Perm (a' :: l.eraseIdx k) := List.set_perm_cons_eraseIdx hk a'
  rw [(hp.flatMap_right f).count_eq b, List.flatMap_cons, List.count_append]

end Count

section Owed

variable [DecidableEq W] (s : W) (room : String)

/-- What a broadcast has still to send to the session, if it is in the room. -/
def due (d : Delivery W) : List String := if d.room = room ∧ s ∉ d.returned then [d.message] else []

/-- What a node has still to send to a session of the room. -/
def owed (g : Server W) : List String := texts room g.waiting ++ g.running.flatMap (due s room)

variable {s room} {g : Server W} {d : Delivery W} {k : Nat} {text : String}

theorem texts_append (l l' : List (String × String)) : texts room (l ++ l') = texts room l ++ texts room l' :=
  List.flatMap_append

@[simp] theorem due_joined (r : String) (x : W) : due s room (d.joined r x) = due s room d := by
  unfold Delivery.joined
  split <;> rfl

theorem due_returned (h : s ∈ d.returned) : due s room d = [] := by simp [due, h]

theorem due_room (h : d.room ≠ room) : due s room d = [] := by simp [due, h]

theorem due_next_self : due s room (d.next s) = [] := due_returned (List.mem_append_right _ (List.mem_singleton_self s))

theorem due_next_of_ne {x : W} (h : s ≠ x) : due s room (d.next x) = due s room d := by
  simp [due, Delivery.next, h]

theorem send_of_ne {x : W} {outcome : Outcome} {received : W → List String} (h : s ≠ x) :
    d.send x outcome received s = received s := by
  unfold Delivery.send
  split
  · exact Function.update_of_ne h ..
  · rfl

/-- A message delivered is no longer due. -/
theorem send_due {x : W} {received : W → List String} (hx : x ∉ d.returned) (hroom : s = x → d.room = room)
    {outcome : Outcome} (ho : s = x → outcome = .delivered) :
    d.send x outcome received s ++ due s room (d.next x) = received s ++ due s room d := by
  by_cases e : s = x
  · subst e
    rw [due_next_self, ho rfl]
    simp [Delivery.send, due, hroom rfl, hx]
  · rw [due_next_of_ne e, send_of_ne e]

theorem send_due_sublist {x : W} {received : W → List String} (hx : x ∉ d.returned) (hroom : s = x → d.room = room)
    (outcome : Outcome) :
    (d.send x outcome received s ++ due s room (d.next x)).Sublist (received s ++ due s room d) := by
  by_cases ho : outcome = .delivered
  · rw [send_due hx hroom fun _ => ho]
  · have hsend : d.send x outcome received = received := if_neg ho
    rw [hsend]
    refine (List.Sublist.refl _).append ?_
    by_cases e : s = x
    · subst e
      rw [due_next_self]
      exact List.nil_sublist _
    · rw [due_next_of_ne e]

/-- The broadcast of an event is due if the event is on the room's channel. -/
theorem due_broadcast {event : String × String} (honce : PrefixedOnce event) (l : List W) :
    due s room ⟨(onMessage event).1, (onMessage event).2, l, [], []⟩ = textOf room event := by
  simp [due, textOf, onMessage, honce.room_iff]

theorem due_broadcasts_sublist (h : Handler W) {event : String × String} (honce : PrefixedOnce event) :
    ((broadcasts h event).flatMap (due s room)).Sublist (textOf room event) := by
  unfold broadcasts
  cases h.rooms (onMessage event).1 with
  | none => exact List.nil_sublist _
  | some l => simp [due_broadcast honce]

theorem due_broadcasts {h : Handler W} (hs : s ∈ h.sessions room) {event : String × String}
    (honce : PrefixedOnce event) : (broadcasts h event).flatMap (due s room) = textOf room event := by
  unfold broadcasts
  cases hl : h.rooms (onMessage event).1 with
  | none =>
    have hne : event.1 ≠ channelOf room := by
      intro e
      obtain rfl : (onMessage event).1 = room := honce.room_iff.mpr e
      simp [Handler.sessions, hl] at hs
    simp [textOf, hne]
  | some l => simp [due_broadcast honce]

theorem owed_count (text : String) :
    (owed s room g).count text = (texts room g.waiting).count text + (g.running.flatMap (due s room)).count text := by
  rw [owed, List.count_append]

end Owed

/-! ## The handler -/

namespace Handler

variable {h : Handler W} {nodeId room : String} {s x : W} {query : Option String}

theorem mem_broadcasts {event : String × String} {d : Delivery W} (hd : d ∈ broadcasts h event) :
    h.sessions d.room = d.members ∧ d.added = [] := by
  obtain ⟨l, hl, rfl⟩ := List.mem_map.mp hd
  simp [sessions, Option.mem_toList.mp hl]

variable [DecidableEq W]

theorem mem_established : x ∈ (h.afterConnectionEstablished nodeId s query).1.sessions room ↔
    (room = extractRoom query ∧ x = s) ∨ x ∈ h.sessions room := by
  by_cases e : room = extractRoom query
  · subst e
    simp [afterConnectionEstablished, sessions]
  · simp [afterConnectionEstablished, sessions, e]

/-- A session is taken out, of one room at most. -/
theorem closed_sessions (h : Handler W) (nodeId room : String) (s : W) :
    (h.afterConnectionClosed nodeId s).1.sessions room = h.sessions room ∨
      (h.afterConnectionClosed nodeId s).1.sessions room = (h.sessions room).erase s := by
  unfold afterConnectionClosed
  split
  · exact .inl rfl
  · rename_i r _
    split
    · exact .inl rfl
    · rename_i l hl
      by_cases e : room = r
      · subst e
        simp [sessions, hl]
      · simp [sessions, Function.update_of_ne e]

theorem closed_attributes : (h.afterConnectionClosed nodeId s).1.attributes = h.attributes := by
  unfold afterConnectionClosed
  split
  · rfl
  · split <;> rfl

theorem mem_closed (hx : x ∈ (h.afterConnectionClosed nodeId s).1.sessions room) : x ∈ h.sessions room := by
  rcases closed_sessions h nodeId room s with e | e
  · rwa [e] at hx
  · rw [e] at hx
    exact List.mem_of_mem_erase hx

theorem mem_closed_of_ne (hx : x ∈ h.sessions room) (hne : x ≠ s) :
    x ∈ (h.afterConnectionClosed nodeId s).1.sessions room := by
  rcases closed_sessions h nodeId room s with e | e
  · rwa [e]
  · rw [e]
    exact (List.mem_erase_of_ne hne).mpr hx

end Handler

/-! ## At most once -/

/-- Of a node, when Redis has published `P`. -/
structure Server.Sound [DecidableEq W] (P : List (String × String)) (g : Server W) : Prop where
  rooms : ∀ {room s}, s ∈ g.handler.sessions room → g.handler.attributes s = some room
  home : ∀ d ∈ g.running, ∀ s, s ∈ d.members ∨ s ∈ d.added → g.handler.attributes s = some d.room
  fresh : ∀ {s}, g.handler.attributes s = none → g.received s = []
  queued : ∀ event ∈ g.waiting, event ∈ P
  once : (∀ event ∈ P, PrefixedOnce event) → ∀ {s room}, (∀ r, g.handler.attributes s = some r → r = room) →
    ∀ text, (g.received s).count text + (owed s room g).count text ≤ (texts room P).count text

namespace Server.Sound

variable [DecidableEq W] {P : List (String × String)} {g g' : Server W} {k : Nat}

theorem init : Sound [] (Server.init : Server W) where
  rooms h := by simp [Server.init, Handler.sessions] at h
  home d h := by simp [Server.init] at h
  fresh _ := rfl
  queued event h := by simp [Server.init] at h
  once _ _ _ _ text := by simp [Server.init, owed, texts]

theorem push (h : g.Sound P) (event : String × String) : (g.push event).Sound (P ++ [event]) := by
  have hmono : ∀ e ∈ P, e ∈ P ++ [event] := fun e he => List.mem_append_left _ he
  unfold Server.push
  by_cases hl : g.listening = true
  · simp only [hl, if_true]
    refine ⟨h.rooms, h.home, h.fresh, fun e he => ?_, fun hP {s room} hs text => ?_⟩
    · rcases List.mem_append.mp he with he | he
      · exact hmono e (h.queued e he)
      · exact List.mem_append_right _ he
    · have := h.once (fun e he => hP e (hmono e he)) hs text
      simp only [owed_count, texts_append, List.count_append] at this ⊢
      omega
  · simp only [hl, Bool.false_eq_true, if_false]
    refine ⟨h.rooms, h.home, h.fresh, fun e he => hmono e (h.queued e he), fun hP {s room} hs text => ?_⟩
    have := h.once (fun e he => hP e (hmono e he)) hs text
    simp only [texts_append, List.count_append]
    omega

theorem subscribe (h : g.Sound P) : Sound P { g with listening := true } :=
  ⟨h.rooms, h.home, h.fresh, h.queued, h.once⟩

theorem lose (h : g.Sound P) (kept : Nat) : (g.lose kept).Sound P := by
  have hqueued : ∀ event ∈ g.waiting.take kept, event ∈ P := fun e he => h.queued e (List.mem_of_mem_take he)
  refine ⟨h.rooms, h.home, h.fresh, hqueued, fun hP {s room} hs text => ?_⟩
  have htake : (texts room (g.waiting.take kept)).count text ≤ (texts room g.waiting).count text :=
    ((List.take_sublist kept g.waiting).flatMap _).count_le text
  have := h.once hP hs text
  simp only [owed_count] at this ⊢
  simp only [Server.lose]
  omega

theorem connect (h : g.Sound P) {s : W} (hs : g.handler.attributes s = none) (nodeId : String) (query : Option String) :
    (g.connect nodeId s query).Sound P := by
  have hattr : ∀ {x r}, g.handler.attributes x = some r → (g.connect nodeId s query).handler.attributes x = some r := by
    intro x r hx
    have hne : x ≠ s := fun e => by simp [← e, hx] at hs
    exact (Function.update_of_ne hne ..).trans hx
  have howed : ∀ x room, owed x room (g.connect nodeId s query) = owed x room g := by
    intro x room
    simp [owed, Server.connect, List.flatMap_map]
  refine ⟨fun {room x} hx => ?_, fun d hd x hx => ?_, fun {x} hx => ?_, h.queued, fun hP {x room} hx text => ?_⟩
  · have hx : x ∈ (g.handler.afterConnectionEstablished nodeId s query).1.sessions room := hx
    rcases Handler.mem_established.mp hx with ⟨rfl, rfl⟩ | hx
    · exact Function.update_self ..
    · exact hattr (h.rooms hx)
  · obtain ⟨d₀, hd₀, rfl⟩ := List.mem_map.mp hd
    unfold Delivery.joined at hx ⊢
    split at hx
    · rename_i hroom
      rw [if_pos hroom]
      rcases hx with hx | hx
      · exact hattr (h.home d₀ hd₀ x (.inl hx))
      · rcases List.mem_cons.mp hx with rfl | hx
        · rw [hroom]
          exact Function.update_self ..
        · exact hattr (h.home d₀ hd₀ x (.inr hx))
    · rename_i hroom
      rw [if_neg hroom]
      exact hattr (h.home d₀ hd₀ x hx)
  · have hnone : g.handler.attributes x = none := by
      cases hx' : g.handler.attributes x with
      | none => rfl
      | some r => simp [hattr hx'] at hx
    exact h.fresh hnone
  · rw [howed]
    exact h.once hP (fun r hr => hx r (hattr hr)) text

theorem disconnect (h : g.Sound P) (nodeId : String) (s : W) : (g.disconnect nodeId s).Sound P := by
  have hattr : (g.disconnect nodeId s).handler.attributes = g.handler.attributes := Handler.closed_attributes
  refine ⟨fun hx => ?_, fun d hd x hx => ?_, fun hx => ?_, h.queued, fun hP _ _ hx text => ?_⟩
  · rw [hattr]
    exact h.rooms (Handler.mem_closed hx)
  · rw [hattr]
    exact h.home d hd x hx
  · rw [hattr] at hx
    exact h.fresh hx
  · rw [hattr] at hx
    exact h.once hP hx text

theorem begin (h : g.Sound P) (hg : g.begin k = some g') : g'.Sound P := by
  obtain ⟨event, hevent, rfl⟩ := Option.map_eq_some_iff.mp hg
  have hqueued : ∀ e ∈ g.waiting.eraseIdx k, e ∈ P := fun e he => h.queued e (List.mem_of_mem_eraseIdx he)
  refine ⟨h.rooms, fun d hd s hs => ?_, h.fresh, hqueued, fun hP {s room} hs text => ?_⟩
  · rcases List.mem_append.mp hd with hd | hd
    · exact h.home d hd s hs
    · obtain ⟨hmembers, hadded⟩ := Handler.mem_broadcasts hd
      rw [hadded, ← hmembers] at hs
      rcases hs with hs | hs
      · exact h.rooms hs
      · cases hs
  · have honce : PrefixedOnce event := hP event (h.queued event (List.mem_of_getElem? hevent))
    have hle : ((broadcasts g.handler event).flatMap (due s room)).count text ≤ (textOf room event).count text :=
      (due_broadcasts_sublist g.handler honce).count_le text
    have := h.once hP hs text
    have herase := count_eraseIdx (textOf room) hevent text
    simp only [owed_count, List.flatMap_append, List.count_append, texts] at this herase ⊢
    omega

theorem turn (h : g.Sound P) {s : W} {outcome : Outcome} (hg : g.turn k s outcome = some g') : g'.Sound P := by
  obtain ⟨d, hd, hs, hin, rfl⟩ := Server.turn_cases hg
  have hattr : g.handler.attributes s = some d.room := h.home d (List.mem_of_getElem? hd) s hin
  refine ⟨h.rooms, fun d' hd' x hx => ?_, fun {x} hx => ?_, h.queued, fun hP {x room} hx text => ?_⟩
  · split at hd'
    · exact h.home d' (List.mem_of_mem_eraseIdx hd') x hx
    · rcases List.mem_or_eq_of_mem_set hd' with hd' | rfl
      · exact h.home d' hd' x hx
      · exact h.home d (List.mem_of_getElem? hd) x hx
  · have hne : x ≠ s := fun e => by simp [e, hattr] at hx
    exact (send_of_ne hne).trans (h.fresh hx)
  · have hroom : x = s → d.room = room := fun e => hx _ (e ▸ hattr)
    have hle : (d.send s outcome g.received x ++ due x room (d.next s)).count text ≤
        (g.received x ++ due x room d).count text :=
      (send_due_sublist hs hroom outcome).count_le text
    have := h.once hP hx text
    simp only [owed_count, count_eraseIdx (due x room) hd, List.count_append] at this hle ⊢
    split
    · omega
    · rw [count_set (due x room) hd]
      omega

theorem finish (h : g.Sound P) (hg : g.finish k = some g') : g'.Sound P := by
  obtain ⟨d, hd, -, rfl⟩ := Server.finish_cases hg
  refine ⟨h.rooms, fun d hd => h.home d (List.mem_of_mem_eraseIdx hd), h.fresh, h.queued, fun hP {s room} hs text => ?_⟩
  have := h.once hP hs text
  simp only [owed_count, count_eraseIdx (due s room) hd] at this ⊢
  omega

end Server.Sound

section Cluster

variable [DecidableEq ι] [DecidableEq W] {nodeId : ι → String} {c c' : Cluster ι W} {e : ClusterEvent ι W} {i : ι}
  {g : Server W}

omit [DecidableEq W] in
theorem put_self : (c.put i g).servers i = g := Function.update_self ..

omit [DecidableEq W] in
theorem put_of_ne {j : ι} (h : j ≠ i) : (c.put i g).servers j = c.servers j := Function.update_of_ne h ..

theorem sound_put (h : ∀ i, (c.servers i).Sound c.published) (hg : g.Sound c.published) :
    ∀ j, ((c.put i g).servers j).Sound (c.put i g).published :=
  (Function.forall_update_iff c.servers fun _ g => g.Sound c.published).mpr ⟨hg, fun j _ => h j⟩

theorem sound_step (h : ∀ i, (c.servers i).Sound c.published) (hs : (cluster nodeId).step c e = some c') :
    ∀ i, (c'.servers i).Sound c'.published := by
  cases e with
  | connect i s query =>
    obtain ⟨hnone, hs⟩ := Option.ite_none_right_eq_some.mp hs
    cases hs
    exact sound_put h ((h i).connect hnone (nodeId i) query)
  | disconnect i s =>
    cases hs
    exact sound_put h ((h i).disconnect (nodeId i) s)
  | publish event =>
    obtain ⟨-, hs⟩ := Option.ite_none_right_eq_some.mp hs
    cases hs
    exact fun i => (h i).push event
  | subscribe i =>
    cases hs
    exact sound_put h (h i).subscribe
  | lose i kept =>
    cases hs
    exact sound_put h ((h i).lose kept)
  | begin i k =>
    obtain ⟨g, hg, rfl⟩ := Option.map_eq_some_iff.mp hs
    exact sound_put h ((h i).begin hg)
  | turn i k s outcome =>
    obtain ⟨g, hg, rfl⟩ := Option.map_eq_some_iff.mp hs
    exact sound_put h ((h i).turn hg)
  | finish i k =>
    obtain ⟨g, hg, rfl⟩ := Option.map_eq_some_iff.mp hs
    exact sound_put h ((h i).finish hg)

theorem sound_of_reach {ok : Cluster ι W → ClusterEvent ι W → Prop} (h : (cluster nodeId).Reach ok .init c) (i : ι) :
    (c.servers i).Sound c.published := by
  revert i
  exact h.invariant (P := fun c => ∀ i, (c.servers i).Sound c.published) (fun _ => .init)
    fun _ _ _ h _ hs => sound_step h hs

/-- Whatever overtakes what, fails, comes, goes or is lost, while nothing is published for a
    room with the prefix in its name: a session has received messages of its own room only,
    and none more often than Redis has published it. -/
theorem received_at_most_once (h : (cluster nodeId).Reach Machine.any .init c)
    (honce : ∀ event ∈ c.published, PrefixedOnce event) {s : W} {room : String}
    (hs : (c.servers i).handler.attributes s = some room) :
    ((c.servers i).received s).Subperm (texts room c.published) := by
  refine List.subperm_iff_count.mpr fun text => ?_
  have hroom : ∀ r, (c.servers i).handler.attributes s = some r → r = room := by
    intro r hr
    exact Option.some.inj (hr.symm.trans hs)
  have := (sound_of_reach h i).once honce hroom text
  omega

end Cluster

/-! ## A session that stays -/

section Steady

variable [DecidableEq W] {P : List (String × String)} {s : W} {room : String} {g g' : Server W} {k : Nat}

/-- The node listens and has the session in the room, and every broadcast to the room under
    way began with it there. -/
structure Attends (s : W) (room : String) (g : Server W) : Prop where
  listening : g.listening = true
  member : s ∈ g.handler.sessions room
  once : ∀ event ∈ g.waiting, PrefixedOnce event
  counted : ∀ d ∈ g.running, d.room = room → s ∈ d.members

/-- The node goes from `g` to `g'` while Redis publishes `news`: the session receives what
    it was owed before and the messages of its room among the news, or is owed them still. -/
structure Follows (s : W) (room : String) (news : List (String × String)) (g g' : Server W) : Prop where
  attends : Attends s room g'
  count : ∀ text, (g'.received s).count text + (owed s room g').count text =
    (g.received s).count text + (owed s room g).count text + (texts room news).count text

theorem Follows.trans {first news : List (String × String)} {g₁ : Server W} (h : Follows s room first g g₁)
    (h' : Follows s room news g₁ g') : Follows s room (first ++ news) g g' := by
  refine ⟨h'.attends, fun text => ?_⟩
  rw [h'.count, h.count, texts_append, List.count_append, Nat.add_assoc]

namespace Attends

theorem same (h : Attends s room g) : Follows s room [] g g := ⟨h, fun text => by simp [texts]⟩

theorem push (h : Attends s room g) {event : String × String} (honce : PrefixedOnce event) :
    Follows s room [event] g (g.push event) := by
  have hpush : g.push event = { g with waiting := g.waiting ++ [event] } := if_pos h.listening
  rw [hpush]
  refine ⟨⟨h.listening, h.member, fun e he => ?_, h.counted⟩, fun text => ?_⟩
  · rcases List.mem_append.mp he with he | he
    · exact h.once e he
    · exact List.mem_singleton.mp he ▸ honce
  simp only [owed_count, texts_append, List.count_append]
  omega

theorem subscribe (h : Attends s room g) : Follows s room [] g { g with listening := true } :=
  ⟨⟨rfl, h.member, h.once, h.counted⟩, h.same.count⟩

theorem connect (h : Attends s room g) (nodeId : String) (x : W) (query : Option String) :
    Follows s room [] g (g.connect nodeId x query) := by
  have hmember : s ∈ (g.handler.afterConnectionEstablished nodeId x query).1.sessions room :=
    Handler.mem_established.mpr (.inr h.member)
  refine ⟨⟨h.listening, hmember, h.once, fun d hd hr => ?_⟩, fun text => ?_⟩
  · obtain ⟨d₀, hd₀, rfl⟩ := List.mem_map.mp hd
    unfold Delivery.joined at hr ⊢
    split at hr
    · rw [if_pos ‹_›]
      exact h.counted d₀ hd₀ hr
    · rw [if_neg ‹_›]
      exact h.counted d₀ hd₀ hr
  · simp [owed, Server.connect, List.flatMap_map, texts]

theorem disconnect (h : Attends s room g) {x : W} (hx : x ≠ s) (nodeId : String) :
    Follows s room [] g (g.disconnect nodeId x) :=
  ⟨⟨h.listening, Handler.mem_closed_of_ne h.member hx.symm, h.once, h.counted⟩, h.same.count⟩

theorem begin (h : Attends s room g) (hg : g.begin k = some g') : Follows s room [] g g' := by
  obtain ⟨event, hevent, rfl⟩ := Option.map_eq_some_iff.mp hg
  have hwaiting : ∀ e ∈ g.waiting.eraseIdx k, PrefixedOnce e := fun e he => h.once e (List.mem_of_mem_eraseIdx he)
  refine ⟨⟨h.listening, h.member, hwaiting, fun d hd hr => ?_⟩, fun text => ?_⟩
  · rcases List.mem_append.mp hd with hd | hd
    · exact h.counted d hd hr
    · rw [← (Handler.mem_broadcasts hd).1, hr]
      exact h.member
  · have honce : PrefixedOnce event := h.once event (List.mem_of_getElem? hevent)
    have herase := count_eraseIdx (textOf room) hevent text
    simp only [owed_count, List.flatMap_append, List.count_append, due_broadcasts h.member honce, texts,
      List.flatMap_nil, List.count_nil] at herase ⊢
    omega

/-- A turn in a broadcast to the room throws no unchecked exception, and delivers if it is
    the session's. -/
theorem turn (h : Attends s room g) (hs : g.Sound P) {x : W} {outcome : Outcome} (hg : g.turn k x outcome = some g')
    (hok : ∀ d ∈ g.running[k]?, d.room = room → outcome.unchecked = false ∧ (x = s → outcome = .delivered)) :
    Follows s room [] g g' := by
  obtain ⟨d, hd, hx, hin, rfl⟩ := Server.turn_cases hg
  have hroom : s = x → d.room = room := by
    rintro rfl
    exact Option.some.inj ((hs.home d (List.mem_of_getElem? hd) s hin).symm.trans (hs.rooms h.member))
  refine ⟨⟨h.listening, h.member, h.once, fun d' hd' hr => ?_⟩, fun text => ?_⟩
  · split at hd'
    · exact h.counted d' (List.mem_of_mem_eraseIdx hd') hr
    · rcases List.mem_or_eq_of_mem_set hd' with hd' | rfl
      · exact h.counted d' hd' hr
      · exact h.counted d (List.mem_of_getElem? hd) hr
  · have hsend : d.send x outcome g.received s ++ due s room (d.next x) = g.received s ++ due s room d :=
      send_due hx hroom fun e => (hok d hd (hroom e)).2 e.symm
    have hcount := congrArg (List.count text) hsend
    simp only [owed_count, count_eraseIdx (due s room) hd, List.count_append, texts, List.flatMap_nil,
      List.count_nil] at hcount ⊢
    split
    · -- the broadcast that ends is to another room
      have hne : d.room ≠ room := fun hr => by simp [(hok d hd hr).1] at *
      have hnext : due s room (d.next x) = [] := due_room hne
      rw [hnext] at hcount
      simp only [List.count_nil] at hcount
      omega
    · rw [count_set (due s room) hd]
      omega

theorem finish (h : Attends s room g) (hg : g.finish k = some g') : Follows s room [] g g' := by
  obtain ⟨d, hd, hall, rfl⟩ := Server.finish_cases hg
  have hdue : due s room d = [] := by
    by_cases hr : d.room = room
    · exact due_returned (hall s (h.counted d (List.mem_of_getElem? hd) hr) (hr ▸ h.member))
    · exact due_room hr
  refine ⟨⟨h.listening, h.member, h.once, fun d hd => h.counted d (List.mem_of_mem_eraseIdx hd)⟩, fun text => ?_⟩
  have herase := count_eraseIdx (due s room) hd text
  simp only [hdue, List.count_nil] at herase
  simp only [owed_count, herase, texts, List.flatMap_nil, List.count_nil]
  omega

end Attends

/-! ## Runs in which it stays -/

variable [DecidableEq ι]

/-- The session stays and its node's subscription is not lost, no send to it fails, and
    no broadcast to its room is ended by an unchecked exception. Nothing is published for
    a room with the prefix in its name. -/
def Steady (i : ι) (s : W) (room : String) (c : Cluster ι W) : ClusterEvent ι W → Prop
  | .disconnect j x => j = i → x ≠ s
  | .lose j _ => j ≠ i
  | .turn j k x outcome => j = i → ∀ d ∈ (c.servers i).running[k]?, d.room = room →
      outcome.unchecked = false ∧ (x = s → outcome = .delivered)
  | .publish event => PrefixedOnce event
  | .connect .. | .subscribe _ | .begin .. | .finish .. => True

instance (i : ι) (s : W) (room : String) (c : Cluster ι W) (e : ClusterEvent ι W) : Decidable (Steady i s room c e) :=
  match e with
  | .disconnect .. => inferInstanceAs (Decidable (_ → _))
  | .lose .. => inferInstanceAs (Decidable (_ ≠ _))
  | .turn .. => inferInstanceAs (Decidable (_ → _))
  | .publish _ => inferInstanceAs (Decidable (PrefixedOnce _))
  | .connect .. | .subscribe _ | .begin .. | .finish .. => instDecidableTrue

variable {nodeId : ι → String} {c c' : Cluster ι W} {e : ClusterEvent ι W} {i : ι}

/-- An event on the part of node `j` alone. -/
theorem follows_put {j : ι} (h : Attends s room (c.servers i)) (hj : j = i → Follows s room [] (c.servers i) g) :
    Follows s room [] (c.servers i) ((c.put j g).servers i) := by
  by_cases e : i = j
  · subst e
    rw [put_self]
    exact hj rfl
  · rw [put_of_ne e]
    exact h.same

theorem follows_step (hs : (c.servers i).Sound c.published) (h : Attends s room (c.servers i))
    (hok : Steady i s room c e) (hstep : (cluster nodeId).step c e = some c') :
    ∃ news, c'.published = c.published ++ news ∧ Follows s room news (c.servers i) (c'.servers i) := by
  have hquiet : c.published = c.published ++ [] := (List.append_nil _).symm
  cases e with
  | connect j x query =>
    obtain ⟨-, hstep⟩ := Option.ite_none_right_eq_some.mp hstep
    cases hstep
    refine ⟨[], hquiet, follows_put h ?_⟩
    rintro rfl
    exact h.connect (nodeId j) x query
  | disconnect j x =>
    cases hstep
    refine ⟨[], hquiet, follows_put h ?_⟩
    rintro rfl
    exact h.disconnect (hok rfl) (nodeId j)
  | publish event =>
    obtain ⟨-, hstep⟩ := Option.ite_none_right_eq_some.mp hstep
    cases hstep
    exact ⟨[event], rfl, h.push hok⟩
  | subscribe j =>
    cases hstep
    refine ⟨[], hquiet, follows_put h ?_⟩
    rintro rfl
    exact h.subscribe
  | lose j kept =>
    cases hstep
    exact ⟨[], hquiet, follows_put h fun e => absurd e hok⟩
  | begin j k =>
    obtain ⟨g, hg, rfl⟩ := Option.map_eq_some_iff.mp hstep
    refine ⟨[], hquiet, follows_put h ?_⟩
    rintro rfl
    exact h.begin hg
  | turn j k x outcome =>
    obtain ⟨g, hg, rfl⟩ := Option.map_eq_some_iff.mp hstep
    refine ⟨[], hquiet, follows_put h ?_⟩
    rintro rfl
    exact h.turn hs hg (hok rfl)
  | finish j k =>
    obtain ⟨g, hg, rfl⟩ := Option.map_eq_some_iff.mp hstep
    refine ⟨[], hquiet, follows_put h ?_⟩
    rintro rfl
    exact h.finish hg

/-- A session that stays from where the room has no broadcast under way: it receives what
    waits on its node and what is published from then on for the room, all of it and once
    but in any order, or is owed the rest of it still. -/
theorem received_all (h : (cluster nodeId).Reach Machine.any .init c) (hlisten : (c.servers i).listening = true)
    (hs : s ∈ (c.servers i).handler.sessions room) (hidle : ∀ d ∈ (c.servers i).running, d.room ≠ room)
    (honce : ∀ event ∈ (c.servers i).waiting, PrefixedOnce event)
    (hrun : (cluster nodeId).Reach (Steady i s room) c c') :
    ∃ news, c'.published = c.published ++ news ∧
      ((c'.servers i).received s ++ owed s room (c'.servers i)).Perm
        ((c.servers i).received s ++ texts room (c.servers i).waiting ++ texts room news) := by
  have hstart : Attends s room (c.servers i) := ⟨hlisten, hs, honce, fun d hd hr => absurd hr (hidle d hd)⟩
  have howed : owed s room (c.servers i) = texts room (c.servers i).waiting := by
    have hnone : (c.servers i).running.flatMap (due s room) = [] :=
      List.flatMap_eq_nil_iff.mpr fun d hd => due_room (hidle d hd)
    rw [owed, hnone, List.append_nil]
  obtain ⟨news, hpub, hf⟩ := hrun.logged (L := Cluster.published) (P := fun c => ∀ j, (c.servers j).Sound c.published)
    (R := fun news c c' => Follows s room news (c.servers i) (c'.servers i)) (sound_of_reach h) hstart.same
    Follows.trans fun _ _ _ _ hs hf hok hstep => ⟨sound_step hs hstep, follows_step (hs i) hf.attends hok hstep⟩
  refine ⟨news, hpub, List.perm_iff_count.mpr fun text => ?_⟩
  rw [List.count_append, hf.count, howed, List.count_append, List.count_append]

end Steady

/-! ## Two sessions and a third -/

def twoNodes (i : Bool) : String := if i then "a" else "b"

/-- A node that listens, with two sessions in room `lobby`. -/
def parlour : Cluster Bool Nat := ((cluster twoNodes).run .init
  [.subscribe true, .connect true 1 (some "room=lobby"), .connect true 2 (some "room=lobby")]).get
    (by decide +kernel)

theorem parlour_reach : (cluster twoNodes).Reach Machine.any .init parlour :=
  Machine.reach_any_of_run _ (Option.some_get _).symm

/-- Two messages are published, and the broadcast of the second overtakes that of the first.
    A third session connects meanwhile. -/
def overtaking : List (ClusterEvent Bool Nat) :=
  [.publish (publish "lobby" "one"), .publish (publish "lobby" "two"), .begin true 1, .begin true 0,
    .turn true 0 1 .delivered, .turn true 1 2 .ioException, .connect true 3 (some "room=lobby"), .turn true 1 3 .closed,
    .turn true 1 1 .delivered, .publish (publish "lobby" "three")]

def overtaken : Cluster Bool Nat :=
  ((cluster twoNodes).runIf (Steady true 1 "lobby") parlour overtaking).get (by decide +kernel)

theorem overtaken_steady : (cluster twoNodes).Reach (Steady true 1 "lobby") parlour overtaken :=
  Machine.reach_of_runIf overtaking (Option.some_get _).symm

theorem overtaken_at_most_once : (overtaken.servers true).received 1 = ["two", "one"] ∧
    texts "lobby" overtaken.published = ["one", "two", "three"] ∧
    ((overtaken.servers true).received 1).Subperm (texts "lobby" overtaken.published) :=
  ⟨by decide +kernel, by decide +kernel, received_at_most_once
    (parlour_reach.trans (overtaken_steady.mono fun _ _ _ => trivial)) (by decide +kernel) (by decide +kernel)⟩

/-- The third message is still owed. -/
theorem overtaken_all : owed 1 "lobby" (overtaken.servers true) = ["three"] ∧
    ∃ news, overtaken.published = parlour.published ++ news ∧
      ((overtaken.servers true).received 1 ++ owed 1 "lobby" (overtaken.servers true)).Perm
        ((parlour.servers true).received 1 ++ texts "lobby" (parlour.servers true).waiting ++ texts "lobby" news) :=
  ⟨by decide +kernel, received_all parlour_reach (by decide +kernel) (by decide +kernel) (by decide +kernel)
    (by decide +kernel) overtaken_steady⟩

end Playground.Rooms.Spring
