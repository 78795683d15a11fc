/-
  Playground.Rooms.Listener — the chat of the FastAPI version over several nodes
  (`publish`, `start_listener`, `stop_listener` of `pubsub_manager.py`).

  Redis pushes what is published, whoever publishes it, to every node that listens. A
  node's reader takes one event after another and broadcasts it to the node's sockets of
  the room, awaiting each send; connects and disconnects run at these awaits, and change
  the set that the broadcast iterates over (`Broadcast`).
  A message is of the room on whose channel it is published. Where no room that is
  published for has the prefix in its name (`PrefixedOnce`):
  - `received_ordered`: a socket receives messages of its own room only, in the order in
    which Redis published them. One may be left out, and one may come more than once.
  - `received_each`: while the room's set is changed only behind the iterator and sends to
    the socket succeed, each of them comes exactly once.
-/

import Playground.Lib.JsonObject
import Playground.Rooms.Channel

namespace Playground.Rooms.FastApi

open Playground.Lib

variable {ι M W : Type}

/-! ## A node -/

/-- A `broadcast_locally` that the reader awaits, with the sends so far. -/
structure Reading (M W : Type) where
  room : String
  data : M
  task : Task W
  sends : List (W × Bool)

/-- A node's manager with its listener: the `room_id` of each socket's handler, what the
    sockets have received, and the events that the reader has still to take. -/
structure Server (M W : Type) where
  mgr : Manager String W
  roomId : W → Option String
  received : W → List M
  inbox : List (String × String)
  reading : Option (Reading M W)
  listening : Bool

namespace Server

def init : Server M W := ⟨.init, fun _ => none, fun _ => [], [], none, false⟩

variable (g : Server M W)

/-- The reader's broadcast has come to `task`; when that is over it takes the next event. -/
def goes (m : Manager String W) (b : Reading M W) : Server M W :=
  { g with mgr := m, reading := if b.task.over then none else some b }

/-- `stop_listener` cancels the reader, in the broadcast that it awaits. -/
def stop : Server M W := { g with inbox := [], reading := none, listening := false }

/-- The subscription is lost: of what was pushed the reader still gets the first `kept`. -/
def lose (kept : Nat) : Server M W := { g with inbox := g.inbox.take kept, listening := false }

def push (event : String × String) : Server M W := if g.listening then { g with inbox := g.inbox ++ [event] } else g

variable [DecidableEq W]

/-- `connect` of a handler, once the socket is accepted. -/
def connect (ws : W) (room : String) (layout : PySet W) : Option (Server M W) :=
  (g.mgr.connect room ws layout).map fun m => { g with mgr := m, roomId := Function.update g.roomId ws (some room) }

/-- `disconnect` of the socket's handler. -/
def disconnect (ws : W) : Server M W :=
  match g.roomId ws with
  | none => g
  | some room => { g with mgr := g.mgr.disconnect room ws }

/-- What `_reader` does with an event. -/
def pmessage (json : Json M) (event : String × String) : Server M W :=
  match reader json event with
  | none => g
  | some (room, data) =>
    let b := broadcastLocally g.mgr room
    g.goes b.mgr ⟨room, data, b.task, b.sends⟩

/-- The send that the reader awaits ends. -/
def sent (ok : Bool) : Option (Server M W) :=
  match g.reading with
  | some ⟨room, data, .sending a it dead ws, sends⟩ =>
    let (m, task) := advance room g.mgr a it (if ok then dead else dead.insert ws)
    let g := if ok then { g with received := Function.update g.received ws (g.received ws ++ [data]) } else g
    some (g.goes m ⟨room, data, task, sends ++ [(ws, ok)]⟩)
  | _ => none

variable {g : Server M W}

theorem sent_cases {ok : Bool} {g' : Server M W} (h : g.sent ok = some g') :
    ∃ room data a it dead ws sends, g.reading = some ⟨room, data, .sending a it dead ws, sends⟩ ∧
      g' = { g with received :=
        if ok then Function.update g.received ws (g.received ws ++ [data]) else g.received }.goes
        (advance room g.mgr a it (if ok then dead else dead.insert ws)).1
        ⟨room, data, (advance room g.mgr a it (if ok then dead else dead.insert ws)).2, sends ++ [(ws, ok)]⟩ := by
  unfold sent at h
  split at h
  · rename_i room data a it dead ws sends hreading
    refine ⟨room, data, a, it, dead, ws, sends, hreading, ?_⟩
    cases ok <;> exact (Option.some.inj h).symm
  · cases h

end Server

/-! ## The cluster -/

/-- The nodes, and what Redis has published, oldest first. -/
structure Cluster (ι M W : Type) where
  servers : ι → Server M W
  published : List (String × String)

def Cluster.init : Cluster ι M W := ⟨fun _ => .init, []⟩

inductive ClusterEvent (ι W : Type) where
  | connect (i : ι) (ws : W) (room : String) (layout : PySet W)
  | disconnect (i : ι) (ws : W)
  | publish (event : String × String)
  | start (i : ι)
  | stop (i : ι)
  | lose (i : ι) (kept : Nat)
  | pmessage (i : ι)
  | sent (i : ι) (ok : Bool)

def Cluster.put [DecidableEq ι] (c : Cluster ι M W) (i : ι) (g : Server M W) : Cluster ι M W :=
  { c with servers := Function.update c.servers i g }

/-- A socket connects once. `start` is `start_listener`, called once a process, and the
    subscription that is renewed after a loss. What is published is on a channel of the
    pattern `ws:room:*`. -/
def cluster [DecidableEq ι] [DecidableEq W] (json : Json M) : Machine (Cluster ι M W) (ClusterEvent ι W) where
  step c
    | .connect i ws room layout =>
      if (c.servers i).roomId ws = none then ((c.servers i).connect ws room layout).map (c.put i) else none
    | .disconnect i ws => some (c.put i ((c.servers i).disconnect ws))
    | .publish event =>
      if channelPrefix.toList <+: event.1.toList then
        some ⟨fun i => (c.servers i).push event, c.published ++ [event]⟩
      else none
    | .start i => if (c.servers i).listening then none else some (c.put i { c.servers i with listening := true })
    | .stop i => some (c.put i (c.servers i).stop)
    | .lose i kept => some (c.put i ((c.servers i).lose kept))
    | .pmessage i =>
      match (c.servers i).reading, (c.servers i).inbox with
      | none, event :: inbox => some (c.put i (Server.pmessage { c.servers i with inbox := inbox } json event))
      | _, _ => none
    | .sent i ok => ((c.servers i).sent ok).map (c.put i)

/-- The messages on the room's channel among the events; what is no JSON is none. -/
def messages (json : Json M) (room : String) (events : List (String × String)) : List M :=
  events.filterMap fun event => if event.1 = channelOf room then json.loads event.2 else none

/-! ## Sockets and their rooms -/

section Homes

variable {roomId : W → Option String} {room r : String} {m m' : Manager String W} {a : Nat} {ws : W} {layout : PySet W}

/-- The set object is this room's and no other's, and has sockets of the room only. -/
structure Housed (roomId : W → Option String) (room : String) (m : Manager String W) (a : Nat) : Prop where
  known : a < m.fresh
  only : ∀ r, m.localRooms r = some a → r = room
  home : ∀ ws ∈ m.sets a, roomId ws = some room

def Homes (roomId : W → Option String) (m : Manager String W) : Prop :=
  ∀ r a, m.localRooms r = some a → Housed roomId r m a

theorem Homes.registered (h : Homes roomId m) (hws : ws ∈ m.registered room) : roomId ws = some room := by
  unfold Manager.registered at hws
  split at hws
  · cases hws
  · exact (h _ _ ‹_›).home ws hws

variable [DecidableEq W]

theorem home_update {x : W} (hws : roomId ws = none) (hx : roomId x = some room) :
    Function.update roomId ws (some r) x = some room := by
  have hne : x ≠ ws := by
    rintro rfl
    cases hws.symm.trans hx
  rwa [Function.update_of_ne hne]

theorem Housed.connect (h : Housed roomId room m a) (hws : roomId ws = none) (hc : m.connect r ws layout = some m') :
    Housed (Function.update roomId ws (some r)) room m' a := by
  obtain ⟨hfresh, hsets⟩ := Manager.connect_sets hc h.known
  refine ⟨Nat.lt_of_lt_of_le h.known hfresh, fun r' hr' => h.only r' (Manager.connect_object hc h.known hr'),
    fun x hx => ?_⟩
  rcases hsets with he | ⟨hr, hadd⟩
  · rw [he] at hx
    exact home_update hws (h.home x hx)
  · rcases PySet.add_cases hadd with ⟨-, he⟩ | ⟨-, hp⟩
    · rw [he] at hx
      exact home_update hws (h.home x hx)
    · rcases List.mem_cons.mp (hp.mem_iff.mp hx) with rfl | hx
      · rw [Function.update_self, h.only r hr]
      · exact home_update hws (h.home x hx)

theorem Homes.connect (h : Homes roomId m) (hws : roomId ws = none) (hc : m.connect r ws layout = some m') :
    Homes (Function.update roomId ws (some r)) m' := by
  intro r' a hr'
  obtain ⟨⟨b, hb, hmem⟩, hother⟩ := Manager.connect_room hc
  by_cases e : r' = r
  · subst e
    cases hb.symm.trans hr'
    refine ⟨m'.known hr', fun r'' hr'' => m'.apart hr'' hr', fun x hx => ?_⟩
    rcases (hmem x).mp hx with rfl | hx
    · exact Function.update_self ..
    · exact home_update hws (h.registered hx)
  · rw [(hother r' e).1] at hr'
    exact (h r' a hr').connect hws hc

theorem Housed.disconnect (h : Housed roomId room m a) (r : String) (ws : W) :
    Housed roomId room (m.disconnect r ws) a := by
  obtain ⟨hfresh, hsets⟩ := Manager.disconnect_sets m r ws a
  refine ⟨Nat.lt_of_lt_of_le h.known hfresh, fun r' hr' => h.only r' (Manager.disconnect_object hr'), fun x hx => ?_⟩
  rcases hsets with he | ⟨-, he⟩
  · rw [he] at hx
    exact h.home x hx
  · rw [he] at hx
    have hmem : x ∈ ((m.sets a).discard ws).members := hx
    rw [PySet.members_discard] at hmem
    exact h.home x (List.mem_of_mem_filter hmem)

theorem Homes.disconnect (h : Homes roomId m) (r : String) (ws : W) : Homes roomId (m.disconnect r ws) :=
  fun r' a hr' => (h r' a (Manager.disconnect_object hr')).disconnect r ws

theorem Homes.cleanup (h : Homes roomId m) (room : String) (dead : List W) :
    Homes roomId (dead.foldl (fun m ws => m.disconnect room ws) m) := by
  induction dead generalizing m with
  | nil => exact h
  | cons ws dead ih => exact ih (h.disconnect room ws)

/-- A broadcast to the room that is not over sends to a socket of it. -/
def Runs (roomId : W → Option String) (room : String) (m : Manager String W) (task : Task W) : Prop :=
  task.over = false → ∃ a it dead ws, task = .sending a it dead ws ∧ Housed roomId room m a ∧ roomId ws = some room

omit [DecidableEq W] in
theorem runs_over {task : Task W} (h : task.over = true) : Runs roomId room m task := fun h' => by
  rw [h] at h'
  cases h'

theorem runs_advance (hm : Homes roomId m) (h : Housed roomId room m a) (it : PySet.Iter) (dead : List W) :
    Homes roomId (advance room m a it dead).1 ∧
      Runs roomId room (advance room m a it dead).1 (advance room m a it dead).2 := by
  cases hn : it.next (m.sets a) with
  | raised =>
    simp only [advance, hn]
    exact ⟨hm, runs_over rfl⟩
  | stop =>
    simp only [advance, hn]
    exact ⟨hm.cleanup room dead, runs_over rfl⟩
  | item x it' =>
    simp only [advance, hn]
    obtain ⟨-, -, hrest⟩ := PySet.next_item hn
    have hx : x ∈ (m.sets a).unvisited it.pos := by
      rw [hrest]
      exact List.mem_cons_self
    exact ⟨hm, fun _ => ⟨a, it', dead, x, rfl, h, h.home x (PySet.mem_of_unvisited hx)⟩⟩

theorem runs_start (hm : Homes roomId m) (room : String) :
    Homes roomId (broadcastLocally m room).mgr ∧
      Runs roomId room (broadcastLocally m room).mgr (broadcastLocally m room).task := by
  unfold broadcastLocally
  split
  · exact ⟨hm, runs_over rfl⟩
  · exact runs_advance hm (hm _ _ ‹_›) ..

end Homes

/-! ## In order, with repeats -/

/-- The second list is made from the first by leaving out some and repeating some. -/
inductive Repeats {α : Type} : List α → List α → Prop
  | nil : Repeats [] []
  | skip {l r : List α} (x : α) : Repeats l r → Repeats (l ++ [x]) r
  | again {l r : List α} {x : α} : Repeats (l ++ [x]) r → Repeats (l ++ [x]) (r ++ [x])

theorem Repeats.append {α : Type} {l r : List α} (h : Repeats l r) (l' : List α) : Repeats (l ++ l') r := by
  induction l' using List.reverseRecOn with
  | nil => rwa [List.append_nil]
  | append_singleton l' x ih =>
    rw [← List.append_assoc]
    exact ih.skip x

theorem repeats_none {α : Type} (l : List α) : Repeats l [] := Repeats.nil.append l

variable {json : Json M} {room : String} {P l : List (String × String)} {event : String × String} {g : Server M W}

@[simp] theorem messages_append (l P : List (String × String)) :
    messages json room (l ++ P) = messages json room l ++ messages json room P := List.filterMap_append

/-- What the reader makes of an event on a channel without another prefix in it. -/
theorem messages_of_reader {r : String} {data : M} (honce : PrefixedOnce event)
    (h : reader json event = some (r, data)) :
    messages json room [event] = if r = room then [data] else [] := by
  obtain ⟨message, hloads, he⟩ := Option.map_eq_some_iff.mp h
  cases he
  simp only [messages, List.filterMap_cons, List.filterMap_nil, honce.room_iff, hloads]
  by_cases e : event.1 = channelOf room <;> simp [e]

theorem messages_of_none (h : reader json event = none) : messages json room [event] = [] := by
  simp only [messages, List.filterMap_cons, List.filterMap_nil, Option.map_eq_none_iff.mp h, ite_self]

/-! ## What is known of a node -/

/-- Of what Redis has published, the node has taken or missed `done`, and has some of
    `rest` in its inbox. A broadcast under way is of the newest it has taken. -/
structure Heard (json : Json M) (done rest : List (String × String)) (g : Server M W) : Prop where
  queued : g.inbox.Sublist rest
  newest : ∀ b, g.reading = some b → ∃ before event, done = before ++ [event] ∧
    reader json event = some (b.room, b.data)
  order : (∀ event ∈ done, PrefixedOnce event) → ∀ ws room, g.roomId ws = some room →
    Repeats (messages json room done) (g.received ws)

structure Sound (json : Json M) (P : List (String × String)) (g : Server M W) : Prop where
  homes : Homes g.roomId g.mgr
  fresh : ∀ {ws}, g.roomId ws = none → g.received ws = []
  runs : ∀ b, g.reading = some b → b.task.over = false ∧ Runs g.roomId b.room g.mgr b.task
  heard : ∃ done rest, P = done ++ rest ∧ Heard json done rest g

theorem Heard.take {done rest inbox : List (String × String)} (h : Heard json done rest g)
    (hin : g.inbox = event :: inbox) :
    ∃ before rest', done ++ rest = before ++ [event] ++ rest' ∧ inbox.Sublist rest' ∧
      ((∀ e ∈ before ++ [event], PrefixedOnce e) → ∀ ws room, g.roomId ws = some room →
        Repeats (messages json room (before ++ [event])) (g.received ws)) := by
  have hqueued := h.queued
  rw [hin, List.cons_sublist_iff] at hqueued
  obtain ⟨r₁, r₂, rfl, hmem, hrest⟩ := hqueued
  obtain ⟨missed, more, rfl⟩ := List.append_of_mem hmem
  refine ⟨done ++ missed, more ++ r₂, by simp, hrest.trans (List.sublist_append_right ..), ?_⟩
  intro honce ws room hroom
  rw [List.append_assoc] at honce ⊢
  rw [messages_append]
  exact (h.order (fun e he => honce e (List.mem_append_left _ he)) ws room hroom).append _

namespace Sound

theorem init (json : Json M) : Sound json [] (Server.init : Server M W) where
  homes := nofun
  fresh _ := rfl
  runs := nofun
  heard := ⟨[], [], rfl, .slnil, nofun, fun _ => nofun⟩

theorem push (h : Sound json P g) (event : String × String) : Sound json (P ++ [event]) (g.push event) := by
  obtain ⟨done, rest, rfl, hheard⟩ := h.heard
  have hassoc : done ++ rest ++ [event] = done ++ (rest ++ [event]) := List.append_assoc ..
  unfold Server.push
  split
  · exact ⟨h.homes, h.fresh, h.runs, done, _, hassoc, hheard.queued.append_right _, hheard.newest, hheard.order⟩
  · exact ⟨h.homes, h.fresh, h.runs, done, _, hassoc, hheard.queued.trans (List.sublist_append_left ..), hheard.newest,
      hheard.order⟩

theorem start (h : Sound json P g) : Sound json P { g with listening := true } := by
  obtain ⟨done, rest, hP, hheard⟩ := h.heard
  exact ⟨h.homes, h.fresh, h.runs, done, rest, hP, hheard.queued, hheard.newest, hheard.order⟩

theorem stop (h : Sound json P g) : Sound json P g.stop := by
  obtain ⟨done, rest, hP, hheard⟩ := h.heard
  exact ⟨h.homes, h.fresh, nofun, done, rest, hP, List.nil_sublist _, nofun, hheard.order⟩

theorem lose (h : Sound json P g) (kept : Nat) : Sound json P (g.lose kept) := by
  obtain ⟨done, rest, hP, hheard⟩ := h.heard
  have hqueued : (g.lose kept).inbox.Sublist rest := (List.take_sublist ..).trans hheard.queued
  exact ⟨h.homes, h.fresh, h.runs, done, rest, hP, hqueued, hheard.newest, hheard.order⟩

/-- A broadcast of the newest event goes on, or ends. -/
theorem goes {done rest : List (String × String)} {m : Manager String W} {b : Reading M W} (hm : Homes g.roomId m)
    (hruns : Runs g.roomId b.room m b.task) (hfresh : ∀ {ws}, g.roomId ws = none → g.received ws = [])
    (hqueued : g.inbox.Sublist rest)
    (hnewest : ∃ before event, done = before ++ [event] ∧ reader json event = some (b.room, b.data))
    (horder : (∀ event ∈ done, PrefixedOnce event) → ∀ ws room, g.roomId ws = some room →
      Repeats (messages json room done) (g.received ws)) :
    Sound json (done ++ rest) (g.goes m b) := by
  have hreading : ∀ b', (g.goes m b).reading = some b' → b' = b ∧ b.task.over = false := by
    intro b' h
    by_cases hover : b.task.over = true
    · simp [Server.goes, hover] at h
    · simp only [Server.goes, hover, Bool.false_eq_true, if_false, Option.some.injEq] at h
      exact ⟨h.symm, Bool.eq_false_iff.mpr hover⟩
  refine ⟨hm, hfresh, fun b' hb' => ?_, done, rest, rfl, hqueued, fun b' hb' => ?_, horder⟩
  · obtain ⟨rfl, hover⟩ := hreading b' hb'
    exact ⟨hover, hruns⟩
  · obtain ⟨rfl, -⟩ := hreading b' hb'
    exact hnewest

variable [DecidableEq W]

theorem connect {g' : Server M W} {ws : W} {layout : PySet W} (h : Sound json P g) (hws : g.roomId ws = none)
    (hc : g.connect ws room layout = some g') : Sound json P g' := by
  obtain ⟨m, hm, rfl⟩ := Option.map_eq_some_iff.mp hc
  obtain ⟨done, rest, hP, hheard⟩ := h.heard
  refine ⟨h.homes.connect hws hm, fun {x} hx => ?_, fun b hb => ?_, done, rest, hP, hheard.queued, hheard.newest,
    fun honce x r hx => ?_⟩
  · have hne : x ≠ ws := by
      rintro rfl
      cases (Function.update_self ..).symm.trans hx
    exact h.fresh ((Function.update_of_ne hne ..).symm.trans hx)
  · obtain ⟨hover, hruns⟩ := h.runs b hb
    obtain ⟨a, it, dead, x, htask, hhoused, hx⟩ := hruns hover
    exact ⟨hover, fun _ => ⟨a, it, dead, x, htask, hhoused.connect hws hm, home_update hws hx⟩⟩
  · show Repeats _ (g.received x)
    by_cases e : x = ws
    · rw [e, h.fresh hws]
      exact repeats_none _
    · exact hheard.order honce x r ((Function.update_of_ne e ..).symm.trans hx)

theorem disconnect (h : Sound json P g) (ws : W) : Sound json P (g.disconnect ws) := by
  unfold Server.disconnect
  split
  · exact h
  · rename_i room _
    obtain ⟨done, rest, hP, hheard⟩ := h.heard
    refine ⟨h.homes.disconnect room ws, h.fresh, fun b hb => ?_, done, rest, hP, hheard.queued, hheard.newest,
      hheard.order⟩
    obtain ⟨hover, hruns⟩ := h.runs b hb
    obtain ⟨a, it, dead, x, htask, hhoused, hx⟩ := hruns hover
    exact ⟨hover, fun _ => ⟨a, it, dead, x, htask, hhoused.disconnect room ws, hx⟩⟩

theorem pmessage (h : Sound json P g) (hidle : g.reading = none) {inbox : List (String × String)}
    (hin : g.inbox = event :: inbox) : Sound json P (Server.pmessage { g with inbox := inbox } json event) := by
  obtain ⟨done, rest, rfl, hheard⟩ := h.heard
  obtain ⟨before, rest', hP, hqueued, horder⟩ := hheard.take hin
  rw [hP]
  unfold Server.pmessage
  split
  · have hnone : ∀ b, g.reading ≠ some b := fun b hb => Option.some_ne_none b (hb.symm.trans hidle)
    exact ⟨h.homes, h.fresh, fun b hb => (hnone b hb).elim, before ++ [event], rest', rfl, hqueued,
      fun b hb => (hnone b hb).elim, horder⟩
  · rename_i room data hr
    obtain ⟨hm, hruns⟩ := runs_start h.homes room
    exact goes hm hruns h.fresh hqueued ⟨before, event, rfl, hr⟩ horder

theorem sent {g' : Server M W} {ok : Bool} (h : Sound json P g) (hs : g.sent ok = some g') : Sound json P g' := by
  obtain ⟨room, data, a, it, dead, ws, sends, hreading, rfl⟩ := Server.sent_cases hs
  obtain ⟨-, hruns⟩ := h.runs _ hreading
  obtain ⟨a', it', dead', ws', htask, hhoused, hws⟩ := hruns rfl
  cases htask
  obtain ⟨done, rest, rfl, hheard⟩ := h.heard
  have hnewest : ∃ before event, done = before ++ [event] ∧ reader json event = some (room, data) :=
    hheard.newest _ hreading
  obtain ⟨hm, hgo⟩ := runs_advance h.homes hhoused it (if ok then dead else dead.insert ws)
  cases ok with
  | false => exact goes hm hgo h.fresh hheard.queued hnewest hheard.order
  | true =>
    refine goes hm hgo (fun {x} hx => ?_) hheard.queued hnewest fun honce x r hx => ?_
    · have hne : x ≠ ws := by
        rintro rfl
        cases hws.symm.trans hx
      exact (Function.update_of_ne hne ..).trans (h.fresh hx)
    · show Repeats _ (Function.update g.received ws _ x)
      by_cases e : x = ws
      · subst e
        obtain ⟨before, event, rfl, hr⟩ := hnewest
        obtain rfl : room = r := Option.some.inj (hws.symm.trans hx)
        have hold := hheard.order honce x room hx
        have hevent : PrefixedOnce event := honce event (List.mem_append_right _ (List.mem_singleton_self event))
        rw [messages_append, messages_of_reader hevent hr, if_pos rfl] at hold ⊢
        rw [Function.update_self]
        exact hold.again
      · rw [Function.update_of_ne e]
        exact hheard.order honce x r hx

end Sound

/-! ## Runs of the cluster -/

section Cluster

variable [DecidableEq ι] [DecidableEq W] {c c' : Cluster ι M W} {e : ClusterEvent ι W}

omit [DecidableEq W] in
theorem sound_put {i : ι} (h : ∀ j, Sound json c.published (c.servers j)) (hg : Sound json c.published g) (j : ι) :
    Sound json (c.put i g).published ((c.put i g).servers j) :=
  (Function.forall_update_iff c.servers fun _ => Sound json c.published).mpr ⟨hg, fun j _ => h j⟩ j

theorem sound_step (h : ∀ i, Sound json c.published (c.servers i)) (hs : (cluster json).step c e = some c') :
    ∀ i, Sound json c'.published (c'.servers i) := by
  cases e with
  | connect i ws room layout =>
    obtain ⟨hws, hs⟩ := Option.ite_none_right_eq_some.mp hs
    obtain ⟨g, hg, rfl⟩ := Option.map_eq_some_iff.mp hs
    exact sound_put h ((h i).connect hws hg)
  | disconnect i ws =>
    cases hs
    exact sound_put h ((h i).disconnect ws)
  | publish event =>
    obtain ⟨-, hs⟩ := Option.ite_none_right_eq_some.mp hs
    cases hs
    exact fun i => (h i).push event
  | start i =>
    obtain ⟨-, hs⟩ := Option.ite_none_left_eq_some.mp hs
    cases hs
    exact sound_put h (h i).start
  | stop i =>
    cases hs
    exact sound_put h (h i).stop
  | lose i kept =>
    cases hs
    exact sound_put h ((h i).lose kept)
  | pmessage i =>
    simp only [cluster] at hs
    split at hs
    · cases hs
      exact sound_put h ((h i).pmessage ‹_› ‹_›)
    · cases hs
  | sent i ok =>
    obtain ⟨g, hg, rfl⟩ := Option.map_eq_some_iff.mp hs
    exact sound_put h ((h i).sent hg)

theorem sound_of_reach {ok : Cluster ι M W → ClusterEvent ι W → Prop} (h : (cluster json).Reach ok .init c) (i : ι) :
    Sound json c.published (c.servers i) := by
  revert i
  exact h.invariant (P := fun c => ∀ i, Sound json c.published (c.servers i)) (fun _ => .init json)
    fun _ _ _ h _ hs => sound_step h hs

/-- Whatever fails, comes, goes or stops, while nothing is published for a room with the
    prefix in its name: a socket has received messages of its own room only, in the order
    in which Redis published them. -/
theorem received_ordered (h : (cluster json).Reach Machine.any .init c)
    (honce : ∀ event ∈ c.published, PrefixedOnce event) {i : ι} {ws : W} {room : String}
    (hws : (c.servers i).roomId ws = some room) :
    Repeats (messages json room c.published) ((c.servers i).received ws) := by
  obtain ⟨done, rest, hP, hheard⟩ := (sound_of_reach h i).heard
  rw [hP] at honce ⊢
  rw [messages_append]
  exact (hheard.order (fun event he => honce event (List.mem_append_left _ he)) ws room hws).append _

end Cluster

/-! ## A socket that stays -/

section Steady

variable [DecidableEq W]

/-- What the node has still to send to a socket of the room. -/
def owed (json : Json M) (ws : W) (room : String) (g : Server M W) : List M :=
  (match g.reading with
    | some b => if b.room = room ∧ (ws, true) ∉ b.sends then [b.data] else []
    | none => []) ++ messages json room g.inbox

/-- The node listens and has the socket in the room; a broadcast to the room has sent to it
    once or will, and never in vain. -/
structure Attends (ws : W) (room : String) (g : Server M W) : Prop where
  listening : g.listening = true
  member : ws ∈ g.mgr.registered room
  once : ∀ event ∈ g.inbox, PrefixedOnce event
  track : ∀ b, g.reading = some b → b.room = room → OnTrack ws ⟨g.mgr, b.task, b.sends, []⟩ ∧ (ws, false) ∉ b.sends ∧
    ∀ a it dead x, b.task = .sending a it dead x → ws ∉ dead

/-- The node goes from `g` to `g'` while Redis publishes `news`: the socket receives what
    it was owed before and the messages of its room among the news, or is owed them still. -/
structure Follows (json : Json M) (ws : W) (room : String) (news : List (String × String)) (g g' : Server M W) :
    Prop where
  attends : Attends ws room g'
  received : g'.received ws ++ owed json ws room g' = g.received ws ++ owed json ws room g ++ messages json room news

variable {ws : W} {m : Manager String W} {a : Nat} {it : PySet.Iter} {dead : List W} {sends : List (W × Bool)}
  {task : Task W}

theorem mem_cleanup (hws : ws ∈ m.registered room) {r : String} (h : r = room → ws ∉ dead) :
    ws ∈ (dead.foldl (fun m x => m.disconnect r x) m).registered room := by
  induction dead generalizing m with
  | nil => exact hws
  | cons x dead ih =>
    refine ih (Manager.mem_registered_disconnect.mpr ⟨hws, ?_⟩) fun e hin => h e (List.mem_cons_of_mem _ hin)
    rintro ⟨rfl, rfl⟩
    exact h rfl List.mem_cons_self

theorem mem_advance (hws : ws ∈ m.registered room) {r : String} (h : r = room → ws ∉ dead) :
    ws ∈ (advance r m a it dead).1.registered room := by
  cases hn : it.next (m.sets a) with
  | raised => simpa only [advance, hn] using hws
  | stop =>
    simp only [advance, hn]
    exact mem_cleanup hws h
  | item x it' => simpa only [advance, hn] using hws

theorem onTrack_left {left left' : List (String × W)} (h : OnTrack ws ⟨m, task, sends, left⟩) :
    OnTrack ws ⟨m, task, sends, left'⟩ := by
  cases task with
  | sending a it dead x => exact h
  | finished | raised => exact h

theorem onTrack_over (h : OnTrack ws ⟨m, task, sends, []⟩) (hover : task.over = true) :
    (sends.map (·.1)).count ws = 1 := by
  cases task with
  | sending a it dead x => cases hover
  | finished | raised => simpa [OnTrack, Broadcast.taken, Task.current] using h

/-- The socket has not been sent to when its turn comes. -/
theorem onTrack_first (h : OnTrack ws ⟨m, .sending a it dead ws, sends, []⟩) : ws ∉ sends.map (·.1) := by
  obtain ⟨-, htracks⟩ := h
  have hle : (sends.map (·.1) ++ [ws]).count ws ≤ 1 := by
    unfold Tracks at htracks
    split at htracks
    · rw [List.count_append] at htracks
      exact Nat.le.intro htracks
    · exact Nat.le_of_eq htracks
  rw [List.count_append, List.count_singleton_self] at hle
  exact List.count_eq_zero.mp (by omega)

theorem sent_of_over (h : OnTrack ws ⟨m, task, sends, []⟩) (hover : task.over = true) (hfail : (ws, false) ∉ sends) :
    (ws, true) ∈ sends := by
  have hmem : ws ∈ sends.map (·.1) := List.count_pos_iff.mp (by rw [onTrack_over h hover]; exact Nat.one_pos)
  obtain ⟨⟨x, ok⟩, hx, rfl⟩ := List.mem_map.mp hmem
  cases ok with
  | true => exact hx
  | false => exact absurd hx hfail

theorem advance_dead {r : String} {a' : Nat} {it' : PySet.Iter} {dead' : List W} {x : W}
    (h : (advance r m a it dead).2 = .sending a' it' dead' x) : dead' = dead := by
  cases hn : it.next (m.sets a) with
  | raised | stop =>
    simp only [advance, hn] at h
    cases h
  | item y it'' =>
    simp only [advance, hn] at h
    cases h
    rfl

/-- A broadcast begins with no send, and nobody dead; nobody leaves by its first await. -/
theorem start_clean (hws : ws ∈ m.registered room) (r : String) :
    (broadcastLocally m r).sends = [] ∧ ws ∈ (broadcastLocally m r).mgr.registered room ∧
      ∀ a it dead x, (broadcastLocally m r).task = .sending a it dead x → dead = [] := by
  unfold broadcastLocally
  split
  · exact ⟨rfl, hws, nofun⟩
  · exact ⟨rfl, mem_advance hws fun _ => List.not_mem_nil, fun a it dead x h => advance_dead h⟩

/-- `Attends.track` of one broadcast. -/
def Tracked (ws : W) (room : String) (m : Manager String W) (b : Reading M W) : Prop :=
  b.room = room → OnTrack ws ⟨m, b.task, b.sends, []⟩ ∧ (ws, false) ∉ b.sends ∧
    ∀ a it dead x, b.task = .sending a it dead x → ws ∉ dead

theorem attends_goes {b : Reading M W} (hlisten : g.listening = true) (hws : ws ∈ m.registered room)
    (honce : ∀ event ∈ g.inbox, PrefixedOnce event) (hb : Tracked ws room m b) : Attends ws room (g.goes m b) := by
  refine ⟨hlisten, hws, honce, fun b' hb' => ?_⟩
  by_cases hover : b.task.over = true
  · simp [Server.goes, hover] at hb'
  · simp only [Server.goes, hover, Bool.false_eq_true, if_false, Option.some.injEq] at hb'
    exact hb' ▸ hb

theorem owed_goes {b : Reading M W} (hb : Tracked ws room m b) : owed json ws room (g.goes m b) =
    (if b.room = room ∧ (ws, true) ∉ b.sends then [b.data] else []) ++ messages json room g.inbox := by
  unfold owed Server.goes
  by_cases hover : b.task.over = true
  · have hsent : ¬ (b.room = room ∧ (ws, true) ∉ b.sends) := by
      rintro ⟨hr, hnot⟩
      obtain ⟨htrack, hfail, -⟩ := hb hr
      exact hnot (sent_of_over htrack hover hfail)
    simp only [hover, if_true, if_neg hsent]
  · simp only [hover, Bool.false_eq_true, if_false]

namespace Attends

variable {P : List (String × String)}

theorem home (h : Attends ws room g) (hs : Sound json P g) : g.roomId ws = some room := hs.homes.registered h.member

theorem push (h : Attends ws room g) (hevent : PrefixedOnce event) : Follows json ws room [event] g (g.push event) := by
  unfold Server.push
  rw [if_pos h.listening]
  refine ⟨⟨h.listening, h.member, fun e he => ?_, h.track⟩, ?_⟩
  · rcases List.mem_append.mp he with he | he
    · exact h.once e he
    · exact List.mem_singleton.mp he ▸ hevent
  simp only [owed, messages_append, List.append_assoc]

/-- Only the rooms change, and a broadcast to the room stays on track. -/
theorem moved (h : Attends ws room g) {g' : Server M W} (hlisten : g'.listening = g.listening)
    (hreading : g'.reading = g.reading) (hreceived : g'.received ws = g.received ws) (hinbox : g'.inbox = g.inbox)
    (hws : ws ∈ g'.mgr.registered room)
    (htrack : ∀ b, g.reading = some b → b.room = room → OnTrack ws ⟨g'.mgr, b.task, b.sends, []⟩) :
    Follows json ws room [] g g' := by
  refine ⟨⟨hlisten.trans h.listening, hws, hinbox ▸ h.once, fun b hb hr => ?_⟩, ?_⟩
  · rw [hreading] at hb
    exact ⟨htrack b hb hr, (h.track b hb hr).2⟩
  · simp [owed, hreading, hreceived, hinbox, messages]

theorem connect (h : Attends ws room g) {g' : Server M W} {x : W} {r : String} {layout : PySet W}
    (hc : g.connect x r layout = some g')
    (hbehind : ∀ b, g.reading = some b → b.room = room → Behind ws ⟨g.mgr, b.task, b.sends, []⟩ (.connect r x layout)) :
    Follows json ws room [] g g' := by
  obtain ⟨m, hm, rfl⟩ := Option.map_eq_some_iff.mp hc
  refine h.moved rfl rfl rfl rfl ((Manager.mem_registered_connect hm).mpr (.inr h.member)) fun b hb hr => ?_
  have hstep : (broadcasting b.room).step ⟨g.mgr, b.task, b.sends, []⟩ (.connect r x layout) =
      some ⟨m, b.task, b.sends, []⟩ := by simp only [broadcasting, hm, Option.map_some]
  exact (h.track b hb hr).1.step (hbehind b hb hr) hstep

theorem disconnect (h : Attends ws room g) {x : W} (hx : x ≠ ws)
    (hbehind : ∀ b r, g.reading = some b → b.room = room → g.roomId x = some r →
      Behind ws ⟨g.mgr, b.task, b.sends, []⟩ (.disconnect r x)) : Follows json ws room [] g (g.disconnect x) := by
  unfold Server.disconnect
  split
  · exact h.moved rfl rfl rfl rfl h.member fun b hb hr => (h.track b hb hr).1
  · rename_i r hroom
    refine h.moved rfl rfl rfl rfl
      (Manager.mem_registered_disconnect.mpr ⟨h.member, fun e => hx e.2.symm⟩) fun b hb hr => ?_
    have hstep : (broadcasting b.room).step ⟨g.mgr, b.task, b.sends, []⟩ (.disconnect r x) =
        some ⟨g.mgr.disconnect r x, b.task, b.sends, [(r, x)]⟩ := rfl
    exact onTrack_left ((h.track b hb hr).1.step (hbehind b r hb hr hroom) hstep)

theorem pmessage (h : Attends ws room g) (hidle : g.reading = none) {inbox : List (String × String)}
    (hin : g.inbox = event :: inbox) :
    Follows json ws room [] g (Server.pmessage { g with inbox := inbox } json event) := by
  have howed : owed json ws room g = messages json room [event] ++ messages json room inbox := by
    rw [← messages_append, List.singleton_append, ← hin]
    simp only [owed, hidle, List.nil_append]
  have honce : ∀ e ∈ inbox, PrefixedOnce e := fun e he => h.once e (hin ▸ List.mem_cons_of_mem _ he)
  have hevent : PrefixedOnce event := h.once event (hin ▸ List.mem_cons_self)
  unfold Server.pmessage
  split
  · rename_i hr
    refine ⟨⟨h.listening, h.member, honce, fun b hb => absurd (hidle.symm.trans hb) nofun⟩, ?_⟩
    rw [howed, messages_of_none hr]
    simp [owed, hidle, messages]
  · rename_i r data hr
    obtain ⟨hsends, hmem, hdead⟩ := start_clean h.member r
    have hb : Tracked ws room (broadcastLocally g.mgr r).mgr
        ⟨r, data, (broadcastLocally g.mgr r).task, (broadcastLocally g.mgr r).sends⟩ := by
      rintro rfl
      refine ⟨onTrack_left (onTrack_start h.member), by simp [hsends], fun a it dead x ht => ?_⟩
      rw [hdead a it dead x ht]
      exact List.not_mem_nil
    refine ⟨attends_goes h.listening hmem honce hb, ?_⟩
    rw [owed_goes hb, howed, messages_of_reader hevent hr]
    simp [hsends, messages, Server.goes]

/-- The send that the reader awaits ends, and is not in vain if it is to the socket. -/
theorem sent (h : Attends ws room g) (hs : Sound json P g) {ok : Bool} {g' : Server M W} (hsent : g.sent ok = some g')
    (hok : ∀ b, g.reading = some b → b.task.current = [ws] → ok = true) : Follows json ws room [] g g' := by
  obtain ⟨r, data, a, it, dead, cur, sends, hreading, rfl⟩ := Server.sent_cases hsent
  have hvain : cur = ws → ok = true := fun e => hok _ hreading (congrArg (fun x => [x]) e)
  have hdead : r = room → ws ∉ (if ok then dead else dead.insert cur) := by
    intro e
    have hold : ws ∉ dead := (h.track _ hreading e).2.2 _ _ _ _ rfl
    cases ok with
    | true => exact hold
    | false =>
      intro hin
      rcases List.mem_insert_iff.mp hin with rfl | hin
      · exact Bool.false_ne_true (hvain rfl)
      · exact hold hin
  have hb : Tracked ws room (advance r g.mgr a it (if ok then dead else dead.insert cur)).1
      ⟨r, data, (advance r g.mgr a it (if ok then dead else dead.insert cur)).2, sends ++ [(cur, ok)]⟩ := by
    intro e
    obtain ⟨htrack, hfail, -⟩ := h.track _ hreading e
    have hstep : (broadcasting r).step ⟨g.mgr, .sending a it dead cur, sends, []⟩ (.sent ok) = some
        ⟨(advance r g.mgr a it (if ok then dead else dead.insert cur)).1,
          (advance r g.mgr a it (if ok then dead else dead.insert cur)).2, sends ++ [(cur, ok)], []⟩ := rfl
    refine ⟨htrack.step (e := .sent ok) trivial hstep, ?_, fun a' it' dead' x ht => ?_⟩
    · intro hin
      rcases List.mem_append.mp hin with hin | hin
      · exact hfail hin
      · cases List.mem_singleton.mp hin
        exact Bool.false_ne_true (hvain rfl)
    · rw [advance_dead ht]
      exact hdead e
  refine ⟨attends_goes h.listening (mem_advance h.member hdead) h.once hb, ?_⟩
  rw [owed_goes hb]
  by_cases e : cur = ws
  · -- it is the socket's turn: it is owed the message until now
    subst e
    obtain rfl : ok = true := hvain rfl
    obtain rfl : r = room := by
      obtain ⟨a', it', dead', x, ht, -, hx⟩ := (hs.runs _ hreading).2 rfl
      cases ht
      exact Option.some.inj (hx.symm.trans (h.home hs))
    have hfirst : (cur, true) ∉ sends := by
      intro hin
      exact onTrack_first (h.track _ hreading rfl).1 (List.mem_map.mpr ⟨_, hin, rfl⟩)
    simp [owed, hreading, hfirst, Server.goes, messages]
  · have hreceived : (if ok then Function.update g.received cur (g.received cur ++ [data]) else g.received) ws =
        g.received ws := by
      split
      · exact Function.update_of_ne (Ne.symm e) ..
      · rfl
    have hne : ws ≠ cur := Ne.symm e
    simp [owed, hreading, Server.goes, messages, hreceived, hne]

end Attends

/-! ## Runs in which it stays -/

/-- `Behind` for a broadcast to the room. -/
def Undisturbed (ws : W) (room : String) (g : Server M W) (e : Event String W) : Prop :=
  ∀ b ∈ g.reading, b.room = room → Behind ws ⟨g.mgr, b.task, b.sends, []⟩ e

instance (g : Server M W) (e : Event String W) : Decidable (Undisturbed ws room g e) :=
  inferInstanceAs (Decidable (∀ b ∈ g.reading, b.room = room → Behind ws _ e))

variable [DecidableEq ι]

/-- The socket stays and its node goes on listening, no send to it fails, and the room's set
    is changed behind the iterator only. Nothing is published for a room with the prefix in
    its name. -/
def Steady (i : ι) (ws : W) (room : String) (c : Cluster ι M W) : ClusterEvent ι W → Prop
  | .connect j x r layout => j = i → Undisturbed ws room (c.servers i) (.connect r x layout)
  | .disconnect j x => j = i → x ≠ ws ∧
      ∀ r ∈ (c.servers i).roomId x, Undisturbed ws room (c.servers i) (.disconnect r x)
  | .stop j | .lose j _ => j ≠ i
  | .sent j ok => j = i → ∀ b ∈ (c.servers i).reading, b.task.current = [ws] → ok = true
  | .publish event => PrefixedOnce event
  | .start _ | .pmessage _ => True

instance (i : ι) (c : Cluster ι M W) (e : ClusterEvent ι W) : Decidable (Steady i ws room c e) :=
  match e with
  | .connect .. => inferInstanceAs (Decidable (_ → _))
  | .disconnect .. => inferInstanceAs (Decidable (_ → _ ∧ _))
  | .stop _ | .lose .. => inferInstanceAs (Decidable (_ ≠ _))
  | .sent .. => inferInstanceAs (Decidable (_ → _))
  | .publish _ => inferInstanceAs (Decidable (PrefixedOnce _))
  | .start _ | .pmessage _ => instDecidableTrue

variable {c c' : Cluster ι M W} {e : ClusterEvent ι W} {i : ι}

omit [DecidableEq ι] in
theorem Attends.same (h : Attends ws room g) : Follows json ws room [] g g := ⟨h, by simp [messages]⟩

omit [DecidableEq ι] in
theorem Follows.trans {first news : List (String × String)} {g₁ g₂ : Server M W} (h : Follows json ws room first g g₁)
    (h' : Follows json ws room news g₁ g₂) : Follows json ws room (first ++ news) g g₂ :=
  ⟨h'.attends, by rw [h'.received, h.received, messages_append, List.append_assoc, List.append_assoc]⟩

/-- An event on the part of node `j` alone. -/
theorem follows_put {j : ι} (h : Attends ws room (c.servers i))
    (hj : j = i → Follows json ws room [] (c.servers i) g) :
    Follows json ws room [] (c.servers i) ((c.put j g).servers i) := by
  show Follows json ws room [] (c.servers i) (Function.update c.servers j g i)
  by_cases e : i = j
  · rw [e, Function.update_self]
    exact e ▸ hj e.symm
  · rw [Function.update_of_ne e]
    exact h.same

theorem follows_step (hs : Sound json c.published (c.servers i)) (h : Attends ws room (c.servers i))
    (hok : Steady i ws room c e) (hstep : (cluster json).step c e = some c') :
    ∃ news, c'.published = c.published ++ news ∧ Follows json ws room news (c.servers i) (c'.servers i) := by
  have hquiet : c.published = c.published ++ [] := (List.append_nil _).symm
  cases e with
  | connect j x r layout =>
    obtain ⟨-, hstep⟩ := Option.ite_none_right_eq_some.mp hstep
    obtain ⟨g, hg, rfl⟩ := Option.map_eq_some_iff.mp hstep
    refine ⟨[], hquiet, follows_put h ?_⟩
    rintro rfl
    exact h.connect hg (hok rfl)
  | disconnect j x =>
    cases hstep
    refine ⟨[], hquiet, follows_put h ?_⟩
    rintro rfl
    obtain ⟨hx, hbehind⟩ := hok rfl
    exact h.disconnect hx fun b r hb hr hroom => hbehind r hroom b hb hr
  | publish event =>
    obtain ⟨-, hstep⟩ := Option.ite_none_right_eq_some.mp hstep
    cases hstep
    exact ⟨[event], rfl, h.push hok⟩
  | start j =>
    obtain ⟨-, hstep⟩ := Option.ite_none_left_eq_some.mp hstep
    cases hstep
    refine ⟨[], hquiet, follows_put h ?_⟩
    rintro rfl
    exact h.moved h.listening.symm rfl rfl rfl h.member fun b hb hr => (h.track b hb hr).1
  | stop j =>
    cases hstep
    exact ⟨[], hquiet, follows_put h fun e => absurd e hok⟩
  | lose j kept =>
    cases hstep
    exact ⟨[], hquiet, follows_put h fun e => absurd e hok⟩
  | pmessage j =>
    simp only [cluster] at hstep
    split at hstep
    · cases hstep
      refine ⟨[], hquiet, follows_put h ?_⟩
      rintro rfl
      exact h.pmessage ‹_› ‹_›
    · cases hstep
  | sent j ok =>
    obtain ⟨g, hg, rfl⟩ := Option.map_eq_some_iff.mp hstep
    refine ⟨[], hquiet, follows_put h ?_⟩
    rintro rfl
    exact h.sent hs hg (hok rfl)

/-- A socket that is in a room when no broadcast to it is under way, and stays: it receives
    what is in the node's inbox and what is published from then on for the room, all of it,
    once and in this order, or is owed the rest of it still. -/
theorem received_each (h : (cluster json).Reach Machine.any .init c) (hlisten : (c.servers i).listening = true)
    (hws : ws ∈ (c.servers i).mgr.registered room) (hidle : ∀ b, (c.servers i).reading = some b → b.room ≠ room)
    (honce : ∀ event ∈ (c.servers i).inbox, PrefixedOnce event)
    (hrun : (cluster json).Reach (Steady i ws room) c c') :
    ∃ news, c'.published = c.published ++ news ∧
      (c'.servers i).received ws ++ owed json ws room (c'.servers i) =
        (c.servers i).received ws ++ messages json room (c.servers i).inbox ++ messages json room news := by
  have hstart : Attends ws room (c.servers i) := ⟨hlisten, hws, honce, fun b hb hr => absurd hr (hidle b hb)⟩
  have howed : owed json ws room (c.servers i) = messages json room (c.servers i).inbox := by
    unfold owed
    split
    · rename_i b hb
      rw [if_neg fun hr => hidle b hb hr.1, List.nil_append]
    · rfl
  obtain ⟨news, hpub, hf⟩ := hrun.logged (L := Cluster.published)
    (P := fun c => ∀ j, Sound json c.published (c.servers j))
    (R := fun news c c' => Follows json ws room news (c.servers i) (c'.servers i)) (sound_of_reach h) hstart.same
    Follows.trans fun _ _ _ _ hs hf hok hstep => ⟨sound_step hs hstep, follows_step (hs i) hf.attends hok hstep⟩
  exact ⟨news, hpub, by rw [hf.received, howed]⟩

end Steady

/-! ## Four sockets and a fifth -/

/-- Two chat messages. -/
def lines : Json Bool where
  dumps message :=
    if message then "\x7b\"type\": \"chat\", \"content\": \"hi\"\x7d"
    else "\x7b\"type\": \"chat\", \"content\": \"bye\"\x7d"
  loads s :=
    if s = "\x7b\"type\": \"chat\", \"content\": \"hi\"\x7d" then some true
    else if s = "\x7b\"type\": \"chat\", \"content\": \"bye\"\x7d" then some false
    else none
  loads_dumps message := by cases message <;> rfl

theorem three_nodup : (([1, 2, 3] : List Nat).map some).reduceOption.Nodup := by decide

theorem four_nodup : ([some 1, some 2, some 3, some 4] : List (Option Nat)).reduceOption.Nodup := by decide

/-- A node that listens, with four sockets in room `lobby`. -/
def lounge : Cluster Bool Bool Nat := ((cluster lines).run .init
  [.start true, .connect true 1 "lobby" (table [1] one_nodup), .connect true 2 "lobby" (table [1, 2] two_nodup),
    .connect true 3 "lobby" (table [1, 2, 3] three_nodup), .connect true 4 "lobby" ⟨_, four_nodup⟩]).get rfl

theorem lounge_reach : (cluster lines).Reach Machine.any .init lounge :=
  Machine.reach_any_of_run _ (Option.some_get rfl).symm

theorem five_nodup :
    ([none, some 2, some 3, some 4, some 5, none, none, none, some 1] : List (Option Nat)).reduceOption.Nodup :=
      by decide

/-- While the first is sent the message a fifth connects, which moves the first to the end of
    a larger table, and leaves. -/
def resizing : List (ClusterEvent Bool Nat) :=
  [.publish (publish lines "lobby" true), .pmessage true, .connect true 5 "lobby" ⟨_, five_nodup⟩, .disconnect true 5,
    .sent true true, .sent true true, .sent true true, .sent true true, .sent true true]

def resized : Cluster Bool Bool Nat := ((cluster lines).run lounge resizing).get (by decide +kernel)

/-- The first is sent the message again. -/
theorem resized_ordered : messages lines "lobby" resized.published = [true] ∧
    (resized.servers true).received 1 = [true, true] ∧
    Repeats (messages lines "lobby" resized.published) ((resized.servers true).received 1) :=
  ⟨by decide +kernel, by decide +kernel, received_ordered
    (lounge_reach.trans (Machine.reach_any_of_run resizing (Option.some_get _).symm)) (by decide +kernel)
    (by decide +kernel)⟩

/-- Two messages are published, and a fifth socket connects while the fourth is sent the first. -/
def hailing : List (ClusterEvent Bool Nat) :=
  [.publish (publish lines "lobby" true), .publish (publish lines "lobby" false), .pmessage true, .sent true true,
    .sent true false, .sent true true, .connect true 5 "lobby" ⟨_, five_nodup⟩, .sent true true, .pmessage true]

def hailed : Cluster Bool Bool Nat :=
  ((cluster lines).runIf (Steady true 4 "lobby") lounge hailing).get (by decide +kernel)

/-- The iterator raises behind the fourth socket, which is owed the second message. -/
theorem hailed_each : (hailed.servers true).received 4 = [true] ∧ owed lines 4 "lobby" (hailed.servers true) = [false] ∧
    ∃ news, hailed.published = lounge.published ++ news ∧
      (hailed.servers true).received 4 ++ owed lines 4 "lobby" (hailed.servers true) =
        (lounge.servers true).received 4 ++ messages lines "lobby" (lounge.servers true).inbox ++
          messages lines "lobby" news :=
  ⟨by decide +kernel, by decide +kernel, received_each lounge_reach rfl (by decide) nofun (by decide)
    (Machine.reach_of_runIf hailing (Option.some_get _).symm)⟩

end Playground.Rooms.FastApi
