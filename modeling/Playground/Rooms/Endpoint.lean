/-
  Playground.Rooms.Endpoint — chat handlers and the sockets they leave registered
  (`websocket_chat_endpoint` of `router.py`).

  A handler connects its socket and announces it before its `try`, receives and
  publishes inside it, and disconnects the socket in the `except` of
  `WebSocketDisconnect`. Handlers run side by side, each with a socket of its own, and
  broadcasts clean up sockets in between; whatever a handler awaits may raise.
  - `ended_unregistered`: a handler that has ended has left no socket behind just when
    what it awaits, with its socket registered, raises nothing but a
    `WebSocketDisconnect` inside the loop.
  - `failed_announcement`: a run in which one leaves its socket behind.
-/

import Playground.Lib.Coroutine
import Playground.Rooms.Channel

namespace Playground.Rooms.Endpoint

open Playground.Lib

variable {W : Type}

/-! ## Commands -/

inductive Exc where
  | webSocketDisconnect
  | exception
  | cancelled
  deriving DecidableEq, Repr

/-- A message, as the dictionary that `publish` writes as JSON. -/
abbrev Dict := List (String × String)

variable (W) in
/-- What a handler awaits, and its call of `disconnect`, which awaits nothing. The rest of
    `connect` runs with the return of its accept. -/
inductive Cmd where
  | connect (room : String) (websocket : W)
  | publish (channel : String) (message : Dict)
  | receiveText (websocket : W)
  | disconnect (room : String) (websocket : W)
  /-- Past the rounds that a run is given; it never returns. -/
  | further
  deriving DecidableEq

@[reducible] def Ans : Cmd W → Type
  | .connect .. => Unit
  | .publish .. => Unit
  | .receiveText _ => String
  | .disconnect .. => Unit
  | .further => Empty

abbrev Prog (W α : Type) := Co (Cmd W) Ans Exc α

def await (c : Cmd W) : Prog W (Ans c) := Co.await c

/-- What a step's surroundings decide: whether the awaited call raises, the table of the
    room's set after a connect, and the text that is received. -/
structure Chance (W : Type) where
  raises : Option Exc
  layout : PySet W
  text : String

def Chance.reply {α : Type} (x : Chance W) (a : α) : Except Exc α :=
  match x.raises with
  | none => .ok a
  | some e => .error e

/-- The clean-up of a broadcast. -/
inductive World (W : Type) where
  | cleanup (room : String) (dead : W)

def memory {ι : Type} [DecidableEq W] : Memory ι (Cmd W) Ans Exc (Chance W) (World W) (Manager String W) where
  exec _ c x m := match c with
    | .connect room ws => match x.raises with
      | some e => some (.error e, m)
      | none => (m.connect room ws x.layout).map fun m => (.ok (), m)
    | .publish .. => some (x.reply (), m)
    | .receiveText _ => some (x.reply x.text, m)
    | .disconnect room ws => if x.raises = none then some (.ok (), m.disconnect room ws) else none
    | .further => none
  env
    | .cleanup room dead, m => some (m.disconnect room dead)

/-! ## `websocket_chat_endpoint` -/

/-- A handler's arguments, and the rounds of its loop that a run is given. -/
structure Handler (W : Type) where
  websocket : W
  roomId : String
  rounds : Nat

section Handler

variable (nodeId : String) (h : Handler W)

def connectedMessage (room : String) : Dict :=
  [("type", "system"), ("message", "New user connected to room '" ++ room ++ "' via node [" ++ nodeId ++ "]"),
    ("node_id", nodeId)]

def chatMessage (text : String) : Dict := [("type", "chat"), ("content", text), ("from_node", nodeId)]

def disconnectedMessage (room : String) : Dict :=
  [("type", "system"), ("message", "User disconnected from room '" ++ room ++ "' on node [" ++ nodeId ++ "]"),
    ("node_id", nodeId)]

/-- `manager.publish`. -/
def publish (room : String) (message : Dict) : Prog W Unit := await (.publish (channelOf room) message)

/-- `while True`. -/
def chatLoop : Nat → Prog W Unit
  | 0 => do
    let never ← await .further
    nomatch never
  | n + 1 => do
    let text ← await (.receiveText h.websocket)
    publish h.roomId (chatMessage nodeId text)
    chatLoop n

def websocketChatEndpoint : Prog W Unit := do
  await (.connect h.roomId h.websocket)
  publish h.roomId (connectedMessage nodeId h.roomId)
  (chatLoop nodeId h h.rounds).handle fun
    | .webSocketDisconnect => do
      await (.disconnect h.roomId h.websocket)
      publish h.roomId (disconnectedMessage nodeId h.roomId)
    | e => Co.raise e

/-! ## Phases -/

/-- Where a handler stands: what it awaits next. -/
inductive Phase where
  | connecting
  | announcing
  | receiving (n : Nat)
  | chatting (n : Nat) (text : String)
  /-- In the `except`. -/
  | leaving
  | parting
  | ended (r : Except Exc Unit)

/-- Between its connect and its disconnect. -/
def Phase.connected : Phase → Prop
  | .announcing | .receiving _ | .chatting .. | .leaving => True
  | _ => False

/-- An exception inside the `try`. -/
def Phase.except : Exc → Phase
  | .webSocketDisconnect => .leaving
  | e => .ended (.error e)

def Phase.on {α : Type} (k : α → Phase) : Except Exc α → Phase
  | .ok a => k a
  | .error e => .ended (.error e)

/-- As `on`, inside the `try`. -/
def Phase.onTry {α : Type} (k : α → Phase) : Except Exc α → Phase
  | .ok a => k a
  | .error e => .except e

/-- The command that announces the socket. -/
def announcement : Cmd W := .publish (channelOf h.roomId) (connectedMessage nodeId h.roomId)

def headOf : Phase → Head (Cmd W) Ans Exc Unit Phase
  | .connecting => .goes (.connect h.roomId h.websocket) (.on fun _ => .announcing)
  | .announcing => .goes (announcement nodeId h) (.on fun _ => .receiving h.rounds)
  | .receiving 0 => .goes .further (.onTry nofun)
  | .receiving (n + 1) => .goes (.receiveText h.websocket) (.onTry (.chatting n))
  | .chatting n text => .goes (.publish (channelOf h.roomId) (chatMessage nodeId text)) (.onTry fun _ => .receiving n)
  | .leaving => .goes (.disconnect h.roomId h.websocket) (.on fun _ => .parting)
  | .parting => .goes (.publish (channelOf h.roomId) (disconnectedMessage nodeId h.roomId)) (.on fun _ =>
      .ended (.ok ()))
  | .ended r => .ended r

/-- The rest of a handler from its `try` on, which `p` is what is left of. -/
def codeTry (p : Prog W Unit) : Prog W Unit :=
  p.handle fun
    | .webSocketDisconnect => (await (.disconnect h.roomId h.websocket)).bind fun _ =>
      publish h.roomId (disconnectedMessage nodeId h.roomId)
    | e => Co.raise e

/-- The program left in a phase. -/
def codeOf : Phase → Prog W Unit
  | .connecting => websocketChatEndpoint nodeId h
  | .announcing => (await (announcement nodeId h)).bind fun _ => codeTry nodeId h (chatLoop nodeId h h.rounds)
  | .receiving n => codeTry nodeId h (chatLoop nodeId h n)
  | .chatting n text => codeTry nodeId h ((publish h.roomId (chatMessage nodeId text)).bind fun _ =>
      chatLoop nodeId h n)
  | .leaving => (await (.disconnect h.roomId h.websocket)).bind fun _ =>
      publish h.roomId (disconnectedMessage nodeId h.roomId)
  | .parting => publish h.roomId (disconnectedMessage nodeId h.roomId)
  | .ended r => Co.resume r

theorem code_except (e : Exc) : codeOf nodeId h (.except e) = codeTry nodeId h (.raise e) := by
  cases e <;> rfl

theorem except_ended {e : Exc} (he : e ≠ .webSocketDisconnect) : ∃ res, Phase.except e = .ended res := by
  cases e with
  | webSocketDisconnect => exact absurd rfl he
  | exception | cancelled => exact ⟨_, rfl⟩

theorem unfolds (p : Phase) : codeOf nodeId h p = (headOf nodeId h p).code (codeOf nodeId h) := by
  cases p with
  | connecting => exact Co.cmd_congr (fun _ => rfl) (fun _ => rfl)
  | announcing => exact Co.cmd_congr (fun _ => rfl) (fun _ => rfl)
  | receiving n =>
    cases n with
    | zero => exact Co.cmd_congr nofun (fun e => (code_except nodeId h e).symm)
    | succ n => exact Co.cmd_congr (fun _ => rfl) (fun e => (code_except nodeId h e).symm)
  | chatting n text => exact Co.cmd_congr (fun _ => rfl) (fun e => (code_except nodeId h e).symm)
  | leaving => exact Co.cmd_congr (fun _ => rfl) (fun _ => rfl)
  | parting => exact Co.cmd_congr (fun _ => rfl) (fun _ => rfl)
  | ended r => rfl

theorem ended_of_head {r : Except Exc Unit} {p : Phase} (hp : headOf nodeId h p = .ended r) : p = .ended r := by
  cases p with
  | receiving n => cases n <;> cases hp
  | ended r' => cases hp; rfl
  | _ => cases hp

end Handler

/-- The handlers' flow chart. -/
def chats {ι : Type} (nodeId : String) (hs : ι → Handler W) : Flow ι (Cmd W) Ans Exc Unit Phase :=
  ⟨fun i => codeOf nodeId (hs i), fun i => headOf nodeId (hs i), fun i => unfolds nodeId (hs i)⟩

/-! ## Finished handlers -/

section Runs

variable {ι : Type} [DecidableEq ι] [DecidableEq W] {nodeId : String} {hs : ι → Handler W}

/-- The handlers at work. -/
abbrev Serving (ι W : Type) := Threads ι (Cmd W) Ans Exc Unit (World W) (Manager String W)

abbrev St (ι W : Type) := Phases ι (Cmd W) Ans Exc (World W) (Manager String W) Phase

/-- No handler that has ended has left its socket in a room. -/
def Tidy (hs : ι → Handler W) (s : Serving ι W) : Prop :=
  ∀ i, (s.thr i).next = none → ∀ room, (hs i).websocket ∉ s.mem.registered room

/-- What a handler awaits raises nothing while its socket is registered, except a
    `WebSocketDisconnect` in the loop. -/
def Handled (nodeId : String) (hs : ι → Handler W) (s : Serving ι W) : Ev ι (Chance W) (World W) → Prop
  | .run i x => (hs i).websocket ∈ s.mem.registered (hs i).roomId →
      x.raises = none ∨ x.raises = some .webSocketDisconnect ∧ (s.thr i).next ≠ some (announcement nodeId (hs i))
  | .env _ => True

instance (s : Serving ι W) (e : Ev ι (Chance W) (World W)) : Decidable (Handled nodeId hs s e) :=
  match e with
  | .run .. => inferInstanceAs (Decidable (_ → _ ∨ _ ∧ _))
  | .env _ => instDecidableTrue

/-- A socket that is registered is in its handler's room, and its handler has connected
    it and not come to its disconnect. -/
def Inv (hs : ι → Handler W) (u : St ι W) : Prop :=
  ∀ i room, (hs i).websocket ∈ u.mem.registered room → room = (hs i).roomId ∧ (u.ph i).connected

variable {u u' : St ι W} {i : ι} {c : Cmd W} {r : Except Exc (Ans c)} {m : Manager String W} {p : Phase}

omit [DecidableEq W] in
/-- A step of handler `i` that registers no socket. -/
theorem Inv.did (hi : Inv hs u) (hm : ∀ x room, x ∈ m.registered room → x ∈ u.mem.registered room)
    (hp : (hs i).websocket ∈ m.registered (hs i).roomId → p.connected) : Inv hs (u.did i c r m p) := by
  intro j room hj
  obtain ⟨rfl, hc⟩ := hi j room (hm _ _ hj)
  refine ⟨rfl, ?_⟩
  by_cases e : j = i
  · subst e
    simpa using hp hj
  · simpa [e] using hc

/-- A connect. -/
theorem Inv.connect (hinj : Function.Injective fun i => (hs i).websocket) (hi : Inv hs u) {layout : PySet W}
    (hm : u.mem.connect (hs i).roomId (hs i).websocket layout = some m) (hp : p.connected) :
    Inv hs (u.did i c r m p) := by
  intro j room hj
  rcases (Manager.mem_registered_connect hm).mp hj with ⟨rfl, he⟩ | hj
  · cases hinj he
    exact ⟨rfl, by simpa using hp⟩
  · obtain ⟨rfl, hc⟩ := hi j room hj
    refine ⟨rfl, ?_⟩
    by_cases e : j = i
    · subst e
      simpa using hp
    · simpa [e] using hc

/-- A disconnect registers no socket. -/
theorem registered_disconnect {x ws : W} {room r : String} (h : x ∈ (m.disconnect room ws).registered r) :
    x ∈ m.registered r :=
  (Manager.mem_registered_disconnect.mp h).1

/-- A command that leaves the rooms alone. -/
def Cmd.passive : Cmd W → Prop
  | .connect .. | .disconnect .. => False
  | _ => True

omit [DecidableEq ι] in
/-- It raises what its surroundings say. -/
theorem exec_passive (hc : c.passive) {x : Chance W} {rm : Except Exc (Ans c) × Manager String W}
    (hx : (memory (ι := ι)).exec i c x u.mem = some rm) :
    rm.2 = u.mem ∧ ∀ e, rm.1 = .error e ↔ x.raises = some e := by
  cases c with
  | connect | disconnect => exact hc.elim
  | further => cases hx
  | publish | receiveText =>
    cases hx
    refine ⟨rfl, fun e => ?_⟩
    unfold Chance.reply
    cases x.raises <;> simp

omit [DecidableEq ι] [DecidableEq W] in
theorem ended_of_next (h : ((chats nodeId hs).code i p).next = none) : ∃ r, p = .ended r := by
  obtain ⟨r, hr⟩ := Flow.head_of_next_none _ h
  exact ⟨r, ended_of_head nodeId (hs i) hr⟩

omit [DecidableEq ι] [DecidableEq W] in
theorem Inv.tidy (hi : Inv hs u) : Tidy hs ((chats nodeId hs).threadsOf u) := by
  intro i hended room hreg
  obtain ⟨r, hr⟩ := ended_of_next hended
  have hc := (hi i room hreg).2
  rw [hr] at hc
  exact hc

omit [DecidableEq W] in
/-- A handler that ends with its socket registered. -/
theorem not_tidy {res : Except Exc Unit} {room : String} (hreg : (hs i).websocket ∈ m.registered room) :
    ¬ Tidy hs ((chats nodeId hs).threadsOf (u.did i c r m (.ended res))) := by
  intro h
  refine h i ?_ room hreg
  show ((chats nodeId hs).code i ((u.did i c r m (.ended res)).ph i)).next = none
  rw [Phases.did_ph_same, Flow.next_code]
  rfl

omit [DecidableEq ι] [DecidableEq W] in
/-- The chat message is not the announcement. -/
theorem chat_ne_announcement (text : String) :
    (.publish (channelOf (hs i).roomId) (chatMessage nodeId text) : Cmd W) ≠ announcement nodeId (hs i) := by
  intro he
  have := (List.cons.inj (Cmd.publish.inj he).2).1
  simp at this

/-- A step either meets the condition and keeps the invariant, or does not and leaves a
    socket behind. -/
def Decides (nodeId : String) (hs : ι → Handler W) (u : St ι W) (e : Ev ι (Chance W) (World W)) (u' : St ι W) : Prop :=
  (Handled nodeId hs ((chats nodeId hs).threadsOf u) e ∧ Inv hs u') ∨
    (¬ Handled nodeId hs ((chats nodeId hs).threadsOf u) e ∧ ¬ Tidy hs ((chats nodeId hs).threadsOf u'))

/-- A command that leaves the rooms alone: the handler goes on with its answer, takes a
    `WebSocketDisconnect` inside the loop, and ends with any other exception. -/
theorem Inv.passive (hi : Inv hs u) {x : Chance W} {k : Except Exc (Ans c) → Phase}
    {rm : Except Exc (Ans c) × Manager String W} (hh : headOf nodeId (hs i) (u.ph i) = .goes c k)
    (hx : memory.exec i c x u.mem = some rm) (hc : c.passive)
    (hok : (u.ph i).connected → ∀ a, (k (.ok a)).connected)
    (hcaught : (u.ph i).connected → c ≠ announcement nodeId (hs i) → (k (.error .webSocketDisconnect)).connected)
    (hraised : ∀ e, e ≠ .webSocketDisconnect ∨ c = announcement nodeId (hs i) → ∃ res, k (.error e) = .ended res) :
    Decides nodeId hs u (.run i x) (u.did i c rm.1 rm.2 (k rm.1)) := by
  have hnext : (((chats nodeId hs).threadsOf u).thr i).next = some c := Flow.next_of_head (chats nodeId hs) hh
  obtain ⟨r, m⟩ := rm
  obtain ⟨rfl, hr⟩ := exec_passive hc hx
  by_cases hreg : (hs i).websocket ∈ u.mem.registered (hs i).roomId
  · have hcon := (hi i _ hreg).2
    cases hraise : x.raises with
    | none =>
      refine .inl ⟨fun _ => .inl hraise, hi.did (fun _ _ h => h) fun _ => ?_⟩
      cases r with
      | ok a => exact hok hcon a
      | error e => exact nomatch hraise.symm.trans ((hr e).mp rfl)
    | some e =>
      cases (hr e).mpr hraise
      by_cases hcase : e = .webSocketDisconnect ∧ c ≠ announcement nodeId (hs i)
      · obtain ⟨rfl, hne⟩ := hcase
        have hin : (((chats nodeId hs).threadsOf u).thr i).next ≠ some (announcement nodeId (hs i)) :=
          fun h => hne (Option.some.inj (hnext.symm.trans h))
        exact .inl ⟨fun _ => .inr ⟨hraise, hin⟩, hi.did (fun _ _ h => h) fun _ => hcaught hcon hne⟩
      · obtain ⟨res, hres⟩ := hraised e (by tauto)
        refine .inr ⟨?_, ?_⟩
        · intro h
          rcases h hreg with hnone | ⟨hwsd, hne⟩
          · cases hraise.symm.trans hnone
          · exact hcase ⟨Option.some.inj (hraise.symm.trans hwsd), fun h => hne (h ▸ hnext)⟩
        · show ¬ Tidy hs ((chats nodeId hs).threadsOf (u.did i c _ _ (k (.error e))))
          rw [hres]
          exact not_tidy hreg
  · exact .inl ⟨fun h => absurd h hreg, hi.did (fun _ _ h => h) fun h => absurd h hreg⟩

/-- Each step decides. -/
theorem Inv.step (hinj : Function.Injective fun i => (hs i).websocket) (hi : Inv hs u)
    {e : Ev ι (Chance W) (World W)} (hst : ((chats nodeId hs).phases memory).step u e = some u') :
    Decides nodeId hs u e u' := by
  cases e with
  | env e =>
    obtain ⟨m, hm, rfl⟩ := Flow.step_env _ hst
    obtain ⟨room, dead⟩ := e
    cases hm
    exact .inl ⟨trivial, fun i r hreg => hi i r (registered_disconnect hreg)⟩
  | run i x =>
    obtain ⟨c, k, rm, hh, hx, rfl⟩ := Flow.step_run _ hst
    change headOf nodeId (hs i) (u.ph i) = .goes c k at hh
    have hout : ¬ (u.ph i).connected → (hs i).websocket ∉ u.mem.registered (hs i).roomId :=
      fun h hreg => h (hi i _ hreg).2
    cases hp : u.ph i with
    | connecting =>
      rw [hp] at hh hout
      cases hh
      have hreg := hout id
      refine .inl ⟨fun h => absurd h hreg, ?_⟩
      simp only [memory] at hx
      split at hx
      · cases hx
        exact hi.did (fun _ _ h => h) fun h => absurd h hreg
      · obtain ⟨m, hm, rfl⟩ := Option.map_eq_some_iff.mp hx
        exact hi.connect hinj hm trivial
    | leaving =>
      rw [hp] at hh
      cases hh
      simp only [memory, Option.ite_none_right_eq_some] at hx
      obtain ⟨hnone, hx⟩ := hx
      cases hx
      refine .inl ⟨fun _ => .inl hnone, hi.did (fun _ _ => registered_disconnect) fun h => ?_⟩
      exact absurd ⟨rfl, rfl⟩ (Manager.mem_registered_disconnect.mp h).2
    | announcing =>
      have hhead := hh
      rw [hp] at hh
      cases hh
      refine hi.passive hhead hx trivial (fun _ _ => trivial) (fun _ h => absurd rfl h) ?_
      exact fun e _ => ⟨_, rfl⟩
    | receiving n =>
      have hhead := hh
      rw [hp] at hh
      cases n with
      | zero => cases hh; cases hx
      | succ n =>
        cases hh
        refine hi.passive hhead hx trivial (fun _ _ => trivial) (fun _ _ => trivial) ?_
        rintro e (he | he)
        · exact except_ended he
        · cases he
    | chatting n text =>
      have hhead := hh
      rw [hp] at hh
      cases hh
      refine hi.passive hhead hx trivial (fun _ _ => trivial) (fun _ _ => trivial) ?_
      rintro e (he | he)
      · exact except_ended he
      · exact absurd he (chat_ne_announcement text)
    | parting =>
      have hhead := hh
      rw [hp] at hh
      cases hh
      refine hi.passive hhead hx trivial (fun h => ?_) (fun h => ?_) fun e _ => ⟨_, rfl⟩
      · rw [hp] at h; exact h.elim
      · rw [hp] at h; exact h.elim
    | ended r => rw [hp] at hh; cases hh

/-- Each handler before its first step, in a server without rooms. -/
def opening (nodeId : String) (hs : ι → Handler W) : Serving ι W :=
  start Manager.init fun i => websocketChatEndpoint nodeId (hs i)

/-- The handlers' states are states of their flow chart. -/
theorem follows_chats {ok : Serving ι W → Ev ι (Chance W) (World W) → Prop} {s : Serving ι W}
    (h : (threads memory).Reach ok (opening nodeId hs) s) :
    ∃ u, ((chats nodeId hs).phases memory).Reach (fun u e => ok ((chats nodeId hs).threadsOf u) e)
      ⟨Manager.init, fun _ => .connecting, []⟩ u ∧ s = (chats nodeId hs).threadsOf u :=
  Flow.follows _ h

/-- In every run in which what a handler awaits with its socket registered raises
    nothing but a `WebSocketDisconnect` in the loop, no ended handler has left its socket
    in a room; and a further step keeps that just when it is such a step. -/
theorem ended_unregistered (hinj : Function.Injective fun i => (hs i).websocket) {s : Serving ι W}
    (h : (threads memory).Reach (Handled nodeId hs) (opening nodeId hs) s) :
    Tidy hs s ∧ ∀ e s', (threads memory).step s e = some s' → (Tidy hs s' ↔ Handled nodeId hs s e) := by
  obtain ⟨u, hu, rfl⟩ := follows_chats h
  have hinv : Inv hs u := by
    refine hu.invariant (fun _ _ h => absurd h List.not_mem_nil) fun u e u' hi hok hst => ?_
    rcases hi.step hinj hst with ⟨-, hi'⟩ | ⟨hbad, -⟩
    · exact hi'
    · exact absurd hok hbad
  refine ⟨hinv.tidy, fun e s' hst => ?_⟩
  rw [Flow.step_threadsOf, Option.map_eq_some_iff] at hst
  obtain ⟨u', hst, rfl⟩ := hst
  rcases hinv.step hinj hst with ⟨hok, hi'⟩ | ⟨hbad, hleft⟩
  · exact iff_of_true hi'.tidy hok
  · exact iff_of_false hleft hbad

end Runs

/-! ## One client -/

/-- Every client goes to one room. -/
def clients (i : Nat) : Handler Nat := ⟨i, "lobby", 2⟩

theorem clients_injective : Function.Injective fun i => (clients i).websocket := fun _ _ h => h

/-- Client 1 gets this answer. -/
def turn (raises : Option Exc) : Ev Nat (Chance Nat) (World Nat) := .run 1 ⟨raises, table [1] one_nodup, "hi"⟩

/-- It joins, says hi and leaves; its departure is not announced. -/
def visit : List (Ev Nat (Chance Nat) (World Nat)) :=
  [turn none, turn none, turn none, turn none, turn (some .webSocketDisconnect), turn none, turn (some .exception)]

def afterVisit : Serving Nat Nat :=
  ((threads memory).runIf (Handled "node-1" clients) (opening "node-1" clients) visit).get rfl

theorem visitor_unregistered : (afterVisit.thr 1).next = none ∧ Tidy clients afterVisit :=
  have h : (threads memory).Reach (Handled "node-1" clients) (opening "node-1" clients) afterVisit :=
    Machine.reach_of_runIf visit (Option.some_get rfl).symm
  ⟨rfl, (ended_unregistered clients_injective h).1⟩

/-- The announcement of client 1 raises. -/
def announceFails : List (Ev Nat (Chance Nat) (World Nat)) := [turn none, turn (some .exception)]

def afterFailure : Serving Nat Nat := ((threads memory).run (opening "node-1" clients) announceFails).get rfl

/-- The handler ends and its socket stays in the room. -/
theorem failed_announcement : (threads memory).Reach Machine.any (opening "node-1" clients) afterFailure ∧
    (afterFailure.thr 1).next = none ∧ 1 ∈ afterFailure.mem.registered "lobby" ∧ ¬ Tidy clients afterFailure :=
  have hreg : 1 ∈ afterFailure.mem.registered "lobby" := by decide
  ⟨Machine.reach_any_of_run announceFails (Option.some_get rfl).symm, rfl, hreg, fun h => h 1 rfl "lobby" hreg⟩

end Playground.Rooms.Endpoint
