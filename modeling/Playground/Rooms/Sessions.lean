/-
  Playground.Rooms.Sessions — the sends of Spring's `broadcastLocally`
  (`WebSocketChatHandler.java`, called from `RedisPubSubService.onMessage`).

  The loop asks each session of the room whether it is open and sends to those that
  are. Its `catch` takes the `IOException` of a send; an unchecked exception, such as the
  one of a session that another thread is sending to, ends the loop.
  - `forEach_sendTo`: what is sent, and how the call ends, for every list of sessions.
  - `isolates_iff`: one session's failure spares the others just when no session of the
    room throws an unchecked exception.
-/

import Mathlib.Data.List.Count
import Mathlib.Data.List.TakeWhile
import Playground.Lib.Solo
import Playground.Rooms.Channel

namespace Playground.Rooms.Sessions

open Playground.Lib

variable {W : Type}

/-- What an `isOpen` or a `sendMessage` can throw. -/
inductive Exc where
  | ioException
  | unchecked
  deriving DecidableEq, Repr

variable (W) in
inductive Cmd where
  | isOpen (s : W)
  | sendMessage (s : W) (message : String)

@[reducible] def Ans : Cmd W → Type
  | .isOpen _ => Bool
  | .sendMessage .. => Unit

abbrev Prog (W α : Type) := Co (Cmd W) Ans Exc α

def await (c : Cmd W) : Prog W (Ans c) := Co.await c

/-- A room's sessions, in the order its iterator takes them. -/
abbrev SessionSet (W : Type) := { l : List W // l.Nodup }

/-! ## `broadcastLocally` -/

/-- The `try` and its `catch`. -/
def trySend (message : String) (s : W) : Prog W Unit :=
  (await (.sendMessage s message)).handle fun
    | .ioException => pure ()
    | .unchecked => Co.raise .unchecked

/-- The body of the loop. -/
def sendTo (message : String) (s : W) : Prog W Unit := do
  if ← await (.isOpen s) then
    trySend message s

def broadcastLocally (rooms : String → Option (SessionSet W)) (room message : String) : Prog W Unit :=
  match rooms room with
  | none => pure ()
  | some sessions => Co.forEach (sendTo message) sessions

/-! ## Outcomes -/

/-- What comes of a session's turn: `isOpen` answers no or throws, or it answers yes and
    `sendMessage` delivers or throws. -/
inductive Outcome where
  | delivered
  | closed
  | ioException
  | isOpenThrows
  | sendThrows
  deriving DecidableEq, Repr

/-- An unchecked exception. -/
def Outcome.unchecked (o : Outcome) : Bool := o == .isOpenThrows || o == .sendThrows

def Outcome.isOpen : Outcome → Except Exc Bool
  | .isOpenThrows => .error .unchecked
  | .closed => .ok false
  | _ => .ok true

def Outcome.sendMessage : Outcome → Except Exc Unit
  | .delivered => .ok ()
  | .ioException => .error .ioException
  | _ => .error .unchecked

/-- The sends that went through, in order. -/
abbrev Sent (W : Type) := List (W × String)

def memory (outcome : W → Outcome) : Memory Unit (Cmd W) Ans Exc Unit Empty (Sent W) where
  exec _ c _ sent := some <| match c with
    | .isOpen s => ((outcome s).isOpen, sent)
    | .sendMessage s message =>
      ((outcome s).sendMessage, sent ++ if outcome s = .delivered then [(s, message)] else [])
  env e _ := e.elim

/-- The call ends so: from `sent` before to `sent'` after. -/
abbrev Ends (outcome : W → Outcome) (p : Prog W Unit) (sent : Sent W) (r : Except Exc Unit)
    (sent' : Sent W) : Prop :=
  p.Ends (memory outcome) () (fun _ => ()) sent r sent'

/-! ## What is sent -/

variable {outcome : W → Outcome} {message : String} {s : W} {sent : Sent W}

theorem isOpen_ends {r : Except Exc Bool} (h : (outcome s).isOpen = r) :
    (await (.isOpen s)).Ends (memory outcome) () (fun _ => ()) sent r sent :=
  Co.ends_await (congrArg (fun r => some (r, sent)) h)

theorem sendMessage_ends {r : Except Exc Unit} (h : (outcome s).sendMessage = r) :
    (await (.sendMessage s message)).Ends (memory outcome) () (fun _ => ()) sent r
      (sent ++ if outcome s = .delivered then [(s, message)] else []) :=
  Co.ends_await (congrArg (fun r => some (r, sent ++ if outcome s = .delivered then [(s, message)] else [])) h)

/-- One session's turn: a message that is delivered is sent, and what is thrown and
    not an `IOException` comes out. -/
theorem sendTo_ends (outcome : W → Outcome) (message : String) (s : W) (sent : Sent W) :
    Ends outcome (sendTo message s) sent
    (if (outcome s).unchecked then .error .unchecked else .ok ())
    (sent ++ if outcome s = .delivered then [(s, message)] else []) := by
  have hopen {o : Outcome} (ho : outcome s = o) : (outcome s).isOpen = o.isOpen := by rw [ho]
  have hsend {o : Outcome} (ho : outcome s = o) : (outcome s).sendMessage = o.sendMessage := by rw [ho]
  cases ho : outcome s with
  | delivered =>
    have hs : (await (.sendMessage s message)).Ends (memory outcome) () (fun _ => ()) sent _ _ :=
      sendMessage_ends (hsend ho)
    rw [ho] at hs
    exact (isOpen_ends (hopen ho)).bind (.handle _ hs)
  | closed =>
    have : Ends outcome (sendTo message s) sent (.ok ()) sent := (isOpen_ends (hopen ho)).bind (Co.ends_ret ())
    simpa [Outcome.unchecked] using this
  | ioException =>
    have hs : (await (.sendMessage s message)).Ends (memory outcome) () (fun _ => ()) sent _ _ :=
      sendMessage_ends (hsend ho)
    rw [ho] at hs
    exact (isOpen_ends (hopen ho)).bind (hs.handle_error (Co.ends_ret ()))
  | isOpenThrows =>
    have : Ends outcome (sendTo message s) sent (.error .unchecked) sent := (isOpen_ends (hopen ho)).bind_error _
    simpa [Outcome.unchecked] using this
  | sendThrows =>
    have hs : (await (.sendMessage s message)).Ends (memory outcome) () (fun _ => ()) sent _ _ :=
      sendMessage_ends (hsend ho)
    rw [ho] at hs
    exact (isOpen_ends (hopen ho)).bind (hs.handle_error (Co.ends_raise _))

/-- What is sent to a list of sessions: those up to the first that throws an unchecked
    exception, and the call ends with it. -/
def delivered (outcome : W → Outcome) (message : String) (l : List W) : Sent W :=
  ((l.takeWhile fun s => !(outcome s).unchecked).filter fun s => outcome s = .delivered).map fun s => (s, message)

theorem forEach_sendTo (outcome : W → Outcome) (message : String) (l : List W) (sent : Sent W) :
    Ends outcome (Co.forEach (sendTo message) l) sent
      (if l.any fun s => (outcome s).unchecked then .error .unchecked else .ok ())
      (sent ++ delivered outcome message l) := by
  induction l generalizing sent with
  | nil => simpa [delivered] using Co.ends_forEach_nil
  | cons s l ih =>
    have hs := sendTo_ends outcome message s sent
    cases hu : (outcome s).unchecked with
    | true =>
      have hne : outcome s ≠ .delivered := fun h => by simp [h, Outcome.unchecked] at hu
      simp only [hu, if_true, if_neg hne, List.append_nil] at hs
      simpa [delivered, hu] using Co.ends_forEach_error hs
    | false =>
      simp only [hu, Bool.false_eq_true, if_false] at hs
      have := Co.ends_forEach_cons hs (ih _)
      have hd : delivered outcome message (s :: l) =
          (if outcome s = .delivered then [(s, message)] else []) ++ delivered outcome message l := by
        rw [delivered, List.takeWhile_cons_of_pos (by simp [hu]), List.filter_cons]
        by_cases h : outcome s = .delivered <;> simp [delivered, h]
      simpa [hu, hd] using this

/-! ## Isolation -/

variable [DecidableEq W]

/-- The broadcast sends the message once to each session of the room whose own send
    succeeds, and returns. -/
def Isolates (rooms : String → Option (SessionSet W)) (outcome : W → Outcome) (room message : String) : Prop :=
  ∃ sent, Ends outcome (broadcastLocally rooms room message) [] (.ok ()) sent ∧
    ∀ sessions, rooms room = some sessions → ∀ s ∈ sessions.1, outcome s = .delivered → sent.count (s, message) = 1

/-- Without unchecked exceptions every session is served. -/
theorem count_delivered {l : List W} (hl : l.Nodup) (h : ∀ s ∈ l, (outcome s).unchecked = false) (hs : s ∈ l)
    (ho : outcome s = .delivered) : (delivered outcome message l).count (s, message) = 1 := by
  have hall : l.takeWhile (fun s => !(outcome s).unchecked) = l := by
    rw [List.takeWhile_eq_self_iff]
    intro s hs
    simp [h s hs]
  have hinj : Function.Injective fun s : W => (s, message) := fun a b hab => (Prod.mk.inj hab).1
  rw [delivered, hall, List.count_map_of_injective _ _ hinj, List.count_filter (by simpa using ho)]
  exact List.count_eq_one_of_mem hl hs

theorem broadcastLocally_isolates_iff (rooms : String → Option (SessionSet W)) (outcome : W → Outcome)
    (room message : String) : Isolates rooms outcome room message ↔
      ∀ sessions, rooms room = some sessions → ∀ s ∈ sessions.1, (outcome s).unchecked = false := by
  unfold Isolates broadcastLocally
  cases hr : rooms room with
  | none =>
    refine iff_of_true ⟨[], Co.ends_ret (), ?_⟩ ?_
    · intro sessions h
      cases h
    · intro sessions h
      cases h
  | some sessions =>
    have hends := forEach_sendTo outcome message sessions.1 []
    constructor
    · rintro ⟨sent, h, -⟩ _ heq
      cases heq
      have hok := (h.unique hends).1
      intro s hs
      by_contra hu
      have : sessions.1.any (fun s => (outcome s).unchecked) = true := List.any_eq_true.mpr ⟨s, hs, by simpa using hu⟩
      rw [this] at hok
      cases hok
    · intro h
      have hall : sessions.1.any (fun s => (outcome s).unchecked) = false := by
        rw [List.any_eq_false]
        intro s hs
        simp [h sessions rfl s hs]
      rw [hall] at hends
      refine ⟨_, hends, ?_⟩
      intro _ heq
      cases heq
      intro s hs ho
      exact count_delivered sessions.2 (h sessions rfl) hs ho

def twoSessions : SessionSet Nat := ⟨[1, 2], by decide⟩

/-- Another thread is sending to the first session. -/
def firstBusy (s : Nat) : Outcome := if s = 1 then .sendThrows else .delivered

/-- A session whose send throws an unchecked exception silences those behind it. -/
theorem busy_session_silences :
    Ends firstBusy (broadcastLocally (fun _ => some twoSessions) "general" "hi") [] (.error .unchecked) [] ∧
      ¬ Isolates (fun _ => some twoSessions) firstBusy "general" "hi" := by
  have hends := forEach_sendTo firstBusy "hi" twoSessions.1 []
  refine ⟨hends, ?_⟩
  rintro ⟨sent, h, -⟩
  cases (h.unique hends).1

omit [DecidableEq W] in
/-- Where no send fails, the sends are those to the open sessions. -/
theorem delivered_openIn {n : Node W} {room : String} {l : List W} (hr : n.rooms room = some l)
    (h : ∀ s, outcome s = if n.isOpen s then .delivered else .closed) :
    delivered outcome message l = (Spring.broadcastLocally n room).map fun s => (s, message) := by
  have hall : l.takeWhile (fun s => !(outcome s).unchecked) = l := by
    rw [List.takeWhile_eq_self_iff]
    intro s _
    rw [h s]
    cases n.isOpen s <;> rfl
  have hopen : (fun s => decide (outcome s = .delivered)) = n.isOpen := by
    funext s
    rw [h s]
    cases n.isOpen s <;> rfl
  simp only [delivered, hall, hopen, Spring.broadcastLocally, Node.openIn, hr]

end Playground.Rooms.Sessions
