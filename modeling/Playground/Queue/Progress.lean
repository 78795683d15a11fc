/-
  Playground.Queue.Progress — the flow chart of `enqueue_job` and `process_one_job`.

  A phase says which command a call awaits next, with the locals it holds; `unfolds`
  checks the chart against the programs. A `Task` is the message a `process_one_job` is
  at, from its status write on.
-/

import Playground.Queue.JobQueue

namespace Playground.Queue

open Playground.Lib Playground.Redis

section Progress

variable {P : Type}

/-- The message `w` is at, with its job, and those of the same read still to come. -/
structure Task where
  w : Worker
  id : Nat
  jobId : String
  taskType : String
  rest : List (Nat × Message)

inductive Phase (P : Type) where
  | grouping (c : Call P)
  | writing (job : NewJob P)
  | sending (job : NewJob P)
  | reading (w : Worker)
  /-- At a message without a job id. -/
  | blank (w : Worker) (id : Nat) (rest : List (Nat × Message))
  | claiming (t : Task)
  | loading (t : Task)
  | starting (t : Task) (payload : Payload P)
  | working (t : Task)
  | completing (t : Task) (result : String)
  | failing (t : Task) (str : String)
  /-- In the `finally`, with the outcome of the `try`. -/
  | acking (t : Task) (r : Except Exc Unit)
  | ended (r : Except Exc Reply)

/-- The message a call is at, up to its acknowledgement. -/
def Phase.task : Phase P → Option Task
  | .claiming t | .loading t | .starting t _ | .working t | .completing t _ | .failing t _ | .acking t _ => some t
  | _ => none

/-- At the next message. -/
def Phase.enter (w : Worker) : List (Nat × Message) → Phase P
  | [] => .ended (.ok (.processed true))
  | (id, data) :: rest => match data.jobId with
    | none => .blank w id rest
    | some jobId => if jobId = "" then .blank w id rest
      else .claiming ⟨w, id, jobId, data.taskType.getD "unknown", rest⟩

/-- After the read. -/
def Phase.read (w : Worker) : List (Nat × Message) → Phase P
  | [] => .ended (.ok (.processed false))
  | m :: rest => .enter w (m :: rest)

def Phase.afterGroup : Call P → Phase P
  | .enqueue job => .writing job
  | .process w => .reading w

/-- In the `except`. -/
def Phase.except (t : Task) : Exc → Phase P
  | .exception str => .failing t str
  | .cancelled => .acking t (.error .cancelled)

/-- Past the `finally`. -/
def Phase.leave (t : Task) : Except Exc Unit → Phase P
  | .ok () => .enter t.w t.rest
  | .error e => .ended (.error e)

/-- Whether `ensure_consumer_group` lets an exception pass. -/
def Exc.busy : Exc → Bool
  | .exception str => mentionsBusyGroup str
  | .cancelled => false

def statusWrite (t : Task) (status : Status) (result : String) : Cmd P :=
  .hset (jobKey t.jobId) (statusMapping status (t.w.now t.id status) t.w.workerId result)

/-- Go on with an answer; the call ends with an exception of the command. -/
def Phase.on {α : Type} (k : α → Phase P) : Except Exc α → Phase P
  | .ok a => k a
  | .error e => .ended (.error e)

/-- As `on`, inside the `try`. -/
def Phase.onTry {α : Type} (t : Task) (k : α → Phase P) : Except Exc α → Phase P
  | .ok a => k a
  | .error e => .except t e

variable (json : Json P)

/-- What a hash says of the payload. -/
def loaded (data : Option (Field → Option String)) : Payload P :=
  payloadOf json (data.map fun fields => ⟨fields, (fields .payload).map (decode json)⟩)

def headOf : Phase P → Head (Cmd P) Ans Exc Reply (Phase P)
  | .grouping c => .goes .xgroupCreate fun
    | .ok _ => .afterGroup c
    | .error e => if e.busy then .afterGroup c else .ended (.error e)
  | .writing job => .goes (.hset (jobKey job.jobId) (job.data json)) (.on fun _ => .sending job)
  | .sending job => .goes (.xadd job.message) (.on fun _ => .ended (.ok (.jobId job.jobId)))
  | .reading w => .goes (.xreadgroup w.workerId 1) (.on (.read w))
  | .blank w id rest => .goes (.xack id) (.on fun _ => .enter w rest)
  | .claiming t => .goes (statusWrite t .processing "") (.on fun _ => .loading t)
  | .loading t => .goes (.hgetall (jobKey t.jobId)) (.on fun data => .starting t (loaded json data))
  | .starting t payload => .goes (.startTask t.taskType payload) (.onTry t fun _ => .working t)
  | .working t => .goes .awaitTask (.onTry t (.completing t))
  | .completing t result => .goes (statusWrite t .completed result) (.onTry t fun _ => .acking t (.ok ()))
  | .failing t str => .goes (statusWrite t .failed str) (.acking t)
  | .acking t r => .goes (.xack t.id) (.on fun _ => .leave t r)
  | .ended r => .ended r

/-! ## The programs -/

/-- The messages still to come, and the reply. -/
def codeRest (w : Worker) (rest : List (Nat × Message)) : Prog P Reply :=
  (processMessages json w rest).bind fun b => .ret (.processed b)

/-- The rest of a call from its `try` on, which `p` is what is left of. -/
def codeTry (t : Task) (p : Prog P Unit) : Prog P Reply :=
  ((p.handle fun
    | .exception str => updateJobStatus t.jobId .failed (t.w.now t.id .failed) t.w.workerId str
    | .cancelled => .raise .cancelled).andFinally (await (.xack t.id))).bind fun _ => codeRest json t.w t.rest

/-- The rest of a call from its `finally` on, with the outcome of the `try`. -/
def codeFinally (t : Task) (r : Except Exc Unit) : Prog P Reply :=
  (((Co.resume r : Prog P Unit)).andFinally (await (.xack t.id))).bind fun _ => codeRest json t.w t.rest

def codeEnd (t : Task) (result : String) : Prog P Unit :=
  updateJobStatus t.jobId .completed (t.w.now t.id .completed) t.w.workerId result

def codeWork (t : Task) : Prog P Unit := (await .awaitTask).bind (codeEnd t)

def codeStart (t : Task) (payload : Payload P) : Prog P Unit :=
  (await (.startTask t.taskType payload)).bind fun _ => codeWork t

def codeLoad (t : Task) : Prog P Reply :=
  (await (.hgetall (jobKey t.jobId))).bind fun data => codeTry json t (codeStart t (loaded json data))

def codeAfterGroup : Call P → Prog P Reply
  | .enqueue job => (await (.hset (jobKey job.jobId) (job.data json))).bind fun _ =>
    (await (.xadd job.message)).bind fun _ => .ret (.jobId job.jobId)
  | .process w => (await (.xreadgroup w.workerId 1)).bind fun
    | [] => .ret (.processed false)
    | m :: rest => codeRest json w (m :: rest)

/-- The program left in a phase. -/
def codeOf : Phase P → Prog P Reply
  | .grouping c => serve json c
  | .writing job => codeAfterGroup json (.enqueue job)
  | .sending job => (await (.xadd job.message)).bind fun _ => .ret (.jobId job.jobId)
  | .reading w => codeAfterGroup json (.process w)
  | .blank w id rest => (await (.xack id)).bind fun _ => codeRest json w rest
  | .claiming t => (await (statusWrite t .processing "")).bind fun _ => codeLoad json t
  | .loading t => codeLoad json t
  | .starting t payload => codeTry json t (codeStart t payload)
  | .working t => codeTry json t (codeWork t)
  | .completing t result => codeTry json t (codeEnd t result)
  | .failing t str => ((await (statusWrite t .failed str)).andFinally (await (.xack t.id))).bind fun _ =>
      codeRest json t.w t.rest
  | .acking t r => codeFinally json t r
  | .ended r => Co.resume r

/-- One message, then the others and the reply. -/
theorem codeRest_cons (w : Worker) (id : Nat) (data : Message) (rest : List (Nat × Message)) :
    codeRest json w ((id, data) :: rest) = (processMessage json w id data).bind fun _ => codeRest json w rest :=
  Co.bind_assoc ..

/-- From the status write on, a message with a job id. -/
theorem code_claiming (t : Task) : codeOf json (.claiming t) =
    ((updateJobStatus t.jobId .processing (t.w.now t.id .processing) t.w.workerId "").bind fun _ =>
      (getJob json t.jobId).bind fun job =>
        (runTask t.w t.id t.jobId t.taskType (payloadOf json job)).andFinally (await (.xack t.id))).bind fun _ =>
          codeRest json t.w t.rest := by
  refine Co.cmd_congr ?_ (fun _ => rfl)
  intro _
  exact Co.cmd_congr (fun _ => rfl) (fun _ => rfl)

theorem code_enter (w : Worker) (messages : List (Nat × Message)) :
    codeOf json (.enter w messages) = codeRest json w messages := by
  cases messages with
  | nil => rfl
  | cons m rest =>
    obtain ⟨id, jobId, taskType⟩ := m
    rw [codeRest_cons]
    cases jobId with
    | none => rfl
    | some jobId =>
      by_cases h : jobId = ""
      · subst h
        rfl
      · have hp : Phase.enter w ((id, ⟨some jobId, taskType⟩) :: rest) =
            (.claiming ⟨w, id, jobId, taskType.getD "unknown", rest⟩ : Phase P) := by
          simp only [Phase.enter, h, if_false]
        rw [hp, code_claiming]
        simp only [processMessage, h, if_false]
        rfl

theorem code_leave (t : Task) (r : Except Exc Unit) : codeOf json (.leave t r) =
    (Co.resume r).bind fun _ => codeRest json t.w t.rest := by
  cases r with
  | ok _ => exact code_enter ..
  | error e => rfl

/-- An exception inside the `try`. -/
theorem code_except (t : Task) (e : Exc) : codeOf json (.except t e) = codeTry json t (.raise e) := by
  cases e <;> rfl

theorem code_serve (c : Call P) : serve json c =
    ensureConsumerGroup.bind fun _ => codeAfterGroup json c := by
  cases c with
  | enqueue job =>
    refine (Co.bind_assoc ..).trans (congrArg (Co.bind ensureConsumerGroup) (funext fun _ => ?_))
    exact Co.cmd_congr (fun _ => Co.cmd_congr (fun _ => rfl) (fun _ => rfl)) (fun _ => rfl)
  | process w =>
    refine (Co.bind_assoc ..).trans (congrArg (Co.bind ensureConsumerGroup) (funext fun _ => ?_))
    refine Co.cmd_congr ?_ (fun _ => rfl)
    intro messages
    cases messages <;> rfl

theorem code_afterGroup (c : Call P) : codeOf json (.afterGroup c) = codeAfterGroup json c := by
  cases c <;> rfl

theorem unfolds (p : Phase P) : codeOf json p = (headOf json p).code (codeOf json) := by
  cases p with
  | grouping c =>
    show serve json c = _
    rw [code_serve]
    refine Co.cmd_congr (fun _ => (code_afterGroup json c).symm) ?_
    intro e
    cases e with
    | cancelled => rfl
    | exception str =>
      show (if mentionsBusyGroup str then pure () else Co.raise (.exception str) : Prog P Unit).bind _ =
        codeOf json (if mentionsBusyGroup str then .afterGroup c else .ended (.error (.exception str)))
      split
      · exact (code_afterGroup json c).symm
      · rfl
  | writing job => exact Co.cmd_congr (fun _ => rfl) (fun _ => rfl)
  | sending job => exact Co.cmd_congr (fun _ => rfl) (fun _ => rfl)
  | reading w =>
    refine Co.cmd_congr ?_ (fun _ => rfl)
    intro messages
    cases messages with
    | nil => rfl
    | cons m rest => exact (code_enter json w (m :: rest)).symm
  | blank w id rest => exact Co.cmd_congr (fun _ => (code_enter json w rest).symm) (fun _ => rfl)
  | claiming t => exact Co.cmd_congr (fun _ => rfl) (fun _ => rfl)
  | loading t => exact Co.cmd_congr (fun _ => rfl) (fun _ => rfl)
  | starting t payload => exact Co.cmd_congr (fun _ => rfl) (fun e => (code_except json t e).symm)
  | working t => exact Co.cmd_congr (fun _ => rfl) (fun e => (code_except json t e).symm)
  | completing t result => exact Co.cmd_congr (fun _ => rfl) (fun e => (code_except json t e).symm)
  | failing t str => exact Co.cmd_congr (fun _ => rfl) (fun _ => rfl)
  | acking t r =>
    cases r with
    | ok a => exact Co.cmd_congr (fun _ => (code_leave json t (.ok a)).symm) (fun _ => rfl)
    | error e => exact Co.cmd_congr (fun _ => (code_leave json t (.error e)).symm) (fun _ => rfl)
  | ended r => rfl

/-- The calls' flow chart. -/
def jobs (ι : Type) : Flow ι (Cmd P) Ans Exc Reply (Phase P) where
  code _ := codeOf json
  head _ := headOf json
  unfolds _ := unfolds json

end Progress

end Playground.Queue
