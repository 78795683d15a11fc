/-
  Playground.Queue.JobQueue — `case2_queue`: `JobQueueService` and `process_one_job`
  over one Redis.

  Every coroutine is a `Co` over Redis's commands and the two halves of `process_task`
  (its start and its end), so any number of calls run side by side, one command at a
  time. What a call draws from outside, its `uuid4` and its readings of the clock, are
  arguments of it.

  A Redis command may fail, before or after it took effect, and a process may die
  between two commands (`World.crash`); which of these happen is a condition on runs.
-/

import Mathlib.Data.List.Infix
import Playground.Lib.Coroutine
import Playground.Redis.Hashes
import Playground.Redis.Streams

namespace Playground.Queue

open Playground.Lib Playground.Redis

/-! ## Values -/

inductive Status where
  | pending
  | processing
  | completed
  | failed
  deriving DecidableEq, Repr

def Status.str : Status → String
  | .pending => "PENDING"
  | .processing => "PROCESSING"
  | .completed => "COMPLETED"
  | .failed => "FAILED"

/-- The fields of a `job:{job_id}` hash. -/
inductive Field where
  | jobId
  | taskType
  | payload
  | status
  | result
  | createdAt
  | updatedAt
  | workerId
  deriving DecidableEq, Repr

/-- `except Exception` catches the first and not the second. -/
inductive Exc where
  | exception (str : String)
  | cancelled
  deriving DecidableEq, Repr

/-- The fields of a stream entry. -/
structure Message where
  jobId : Option String
  taskType : Option String
  deriving DecidableEq, Repr

/-- `json` on payloads: `dumps`, `loads` and the value of the literal `{}`. -/
structure Json (P : Type) where
  dumps : P → String
  loads : String → Option P
  emptyObject : P

/-- The payload that `get_job` returns: decoded, or the text when it does not decode. -/
inductive Payload (P : Type) where
  | value (p : P)
  | text (s : String)

/-! ## Commands -/

section Commands

variable (P : Type)

inductive Cmd where
  | xgroupCreate
  | hset (key : String) (mapping : List (Field × String))
  | hgetall (key : String)
  | xadd (data : Message)
  | xreadgroup (consumer : String) (count : Nat)
  | xack (id : Nat)
  | startTask (taskType : String) (payload : Payload P)
  | awaitTask

variable {P}

@[reducible] def Ans : Cmd P → Type
  | .xgroupCreate => Unit
  | .hset .. => Unit
  | .hgetall _ => Option (Field → Option String)
  | .xadd _ => Nat
  | .xreadgroup .. => List (Nat × Message)
  | .xack _ => Unit
  | .startTask .. => Unit
  | .awaitTask => String

abbrev Prog (P α : Type) := Co (Cmd P) Ans Exc α

def await (c : Cmd P) : Prog P (Ans c) := Co.await c

structure Mem (ι : Type) where
  hashes : Hashes String Field String
  stream : Stream Message
  /-- The calls whose process has died. -/
  dead : ι → Bool

/-- What a step's surroundings decide: whether the Redis command fails, and then
    whether it took effect, and how `process_task` ends. -/
structure Chance where
  fault : Option (Bool × Exc)
  outcome : Except Exc String

/-- A Redis command's outcome, from what it does when it does not fail. -/
def Chance.reply {ι α : Type} (x : Chance) (m : Mem ι) (r : Except Exc α × Mem ι) : Except Exc α × Mem ι :=
  match x.fault with
  | none => r
  | some (effect, e) => (.error e, if effect then r.2 else m)

inductive World (ι : Type) where
  | crash (i : ι)

def busyGroup : String := "BUSYGROUP Consumer Group name already exists"

def noGroup : String :=
  "NOGROUP No such key 'stream:jobs' or consumer group 'group:workers' in XREADGROUP with GROUP option"

variable {ι : Type} [DecidableEq ι]

def memory : Memory ι (Cmd P) Ans Exc Chance (World ι) (Mem ι) where
  exec i c x m := if m.dead i then none else some <| match c with
    | .xgroupCreate => x.reply m (match m.stream.xgroupCreate with
      | some s => (.ok (), { m with stream := s })
      | none => (.error (.exception busyGroup), m))
    | .hset key mapping => x.reply m (.ok (), { m with hashes := m.hashes.hset key mapping })
    | .hgetall key => x.reply m (.ok (m.hashes.hgetall key), m)
    | .xadd data =>
      let r := m.stream.xadd data
      x.reply m (.ok r.1, { m with stream := r.2 })
    | .xreadgroup consumer count => x.reply m (match m.stream.xreadgroup consumer count with
      | some r => (.ok r.1, { m with stream := r.2 })
      | none => (.error (.exception noGroup), m))
    | .xack id => x.reply m (.ok (), { m with stream := m.stream.xack id })
    | .startTask .. => (.ok (), m)
    | .awaitTask => (x.outcome, m)
  env
    | .crash i, m => some { m with dead := Function.update m.dead i true }

end Commands

/-! ## `JobQueueService` -/

section Service

variable {P : Type}

def jobKey (jobId : String) : String := "job:" ++ jobId

/-- `"BUSYGROUP" in str(e)`. -/
def mentionsBusyGroup (str : String) : Bool := "BUSYGROUP".toList <:+: str.toList

def ensureConsumerGroup : Prog P Unit :=
  (await .xgroupCreate).handle fun
    | .exception str => if mentionsBusyGroup str then pure () else Co.raise (.exception str)
    | .cancelled => Co.raise .cancelled

/-- The arguments of an `enqueue_job`, the `uuid4` it draws and its two readings of the
    clock. -/
structure NewJob (P : Type) where
  taskType : String
  payload : P
  jobId : String
  createdAt : String
  updatedAt : String

def NewJob.data (json : Json P) (job : NewJob P) : List (Field × String) :=
  [(.jobId, job.jobId), (.taskType, job.taskType), (.payload, json.dumps job.payload), (.status, Status.pending.str),
    (.result, ""), (.createdAt, job.createdAt), (.updatedAt, job.updatedAt), (.workerId, "")]

def NewJob.message (job : NewJob P) : Message := ⟨some job.jobId, some job.taskType⟩

def enqueueJob (json : Json P) (job : NewJob P) : Prog P String := do
  ensureConsumerGroup
  await (.hset (jobKey job.jobId) (job.data json))
  let _ ← await (.xadd job.message)
  pure job.jobId

/-- The payload field, decoded where it decodes. -/
def decode (json : Json P) (s : String) : Payload P :=
  match json.loads s with
  | some p => .value p
  | none => .text s

/-- What `get_job` returns of a job: its hash, and the payload as decoded. -/
structure Job (P : Type) where
  fields : Field → Option String
  payload : Option (Payload P)

def getJob (json : Json P) (jobId : String) : Prog P (Option (Job P)) := do
  let data ← await (.hgetall (jobKey jobId))
  pure (data.map fun fields => ⟨fields, (fields .payload).map (decode json)⟩)

def statusMapping (status : Status) (updatedAt workerId result : String) : List (Field × String) :=
  [(.status, status.str), (.updatedAt, updatedAt)] ++ (if workerId = "" then [] else [(.workerId, workerId)]) ++
    (if result = "" then [] else [(.result, result)])

def updateJobStatus (jobId : String) (status : Status) (updatedAt workerId result : String) : Prog P Unit :=
  await (.hset (jobKey jobId) (statusMapping status updatedAt workerId result))

end Service

/-! ## `worker.py` -/

section Worker

variable {P : Type} (json : Json P)

/-- The worker id of a `process_one_job`, and its reading of the clock when it sets a
    message's job to a status. -/
structure Worker where
  workerId : String
  now : Nat → Status → String

variable (w : Worker)

/-- `payload = job.get("payload", {}) if job else {}`. -/
def payloadOf (job : Option (Job P)) : Payload P := (job.bind (·.payload)).getD (.value json.emptyObject)

/-- `process_task` and the writes of its result: the `try` and its `except`. -/
def runTask (id : Nat) (jobId taskType : String) (payload : Payload P) : Prog P Unit :=
  Co.handle (do
    await (.startTask taskType payload)
    let result ← await .awaitTask
    updateJobStatus jobId .completed (w.now id .completed) w.workerId result)
  fun
    | .exception str => updateJobStatus jobId .failed (w.now id .failed) w.workerId str
    | .cancelled => Co.raise .cancelled

/-- One message of the read. -/
def processMessage (id : Nat) (data : Message) : Prog P Unit :=
  match data.jobId with
  | none => await (.xack id)
  | some jobId =>
    if jobId = "" then await (.xack id) else do
      updateJobStatus jobId .processing (w.now id .processing) w.workerId ""
      let job ← getJob json jobId
      (runTask w id jobId (data.taskType.getD "unknown") (payloadOf json job)).andFinally (await (.xack id))

def processMessages : List (Nat × Message) → Prog P Bool
  | [] => pure true
  | (id, data) :: rest => do
    processMessage json w id data
    processMessages rest

/-- The reply of the read is the messages of the one stream it names. -/
def processOneJob : Prog P Bool := do
  ensureConsumerGroup
  let messages ← await (.xreadgroup w.workerId 1)
  match messages with
  | [] => pure false
  | _ :: _ => processMessages json w messages

end Worker

/-! ## Calls -/

section Calls

variable {P : Type}

inductive Call (P : Type) where
  | enqueue (job : NewJob P)
  | process (w : Worker)

inductive Reply where
  | jobId (s : String)
  | processed (b : Bool)
  deriving DecidableEq, Repr

def serve (json : Json P) : Call P → Prog P Reply
  | .enqueue job => do
    let id ← enqueueJob json job
    pure (.jobId id)
  | .process w => do
    let b ← processOneJob json w
    pure (.processed b)

end Calls

section Mappings

variable {P : Type} (json : Json P) (job : NewJob P) (status : Status) (now w result : String)

@[simp] theorem data_status : (job.data json).lookup .status = some Status.pending.str := rfl
@[simp] theorem data_workerId : (job.data json).lookup .workerId = some "" := rfl

theorem statusMapping_workerId (hw : w ≠ "") : (statusMapping status now w result).lookup .workerId = some w := by
  simp only [statusMapping, if_neg hw]
  rfl

end Mappings

theorem Status.str_inj {a b : Status} (h : a.str = b.str) : a = b := by
  cases a <;> cases b <;> first | rfl | exact absurd h (by decide)

theorem jobKey_inj {a b : String} (h : jobKey a = jobKey b) : a = b := by
  have := congrArg String.toList h
  simp only [jobKey, String.toList_append, List.append_cancel_left_eq] at this
  exact String.toList_inj.mp this

theorem busyGroup_mentioned : mentionsBusyGroup busyGroup = true := by decide

end Playground.Queue
