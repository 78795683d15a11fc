/-
  Playground.Queue.Siblings — `enqueueJob` of the NestJS and of the Spring version
  (`queue.service.ts`, `JobQueueService.java`).

  They send the same commands as the Python version, but swallow more: the NestJS
  version every failure of the group's creation and of the `XADD`, the Spring version
  every `Exception` of these. Spring's `createGroup` without an offset starts the group
  at the latest entry, and its worker reads without a `COUNT` (`springMemory`).
-/

import Playground.Queue.JobQueue

namespace Playground.Queue

open Playground.Lib Playground.Redis

variable {P : Type}

namespace Nest

def ensureConsumerGroup : Prog P Unit := (await .xgroupCreate).handle fun _ => pure ()

def enqueueJob (json : Json P) (job : NewJob P) : Prog P String := do
  ensureConsumerGroup
  await (.hset (jobKey job.jobId) (job.data json))
  Co.handle (do
    let _ ← await (.xadd job.message)
    pure ()) fun _ => pure ()
  pure job.jobId

end Nest

namespace Spring

/-- `catch (Exception e)` around `p`: an `Error` goes through, as `Exc.cancelled`. -/
def catchException (p : Prog P Unit) : Prog P Unit :=
  p.handle fun
    | .exception _ => pure ()
    | .cancelled => Co.raise .cancelled

def ensureConsumerGroup : Prog P Unit := catchException (await .xgroupCreate)

/-- `payload != null ? payload.toString() : "{}"`, the text of the latter. -/
def payloadText (text : P → String) : Option P → String
  | some p => text p
  | none => "\x7b\x7d"

def jobData (text : P → String) (job : NewJob (Option P)) : List (Field × String) :=
  [(.jobId, job.jobId), (.taskType, job.taskType), (.payload, payloadText text job.payload),
    (.status, Status.pending.str), (.result, ""), (.workerId, ""), (.createdAt, job.createdAt)]

def enqueueJob (text : P → String) (job : NewJob (Option P)) : Prog (Option P) String := do
  ensureConsumerGroup
  await (.hset (jobKey job.jobId) (jobData text job))
  catchException do
    let _ ← await (.xadd job.message)
    pure ()
  pure job.jobId

variable {ι : Type} [DecidableEq ι]

/-- Redis as the Spring version's commands use it. -/
def springMemory : Memory ι (Cmd P) Ans Exc Chance (World ι) (Mem ι) where
  exec i c x m :=
    match c with
    | .xgroupCreate => if m.dead i then none else some <| x.reply m (match m.stream.xgroupCreateLatest with
      | some s => (.ok (), { m with stream := s })
      | none => (.error (.exception busyGroup), m))
    | .xreadgroup consumer _ => memory.exec i (.xreadgroup (P := P) consumer m.stream.entries.length) x m
    | c => memory.exec i c x m
  env := memory (P := P) |>.env

end Spring

end Playground.Queue
