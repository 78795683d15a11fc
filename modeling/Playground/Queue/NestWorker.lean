/-
  Playground.Queue.NestWorker — `WorkerService.processOneJob` of the NestJS version
  (`worker.service.ts`, `queue.service.ts`).

  Any command may throw, before or after it took effect (`Turn`). The call throws
  never: what its own `try` lets pass, the outer one turns into `false`.
  - `processOneJob_exact`: the message it is handed ends finished, ends acknowledged,
    and is reported as `true`, each in exactly the cases that `Finishes`,
    `Acknowledges` and `Reports` name.
-/

import Playground.Queue.Batch
import Playground.Queue.Finished
import Playground.Queue.Moves

namespace Playground.Queue

open Playground.Lib Playground.Redis

variable {P ι : Type}

/-! ## `WorkerService` -/

/-- The `message` of what was thrown; nothing is cancelled here. -/
def Exc.message : Exc → String
  | .exception str => str
  | .cancelled => ""

namespace Nest

variable (json : Json P) (duration : Option (Payload P) → String) (w : Worker)

/-- A missing `task_type` reads `undefined` in the text. -/
def resultStr (taskType : Option String) (duration : String) : String :=
  "Processed '" ++ taskType.getD "undefined" ++ "' successfully in " ++ duration ++ "s"

/-- The inner `try`. `duration` is the text of `job?.payload?.duration_sec || 0`; the work is
    a timer. -/
def attempt (id : Nat) (jobId : String) (taskType : Option String) : Prog P Unit := do
  let job ← getJob json jobId
  let _ ← await .awaitTask
  updateJobStatus jobId .completed (w.now id .completed) w.workerId
    (resultStr taskType (duration (job.bind (·.payload))))

def runTask (id : Nat) (jobId : String) (taskType : Option String) : Prog P Unit :=
  (attempt json duration w id jobId taskType).handle fun err =>
    updateJobStatus jobId .failed (w.now id .failed) w.workerId err.message

def processMessage (id : Nat) (data : Message) : Prog P Unit :=
  match data.jobId with
  | none => await (.xack id)
  | some jobId =>
    if jobId = "" then await (.xack id) else do
      updateJobStatus jobId .processing (w.now id .processing) w.workerId ""
      (runTask json duration w id jobId data.taskType).andFinally (await (.xack id))

/-- The reply of the read is the messages of the one stream it names. -/
def processOneJob : Prog P Bool := do
  ensureConsumerGroup
  Co.handle (do
    let messages ← await (.xreadgroup w.workerId 1)
    match messages with
    | [] => pure false
    | _ :: _ => do
      Co.forEach (fun m => processMessage json duration w m.1 m.2) messages
      pure true) fun _ => pure false

end Nest

/-! ## What the surroundings decide -/

/-- The chances of a call that is handed one message: each command runs once at most. -/
structure Turn where
  group : Chance
  read : Chance
  processing : Chance
  load : Chance
  work : Chance
  completed : Chance
  failed : Chance
  acknowledge : Chance

/-- The chance of the write of a status. -/
def Turn.write (x : Turn) (status : Option String) : Chance :=
  if status = some Status.processing.str then x.processing
  else if status = some Status.completed.str then x.completed
  else x.failed

def Turn.pick (x : Turn) : Cmd P → Chance
  | .xgroupCreate => x.group
  | .xreadgroup .. => x.read
  | .hset _ mapping => x.write (mapping.lookup .status)
  | .hgetall _ => x.load
  | .xack _ => x.acknowledge
  | _ => x.work

@[simp] theorem Turn.write_processing (x : Turn) : x.write (some Status.processing.str) = x.processing := rfl
@[simp] theorem Turn.write_completed (x : Turn) : x.write (some Status.completed.str) = x.completed := rfl
@[simp] theorem Turn.write_failed (x : Turn) : x.write (some Status.failed.str) = x.failed := rfl

/-- What a command that Redis answers with `a` answers. -/
def Chance.answer {α : Type} (x : Chance) (a : α) : Except Exc α :=
  match x.fault with
  | none => .ok a
  | some f => .error f.2

/-- The memory after a command that leaves `m'` when it takes effect. -/
def Chance.leaves (x : Chance) (m m' : Mem ι) : Mem ι := if x.takesEffect then m' else m

theorem Chance.reply_ok {α : Type} (x : Chance) (m m' : Mem ι) (a : α) :
    x.reply m (.ok a, m') = (x.answer a, x.leaves m m') := by
  unfold Chance.reply Chance.answer Chance.leaves Chance.takesEffect
  cases x.fault <;> rfl

/-! ## One command -/

open Spring (put ack)

@[simp] theorem Chance.leaves_self (x : Chance) (m : Mem ι) : x.leaves m m = m := ite_self m

theorem Chance.leaves_dead (x : Chance) {m m' : Mem ι} (h : m'.dead = m.dead) : (x.leaves m m').dead = m.dead := by
  unfold Chance.leaves
  split
  · exact h
  · rfl

theorem Chance.leaves_stream (x : Chance) {m m' : Mem ι} (h : m'.stream = m.stream) :
    (x.leaves m m').stream = m.stream := by
  unfold Chance.leaves
  split
  · exact h
  · rfl

theorem status_put (m : Mem ι) (jobId : String) (status : Status) (now w result : String) :
    jobStatus (put m jobId (statusMapping status now w result)) jobId = some status.str := by
  rw [jobStatus, put, Hashes.field_hset_same, lookup_status]
  rfl

/-- A status write takes effect or leaves the status as it was. -/
theorem status_leaves (x : Chance) (m : Mem ι) (jobId : String) (status : Status) (now w result : String) :
    jobStatus (x.leaves m (put m jobId (statusMapping status now w result))) jobId =
      if x.takesEffect then some status.str else jobStatus m jobId := by
  unfold Chance.leaves
  split
  · exact status_put ..
  · rfl

theorem Chance.answer_ok {α : Type} {x : Chance} (h : x.fault = none) (a : α) : x.answer a = .ok a := by
  rw [Chance.answer, h]

theorem Chance.answer_error {α : Type} {x : Chance} (h : x.fault ≠ none) (a : α) : ∃ e, x.answer a = .error e := by
  unfold Chance.answer
  cases hf : x.fault with
  | none => exact absurd hf h
  | some f => exact ⟨f.2, rfl⟩

theorem Chance.answer_eq_ok {x : Chance} : x.answer () = .ok () ↔ x.fault = none := by
  unfold Chance.answer
  cases x.fault <;> simp

theorem Chance.takesEffect_of_none {x : Chance} (h : x.fault = none) : x.takesEffect = true := by
  rw [Chance.takesEffect, h]
  rfl

variable [DecidableEq ι] {i : ι} {m : Mem ι} {x : Turn}

section Commands

variable (hd : m.dead i = false)

include hd

theorem hgetall_ends (jobId : String) :
    (await (.hgetall (jobKey jobId)) : Prog P _).Ends memory i x.pick m
      (x.load.answer (m.hashes.hgetall (jobKey jobId))) m := by
  refine Co.ends_await ?_
  simp only [memory, hd, Chance.reply_ok, Chance.leaves_self]
  rfl

theorem work_ends : (await .awaitTask : Prog P _).Ends memory i x.pick m x.work.outcome m := by
  refine Co.ends_await ?_
  simp only [memory, hd]
  rfl

theorem status_ends (jobId : String) (status : Status) (now w result : String) :
    (updateJobStatus jobId status now w result : Prog P Unit).Ends memory i x.pick m
      ((x.write (some status.str)).answer ())
      ((x.write (some status.str)).leaves m (put m jobId (statusMapping status now w result))) := by
  refine Co.ends_await ?_
  simp only [memory, hd, Chance.reply_ok]
  rfl

theorem xack_ends (id : Nat) : (await (.xack id) : Prog P Unit).Ends memory i x.pick m
    (x.acknowledge.answer ()) (x.acknowledge.leaves m (ack m id)) := by
  refine Co.ends_await ?_
  simp only [memory, hd, Chance.reply_ok]
  rfl

/-- The read of a message, with a group to read from. -/
theorem read_ends (w : String) (hread : x.read.fault = none) (hg : m.stream.group ≠ none)
    {data : Message} (hm : m.stream.entries[m.stream.cursor]? = some data) : ∃ m₁,
    (await (.xreadgroup w 1) : Prog P _).Ends memory i x.pick m (.ok [(m.stream.cursor, data)]) m₁ ∧
      m₁.dead = m.dead ∧ m₁.hashes = m.hashes ∧ m₁.stream.entries = m.stream.entries ∧
      m₁.stream.cursor = m.stream.cursor + 1 ∧ m₁.stream.pending = m.stream.pending ++ [(m.stream.cursor, w)] := by
  obtain ⟨g, hg⟩ := Option.ne_none_iff_exists'.mp hg
  cases hr : m.stream.xreadgroup w 1 with
  | none => simp [Stream.xreadgroup, hg] at hr
  | some rs =>
    obtain ⟨new, s⟩ := rs
    rcases Stream.xreadgroup_one hr with ⟨-, -, hlen⟩ | ⟨m', hm', rfl, hent, hcur, hpend⟩
    · rw [List.getElem?_eq_none hlen] at hm
      cases hm
    · cases hm.symm.trans hm'
      refine ⟨{ m with stream := s }, Co.ends_await ?_, rfl, rfl, hent, hcur, hpend⟩
      have hpick : x.pick (.xreadgroup w 1 : Cmd P) = x.read := rfl
      simp only [memory, hd, hr, Chance.reply, hread, hpick]
      rfl

end Commands

/-! ## One message -/

namespace Nest

/-- Nothing of the inner `try` throws. -/
def Tried (x : Turn) : Prop := x.load.fault = none ∧ x.work.outcome.isOk ∧ x.completed.fault = none

/-- The job ends `COMPLETED` or `FAILED`. -/
def Finishes (x : Turn) : Prop :=
  x.processing.fault = none ∧
    ((x.load.fault = none ∧ x.work.outcome.isOk ∧ x.completed.takesEffect) ∨ (¬ Tried x ∧ x.failed.takesEffect))

/-- The message is taken off the pending list. -/
def Acknowledges (x : Turn) : Prop := x.processing.fault = none ∧ x.acknowledge.takesEffect

/-- The call returns `true`. -/
def Reports (x : Turn) : Prop :=
  x.processing.fault = none ∧ (Tried x ∨ x.failed.fault = none) ∧ x.acknowledge.fault = none

variable (json : Json P) (duration : Option (Payload P) → String) (w : Worker) (id : Nat) {jobId : String}
  (taskType : Option String)

omit [DecidableEq ι] in
/-- A job that is neither `COMPLETED` nor `FAILED`. -/
theorem unfinished {m : Mem ι} {status : Status} (h : jobStatus m jobId = some status.str)
    (hc : status ≠ .completed) (hf : status ≠ .failed) : ¬ Terminal m jobId := by
  rintro (h' | h')
  · exact hc (Status.str_inj (Option.some.inj (h.symm.trans h')))
  · exact hf (Status.str_inj (Option.some.inj (h.symm.trans h')))

/-- What one of the two programs leaves of the rest. -/
structure Beside (m m' : Mem ι) : Prop where
  dead : m'.dead = m.dead
  stream : m'.stream = m.stream

omit [DecidableEq ι] in
theorem beside_write (x : Chance) (m : Mem ι) (mapping : List (Field × String)) :
    Beside m (x.leaves m (put m jobId mapping)) := ⟨x.leaves_dead rfl, x.leaves_stream rfl⟩

/-- The inner `try`, of a job that is `PROCESSING`. -/
theorem attempt_ends (hd : m.dead i = false) (hs : jobStatus m jobId = some Status.processing.str) :
    ∃ r m', (attempt json duration w id jobId taskType).Ends memory i x.pick m r m' ∧ Beside m m' ∧
      (r = .ok () ↔ Tried x) ∧
      (Terminal m' jobId ↔ x.load.fault = none ∧ x.work.outcome.isOk ∧ x.completed.takesEffect) := by
  have hun : ¬ Terminal m jobId := unfinished hs nofun nofun
  have hload := hgetall_ends (P := P) (x := x) hd jobId
  have hwork := work_ends (P := P) (x := x) hd
  by_cases hl : x.load.fault = none
  · rw [Chance.answer_ok hl] at hload
    have hgot : (getJob json jobId).Ends memory i x.pick m (.ok _) m := hload.bind (Co.ends_ret _)
    cases ho : x.work.outcome with
    | error e =>
      rw [ho] at hwork
      refine ⟨_, m, hgot.bind (hwork.bind_error _), ⟨rfl, rfl⟩, iff_of_false nofun ?_, iff_of_false hun ?_⟩
      · rintro ⟨-, h, -⟩
        rw [ho] at h
        cases h
      · rintro ⟨-, h, -⟩
        cases h
    | ok text =>
      rw [ho] at hwork
      refine ⟨_, _, hgot.bind (hwork.bind (status_ends hd ..)), beside_write .., ?_, ?_⟩
      · rw [Turn.write_completed, Chance.answer_eq_ok]
        exact ⟨fun h => ⟨hl, by rw [ho]; rfl, h⟩, fun h => h.2.2⟩
      · unfold Terminal
        rw [Turn.write_completed, status_leaves]
        split
        · rename_i he
          exact iff_of_true (.inl rfl) ⟨hl, rfl, he⟩
        · rename_i he
          exact iff_of_false hun fun h => he h.2.2
  · obtain ⟨e, he⟩ := Chance.answer_error hl (m.hashes.hgetall (jobKey jobId))
    rw [he] at hload
    exact ⟨_, m, (hload.bind_error _).bind_error _, ⟨rfl, rfl⟩, iff_of_false nofun fun h => hl h.1,
      iff_of_false hun fun h => hl h.1⟩

/-- The inner `try` and its handler. -/
theorem runTask_ends (hd : m.dead i = false) (hs : jobStatus m jobId = some Status.processing.str) :
    ∃ r m', (runTask json duration w id jobId taskType).Ends memory i x.pick m r m' ∧ Beside m m' ∧
      (r = .ok () ↔ Tried x ∨ x.failed.fault = none) ∧
      (Terminal m' jobId ↔ (x.load.fault = none ∧ x.work.outcome.isOk ∧ x.completed.takesEffect) ∨
        (¬ Tried x ∧ x.failed.takesEffect)) := by
  obtain ⟨r, m₁, hends, hb, hr, hterm⟩ := attempt_ends (x := x) json duration w id taskType hd hs
  cases r with
  | ok a =>
    have htried := hr.mp rfl
    refine ⟨_, m₁, hends.handle _, hb, iff_of_true rfl (.inl htried), ?_⟩
    rw [hterm]
    exact (or_iff_left fun h => h.1 htried).symm
  | error e =>
    have hnot : ¬ Tried x := fun h => nomatch hr.mpr h
    have hd₁ : m₁.dead i = false := (congrFun hb.dead i).trans hd
    refine ⟨_, _, hends.handle_error (status_ends hd₁ ..), ?_, ?_, ?_⟩
    · exact ⟨((beside_write ..).dead).trans hb.dead, ((beside_write ..).stream).trans hb.stream⟩
    · rw [Turn.write_failed, Chance.answer_eq_ok]
      exact (or_iff_right hnot).symm
    · rw [← hterm]
      unfold Terminal
      rw [Turn.write_failed, status_leaves]
      split
      · rename_i he
        exact iff_of_true (.inr rfl) (.inr ⟨hnot, he⟩)
      · rename_i he
        exact (or_iff_left fun h => he h.2).symm

/-- The message of a job that is `PENDING`, from its status write to its `XACK`. -/
theorem processMessage_ends (hd : m.dead i = false) {data : Message} (hj : data.jobId = some jobId) (hne : jobId ≠ "")
    (hs : jobStatus m jobId = some Status.pending.str) {c : String} (hp : (id, c) ∈ m.stream.pending) :
    ∃ r m', (processMessage json duration w id data).Ends memory i x.pick m r m' ∧ (r = .ok () ↔ Reports x) ∧
      (Terminal m' jobId ↔ Finishes x) ∧ ((∀ c, (id, c) ∉ m'.stream.pending) ↔ Acknowledges x) := by
  have hprog : processMessage json duration w id data =
      (updateJobStatus jobId .processing (w.now id .processing) w.workerId "").bind fun _ =>
        (runTask json duration w id jobId data.taskType).andFinally (await (.xack id)) := by
    unfold processMessage
    rw [hj]
    exact if_neg hne
  rw [hprog]
  have hstart := status_ends (P := P) (x := x) hd jobId .processing (w.now id .processing) w.workerId ""
  rw [Turn.write_processing] at hstart
  by_cases hproc : x.processing.fault = none
  · have heff := Chance.takesEffect_of_none hproc
    rw [Chance.answer_ok hproc, Chance.leaves, if_pos heff] at hstart
    obtain ⟨r, m₂, hrun, hb, hr, hterm⟩ := runTask_ends (x := x) json duration w id data.taskType
      (m := put m jobId (statusMapping .processing (w.now id .processing) w.workerId "")) hd
      (status_put m jobId .processing ..)
    have hd₂ : m₂.dead i = false := (congrFun hb.dead i).trans hd
    have hack := xack_ends (P := P) (x := x) hd₂ id
    have hfin : Terminal (x.acknowledge.leaves m₂ (ack m₂ id)) jobId ↔ Finishes x := by
      have hsame : Terminal (x.acknowledge.leaves m₂ (ack m₂ id)) jobId ↔ Terminal m₂ jobId := by
        unfold Chance.leaves
        split <;> exact Iff.rfl
      rw [hsame, hterm]
      exact (and_iff_right hproc).symm
    have hgone : (∀ c, (id, c) ∉ (x.acknowledge.leaves m₂ (ack m₂ id)).stream.pending) ↔ Acknowledges x := by
      rw [Acknowledges, and_iff_right hproc]
      unfold Chance.leaves
      split
      · rename_i he
        exact iff_of_true (fun c h => (Stream.mem_pending_xack.mp h).2 rfl) he
      · rename_i he
        refine iff_of_false (fun h => h c ?_) he
        rw [hb.stream]
        exact hp
    by_cases ha : x.acknowledge.fault = none
    · rw [Chance.answer_ok ha] at hack
      refine ⟨r, _, hstart.bind (hrun.andFinally hack), ?_, hfin, hgone⟩
      rw [hr, Reports, and_iff_right hproc, and_iff_left ha]
    · obtain ⟨e, he⟩ := Chance.answer_error ha ()
      rw [he] at hack
      exact ⟨_, _, hstart.bind (hrun.andFinally_error hack), iff_of_false nofun fun h => ha h.2.2, hfin, hgone⟩
  · obtain ⟨e, he⟩ := Chance.answer_error hproc ()
    rw [he] at hstart
    refine ⟨_, _, hstart.bind_error _, iff_of_false nofun fun h => hproc h.1, iff_of_false ?_ fun h => hproc h.1,
      iff_of_false ?_ fun h => hproc h.1⟩
    · have hleft := status_leaves x.processing m jobId .processing (w.now id .processing) w.workerId ""
      split at hleft
      · exact unfinished hleft nofun nofun
      · exact unfinished (hleft.trans hs) nofun nofun
    · intro h
      apply h c
      have hb : Beside m (x.processing.leaves m (put m jobId
        (statusMapping .processing (w.now id .processing) w.workerId ""))) := beside_write ..
      rw [hb.stream]
      exact hp

/-! ## The call -/

/-- The creation of the group, as its chance decides: the entries and what was handed
    out stay, and there is a group when there was one or the creation took effect. -/
theorem ensureConsumerGroup_ends (hd : m.dead i = false) : ∃ m₁,
    (ensureConsumerGroup : Prog P Unit).Ends memory i x.pick m (.ok ()) m₁ ∧ m₁.dead = m.dead ∧ SameJobs m m₁ ∧
      (m.stream.group ≠ none ∨ x.group.takesEffect → m₁.stream.group ≠ none) := by
  have hall : ∀ {r m₁}, (memory (P := P)).exec i .xgroupCreate x.group m = some (r, m₁) →
      (ensureConsumerGroup : Prog P Unit).Ends memory i x.pick m (.ok ()) m₁ := by
    intro r m₁ hx
    have hends : (await .xgroupCreate : Prog P Unit).Ends memory i x.pick m r m₁ := Co.ends_await hx
    cases r with
    | ok a => exact hends.handle _
    | error e => exact hends.handle_error (Co.ends_ret ())
  cases hg : m.stream.xgroupCreate with
  | none =>
    have hsome : m.stream.group ≠ none := by
      intro h
      simp [Stream.xgroupCreate, h] at hg
    have hx : ∃ r, (memory (P := P)).exec i .xgroupCreate x.group m =
        some (r, m) := by
      simp only [memory, hd, hg, Chance.reply]
      cases x.group.fault with
      | none => exact ⟨_, rfl⟩
      | some f => exact ⟨.error f.2, by simp⟩
    obtain ⟨r, hx⟩ := hx
    exact ⟨m, hall hx, rfl, ⟨rfl, rfl, rfl, rfl⟩, fun _ => hsome⟩
  | some s =>
    have hx : ∃ r, (memory (P := P)).exec i .xgroupCreate x.group m =
        some (r, x.group.leaves m { m with stream := s }) := by
      simp only [memory, hd, hg, Chance.reply_ok]
      exact ⟨_, rfl⟩
    obtain ⟨r, hx⟩ := hx
    refine ⟨_, hall hx, x.group.leaves_dead rfl, ?_, ?_⟩
    · unfold Chance.leaves
      split
      · exact ⟨rfl, Stream.xgroupCreate_same hg⟩
      · exact ⟨rfl, rfl, rfl, rfl⟩
    · have hnew : s.group ≠ none := by
        unfold Stream.xgroupCreate at hg
        split at hg
        · cases hg
          exact Option.some_ne_none _
        · cases hg
      unfold Chance.leaves
      rintro (h | h)
      · unfold Stream.xgroupCreate at hg
        split at hg
        · exact absurd ‹_› h
        · cases hg
      · rw [if_pos h]
        exact hnew

/-- One call of `processOneJob` that is handed a message whose job is `PENDING`, whichever
    of its commands throw, before or after they took effect: it returns, and the job ends
    finished, the message acknowledged and the reply `true` just when the three
    conditions hold. -/
theorem processOneJob_exact (hd : m.dead i = false) {data : Message}
    (hm : m.stream.entries[m.stream.cursor]? = some data) (hj : data.jobId = some jobId) (hne : jobId ≠ "")
    (hs : jobStatus m jobId = some Status.pending.str) (hg : m.stream.group ≠ none ∨ x.group.takesEffect)
    (hread : x.read.fault = none) :
    ∃ b m', (processOneJob json duration w).Ends memory i x.pick m (.ok b) m' ∧ (b = true ↔ Reports x) ∧
      (Terminal m' jobId ↔ Finishes x) ∧ ((∀ c, (m.stream.cursor, c) ∉ m'.stream.pending) ↔ Acknowledges x) := by
  obtain ⟨m₁, hgroup, hd₁, ⟨hhash, hent, hcur, hpend⟩, hg₁⟩ := ensureConsumerGroup_ends (P := P) (x := x) hd
  have hm₁ : m₁.stream.entries[m₁.stream.cursor]? = some data := by rw [hent, hcur]; exact hm
  obtain ⟨m₂, hreads, hd₂, hhash₂, -, -, hpend₂⟩ :=
    read_ends (P := P) (x := x) ((congrFun hd₁ i).trans hd) w.workerId hread (hg₁ hg) hm₁
  rw [hcur] at hreads
  have hs₂ : jobStatus m₂ jobId = some Status.pending.str := by
    rw [jobStatus, hhash₂, hhash]
    exact hs
  have hp₂ : (m.stream.cursor, w.workerId) ∈ m₂.stream.pending := by
    rw [hpend₂, hcur]
    exact List.mem_append_right _ (List.mem_singleton.mpr rfl)
  obtain ⟨r, m', hmsg, hr, hterm, hack⟩ := processMessage_ends (x := x) json duration w m.stream.cursor
    (((congrFun hd₂ i).trans (congrFun hd₁ i)).trans hd) hj hne hs₂ hp₂
  cases r with
  | ok a =>
    have hloop : (Co.forEach (fun e => processMessage json duration w e.1 e.2) [(m.stream.cursor, data)]).Ends
        memory i x.pick m₂ (.ok ()) _ := Co.ends_forEach_cons hmsg Co.ends_forEach_nil
    exact ⟨true, m', hgroup.bind ((hreads.bind (hloop.bind (Co.ends_ret true))).handle _),
      iff_of_true rfl (hr.mp rfl), hterm, hack⟩
  | error e =>
    have hloop : (Co.forEach (fun e => processMessage json duration w e.1 e.2) [(m.stream.cursor, data)]).Ends
        memory i x.pick m₂ (.error e) m' := Co.ends_forEach_error hmsg
    refine ⟨false, m', hgroup.bind ((hreads.bind (hloop.bind_error _)).handle_error (Co.ends_ret false)), ?_, hterm,
      hack⟩
    exact iff_of_false Bool.false_ne_true fun h => by cases hr.mpr h

/-! ## A job that is neither finished nor tried again -/

def oneWaiting : Mem Unit where
  hashes k := if k = "job:a" then some fun f => (resize.data unitJson).lookup f else none
  stream := ⟨[resize.message], some ⟨0, []⟩⟩
  dead _ := false

/-- Neither of the last two status writes takes effect. -/
def writesFail : Turn :=
  let lost : Chance := ⟨some (false, .exception "Connection lost"), .ok ""⟩
  ⟨Spring.smooth, Spring.smooth, Spring.smooth, Spring.smooth, Spring.smooth, lost, lost, Spring.smooth⟩

/-- The message is acknowledged and the job stays `PROCESSING`. -/
theorem outcome_lost : ∃ b m',
    (processOneJob unitJson (fun _ => "0") (worker "w1")).Ends memory () writesFail.pick oneWaiting (.ok b) m' ∧
      ¬ b = true ∧ ¬ Terminal m' "a" ∧ ∀ c, (0, c) ∉ m'.stream.pending := by
  obtain ⟨b, m', hends, hr, hterm, hack⟩ := processOneJob_exact (i := ()) (m := oneWaiting) (x := writesFail) unitJson
    (fun _ => "0") (worker "w1") rfl rfl rfl (by decide) rfl (.inl (Option.some_ne_none _)) rfl
  refine ⟨b, m', hends, fun h => ?_, fun h => ?_, hack.mpr ⟨rfl, rfl⟩⟩
  · exact (hr.mp h).2.1.elim (fun ht => nomatch ht.2.2) nofun
  · exact (hterm.mp h).2.elim (fun ht => Bool.false_ne_true ht.2.2) fun ht => Bool.false_ne_true ht.2

end Nest

end Playground.Queue
