/-
  Playground.Queue.Drain — the worker's loop empties the queue
  (`worker.py`: `run_worker_loop`; `worker.service.ts`: `startLoop`).

  From any state, however many calls have crashed or failed before it, a live worker
  whose own commands do not fail takes the messages that no read was handed, one a
  round and oldest first, and leaves each job finished and acknowledged
  (`queue_drains`). `Round` is what a round does, in either version (`Serves`).
-/

import Playground.Queue.Fidelity
import Playground.Queue.NestWorker

namespace Playground.Queue

open Playground.Lib Playground.Redis
open Spring (put ack)

variable {P ι : Type}

/-! ## A round -/

/-- Nothing fails; the work returns or raises, and is not cancelled. -/
structure Turn.Calm (x : Turn) : Prop where
  group : x.group.fault = none
  read : x.read.fault = none
  processing : x.processing.fault = none
  load : x.load.fault = none
  completed : x.completed.fault = none
  failed : x.failed.fault = none
  acknowledge : x.acknowledge.fault = none
  work : x.work.outcome ≠ .error .cancelled

/-- The status that the work leads to. -/
def Turn.last (x : Turn) : Status :=
  match x.work.outcome with
  | .ok _ => .completed
  | .error _ => .failed

/-- The job of the message at the cursor is served: it has its last status, its worker is
    `w`, and its message is no longer pending. All else stays. -/
structure Round (w : Worker) (last : Status) (jobId : String) (m m' : Mem ι) : Prop where
  entries : m'.stream.entries = m.stream.entries
  cursor : m'.stream.cursor = m.stream.cursor + 1
  pending : ∀ p, p ∈ m'.stream.pending ↔ p ∈ m.stream.pending ∧ p.1 ≠ m.stream.cursor
  dead : m'.dead = m.dead
  status : jobStatus m' jobId = some last.str
  worker : w.workerId ≠ "" → jobWorker m' jobId = some w.workerId
  others : ∀ j, j ≠ jobId → m'.hashes (jobKey j) = m.hashes (jobKey j)

/-- What the commands of a round come to. -/
theorem round_of {m m₁ m₂ : Mem ι} {w : Worker} (hd₁ : m₁.dead = m.dead) (h₁ : SameJobs m m₁)
    (hd₂ : m₂.dead = m₁.dead) (hhash₂ : m₂.hashes = m₁.hashes) (hent₂ : m₂.stream.entries = m₁.stream.entries)
    (hcur₂ : m₂.stream.cursor = m₁.stream.cursor + 1)
    (hpend₂ : m₂.stream.pending = m₁.stream.pending ++ [(m₁.stream.cursor, w.workerId)]) (jobId : String)
    (last : Status)
    (mapping : List (Field × String)) (now result : String) :
    Round w last jobId m (ack (put (put m₂ jobId mapping) jobId (statusMapping last now w.workerId result))
      m.stream.cursor) := by
  obtain ⟨hhash, hent, hcur, hpend⟩ := h₁
  refine ⟨hent₂.trans hent, ?_, ?_, hd₂.trans hd₁, status_put .., ?_, ?_⟩
  · show (m₂.stream.xack m.stream.cursor).cursor = _
    rw [Stream.xack_cursor, hcur₂, hcur]
  · intro p
    show p ∈ (m₂.stream.xack m.stream.cursor).pending ↔ _
    rw [Stream.mem_pending_xack, hpend₂, hpend, hcur, List.mem_append, List.mem_singleton]
    constructor
    · rintro ⟨h | rfl, hne⟩
      · exact ⟨h, hne⟩
      · exact absurd rfl hne
    · exact fun h => ⟨.inl h.1, h.2⟩
  · intro hw
    show (Hashes.hset _ (jobKey jobId) (statusMapping last now w.workerId result)).field (jobKey jobId) .workerId = _
    rw [Hashes.field_hset_same, statusMapping_workerId _ _ _ _ hw]
    rfl
  · intro j hj
    have hne : jobKey j ≠ jobKey jobId := fun h => hj (jobKey_inj h)
    show (Hashes.hset (Hashes.hset m₂.hashes _ mapping) _ _) (jobKey j) = _
    rw [Hashes.hset_ne _ _ hne, Hashes.hset_ne _ _ hne, hhash₂, hhash]

variable [DecidableEq ι]

/-- A calm call of `one` serves the message at the cursor. -/
def Serves (ι : Type) [DecidableEq ι] (one : Prog P Bool) (w : Worker) : Prop :=
  ∀ {i : ι} {m : Mem ι} {x : Turn} {data : Message} {jobId : String}, m.dead i = false → x.Calm →
    m.stream.entries[m.stream.cursor]? = some data → data.jobId = some jobId → jobId ≠ "" →
    ∃ m', one.Ends memory i x.pick m (.ok true) m' ∧ Round w x.last jobId m m'

/-! ## The two versions -/

section Commands

variable {i : ι} {m : Mem ι} {x : Turn} (hd : m.dead i = false)

include hd

/-- The group's creation, when it does not fail. -/
theorem ensureConsumerGroup_ends (hx : x.group.fault = none) : ∃ m₁,
    (ensureConsumerGroup : Prog P Unit).Ends memory i x.pick m (.ok ()) m₁ ∧ m₁.dead = m.dead ∧ SameJobs m m₁ ∧
      m₁.stream.group ≠ none := by
  have hpick : x.pick (.xgroupCreate : Cmd P) = x.group := rfl
  cases hg : m.stream.xgroupCreate with
  | none =>
    have hends : (await .xgroupCreate : Prog P Unit).Ends memory i x.pick m (.error (.exception busyGroup)) m := by
      refine Co.ends_await ?_
      simp only [memory, hd, hg, hpick, Chance.reply, hx]
      rfl
    refine ⟨m, hends.handle_error ?_, rfl, ⟨rfl, rfl, rfl, rfl⟩, ?_⟩
    · simp only [busyGroup_mentioned]
      exact Co.ends_ret ()
    · intro h
      simp [Stream.xgroupCreate, h] at hg
  | some s =>
    have hends : (await .xgroupCreate : Prog P Unit).Ends memory i x.pick m (.ok ()) { m with stream := s } := by
      refine Co.ends_await ?_
      simp only [memory, hd, hg, hpick, Chance.reply, hx]
      rfl
    refine ⟨_, hends.handle _, rfl, ⟨rfl, Stream.xgroupCreate_same hg⟩, ?_⟩
    unfold Stream.xgroupCreate at hg
    split at hg
    · cases hg
      exact Option.some_ne_none _
    · cases hg

theorem status_calm (status : Status) (hx : (x.write (some status.str)).fault = none) (jobId now w result : String) :
    (updateJobStatus jobId status now w result : Prog P Unit).Ends memory i x.pick m (.ok ())
      (put m jobId (statusMapping status now w result)) := by
  have h := status_ends (P := P) (x := x) hd jobId status now w result
  rwa [Chance.answer_ok hx, Chance.leaves, if_pos (Chance.takesEffect_of_none hx)] at h

theorem xack_calm (hx : x.acknowledge.fault = none) (id : Nat) :
    (await (.xack id) : Prog P Unit).Ends memory i x.pick m (.ok ()) (ack m id) := by
  have h := xack_ends (P := P) (x := x) hd id
  rwa [Chance.answer_ok hx, Chance.leaves, if_pos (Chance.takesEffect_of_none hx)] at h

end Commands

/-- The body of the inner `try`, in either version, sets the job to its last status. -/
theorem runTask_calm {i : ι} {m : Mem ι} {x : Turn} (hd : m.dead i = false) (hx : x.Calm) (w : Worker) (id : Nat)
    (jobId taskType : String) (payload : Payload P) : ∃ now result,
    (runTask w id jobId taskType payload).Ends memory i x.pick m (.ok ())
      (put m jobId (statusMapping x.last now w.workerId result)) := by
  have hstart : (await (.startTask taskType payload) : Prog P Unit).Ends memory i x.pick m (.ok ()) m := by
    refine Co.ends_await ?_
    simp only [memory, hd]
    rfl
  have hwork := work_ends (P := P) (x := x) hd
  cases ho : x.work.outcome with
  | ok text =>
    rw [ho] at hwork
    have hlast : x.last = .completed := by rw [Turn.last, ho]
    rw [hlast]
    exact ⟨_, _, (hstart.bind (hwork.bind (status_calm hd (x := x) .completed hx.completed ..))).handle _⟩
  | error e =>
    rw [ho] at hwork
    have hlast : x.last = .failed := by rw [Turn.last, ho]
    rw [hlast]
    cases e with
    | cancelled => exact absurd ho hx.work
    | exception str =>
      exact ⟨_, _, (hstart.bind (hwork.bind_error _)).handle_error
        (status_calm hd (x := x) .failed hx.failed ..)⟩

/-- The same of the NestJS version. -/
theorem Nest.runTask_calm {i : ι} {m : Mem ι} {x : Turn} (hd : m.dead i = false) (hx : x.Calm) (json : Json P)
    (duration : Option (Payload P) → String) (w : Worker) (id : Nat) (jobId : String) (taskType : Option String) :
    ∃ now result, (Nest.runTask json duration w id jobId taskType).Ends memory i x.pick m (.ok ())
      (put m jobId (statusMapping x.last now w.workerId result)) := by
  have hload := hgetall_ends (P := P) (x := x) hd jobId
  rw [Chance.answer_ok hx.load] at hload
  have hgot : (getJob json jobId).Ends memory i x.pick m (.ok _) m := hload.bind (Co.ends_ret _)
  have hwork := work_ends (P := P) (x := x) hd
  cases ho : x.work.outcome with
  | ok text =>
    rw [ho] at hwork
    have hlast : x.last = .completed := by rw [Turn.last, ho]
    rw [hlast]
    have htry : (Nest.attempt json duration w id jobId taskType).Ends memory i x.pick m (.ok ()) _ :=
      hgot.bind (hwork.bind (status_calm hd (x := x) .completed hx.completed ..))
    exact ⟨_, _, htry.handle _⟩
  | error e =>
    rw [ho] at hwork
    have hlast : x.last = .failed := by rw [Turn.last, ho]
    rw [hlast]
    exact ⟨_, _, (hgot.bind (hwork.bind_error _)).handle_error
      (status_calm hd (x := x) .failed hx.failed ..)⟩

theorem processOneJob_serves (json : Json P) (w : Worker) : Serves ι (processOneJob json w) w := by
  intro i m x data jobId hd hx hm hj hne
  obtain ⟨m₁, hgroup, hd₁, h₁, hg₁⟩ := ensureConsumerGroup_ends (P := P) hd hx.group
  have hlive₁ : m₁.dead i = false := (congrFun hd₁ i).trans hd
  have hm₁ : m₁.stream.entries[m₁.stream.cursor]? = some data := by rw [h₁.2.1, h₁.2.2.1]; exact hm
  obtain ⟨m₂, hread, hd₂, hhash₂, hent₂, hcur₂, hpend₂⟩ := read_ends (P := P) hlive₁ w.workerId hx.read hg₁ hm₁
  rw [h₁.2.2.1] at hread
  have hlive₂ : m₂.dead i = false := (congrFun hd₂ i).trans hlive₁
  have hstart := status_calm (P := P) hlive₂ (x := x) .processing hx.processing jobId
    (w.now m.stream.cursor .processing) w.workerId ""
  generalize hm₃ : put m₂ jobId
    (statusMapping .processing (w.now m.stream.cursor .processing) w.workerId "") = m₃ at hstart
  have hlive₃ : m₃.dead i = false := by rw [← hm₃]; exact hlive₂
  have hload := hgetall_ends (P := P) (x := x) hlive₃ jobId
  rw [Chance.answer_ok hx.load] at hload
  have hgot : (getJob json jobId).Ends memory i x.pick m₃ (.ok _) m₃ := hload.bind (Co.ends_ret _)
  obtain ⟨now, result, htask⟩ := runTask_calm (P := P) hlive₃ hx w m.stream.cursor jobId (data.taskType.getD "unknown")
    (payloadOf json ((m₃.hashes.hgetall (jobKey jobId)).map fun fields =>
      ⟨fields, (fields .payload).map (decode json)⟩))
  have hmessage : (processMessage json w m.stream.cursor data).Ends memory i x.pick m₂ (.ok ())
      (ack (put m₃ jobId (statusMapping x.last now w.workerId result)) m.stream.cursor) := by
    unfold processMessage
    rw [hj]
    simp only [if_neg hne]
    refine hstart.bind (hgot.bind (htask.andFinally ?_))
    exact xack_calm (m := put m₃ _ _) hlive₃ hx.acknowledge _
  refine ⟨_, hgroup.bind (hread.bind (hmessage.bind (Co.ends_ret true))), ?_⟩
  rw [← hm₃]
  exact round_of hd₁ h₁ hd₂ hhash₂ hent₂ hcur₂ hpend₂ ..

theorem Nest.processOneJob_serves (json : Json P) (duration : Option (Payload P) → String) (w : Worker) :
    Serves ι (Nest.processOneJob json duration w) w := by
  intro i m x data jobId hd hx hm hj hne
  obtain ⟨m₁, hgroup, hd₁, h₁, hg₁⟩ := Nest.ensureConsumerGroup_ends (P := P) (x := x) hd
  have hlive₁ : m₁.dead i = false := (congrFun hd₁ i).trans hd
  have hm₁ : m₁.stream.entries[m₁.stream.cursor]? = some data := by rw [h₁.2.1, h₁.2.2.1]; exact hm
  obtain ⟨m₂, hread, hd₂, hhash₂, hent₂, hcur₂, hpend₂⟩ :=
    read_ends (P := P) hlive₁ w.workerId hx.read (hg₁ (.inr (Chance.takesEffect_of_none hx.group))) hm₁
  rw [h₁.2.2.1] at hread
  have hlive₂ : m₂.dead i = false := (congrFun hd₂ i).trans hlive₁
  have hstart := status_calm (P := P) hlive₂ (x := x) .processing hx.processing jobId
    (w.now m.stream.cursor .processing) w.workerId ""
  generalize hm₃ : put m₂ jobId
    (statusMapping .processing (w.now m.stream.cursor .processing) w.workerId "") = m₃ at hstart
  have hlive₃ : m₃.dead i = false := by rw [← hm₃]; exact hlive₂
  obtain ⟨now, result, htask⟩ :=
    Nest.runTask_calm (P := P) hlive₃ hx json duration w m.stream.cursor jobId data.taskType
  have hmessage : (Nest.processMessage json duration w m.stream.cursor data).Ends memory i x.pick m₂ (.ok ())
      (ack (put m₃ jobId (statusMapping x.last now w.workerId result)) m.stream.cursor) := by
    unfold Nest.processMessage
    rw [hj]
    simp only [if_neg hne]
    refine hstart.bind (htask.andFinally ?_)
    exact xack_calm (m := put m₃ _ _) hlive₃ hx.acknowledge _
  have hloop : (Co.forEach (fun e => Nest.processMessage json duration w e.1 e.2) [(m.stream.cursor, data)]).Ends
      memory i x.pick m₂ (.ok ()) _ := Co.ends_forEach_cons hmessage Co.ends_forEach_nil
  refine ⟨_, hgroup.bind ((hread.bind (hloop.bind (Co.ends_ret true))).handle _), ?_⟩
  rw [← hm₃]
  exact round_of hd₁ h₁ hd₂ hhash₂ hent₂ hcur₂ hpend₂ ..

/-! ## The loop -/

/-- Rounds of the loop, one after the other. -/
inductive Loop (one : Prog P Bool) (i : ι) : Mem ι → List Turn → Mem ι → Prop
  | stop {m : Mem ι} : Loop one i m [] m
  | next {m m₁ m' : Mem ι} {x : Turn} {xs : List Turn} :
    one.Ends memory i x.pick m (.ok true) m₁ → Loop one i m₁ xs m' → Loop one i m (x :: xs) m'

/-- Every message names a job, no two the same. -/
structure Addressed (m : Mem ι) : Prop where
  named : ∀ {id : Nat} {data}, m.stream.entries[id]? = some data → ∃ jobId, data.jobId = some jobId ∧ jobId ≠ ""
  distinct : ∀ {id id' : Nat} {jobId}, InStream m jobId id → InStream m jobId id' → id = id'

/-- The messages from the cursor on are served in order, as many as there are rounds; what
    was pending stays so, and no other job's hash changes. -/
structure ServedInOrder (w : Worker) (xs : List Turn) (m m' : Mem ι) : Prop where
  entries : m'.stream.entries = m.stream.entries
  cursor : m'.stream.cursor = m.stream.cursor + xs.length
  pending : ∀ p, p ∈ m'.stream.pending ↔
    p ∈ m.stream.pending ∧ (p.1 < m.stream.cursor ∨ m.stream.cursor + xs.length ≤ p.1)
  served : ∀ {n : Nat} {x jobId}, xs[n]? = some x → InStream m jobId (m.stream.cursor + n) →
    jobStatus m' jobId = some x.last.str ∧ (w.workerId ≠ "" → jobWorker m' jobId = some w.workerId)
  others : ∀ jobId, (∀ n < xs.length, ¬ InStream m jobId (m.stream.cursor + n)) →
    m'.hashes (jobKey jobId) = m.hashes (jobKey jobId)

omit [DecidableEq ι] in
theorem ServedInOrder.nil (w : Worker) (m : Mem ι) : ServedInOrder w [] m m where
  entries := rfl
  cursor := rfl
  pending _ := (and_iff_left (Nat.lt_or_ge ..)).symm
  served h _ := nomatch h
  others _ _ := rfl

omit [DecidableEq ι] in
/-- A round before the rest. -/
theorem ServedInOrder.cons {w : Worker} {x : Turn} {xs : List Turn} {m m₁ m' : Mem ι} {jobId : String}
    (ha : Addressed m)
    (hin : InStream m jobId m.stream.cursor) (hr : Round w x.last jobId m m₁) (h : ServedInOrder w xs m₁ m') :
    ServedInOrder w (x :: xs) m m' := by
  have hstream : ∀ {j id}, InStream m₁ j id ↔ InStream m j id := by
    intro j id
    rw [InStream, hr.entries]
    exact Iff.rfl
  -- no later message is of this job, so the later rounds leave its hash
  have hkept : m'.hashes (jobKey jobId) = m₁.hashes (jobKey jobId) := by
    apply h.others
    intro n _ hin'
    have := ha.distinct hin (hstream.mp hin')
    rw [hr.cursor] at this
    omega
  refine ⟨h.entries.trans hr.entries, ?_, ?_, ?_, ?_⟩
  · rw [h.cursor, hr.cursor, List.length_cons]
    omega
  · intro p
    rw [h.pending, hr.pending, hr.cursor, List.length_cons, and_assoc]
    refine and_congr_right fun _ => ?_
    omega
  · intro n y j hn hj
    cases n with
    | zero =>
      cases hn
      obtain rfl : j = jobId := by
        obtain ⟨data, hd, hdj⟩ := hin
        obtain ⟨data', hd', hdj'⟩ := hj
        cases hd.symm.trans hd'
        exact Option.some.inj (hdj'.symm.trans hdj)
      simp only [jobStatus, jobWorker, Hashes.field, hkept]
      exact ⟨hr.status, hr.worker⟩
    | succ n =>
      refine h.served (n := n) (by simpa using hn) (hstream.mpr ?_)
      rwa [hr.cursor, Nat.add_assoc, Nat.add_comm 1]
  · intro j hj
    have hne : j ≠ jobId := fun hjj => hj 0 (Nat.succ_pos _) (hjj ▸ hin)
    refine (h.others j fun n hn hin' => ?_).trans (hr.others j hne)
    refine hj (n + 1) (Nat.succ_lt_succ hn) ?_
    have := hstream.mp hin'
    rwa [hr.cursor, Nat.add_assoc, Nat.add_comm 1] at this

/-- As many rounds as there are messages left to read, or fewer. -/
theorem drains {one : Prog P Bool} {w : Worker} (hs : Serves ι one w) {i : ι} (xs : List Turn)
    (hx : ∀ x ∈ xs, x.Calm) {m : Mem ι} (hd : m.dead i = false) (ha : Addressed m)
    (hlen : m.stream.cursor + xs.length ≤ m.stream.entries.length) :
    ∃ m', Loop one i m xs m' ∧ ServedInOrder w xs m m' := by
  induction xs generalizing m with
  | nil => exact ⟨m, .stop, .nil w m⟩
  | cons x xs ih =>
    rw [List.length_cons] at hlen
    have hm : m.stream.entries[m.stream.cursor]? = some _ := List.getElem?_eq_getElem (by omega)
    obtain ⟨jobId, hj, hne⟩ := ha.named hm
    obtain ⟨m₁, hone, hr⟩ := hs hd (hx x List.mem_cons_self) hm hj hne
    have ha₁ : Addressed m₁ := by
      constructor
      · intro id data hdata
        rw [hr.entries] at hdata
        exact ha.named hdata
      · intro id id' j hi hi'
        rw [InStream, hr.entries] at hi hi'
        exact ha.distinct hi hi'
    obtain ⟨m', hloop, hdr⟩ := ih (fun y hy => hx y (List.mem_cons_of_mem _ hy)) ((congrFun hr.dead i).trans hd) ha₁
      (by rw [hr.cursor, hr.entries]; omega)
    exact ⟨m', .next hone hloop, hdr.cons ha ⟨_, hm, hj⟩ hr⟩

omit [DecidableEq ι] in
/-- The stream of a reachable state. -/
theorem Inv.addressed {call : ι → Call P} {u : St ι P} (ha : Assigned call) (hi : Inv call u) : Addressed u.mem where
  named h := by
    obtain ⟨k, job, r, hcall, rfl, -⟩ := hi.sent h
    exact ⟨job.jobId, rfl, ha.job_ne hcall⟩
  distinct h h' := hi.inStream_inj h h'

/-- Whatever calls of `enqueue_job` and `process_one_job` ran, crashed or failed before, a
    live worker can go on to serve the messages that no read was handed, each in its
    turn, and all of them in as many rounds as there are. -/
theorem queue_drains (json : Json P) {call : ι → Call P} (ha : Assigned call) {s : Serving ι P}
    (h : (threads memory).Reach Machine.any (start Mem.init fun i => serve json (call i)) s) (w : Worker) {i : ι}
    (hlive : s.mem.dead i = false) {xs : List Turn} (hx : ∀ x ∈ xs, x.Calm)
    (hlen : s.mem.stream.cursor + xs.length ≤ s.mem.stream.entries.length) :
    ∃ m', Loop (processOneJob json w) i s.mem xs m' ∧ ServedInOrder w xs s.mem m' := by
  obtain ⟨u, hu, rfl⟩ := follows_jobs h
  have hi : Inv call u := hu.invariant (inv_start _ rfl) fun _ _ _ hi _ hs => hi.step ha hs
  exact drains (processOneJob_serves json w) xs hx hlive (hi.addressed ha) hlen

/-- The NestJS worker, from any stream whose messages name jobs of their own. -/
theorem Nest.loop_drains (json : Json P) (duration : Option (Payload P) → String) (w : Worker) {i : ι} {m : Mem ι}
    (hlive : m.dead i = false) (ha : Addressed m) {xs : List Turn} (hx : ∀ x ∈ xs, x.Calm)
    (hlen : m.stream.cursor + xs.length ≤ m.stream.entries.length) :
    ∃ m', Loop (Nest.processOneJob json duration w) i m xs m' ∧ ServedInOrder w xs m m' :=
  drains (Nest.processOneJob_serves json duration w) xs hx hlive ha hlen

/-! ## One message left -/

/-- The work raises. -/
def raising : Turn :=
  let calm : Chance := ⟨none, .ok ""⟩
  ⟨calm, calm, calm, calm, ⟨none, .error (.exception "boom")⟩, calm, calm, calm⟩

theorem raising_calm : raising.Calm := ⟨rfl, rfl, rfl, rfl, rfl, rfl, rfl, nofun⟩

/-- The second worker finds the job that was submitted, and sets it to `FAILED`. -/
theorem submitted_drains : ∃ m', Loop (processOneJob unitJson (worker "w2")) .second submitted.mem [raising] m' ∧
    m'.stream.cursor = m'.stream.entries.length ∧ jobStatus m' "a" = some "FAILED" := by
  have hcalm : ∀ x ∈ [raising], x.Calm := List.forall_mem_singleton.mpr raising_calm
  obtain ⟨m', hloop, hm⟩ := queue_drains (i := Who.second) unitJson whoCalls_assigned
    (Machine.reach_any_of_run _ (Option.some_get rfl).symm : (threads memory).Reach Machine.any queueStart submitted)
    (worker "w2") rfl hcalm (by decide)
  refine ⟨m', hloop, ?_, (hm.served (n := 0) rfl ⟨_, rfl, rfl⟩).1⟩
  rw [hm.cursor, hm.entries]
  rfl

end Playground.Queue
