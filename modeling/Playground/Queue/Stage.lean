/-
  Playground.Queue.Stage — the stages of a job, and the invariant behind them.

  While nothing fails, an enqueued job is in exactly one of four stages: its hash is
  written, its message waits in the stream, the message is in one worker's pending
  list, or it is acknowledged (`JobsSafe`). `JobAt` ties the stage to where the producer
  and the holder of the message stand; `JobAt.frame` says which steps leave it alone.
-/

import Playground.Queue.Moves

namespace Playground.Queue

open Playground.Lib Playground.Redis

section Stage

variable {ι P : Type}

/-! ## Stages -/

/-- A job's stages; a message is pending with, and acknowledged by, a worker. -/
inductive Stage where
  | hashed
  | queued
  | pending (workerId : String)
  | acknowledged (workerId : String)

def AtStage (call : ι → Call P) (s : Serving ι P) (jobId : String) : Stage → Prop
  | .hashed => (∀ id, ¬ InStream s.mem jobId id) ∧ jobStatus s.mem jobId = some Status.pending.str
  | .queued => ∃ id, InStream s.mem jobId id ∧ s.mem.stream.cursor ≤ id ∧
      jobStatus s.mem jobId = some Status.pending.str ∧ jobWorker s.mem jobId = some ""
  | .pending workerId => ∃ id, InStream s.mem jobId id ∧ id < s.mem.stream.cursor ∧
      (∀ w, (id, w) ∈ s.mem.stream.pending ↔ w = workerId) ∧
      (jobStatus s.mem jobId = some Status.pending.str ∨
        (jobStatus s.mem jobId = some Status.processing.str ∨ Terminal s.mem jobId) ∧
          jobWorker s.mem jobId = some workerId)
  | .acknowledged workerId => ∃ id k w, InStream s.mem jobId id ∧ (∀ v, (id, v) ∉ s.mem.stream.pending) ∧
      (acked s.log).filter (·.1 == id) = [(id, k)] ∧ (id, k) ∈ handed s.log ∧ call k = .process w ∧
      w.workerId = workerId ∧ Terminal s.mem jobId ∧ jobWorker s.mem jobId = some workerId

/-- What holds of the jobs of `call` in a state. -/
structure JobsSafe (call : ι → Call P) (s : Serving ι P) : Prop where
  /-- A job whose hash is written is in exactly one stage. -/
  stage : ∀ {i job}, call i = .enqueue job → history s.log job.jobId ≠ [] → ∃! st, AtStage call s job.jobId st
  statuses : ∀ {i job}, call i = .enqueue job → ∃ last, (last = .completed ∨ last = .failed) ∧
    history s.log job.jobId <+: [Status.pending, .processing, last].map Status.str
  /-- No message is lost: a job whose `enqueue_job` returned has one. -/
  sent : ∀ {i job r}, call i = .enqueue job → s.thr i = .ret r → ∃ id, InStream s.mem job.jobId id
  /-- No job has two messages. -/
  distinct : ∀ {jobId id id'}, InStream s.mem jobId id → InStream s.mem jobId id' → id = id'
  /-- A call starts `process_task` at most once, and only one call does for a job. -/
  starts : (started s.log).Nodup ∧ ∀ {jobId id id' k k'}, InStream s.mem jobId id → InStream s.mem jobId id' →
    (id, k) ∈ handed s.log → (id', k') ∈ handed s.log → k = k'
  starter : ∀ {k}, k ∈ started s.log → ∃ id, (id, k) ∈ handed s.log
  /-- A message that the group has handed out was read by exactly one call. -/
  delivered : ∀ id, id < s.mem.stream.cursor ↔ ∃! k, (id, k) ∈ handed s.log
  delivered_once : ((handed s.log).map Prod.fst).Nodup
  /-- It is acknowledged at most once, by that call. -/
  acknowledged_once : ((acked s.log).map Prod.fst).Nodup
  acknowledged : ∀ {id k}, (id, k) ∈ acked s.log → (id, k) ∈ handed s.log
  /-- And not before its job is finished. -/
  finished : ∀ {i job id k}, call i = .enqueue job → InStream s.mem job.jobId id → (id, k) ∈ acked s.log →
    Terminal s.mem job.jobId

/-! ## The invariant -/

/-- The statuses that a job's hash was set to, the last of which it has, and the worker
    it names. -/
def Record (u : St ι P) (jobId : String) (statuses : List Status) (workerId : String) : Prop :=
  history u.log jobId = statuses.map Status.str ∧
    jobStatus u.mem jobId = statuses.getLast?.map Status.str ∧ jobWorker u.mem jobId = some workerId

/-- The job of the message that a call is at, by how far the call is. -/
def Worked (u : St ι P) (jobId workerId : String) : Phase P → Prop
  | .claiming _ => Record u jobId [.pending] ""
  | .loading _ | .starting .. | .working _ | .completing .. | .failing .. =>
    Record u jobId [.pending, .processing] workerId
  | .acking .. => ∃ last, (last = .completed ∨ last = .failed) ∧ Record u jobId [.pending, .processing, last] workerId
  | _ => False

inductive JobAt (call : ι → Call P) (u : St ι P) (i : ι) (job : NewJob P) : Prop where
  | unwritten (hp : u.ph i = .grouping (.enqueue job) ∨ u.ph i = .writing job) (hh : history u.log job.jobId = [])
  | unsent (hp : u.ph i = .sending job) (hr : Record u job.jobId [.pending] "")
  | queued (id : Nat) (hm : u.mem.stream.entries[id]? = some job.message) (hid : u.mem.stream.cursor ≤ id)
      (hr : Record u job.jobId [.pending] "")
  | held (k : ι) (t : Task) (ht : (u.ph k).task = some t) (hm : u.mem.stream.entries[t.id]? = some job.message)
      (hk : (t.id, k) ∈ handed u.log) (hp : ∀ w, (t.id, w) ∈ u.mem.stream.pending ↔ w = t.w.workerId)
      (hr : Worked u job.jobId t.w.workerId (u.ph k))
  | done (id : Nat) (k : ι) (w : Worker) (r : Except Exc Reply) (he : u.ph k = .ended r)
      (hm : u.mem.stream.entries[id]? = some job.message) (hw : call k = .process w) (hk : (id, k) ∈ handed u.log)
      (hp : ∀ v, (id, v) ∉ u.mem.stream.pending) (ha : (id, k) ∈ acked u.log)
      (hr : ∃ last, (last = .completed ∨ last = .failed) ∧
        Record u job.jobId [.pending, .processing, last] w.workerId)

structure Calm (call : ι → Call P) (u : St ι P) : Prop where
  inv : Inv call u
  jobs : ∀ {i job}, call i = .enqueue job → JobAt call u i job
  started_once : (started u.log).Nodup
  unstarted : ∀ {k}, (u.ph k).unstarted → k ∉ started u.log
  started_handed : ∀ {k}, k ∈ started u.log → ∃ id, (id, k) ∈ handed u.log
  acked_once : ((acked u.log).map Prod.fst).Nodup
  acked_handed : ∀ {id k}, (id, k) ∈ acked u.log → (id, k) ∈ handed u.log ∧ ∃ r, u.ph k = .ended r
  covered : ∀ {id}, id < u.mem.stream.cursor → ∃ k, (id, k) ∈ handed u.log
  pend : ∀ {id w}, (id, w) ∈ u.mem.stream.pending → id < u.mem.stream.cursor

/-! ## Steps that are not a job's -/

variable {call : ι → Call P} {u : St ι P} {i : ι} {job : NewJob P}

theorem Record.congr {u' : St ι P} {jobId : String} {statuses : List Status} {workerId : String}
    (h : Record u jobId statuses workerId) (hh : history u'.log jobId = history u.log jobId)
    (hm : u'.mem.hashes (jobKey jobId) = u.mem.hashes (jobKey jobId)) : Record u' jobId statuses workerId := by
  obtain ⟨h1, h2, h3⟩ := h
  refine ⟨hh.trans h1, ?_, ?_⟩
  · rwa [jobStatus, Hashes.field, hm]
  · rwa [jobWorker, Hashes.field, hm]

theorem Worked.congr {u' : St ι P} {jobId workerId : String} {p : Phase P} (h : Worked u jobId workerId p)
    (hh : history u'.log jobId = history u.log jobId)
    (hm : u'.mem.hashes (jobKey jobId) = u.mem.hashes (jobKey jobId)) : Worked u' jobId workerId p := by
  cases p with
  | claiming | loading | starting | working | completing | failing => exact Record.congr h hh hm
  | acking =>
    obtain ⟨last, hl, hr⟩ := h
    exact ⟨last, hl, hr.congr hh hm⟩
  | grouping | writing | sending | reading | blank | ended => exact h.elim

variable [DecidableEq ι]

theorem history_did {t : ι} {c : Cmd P} {r : Except Exc (Ans c)} {m : Mem ι} {p : Phase P} {jobId : String}
    (hset : setBy jobId (.did t c r : Entry ι (Cmd P) Ans Exc (World ι)) = none) :
    history (u.did t c r m p).log jobId = history u.log jobId := by
  rw [Phases.did_log, history_snoc, hset]
  exact List.append_nil _

/-- A step of a call that neither enqueues the job nor holds its message. -/
theorem JobAt.frame (h : JobAt call u i job) {t : ι} {c : Cmd P} {r : Except Exc (Ans c)} {m : Mem ι} {p : Phase P}
    (hi : t ≠ i) (hend : ∀ r, u.ph t ≠ .ended r)
    (htask : ∀ task, (u.ph t).task = some task → u.mem.stream.entries[task.id]? ≠ some job.message)
    (hset : setBy job.jobId (.did t c r : Entry ι (Cmd P) Ans Exc (World ι)) = none)
    (hhash : m.hashes (jobKey job.jobId) = u.mem.hashes (jobKey job.jobId))
    (hent : ∀ {id : Nat} {x}, u.mem.stream.entries[id]? = some x → m.stream.entries[id]? = some x)
    (hcur : ∀ {id : Nat}, u.mem.stream.entries[id]? = some job.message → u.mem.stream.cursor ≤ id →
      m.stream.cursor ≤ id)
    (hpend : ∀ {id : Nat} {k}, u.mem.stream.entries[id]? = some job.message → (id, k) ∈ handed u.log →
      ∀ w, (id, w) ∈ m.stream.pending ↔ (id, w) ∈ u.mem.stream.pending) :
    JobAt call (u.did t c r m p) i job := by
  have hh : history (u.did t c r m p).log job.jobId = history u.log job.jobId := history_did hset
  have hph : (u.did t c r m p).ph i = u.ph i := Phases.did_ph_ne _ _ _ _ _ _ (Ne.symm hi)
  cases h with
  | unwritten hp hn => exact .unwritten (by rwa [hph]) (hh.trans hn)
  | unsent hp hr => exact .unsent (by rwa [hph]) (hr.congr hh hhash)
  | queued id hm hid hr => exact .queued id (hent hm) (hcur hm hid) (hr.congr hh hhash)
  | held k task ht hm hk hp hr =>
    have hne : k ≠ t := fun e => htask task (e ▸ ht) hm
    have hpk : (u.did t c r m p).ph k = u.ph k := Phases.did_ph_ne _ _ _ _ _ _ hne
    refine .held k task (by rwa [hpk]) (hent hm) ?_ (fun w => (hpend hm hk w).trans (hp w)) ?_
    · rw [Phases.did_log, handed_snoc]
      exact List.mem_append_left _ hk
    · rw [hpk]
      exact hr.congr hh hhash
  | done id k w out he hm hw hk hp ha hr =>
    have hne : k ≠ t := fun e => hend out (e ▸ he)
    have hpk : (u.did t c r m p).ph k = u.ph k := Phases.did_ph_ne _ _ _ _ _ _ hne
    obtain ⟨last, hl, hr⟩ := hr
    refine .done id k w out (by rwa [hpk]) (hent hm) hw ?_ (fun v hv => hp v ((hpend hm hk v).mp hv)) ?_
      ⟨last, hl, hr.congr hh hhash⟩
    · rw [Phases.did_log, handed_snoc]
      exact List.mem_append_left _ hk
    · rw [Phases.did_log, acked_snoc]
      exact List.mem_append_left _ ha

/-- One that leaves the stream as it is. -/
theorem JobAt.frame_stream (h : JobAt call u i job) {t : ι} {c : Cmd P} {r : Except Exc (Ans c)} {m : Mem ι}
    {p : Phase P} (hi : t ≠ i) (hend : ∀ r, u.ph t ≠ .ended r)
    (htask : ∀ task, (u.ph t).task = some task → u.mem.stream.entries[task.id]? ≠ some job.message)
    (hset : setBy job.jobId (.did t c r : Entry ι (Cmd P) Ans Exc (World ι)) = none)
    (hhash : m.hashes (jobKey job.jobId) = u.mem.hashes (jobKey job.jobId)) (hm : m.stream = u.mem.stream) :
    JobAt call (u.did t c r m p) i job :=
  h.frame hi hend htask hset hhash (by rw [hm]; exact fun h => h) (by rw [hm]; exact fun _ h => h)
    (by rw [hm]; exact fun _ _ _ => Iff.rfl)

/-! ## The steps of the job's own calls -/

omit [DecidableEq ι] in
/-- While a call still runs its job is not in the stream. -/
theorem JobAt.at_home (h : JobAt call u i job) (hi : Inv call u) (ha : Assigned call) (hj : call i = .enqueue job)
    (hrun : ∀ r, u.ph i ≠ .ended r) :
    ((u.ph i = .grouping (.enqueue job) ∨ u.ph i = .writing job) ∧ history u.log job.jobId = []) ∨
      (u.ph i = .sending job ∧ Record u job.jobId [.pending] "") := by
  have hout : ∀ id : Nat, u.mem.stream.entries[id]? ≠ some job.message := by
    intro id hm
    obtain ⟨r, hr⟩ := hi.sender_ended ha hj hm
    exact hrun r hr
  cases h with
  | unwritten hp hh => exact .inl ⟨hp, hh⟩
  | unsent hp hr => exact .inr ⟨hp, hr⟩
  | queued id hm => exact absurd hm (hout id)
  | held k t ht hm => exact absurd hm (hout t.id)
  | done id k w r he hm => exact absurd hm (hout id)

omit [DecidableEq ι] in
/-- The job of the message that a call is at. -/
theorem JobAt.of_task (h : JobAt call u i job) (hi : Inv call u) (ha : Assigned call) (hj : call i = .enqueue job)
    {t : ι} {task : Task} (ht : (u.ph t).task = some task) (he : job.jobId = task.jobId) :
    u.mem.stream.entries[task.id]? = some job.message ∧ (task.id, t) ∈ handed u.log ∧
      (∀ w, (task.id, w) ∈ u.mem.stream.pending ↔ w = task.w.workerId) ∧
      Worked u job.jobId task.w.workerId (u.ph t) := by
  obtain ⟨hk, m, hm, hmj⟩ := hi.holds ht
  obtain ⟨i', job', r, hj', rfl, hr⟩ := hi.sent hm
  have hid : job.jobId = job'.jobId := he.trans (Option.some.inj hmj).symm
  cases ha.distinct hj hj' hid
  cases hj.symm.trans hj'
  refine ⟨hm, hk, ?_⟩
  cases h with
  | unwritten hp => rcases hp with hp | hp <;> (rw [hp] at hr; cases hr)
  | unsent hp => rw [hp] at hr; cases hr
  | queued id hm' hid' =>
    cases hi.distinct hm hm' rfl
    have hlt := (hi.before hk).1
    omega
  | held k t' ht' hm' hk' hp hr' =>
    have hsame : task.id = t'.id := hi.distinct hm hm' rfl
    cases hi.one_call hk (hsame ▸ hk')
    cases ht.symm.trans ht'
    exact ⟨hp, hr'⟩
  | done id k w r' hend hm' hw hk' =>
    cases hi.distinct hm hm' rfl
    cases hi.one_call hk hk'
    rw [hend] at ht
    cases ht

omit [DecidableEq ι] in
/-- While no read has handed out its message a job is pending. -/
theorem JobAt.waiting (h : JobAt call u i job) (hi : Inv call u) (ha : Assigned call) (hj : call i = .enqueue job)
    {id : Nat} (hm : u.mem.stream.entries[id]? = some job.message) (hid : u.mem.stream.cursor ≤ id) :
    Record u job.jobId [.pending] "" := by
  have hunread : ∀ {id' k}, u.mem.stream.entries[id']? = some job.message → (id', k) ∉ handed u.log := by
    intro id' k hm' hk
    cases hi.distinct hm hm' rfl
    have hlt := (hi.before hk).1
    omega
  obtain ⟨r, hr⟩ := hi.sender_ended ha hj hm
  cases h with
  | unwritten hp => rcases hp with hp | hp <;> (rw [hr] at hp; cases hp)
  | unsent hp => rw [hr] at hp; cases hp
  | queued id' hm' hid' hrec => exact hrec
  | held k task ht hm' hk => exact absurd hk (hunread hm')
  | done id' k w r' he hm' hw hk => exact absurd hk (hunread hm')

omit [DecidableEq ι] in
theorem setBy_ne {t : ι} {jobId jobId' : String} {mapping : List (Field × String)} (h : jobId ≠ jobId') :
    setBy jobId (.did t (.hset (jobKey jobId') mapping) (.ok ()) : Entry ι (Cmd P) Ans Exc (World ι)) = none :=
  if_neg fun e => h (jobKey_inj e).symm

/-- A status write of the job's own. -/
theorem Record.write {t : ι} {jobId : String} (statuses : List Status) {last : Status} {workerId : String} {p : Phase P}
    {mapping : List (Field × String)} (h : history u.log jobId = statuses.map Status.str)
    (hs : mapping.lookup .status = some last.str) (hw : mapping.lookup .workerId = some workerId) :
    Record (u.did t (.hset (jobKey jobId) mapping) (.ok ())
      { u.mem with hashes := u.mem.hashes.hset (jobKey jobId) mapping } p) jobId (statuses ++ [last]) workerId := by
  refine ⟨?_, ?_, ?_⟩
  · rw [Phases.did_log, history_snoc, h]
    simp [setBy, hs]
  · simp [jobStatus, hs]
  · simp [jobWorker, hw]

end Stage

end Playground.Queue
