/-
  Playground.Queue.Fidelity — what is submitted is what is worked on and what is polled.

  Any call may crash, and any command fail before or after it took effect.
  - `task_faithful`: `process_task` is only ever started with the task type and the
    payload of the job whose message the call was handed, and once for a job.
  - `poll_forward`: `GET /case2/jobs/{job_id}` answers with the job as submitted, and
    from one poll to a later one its status goes forward only.

  `hash_step` says what a step can make of a job's hash; `Faithful` is the invariant.
-/

import Playground.Lib.Solo
import Playground.Queue.Finished
import Playground.Queue.Moves

namespace Playground.Queue

open Playground.Lib Playground.Redis

section Fidelity

variable {ι P : Type}

/-! ## `check_job` -/

structure JobResponse (P : Type) where
  nodeId : String
  jobId : String
  status : String
  taskType : String
  payload : Option (Payload P)
  result : Option String
  workerId : Option String

/-- The answer to a request: a body, or that of a raised `HTTPException`. -/
inductive Answer (α : Type) where
  | body (a : α)
  | httpException (status : Nat) (detail : String)

/-- `job["job_id"]` raises without that field, the others have defaults. -/
def checkJob (json : Json P) (nodeId jobId : String) : Prog P (Answer (JobResponse P)) := do
  match ← getJob json jobId with
  | none => pure (.httpException 404 "Job not found")
  | some job => match job.fields .jobId with
    | none => Co.raise (.exception "'job_id'")
    | some id => pure (.body ⟨nodeId, id, (job.fields .status).getD "UNKNOWN", (job.fields .taskType).getD "",
        job.payload, job.fields .result, job.fields .workerId⟩)

/-! ## What a step makes of a job's hash -/

/-- The status that a phase is about to write. -/
def Phase.writes : Phase P → Option Status
  | .claiming _ => some .processing
  | .completing .. => some .completed
  | .failing .. => some .failed
  | _ => none

/-- What a step of call `t` leaves of a job's hash: what it was, the job as its
    `enqueue_job` writes it, or the next status of the message `t` is at. -/
inductive HashStep (json : Json P) (u : St ι P) (t : ι) (job : NewJob P) : Option (Field → Option String) → Prop
  | same : HashStep json u t job (u.mem.hashes (jobKey job.jobId))
  | created (hp : u.ph t = .writing job) : HashStep json u t job
      (u.mem.hashes.hset (jobKey job.jobId) (job.data json) (jobKey job.jobId))
  | status (task : Task) (next : Status) (now result : String) (ht : (u.ph t).task = some task)
      (hid : task.jobId = job.jobId) (hw : (u.ph t).writes = some next) : HashStep json u t job
      (u.mem.hashes.hset (jobKey job.jobId) (statusMapping next now task.w.workerId result) (jobKey job.jobId))

variable [DecidableEq ι] {json : Json P} {call : ι → Call P} {u : St ι P} {i t : ι} {job : NewJob P} {c : Cmd P}
  {k : Except Exc (Ans c) → Phase P} {x : Chance} {rm : Except Exc (Ans c) × Mem ι}

theorem hash_step (ha : Assigned call) (hi : Inv call u) (hj : call i = .enqueue job)
    (hh : headOf json (u.ph t) = .goes c k) (hx : memory.exec t c x u.mem = some rm) :
    HashStep json u t job (rm.2.hashes (jobKey job.jobId)) := by
  rcases exec_hashes hx with h | ⟨key, mapping, rfl, h⟩
  · rw [h]
    exact .same
  · by_cases hkey : jobKey job.jobId = key
    · subst hkey
      rw [h]
      have hof := hi.own t
      cases hp : u.ph t with
      | writing job' =>
        rw [hp] at hh hof
        obtain ⟨⟨hid, rfl⟩, -⟩ := Head.goes.inj hh |>.imp Cmd.hset.inj id
        cases ha.distinct hof hj (jobKey_inj hid)
        cases hof.symm.trans hj
        exact .created hp
      | claiming task =>
        rw [hp] at hh
        obtain ⟨⟨hid, rfl⟩, -⟩ := Head.goes.inj hh |>.imp Cmd.hset.inj id
        exact .status task .processing _ _ (by rw [hp]; rfl) (jobKey_inj hid) (by rw [hp]; rfl)
      | completing task result =>
        rw [hp] at hh
        obtain ⟨⟨hid, rfl⟩, -⟩ := Head.goes.inj hh |>.imp Cmd.hset.inj id
        exact .status task .completed _ _ (by rw [hp]; rfl) (jobKey_inj hid) (by rw [hp]; rfl)
      | failing task str =>
        rw [hp] at hh
        obtain ⟨⟨hid, rfl⟩, -⟩ := Head.goes.inj hh |>.imp Cmd.hset.inj id
        exact .status task .failed _ _ (by rw [hp]; rfl) (jobKey_inj hid) (by rw [hp]; rfl)
      | grouping | sending | reading | blank | loading | starting | working | acking | ended =>
        rw [hp] at hh
        cases hh
    · rw [h, Hashes.hset_ne _ _ hkey]
      exact .same

/-! ## The invariant -/

/-- What a job's hash says whatever its status: a status write touches none of it. -/
structure Kept (json : Json P) (job : NewJob P) (h : Field → Option String) : Prop where
  status : ∃ status : Status, h .status = some status.str
  jobId : h .jobId = some job.jobId
  taskType : h .taskType = some job.taskType
  payload : h .payload = some (json.dumps job.payload)
  createdAt : h .createdAt = some job.createdAt

/-- A `COMPLETED` write of the job raised. -/
def CompletedRaised (log : Log ι P) (jobId : String) : Prop :=
  ∃ k now w result str, Entry.did k (.hset (jobKey jobId) (statusMapping .completed now w result))
    (.error (.exception str)) ∈ log

/-- What is known of the job that a call is at, by its phase. -/
def Phase.Knows (json : Json P) (call : ι → Call P) (m : Mem ι) (log : Log ι P) : Phase P → Prop
  | .grouping (.enqueue job) | .writing job => m.hashes (jobKey job.jobId) = none
  | .sending job => jobStatus m job.jobId = some Status.pending.str
  | .claiming t => jobStatus m t.jobId = some Status.pending.str
  | .loading t | .working t | .completing t _ => jobStatus m t.jobId = some Status.processing.str
  | .starting t payload => jobStatus m t.jobId = some Status.processing.str ∧
      ∀ i job, call i = .enqueue job → job.jobId = t.jobId → payload = decode json (json.dumps job.payload)
  | .failing t _ => jobStatus m t.jobId = some Status.processing.str ∨
      jobStatus m t.jobId = some Status.completed.str ∧ CompletedRaised log t.jobId
  | _ => True

structure Faithful (json : Json P) (call : ι → Call P) (u : St ι P) : Prop where
  inv : Inv call u
  kept : ∀ {i job h}, call i = .enqueue job → u.mem.hashes (jobKey job.jobId) = some h → Kept json job h
  knows : ∀ k, (u.ph k).Knows json call u.mem u.log
  /-- A message that no call was handed has its job `PENDING`. -/
  waiting : ∀ {i job id}, call i = .enqueue job → u.mem.stream.entries[id]? = some job.message →
    (∀ k, (id, k) ∉ handed u.log) → jobStatus u.mem job.jobId = some Status.pending.str
  typed : ∀ {k t m}, (u.ph k).task = some t → u.mem.stream.entries[t.id]? = some m → m.taskType = some t.taskType
  once : (started u.log).Nodup
  unstarted : ∀ {k}, (u.ph k).unstarted → k ∉ started u.log
  starts : ∀ {k taskType payload r}, .did k (.startTask taskType payload) r ∈ u.log →
    ∃ i job id, call i = .enqueue job ∧ taskType = job.taskType ∧ payload = decode json (json.dumps job.payload) ∧
      u.mem.stream.entries[id]? = some job.message ∧ (id, k) ∈ handed u.log

/-! ## Every step keeps the invariant -/

omit [DecidableEq ι] in
/-- The fields that `enqueue_job` sets for good. -/
theorem statusMapping_other {f : Field} (hf : f ∈ [Field.jobId, .taskType, .payload, .createdAt]) (status : Status)
    (now w result : String) : (statusMapping status now w result).lookup f = none := by
  unfold statusMapping
  simp only [List.mem_cons, List.not_mem_nil, or_false] at hf
  obtain rfl | rfl | rfl | rfl := hf <;> by_cases hw : w = "" <;> by_cases hr : result = "" <;>
    simp only [hw, hr, if_true, if_false] <;> rfl

omit [DecidableEq ι] in
theorem hash_of_status {m : Mem ι} {jobId s : String} (h : jobStatus m jobId = some s) :
    ∃ fields, m.hashes (jobKey jobId) = some fields ∧ fields .status = some s :=
  Option.bind_eq_some_iff.mp h

omit [DecidableEq ι] in
theorem HashStep.kept {h' : Option (Field → Option String)} (hs : HashStep json u t job h')
    (hold : ∀ h, u.mem.hashes (jobKey job.jobId) = some h → Kept json job h)
    (hthere : ∀ task, (u.ph t).task = some task → (u.ph t).writes ≠ none →
      ∃ h, u.mem.hashes (jobKey task.jobId) = some h) {h : Field → Option String} (hh : h' = some h) :
    Kept json job h := by
  cases hs with
  | same => exact hold h hh
  | created hp =>
    simp only [Hashes.hset, Function.update_self, Option.some.injEq] at hh
    subst hh
    exact ⟨⟨.pending, rfl⟩, rfl, rfl, rfl, rfl⟩
  | status task next now result ht hid hw =>
    obtain ⟨h₀, hh₀⟩ := hthere task ht (by simp [hw])
    rw [hid] at hh₀
    have hk := hold h₀ hh₀
    simp only [Hashes.hset, Function.update_self, Option.some.injEq, Hashes.field, hh₀, Option.bind_some] at hh
    subst hh
    refine ⟨⟨next, rfl⟩, ?_, ?_, ?_, ?_⟩
    · rw [statusMapping_other (by simp), Option.none_or]
      exact hk.jobId
    · rw [statusMapping_other (by simp), Option.none_or]
      exact hk.taskType
    · rw [statusMapping_other (by simp), Option.none_or]
      exact hk.payload
    · rw [statusMapping_other (by simp), Option.none_or]
      exact hk.createdAt

omit [DecidableEq ι] in
/-- A call that writes a status is at a job that has a hash. -/
theorem Faithful.there (hf : Faithful json call u) {task : Task} (ht : (u.ph t).task = some task)
    (hw : (u.ph t).writes ≠ none) : ∃ h, u.mem.hashes (jobKey task.jobId) = some h := by
  have hk := hf.knows t
  cases hp : u.ph t with
  | claiming t' | completing t' =>
    rw [hp] at hk ht
    cases ht
    obtain ⟨h, hh, -⟩ := hash_of_status hk
    exact ⟨h, hh⟩
  | failing t' =>
    rw [hp] at hk ht
    cases ht
    rcases hk with hk | ⟨hk, -⟩ <;>
      · obtain ⟨h, hh, -⟩ := hash_of_status hk
        exact ⟨h, hh⟩
  | _ => simp [hp, Phase.writes] at hw

/-- What a read leads to: the end of the call, or the status write of the message at the
    cursor. -/
theorem read_next (ha : Assigned call) (hi : Inv call u) {w : Worker} (hp : u.ph t = .reading w)
    {rm : Except Exc (List (Nat × Message)) × Mem ι}
    (hx : (memory (P := P)).exec t (.xreadgroup w.workerId 1) x u.mem = some rm) :
    rm.2.hashes = u.mem.hashes ∧ rm.2.stream.entries = u.mem.stream.entries ∧
      ((∃ res, (Phase.on (.read w) rm.1 : Phase P) = .ended res) ∨
        ∃ j job, call j = .enqueue job ∧ u.mem.stream.entries[u.mem.stream.cursor]? = some job.message ∧
          (∀ k, (u.mem.stream.cursor, k) ∉ handed u.log) ∧
          (Phase.on (.read w) rm.1 : Phase P) = .claiming (taskOf w u.mem.stream.cursor job)) := by
  obtain ⟨hent, hhash, ⟨hr, -⟩ | ⟨-, ⟨e, hr⟩, -⟩ | ⟨j, job, hj, hm, hr, hcur, -⟩⟩ := exec_read hi hx
  · refine ⟨hhash, hent, .inl ?_⟩
    rcases hr with hr | ⟨e, hr⟩ <;> rw [hr] <;> exact ⟨_, rfl⟩
  · refine ⟨hhash, hent, .inl ?_⟩
    rw [hr]
    exact ⟨_, rfl⟩
  · refine ⟨hhash, hent, .inr ⟨j, job, hj, hm, ?_, ?_⟩⟩
    · intro k hk
      have := (hi.before hk).1
      omega
    · rw [hr]
      exact (hi.hand ha hp hj hm hent hcur).1

/-- The job of a message that a call was not handed is no business of its steps. -/
theorem status_waiting (ha : Assigned call) (hf : Faithful json call u) (hj : call i = .enqueue job) {id : Nat}
    (hh : headOf json (u.ph t) = .goes c k) (hx : memory.exec t c x u.mem = some rm)
    (hm : rm.2.stream.entries[id]? = some job.message)
    (hnot : ∀ k', (id, k') ∉ handed (u.did t c rm.1 rm.2 (k rm.1)).log) :
    jobStatus rm.2 job.jobId = some Status.pending.str := by
  have hnot' : ∀ k', (id, k') ∉ handed u.log := fun k' h => hnot k' (handed_mono h)
  by_cases hold : u.mem.stream.entries[id]? = some job.message
  · rw [jobStatus, Hashes.field, hash_other ha hf.inv hj hold (hnot' t) hh hx]
    exact hf.waiting hj hold hnot'
  · -- the entry is new: the call has just sent it
    by_cases hc : c.quiet
    · rw [(exec_quiet hc hx).1] at hm
      exact absurd hm hold
    · have hof := hf.inv.own t
      have hk := hf.knows t
      cases hp : u.ph t with
      | sending job' =>
        rw [hp] at hh hof hk
        cases hh
        have hhash : rm.2.hashes = u.mem.hashes := by
          rcases exec_hashes hx with h | ⟨_, _, h, -⟩
          · exact h
          · cases h
        have hid : job'.jobId = job.jobId := by
          rcases xadd_cases hx with ⟨hm', -⟩ | ⟨hm', -⟩
          · rw [hm', Stream.xadd_entries, List.getElem?_append] at hm
            split at hm
            · exact absurd hm hold
            · obtain ⟨h1, h2⟩ := List.getElem?_eq_some_iff.mp hm
              have hz : id - u.mem.stream.entries.length = 0 := by simpa using h1
              simp only [hz, List.getElem_cons_zero] at h2
              exact Option.some.inj (congrArg Message.jobId h2)
          · rw [hm'] at hm
            exact absurd hm hold
        rw [jobStatus, hhash, ← hid]
        exact hk
      | reading w =>
        rw [hp] at hh
        cases hh
        rw [(read_next ha hf.inv hp hx).2.1] at hm
        exact absurd hm hold
      | ended => exact absurd hp (running hh _)
      | _ => rw [hp] at hh; cases hh; exact absurd trivial hc

omit [DecidableEq ι] in
theorem CompletedRaised.snoc {log : Log ι P} {e : Entry ι (Cmd P) Ans Exc (World ι)} {jobId : String}
    (h : CompletedRaised log jobId) : CompletedRaised (log ++ [e]) jobId := by
  obtain ⟨k, now, w, result, str, h⟩ := h
  exact ⟨k, now, w, result, str, List.mem_append_left _ h⟩

omit [DecidableEq ι] in
/-- A step that changes no hash. -/
theorem Phase.Knows.snoc {p : Phase P} {m m' : Mem ι} {log : Log ι P} (h : p.Knows json call m log)
    (hm : m'.hashes = m.hashes) (e : Entry ι (Cmd P) Ans Exc (World ι)) : p.Knows json call m' (log ++ [e]) := by
  have hstatus : ∀ jobId, jobStatus m' jobId = jobStatus m jobId := fun _ => by rw [jobStatus, jobStatus, hm]
  cases p with
  | grouping cl =>
    cases cl with
    | process w => trivial
    | enqueue job => exact (congrFun hm _).trans h
  | writing job => exact (congrFun hm _).trans h
  | sending job => exact (hstatus _).trans h
  | claiming t | loading t | working t | completing t => exact (hstatus _).trans h
  | starting t payload => exact ⟨(hstatus _).trans h.1, h.2⟩
  | failing t => exact h.imp (hstatus _).trans fun h => ⟨(hstatus _).trans h.1, h.2.snoc⟩
  | reading | blank | acking | ended => trivial

/-- The hash of a job whose message is not sent is its sender's alone. -/
theorem hash_unsent (ha : Assigned call) (hi : Inv call u) (hj : call i = .enqueue job) (hne : i ≠ t)
    (hrun : ∀ r, u.ph i ≠ .ended r) (hh : headOf json (u.ph t) = .goes c k)
    (hx : memory.exec t c x u.mem = some rm) :
    rm.2.hashes (jobKey job.jobId) = u.mem.hashes (jobKey job.jobId) := by
  have hstep := hash_step ha hi hj hh hx
  revert hstep
  generalize rm.2.hashes (jobKey job.jobId) = h'
  intro hstep
  cases hstep with
  | same => rfl
  | created hp =>
    have hof := hi.own t
    rw [hp] at hof
    exact absurd (ha.distinct hj hof rfl) hne
  | status task next now result ht hid =>
    obtain ⟨-, m, hm, hmj⟩ := hi.holds ht
    obtain ⟨i', job', r, hj', rfl, hr⟩ := hi.sent hm
    have hid' : job'.jobId = job.jobId := (Option.some.inj hmj).trans hid
    cases ha.distinct hj' hj hid'
    exact absurd hr (hrun r)

/-- What a call knows of its job stays so when another call steps. -/
theorem Faithful.knows_other (ha : Assigned call) (hf : Faithful json call u) {j : ι} (hne : j ≠ t)
    (hh : headOf json (u.ph t) = .goes c k) (hx : memory.exec t c x u.mem = some rm) :
    (u.ph j).Knows json call rm.2 (u.log ++ [.did t c rm.1]) := by
  have hk := hf.knows j
  have hof := hf.inv.own j
  have hstatus : ∀ task, (u.ph j).task = some task → jobStatus rm.2 task.jobId = jobStatus u.mem task.jobId :=
    fun task ht => status_other ha hf.inv ht hne hh hx
  have hhash : ∀ job, call j = .enqueue job → (∀ r, u.ph j ≠ .ended r) →
      rm.2.hashes (jobKey job.jobId) = u.mem.hashes (jobKey job.jobId) :=
    fun job hj hrun => hash_unsent ha hf.inv hj hne hrun hh hx
  cases hp : u.ph j with
  | grouping cl =>
    rw [hp] at hk hof hhash
    cases cl with
    | process w => trivial
    | enqueue job => exact (hhash job hof.symm fun r h => by cases h).trans hk
  | writing job =>
    rw [hp] at hk hof hhash
    exact (hhash job hof fun r h => by cases h).trans hk
  | sending job =>
    rw [hp] at hk hof hhash
    show jobStatus rm.2 job.jobId = _
    rw [jobStatus, Hashes.field, hhash job hof fun r h => by cases h]
    exact hk
  | claiming task | loading task | working task | completing task =>
    rw [hp] at hk hstatus
    exact (hstatus task rfl).trans hk
  | starting task payload =>
    rw [hp] at hk hstatus
    exact ⟨(hstatus task rfl).trans hk.1, hk.2⟩
  | failing task =>
    rw [hp] at hk hstatus
    exact hk.imp (hstatus task rfl).trans fun hk => ⟨(hstatus task rfl).trans hk.1, hk.2.snoc⟩
  | reading | blank | acking | ended => trivial

omit [DecidableEq ι] in
/-- What the hash of a job says of the payload. -/
theorem Faithful.loaded (hf : Faithful json call u) (hj : call i = .enqueue job)
    {data : Option (Field → Option String)} (hd : data = u.mem.hashes (jobKey job.jobId)) (hsome : data ≠ none) :
    loaded json data = decode json (json.dumps job.payload) := by
  cases data with
  | none => exact absurd rfl hsome
  | some h =>
    have hk := hf.kept hj hd.symm
    simp only [Queue.loaded, payloadOf, Option.map_some, Option.bind_some, hk.payload, Option.getD_some]

/-- What a step of a call leaves it knowing. -/
theorem Faithful.knows_own (ha : Assigned call) (hf : Faithful json call u) (hh : headOf json (u.ph t) = .goes c k)
    (hx : memory.exec t c x u.mem = some rm) : (k rm.1).Knows json call rm.2 (u.log ++ [.did t c rm.1]) := by
  have hknow := hf.knows t
  have hof := hf.inv.own t
  have hd := exec_live hx
  obtain ⟨r, m⟩ := rm
  cases hp : u.ph t with
  | blank => rw [hp] at hof; exact hof.elim
  | ended => exact absurd hp (running hh _)
  | grouping cl =>
    rw [hp] at hh hknow
    cases hh
    have hhash : m.hashes = u.mem.hashes := by
      rcases exec_hashes hx with h | ⟨_, _, h, -⟩
      · exact h
      · cases h
    have hafter : (Phase.afterGroup cl : Phase P).Knows json call m (u.log ++ [.did t .xgroupCreate r]) := by
      cases cl with
      | process w => trivial
      | enqueue job => exact (congrFun hhash _).trans hknow
    cases r with
    | ok a => exact hafter
    | error e =>
      simp only
      split
      · exact hafter
      · trivial
  | writing job =>
    rw [hp] at hh
    cases hh
    cases r with
    | error e => trivial
    | ok a =>
      show jobStatus m job.jobId = _
      rw [jobStatus, hset_ok hx, Hashes.field_hset_same]
      rfl
  | sending job =>
    rw [hp] at hh
    cases hh
    cases r <;> trivial
  | reading w =>
    rw [hp] at hh
    cases hh
    obtain ⟨hhash, -, ⟨res, hres⟩ | ⟨j, job, hj, hm, hnot, hres⟩⟩ := read_next ha hf.inv hp hx
    · rw [hres]
      trivial
    · rw [hres]
      show jobStatus m job.jobId = _
      rw [jobStatus, hhash]
      exact hf.waiting hj hm hnot
  | claiming task =>
    rw [hp] at hh
    cases hh
    cases r with
    | error e => trivial
    | ok a =>
      obtain ⟨hst, ⟨-, he⟩ | ⟨e, h, -⟩⟩ := exec_statusWrite (lookup_status ..) hx
      · exact hst.trans (if_pos he)
      · cases h
  | loading task =>
    rw [hp] at hh hknow
    cases hh
    have hst : jobStatus m task.jobId = some Status.processing.str := (exec_status hx (fun _ _ h => by cases h) _).trans hknow
    cases r with
    | error e => trivial
    | ok data =>
      refine ⟨hst, fun j job hj hid => ?_⟩
      have hdata : data = u.mem.hashes (jobKey task.jobId) := by
        simp only [memory, hd] at hx
        rcases x.reply_cases u.mem (.ok (u.mem.hashes.hgetall (jobKey task.jobId)), u.mem) with h | ⟨-, e, h | h⟩ <;>
          rw [h] at hx <;> cases hx
        rfl
      obtain ⟨fields, hfields, -⟩ := hash_of_status hknow
      apply hf.loaded hj (hid ▸ hdata)
      rw [hdata, hfields]
      exact Option.some_ne_none _
  | starting task payload =>
    rw [hp] at hh hknow
    cases hh
    have hst : jobStatus m task.jobId = some Status.processing.str := (exec_status hx (fun _ _ h => by cases h) _).trans hknow.1
    cases r with
    | ok a => exact hst
    | error e => cases e <;> first | exact .inl hst | trivial
  | working task =>
    rw [hp] at hh hknow
    cases hh
    have hst : jobStatus m task.jobId = some Status.processing.str := (exec_status hx (fun _ _ h => by cases h) _).trans hknow
    cases r with
    | ok a => exact hst
    | error e => cases e <;> first | exact .inl hst | trivial
  | completing task result =>
    rw [hp] at hh hknow
    cases hh
    cases r with
    | ok a => trivial
    | error e =>
      cases e with
      | cancelled => trivial
      | exception str =>
        have hst := (exec_statusWrite (lookup_status ..) hx).1
        split at hst
        · exact .inr ⟨hst, t, _, _, _, str, List.mem_append_right _ (List.mem_singleton.mpr rfl)⟩
        · exact .inl (hst.trans hknow)
  | failing task str => rw [hp] at hh; cases hh; trivial
  | acking task out =>
    rw [hp] at hh hof
    cases hh
    cases r with
    | error e => trivial
    | ok a =>
      obtain ⟨res, hres⟩ := leave_ended (P := P) out hof.2
      show (Phase.leave task out : Phase P).Knows _ _ _ _
      rw [hres]
      trivial

omit [DecidableEq ι] in
/-- A call starts `process_task` once: no phase past the start leads back before it. -/
theorem unstarted_back {p : Phase P} {cl : Call P} (hof : p.Of cl) (hh : headOf json p = .goes c k)
    {r : Except Exc (Ans c)} (h : (k r).unstarted) : p.unstarted := by
  cases p with
  | grouping | writing | sending | reading | claiming | loading | starting => trivial
  | blank => exact hof.elim
  | ended => cases hh
  | working t | completing t =>
    cases hh
    cases r with
    | ok a => exact h.elim
    | error e => cases e <;> exact h.elim
  | failing t => cases hh; exact h.elim
  | acking t out =>
    cases hh
    cases r with
    | error e => exact h.elim
    | ok a =>
      obtain ⟨res, hres⟩ := leave_ended (P := P) out hof.2
      rw [Phase.on, hres] at h
      exact h.elim

omit [DecidableEq ι] in
theorem starting_of_head {p : Phase P} {taskType : String} {payload : Payload P} {k : Except Exc Unit → Phase P}
    (hh : headOf json p = .goes (.startTask taskType payload) k) :
    ∃ t, p = .starting t payload ∧ taskType = t.taskType := by
  cases p with
  | starting t payload' => cases hh; exact ⟨t, rfl, rfl⟩
  | _ => cases hh

/-- Past the start of `process_task`. -/
theorem started_next {taskType : String} {payload : Payload P} {k : Except Exc Unit → Phase P}
    {rm : Except Exc Unit × Mem ι} (hh : headOf json (u.ph t) = .goes (.startTask taskType payload) k)
    (hx : (memory (P := P)).exec t (.startTask taskType payload) x u.mem = some rm) : ¬ (k rm.1).unstarted := by
  obtain ⟨task, hp, rfl⟩ := starting_of_head hh
  have hd := exec_live hx
  rw [hp] at hh
  cases hh
  simp only [memory, hd] at hx
  cases hx
  exact id

omit [DecidableEq ι] in
theorem startedBy_some {e : Entry ι (Cmd P) Ans Exc (World ι)} {j : ι} (h : startedBy e = some j) :
    ∃ taskType payload r, e = .did j (.startTask taskType payload) r := by
  unfold startedBy at h
  split at h
  · cases h
    exact ⟨_, _, _, rfl⟩
  · cases h

/-- The message that a call is at is of the type that it takes it for. -/
theorem Faithful.typed_did (ha : Assigned call) (hf : Faithful json call u) (hh : headOf json (u.ph t) = .goes c k)
    (hx : memory.exec t c x u.mem = some rm) {j : ι} {task : Task} {m : Message}
    (ht : ((u.did t c rm.1 rm.2 (k rm.1)).ph j).task = some task) (hm : rm.2.stream.entries[task.id]? = some m) :
    m.taskType = some task.taskType := by
  have hold : ∀ {j' : ι}, (u.ph j').task = some task → m.taskType = some task.taskType := by
    intro j' ht'
    obtain ⟨-, m', hm', -⟩ := hf.inv.holds ht'
    have hgrow : rm.2.stream.entries[task.id]? = some m' := by
      obtain ⟨more, hmore⟩ := (exec_grows hx).1
      rw [← hmore, List.getElem?_append_left (List.getElem?_eq_some_iff.mp hm').1]
      exact hm'
    cases hm.symm.trans hgrow
    exact hf.typed ht' hm'
  by_cases hne : j = t
  · subst hne
    rw [Phases.did_ph_same] at ht
    by_cases hc : c.quiet
    · exact hold ((next_quiet hh hc (hf.inv.own j) rm.1).2.1 _ ht)
    · cases hp : u.ph j with
      | sending job =>
        rw [hp] at hh
        cases hh
        obtain ⟨r, m⟩ := rm
        cases r <;> cases ht
      | reading w =>
        rw [hp] at hh
        cases hh
        obtain ⟨-, hent, ⟨res, hres⟩ | ⟨i', job, hj, hm', -, hres⟩⟩ := read_next ha hf.inv hp hx
        · rw [hres] at ht
          cases ht
        · rw [hres] at ht
          cases ht
          rw [hent] at hm
          cases hm.symm.trans hm'
          rfl
      | ended => exact absurd hp (running hh _)
      | _ => rw [hp] at hh; cases hh; exact absurd trivial hc
  · rw [Phases.did_ph_ne _ _ _ _ _ _ hne] at ht
    exact hold ht

omit [DecidableEq ι] in
/-- What `process_task` is started with is what was submitted. -/
theorem Faithful.starts_own (hf : Faithful json call u) {taskType : String} {payload : Payload P}
    {k : Except Exc Unit → Phase P} (hh : headOf json (u.ph t) = .goes (.startTask taskType payload) k) :
    ∃ i job id, call i = .enqueue job ∧ taskType = job.taskType ∧ payload = decode json (json.dumps job.payload) ∧
      u.mem.stream.entries[id]? = some job.message ∧ (id, t) ∈ handed u.log := by
  obtain ⟨task, hp, rfl⟩ := starting_of_head hh
  have ht : (u.ph t).task = some task := by rw [hp]; rfl
  obtain ⟨hk, m, hm, hmj⟩ := hf.inv.holds ht
  obtain ⟨i, job, r, hj, rfl, -⟩ := hf.inv.sent hm
  have hknow := hf.knows t
  rw [hp] at hknow
  refine ⟨i, job, task.id, hj, ?_, hknow.2 i job hj (Option.some.inj hmj), hm, hk⟩
  exact (Option.some.inj (hf.typed ht hm)).symm

theorem Faithful.step (ha : Assigned call) (hf : Faithful json call u) {u' : St ι P} {e : Ev ι Chance (World ι)}
    (hs : ((jobs json ι).phases memory).step u e = some u') : Faithful json call u' := by
  have hinv := hf.inv.step ha hs
  cases e with
  | env e =>
    obtain ⟨m, hm, rfl⟩ := Flow.step_env _ hs
    cases e with
    | crash i =>
      cases hm
      have hlog : ∀ e, e ∈ handed (u.log ++ [.world (.crash i)]) ↔ e ∈ handed u.log := by simp [handedBy]
      have hstarted : started (u.log ++ [.world (.crash i)]) = started u.log := by
        rw [started_snoc]
        exact List.append_nil _
      refine ⟨hinv, hf.kept, ?_, ?_, hf.typed, ?_, ?_, ?_⟩
      · exact fun j => (hf.knows j).snoc rfl _
      · exact fun hj hm hnot => hf.waiting hj hm fun k hk => hnot k ((hlog _).mpr hk)
      · exact hstarted ▸ hf.once
      · exact fun hk => hstarted ▸ hf.unstarted hk
      · intro k taskType payload r hr
        have hr' : .did k (.startTask taskType payload) r ∈ u.log := by simpa using hr
        obtain ⟨i', job, id, hj, h1, h2, h3, h4⟩ := hf.starts hr'
        exact ⟨i', job, id, hj, h1, h2, h3, (hlog _).mpr h4⟩
  | run t x =>
    obtain ⟨c, k, rm, hh, hx, rfl⟩ := Flow.step_run _ hs
    change headOf json (u.ph t) = _ at hh
    have hgrow : ∀ {id : Nat} {m : Message}, u.mem.stream.entries[id]? = some m →
      rm.2.stream.entries[id]? = some m := by
      intro id m hm
      obtain ⟨more, hmore⟩ := (exec_grows hx).1
      rw [← hmore, List.getElem?_append_left (List.getElem?_eq_some_iff.mp hm).1]
      exact hm
    refine ⟨hinv, ?_, ?_, ?_, ?_, ?_, ?_, ?_⟩
    · intro i job h hj hhash
      exact (hash_step ha hf.inv hj hh hx).kept (fun _ => hf.kept hj) (fun _ => hf.there) hhash
    · exact (Phases.forall_did (Q := fun _ => Phase.Knows json call rm.2 _)).mpr
        ⟨hf.knows_own ha hh hx, fun j hne => hf.knows_other ha hne hh hx⟩
    · exact fun hj hm hnot => status_waiting ha hf hj hh hx hm hnot
    · exact fun ht hm => hf.typed_did ha hh hx ht hm
    · rw [Phases.did_log, started_snoc]
      cases hb : startedBy (.did t c rm.1 : Entry ι (Cmd P) Ans Exc (World ι)) with
      | none => simpa using hf.once
      | some j =>
        obtain ⟨taskType, payload, r, he⟩ := startedBy_some hb
        cases he
        obtain ⟨task, hp, -⟩ := starting_of_head hh
        apply List.Nodup.append hf.once (List.nodup_singleton _)
        intro k' hk' hk''
        cases List.mem_singleton.mp hk''
        exact hf.unstarted (by rw [hp]; trivial) hk'
    · intro j hj hmem
      rw [Phases.did_log, started_snoc, List.mem_append] at hmem
      by_cases hne : j = t
      · subst hne
        rw [Phases.did_ph_same] at hj
        rcases hmem with hmem | hmem
        · exact hf.unstarted (unstarted_back (hf.inv.own j) hh hj) hmem
        · obtain ⟨taskType, payload, r, he⟩ := startedBy_some (Option.mem_toList.mp hmem)
          cases he
          exact started_next hh hx hj
      · rw [Phases.did_ph_ne _ _ _ _ _ _ hne] at hj
        rcases hmem with hmem | hmem
        · exact hf.unstarted hj hmem
        · obtain ⟨taskType, payload, r, he⟩ := startedBy_some (Option.mem_toList.mp hmem)
          cases he
          exact hne rfl
    · intro j taskType payload r hr
      rcases List.mem_append.mp hr with hr | hr
      · obtain ⟨i, job, id, hj, h1, h2, h3, h4⟩ := hf.starts hr
        exact ⟨i, job, id, hj, h1, h2, hgrow h3, handed_mono h4⟩
      · cases List.mem_singleton.mp hr
        obtain ⟨i, job, id, hj, h1, h2, h3, h4⟩ := hf.starts_own hh
        exact ⟨i, job, id, hj, h1, h2, hgrow h3, handed_mono h4⟩

omit [DecidableEq ι] in
theorem faithful_start : Faithful json call ⟨Mem.init, fun i => .grouping (call i), []⟩ where
  inv := inv_start _ rfl
  kept _ h := nomatch h
  knows k := by
    show (Phase.grouping (call k)).Knows _ _ _ _
    cases call k with
    | enqueue job => rfl
    | process w => trivial
  waiting _ h := nomatch h
  typed h := nomatch h
  once := List.nodup_nil
  unstarted _ := List.not_mem_nil
  starts h := nomatch h

/-! ## What is worked on -/

omit [DecidableEq ι] in
theorem decode_dumps (hjson : ∀ p, json.loads (json.dumps p) = some p) (p : P) :
    decode json (json.dumps p) = .value p := by
  rw [decode, hjson]

omit [DecidableEq ι] in
/-- Call `k` started `process_task` for a job: it was handed the job's message. -/
def StartedFor (s : Serving ι P) (jobId : String) (k : ι) : Prop :=
  k ∈ started s.log ∧ ∃ id, (id, k) ∈ handed s.log ∧ InStream s.mem jobId id

/-- In every run, whatever crashes or fails: `process_task` is started with the task type
    and the payload of an enqueued job whose message the call was handed, and for each
    job it is started once at most. -/
theorem task_faithful (ha : Assigned call) (hjson : ∀ p, json.loads (json.dumps p) = some p) {s : Serving ι P}
    (h : (threads memory).Reach Machine.any (start Mem.init fun i => serve json (call i)) s) :
    (∀ k taskType payload r, .did k (.startTask taskType payload) r ∈ s.log →
      ∃ i job, call i = .enqueue job ∧ taskType = job.taskType ∧ payload = .value job.payload ∧
        StartedFor s job.jobId k) ∧
    (started s.log).Nodup ∧ ∀ jobId k k', StartedFor s jobId k → StartedFor s jobId k' → k = k' := by
  obtain ⟨u, hu, rfl⟩ := follows_jobs h
  have hf : Faithful json call u := hu.invariant faithful_start fun _ _ _ hf _ hs => hf.step ha hs
  refine ⟨?_, hf.once, ?_⟩
  · intro k taskType payload r hr
    obtain ⟨i, job, id, hj, h1, h2, h3, h4⟩ := hf.starts hr
    refine ⟨i, job, hj, h1, h2.trans (decode_dumps hjson _), ?_, id, h4, _, h3, rfl⟩
    exact List.mem_filterMap.mpr ⟨_, hr, rfl⟩
  · rintro jobId k k' ⟨-, id, hk, hin⟩ ⟨-, id', hk', hin'⟩
    cases hf.inv.inStream_inj hin hin'
    exact hf.inv.one_call hk hk'

/-! ## What is polled -/

def Status.rank : Status → Nat
  | .pending => 0
  | .processing => 1
  | .completed => 2
  | .failed => 3

/-- A job may go from the first status to the second: no way back, and from `COMPLETED`
    to `FAILED` only if the `COMPLETED` write raised. -/
def Later (log : Log ι P) (jobId : String) (st st' : Status) : Prop :=
  st.rank ≤ st'.rank ∧ (st = .completed → st' = .failed → CompletedRaised log jobId)

omit [DecidableEq ι] in
theorem later_refl (log : Log ι P) (jobId : String) (st : Status) : Later log jobId st st :=
  ⟨Nat.le_refl _, fun h h' => by rw [h] at h'; cases h'⟩

omit [DecidableEq ι] in
theorem Later.trans {log : Log ι P} {e : Entry ι (Cmd P) Ans Exc (World ι)} {jobId : String} {a b d : Status}
    (h : Later log jobId a b) (h' : Later (log ++ [e]) jobId b d) : Later (log ++ [e]) jobId a d := by
  refine ⟨Nat.le_trans h.1 h'.1, ?_⟩
  rintro rfl rfl
  cases b with
  | pending | processing => exact absurd h.1 (by decide)
  | completed => exact h'.2 rfl rfl
  | failed => exact (h.2 rfl rfl).snoc

/-- One step takes a job's status forward. -/
theorem Faithful.status_step (ha : Assigned call) (hf : Faithful json call u) (hj : call i = .enqueue job)
    (hh : headOf json (u.ph t) = .goes c k) (hx : memory.exec t c x u.mem = some rm) {st : Status}
    (hst : jobStatus u.mem job.jobId = some st.str) :
    ∃ st', jobStatus rm.2 job.jobId = some st'.str ∧ Later (u.log ++ [.did t c rm.1]) job.jobId st st' := by
  have hknow := hf.knows t
  have hstep := hash_step ha hf.inv hj hh hx
  obtain ⟨h', hh'⟩ : ∃ h', rm.2.hashes (jobKey job.jobId) = h' := ⟨_, rfl⟩
  have hnew : jobStatus rm.2 job.jobId = h'.bind (· .status) := by rw [← hh']; rfl
  rw [hnew]
  rw [hh'] at hstep
  have hsame : ∀ {a : Status}, jobStatus u.mem job.jobId = some a.str → a = st :=
    fun h => Status.str_inj (Option.some.inj (h.symm.trans hst))
  cases hstep with
  | same => exact ⟨st, hst, later_refl ..⟩
  | created hp =>
    rw [hp] at hknow
    have hnone : u.mem.hashes (jobKey job.jobId) = none := hknow
    rw [jobStatus, Hashes.field, hnone] at hst
    cases hst
  | status task next now result ht hid hw =>
    have hset : (u.mem.hashes.hset (jobKey job.jobId) (statusMapping next now task.w.workerId result)
        (jobKey job.jobId)).bind (· .status) = some next.str := by
      rw [Hashes.hset, Function.update_self]
      rfl
    refine ⟨next, hset, ?_⟩
    rw [← hid] at hsame ⊢
    cases hp : u.ph t with
    | claiming task' =>
      rw [hp] at hknow ht hw
      cases ht
      cases hw
      cases hsame hknow
      exact ⟨by decide, fun h => by cases h⟩
    | completing task' =>
      rw [hp] at hknow ht hw
      cases ht
      cases hw
      cases hsame hknow
      exact ⟨by decide, fun h => by cases h⟩
    | failing task' =>
      rw [hp] at hknow ht hw
      cases ht
      cases hw
      rcases hknow with hknow | ⟨hknow, hraised⟩
      · cases hsame hknow
        exact ⟨by decide, fun h => by cases h⟩
      · cases hsame hknow
        exact ⟨by decide, fun _ _ => hraised.snoc⟩
    | _ => rw [hp] at hw; cases hw

/-- A live process is answered so by `GET /case2/jobs/{job_id}`. -/
def Polls (json : Json P) (nodeId jobId : String) (m : Mem ι) (a : Answer (JobResponse P)) : Prop :=
  ∃ (j : ι) (pick : Cmd P → Chance) (m' : Mem ι), (checkJob json nodeId jobId).Ends memory j pick m (.ok a) m'

/-- What a poll answers with when the job is there. -/
def jobAnswer (nodeId : String) (job : NewJob P) (st : Status) (result workerId : Option String) :
    Answer (JobResponse P) :=
  .body ⟨nodeId, job.jobId, st.str, job.taskType, some (.value job.payload), result, workerId⟩

/-- A poll reads the hash. -/
theorem polls_read {nodeId jobId : String} {m : Mem ι} {a : Answer (JobResponse P)} (h : Polls json nodeId jobId m a) :
    (m.hashes (jobKey jobId) = none ∧ a = .httpException 404 "Job not found") ∨
      ∃ fields id, m.hashes (jobKey jobId) = some fields ∧ fields .jobId = some id ∧
        a = .body ⟨nodeId, id, (fields .status).getD "UNKNOWN", (fields .taskType).getD "",
          (fields .payload).map (decode json), fields .result, fields .workerId⟩ := by
  obtain ⟨j, pick, m', h⟩ := h
  obtain ⟨o, m₁, hx, hk⟩ := Co.Ends.of_cmd h
  have hd := exec_live hx
  simp only [memory, hd] at hx
  rcases (pick (.hgetall (jobKey jobId))).reply_cases m (.ok (m.hashes.hgetall (jobKey jobId)), m) with h' | ⟨-, e, h'⟩
  · rw [h'] at hx
    cases hx
    cases hf : m.hashes (jobKey jobId) with
    | none =>
      have hnone : m.hashes.hgetall (jobKey jobId) = none := hf
      rw [hnone] at hk
      obtain ⟨cs, hk⟩ := hk
      cases hk
      exact .inl ⟨rfl, rfl⟩
    | some fields =>
      have hsome : m.hashes.hgetall (jobKey jobId) = some fields := hf
      rw [hsome] at hk
      cases hid : fields .jobId with
      | none =>
        simp only [Co.resume, Co.ret_bind, Co.pure_eq, Option.map_some, hid] at hk
        obtain ⟨cs, hk⟩ := hk
        cases hk
      | some id =>
        simp only [Co.resume, Co.ret_bind, Co.pure_eq, Option.map_some, hid] at hk
        obtain ⟨cs, hk⟩ := hk
        cases hk
        exact .inr ⟨fields, id, rfl, hid, rfl⟩
  · have hraise : o = .error e := by rcases h' with h' | h' <;> (rw [h'] at hx; cases hx; rfl)
    subst hraise
    obtain ⟨cs, hk⟩ := hk
    cases hk

/-- A poll of an enqueued job: not there yet, or the job as submitted with its status. -/
theorem Faithful.polls (hf : Faithful json call u) (hjson : ∀ p, json.loads (json.dumps p) = some p)
    (hj : call i = .enqueue job) {nodeId : String} {a : Answer (JobResponse P)}
    (h : Polls json nodeId job.jobId u.mem a) :
    (jobStatus u.mem job.jobId = none ∧ a = .httpException 404 "Job not found") ∨
      ∃ st result workerId, jobStatus u.mem job.jobId = some (Status.str st) ∧
        a = jobAnswer nodeId job st result workerId := by
  rcases polls_read h with ⟨hnone, rfl⟩ | ⟨fields, id, hfields, hid, rfl⟩
  · refine .inl ⟨?_, rfl⟩
    rw [jobStatus, Hashes.field, hnone]
    rfl
  · have hk := hf.kept hj hfields
    obtain ⟨st, hst⟩ := hk.status
    refine .inr ⟨st, fields .result, fields .workerId, ?_, ?_⟩
    · rw [jobStatus, Hashes.field, hfields]
      exact hst
    · cases hid.symm.trans hk.jobId
      rw [hst, hk.taskType, hk.payload, Option.map_some, decode_dumps hjson]
      rfl

/-- Two polls of one job, at two moments of any run, whatever crashes or fails: once it
    was there it is there, with the same task type and the same payload, and its status
    has gone forward. -/
theorem poll_forward (ha : Assigned call) (hjson : ∀ p, json.loads (json.dumps p) = some p) {s s' : Serving ι P}
    (h : (threads memory).Reach Machine.any (start Mem.init fun i => serve json (call i)) s)
    (h' : (threads memory).Reach Machine.any s s') (hj : call i = .enqueue job) {nodeId nodeId' : String}
    {a a' : Answer (JobResponse P)} (hp : Polls json nodeId job.jobId s.mem a)
    (hp' : Polls json nodeId' job.jobId s'.mem a') :
    a = .httpException 404 "Job not found" ∨ ∃ st st' r r' w w', a = jobAnswer nodeId job st r w ∧
      a' = jobAnswer nodeId' job st' r' w' ∧ Later s'.log job.jobId st st' := by
  obtain ⟨u, hu, rfl⟩ := follows_jobs h
  have hf : Faithful json call u := hu.invariant faithful_start fun _ _ _ hf _ hs => hf.step ha hs
  rcases hf.polls hjson hj hp with ⟨-, rfl⟩ | ⟨st, r, w, hst, rfl⟩
  · exact .inl rfl
  · obtain ⟨v, hv, rfl⟩ := Flow.follows _ h'
    have hlater : Faithful json call v ∧ ∃ st', jobStatus v.mem job.jobId = some (Status.str st') ∧
        Later v.log job.jobId st st' := by
      refine hv.invariant (P := fun v => Faithful json call v ∧ ∃ st',
        jobStatus v.mem job.jobId = some (Status.str st') ∧
        Later v.log job.jobId st st') ⟨hf, st, hst, later_refl ..⟩ ?_
      intro v e v' ⟨hfv, st', hst', hl⟩ _ hs
      refine ⟨hfv.step ha hs, ?_⟩
      cases e with
      | env e =>
        obtain ⟨m, hm, rfl⟩ := Flow.step_env _ hs
        cases e with
        | crash j =>
          cases hm
          exact ⟨st', hst', hl.trans (later_refl ..)⟩
      | run t x =>
        obtain ⟨c, k, rm, hh, hx, rfl⟩ := Flow.step_run _ hs
        obtain ⟨st'', hst'', hl'⟩ := hfv.status_step ha hj hh hx hst'
        exact ⟨st'', hst'', hl.trans hl'⟩
    obtain ⟨hfv, st', hst', hl⟩ := hlater
    rcases hfv.polls hjson hj hp' with ⟨hnone, -⟩ | ⟨st'', r', w', hst'', rfl⟩
    · have hcontra : jobStatus v.mem job.jobId = none := hnone
      rw [hst'] at hcontra
      cases hcontra
    · cases Status.str_inj (Option.some.inj (hst'.symm.trans hst''))
      exact .inr ⟨st, st', r, r', w, w', rfl, rfl, hl⟩

end Fidelity

/-! ## A job from its submission to its end -/

/-- The first worker works on the job that was submitted. -/
theorem working_faithful : ∃ i job, whoCalls i = .enqueue job ∧ "resize_image" = job.taskType ∧
    Payload.value () = .value job.payload ∧ StartedFor working job.jobId .first :=
  (task_faithful whoCalls_assigned (fun _ => rfl) (working_reached.mono fun _ _ _ => trivial)).1 .first
    "resize_image" (.value ()) (.ok ()) (List.mem_of_getElem? (i := 7) rfl)

def submitted : Serving Who Unit := ((threads memory).run queueStart ([.api, .api, .api].map turn)).get rfl

def settled : Serving Who Unit :=
  ((threads memory).run submitted (List.replicate 8 (turn .first))).get rfl

theorem submitted_polled : Polls unitJson "n1" "a" submitted.mem (jobAnswer "n1" resize .pending (some "") (some "")) :=
  ⟨.second, fun _ => ⟨none, .ok ""⟩, _, _, rfl⟩

theorem settled_polled :
    Polls unitJson "n2" "a" settled.mem (jobAnswer "n2" resize .completed (some "done") (some "w1")) :=
  ⟨.second, fun _ => ⟨none, .ok ""⟩, _, _, rfl⟩

/-- A poll before and a poll after the work. -/
theorem settled_forward : (jobAnswer "n1" resize .pending (some "") (some "") : Answer (JobResponse Unit)) =
      .httpException 404 "Job not found" ∨
    ∃ st st' r r' w w', jobAnswer "n1" resize .pending (some "") (some "") = jobAnswer "n1" resize st r w ∧
      jobAnswer "n2" resize .completed (some "done") (some "w1") = jobAnswer "n2" resize st' r' w' ∧
      Later settled.log "a" st st' :=
  have hall : ∀ (es : List (Ev Who Chance (World Who))) (s s' : Serving Who Unit), (threads memory).run s es = some s' →
      (threads memory).Reach Machine.any s s' := fun es _ _ h => Machine.reach_any_of_run es h
  poll_forward whoCalls_assigned (fun _ => rfl) (i := .api) (hall _ _ _ (Option.some_get rfl).symm)
    (hall _ _ _ (Option.some_get rfl).symm) rfl submitted_polled settled_polled

/-- The `COMPLETED` write takes effect and its reply is lost. -/
def replyLost : Ev Who Chance (World Who) := .run .first ⟨some (true, .exception "Connection lost"), .ok ""⟩

def shownCompleted : Serving Who Unit := ((threads memory).run working [turn .first, replyLost]).get rfl

/-- A client may see `COMPLETED`, and `FAILED` after it. -/
example : ∃ s : Serving Who Unit, (threads memory).step shownCompleted (turn .first) = some s ∧
    jobStatus shownCompleted.mem "a" = some "COMPLETED" ∧ jobStatus s.mem "a" = some "FAILED" :=
  ⟨_, rfl, rfl, rfl⟩

end Playground.Queue
