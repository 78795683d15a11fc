/-
  Playground.Queue.Stranded — what a worker that stops leaves behind.

  A message that was handed to a call is never handed to another: no code reads the
  pending list again. So a call that crashes, or has a Redis command fail, may leave its
  job `PENDING` or `PROCESSING` for good.
  - `crash_strands`: one that does.
  - `stranded_jobs`: when all live workers are idle and a poll finds nothing, that is
    the only way an enqueued job is unfinished, and no later step finishes it.
-/

import Playground.Queue.Delivery

namespace Playground.Queue

open Playground.Lib Playground.Redis

section Stranded

variable {ι P : Type}

/-! ## Stopped and idle workers -/

/-- Every live `process_one_job` is over, or has not been handed a message. -/
def Idle (call : ι → Call P) (s : Serving ι P) : Prop :=
  ∀ k w, call k = .process w → s.mem.dead k = true ∨ (∃ a, s.thr k = .ret a) ∨ (∃ e, s.thr k = .raise e) ∨
    ∀ id, (id, k) ∉ handed s.log

/-- A poll with `>` returns nothing. -/
def Drained (m : Mem ι) : Prop := ∀ consumer, ∃ s, m.stream.xreadgroup consumer 1 = some ([], s)

def Unfinished (m : Mem ι) (jobId : String) : Prop :=
  jobStatus m jobId = some Status.pending.str ∨ jobStatus m jobId = some Status.processing.str

/-- The Redis commands past `ensure_consumer_group`. -/
def Cmd.redis : Cmd P → Prop
  | .xgroupCreate | .startTask .. | .awaitTask => False
  | _ => True

/-- A Redis command of the call failed, or it was cancelled. -/
def Failed (log : Log ι P) (k : ι) : Prop :=
  ∃ c e, Entry.did k c (.error e) ∈ log ∧ (c.redis ∨ e = .cancelled)

/-- Entry `id` was handed to a read whose reply was lost. -/
def Lost (call : ι → Call P) (log : Log ι P) (m : Mem ι) (id : Nat) : Prop :=
  ∃ k w e, call k = .process w ∧ Entry.did k (.xreadgroup w.workerId 1) (.error e) ∈ log ∧
    (id, w.workerId) ∈ m.stream.pending

/-- The delivery of the job's message was interrupted: the call that was handed it
    crashed or failed, or the reply that handed it out was lost. -/
def Interrupted (call : ι → Call P) (s : Serving ι P) (jobId : String) : Prop :=
  ∃ id, InStream s.mem jobId id ∧
    ((∃ k, (id, k) ∈ handed s.log ∧ (s.mem.dead k = true ∨ Failed s.log k)) ∨
      ((∀ k, (id, k) ∉ handed s.log) ∧ Lost call s.log s.mem id))

/-! ## The invariant -/

/-- Past the writes of its message. -/
def Phase.past : Phase P → Prop
  | .acking .. | .ended _ => True
  | _ => False

structure Watched (call : ι → Call P) (u : St ι P) : Prop where
  inv : Inv call u
  /-- A call that does not fail finishes the job before it is past it. -/
  settled : ∀ {id : Nat} {k i job}, call i = .enqueue job → u.mem.stream.entries[id]? = some job.message →
    (id, k) ∈ handed u.log → ¬ Failed u.log k → (u.ph k).past → Terminal u.mem job.jobId
  covered : ∀ {id}, id < u.mem.stream.cursor → (∃ k, (id, k) ∈ handed u.log) ∨ Lost call u.log u.mem id

theorem watched_start {call : ι → Call P} : Watched call ⟨Mem.init, fun i => .grouping (call i), []⟩ where
  inv := inv_start _ rfl
  settled _ _ h := nomatch h
  covered h := nomatch h

variable [DecidableEq ι] {json : Json P} {call : ι → Call P} {u : St ι P} {i t : ι} {job : NewJob P} {c : Cmd P}
  {k : Except Exc (Ans c) → Phase P} {x : Chance} {m : Mem ι} {rm : Except Exc (Ans c) × Mem ι}

/-! ## What a step changes -/

omit [DecidableEq ι] in
/-- A call writes the hash of its own job, or of the job of the message it is at. -/
theorem key_of_head {p : Phase P} {key : String} {mapping : List (Field × String)}
    {k : Except Exc Unit → Phase P} (hh : headOf json p = .goes (.hset key mapping) k) :
    (∃ job, p = .writing job ∧ key = jobKey job.jobId) ∨ ∃ task, p.task = some task ∧ key = jobKey task.jobId := by
  cases p with
  | writing job => cases hh; exact .inl ⟨job, rfl, rfl⟩
  | claiming task | completing task | failing task => cases hh; exact .inr ⟨task, rfl, rfl⟩
  | grouping | sending | reading | blank | loading | starting | working | acking | ended => cases hh

omit [DecidableEq ι] in
/-- A call whose next command is an `XACK` is at the message it names. -/
theorem acking_of_head {p : Phase P} {cl : Call P} {id : Nat} {k : Except Exc Unit → Phase P} (hof : p.Of cl)
    (hh : headOf json p = .goes (.xack id) k) : ∃ task r, p = .acking task r ∧ task.id = id := by
  cases p with
  | acking task r => cases hh; exact ⟨task, r, rfl, rfl⟩
  | blank => exact hof.elim
  | grouping | writing | sending | reading | claiming | loading | starting | working | completing | failing | ended =>
    cases hh

/-- A command writes no hash but an `HSET`'s key. -/
theorem exec_hashes (hx : memory.exec i c x m = some rm) :
    rm.2.hashes = m.hashes ∨ ∃ key mapping, c = .hset key mapping ∧ rm.2.hashes = m.hashes.hset key mapping := by
  have hd := exec_live hx
  refine exec_keeps (Q := fun m' => m'.hashes = m.hashes ∨ ∃ key mapping, c = .hset key mapping ∧
    m'.hashes = m.hashes.hset key mapping) hx (.inl rfl) ?_
  intro rm' hx'
  simp only [memory, hd, Chance.reply] at hx'
  cases hx'
  cases c with
  | hset key mapping => exact .inr ⟨key, mapping, rfl, rfl⟩
  | xgroupCreate | xreadgroup =>
    simp only
    split <;> exact .inl rfl
  | hgetall | xadd | xack | startTask | awaitTask => exact .inl rfl

/-- An `HSET` that did not fail has written. -/
theorem hset_ok {key : String} {mapping : List (Field × String)} {m' : Mem ι}
    (hx : (memory (P := P)).exec i (.hset key mapping) x m = some (.ok (), m')) :
    m'.hashes = m.hashes.hset key mapping := by
  have hd := exec_live hx
  simp only [memory, hd] at hx
  rcases x.reply_cases m (.ok (), { m with hashes := m.hashes.hset key mapping }) with h | ⟨-, e, h | h⟩ <;>
    (rw [h] at hx; cases hx)
  rfl

/-- A command takes nothing off the pending list but an `XACK`'s message. -/
theorem exec_pending (hx : memory.exec i c x m = some rm) {e : Nat × String} (he : e ∈ m.stream.pending) :
    e ∈ rm.2.stream.pending ∨ c = .xack e.1 := by
  have hd := exec_live hx
  refine exec_keeps (Q := fun m' => e ∈ m'.stream.pending ∨ c = .xack e.1) hx (.inl he) ?_
  intro rm' hx'
  simp only [memory, hd, Chance.reply] at hx'
  cases hx'
  cases c with
  | xack id =>
    by_cases hid : e.1 = id
    · exact .inr (by rw [hid])
    · exact .inl (Stream.mem_pending_xack.mpr ⟨he, hid⟩)
  | xgroupCreate =>
    cases hg : m.stream.xgroupCreate with
    | none => exact .inl he
    | some s => exact .inl ((Stream.xgroupCreate_same hg).2.2 ▸ he)
  | xreadgroup w n =>
    simp only
    cases hr : m.stream.xreadgroup w n with
    | none => exact .inl he
    | some rs => exact .inl (Stream.pending_xreadgroup hr he)
  | hset | hgetall | xadd | startTask | awaitTask => exact .inl he

/-- What a step hands out: the entry at the cursor, to a call that is at its read. -/
theorem handed_step (ha : Assigned call) (hi : Inv call u) (hh : headOf json (u.ph t) = .goes c k)
    (hx : memory.exec t c x u.mem = some rm) {e : Nat × ι} {p : Phase P} (he : e ∈ handed (u.did t c rm.1 rm.2 p).log) :
    e ∈ handed u.log ∨ (e = (u.mem.stream.cursor, t) ∧ (∃ w, u.ph t = .reading w) ∧ ¬ (k rm.1).past) := by
  rw [Phases.did_log, handed_snoc, List.mem_append] at he
  apply he.imp_right
  intro he
  cases hp : u.ph t with
  | reading w =>
    rw [hp] at hh
    cases hh
    obtain ⟨-, -, ⟨hr, -⟩ | ⟨-, ⟨e', hr⟩, -⟩ | ⟨j, job, hj, -, hr, -⟩⟩ := exec_read hi hx
    · rcases hr with hr | ⟨e', hr⟩ <;> (rw [hr] at he; cases he)
    · rw [hr] at he
      cases he
    · rw [hr] at he ⊢
      refine ⟨List.mem_singleton.mp he, ⟨w, rfl⟩, ?_⟩
      show ¬ (Phase.read w [(u.mem.stream.cursor, job.message)]).past
      have hne : job.jobId ≠ "" := ha.job_ne hj
      simp [Phase.read, Phase.enter, NewJob.message, hne, Phase.past]
  | ended => rw [hp] at hh; cases hh
  | _ => rw [hp] at hh; cases hh; cases he

/-- The hash of a job that is in the stream is written by the call at its message
    alone. -/
theorem hash_other (ha : Assigned call) (hi : Inv call u) (hj : call i = .enqueue job) {id : Nat}
    (hm : u.mem.stream.entries[id]? = some job.message) (hnot : (id, t) ∉ handed u.log)
    (hh : headOf json (u.ph t) = .goes c k) (hx : memory.exec t c x u.mem = some rm) :
    rm.2.hashes (jobKey job.jobId) = u.mem.hashes (jobKey job.jobId) := by
  rcases exec_hashes hx with h | ⟨key, mapping, rfl, h⟩
  · rw [h]
  · rw [h]
    apply Hashes.hset_ne _ _
    intro he
    rcases key_of_head hh with ⟨job', hp, rfl⟩ | ⟨task, ht, rfl⟩
    · have hof := hi.own t
      rw [hp] at hof
      cases ha.distinct hof hj (jobKey_inj he).symm
      obtain ⟨r, hr⟩ := hi.sender_ended ha hj hm
      rw [hp] at hr
      cases hr
    · obtain ⟨hk, hin⟩ := hi.holds ht
      rw [← jobKey_inj he] at hin
      cases hi.inStream_inj hin ⟨job.message, hm, rfl⟩
      exact hnot hk

omit [DecidableEq ι] in
theorem Failed.snoc {log : Log ι P} {j : ι} {e : Entry ι (Cmd P) Ans Exc (World ι)} (h : Failed log j) :
    Failed (log ++ [e]) j := by
  obtain ⟨c, x, hm, hc⟩ := h
  exact ⟨c, x, List.mem_append_left _ hm, hc⟩

omit [DecidableEq ι] in
theorem failed_last {log : Log ι P} {e : Exc} (hc : c.redis ∨ e = .cancelled) :
    Failed (log ++ [.did t c (.error e)]) t :=
  ⟨c, e, List.mem_append_right _ (List.mem_singleton.mpr rfl), hc⟩

/-- A terminal status write that did not fail. -/
theorem terminal_of_hset {task : Task} {last : Status} {now result : String} {m' : Mem ι}
    (hl : last = .completed ∨ last = .failed)
    (hx : (memory (P := P)).exec t (.hset (jobKey task.jobId) (statusMapping last now task.w.workerId result)) x m =
      some (.ok (), m')) : Terminal m' task.jobId := by
  have hs : jobStatus m' task.jobId = some last.str := by
    rw [jobStatus, hset_ok hx, Hashes.field_hset_same]
    rfl
  rcases hl with rfl | rfl
  · exact .inl hs
  · exact .inr hs

/-- A call at a message that does not fail is past it with its job finished. -/
theorem settle_own {task : Task} (ht : (u.ph t).task = some task) (hh : headOf json (u.ph t) = .goes c k)
    (hx : memory.exec t c x u.mem = some rm) (hlive : ¬ Failed (u.log ++ [.did t c rm.1]) t) (hpast : (k rm.1).past)
    (hold : (u.ph t).past → Terminal u.mem task.jobId) : Terminal rm.2 task.jobId := by
  obtain ⟨r, m⟩ := rm
  cases hp : u.ph t with
  | grouping | writing | sending | reading | blank | ended => rw [hp] at ht; cases ht
  | claiming | loading =>
    rw [hp] at hh
    cases hh
    cases r with
    | ok a => exact hpast.elim
    | error e => exact (hlive (failed_last (.inl trivial))).elim
  | starting =>
    rw [hp] at hh
    cases hh
    have hd := exec_live hx
    simp only [memory, hd] at hx
    cases hx
    exact hpast.elim
  | working =>
    rw [hp] at hh
    cases hh
    cases r with
    | ok a => exact hpast.elim
    | error e =>
      cases e with
      | exception str => exact hpast.elim
      | cancelled => exact (hlive (failed_last (.inr rfl))).elim
  | completing | failing =>
    rw [hp] at hh ht
    cases hh
    cases ht
    cases r with
    | ok a => exact terminal_of_hset (by simp) hx
    | error e => exact (hlive (failed_last (.inl trivial))).elim
  | acking =>
    rw [hp] at hh ht hold
    cases hh
    cases ht
    have hsame : m.hashes = u.mem.hashes := by
      rcases exec_hashes hx with h | ⟨key, mapping, h, -⟩
      · exact h
      · cases h
    have hterm := hold trivial
    unfold Terminal jobStatus at hterm ⊢
    rwa [hsame]

/-- What the stream holds and what was handed out stay so. -/
theorem exec_grows (hx : memory.exec i c x m = some rm) :
    m.stream.entries <+: rm.2.stream.entries ∧ m.stream.cursor ≤ rm.2.stream.cursor := by
  have hd := exec_live hx
  by_cases hc : c.quiet
  · obtain ⟨hent, hcur⟩ := exec_quiet hc hx
    exact ⟨hent ▸ List.prefix_rfl, Nat.le_of_eq hcur.symm⟩
  · refine exec_keeps (Q := fun m' => m.stream.entries <+: m'.stream.entries ∧ m.stream.cursor ≤ m'.stream.cursor) hx
      ⟨List.prefix_rfl, Nat.le_refl _⟩ ?_
    intro rm' hx'
    simp only [memory, hd, Chance.reply] at hx'
    cases hx'
    cases c with
    | xadd data => exact ⟨List.prefix_append .., Nat.le_refl _⟩
    | xreadgroup w n =>
      simp only
      cases hr : m.stream.xreadgroup w n with
      | none => exact ⟨List.prefix_rfl, Nat.le_refl _⟩
      | some rs =>
        obtain ⟨hent, hcur⟩ := Stream.xreadgroup_grows hr
        exact ⟨hent ▸ List.prefix_rfl, hcur⟩
    | _ => exact absurd trivial hc

/-! ## Every step keeps the invariant -/

/-- A call that does not fail and is past its message after a step has finished the
    job. -/
theorem Watched.settled_did (ha : Assigned call) (hw : Watched call u) (hh : headOf json (u.ph t) = .goes c k)
    (hx : memory.exec t c x u.mem = some rm) {id : Nat} {j : ι} (hj : call i = .enqueue job)
    (hm : rm.2.stream.entries[id]? = some job.message) (hk : (id, j) ∈ handed (u.did t c rm.1 rm.2 (k rm.1)).log)
    (hf : ¬ Failed (u.log ++ [.did t c rm.1]) j) (hp : ((u.did t c rm.1 rm.2 (k rm.1)).ph j).past) :
    Terminal rm.2 job.jobId := by
  have hi := hw.inv
  rcases handed_step ha hi hh hx hk with hold | ⟨he, -, hnot⟩
  · have hlt : id < u.mem.stream.entries.length := by
      have := (hi.before hold).1
      have := hi.cursor_le
      omega
    have hm' : u.mem.stream.entries[id]? = some job.message := by
      obtain ⟨more, hmore⟩ := (exec_grows hx).1
      rwa [← hmore, List.getElem?_append_left hlt] at hm
    by_cases e : j = t
    · subst e
      rw [Phases.did_ph_same] at hp
      obtain ⟨task, ht, rfl⟩ := hi.task_of_handed hold (running hh)
      obtain ⟨-, message, hm'', he⟩ := hi.holds ht
      cases hm'.symm.trans hm''
      have hid : job.jobId = task.jobId := Option.some.inj he
      rw [hid]
      refine settle_own ht hh hx hf hp fun hp' => hid ▸ ?_
      exact hw.settled hj hm' hold (fun h => hf h.snoc) hp'
    · rw [Phases.did_ph_ne _ _ _ _ _ _ e] at hp
      have hnot : (id, t) ∉ handed u.log := fun h => e (hi.one_call hold h)
      have hterm := hw.settled hj hm' hold (fun h => hf h.snoc) hp
      unfold Terminal jobStatus Hashes.field at hterm ⊢
      rwa [hash_other ha hi hj hm' hnot hh hx]
  · cases he
    rw [Phases.did_ph_same] at hp
    exact absurd hp hnot

/-- What a read has handed out is known to have reached a call, or is lost, after a step
    as before it. -/
theorem Watched.covered_did (hw : Watched call u) (hh : headOf json (u.ph t) = .goes c k)
    (hx : memory.exec t c x u.mem = some rm) {id : Nat} (hid : id < u.mem.stream.cursor) :
    (∃ j, (id, j) ∈ handed (u.did t c rm.1 rm.2 (k rm.1)).log) ∨ Lost call (u.log ++ [.did t c rm.1]) rm.2 id := by
  have hi := hw.inv
  by_cases hj : ∃ j, (id, j) ∈ handed u.log
  · exact .inl (hj.imp fun _ => handed_mono)
  · obtain ⟨j, w, e, hcall, he, hp⟩ := (hw.covered hid).resolve_left hj
    refine .inr ⟨j, w, e, hcall, List.mem_append_left _ he, ?_⟩
    rcases exec_pending hx hp with hp | rfl
    · exact hp
    · -- an acknowledged message was handed to the call
      obtain ⟨task, r, hphase, rfl⟩ := acking_of_head (hi.own t) hh
      have ht : (u.ph t).task = some task := by rw [hphase]; rfl
      exact absurd ⟨t, (hi.holds ht).1⟩ hj

/-- And so is what the step itself hands out. -/
theorem Watched.covered_new (hw : Watched call u) (hok : WorkersFail call ((jobs json ι).threadsOf u) (.run t x))
    (hh : headOf json (u.ph t) = .goes c k) (hx : memory.exec t c x u.mem = some rm) {id : Nat}
    (hid : id < rm.2.stream.cursor) (hnew : u.mem.stream.cursor ≤ id) :
    (∃ j, (id, j) ∈ handed (u.did t c rm.1 rm.2 (k rm.1)).log) ∨ Lost call (u.log ++ [.did t c rm.1]) rm.2 id := by
  by_cases hc : c.quiet
  · rw [(exec_quiet hc hx).2] at hid
    omega
  · have hof := hw.inv.own t
    cases hp : u.ph t with
    | sending job =>
      rw [hp] at hh hof
      cases hh
      cases exec_send (sender_fault hok hof) hx
      exact absurd hid (Nat.not_lt.mpr hnew)
    | reading w =>
      rw [hp] at hh hof
      cases hh
      obtain ⟨-, -, ⟨-, hst⟩ | ⟨-, ⟨e, hr⟩, -, hcur, hpend⟩ | ⟨j, job, -, -, hr, hcur, -⟩⟩ := exec_read hw.inv hx
      · rw [hst] at hid
        omega
      · obtain rfl : id = u.mem.stream.cursor := by omega
        refine .inr ⟨t, w, e, hof, ?_, ?_⟩
        · rw [hr]
          exact List.mem_append_right _ (List.mem_singleton.mpr rfl)
        · rw [hpend]
          exact List.mem_append_right _ (List.mem_singleton.mpr rfl)
      · obtain rfl : id = u.mem.stream.cursor := by omega
        refine .inl ⟨t, ?_⟩
        rw [Phases.did_log, handed_snoc, hr]
        exact List.mem_append_right _ (List.mem_singleton.mpr rfl)
    | ended => exact absurd hp (running hh _)
    | _ => rw [hp] at hh; cases hh; exact absurd trivial hc

theorem Watched.step (ha : Assigned call) (hw : Watched call u) {u' : St ι P} {e : Ev ι Chance (World ι)}
    (hok : WorkersFail call ((jobs json ι).threadsOf u) e)
    (hs : ((jobs json ι).phases memory).step u e = some u') : Watched call u' := by
  have hinv := hw.inv.step ha hs
  cases e with
  | env e =>
    obtain ⟨m, hm, rfl⟩ := Flow.step_env _ hs
    cases e with
    | crash i =>
      cases hm
      have hlog : handed (u.moved (.crash i) { u.mem with dead := Function.update u.mem.dead i true }).log =
          handed u.log := by
        rw [Phases.moved_log, handed_snoc]
        exact List.append_nil _
      refine ⟨hinv, ?_, ?_⟩
      · intro id k j job hj hm hk hf hp
        exact hw.settled hj hm (hlog ▸ hk) (fun h => hf h.snoc) hp
      · intro id hid
        rw [hlog]
        refine (hw.covered hid).imp_right fun ⟨k, w, e, hk, he, hp⟩ => ⟨k, w, e, hk, ?_, hp⟩
        exact List.mem_append_left _ he
  | run t x =>
    obtain ⟨c, k, rm, hh, hx, rfl⟩ := Flow.step_run _ hs
    refine ⟨hinv, ?_, ?_⟩
    · intro id j i job hj hm hk hf hp
      exact hw.settled_did ha hh hx hj hm hk hf hp
    · intro id hid
      by_cases hlt : id < u.mem.stream.cursor
      · exact hw.covered_did hh hx hlt
      · exact hw.covered_new hok hh hx hid (Nat.not_lt.mp hlt)

/-! ## An interrupted job -/

/-- Since `u`, nobody has been handed the job's message, and who had it has stopped. -/
structure Abandoned (call : ι → Call P) (job : NewJob P) (id : Nat) (u v : St ι P) : Prop where
  inv : Inv call v
  there : v.mem.stream.entries[id]? = some job.message
  out : id < v.mem.stream.cursor
  hash : v.mem.hashes (jobKey job.jobId) = u.mem.hashes (jobKey job.jobId)
  same : ∀ {k}, (id, k) ∈ handed v.log → (id, k) ∈ handed u.log
  stopped : ∀ {k}, (id, k) ∈ handed v.log → v.mem.dead k = true ∨ ∃ r, v.ph k = .ended r

theorem Abandoned.step (ha : Assigned call) (hj : call i = .enqueue job) {id : Nat} {v v' : St ι P}
    (hv : Abandoned call job id u v) {e : Ev ι Chance (World ι)}
    (hok : WorkersFail call ((jobs json ι).threadsOf v) e)
    (hs : ((jobs json ι).phases memory).step v e = some v') : Abandoned call job id u v' := by
  have hinv := hv.inv.step ha hs
  cases e with
  | env e =>
    obtain ⟨m, hm, rfl⟩ := Flow.step_env _ hs
    cases e with
    | crash j =>
      cases hm
      have hlog : ∀ {k}, (id, k) ∈ handed (v.log ++ [.world (.crash j)]) →
          (id, k) ∈ handed v.log := by
        intro k h
        simpa [handedBy] using h
      refine ⟨hinv, hv.there, hv.out, hv.hash, fun h => hv.same (hlog h), ?_⟩
      intro k h
      apply (hv.stopped (hlog h)).imp_left
      intro hd
      by_cases e : k = j
      · simp [e]
      · simpa [e] using hd
  | run t x =>
    obtain ⟨c, k, rm, hh, hx, rfl⟩ := Flow.step_run _ hs
    change headOf json (v.ph t) = _ at hh
    have hdead := exec_dead hx
    have hlive := exec_live hx
    have hnot : (id, t) ∉ handed v.log := by
      intro h
      rcases hv.stopped h with hd | ⟨r, hr⟩
      · rw [hlive] at hd
        cases hd
      · rw [hr] at hh
        cases hh
    have hlog : ∀ {j}, (id, j) ∈ handed (v.did t c rm.1 rm.2 (k rm.1)).log → (id, j) ∈ handed v.log := by
      intro j h
      rcases handed_step ha hv.inv hh hx h with h | ⟨h, -⟩
      · exact h
      · cases h
        have := hv.out
        omega
    obtain ⟨⟨more, hmore⟩, hcur⟩ := exec_grows hx
    have hout : id < rm.2.stream.cursor := by
      have := hv.out
      omega
    refine ⟨hinv, ?_, hout, ?_, fun h => hv.same (hlog h), ?_⟩
    · rw [Phases.did_mem, ← hmore, List.getElem?_append_left (List.getElem?_eq_some_iff.mp hv.there).1]
      exact hv.there
    · rw [Phases.did_mem, hash_other ha hv.inv hj hv.there hnot hh hx]
      exact hv.hash
    · intro j h
      have hne : j ≠ t := fun e => hnot (e ▸ hlog h)
      rw [Phases.did_mem, hdead, Phases.did_ph_ne _ _ _ _ _ _ hne]
      exact hv.stopped (hlog h)

omit [DecidableEq ι] in
theorem Terminal.finished {m : Mem ι} {jobId : String} (h : Terminal m jobId) : ¬ Unfinished m jobId := by
  intro hu
  have hne : ∀ a b : Status, jobStatus m jobId = some a.str → jobStatus m jobId = some b.str → a = b :=
    fun a b h h' => Status.str_inj (Option.some.inj (h.symm.trans h'))
  rcases h with h | h <;> rcases hu with h' | h' <;> cases hne _ _ h h'

/-- When every live worker is idle and a poll finds nothing, an enqueued job that is
    unfinished is one whose delivery was interrupted, and whatever runs from there on,
    its status stays as it is and nobody is handed its message. -/
theorem stranded_jobs (ha : Assigned call) {s : Serving ι P}
    (h : (threads memory).Reach (WorkersFail call) (start Mem.init fun i => serve json (call i)) s)
    (hidle : Idle call s) (hdrained : Drained s.mem) {r : Reply} (hj : call i = .enqueue job) (hret : s.thr i = .ret r)
    (hun : Unfinished s.mem job.jobId) :
    Interrupted call s job.jobId ∧ ∀ s', (threads memory).Reach (WorkersFail call) s s' →
      jobStatus s'.mem job.jobId = jobStatus s.mem job.jobId ∧
        ∀ id k, InStream s'.mem job.jobId id → (id, k) ∈ handed s'.log → (id, k) ∈ handed s.log := by
  obtain ⟨u, hu, rfl⟩ := follows_jobs h
  have hw : Watched call u := hu.invariant watched_start fun _ _ _ hw hok hs => hw.step ha hok hs
  obtain ⟨id, hm⟩ := hw.inv.arrived hj (ended_of_ret hret)
  have hout : id < u.mem.stream.cursor := by
    obtain ⟨s', hs'⟩ := hdrained ""
    rcases Stream.xreadgroup_one hs' with ⟨-, -, hlen⟩ | ⟨_, _, hnew, _⟩
    · have hlt := (List.getElem?_eq_some_iff.mp hm).1
      change u.mem.stream.entries.length ≤ u.mem.stream.cursor at hlen
      omega
    · cases hnew
  have hstopped : ∀ {k}, (id, k) ∈ handed u.log → u.mem.dead k = true ∨ ∃ r, u.ph k = .ended r := by
    intro k hk
    obtain ⟨-, w, hcall⟩ := hw.inv.before hk
    rcases hidle k w hcall with hd | ⟨a, hr⟩ | ⟨e, hr⟩ | hnot
    · exact .inl hd
    · exact .inr ⟨_, ended_of_ret hr⟩
    · exact .inr ⟨_, ended_of_raise hr⟩
    · exact absurd hk (hnot id)
  constructor
  · refine ⟨id, ⟨_, hm, rfl⟩, ?_⟩
    by_cases hk : ∃ k, (id, k) ∈ handed u.log
    · obtain ⟨k, hk⟩ := hk
      refine .inl ⟨k, hk, ?_⟩
      rcases hstopped hk with hd | ⟨r, hr⟩
      · exact .inl hd
      · refine .inr (by_contra fun hf => ?_)
        exact (hw.settled hj hm hk hf (by rw [hr]; trivial)).finished hun
    · refine .inr ⟨fun k h => hk ⟨k, h⟩, ?_⟩
      exact (hw.covered hout).resolve_left hk
  · intro s' hs'
    obtain ⟨v, hv, rfl⟩ := Flow.follows _ hs'
    have hab : Abandoned call job id u v :=
      hv.invariant ⟨hw.inv, hm, hout, rfl, fun h => h, hstopped⟩ fun _ _ _ hab hok hs => hab.step ha hj hok hs
    constructor
    · show (v.mem.hashes (jobKey job.jobId)).bind _ = (u.mem.hashes (jobKey job.jobId)).bind _
      rw [hab.hash]
    · intro id' k hin hk
      cases hab.inv.inStream_inj hin ⟨_, hab.there, rfl⟩
      exact hab.same hk

end Stranded

/-! ## A worker that dies -/

/-- The first worker dies once it has set the status to `PROCESSING`. -/
def crashRun : List (Ev Who Chance (World Who)) :=
  [.api, .api, .api, .first, .first, .first].map turn ++ [.env (.crash .first)]

def queueStart : Serving Who Unit := start Mem.init fun i => serve unitJson (whoCalls i)

def crashed : Serving Who Unit := ((threads memory).run queueStart crashRun).get rfl

/-- Then the second polls. -/
def polled : Serving Who Unit := ((threads memory).run crashed ([.second, .second].map turn)).get rfl

theorem turns_allowed (is : List Who) (s : Serving Who Unit) : ∀ e ∈ is.map turn, WorkersFail whoCalls s e := by
  intro e he
  obtain ⟨i, -, rfl⟩ := List.mem_map.mp he
  exact fun h => absurd rfl h

theorem crashed_reached : (threads memory).Reach (WorkersFail whoCalls) queueStart crashed := by
  refine Machine.reach_of_run crashRun ?_ (Option.some_get rfl).symm
  intro s e he
  rcases List.mem_append.mp he with he | he
  · exact turns_allowed _ s e he
  · cases List.mem_singleton.mp he
    exact ⟨worker "w1", rfl⟩

theorem polled_reached : (threads memory).Reach (WorkersFail whoCalls) crashed polled :=
  Machine.reach_of_run _ (turns_allowed _) (Option.some_get rfl).symm

theorem crashed_handed : handed crashed.log = [(0, .first)] := rfl

theorem crashed_idle : Idle whoCalls crashed := by
  intro k w hk
  cases k with
  | api => cases hk
  | first => exact .inl rfl
  | second =>
    refine .inr (.inr (.inr fun id h => ?_))
    rw [crashed_handed] at h
    cases List.mem_singleton.mp h

/-- All live workers are idle, a poll finds nothing, and the job is `PROCESSING`. -/
theorem crash_strands : (threads memory).Reach (WorkersFail whoCalls) queueStart polled ∧ Idle whoCalls polled ∧
    Drained polled.mem ∧ polled.thr .api = .ret (.jobId "a") ∧ jobStatus polled.mem "a" = some "PROCESSING" := by
  refine ⟨crashed_reached.trans polled_reached, ?_, fun consumer => ⟨_, rfl⟩, rfl, rfl⟩
  intro k w hk
  cases k with
  | api => cases hk
  | first => exact .inl rfl
  | second => exact .inr (.inl ⟨_, rfl⟩)

/-- The next poll does not get the message, nor change the job's status. -/
theorem crashed_interrupted : Interrupted whoCalls crashed "a" ∧
    jobStatus polled.mem "a" = jobStatus crashed.mem "a" ∧
      ∀ id k, InStream polled.mem "a" id → (id, k) ∈ handed polled.log → (id, k) ∈ handed crashed.log :=
  have h := stranded_jobs whoCalls_assigned (i := .api) crashed_reached crashed_idle (fun _ => ⟨_, rfl⟩) rfl rfl
    (.inr rfl)
  ⟨h.1, h.2 polled polled_reached⟩

end Playground.Queue
