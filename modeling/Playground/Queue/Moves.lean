/-
  Playground.Queue.Moves — what a step of a call is while nothing fails.

  `move_of_step` lists the steps, each with the state it leaves; the invariants are
  proved from that list. `Move.did` and `Move.cursor` say what a step leaves of the
  starts, the acknowledgements and the group.
-/

import Playground.Queue.Delivery

namespace Playground.Queue

open Playground.Lib Playground.Redis

section Moves

variable {ι P : Type}

/-- Nothing crashes, fails or is cancelled. -/
def NoFailure (_ : Serving ι P) : Ev ι Chance (World ι) → Prop
  | .run _ x => x.fault = none ∧ x.outcome ≠ .error .cancelled
  | .env _ => False

/-- Before it has started `process_task`. -/
def Phase.unstarted : Phase P → Prop
  | .grouping _ | .writing _ | .sending _ | .reading _ | .claiming _ | .loading _ | .starting .. => True
  | _ => False

variable [DecidableEq ι] {call : ι → Call P} {u : St ι P} {i : ι}

/-! ## What a step is while nothing fails -/

/-- Between its two status writes. -/
def Phase.processing (t : Task) : Phase P → Prop
  | .loading t' | .starting t' _ | .working t' | .completing t' _ | .failing t' _ => t' = t
  | _ => False

/-- A memory that differs in no job. -/
def SameJobs (m m' : Mem ι) : Prop :=
  m'.hashes = m.hashes ∧ m'.stream.entries = m.stream.entries ∧ m'.stream.cursor = m.stream.cursor ∧
    m'.stream.pending = m.stream.pending

/-- The steps of call `t` while nothing fails. -/
inductive Move (json : Json P) (call : ι → Call P) (u : St ι P) (t : ι) : St ι P → Prop where
  | group (m : Mem ι) (r : Except Exc Unit) (hp : u.ph t = .grouping (call t)) (hm : SameJobs u.mem m) :
    Move json call u t (u.did t .xgroupCreate r m (.afterGroup (call t)))
  | write (job : NewJob P) (hp : u.ph t = .writing job) :
    Move json call u t (u.did t (.hset (jobKey job.jobId) (job.data json)) (.ok ())
      { u.mem with hashes := u.mem.hashes.hset (jobKey job.jobId) (job.data json) } (.sending job))
  | send (job : NewJob P) (hp : u.ph t = .sending job) :
    Move json call u t (u.did t (.xadd job.message) (.ok u.mem.stream.entries.length)
      { u.mem with stream := (u.mem.stream.xadd job.message).2 } (.ended (.ok (.jobId job.jobId))))
  | miss (w : Worker) (r : Except Exc (List (Nat × Message))) (res : Except Exc Reply) (hp : u.ph t = .reading w)
    (hr : r = .ok [] ∨ ∃ e, r = .error e) :
    Move json call u t (u.did t (.xreadgroup w.workerId 1) r u.mem (.ended res))
  | hand (j : ι) (job : NewJob P) (w : Worker) (m : Mem ι) (hp : u.ph t = .reading w) (hj : call j = .enqueue job)
    (hm : u.mem.stream.entries[u.mem.stream.cursor]? = some job.message) (hhash : m.hashes = u.mem.hashes)
    (hent : m.stream.entries = u.mem.stream.entries) (hcur : m.stream.cursor = u.mem.stream.cursor + 1)
    (hpend : m.stream.pending = u.mem.stream.pending ++ [(u.mem.stream.cursor, w.workerId)]) :
    Move json call u t (u.did t (.xreadgroup w.workerId 1) (.ok [(u.mem.stream.cursor, job.message)]) m
      (.claiming (taskOf w u.mem.stream.cursor job)))
  | claim (task : Task) (hp : u.ph t = .claiming task) (now : String) :
    Move json call u t (u.did t (.hset (jobKey task.jobId) (statusMapping .processing now task.w.workerId "")) (.ok ())
      { u.mem with hashes := u.mem.hashes.hset (jobKey task.jobId) (statusMapping .processing now task.w.workerId "") }
      (.loading task))
  | load (task : Task) (payload : Payload P) (r : Except Exc (Option (Field → Option String)))
    (hp : u.ph t = .loading task) :
    Move json call u t (u.did t (.hgetall (jobKey task.jobId)) r u.mem (.starting task payload))
  | start (task : Task) (payload : Payload P) (r : Except Exc Unit) (hp : u.ph t = .starting task payload) :
    Move json call u t (u.did t (.startTask task.taskType payload) r u.mem (.working task))
  | work (task : Task) (r : Except Exc String) (p : Phase P) (hp : u.ph t = .working task)
    (hn : ∃ text, p = .completing task text ∨ p = .failing task text) :
    Move json call u t (u.did t .awaitTask r u.mem p)
  | finish (task : Task) (last : Status) (now result : String)
    (hp : ∃ text, u.ph t = .completing task text ∨ u.ph t = .failing task text)
    (hl : last = .completed ∨ last = .failed) :
    Move json call u t (u.did t (.hset (jobKey task.jobId) (statusMapping last now task.w.workerId result)) (.ok ())
      { u.mem with hashes := u.mem.hashes.hset (jobKey task.jobId) (statusMapping last now task.w.workerId result) }
      (.acking task (.ok ())))
  | ack (task : Task) (out : Except Exc Unit) (res : Except Exc Reply) (hp : u.ph t = .acking task out) :
    Move json call u t
      (u.did t (.xack task.id) (.ok ()) { u.mem with stream := u.mem.stream.xack task.id } (.ended res))

theorem sameJobs_group {m : Mem ι} {x : Chance} {rm : Except Exc Unit × Mem ι} (hf : x.fault = none)
    (hx : (memory (P := P)).exec i .xgroupCreate x m = some rm) :
    SameJobs m rm.2 ∧ (rm.1 = .ok () ∨ rm.1 = .error (.exception busyGroup)) := by
  have hd := exec_live hx
  simp only [memory, hd, Chance.reply, hf] at hx
  cases hx
  cases hg : m.stream.xgroupCreate with
  | none => exact ⟨⟨rfl, rfl, rfl, rfl⟩, .inr rfl⟩
  | some s => exact ⟨⟨rfl, Stream.xgroupCreate_same hg⟩, .inl rfl⟩

/-- A read while nothing fails: nothing is there, or the entry at the cursor is. -/
theorem read_calm {m : Mem ι} {w : String} {x : Chance} {rm : Except Exc (List (Nat × Message)) × Mem ι}
    (hf : x.fault = none) (hx : (memory (P := P)).exec i (.xreadgroup w 1) x m = some rm) :
    ((rm.1 = .ok [] ∨ ∃ e, rm.1 = .error e) ∧ rm.2 = m) ∨ ∃ message, rm.1 = .ok [(m.stream.cursor, message)] := by
  have hd := exec_live hx
  simp only [memory, hd, Chance.reply, hf] at hx
  cases hx
  cases hr : m.stream.xreadgroup w 1 with
  | none => exact .inl ⟨.inr ⟨_, rfl⟩, rfl⟩
  | some rs =>
    obtain ⟨new, s⟩ := rs
    rcases Stream.xreadgroup_one hr with ⟨rfl, rfl, -⟩ | ⟨message, -, rfl, -⟩
    · exact .inl ⟨.inl rfl, rfl⟩
    · exact .inr ⟨message, rfl⟩

theorem move_of_step (ha : Assigned call) (hi : Inv call u) {json : Json P} {u' : St ι P} {e : Ev ι Chance (World ι)}
    (hok : NoFailure ((jobs json ι).threadsOf u) e) (hs : ((jobs json ι).phases memory).step u e = some u') :
    ∃ t, Move json call u t u' := by
  cases e with
  | env e => exact hok.elim
  | run t x =>
    obtain ⟨hf, hlive⟩ := hok
    obtain ⟨c, k, rm, hh, hx, rfl⟩ := Flow.step_run _ hs
    change headOf json (u.ph t) = _ at hh
    have hof := hi.own t
    refine ⟨t, ?_⟩
    cases hp : u.ph t with
    | grouping cl =>
      rw [hp] at hh hof
      cases hh
      cases hof
      obtain ⟨hm, hr⟩ := sameJobs_group hf hx
      obtain ⟨r, m⟩ := rm
      rcases hr with rfl | rfl
      · exact .group m _ hp hm
      · have hbusy : (Exc.exception busyGroup).busy = true := busyGroup_mentioned
        simp only [hbusy, if_true]
        exact .group m _ hp hm
    | reading w =>
      rw [hp] at hh
      cases hh
      rcases read_calm hf hx with ⟨hr, hm⟩ | ⟨message, hr⟩
      · obtain ⟨r, m⟩ := rm
        cases hm
        rcases hr with rfl | ⟨e, rfl⟩
        · exact .miss w _ _ hp (.inl rfl)
        · exact .miss w _ _ hp (.inr ⟨e, rfl⟩)
      · obtain ⟨hent, hhash, ⟨hr', -⟩ | ⟨hf', -⟩ | ⟨j, job, hj, hm, hr', hcur, hpend⟩⟩ := exec_read hi hx
        · rw [hr] at hr'
          rcases hr' with h | ⟨e, h⟩ <;> cases h
        · exact absurd hf hf'
        · obtain ⟨r, m⟩ := rm
          cases hr'
          show Move json call u t (u.did t _ _ m (Phase.read w [(u.mem.stream.cursor, job.message)]))
          rw [(hi.hand ha hp hj hm hent hcur).1]
          exact .hand j job w m hp hj hm hhash hent hcur hpend
    | blank => rw [hp] at hof; exact hof.elim
    | ended => rw [hp] at hh; cases hh
    | acking task out =>
      have hd := exec_live hx
      rw [hp] at hh hof
      cases hh
      simp only [memory, hd, Chance.reply, hf] at hx
      cases hx
      obtain ⟨res, hres⟩ := leave_ended (P := P) out hof.2
      show Move json call u t (u.did t _ _ _ (Phase.leave task out))
      rw [hres]
      exact .ack task out res hp
    | working task =>
      have hd := exec_live hx
      rw [hp] at hh
      cases hh
      simp only [memory, hd] at hx
      cases hx
      refine .work task _ _ hp ?_
      cases hr : x.outcome with
      | ok text => exact ⟨text, .inl rfl⟩
      | error e =>
        cases e with
        | exception text => exact ⟨text, .inr rfl⟩
        | cancelled => exact absurd hr hlive
    | _ =>
      have hd := exec_live hx
      rw [hp] at hh
      cases hh
      simp only [memory, hd, Chance.reply, hf] at hx
      cases hx
      first
        | exact .write _ hp
        | exact .send _ hp
        | exact .claim _ hp _
        | exact .load _ _ _ hp
        | exact .start _ _ _ hp
        | exact .finish _ .completed _ _ ⟨_, .inl hp⟩ (.inl rfl)
        | exact .finish _ .failed _ _ ⟨_, .inr hp⟩ (.inr rfl)

/-! ## The starts, the acknowledgements and the cursor -/

section Rest

variable {json : Json P} {u' : St ι P} {t : ι}

/-- A step starts no `process_task`, or it is the first start of a call at a message. -/
def Starts (u : St ι P) (t : ι) (e : Entry ι (Cmd P) Ans Exc (World ι)) (p : Phase P) : Prop :=
  (startedBy e = none ∧ (p.unstarted → (u.ph t).unstarted)) ∨
    (startedBy e = some t ∧ (u.ph t).unstarted ∧ ¬ p.unstarted ∧ ∃ task, (u.ph t).task = some task)

/-- A step sends no `XACK`, or it is the last of a call that was handed the message. -/
def Acks (u : St ι P) (t : ι) (e : Entry ι (Cmd P) Ans Exc (World ι)) (p : Phase P) : Prop :=
  ackedBy e = none ∨ ∃ id res, ackedBy e = some (id, t) ∧ (id, t) ∈ handed u.log ∧ p = .ended res

theorem Move.did (hi : Inv call u) (hm : Move json call u t u') :
    ∃ c r m p, u' = u.did t c r m p ∧ (∀ r', u.ph t ≠ .ended r') ∧ Starts u t (.did t c r) p ∧
      Acks u t (.did t c r) p := by
  cases hm with
  | start task payload r hp =>
    refine ⟨_, _, _, _, rfl, by simp [hp], .inr ⟨rfl, ?_, fun h => h, task, by rw [hp]; rfl⟩, .inl rfl⟩
    rw [hp]
    trivial
  | ack task out res hp =>
    have hk : (task.id, t) ∈ handed u.log := (hi.holds (by rw [hp]; rfl)).1
    exact ⟨_, _, _, _, rfl, by simp [hp], .inl ⟨rfl, nofun⟩, .inr ⟨task.id, res, rfl, hk, rfl⟩⟩
  | work task r p hp hn =>
    obtain ⟨text, rfl | rfl⟩ := hn <;> exact ⟨_, _, _, _, rfl, by simp [hp], .inl ⟨rfl, nofun⟩, .inl rfl⟩
  | finish task last now result hp =>
    obtain ⟨text, hp | hp⟩ := hp <;> exact ⟨_, _, _, _, rfl, by simp [hp], .inl ⟨rfl, nofun⟩, .inl rfl⟩
  | group m r hp | write job hp | send job hp | miss w r res hp | hand j job w m hp | claim task hp
  | load task payload r hp =>
    exact ⟨_, _, _, _, rfl, by simp [hp], .inl ⟨rfl, by simp [hp, Phase.unstarted]⟩, .inl rfl⟩

/-- What a step leaves of the group: nothing new, or the entry at the cursor is handed
    out. -/
theorem Move.cursor (hm : Move json call u t u') :
    (u'.mem.stream.cursor = u.mem.stream.cursor ∧ u'.mem.stream.pending ⊆ u.mem.stream.pending) ∨
      ∃ w, u'.mem.stream.cursor = u.mem.stream.cursor + 1 ∧ (u.mem.stream.cursor, t) ∈ handed u'.log ∧
        u'.mem.stream.pending = u.mem.stream.pending ++ [(u.mem.stream.cursor, w)] := by
  cases hm with
  | group m r hp hs => exact .inl ⟨hs.2.2.1, by simp [hs.2.2.2]⟩
  | hand j job w m hp hj hm hhash hent hcur hpend => exact .inr ⟨w.workerId, hcur, by simp [handedBy], hpend⟩
  | ack task out res hp => exact .inl ⟨by simp, fun e he => by simpa using (Stream.mem_pending_xack.mp he).1⟩
  | write | send | miss | claim | load | start | work | finish => exact .inl ⟨rfl, fun _ h => h⟩

end Rest

end Moves

end Playground.Queue
