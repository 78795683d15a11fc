/-
  Playground.Queue.Finished — which jobs `process_one_job` acknowledges.

  The `XACK` is in a `finally`, behind the `COMPLETED` write and the `FAILED` write of the
  `except`. It is reached with the job still `PROCESSING` in three ways: `process_task` is
  cancelled, as on Ctrl-C; the `COMPLETED` write is cancelled; the `FAILED` write fails.
  Any call may crash, and any command fail before or after it took effect.
  - `Holding`: the status of the job of every message a call is at, phase by phase.
  - `acks_finished`: until one of the three happens only finished jobs are acknowledged,
    and the next step acknowledges one that is not just when one has.
-/

import Playground.Queue.Stranded

namespace Playground.Queue

open Playground.Lib Playground.Redis

section Finished

variable {ι P : Type}

/-- Whether the Redis command takes effect. -/
def Chance.takesEffect (x : Chance) : Bool := (x.fault.map Prod.fst).getD true

/-- A step that meets this does not take a call to its `XACK` with the job unfinished. -/
def Settles (s : Serving ι P) : Ev ι Chance (World ι) → Prop
  | .run i x => match (s.thr i).next with
    | some .awaitTask => x.outcome ≠ .error .cancelled
    | some (.hset key mapping) =>
      (mapping.lookup .status = some Status.completed.str → x.fault ≠ some (false, .cancelled)) ∧
        (mapping.lookup .status = some Status.failed.str →
          x.takesEffect ∨ s.mem.hashes.field key .status = some Status.completed.str)
    | _ => True
  | .env _ => True

variable [DecidableEq ι]

/-- The next step acknowledges, and takes off the pending list, messages of finished jobs
    only. -/
structure AcksFinished (s : Serving ι P) : Prop where
  acked : ∀ {i x s' id jobId}, (threads memory).step s (.run i x) = some s' →
    (s.thr i).next = some (.xack id) → x.takesEffect → InStream s.mem jobId id →
      Terminal s.mem jobId ∧ Terminal s'.mem jobId
  removed : ∀ {e s' id w jobId}, (threads memory).step s e = some s' → (id, w) ∈ s.mem.stream.pending →
    (id, w) ∉ s'.mem.stream.pending → InStream s.mem jobId id → Terminal s.mem jobId ∧ Terminal s'.mem jobId

/-! ## The invariant -/

/-- What the hash says of the job of the message a call is at, before its `XACK`. -/
def Phase.Shows (status : Option String) : Phase P → Prop
  | .loading _ | .starting .. | .working _ | .completing .. => status = some Status.processing.str
  -- a `COMPLETED` write that took effect may have raised
  | .failing .. => status = some Status.processing.str ∨ status = some Status.completed.str
  | _ => True

/-- `Settles` of a step from a phase. -/
def Phase.Settles (m : Mem ι) (x : Chance) : Phase P → Prop
  | .working _ => x.outcome ≠ .error .cancelled
  | .completing .. => x.fault ≠ some (false, .cancelled)
  | .failing t _ => x.takesEffect ∨ jobStatus m t.jobId = some Status.completed.str
  | _ => True

/-- Not at work on a message, nor about to acknowledge one. -/
def Phase.Aside : Phase P → Prop
  | .loading _ | .starting .. | .working _ | .completing .. | .failing .. | .acking .. => False
  | _ => True

structure Holding (call : ι → Call P) (u : St ι P) : Prop where
  inv : Inv call u
  shows : ∀ {k t}, (u.ph k).task = some t → (u.ph k).Shows (jobStatus u.mem t.jobId)

/-- A call that is about to acknowledge a message has finished its job. -/
def Phase.Finished (m : Mem ι) : Phase P → Prop
  | .acking t _ => Terminal m t.jobId
  | _ => True

variable {json : Json P} {call : ι → Call P} {u : St ι P} {i : ι} {x : Chance} {m : Mem ι}

omit [DecidableEq ι] in
theorem lookup_status (status : Status) (now w result : String) :
    (statusMapping status now w result).lookup .status = some status.str := rfl

omit [DecidableEq ι] in
theorem settles_iff : Settles ((jobs json ι).threadsOf u) (.run i x) ↔ (u.ph i).Settles u.mem x := by
  show (match (codeOf json (u.ph i)).next with
    | some .awaitTask => _
    | some (.hset key mapping) => _
    | _ => True) ↔ _
  have hnext : (codeOf json (u.ph i)).next = (jobs json ι).next i (u.ph i) := (jobs json ι).next_code i (u.ph i)
  rw [hnext]
  cases u.ph i with
  | grouping | sending | reading | blank | loading | starting | acking | ended => exact Iff.rfl
  | working t => exact Iff.rfl
  | writing job =>
    refine iff_of_true ⟨fun h => ?_, fun h => ?_⟩ trivial <;> rw [data_status] at h <;> exact absurd h (by decide)
  | claiming t =>
    refine iff_of_true ⟨fun h => ?_, fun h => ?_⟩ trivial <;> rw [lookup_status] at h <;> exact absurd h (by decide)
  | completing t result =>
    constructor
    · exact fun h => h.1 (lookup_status ..)
    · intro h
      refine ⟨fun _ => h, fun hl => ?_⟩
      rw [lookup_status] at hl
      exact absurd hl (by decide)
  | failing t str =>
    constructor
    · exact fun h => h.2 (lookup_status ..)
    · intro h
      refine ⟨fun hl => ?_, fun _ => h⟩
      rw [lookup_status] at hl
      exact absurd hl (by decide)

/-! ## Steps -/

/-- A status write, as its chance decides. -/
theorem exec_statusWrite {jobId : String} {mapping : List (Field × String)} {last : Status}
    {rm : Except Exc Unit × Mem ι} (hl : mapping.lookup .status = some last.str)
    (hx : (memory (P := P)).exec i (.hset (jobKey jobId) mapping) x m = some rm) :
    (jobStatus rm.2 jobId = if x.takesEffect then some last.str else jobStatus m jobId) ∧
      ((rm.1 = .ok () ∧ x.takesEffect) ∨ ∃ e, rm.1 = .error e ∧ x.fault = some (x.takesEffect, e)) := by
  have hd := exec_live hx
  simp only [memory, hd] at hx
  cases hx
  have hset : jobStatus { m with hashes := m.hashes.hset (jobKey jobId) mapping } jobId = some last.str := by
    rw [jobStatus, Hashes.field_hset_same, hl]
    rfl
  cases hf : x.fault with
  | none => simp [Chance.reply, Chance.takesEffect, hf, hset]
  | some f =>
    obtain ⟨effect, e⟩ := f
    cases effect <;> simp [Chance.reply, Chance.takesEffect, hf, hset]

omit [DecidableEq ι] in
/-- At the next message, none of its commands has run. -/
theorem aside_enter (w : Worker) (messages : List (Nat × Message)) : (Phase.enter w messages : Phase P).Aside := by
  cases messages with
  | nil => trivial
  | cons m rest =>
    obtain ⟨id, jobId, taskType⟩ := m
    cases jobId with
    | none => trivial
    | some jobId =>
      simp only [Phase.enter]
      split <;> trivial

/-- A command that is no `HSET` leaves the status of every job. -/
theorem exec_status {c : Cmd P} {rm : Except Exc (Ans c) × Mem ι} (hx : memory.exec i c x m = some rm)
    (hc : ∀ key mapping, c ≠ .hset key mapping) (jobId : String) : jobStatus rm.2 jobId = jobStatus m jobId := by
  rcases exec_hashes hx with h | ⟨key, mapping, rfl, -⟩
  · rw [jobStatus, h, jobStatus]
  · exact absurd rfl (hc key mapping)

section Own

variable {p : Phase P} {c : Cmd P} {k : Except Exc (Ans c) → Phase P} {rm : Except Exc (Ans c) × Mem ι} {cl : Call P}

omit [DecidableEq ι] in
theorem Phase.Aside.shows (h : p.Aside) (status : Option String) : p.Shows status := by
  cases p <;> trivial

omit [DecidableEq ι] in
theorem Phase.Aside.finished (h : p.Aside) : p.Finished m := by
  cases p <;> trivial

omit [DecidableEq ι] in
/-- Up to its status write, and past its `XACK`. -/
theorem next_aside (hof : p.Of cl) (hh : headOf json p = .goes c k)
    (hp : p.task = none ∨ ∃ t r, p = .acking t r) (r : Except Exc (Ans c)) : (k r).Aside := by
  cases p with
  | blank => exact hof.elim
  | ended => cases hh
  | grouping c' =>
    cases hh
    have hafter : (Phase.afterGroup c' : Phase P).Aside := by cases c' <;> trivial
    cases r with
    | ok a => exact hafter
    | error e =>
      simp only
      split
      · exact hafter
      · trivial
  | writing | sending => cases hh; cases r <;> trivial
  | reading w =>
    cases hh
    cases r with
    | error e => trivial
    | ok messages =>
      cases messages with
      | nil => trivial
      | cons m rest => exact aside_enter w (m :: rest)
  | acking t out =>
    cases hh
    cases r with
    | error e => trivial
    | ok a =>
      obtain ⟨res, hres⟩ := leave_ended (P := P) out hof.2
      rw [Phase.on, hres]
      trivial
  | claiming | loading | starting | working | completing | failing =>
    obtain hp | ⟨t, r, hp⟩ := hp <;> cases hp

omit [DecidableEq ι] in
/-- A job that is still `PROCESSING` is not finished. -/
theorem processing_unfinished {jobId : String} (h : jobStatus m jobId = some Status.processing.str) :
    ¬ Terminal m jobId := by
  rintro (h' | h') <;> cases Status.str_inj (Option.some.inj (h.symm.trans h'))

/-- How `process_task` ends. -/
theorem exec_await {rm : Except Exc String × Mem ι} (hx : (memory (P := P)).exec i .awaitTask x m = some rm) :
    rm = (x.outcome, m) := by
  have hd := exec_live hx
  simp only [memory, hd] at hx
  cases hx
  rfl

/-- A step of a call leaves it in a phase that shows the status of the job. -/
theorem shows_own (hof : p.Of cl) (hh : headOf json p = .goes c k) (hx : memory.exec i c x m = some rm)
    (hold : ∀ t, p.task = some t → p.Shows (jobStatus m t.jobId)) {t : Task} (ht : (k rm.1).task = some t) :
    (k rm.1).Shows (jobStatus rm.2 t.jobId) := by
  obtain ⟨r, m'⟩ := rm
  cases p with
  | grouping | writing | sending | reading | blank | ended => exact (next_aside hof hh (.inl rfl) r).shows _
  | acking task out => exact (next_aside hof hh (.inr ⟨task, out, rfl⟩) r).shows _
  | claiming task =>
    cases hh
    cases r with
    | error e => cases ht
    | ok a =>
      cases ht
      obtain ⟨hst, ⟨-, he⟩ | ⟨e, h, -⟩⟩ := exec_statusWrite (lookup_status ..) hx
      · exact hst.trans (if_pos he)
      · cases h
  | loading task =>
    cases hh
    cases r with
    | error e => cases ht
    | ok data => cases ht; exact (exec_status hx nofun _).trans (hold t rfl)
  | starting task payload =>
    cases hh
    have hst : jobStatus m' task.jobId = some Status.processing.str := (exec_status hx nofun _).trans (hold _ rfl)
    cases r with
    | ok a => cases ht; exact hst
    | error e => cases e <;> cases ht <;> first | exact .inl hst | trivial
  | working task =>
    cases hh
    have hst : jobStatus m' task.jobId = some Status.processing.str := (exec_status hx nofun _).trans (hold _ rfl)
    cases r with
    | ok text => cases ht; exact hst
    | error e => cases e <;> cases ht <;> first | exact .inl hst | trivial
  | completing task result =>
    cases hh
    cases r with
    | ok a => cases ht; trivial
    | error e =>
      cases e with
      | cancelled => cases ht; trivial
      | exception str =>
        cases ht
        have hst : jobStatus m' t.jobId = if x.takesEffect then _ else _ :=
          (exec_statusWrite (lookup_status ..) hx).1
        split at hst
        · exact .inr hst
        · exact .inl (hst.trans (hold t rfl))
  | failing task str => cases hh; trivial

/-- A step that takes a call to its `XACK` finds the job finished, just when `Settles`
    allows the step. -/
theorem finished_own_iff (hof : p.Of cl) (hh : headOf json p = .goes c k) (hx : memory.exec i c x m = some rm)
    (hold : ∀ t, p.task = some t → p.Shows (jobStatus m t.jobId)) : (k rm.1).Finished rm.2 ↔ p.Settles m x := by
  obtain ⟨r, m'⟩ := rm
  cases p with
  | grouping | writing | sending | reading | blank | ended =>
    exact iff_of_true (next_aside hof hh (.inl rfl) r).finished trivial
  | acking task out => exact iff_of_true (next_aside hof hh (.inr ⟨task, out, rfl⟩) r).finished trivial
  | claiming | loading => cases hh; cases r <;> exact iff_of_true trivial trivial
  | starting task payload =>
    cases hh
    have hd := exec_live hx
    simp only [memory, hd] at hx
    cases hx
    exact iff_of_true trivial trivial
  | working task =>
    cases hh
    obtain ⟨rfl, rfl⟩ := Prod.mk.inj (exec_await hx)
    have hst := hold task rfl
    cases ho : x.outcome with
    | ok text => exact iff_of_true trivial (by simp [Phase.Settles, ho])
    | error e =>
      cases e with
      | exception str => exact iff_of_true trivial (by simp [Phase.Settles, ho])
      | cancelled => exact iff_of_false (processing_unfinished hst) fun hs => hs ho
  | completing task result =>
    cases hh
    obtain ⟨hst, ⟨hr, he⟩ | ⟨e, hr, hf⟩⟩ := exec_statusWrite (lookup_status ..) hx
    · cases hr
      rw [if_pos he] at hst
      refine iff_of_true (.inl hst) fun hf => ?_
      simp [Chance.takesEffect, hf] at he
    · cases hr
      cases e with
      | exception str => exact iff_of_true trivial (by simp [Phase.Settles, hf])
      | cancelled =>
        by_cases he : x.takesEffect
        · rw [if_pos he] at hst
          exact iff_of_true (.inl hst) (by simp [Phase.Settles, hf, he])
        · rw [if_neg he] at hst
          refine iff_of_false (processing_unfinished (hst.trans (hold task rfl))) fun hs => hs ?_
          rw [hf, Bool.eq_false_iff.mpr he]
  | failing task str =>
    cases hh
    obtain ⟨hst, -⟩ := exec_statusWrite (lookup_status ..) hx
    by_cases he : x.takesEffect
    · rw [if_pos he] at hst
      exact iff_of_true (.inr hst) (.inl he)
    · rw [if_neg he] at hst
      rcases hold task rfl with hold | hold
      · refine iff_of_false (processing_unfinished (hst.trans hold)) ?_
        rintro (h | h)
        · exact he h
        · exact processing_unfinished hold (.inl h)
      · exact iff_of_true (.inl (hst.trans hold)) (.inr hold)

end Own

/-! ## Runs -/

/-- The status of the job of a message that a call is at is no other call's to change. -/
theorem status_other (ha : Assigned call) (hi : Inv call u) {j : ι} {t : Task} (ht : (u.ph j).task = some t)
    (hne : j ≠ i) {c : Cmd P} {k : Except Exc (Ans c) → Phase P} {rm : Except Exc (Ans c) × Mem ι}
    (hh : headOf json (u.ph i) = .goes c k) (hx : memory.exec i c x u.mem = some rm) :
    jobStatus rm.2 t.jobId = jobStatus u.mem t.jobId := by
  obtain ⟨hk, m, hm, hj⟩ := hi.holds ht
  obtain ⟨i', job, r, hcall, rfl, -⟩ := hi.sent hm
  have hid : job.jobId = t.jobId := Option.some.inj hj
  have hnot : (t.id, i) ∉ handed u.log := fun h => hne (hi.one_call hk h)
  rw [jobStatus, Hashes.field, ← hid, hash_other ha hi hcall hm hnot hh hx]
  rfl

theorem Holding.step (ha : Assigned call) (h : Holding call u) {u' : St ι P} {e : Ev ι Chance (World ι)}
    (hs : ((jobs json ι).phases memory).step u e = some u') : Holding call u' := by
  refine ⟨h.inv.step ha hs, ?_⟩
  intro j t ht
  cases e with
  | env e =>
    obtain ⟨m, hm, rfl⟩ := Flow.step_env _ hs
    cases e with
    | crash i => cases hm; exact h.shows ht
  | run i x =>
    obtain ⟨c, k, rm, hh, hx, rfl⟩ := Flow.step_run _ hs
    change headOf json (u.ph i) = _ at hh
    by_cases hne : j = i
    · subst hne
      rw [Phases.did_ph_same] at ht ⊢
      exact shows_own (h.inv.own j) hh hx (fun _ => h.shows) ht
    · rw [Phases.did_ph_ne _ _ _ _ _ _ hne] at ht ⊢
      rw [Phases.did_mem, status_other ha h.inv ht hne hh hx]
      exact h.shows ht

/-- A step from a state in which every call at its `XACK` has finished its job. -/
theorem Holding.finished_iff (ha : Assigned call) (h : Holding call u) (hf : ∀ j, (u.ph j).Finished u.mem)
    {u' : St ι P} {e : Ev ι Chance (World ι)} (hs : ((jobs json ι).phases memory).step u e = some u') :
    (∀ j, (u'.ph j).Finished u'.mem) ↔ Settles ((jobs json ι).threadsOf u) e := by
  cases e with
  | env e =>
    obtain ⟨m, hm, rfl⟩ := Flow.step_env _ hs
    cases e with
    | crash i => cases hm; exact iff_of_true hf trivial
  | run i x =>
    obtain ⟨c, k, rm, hh, hx, rfl⟩ := Flow.step_run _ hs
    change headOf json (u.ph i) = _ at hh
    -- what the others have finished stays finished
    have hothers : ∀ j, j ≠ i → (u.ph j).Finished rm.2 := by
      intro j hne
      have hfj := hf j
      cases hp : u.ph j with
      | acking t r =>
        have hst := status_other ha h.inv (by rw [hp]; rfl) hne hh hx
        rw [hp] at hfj
        show Terminal rm.2 t.jobId
        unfold Terminal
        rw [hst]
        exact hfj
      | _ => trivial
    rw [settles_iff, ← finished_own_iff (h.inv.own i) hh hx fun _ => h.shows]
    exact (Phases.forall_did (Q := fun _ => Phase.Finished rm.2)).trans (and_iff_left hothers)

theorem Holding.xack (h : Holding call u) (hf : ∀ j, (u.ph j).Finished u.mem) {id : Nat} {jobId : String}
    {k : Except Exc Unit → Phase P} {rm : Except Exc Unit × Mem ι} (hh : headOf json (u.ph i) = .goes (.xack id) k)
    (hx : (memory (P := P)).exec i (.xack id) x u.mem = some rm) (hin : InStream u.mem jobId id) :
    Terminal u.mem jobId ∧ Terminal rm.2 jobId := by
  obtain ⟨t, r, hp, rfl⟩ := acking_of_head (h.inv.own i) hh
  obtain ⟨-, m, hm, hj⟩ := h.inv.holds (k := i) (t := t) (by rw [hp]; rfl)
  obtain ⟨m', hm', hj'⟩ := hin
  cases hm.symm.trans hm'
  have hid : t.jobId = jobId := Option.some.inj (hj.symm.trans hj')
  have hfi := hf i
  rw [hp] at hfi
  have hterm : Terminal u.mem jobId := hid ▸ hfi
  refine ⟨hterm, ?_⟩
  unfold Terminal at hterm ⊢
  rwa [exec_status hx nofun]

/-- What is acknowledged then is finished. -/
theorem Holding.acksFinished (h : Holding call u) (hf : ∀ j, (u.ph j).Finished u.mem) :
    AcksFinished ((jobs json ι).threadsOf u) where
  acked {i x s' id jobId} hs hnext _ hin := by
    rw [Flow.step_threadsOf, Option.map_eq_some_iff] at hs
    obtain ⟨u', hu', rfl⟩ := hs
    obtain ⟨c, k, rm, hh, hx, rfl⟩ := Flow.step_run _ hu'
    cases ((jobs json ι).next_of_head hh).symm.trans hnext
    exact h.xack hf hh hx hin
  removed {e s' id w jobId} hs hin hout hj := by
    rw [Flow.step_threadsOf, Option.map_eq_some_iff] at hs
    obtain ⟨u', hu', rfl⟩ := hs
    cases e with
    | env e =>
      obtain ⟨m, hm, rfl⟩ := Flow.step_env _ hu'
      cases e with
      | crash i => cases hm; exact absurd hin hout
    | run i x =>
      obtain ⟨c, k, rm, hh, hx, rfl⟩ := Flow.step_run _ hu'
      rcases exec_pending hx hin with hin' | rfl
      · exact absurd hin' hout
      · exact h.xack hf hh hx hj

/-- A live call that has not finished the job would acknowledge it all the same. -/
theorem AcksFinished.finished (hi : Inv call u) (hlive : u.mem.dead i = false)
    (ha : AcksFinished ((jobs json ι).threadsOf u)) : (u.ph i).Finished u.mem := by
  cases hp : u.ph i with
  | acking t r =>
    obtain ⟨-, m, hm, hj⟩ := hi.holds (k := i) (t := t) (by rw [hp]; rfl)
    have hh : (jobs json ι).head i (u.ph i) = .goes (.xack t.id) (.on fun _ => .leave t r) := by
      show headOf json (u.ph i) = _
      rw [hp]
      rfl
    have hx : (memory (P := P)).exec i (.xack t.id) ⟨none, .ok ""⟩ u.mem =
        some (.ok (), { u.mem with stream := u.mem.stream.xack t.id }) := by
      simp only [memory, hlive]
      rfl
    have hs := (jobs json ι).step_of_head hh hx
    have hs' := (jobs json ι).step_threadsOf memory u (.run i ⟨none, .ok ""⟩)
    rw [hs] at hs'
    exact (ha.acked hs' ((jobs json ι).next_of_head hh) rfl ⟨m, hm, hj⟩).1
  | _ => trivial

/-- However many calls of `enqueue_job` and `process_one_job` run side by side, crash and
    have commands fail: in a run whose steps meet `Settles` only finished jobs are
    acknowledged, and after one more step only they are just when that meets it. -/
theorem acks_finished (ha : Assigned call) {s : Serving ι P}
    (h : (threads memory).Reach Settles (start Mem.init fun i => serve json (call i)) s) :
    AcksFinished s ∧ ∀ e s', (threads memory).step s e = some s' → (AcksFinished s' ↔ Settles s e) := by
  obtain ⟨u, hu, rfl⟩ := follows_jobs h
  have hrun : Holding call u ∧ ∀ j, (u.ph j).Finished u.mem := by
    refine hu.invariant (P := fun u => Holding call u ∧ ∀ j, (u.ph j).Finished u.mem)
      ⟨⟨inv_start _ rfl, fun h => nomatch h⟩, fun _ => trivial⟩ ?_
    intro u e u' hu hok hs
    exact ⟨hu.1.step ha hs, (hu.1.finished_iff ha hu.2 hs).mpr hok⟩
  obtain ⟨hold, hf⟩ := hrun
  refine ⟨hold.acksFinished hf, ?_⟩
  intro e s' hs
  rw [Flow.step_threadsOf, Option.map_eq_some_iff] at hs
  obtain ⟨u', hu', rfl⟩ := hs
  have hiff := hold.finished_iff ha hf hu'
  constructor
  · intro hack
    cases e with
    | env e => trivial
    | run i x =>
      have hinv := (hold.step ha hu').inv
      obtain ⟨c, k, rm, hh, hx, rfl⟩ := Flow.step_run _ hu'
      have hlive : rm.2.dead i = false := (congrFun (exec_dead hx) i).trans (exec_live hx)
      have hown := hack.finished (i := i) hinv hlive
      rw [Phases.did_ph_same] at hown
      exact settles_iff.mpr ((finished_own_iff (hold.inv.own i) hh hx fun _ => hold.shows).mp hown)
  · exact fun hok => (hold.step ha hu').acksFinished (hiff.mpr hok)

end Finished

/-! ## A worker that is stopped -/

theorem turn_settles (s : Serving Who Unit) (i : Who) : Settles s (turn i) := by
  simp only [Settles, turn]
  split
  · nofun
  · exact ⟨fun _ => nofun, fun _ => .inl rfl⟩
  · trivial

/-- The job is enqueued and handed to the first worker, whose next command is the end of
    `process_task`. -/
def working : Serving Who Unit :=
  ((threads memory).run queueStart ([.api, .api, .api, .first, .first, .first, .first, .first].map turn)).get rfl

/-- `process_task` ends so, and nothing fails. -/
def taskEnd (outcome : Except Exc String) : Ev Who Chance (World Who) := .run .first ⟨none, outcome⟩

/-- Ctrl-C in `process_task`. -/
def stopped : Serving Who Unit := ((threads memory).run working [taskEnd (.error .cancelled)]).get rfl

def stoppedAcked : Serving Who Unit := ((threads memory).run stopped [turn .first]).get rfl

/-- `process_task` raises, and the job is set to `FAILED`. -/
def raised : Serving Who Unit :=
  ((threads memory).run working [taskEnd (.error (.exception "boom")), turn .first]).get rfl

theorem working_reached : (threads memory).Reach Settles queueStart working :=
  Machine.reach_of_run _ (fun s e he => by
    obtain ⟨i, -, rfl⟩ := List.mem_map.mp he
    exact turn_settles s i) (Option.some_get rfl).symm

theorem working_awaits : (working.thr .first).next = some .awaitTask := rfl

theorem raised_reached : (threads memory).Reach Settles queueStart raised := by
  have hend : ∀ s, (threads memory).step working (taskEnd (.error (.exception "boom"))) = some s →
      (threads memory).Reach Settles queueStart s := by
    intro s hs
    refine .step _ working_reached ?_ hs
    simp only [Settles, taskEnd, working_awaits]
    nofun
  exact .step (turn .first) (hend _ rfl) (turn_settles _ _) rfl

/-- The call acknowledges the message and the job stays `PROCESSING`. -/
theorem stopped_acknowledges : (threads memory).Reach Machine.any queueStart stopped ∧ ¬ AcksFinished stopped ∧
    (threads memory).step stopped (turn .first) = some stoppedAcked ∧ InStream stopped.mem "a" 0 ∧
    stopped.mem.stream.pending = [(0, "w1")] ∧ stoppedAcked.mem.stream.pending = [] ∧
    jobStatus stoppedAcked.mem "a" = some "PROCESSING" := by
  have hin : InStream stopped.mem "a" 0 := ⟨_, rfl, rfl⟩
  have hstep : (threads memory).step stopped (turn .first) = some stoppedAcked := rfl
  refine ⟨.step (taskEnd (.error .cancelled)) (working_reached.mono fun _ _ _ => trivial) trivial rfl, ?_, hstep, hin,
    rfl, rfl, rfl⟩
  intro h
  rcases (h.acked hstep rfl rfl hin).2 with h | h <;> exact absurd h (by decide)

/-- A job that raised is finished when its message is acknowledged. -/
theorem raised_acknowledges : AcksFinished raised ∧ (raised.thr .first).next = some (.xack 0) ∧
    jobStatus raised.mem "a" = some "FAILED" :=
  ⟨(acks_finished whoCalls_assigned raised_reached).1, rfl, rfl⟩

end Playground.Queue
