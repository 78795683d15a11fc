/-
  Playground.Queue.Lifecycle — no job is lost and none is done twice.

  `job_lifecycle`: in every state that any calls of `enqueue_job` and `process_one_job`
  reach while nothing fails, `JobsSafe` holds.
-/

import Playground.Queue.Jobs

namespace Playground.Queue

open Playground.Lib Playground.Redis

section Safe

variable {ι P : Type} {call : ι → Call P} {u : St ι P} {i : ι} {job : NewJob P} {json : Json P}

/-- A job is in one stage at most. -/
theorem Inv.stage_unique (hi : Inv call u) {jobId : String} {st st' : Stage}
    (h : AtStage call ((jobs json ι).threadsOf u) jobId st) (h' : AtStage call ((jobs json ι).threadsOf u) jobId st') :
    st = st' := by
  -- past the queue: the message has been handed out
  have hout : ∀ {id k}, (id, k) ∈ handed u.log → ¬ u.mem.stream.cursor ≤ id :=
    fun hk => Nat.not_le_of_lt (hi.before hk).1
  cases st with
  | hashed =>
    cases st' with
    | hashed => rfl
    | queued => obtain ⟨id, hs, -⟩ := h'; exact absurd hs (h.1 id)
    | pending w => obtain ⟨id, hs, -⟩ := h'; exact absurd hs (h.1 id)
    | acknowledged w => obtain ⟨id, -, -, hs, -⟩ := h'; exact absurd hs (h.1 id)
  | queued =>
    obtain ⟨id, hs, hle, -⟩ := h
    cases st' with
    | hashed => exact absurd hs (h'.1 id)
    | queued => rfl
    | pending w =>
      obtain ⟨id', hs', hlt, -⟩ := h'
      cases hi.inStream_inj hs hs'
      omega
    | acknowledged w =>
      obtain ⟨id', k, -, hs', -, -, hk, -⟩ := h'
      cases hi.inStream_inj hs hs'
      exact absurd hle (hout hk)
  | pending w =>
    obtain ⟨id, hs, hlt, hp, -⟩ := h
    cases st' with
    | hashed => exact absurd hs (h'.1 id)
    | queued =>
      obtain ⟨id', hs', hle, -⟩ := h'
      cases hi.inStream_inj hs hs'
      omega
    | pending w' =>
      obtain ⟨id', hs', -, hp', -⟩ := h'
      cases hi.inStream_inj hs hs'
      rw [(hp' w).mp ((hp w).mpr rfl)]
    | acknowledged w' =>
      obtain ⟨id', k, -, hs', hp', -⟩ := h'
      cases hi.inStream_inj hs hs'
      exact absurd ((hp w).mpr rfl) (hp' w)
  | acknowledged w =>
    obtain ⟨id, k, -, hs, hp, -, hk, -, -, -, hw⟩ := h
    cases st' with
    | hashed => exact absurd hs (h'.1 id)
    | queued =>
      obtain ⟨id', hs', hle, -⟩ := h'
      cases hi.inStream_inj hs hs'
      exact absurd hle (hout hk)
    | pending w' =>
      obtain ⟨id', hs', -, hp', -⟩ := h'
      cases hi.inStream_inj hs hs'
      exact absurd ((hp' w').mpr rfl) (hp w')
    | acknowledged w' =>
      obtain ⟨-, -, -, -, -, -, -, -, -, -, hw'⟩ := h'
      rw [Option.some.inj (hw.symm.trans hw')]

/-- An entry that stands for its key alone is all that is left of the list at the key. -/
theorem filter_key {α β : Type} [DecidableEq α] {l : List (α × β)} (hn : (l.map Prod.fst).Nodup) {a : α} {b : β}
    (h : (a, b) ∈ l) : l.filter (·.1 == a) = [(a, b)] := by
  have hall : ∀ x ∈ l.filter (·.1 == a), x = (a, b) := by
    intro x hx
    obtain ⟨hx, he⟩ := List.mem_filter.mp hx
    exact List.inj_on_of_nodup_map hn hx h (by simpa using he)
  have hrep := List.eq_replicate_of_mem hall
  have hnd : (l.filter (·.1 == a)).Nodup := hn.of_map.filter _
  have hpos : 0 < (l.filter (·.1 == a)).length := List.length_pos_of_mem (List.mem_filter.mpr ⟨h, by simp⟩)
  rw [hrep, List.nodup_replicate] at hnd
  have hone : (l.filter (·.1 == a)).length = 1 := by omega
  rw [hrep, hone]
  rfl

theorem Calm.stage (hc : Calm call u) (ha : Assigned call) (hj : call i = .enqueue job)
    (hw : history u.log job.jobId ≠ []) : ∃ st, AtStage call ((Queue.jobs json ι).threadsOf u) job.jobId st := by
  cases hc.jobs hj with
  | unwritten hp hh => exact absurd hh hw
  | unsent hp hr =>
    refine ⟨.hashed, ?_, hr.2.1⟩
    intro id hs
    obtain ⟨m, hm, he⟩ := hs
    obtain ⟨i', job', r, hj', rfl, hr'⟩ := hc.inv.sent hm
    cases ha.distinct hj' hj (Option.some.inj he)
    rw [hp] at hr'
    cases hr'
  | queued id hm hid hr => exact ⟨.queued, id, ⟨_, hm, rfl⟩, hid, hr.2.1, hr.2.2⟩
  | held k t ht hm hk hp hr =>
    refine ⟨.pending t.w.workerId, t.id, ⟨_, hm, rfl⟩, (hc.inv.before hk).1, hp, ?_⟩
    cases hq : u.ph k with
    | claiming => rw [hq] at hr; exact .inl hr.2.1
    | loading | starting | working | completing | failing => rw [hq] at hr; exact .inr ⟨.inl hr.2.1, hr.2.2⟩
    | acking =>
      rw [hq] at hr
      obtain ⟨last, rfl | rfl, hr⟩ := hr
      · exact .inr ⟨.inr (.inl hr.2.1), hr.2.2⟩
      · exact .inr ⟨.inr (.inr hr.2.1), hr.2.2⟩
    | grouping | writing | sending | reading | blank | ended => rw [hq] at ht; cases ht
  | done id k w r he hm hw hk hp hack hr =>
    obtain ⟨last, hl, hr⟩ := hr
    refine ⟨.acknowledged w.workerId, id, k, w, ⟨_, hm, rfl⟩, hp, filter_key hc.acked_once hack, hk, hw, rfl, ?_,
      hr.2.2⟩
    rcases hl with rfl | rfl
    · exact .inl hr.2.1
    · exact .inr hr.2.1

theorem JobAt.statuses (h : JobAt call u i job) : ∃ last, (last = .completed ∨ last = .failed) ∧
    history u.log job.jobId <+: [Status.pending, .processing, last].map Status.str := by
  have hshort : ∀ statuses worker, Record u job.jobId statuses worker →
      statuses <+: [Status.pending, .processing, .completed] →
      ∃ last, (last = .completed ∨ last = .failed) ∧
        history u.log job.jobId <+: [Status.pending, .processing, last].map Status.str :=
    fun _ _ hr hpre => ⟨.completed, .inl rfl, by rw [hr.1]; exact hpre.map _⟩
  have hfull : ∀ last worker, (last = .completed ∨ last = .failed) →
      Record u job.jobId [.pending, .processing, last] worker → ∃ last, (last = .completed ∨ last = .failed) ∧
        history u.log job.jobId <+: [Status.pending, .processing, last].map Status.str :=
    fun last _ hl hr => ⟨last, hl, hr.1 ▸ List.prefix_rfl⟩
  cases h with
  | unwritten hp hh => exact ⟨.completed, .inl rfl, by rw [hh]; exact List.nil_prefix⟩
  | unsent hp hr => exact hshort _ _ hr ⟨_, rfl⟩
  | queued id hm hid hr => exact hshort _ _ hr ⟨_, rfl⟩
  | held k t ht hm hk hp hr =>
    cases hq : u.ph k with
    | claiming => rw [hq] at hr; exact hshort _ _ hr ⟨_, rfl⟩
    | loading | starting | working | completing | failing => rw [hq] at hr; exact hshort _ _ hr ⟨_, rfl⟩
    | acking => rw [hq] at hr; obtain ⟨last, hl, hr⟩ := hr; exact hfull _ _ hl hr
    | grouping | writing | sending | reading | blank | ended => rw [hq] at ht; cases ht
  | done id k w r he hm hw hk hp hack hr => obtain ⟨last, hl, hr⟩ := hr; exact hfull _ _ hl hr

/-- A call that acknowledged a job's message had finished the job. -/
theorem Calm.finished (hc : Calm call u) (ha : Assigned call) (hj : call i = .enqueue job) {id : Nat} {k : ι}
    (hin : InStream u.mem job.jobId id) (hack : (id, k) ∈ acked u.log) : Terminal u.mem job.jobId := by
  obtain ⟨hk, r, hr⟩ := hc.acked_handed hack
  cases hc.jobs hj with
  | unwritten hp | unsent hp =>
    obtain ⟨m, hm, he⟩ := hin
    obtain ⟨i', job', r', hj', rfl, hr'⟩ := hc.inv.sent hm
    cases ha.distinct hj' hj (Option.some.inj he)
    simp [hr'] at hp
  | queued id' hm hid =>
    cases hc.inv.inStream_inj hin ⟨_, hm, rfl⟩
    have hlt := (hc.inv.before hk).1
    omega
  | held k' t ht hm hk' =>
    cases hc.inv.inStream_inj hin ⟨_, hm, rfl⟩
    cases hc.inv.one_call hk hk'
    rw [hr] at ht
    cases ht
  | done id' k' w r' he hm hw hk' hp ha hr' =>
    obtain ⟨last, rfl | rfl, hr'⟩ := hr'
    · exact .inl hr'.2.1
    · exact .inr hr'.2.1

theorem Calm.safe (hc : Calm call u) (ha : Assigned call) : JobsSafe call ((Queue.jobs json ι).threadsOf u) where
  stage hj hw :=
    have ⟨st, hst⟩ := hc.stage ha hj hw
    ⟨st, hst, fun _ h => hc.inv.stage_unique h hst⟩
  statuses hj := (hc.jobs hj).statuses
  sent hj hr := (hc.inv.arrived hj (ended_of_ret hr)).imp fun _ hm => ⟨_, hm, rfl⟩
  distinct := hc.inv.inStream_inj
  starts := by
    refine ⟨hc.started_once, ?_⟩
    intro jobId id id' k k' h h' hk hk'
    cases hc.inv.inStream_inj h h'
    exact hc.inv.one_call hk hk'
  starter := hc.started_handed
  delivered id := by
    refine ⟨?_, fun ⟨k, hk, _⟩ => (hc.inv.before hk).1⟩
    intro h
    obtain ⟨k, hk⟩ := hc.covered h
    exact ⟨k, hk, fun k' hk' => hc.inv.one_call hk' hk⟩
  delivered_once := hc.inv.once
  acknowledged_once := hc.acked_once
  acknowledged h := (hc.acked_handed h).1
  finished hj hin hack := hc.finished ha hj hin hack

theorem calm_start : Calm call ⟨Mem.init, fun i => .grouping (call i), []⟩ where
  inv := inv_start _ rfl
  jobs hj := .unwritten (.inl (congrArg _ hj)) rfl
  started_once := List.nodup_nil
  unstarted _ := List.not_mem_nil
  started_handed h := nomatch h
  acked_once := List.nodup_nil
  acked_handed h := nomatch h
  covered h := nomatch h
  pend h := nomatch h

/-- However many calls of `enqueue_job` and `process_one_job` run side by side, in
    whatever order their commands fall and however `process_task` ends: while nothing
    fails, no job is lost and none is done twice. -/
theorem job_lifecycle [DecidableEq ι] (ha : Assigned call) {s : Serving ι P}
    (h : (threads memory).Reach NoFailure (start Mem.init fun i => serve json (call i)) s) : JobsSafe call s := by
  obtain ⟨u, hu, rfl⟩ := follows_jobs h
  have hcalm : Calm call u := by
    apply hu.invariant calm_start
    intro u e u' hc hok hs
    obtain ⟨t, hm⟩ := move_of_step ha hc.inv hok hs
    exact hc.step ha hm (hc.inv.step ha hs)
  exact hcalm.safe ha

end Safe

/-! ## A job and two workers -/

/-- The first worker gets the message, the second finds nothing. -/
def oneJobRun : List Who :=
  [.api, .first, .second, .api, .api, .first, .second, .first, .first, .first, .first, .first, .first]

def oneJobDone : Serving Who Unit :=
  ((threads memory).run (start Mem.init fun i => serve unitJson (whoCalls i)) (oneJobRun.map turn)).get rfl

/-- The job is done by the worker that got it. -/
theorem one_job_done : JobsSafe whoCalls oneJobDone ∧
    jobStatus oneJobDone.mem "a" = some "COMPLETED" ∧ jobWorker oneJobDone.mem "a" = some "w1" ∧
    acked oneJobDone.log = [(0, .first)] :=
  have h : (threads memory).Reach NoFailure (start Mem.init fun i => serve unitJson (whoCalls i)) oneJobDone :=
    Machine.reach_of_run _ (fun s e he => by
      obtain ⟨i, -, rfl⟩ := List.mem_map.mp he
      exact ⟨rfl, nofun⟩) (Option.some_get rfl).symm
  ⟨job_lifecycle whoCalls_assigned h, rfl, rfl, rfl⟩

end Playground.Queue
