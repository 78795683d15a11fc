/-
  Playground.Queue.Jobs — every step keeps the jobs' invariant.

  A step is another job's, and `JobAt.frame` applies, or it is the job's producer's or
  the holder's of its message, and the job is at the next point of its life
  (`JobAt.move`). `Calm.step` puts this together with the starts, the
  acknowledgements and the group.
-/

import Playground.Queue.Stage

namespace Playground.Queue

open Playground.Lib Playground.Redis

section Jobs

variable {ι P : Type} [DecidableEq ι] {call : ι → Call P} {u : St ι P} {i : ι} {job : NewJob P} {json : Json P}

/-- A step of the call at the job's message that stays at it. -/
theorem JobAt.stay (h : JobAt call u i job) (hi : Inv call u) (ha : Assigned call) (hj : call i = .enqueue job)
    {t : ι} {task : Task} (ht : (u.ph t).task = some task) (he : job.jobId = task.jobId) {c : Cmd P}
    {r : Except Exc (Ans c)} {m : Mem ι} {p : Phase P} (hp : p.task = some task) (hm : m.stream = u.mem.stream)
    (hw : Worked u job.jobId task.w.workerId (u.ph t) →
      Worked (u.did t c r m p) job.jobId task.w.workerId p) : JobAt call (u.did t c r m p) i job := by
  obtain ⟨hin, hk, hpend, hr⟩ := h.of_task hi ha hj ht he
  refine .held t task (by rwa [Phases.did_ph_same]) (by rwa [Phases.did_mem, hm]) ?_ (by rwa [Phases.did_mem, hm]) ?_
  · rw [Phases.did_log, handed_snoc]
    exact List.mem_append_left _ hk
  · rw [Phases.did_ph_same]
    exact hw hr

/-- A step that only reads, between the status writes of a message. -/
theorem JobAt.pass (h : JobAt call u i job) (hi : Inv call u) (ha : Assigned call) (hj : call i = .enqueue job)
    {t : ι} {task : Task} {c : Cmd P} {r : Except Exc (Ans c)} {p : Phase P} (hp : (u.ph t).processing task)
    (hp' : p.processing task)
    (hset : ∀ jobId, setBy jobId (.did t c r : Entry ι (Cmd P) Ans Exc (World ι)) = none) :
    JobAt call (u.did t c r u.mem p) i job := by
  have htask : ∀ q : Phase P, q.processing task → q.task = some task := by
    intro q hq
    cases q <;> first | exact congrArg some hq | exact hq.elim
  have hof : ∀ q : Phase P, q.processing task → ∀ v : St ι P,
      Worked v job.jobId task.w.workerId q = Record v job.jobId [.pending, .processing] task.w.workerId := by
    intro q hq v
    cases q <;> first | rfl | exact hq.elim
  have hcall : ∃ w, call t = .process w := (hi.before (hi.holds (htask _ hp)).1).2
  by_cases e : job.jobId = task.jobId
  · refine h.stay hi ha hj (htask _ hp) e (htask _ hp') rfl ?_
    intro hr
    rw [hof _ hp] at hr
    rw [hof _ hp']
    exact hr.congr (history_did (hset _)) rfl
  · refine h.frame_stream ?_ ?_ (hi.other_task (htask _ hp) e) (hset _) rfl rfl
    · rintro rfl
      obtain ⟨w, hw⟩ := hcall
      cases hj.symm.trans hw
    · intro r hr
      rw [hr] at hp
      exact hp

/-- A worker's write to the hash of the job of its message. -/
theorem JobAt.put (h : JobAt call u i job) (hi : Inv call u) (ha : Assigned call) (hj : call i = .enqueue job)
    {t : ι} {task : Task} (hcall : call t = .process task.w) (ht : (u.ph t).task = some task)
    (hrun : ∀ r, u.ph t ≠ .ended r) {mapping : List (Field × String)} {p : Phase P}
    (hp : p.task = some task)
    (hw : job.jobId = task.jobId → Worked u job.jobId task.w.workerId (u.ph t) →
      Worked (u.did t (.hset (jobKey task.jobId) mapping) (.ok ())
        { u.mem with hashes := u.mem.hashes.hset (jobKey task.jobId) mapping } p) job.jobId task.w.workerId p) :
    JobAt call (u.did t (.hset (jobKey task.jobId) mapping) (.ok ())
      { u.mem with hashes := u.mem.hashes.hset (jobKey task.jobId) mapping } p) i job := by
  by_cases e : job.jobId = task.jobId
  · exact h.stay hi ha hj ht e hp rfl (hw e)
  · refine h.frame_stream ?_ hrun (hi.other_task ht e) (setBy_ne e) (Hashes.hset_ne _ _ fun he => e (jobKey_inj he)) rfl
    rintro rfl
    cases hj.symm.trans hcall

/-- A read that is handed the entry at the cursor. -/
theorem JobAt.hand (h : JobAt call u i job) (hi : Inv call u) (ha : Assigned call)
    (hpl : ∀ {id w}, (id, w) ∈ u.mem.stream.pending → id < u.mem.stream.cursor) (hj : call i = .enqueue job) {t j : ι}
    {w : Worker} (hcall : call t = .process w) (hp : u.ph t = .reading w) {job' : NewJob P} {m : Mem ι}
    (hj' : call j = .enqueue job') (hm : u.mem.stream.entries[u.mem.stream.cursor]? = some job'.message)
    (hhash : m.hashes = u.mem.hashes) (hent : m.stream.entries = u.mem.stream.entries)
    (hcur : m.stream.cursor = u.mem.stream.cursor + 1)
    (hpend : m.stream.pending = u.mem.stream.pending ++ [(u.mem.stream.cursor, w.workerId)]) :
    JobAt call (u.did t (.xreadgroup w.workerId 1) (.ok [(u.mem.stream.cursor, job'.message)]) m
      (.claiming (taskOf w u.mem.stream.cursor job'))) i job := by
  by_cases e : job.jobId = job'.jobId
  · cases ha.distinct hj hj' e
    cases hj.symm.trans hj'
    have hr := h.waiting hi ha hj hm (Nat.le_refl _)
    refine .held t (taskOf w u.mem.stream.cursor job) (by simp [Phase.task]) (by rwa [Phases.did_mem, hent]) ?_ ?_ ?_
    · rw [Phases.did_log, handed_snoc]
      exact List.mem_append_right _ (List.mem_singleton.mpr rfl)
    · intro v
      have hnot : (u.mem.stream.cursor, v) ∉ u.mem.stream.pending := by
        intro hv
        have := hpl hv
        omega
      simp [hpend, hnot, taskOf]
    · rw [Phases.did_ph_same]
      exact hr.congr (history_did rfl) (by rw [Phases.did_mem, hhash])
  · have hne : t ≠ i := by
      rintro rfl
      cases hj.symm.trans hcall
    refine h.frame hne (by simp [hp]) (by simp [hp, Phase.task]) rfl (by rw [hhash]) (by rw [hent]; exact fun h => h)
      ?_ ?_
    · intro id hm' hid
      have hne : id ≠ u.mem.stream.cursor := by
        rintro rfl
        exact e (Option.some.inj (congrArg Message.jobId (Option.some.inj (hm'.symm.trans hm))))
      rw [hcur]
      omega
    · intro id k _ hk v
      have hlt := (hi.before hk).1
      have hne : id ≠ u.mem.stream.cursor := by omega
      simp [hpend, hne]

/-- A worker's acknowledgement of its message. -/
theorem JobAt.acked (h : JobAt call u i job) (hi : Inv call u) (ha : Assigned call) (hj : call i = .enqueue job)
    {t : ι} {task : Task} {out : Except Exc Unit} (hcall : call t = .process task.w) (hp : u.ph t = .acking task out)
    (res : Except Exc Reply) :
    JobAt call (u.did t (.xack task.id) (.ok ()) { u.mem with stream := u.mem.stream.xack task.id } (.ended res)) i
      job := by
  have htask : (u.ph t).task = some task := by rw [hp]; rfl
  by_cases e : job.jobId = task.jobId
  · have hheld := h.of_task hi ha hj htask e
    rw [hp] at hheld
    obtain ⟨hm, hk, hpend, last, hl, hr⟩ := hheld
    refine .done task.id t task.w res (by simp) hm hcall ?_ ?_ ?_ ⟨last, hl, hr.congr (history_did rfl) rfl⟩
    · rw [Phases.did_log, handed_snoc]
      exact List.mem_append_left _ hk
    · simp
    · rw [Phases.did_log, acked_snoc]
      exact List.mem_append_right _ (List.mem_singleton.mpr rfl)
  · have hne : t ≠ i := by
      rintro rfl
      cases hj.symm.trans hcall
    refine h.frame hne (by simp [hp]) (hi.other_task htask e) rfl rfl (by simp) (by simp) ?_
    intro id k hm _ v
    have hne : id ≠ task.id := by
      rintro rfl
      exact hi.other_task htask e task htask hm
    simp [hne]

theorem JobAt.move (h : JobAt call u i job) (hi : Inv call u) (ha : Assigned call)
    (hpl : ∀ {id w}, (id, w) ∈ u.mem.stream.pending → id < u.mem.stream.cursor) (hj : call i = .enqueue job) {t : ι}
    {u' : St ι P} (hm : Move json call u t u') : JobAt call u' i job := by
  have hof := hi.own t
  have hworker : ∀ {w : Worker}, call t = .process w → t ≠ i := by
    rintro w hw rfl
    cases hj.symm.trans hw
  cases hm with
  | group m r hp hs =>
    obtain ⟨hhash, hent, hcur, hpend⟩ := hs
    have hrun : ∀ r, u.ph t ≠ .ended r := by simp [hp]
    by_cases e : t = i
    · subst e
      rcases h.at_home hi ha hj hrun with ⟨-, hh⟩ | ⟨hp', -⟩
      · exact .unwritten (.inr (by simp [hj, Phase.afterGroup])) ((history_did rfl).trans hh)
      · rw [hp] at hp'
        cases hp'
    · exact h.frame e hrun (by simp [hp, Phase.task]) rfl (by rw [hhash]) (by rw [hent]; exact fun h => h)
        (fun _ hid => by rwa [hcur]) (fun _ _ _ => by rw [hpend])
  | write job' hp =>
    rw [hp] at hof
    have hrun : ∀ r, u.ph t ≠ .ended r := by simp [hp]
    by_cases e : t = i
    · subst e
      cases hj.symm.trans hof
      rcases h.at_home hi ha hj hrun with ⟨-, hh⟩ | ⟨hp', -⟩
      · exact .unsent (by simp) (Record.write [] hh (data_status json job) (data_workerId json job))
      · rw [hp] at hp'
        cases hp'
    · have hne : job.jobId ≠ job'.jobId := fun he => e (ha.distinct hof hj he.symm)
      exact h.frame_stream e hrun (by simp [hp, Phase.task]) (setBy_ne hne)
        (Hashes.hset_ne _ _ fun he => hne (jobKey_inj he)) rfl
  | send job' hp =>
    rw [hp] at hof
    have hrun : ∀ r, u.ph t ≠ .ended r := by simp [hp]
    by_cases e : t = i
    · subst e
      cases hj.symm.trans hof
      rcases h.at_home hi ha hj hrun with ⟨hp' | hp', -⟩ | ⟨-, hr⟩
      · rw [hp] at hp'
        cases hp'
      · rw [hp] at hp'
        cases hp'
      · exact .queued u.mem.stream.entries.length (by simp) hi.cursor_le (hr.congr (history_did rfl) rfl)
    · refine h.frame e hrun (by simp [hp, Phase.task]) rfl rfl ?_ (fun _ h => h) (fun _ _ _ => Iff.rfl)
      intro id x hx
      rw [Stream.xadd_entries, List.getElem?_append_left (List.getElem?_eq_some_iff.mp hx).1]
      exact hx
  | miss w r res hp hr =>
    rw [hp] at hof
    exact h.frame_stream (hworker hof) (by simp [hp]) (by simp [hp, Phase.task]) rfl rfl rfl
  | hand j job' w m hp hj' hm hhash hent hcur hpend =>
    rw [hp] at hof
    exact h.hand hi ha hpl hj hof hp hj' hm hhash hent hcur hpend
  | claim task hp now =>
    rw [hp] at hof
    refine h.put hi ha hj hof.1 (by rw [hp]; rfl) (by simp [hp]) rfl fun e hr => ?_
    rw [hp] at hr
    rw [e] at hr ⊢
    exact Record.write [.pending] hr.1 rfl (statusMapping_workerId _ _ _ _ (ha.worker_ne hof.1))
  | load task payload r hp => exact h.pass hi ha hj (by rw [hp]; rfl) rfl fun _ => rfl
  | start task payload r hp => exact h.pass hi ha hj (by rw [hp]; rfl) rfl fun _ => rfl
  | work task r p hp hn =>
    obtain ⟨text, rfl | rfl⟩ := hn <;> exact h.pass hi ha hj (by rw [hp]; rfl) rfl fun _ => rfl
  | finish task last now result hp hl =>
    obtain ⟨text, hp⟩ := hp
    have htask : (u.ph t).task = some task := by rcases hp with hp | hp <;> (rw [hp]; rfl)
    have hrun : ∀ r, u.ph t ≠ .ended r := by rcases hp with hp | hp <;> simp [hp]
    have hcall : call t = .process task.w := by rcases hp with hp | hp <;> (rw [hp] at hof; exact hof.1)
    refine h.put hi ha hj hcall htask hrun rfl fun e hr => ⟨last, hl, ?_⟩
    have hr' : Record u job.jobId [.pending, .processing] task.w.workerId := by
      rcases hp with hp | hp <;> (rw [hp] at hr; exact hr)
    rw [e] at hr' ⊢
    exact Record.write [.pending, .processing] hr'.1 rfl (statusMapping_workerId _ _ _ _ (ha.worker_ne hcall))
  | ack task out res hp =>
    rw [hp] at hof
    exact h.acked hi ha hj hof.1 hp res

section Rest

variable {u' : St ι P} {t : ι}

theorem Calm.step (ha : Assigned call) (hc : Calm call u) (hm : Move json call u t u') (hi' : Inv call u') :
    Calm call u' := by
  have hjobs : ∀ {i job}, call i = .enqueue job → JobAt call u' i job :=
    fun hj => (hc.jobs hj).move hc.inv ha hc.pend hj hm
  have hcur := hm.cursor
  obtain ⟨c, r, m, p, rfl, hrun, hstart, hack⟩ := hm.did hc.inv
  refine ⟨hi', hjobs, ?_, ?_, ?_, ?_, ?_, ?_, ?_⟩
  · rw [Phases.did_log, started_snoc]
    rcases hstart with ⟨h, -⟩ | ⟨h, hun, -⟩
    · simpa [h] using hc.started_once
    · rw [h]
      apply List.Nodup.append hc.started_once (List.nodup_singleton _)
      intro k hk hk'
      cases List.mem_singleton.mp hk'
      exact hc.unstarted hun hk
  · intro k hk
    rw [Phases.did_log, started_snoc]
    by_cases e : k = t
    · subst e
      rw [Phases.did_ph_same] at hk
      rcases hstart with ⟨h, hsub⟩ | ⟨-, -, hnot, -⟩
      · simpa [h] using hc.unstarted (hsub hk)
      · exact absurd hk hnot
    · rw [Phases.did_ph_ne _ _ _ _ _ _ e] at hk
      rcases hstart with ⟨h, -⟩ | ⟨h, -⟩
      · simpa [h] using hc.unstarted hk
      · simpa [h, e] using hc.unstarted hk
  · intro k hk
    rw [Phases.did_log, started_snoc] at hk
    have hold : k ∈ started u.log → ∃ id, (id, k) ∈ handed (u.did t c r m p).log := fun h =>
      (hc.started_handed h).imp fun _ => handed_mono
    rcases hstart with ⟨h, -⟩ | ⟨h, -, -, task, htask⟩
    · exact hold (by simpa [h] using hk)
    · rcases List.mem_append.mp (h ▸ hk) with hk | hk
      · exact hold hk
      · cases List.mem_singleton.mp hk
        exact ⟨task.id, handed_mono (hc.inv.holds htask).1⟩
  · rw [Phases.did_log, acked_snoc]
    rcases hack with h | ⟨id, res, h, hk, -⟩
    · simpa [h] using hc.acked_once
    · rw [h, List.map_append]
      apply List.Nodup.append hc.acked_once (List.nodup_singleton _)
      intro id' h1 h2
      obtain ⟨⟨id'', k⟩, hk', rfl⟩ := List.mem_map.mp h1
      cases List.mem_singleton.mp h2
      -- who acknowledged it has ended, and it is this call
      obtain ⟨hh, r', hr'⟩ := hc.acked_handed hk'
      cases hc.inv.one_call hk hh
      exact hrun r' hr'
  · intro id k hk
    rw [Phases.did_log, acked_snoc] at hk
    have hold : (id, k) ∈ acked u.log → (id, k) ∈ handed (u.did t c r m p).log ∧
        ∃ r', (u.did t c r m p).ph k = .ended r' := by
      intro h
      obtain ⟨hh, r', hr'⟩ := hc.acked_handed h
      have hne : k ≠ t := fun e => hrun r' (e ▸ hr')
      exact ⟨handed_mono hh, r', by rwa [Phases.did_ph_ne _ _ _ _ _ _ hne]⟩
    rcases hack with h | ⟨id', res, h, hk', rfl⟩
    · exact hold (by simpa [h] using hk)
    · rcases List.mem_append.mp (h ▸ hk) with hk | hk
      · exact hold hk
      · cases List.mem_singleton.mp hk
        exact ⟨handed_mono hk', res, Phases.did_ph_same ..⟩
  · intro id hid
    rcases hcur with ⟨h, -⟩ | ⟨w, h, hnew, -⟩
    · rw [h] at hid
      exact (hc.covered hid).imp fun _ => handed_mono
    · rw [h] at hid
      rcases Nat.lt_succ_iff_lt_or_eq.mp hid with hid | rfl
      · exact (hc.covered hid).imp fun _ => handed_mono
      · exact ⟨t, hnew⟩
  · intro id w hp
    rcases hcur with ⟨h, hsub⟩ | ⟨w', h, -, hpend⟩
    · rw [h]
      exact hc.pend (hsub hp)
    · rw [h]
      rw [hpend] at hp
      rcases List.mem_append.mp hp with hp | hp
      · have := hc.pend hp
        omega
      · cases List.mem_singleton.mp hp
        omega

end Rest

end Jobs

end Playground.Queue
