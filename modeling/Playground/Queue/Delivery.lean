/-
  Playground.Queue.Delivery — who holds which message.

  Over any run, whatever crashes or fails: a message is an `enqueue_job`'s that is over,
  no two messages have the same job, each is handed to at most one call, and each call is
  handed at most one (`Inv`, kept by `Inv.step`). What becomes of a job depends on the one
  call that holds its message.
-/

import Mathlib.Data.List.Nodup
import Playground.Queue.Progress

namespace Playground.Queue

open Playground.Lib Playground.Redis

section Delivery

variable {ι P : Type}

abbrev Log (ι P : Type) := List (Entry ι (Cmd P) Ans Exc (World ι))

/-- The calls over Redis. -/
abbrev Serving (ι P : Type) := Threads ι (Cmd P) Ans Exc Reply (World ι) (Mem ι)

/-- A state of their flow chart. -/
abbrev St (ι P : Type) := Phases ι (Cmd P) Ans Exc (World ι) (Mem ι) (Phase P)

/-! ## Histories -/

def handedBy : Entry ι (Cmd P) Ans Exc (World ι) → List (Nat × ι)
  | .did i (.xreadgroup _ _) (.ok messages) => messages.map fun m => (m.1, i)
  | _ => []

/-- The messages that reads were handed, each with the call that read it. -/
def handed (log : Log ι P) : List (Nat × ι) := log.flatMap handedBy

def ackedBy : Entry ι (Cmd P) Ans Exc (World ι) → Option (Nat × ι)
  | .did i (.xack id) (.ok _) => some (id, i)
  | _ => none

/-- The acknowledgements, each with the call that sent it. -/
def acked (log : Log ι P) : List (Nat × ι) := log.filterMap ackedBy

def startedBy : Entry ι (Cmd P) Ans Exc (World ι) → Option ι
  | .did i (.startTask ..) _ => some i
  | _ => none

/-- The calls that started `process_task`, once for each start. -/
def started (log : Log ι P) : List ι := log.filterMap startedBy

def setBy (jobId : String) : Entry ι (Cmd P) Ans Exc (World ι) → Option String
  | .did _ (.hset key mapping) (.ok _) => if key = jobKey jobId then mapping.lookup .status else none
  | _ => none

/-- The statuses a job's hash has been set to. -/
def history (log : Log ι P) (jobId : String) : List String := log.filterMap (setBy jobId)

variable (log : Log ι P) (e : Entry ι (Cmd P) Ans Exc (World ι)) (jobId : String)

@[simp] theorem handed_snoc : handed (log ++ [e]) = handed log ++ handedBy e := by simp [handed]
@[simp] theorem acked_snoc : acked (log ++ [e]) = acked log ++ (ackedBy e).toList := by
  rw [acked, List.filterMap_append, filterMap_one, acked]
@[simp] theorem started_snoc : started (log ++ [e]) = started log ++ (startedBy e).toList := by
  rw [started, List.filterMap_append, filterMap_one, started]
@[simp] theorem history_snoc : history (log ++ [e]) jobId = history log jobId ++ (setBy jobId e).toList := by
  rw [history, List.filterMap_append, filterMap_one, history]

/-! ## The calls -/

/-- Job ids are distinct and not empty, and neither are worker ids. -/
structure Assigned (call : ι → Call P) : Prop where
  distinct : ∀ {i i' job job'}, call i = .enqueue job → call i' = .enqueue job' → job.jobId = job'.jobId → i = i'
  job_ne : ∀ {i job}, call i = .enqueue job → job.jobId ≠ ""
  worker_ne : ∀ {i w}, call i = .process w → w.workerId ≠ ""

/-- Entry `id` of the stream is a message of the job. -/
def InStream (m : Mem ι) (jobId : String) (id : Nat) : Prop :=
  ∃ message, m.stream.entries[id]? = some message ∧ message.jobId = some jobId

def jobStatus (m : Mem ι) (jobId : String) : Option String := m.hashes.field (jobKey jobId) .status

def jobWorker (m : Mem ι) (jobId : String) : Option String := m.hashes.field (jobKey jobId) .workerId

def Terminal (m : Mem ι) (jobId : String) : Prop :=
  jobStatus m jobId = some Status.completed.str ∨ jobStatus m jobId = some Status.failed.str

/-- No call has run, over a Redis with no jobs, no stream and no group. -/
def Mem.init : Mem ι := ⟨fun _ => none, .empty, fun _ => false⟩

/-- Only a `process_one_job` crashes or has a Redis command fail. -/
def WorkersFail (call : ι → Call P) (_ : Serving ι P) : Ev ι Chance (World ι) → Prop
  | .run i x => x.fault ≠ none → ∃ w, call i = .process w
  | .env (.crash i) => ∃ w, call i = .process w

/-- The phases of a call. A message always has a job id, and is the only one read. -/
def Phase.Of (c : Call P) : Phase P → Prop
  | .grouping c' => c' = c
  | .writing job | .sending job => c = .enqueue job
  | .reading w => c = .process w
  | .blank .. => False
  | .ended _ => True
  | .claiming t | .loading t | .starting t _ | .working t | .completing t _ | .failing t _ | .acking t _ =>
    c = .process t.w ∧ t.rest = []

/-- Before its read. -/
def Phase.unread : Phase P → Prop
  | .grouping _ | .reading _ => True
  | _ => False

structure Inv (call : ι → Call P) (u : St ι P) : Prop where
  own : ∀ i, (u.ph i).Of (call i)
  cursor_le : u.mem.stream.cursor ≤ u.mem.stream.entries.length
  sent : ∀ {id : Nat} {m}, u.mem.stream.entries[id]? = some m →
    ∃ i job r, call i = .enqueue job ∧ m = job.message ∧ u.ph i = .ended r
  arrived : ∀ {i job r}, call i = .enqueue job → u.ph i = .ended (.ok r) →
    ∃ id : Nat, u.mem.stream.entries[id]? = some job.message
  distinct : ∀ {id id' : Nat} {m m'}, u.mem.stream.entries[id]? = some m → u.mem.stream.entries[id']? = some m' →
    m.jobId = m'.jobId → id = id'
  once : ((handed u.log).map Prod.fst).Nodup
  single : ((handed u.log).map Prod.snd).Nodup
  before : ∀ {id k}, (id, k) ∈ handed u.log → id < u.mem.stream.cursor ∧ ∃ w, call k = .process w
  unread : ∀ {id k}, (u.ph k).unread → (id, k) ∉ handed u.log
  holds : ∀ {k t}, (u.ph k).task = some t → (t.id, k) ∈ handed u.log ∧
    ∃ m, u.mem.stream.entries[t.id]? = some m ∧ m.jobId = some t.jobId

variable {call : ι → Call P} {u : St ι P} {i : ι} {job : NewJob P}

/-- A message is handed to one call. -/
theorem Inv.one_call (hi : Inv call u) {id : Nat} {k k' : ι} (h : (id, k) ∈ handed u.log)
    (h' : (id, k') ∈ handed u.log) : k = k' :=
  congrArg Prod.snd (List.inj_on_of_nodup_map hi.once h h' rfl)

/-- A call is handed one message. -/
theorem Inv.one_message (hi : Inv call u) {id id' : Nat} {k : ι} (h : (id, k) ∈ handed u.log)
    (h' : (id', k) ∈ handed u.log) : id = id' :=
  congrArg Prod.fst (List.inj_on_of_nodup_map hi.single h h' rfl)

theorem Inv.inStream_inj (hi : Inv call u) {jobId : String} {id id' : Nat} (h : InStream u.mem jobId id)
    (h' : InStream u.mem jobId id') : id = id' := by
  obtain ⟨m, hm, he⟩ := h
  obtain ⟨m', hm', he'⟩ := h'
  exact hi.distinct hm hm' (he.trans he'.symm)

/-- A call whose job is in the stream has ended. -/
theorem Inv.sender_ended (hi : Inv call u) (ha : Assigned call) (hj : call i = .enqueue job) {id : Nat}
    (hm : u.mem.stream.entries[id]? = some job.message) : ∃ r, u.ph i = .ended r := by
  obtain ⟨i', job', r, hj', he, hr⟩ := hi.sent hm
  have hid : job.jobId = job'.jobId := Option.some.inj (congrArg Message.jobId he)
  cases ha.distinct hj hj' hid
  exact ⟨r, hr⟩

/-- A call at another job's message is not at this one's. -/
theorem Inv.other_task (hi : Inv call u) {t : ι} {task : Task} (ht : (u.ph t).task = some task)
    (hne : job.jobId ≠ task.jobId) :
    ∀ task', (u.ph t).task = some task' → u.mem.stream.entries[task'.id]? ≠ some job.message := by
  intro task' ht' hm
  cases ht.symm.trans ht'
  obtain ⟨-, m, hm', hmj⟩ := hi.holds ht
  cases hm.symm.trans hm'
  exact hne (Option.some.inj hmj)

/-- A call that was handed a message and still runs is at it. -/
theorem Inv.task_of_handed (hi : Inv call u) {id : Nat} {k : ι} (h : (id, k) ∈ handed u.log)
    (hrun : ∀ r, u.ph k ≠ .ended r) : ∃ t, (u.ph k).task = some t ∧ t.id = id := by
  have hof := hi.own k
  obtain ⟨-, w, hw⟩ := hi.before h
  cases hp : u.ph k with
  | grouping | reading => exact absurd h (hi.unread (by rw [hp]; trivial))
  | writing | sending =>
    rw [hp] at hof
    cases hw.symm.trans hof
  | blank => rw [hp] at hof; exact hof.elim
  | ended r => exact absurd hp (hrun r)
  | claiming t | loading t | starting t | working t | completing t | failing t | acking t =>
    have ht : (u.ph k).task = some t := by rw [hp]; rfl
    exact ⟨t, hp ▸ ht, hi.one_message (hi.holds ht).1 h⟩

theorem inv_start (m : Mem ι) (hm : m.stream = .empty) : Inv call ⟨m, fun i => .grouping (call i), []⟩ where
  own _ := rfl
  cursor_le := by rw [hm]; exact Nat.le_refl _
  sent h := by rw [hm] at h; cases h
  arrived _ h := nomatch h
  distinct h := by rw [hm] at h; cases h
  once := List.nodup_nil
  single := List.nodup_nil
  before h := nomatch h
  unread _ h := nomatch h
  holds h := nomatch h

/-! ## Steps -/

section Steps

variable {json : Json P}

theorem Chance.reply_cases {α : Type} (x : Chance) (m : Mem ι) (r : Except Exc α × Mem ι) :
    x.reply m r = r ∨ x.fault ≠ none ∧ ∃ e, x.reply m r = (.error e, m) ∨ x.reply m r = (.error e, r.2) := by
  unfold Chance.reply
  cases x.fault with
  | none => exact .inl rfl
  | some f =>
    obtain ⟨effect, e⟩ := f
    cases effect with
    | false => exact .inr ⟨nofun, e, .inl rfl⟩
    | true => exact .inr ⟨nofun, e, .inr rfl⟩

/-- The commands that add no entry and hand none out. -/
def Cmd.quiet : Cmd P → Prop
  | .xadd _ | .xreadgroup .. => False
  | _ => True

theorem handedBy_quiet {c : Cmd P} (hc : c.quiet) (i : ι) (r : Except Exc (Ans c)) :
    handedBy (.did i c r : Entry ι (Cmd P) Ans Exc (World ι)) = [] := by
  cases c <;> first | rfl | cases hc

variable [DecidableEq ι]

section Exec

variable {i : ι} {c : Cmd P} {x : Chance} {m : Mem ι} {rm : Except Exc (Ans c) × Mem ι}

theorem exec_live (hx : memory.exec i c x m = some rm) : m.dead i = false := by
  cases hd : m.dead i with
  | true => simp [memory, hd] at hx
  | false => rfl

/-- A command that fails leaves memory as it was, or as if it had not failed. -/
theorem exec_fault (hx : memory.exec i c x m = some rm) :
    ∃ rm', memory.exec i c ⟨none, x.outcome⟩ m = some rm' ∧
      (rm = rm' ∨ x.fault ≠ none ∧ ∃ e, rm = (.error e, m) ∨ rm = (.error e, rm'.2)) := by
  have hd := exec_live hx
  simp only [memory, hd] at hx ⊢
  cases hx
  refine ⟨_, rfl, ?_⟩
  cases c with
  | startTask | awaitTask => exact .inl rfl
  | _ => exact x.reply_cases m _

/-- What holds before a command, and after it when it does not fail, holds after it. -/
theorem exec_keeps {Q : Mem ι → Prop} (hx : memory.exec i c x m = some rm) (h0 : Q m)
    (h1 : ∀ rm', memory.exec i c ⟨none, x.outcome⟩ m = some rm' → Q rm'.2) : Q rm.2 := by
  obtain ⟨rm', hx', rfl | ⟨-, e, rfl | rfl⟩⟩ := exec_fault hx
  · exact h1 _ hx'
  · exact h0
  · exact h1 rm' hx'

theorem exec_dead (hx : memory.exec i c x m = some rm) : rm.2.dead = m.dead := by
  have hd := exec_live hx
  apply exec_keeps (Q := fun m' => m'.dead = m.dead) hx rfl
  intro rm' hx'
  simp only [memory, hd, Chance.reply] at hx'
  cases hx'
  cases c with
  | xgroupCreate | xreadgroup =>
    simp only
    split <;> rfl
  | hset | hgetall | xadd | xack | startTask | awaitTask => rfl

/-- A quiet command leaves the entries and the group's cursor. -/
theorem exec_quiet (hc : c.quiet) (hx : memory.exec i c x m = some rm) :
    rm.2.stream.entries = m.stream.entries ∧ rm.2.stream.cursor = m.stream.cursor := by
  have hd := exec_live hx
  refine exec_keeps (Q := fun m' => m'.stream.entries = m.stream.entries ∧ m'.stream.cursor = m.stream.cursor) hx
    ⟨rfl, rfl⟩ ?_
  intro rm' hx'
  simp only [memory, hd, Chance.reply] at hx'
  cases hx'
  cases c with
  | xadd | xreadgroup => exact hc.elim
  | xgroupCreate =>
    cases hg : m.stream.xgroupCreate with
    | none => exact ⟨rfl, rfl⟩
    | some s => exact ⟨(Stream.xgroupCreate_same hg).1, (Stream.xgroupCreate_same hg).2.1⟩
  | xack id => exact ⟨rfl, Stream.xack_cursor id⟩
  | hset | hgetall | startTask | awaitTask => exact ⟨rfl, rfl⟩

end Exec

theorem handed_mono {t : ι} {c : Cmd P} {r : Except Exc (Ans c)} {m : Mem ι} {p : Phase P} {e : Nat × ι}
    (h : e ∈ handed u.log) : e ∈ handed (u.did t c r m p).log := by
  rw [Phases.did_log, handed_snoc]
  exact List.mem_append_left _ h

omit [DecidableEq ι] in
/-- The call ends after its only message. -/
theorem leave_ended {t : Task} (out : Except Exc Unit) (h : t.rest = []) :
    ∃ res, (Phase.leave t out : Phase P) = .ended res := by
  cases out with
  | ok a => exact ⟨.ok (.processed true), by simp only [Phase.leave, h, Phase.enter]⟩
  | error e => exact ⟨.error e, rfl⟩

omit [DecidableEq ι] in
/-- A call that goes on has not ended. -/
theorem running {p : Phase P} {c : Cmd P} {k : Except Exc (Ans c) → Phase P} (hh : headOf json p = .goes c k)
    (res : Except Exc Reply) : p ≠ .ended res := by
  rintro rfl
  cases hh

omit [DecidableEq ι] in
/-- From a quiet command a call goes on with the message it is at, or with none. -/
theorem next_quiet {p : Phase P} {c : Cmd P} {k : Except Exc (Ans c) → Phase P} {cl : Call P}
    (hh : headOf json p = .goes c k) (hc : c.quiet) (hof : p.Of cl) (r : Except Exc (Ans c)) :
    (k r).Of cl ∧ (∀ t, (k r).task = some t → p.task = some t) ∧ ((k r).unread → p.unread) ∧
      ∀ job a, cl = .enqueue job → k r ≠ .ended (.ok a) := by
  cases p with
  | sending | reading => cases hh; exact hc.elim
  | blank => exact hof.elim
  | ended => cases hh
  | grouping c' =>
    cases hh
    cases hof
    have hafter : (Phase.afterGroup cl : Phase P).Of cl ∧
        (∀ t, (Phase.afterGroup cl : Phase P).task = some t → (Phase.grouping cl : Phase P).task = some t) ∧
        ((Phase.afterGroup cl : Phase P).unread → (Phase.grouping cl : Phase P).unread) ∧
        ∀ job a, cl = .enqueue job → Phase.afterGroup cl ≠ .ended (.ok a) := by
      cases cl <;> exact ⟨rfl, nofun, fun _ => trivial, nofun⟩
    cases r with
    | ok a => exact hafter
    | error e =>
      simp only
      split
      · exact hafter
      · exact ⟨trivial, nofun, nofun, nofun⟩
  | writing job =>
    cases hh
    cases r with
    | ok a => exact ⟨hof, nofun, nofun, nofun⟩
    | error e => exact ⟨trivial, nofun, nofun, nofun⟩
  | claiming t | loading t =>
    cases hh
    cases r with
    | ok a => exact ⟨hof, fun _ h => h, nofun, nofun⟩
    | error e => exact ⟨trivial, nofun, nofun, nofun⟩
  | starting t | working t | completing t =>
    cases hh
    cases r with
    | ok a => exact ⟨hof, fun _ h => h, nofun, nofun⟩
    | error e => cases e <;> exact ⟨hof, fun _ h => h, nofun, nofun⟩
  | failing t =>
    cases hh
    exact ⟨hof, fun _ h => h, nofun, nofun⟩
  | acking t out =>
    cases hh
    obtain ⟨rfl, hrest⟩ := hof
    cases r with
    | error e => exact ⟨trivial, nofun, nofun, nofun⟩
    | ok a =>
      obtain ⟨res, hres⟩ := leave_ended out hrest
      show (Phase.leave t out).Of _ ∧ _
      rw [hres]
      exact ⟨trivial, nofun, nofun, nofun⟩

section Kept

variable {c : Cmd P} {r : Except Exc (Ans c)} {m : Mem ι} {p : Phase P}

theorem Inv.own_did (hi : Inv call u) (hof : p.Of (call i)) : ∀ j, ((u.did i c r m p).ph j).Of (call j) :=
  (Phases.forall_did (Q := fun j => Phase.Of (call j))).mpr ⟨hof, fun j _ => hi.own j⟩

/-- The senders have ended, so the call that moved is none of them. -/
theorem Inv.sent_did (hi : Inv call u) (hrun : ∀ res, u.ph i ≠ .ended res) {id : Nat} {message : Message}
    (h : u.mem.stream.entries[id]? = some message) :
    ∃ j job res, call j = .enqueue job ∧ message = job.message ∧ (u.did i c r m p).ph j = .ended res := by
  obtain ⟨j, job, res, hj, hm, hp⟩ := hi.sent h
  have hne : j ≠ i := fun e => hrun res (e ▸ hp)
  exact ⟨j, job, res, hj, hm, by simpa [hne] using hp⟩

theorem Inv.arrived_did (hi : Inv call u) (hend : ∀ job a, call i = .enqueue job → p ≠ .ended (.ok a)) {j : ι}
    {a : Reply} (hj : call j = .enqueue job) (hp : (u.did i c r m p).ph j = .ended (.ok a)) :
    ∃ id : Nat, u.mem.stream.entries[id]? = some job.message := by
  by_cases e : j = i
  · subst e
    exact absurd (by simpa using hp) (hend job a hj)
  · exact hi.arrived hj (by simpa [e] using hp)

/-- A step that adds no entry and hands none out, of a call that goes on with the
    message it is at, or with none. -/
theorem Inv.kept (hi : Inv call u) (hrun : ∀ res, u.ph i ≠ .ended res) (hof : p.Of (call i))
    (htask : ∀ t, p.task = some t → (u.ph i).task = some t) (hunread : p.unread → (u.ph i).unread)
    (hend : ∀ job a, call i = .enqueue job → p ≠ .ended (.ok a))
    (hnone : handedBy (.did i c r : Entry ι (Cmd P) Ans Exc (World ι)) = [])
    (hent : m.stream.entries = u.mem.stream.entries) (hcur : u.mem.stream.cursor ≤ m.stream.cursor)
    (hlen : m.stream.cursor ≤ m.stream.entries.length) : Inv call (u.did i c r m p) := by
  have hlog : handed (u.did i c r m p).log = handed u.log := by
    rw [Phases.did_log, handed_snoc, hnone, List.append_nil]
  refine ⟨hi.own_did hof, hlen, fun h => hi.sent_did hrun (hent ▸ h), ?_, ?_, ?_, ?_, ?_, ?_, ?_⟩
  · intro j job res hj hp
    rw [Phases.did_mem, hent]
    exact hi.arrived_did hend hj hp
  · intro id id' m1 m2 h1 h2
    rw [Phases.did_mem, hent] at h1 h2
    exact hi.distinct h1 h2
  · rw [hlog]
    exact hi.once
  · rw [hlog]
    exact hi.single
  · intro id j h
    obtain ⟨hlt, hw⟩ := hi.before (hlog ▸ h)
    have hlt' : id < m.stream.cursor := by omega
    exact ⟨hlt', hw⟩
  · intro id j hj
    rw [hlog]
    by_cases e : j = i
    · subst e
      exact hi.unread (hunread (by simpa using hj))
    · exact hi.unread (by simpa [e] using hj)
  · intro j t hj
    rw [hlog, Phases.did_mem, hent]
    by_cases e : j = i
    · subst e
      exact hi.holds (htask t (by simpa using hj))
    · exact hi.holds (by simpa [e] using hj)

end Kept

/-- A step that changes neither the entries nor what has been handed out. -/
theorem Inv.quiet (hi : Inv call u) {i : ι} {c : Cmd P} {k : Except Exc (Ans c) → Phase P} {r : Except Exc (Ans c)}
    {m : Mem ι} (hh : headOf json (u.ph i) = .goes c k) (hc : c.quiet)
    (hent : m.stream.entries = u.mem.stream.entries) (hcur : m.stream.cursor = u.mem.stream.cursor) :
    Inv call (u.did i c r m (k r)) := by
  obtain ⟨hof, htask, hunread, hend⟩ := next_quiet hh hc (hi.own i) r
  have hlen : m.stream.cursor ≤ m.stream.entries.length := by
    rw [hcur, hent]
    exact hi.cursor_le
  exact hi.kept (running hh) hof htask hunread hend (handedBy_quiet hc i r) hent (Nat.le_of_eq hcur.symm) hlen

/-- An `XADD` that took effect, with its reply or without: the last entry is the call's. -/
theorem Inv.send (ha : Assigned call) (hi : Inv call u) {i : ι} {job : NewJob P} {r : Except Exc Nat}
    {res : Except Exc Reply} {m : Mem ι} (hp : u.ph i = .sending job)
    (hent : m.stream.entries = u.mem.stream.entries ++ [job.message])
    (hcur : m.stream.cursor = u.mem.stream.cursor) :
    Inv call (u.did i (.xadd job.message) r m (.ended res)) := by
  have hcall : call i = .enqueue job := by
    have := hi.own i
    rwa [hp] at this
  have hlog : handed (u.did i (.xadd job.message) r m (.ended res)).log = handed u.log := by
    rw [Phases.did_log, handed_snoc]
    exact List.append_nil _
  have hold : ∀ {id : Nat} {m'}, m.stream.entries[id]? = some m' →
      u.mem.stream.entries[id]? = some m' ∨ (id = u.mem.stream.entries.length ∧ m' = job.message) := by
    intro id m' h
    rw [hent, List.getElem?_append] at h
    split at h
    · exact .inl h
    · obtain ⟨h1, h2⟩ := List.getElem?_eq_some_iff.mp h
      have hz : id - u.mem.stream.entries.length = 0 := by simpa using h1
      exact .inr ⟨by omega, by simpa [hz] using h2.symm⟩
  have hgrow : ∀ {id : Nat} {m'}, u.mem.stream.entries[id]? = some m' → m.stream.entries[id]? = some m' := by
    intro id m' h
    rw [hent, List.getElem?_append_left (List.getElem?_eq_some_iff.mp h).1]
    exact h
  -- no entry had the job yet: its call had not ended
  have hnew : ∀ {id : Nat} {m'}, u.mem.stream.entries[id]? = some m' → m'.jobId ≠ job.message.jobId := by
    intro id m' h hj
    obtain ⟨j, job', r, hj', rfl, hr⟩ := hi.sent h
    cases ha.distinct hj' hcall (Option.some.inj hj)
    rw [hp] at hr
    cases hr
  refine ⟨hi.own_did trivial, ?_, ?_, ?_, ?_, ?_, ?_, ?_, ?_, ?_⟩
  · rw [Phases.did_mem, hcur, hent, List.length_append]
    have := hi.cursor_le
    omega
  · intro id m' h
    rcases hold h with h | ⟨-, rfl⟩
    · exact hi.sent_did (by simp [hp]) h
    · exact ⟨i, job, res, hcall, rfl, by simp⟩
  · intro j job' r hj hr
    by_cases e : j = i
    · subst e
      cases hcall.symm.trans hj
      exact ⟨u.mem.stream.entries.length, by simp [hent]⟩
    · obtain ⟨id, h⟩ := hi.arrived hj (by simpa [e] using hr)
      exact ⟨id, hgrow h⟩
  · intro id id' m1 m2 h1 h2 he
    rcases hold h1 with g1 | ⟨rfl, rfl⟩ <;> rcases hold h2 with g2 | ⟨rfl, rfl⟩
    · exact hi.distinct g1 g2 he
    · exact absurd he (hnew g1)
    · exact absurd he.symm (hnew g2)
    · rfl
  · rw [hlog]
    exact hi.once
  · rw [hlog]
    exact hi.single
  · intro id j h
    rw [Phases.did_mem, hcur]
    exact hi.before (hlog ▸ h)
  · intro id j hj
    rw [hlog]
    by_cases e : j = i
    · subst e
      simp [Phase.unread] at hj
    · exact hi.unread (by simpa [e] using hj)
  · intro j t hj
    rw [hlog, Phases.did_mem]
    by_cases e : j = i
    · subst e
      simp [Phase.task] at hj
    · obtain ⟨h1, m', h2, h3⟩ := hi.holds (by simpa [e] using hj)
      exact ⟨h1, m', hgrow h2, h3⟩

/-- A read past the cursor: the call, with a reply it has lost or with none left. -/
theorem Inv.missed (hi : Inv call u) {i : ι} {w : Worker} {n : Nat} {r : Except Exc (List (Nat × Message))}
    {res : Except Exc Reply} {m : Mem ι} (hp : u.ph i = .reading w)
    (hr : handedBy (.did i (.xreadgroup w.workerId n) r : Entry ι (Cmd P) Ans Exc (World ι)) = [])
    (hent : m.stream.entries = u.mem.stream.entries) (hcur : u.mem.stream.cursor ≤ m.stream.cursor)
    (hlen : m.stream.cursor ≤ m.stream.entries.length) :
    Inv call (u.did i (.xreadgroup w.workerId n) r m (.ended res)) := by
  have hcall : call i = .process w := by
    have := hi.own i
    rwa [hp] at this
  exact hi.kept (by simp [hp]) trivial nofun nofun (fun job a hj => by cases hcall.symm.trans hj) hr hent hcur hlen

/-- The task of a call that was handed the message of `job`. -/
def taskOf (w : Worker) (id : Nat) (job : NewJob P) : Task := ⟨w, id, job.jobId, job.taskType, []⟩

/-- A read that is handed the entry at the cursor. -/
theorem Inv.hand (ha : Assigned call) (hi : Inv call u) {i j : ι} {w : Worker} {job : NewJob P} {m : Mem ι}
    (hp : u.ph i = .reading w) (hj : call j = .enqueue job)
    (hm : u.mem.stream.entries[u.mem.stream.cursor]? = some job.message)
    (hent : m.stream.entries = u.mem.stream.entries) (hcur : m.stream.cursor = u.mem.stream.cursor + 1) :
    Phase.read w [(u.mem.stream.cursor, job.message)] = (.claiming (taskOf w u.mem.stream.cursor job) : Phase P) ∧
      Inv call (u.did i (.xreadgroup w.workerId 1) (.ok [(u.mem.stream.cursor, job.message)]) m
        (.claiming (taskOf w u.mem.stream.cursor job))) := by
  have hcall : call i = .process w := by
    have := hi.own i
    rwa [hp] at this
  have hphase : Phase.read w [(u.mem.stream.cursor, job.message)] =
      (.claiming (taskOf w u.mem.stream.cursor job) : Phase P) := by
    simp only [Phase.read, Phase.enter, NewJob.message, ha.job_ne hj, if_false]
    rfl
  refine ⟨hphase, ?_⟩
  have hlog : handed (u.did i (.xreadgroup w.workerId 1) (.ok [(u.mem.stream.cursor, job.message)]) m
      (.claiming (taskOf w u.mem.stream.cursor job))).log = handed u.log ++ [(u.mem.stream.cursor, i)] := by
    rw [Phases.did_log, handed_snoc]
    rfl
  have hfresh : ∀ k, (u.mem.stream.cursor, k) ∉ handed u.log := by
    intro k h
    have := (hi.before h).1
    omega
  have hfirst : ∀ id, (id, i) ∉ handed u.log := fun id => hi.unread (by simp [hp, Phase.unread])
  refine ⟨hi.own_did ⟨hcall, rfl⟩, ?_, fun h => hi.sent_did (by simp [hp]) (hent ▸ h), ?_, ?_, ?_, ?_, ?_, ?_, ?_⟩
  · rw [Phases.did_mem, hcur, hent]
    exact (List.getElem?_eq_some_iff.mp hm).1
  · intro k job' r' hk hq
    rw [Phases.did_mem, hent]
    have hend : ∀ job' a, call i = .enqueue job' →
        (.claiming (taskOf w u.mem.stream.cursor job) : Phase P) ≠ .ended (.ok a) := by
      intro job' a hk' he
      cases he
    exact hi.arrived_did hend hk hq
  · intro id id' m1 m2 h1 h2
    rw [Phases.did_mem, hent] at h1 h2
    exact hi.distinct h1 h2
  · rw [hlog, List.map_append, List.map_singleton]
    apply List.Nodup.append hi.once (List.nodup_singleton _)
    intro id h h'
    obtain ⟨⟨id', k⟩, hk, rfl⟩ := List.mem_map.mp h
    have he : id' = u.mem.stream.cursor := List.mem_singleton.mp h'
    exact hfresh k (he ▸ hk)
  · rw [hlog, List.map_append, List.map_singleton]
    apply List.Nodup.append hi.single (List.nodup_singleton _)
    intro k h h'
    obtain ⟨⟨id, k'⟩, hk, rfl⟩ := List.mem_map.mp h
    have he : k' = i := List.mem_singleton.mp h'
    exact hfirst id (he ▸ hk)
  · intro id k h
    rw [hlog, List.mem_append, List.mem_singleton] at h
    rw [Phases.did_mem, hcur]
    rcases h with h | h
    · exact ⟨Nat.lt_succ_of_lt (hi.before h).1, (hi.before h).2⟩
    · cases h
      exact ⟨Nat.lt_succ_self _, w, hcall⟩
  · intro id k hk
    rw [hlog, List.mem_append, List.mem_singleton]
    have hne : k ≠ i := by
      intro e
      subst e
      simp [Phase.unread] at hk
    rintro (h | h)
    · exact hi.unread (by simpa [hne] using hk) h
    · cases h
      exact hne rfl
  · intro k t hk
    rw [hlog, Phases.did_mem, hent, List.mem_append, List.mem_singleton]
    by_cases e : k = i
    · subst e
      simp only [Phases.did_ph_same, Phase.task, Option.some.injEq] at hk
      subst hk
      exact ⟨.inr rfl, job.message, hm, rfl⟩
    · obtain ⟨h1, h2⟩ := hi.holds (by simpa [e] using hk)
      exact ⟨.inl h1, h2⟩

/-- The read of `w` handed out the entry at the cursor. -/
def HandsOut (m m' : Mem ι) (w : Worker) : Prop :=
  m'.stream.cursor = m.stream.cursor + 1 ∧ m'.stream.pending = m.stream.pending ++ [(m.stream.cursor, w.workerId)]

/-- What a read does: it comes to nothing; or its reply is lost, after it was handed the
    entry at the cursor; or it is handed that entry, which a finished call of
    `enqueue_job` sent. -/
theorem exec_read (hi : Inv call u) {i : ι} {w : Worker} {x : Chance}
    {rm : Except Exc (List (Nat × Message)) × Mem ι}
    (hx : (memory (P := P)).exec i (.xreadgroup w.workerId 1) x u.mem = some rm) :
    rm.2.stream.entries = u.mem.stream.entries ∧ rm.2.hashes = u.mem.hashes ∧
      (((rm.1 = .ok [] ∨ ∃ e, rm.1 = .error e) ∧ rm.2.stream = u.mem.stream) ∨
        (x.fault ≠ none ∧ (∃ e, rm.1 = .error e) ∧ u.mem.stream.cursor < u.mem.stream.entries.length ∧
          HandsOut u.mem rm.2 w) ∨
        ∃ j job, call j = .enqueue job ∧ u.mem.stream.entries[u.mem.stream.cursor]? = some job.message ∧
          rm.1 = .ok [(u.mem.stream.cursor, job.message)] ∧ HandsOut u.mem rm.2 w) := by
  have hd := exec_live hx
  simp only [memory, hd] at hx
  cases hx
  cases hr : u.mem.stream.xreadgroup w.workerId 1 with
  | none =>
    rcases x.reply_cases u.mem (.error (.exception noGroup), u.mem) with h | ⟨-, e, h | h⟩ <;> rw [h] <;>
      exact ⟨rfl, rfl, .inl ⟨.inr ⟨_, rfl⟩, rfl⟩⟩
  | some rs =>
    obtain ⟨new, s⟩ := rs
    rcases x.reply_cases u.mem (.ok new, { u.mem with stream := s }) with h | ⟨hf, e, h | h⟩ <;> rw [h] <;>
      rcases Stream.xreadgroup_one hr with ⟨rfl, rfl, hlen⟩ | ⟨m, hm, rfl, hent, hout⟩
    · exact ⟨rfl, rfl, .inl ⟨.inl rfl, rfl⟩⟩
    · obtain ⟨j, job, r, hj, rfl, -⟩ := hi.sent hm
      exact ⟨hent, rfl, .inr (.inr ⟨j, job, hj, hm, rfl, hout⟩)⟩
    · exact ⟨rfl, rfl, .inl ⟨.inr ⟨_, rfl⟩, rfl⟩⟩
    · exact ⟨rfl, rfl, .inl ⟨.inr ⟨_, rfl⟩, rfl⟩⟩
    · exact ⟨rfl, rfl, .inl ⟨.inr ⟨_, rfl⟩, rfl⟩⟩
    · exact ⟨hent, rfl, .inr (.inl ⟨hf, ⟨_, rfl⟩, (List.getElem?_eq_some_iff.mp hm).1, hout⟩)⟩

/-- The `XADD` of a call whose commands do not fail. -/
theorem exec_send {i : ι} {data : Message} {x : Chance} {m : Mem ι} {rm : Except Exc Nat × Mem ι} (hf : x.fault = none)
    (hx : (memory (P := P)).exec i (.xadd data) x m = some rm) :
    rm = (.ok m.stream.entries.length, { m with stream := (m.stream.xadd data).2 }) := by
  have hd := exec_live hx
  simp only [memory, hd, Chance.reply, hf] at hx
  cases hx
  rfl

/-- An `XADD` took effect, with its reply or without, or it came to nothing. -/
theorem xadd_cases {i : ι} {data : Message} {x : Chance} {m : Mem ι} {rm : Except Exc Nat × Mem ι}
    (hx : (memory (P := P)).exec i (.xadd data) x m = some rm) :
    (rm.2 = { m with stream := (m.stream.xadd data).2 } ∧ (rm.1 = .ok m.stream.entries.length ∨ ∃ e, rm.1 = .error e)) ∨
      (rm.2 = m ∧ ∃ e, rm.1 = .error e) := by
  obtain ⟨rm', hx', rfl | ⟨-, e, rfl | rfl⟩⟩ := exec_fault hx <;> cases exec_send rfl hx'
  · exact .inl ⟨rfl, .inl rfl⟩
  · exact .inr ⟨rfl, e, rfl⟩
  · exact .inl ⟨rfl, .inr ⟨e, rfl⟩⟩

theorem Inv.sends (ha : Assigned call) (hi : Inv call u) {i : ι} {job : NewJob P} {x : Chance}
    {rm : Except Exc Nat × Mem ι} (hp : u.ph i = .sending job)
    (hx : (memory (P := P)).exec i (.xadd job.message) x u.mem = some rm) :
    Inv call (u.did i (.xadd job.message) rm.1 rm.2 (.on (fun _ => .ended (.ok (.jobId job.jobId))) rm.1)) := by
  obtain ⟨r, m⟩ := rm
  rcases xadd_cases hx with ⟨hm, hr⟩ | ⟨hm, e, hr⟩
  · cases hm
    rcases hr with hr | ⟨e, hr⟩ <;> cases hr <;> exact hi.send ha hp rfl rfl
  · cases hm
    cases hr
    exact hi.kept (by simp [hp]) trivial nofun nofun nofun rfl rfl (Nat.le_refl _) hi.cursor_le

omit [DecidableEq ι] in
theorem Inv.moved (hi : Inv call u) (i : ι) {m : Mem ι} (hm : m.stream = u.mem.stream) :
    Inv call (u.moved (.crash i) m) := by
  have hlog : handed (u.moved (.crash i) m).log = handed u.log := by
    rw [Phases.moved_log, handed_snoc]
    exact List.append_nil _
  constructor <;> simp only [Phases.moved_mem, Phases.moved_ph, hm, hlog]
  · exact hi.own
  · exact hi.cursor_le
  · exact hi.sent
  · exact hi.arrived
  · exact hi.distinct
  · exact hi.once
  · exact hi.single
  · exact hi.before
  · exact hi.unread
  · exact hi.holds

omit [DecidableEq ι] in
/-- The commands of an `enqueue_job` do not fail. -/
theorem sender_fault {s : Serving ι P} {x : Chance} (hok : WorkersFail call s (.run i x)) (hc : call i = .enqueue job) :
    x.fault = none := by
  by_contra hf
  obtain ⟨w, hw⟩ := hok hf
  cases hc.symm.trans hw

theorem Inv.step (ha : Assigned call) (hi : Inv call u) {u' : St ι P} {e : Ev ι Chance (World ι)}
    (hs : ((jobs json ι).phases memory).step u e = some u') : Inv call u' := by
  cases e with
  | env e =>
    obtain ⟨m, hm, rfl⟩ := Flow.step_env _ hs
    cases e with
    | crash i =>
      cases hm
      exact hi.moved i rfl
  | run i x =>
    obtain ⟨c, k, rm, hh, hx, rfl⟩ := Flow.step_run _ hs
    change headOf json (u.ph i) = _ at hh
    by_cases hc : c.quiet
    · obtain ⟨hent, hcur⟩ := exec_quiet hc hx
      exact hi.quiet hh hc hent hcur
    · cases hp : u.ph i with
      | sending job =>
        rw [hp] at hh
        cases hh
        exact hi.sends ha hp hx
      | reading w =>
        rw [hp] at hh
        cases hh
        obtain ⟨r, m⟩ := rm
        obtain ⟨hent, -, ⟨hr, hst⟩ | ⟨-, ⟨e, hr⟩, hlen, hcur, -⟩ | ⟨j, job, hj, hm, hr, hcur, -⟩⟩ := exec_read hi hx
        · have hst : m.stream = u.mem.stream := hst
          have hcur : u.mem.stream.cursor ≤ m.stream.cursor := by rw [hst]
          have hlen : m.stream.cursor ≤ m.stream.entries.length := by rw [hst]; exact hi.cursor_le
          rcases hr with rfl | ⟨e, rfl⟩ <;> exact hi.missed hp rfl hent hcur hlen
        · cases hr
          have hcur : m.stream.cursor = u.mem.stream.cursor + 1 := hcur
          apply hi.missed hp rfl hent (by omega)
          rw [hcur, hent]
          omega
        · cases hr
          obtain ⟨hphase, hinv⟩ := hi.hand ha hp hj hm hent hcur
          show Inv call (u.did i _ _ m (Phase.read w [(u.mem.stream.cursor, job.message)]))
          rw [hphase]
          exact hinv
      | ended => rw [hp] at hh; cases hh
      | _ => rw [hp] at hh; cases hh; exact absurd trivial hc

end Steps

theorem ended_of_head {json : Json P} {p : Phase P} {r : Except Exc Reply} (h : headOf json p = .ended r) :
    p = .ended r := by
  cases p <;> cases h
  rfl

theorem ended_of_ret {json : Json P} {r : Reply} (h : ((jobs json ι).threadsOf u).thr i = .ret r) :
    u.ph i = .ended (.ok r) :=
  ended_of_head ((jobs json ι).head_of_ret (i := i) h)

theorem ended_of_raise {json : Json P} {e : Exc} (h : ((jobs json ι).threadsOf u).thr i = .raise e) :
    u.ph i = .ended (.error e) :=
  ended_of_head ((jobs json ι).head_of_raise (i := i) h)

/-- The calls' states are states of their flow chart. -/
theorem follows_jobs [DecidableEq ι] {json : Json P} {ok : Serving ι P → Ev ι Chance (World ι) → Prop}
    {s : Serving ι P} (h : (threads memory).Reach ok (start Mem.init fun i => serve json (call i)) s) :
    ∃ u, ((jobs json ι).phases memory).Reach (fun u e => ok ((jobs json ι).threadsOf u) e)
      ⟨Mem.init, fun i => .grouping (call i), []⟩ u ∧ s = (jobs json ι).threadsOf u :=
  Flow.follows _ h

end Delivery

/-! ## A job and two workers -/

/-- The calls of the example. -/
inductive Who where
  | api
  | first
  | second
  deriving DecidableEq

def unitJson : Json Unit := ⟨fun _ => "null", fun _ => some (), ()⟩

def resize : NewJob Unit := ⟨"resize_image", (), "a", "1.0", "1.0"⟩

def worker (name : String) : Worker := ⟨name, fun _ _ => "2.0"⟩

def whoCalls : Who → Call Unit
  | .api => .enqueue resize
  | .first => .process (worker "w1")
  | .second => .process (worker "w2")

theorem whoCalls_assigned : Assigned whoCalls where
  distinct {i i' _ _} h h' _ := by
    cases i <;> cases h
    cases i' <;> cases h'
    rfl
  job_ne {i _} h := by
    cases i <;> cases h
    decide
  worker_ne {i _} h := by cases i <;> cases h <;> decide

/-- A step at which nothing fails; `process_task` returns `done`. -/
def turn (i : Who) : Ev Who Chance (World Who) := .run i ⟨none, .ok "done"⟩

end Playground.Queue
