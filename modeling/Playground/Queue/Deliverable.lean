/-
  Playground.Queue.Deliverable — an accepted job is delivered, or still to be.

  An API server answers a job id when its `enqueueJob` returns. The job is deliverable
  if the stream holds its message, and the group has handed that out or has its cursor
  at or before it. `handsOut` notes what reads hand out; a group that is created at the
  latest entry has its cursor behind entries that none handed out.

  - `accepted_deliverable`: the Python version's jobs are, whatever fails and however
    the calls interleave; the NestJS version's as long as no `XADD` fails without having
    taken effect; the Spring version's if, besides, the group is created while the
    stream has no entries.
  - `accepted_lost`: what happens otherwise.
-/

import Playground.Queue.Delivery
import Playground.Queue.Siblings

namespace Playground.Queue

open Playground.Lib Playground.Redis

variable {ι P : Type}

/-! ## Producers, workers and deliveries -/

/-- A call of `enqueueJob`, or a worker: any program. -/
inductive Party (P : Type) where
  | producer (job : NewJob P)
  | worker (p : Prog P Reply)

def Party.prog (enqueue : NewJob P → Prog P String) : Party P → Prog P Reply
  | .producer job => (enqueue job).bind fun id => .ret (.jobId id)
  | .worker p => p

/-- The calls of the Python version are parties. -/
def Call.party (json : Json P) : Call P → Party P
  | .enqueue job => .producer job
  | .process w => .worker (serve json (.process w))

theorem serve_party (json : Json P) (c : Call P) : serve json c = (c.party json).prog (enqueueJob json) := by
  cases c <;> rfl

/-- A read hands out the entries that it moves the cursor over. -/
def handsOut (delivered : List Nat) (s : Serving ι P) (e : Ev ι Chance (World ι)) (s' : Serving ι P) : List Nat :=
  match e with
  | .env _ => delivered
  | .run i _ =>
    match (s.thr i).next with
    | some (.xreadgroup ..) =>
      delivered ++ List.range' s.mem.stream.cursor (s'.mem.stream.cursor - s.mem.stream.cursor)
    | _ => delivered

/-- What an `enqueueJob` returned is the job id of a message in the stream that was
    handed out, or is at or after the group's cursor. -/
def Deliverable (party : ι → Party P) (s : Serving ι P) (delivered : List Nat) : Prop :=
  ∀ i job r, party i = .producer job → s.thr i = .ret r →
    ∃ jobId id message, r = .jobId jobId ∧ s.mem.stream.entries[id]? = some message ∧ message.jobId = some jobId ∧
      (id ∈ delivered ∨ s.mem.stream.cursor ≤ id)

/-! ## What a memory does to the stream -/

/-- A command with this chance fails without having taken effect. -/
def Chance.lost (x : Chance) : Bool :=
  match x.fault with
  | some (false, _) => true
  | _ => false

/-- It fails so with an exception, not with an error that no handler takes. -/
def Chance.dropped (x : Chance) : Bool :=
  match x.fault with
  | some (false, .exception _) => true
  | _ => false

def Cmd.isXadd : Cmd P → Bool
  | .xadd _ => true
  | _ => false

def Cmd.isCreate : Cmd P → Bool
  | .xgroupCreate => true
  | _ => false

abbrev QueueMemory (ι P : Type) := Memory ι (Cmd P) Ans Exc Chance (World ι) (Mem ι)

/-- Only an `XADD` changes the entries, by appending unless it fails without effect, and
    only reads and the group's creation move the cursor. -/
structure KeepsStream (M : QueueMemory ι P) : Prop where
  xadd : ∀ {i data x m rm}, M.exec i (.xadd data) x m = some rm →
    rm.2.stream.entries = m.stream.entries ++ [data] ∨
      rm.2.stream.entries = m.stream.entries ∧ ∃ e, x.fault = some (false, e) ∧ rm.1 = .error e
  other : ∀ {i c x m rm}, M.exec i c x m = some rm → (∀ data, c ≠ .xadd data) →
    rm.2.stream.entries = m.stream.entries
  cursor : ∀ {i c x m rm}, M.exec i c x m = some rm → c ≠ .xgroupCreate → (∀ w n, c ≠ .xreadgroup w n) →
    rm.2.stream.cursor = m.stream.cursor
  env : ∀ {e m m'}, M.env e m = some m' → m'.stream = m.stream

variable {M : QueueMemory ι P}

theorem KeepsStream.grows (hk : KeepsStream M) {i : ι} {c : Cmd P} {x : Chance} {m : Mem ι}
    {rm : Except Exc (Ans c) × Mem ι} (hx : M.exec i c x m = some rm) {message : Message}
    (hm : message ∈ m.stream.entries) : message ∈ rm.2.stream.entries := by
  by_cases hc : ∃ data, c = .xadd data
  · obtain ⟨data, rfl⟩ := hc
    rcases hk.xadd hx with he | ⟨he, -⟩
    · rw [he]
      exact List.mem_append_left _ hm
    · rwa [he]
  · rw [hk.other hx fun data he => hc ⟨data, he⟩]
    exact hm

section Memories

variable [DecidableEq ι] {i : ι} {c : Cmd P} {x : Chance} {m : Mem ι} {rm : Except Exc (Ans c) × Mem ι}

theorem exec_xadd {data : Message} {rm : Except Exc Nat × Mem ι}
    (hx : (memory (P := P)).exec i (.xadd data) x m = some rm) :
    rm.2.stream.entries = m.stream.entries ++ [data] ∨
      rm.2.stream.entries = m.stream.entries ∧ ∃ e, x.fault = some (false, e) ∧ rm.1 = .error e := by
  have hd := exec_live hx
  simp only [memory, hd, Chance.reply] at hx
  cases hx
  cases hf : x.fault with
  | none => exact .inl rfl
  | some f =>
    obtain ⟨effect, e⟩ := f
    cases effect with
    | true => exact .inl rfl
    | false => exact .inr ⟨rfl, e, rfl, rfl⟩

theorem exec_entries (hx : memory.exec i c x m = some rm) (hc : ∀ data, c ≠ .xadd data) :
    rm.2.stream.entries = m.stream.entries := by
  cases c with
  | xadd data => exact absurd rfl (hc data)
  | xreadgroup w n =>
    have hd := exec_live hx
    refine exec_keeps (Q := fun m' => m'.stream.entries = m.stream.entries) hx rfl ?_
    intro rm' hx'
    simp only [memory, hd, Chance.reply] at hx'
    cases hx'
    cases hr : m.stream.xreadgroup w n with
    | none => rfl
    | some r => exact (Stream.xreadgroup_grows hr).1
  | xgroupCreate | hset | hgetall | xack | startTask | awaitTask => exact (exec_quiet (by exact True.intro) hx).1

theorem memory_keepsStream : KeepsStream (memory : QueueMemory ι P) where
  xadd hx := exec_xadd hx
  other hx hc := exec_entries hx hc
  cursor {i c x m rm} hx _ hr := by
    cases c with
    | xreadgroup w n => exact absurd rfl (hr w n)
    | xadd data =>
      have hd := exec_live hx
      refine exec_keeps (Q := fun m' => m'.stream.cursor = m.stream.cursor) hx rfl ?_
      intro rm' hx'
      simp only [memory, hd, Chance.reply] at hx'
      cases hx'
      rfl
    | xgroupCreate | hset | hgetall | xack | startTask | awaitTask => exact (exec_quiet (by exact True.intro) hx).2
  env {e m m'} hm := by
    cases e
    cases hm
    rfl

open Spring in
/-- The group's creation of the Spring version, where it takes effect: at the end. -/
theorem exec_createLatest {rm : Except Exc Unit × Mem ι}
    (hx : (springMemory (P := P)).exec i .xgroupCreate x m = some rm) :
    rm.2.stream.entries = m.stream.entries ∧ (rm.2.stream.cursor = m.stream.cursor ∨
      m.stream.group = none ∧ x.lost = false ∧ rm.2.stream.cursor = m.stream.entries.length) := by
  cases hd : m.dead i with
  | true => simp [springMemory, hd] at hx
  | false =>
    simp only [springMemory, hd, Chance.reply] at hx
    cases hx
    cases hg : m.stream.xgroupCreateLatest with
    | none =>
      cases hf : x.fault with
      | none => exact ⟨rfl, .inl rfl⟩
      | some f =>
        obtain ⟨effect, e⟩ := f
        cases effect <;> exact ⟨rfl, .inl rfl⟩
    | some s =>
      obtain ⟨hnone, hent, hcur⟩ := Stream.xgroupCreateLatest_same hg
      cases hf : x.fault with
      | none => exact ⟨hent, .inr ⟨hnone, by rw [Chance.lost, hf], hcur⟩⟩
      | some f =>
        obtain ⟨effect, e⟩ := f
        cases effect with
        | true => exact ⟨hent, .inr ⟨hnone, by rw [Chance.lost, hf], hcur⟩⟩
        | false => exact ⟨rfl, .inl rfl⟩

open Spring in
theorem springMemory_exec (hg : c ≠ .xgroupCreate) (hr : ∀ w n, c ≠ .xreadgroup w n) :
    springMemory.exec i c x m = memory.exec i c x m := by
  cases c with
  | xgroupCreate => exact absurd rfl hg
  | xreadgroup w n => exact absurd rfl (hr w n)
  | hset | hgetall | xadd | xack | startTask | awaitTask => rfl

open Spring in
theorem springMemory_keepsStream : KeepsStream (springMemory : QueueMemory ι P) where
  xadd hx := exec_xadd hx
  other {i c x m rm} hx hc := by
    by_cases hg : c = .xgroupCreate
    · subst hg
      exact (exec_createLatest hx).1
    · by_cases hr : ∃ w n, c = .xreadgroup w n
      · obtain ⟨w, n, rfl⟩ := hr
        exact exec_entries (c := .xreadgroup w m.stream.entries.length) hx nofun
      · rw [springMemory_exec hg fun w n he => hr ⟨w, n, he⟩] at hx
        exact exec_entries hx hc
  cursor {i c x m rm} hx hg hr := by
    rw [springMemory_exec hg hr] at hx
    exact memory_keepsStream.cursor hx hg hr
  env hm := (memory_keepsStream (P := P)).env hm

end Memories

/-! ## The invariant -/

section Invariant

variable [DecidableEq ι] {party : ι → Party P}
  {good : NewJob P → (c : Cmd P) → Except Exc (Ans c) → Prop} {s s' : Serving ι P} {delivered delivered' : List Nat}

/-- A producer's message is in the stream, or the producer has its good `XADD` still
    before it; it can return its job's id only; and what is before the cursor was handed
    out. -/
structure Tracked (party : ι → Party P) (good : NewJob P → (c : Cmd P) → Except Exc (Ans c) → Prop)
    (s : Serving ι P) (delivered : List Nat) : Prop where
  sent : ∀ {i job}, party i = .producer job → job.message ∈ s.mem.stream.entries ∨ (s.thr i).Passes (good job)
  named : ∀ {i job}, party i = .producer job → (s.thr i).Returns (· = .jobId job.jobId)
  covered : ∀ {id}, id < s.mem.stream.cursor → id ∈ delivered

omit [DecidableEq ι] in
/-- What a command leaves before the cursor was handed out, now or earlier, if it moves
    the cursor on by a read only. -/
theorem Tracked.covered_run (hk : KeepsStream M) (h : Tracked party good s delivered) {i : ι} {x : Chance} {c : Cmd P}
    {k : Except Exc (Ans c) → Prog P Reply} {rm : Except Exc (Ans c) × Mem ι} (hc : s.thr i = .cmd c k)
    (hx : M.exec i c x s.mem = some rm) (hcreate : c = .xgroupCreate → rm.2.stream.cursor ≤ s.mem.stream.cursor)
    (hs : s'.mem = rm.2) {id : Nat} (hid : id < s'.mem.stream.cursor) : id ∈ handsOut delivered s (.run i x) s' := by
  have hnext : (s.thr i).next = some c := by rw [hc]; rfl
  by_cases hr : ∃ w n, c = .xreadgroup w n
  · obtain ⟨w, n, rfl⟩ := hr
    simp only [handsOut, hnext, List.mem_append, List.mem_range'_1]
    by_cases hold : id < s.mem.stream.cursor
    · exact .inl (h.covered hold)
    · exact .inr ⟨by omega, by omega⟩
  · have hnotes : handsOut delivered s (.run i x) s' = delivered := by
      simp only [handsOut, hnext]
      split
      · rename_i w n heq
        exact absurd ⟨w, n, Option.some.inj heq⟩ hr
      · rfl
    rw [hnotes]
    apply h.covered
    rw [hs] at hid
    by_cases hg : c = .xgroupCreate
    · exact Nat.lt_of_lt_of_le hid (hcreate hg)
    · rwa [hk.cursor hx hg fun w n he => hr ⟨w, n, he⟩] at hid

/-- A step whose good outcomes send the message, and that moves the cursor on by a read
    only. -/
theorem Tracked.step (hk : KeepsStream M) (h : Tracked party good s delivered) {e : Ev ι Chance (World ι)}
    (hsend : ∀ i x c k rm, e = .run i x → s.thr i = .cmd c k → M.exec i c x s.mem = some rm →
      ∀ job, good job c rm.1 → job.message ∈ rm.2.stream.entries)
    (hcreate : ∀ i x k rm, e = .run i x → s.thr i = .cmd .xgroupCreate k → M.exec i .xgroupCreate x s.mem = some rm →
      rm.2.stream.cursor ≤ s.mem.stream.cursor)
    (hs : ((threads M).noting handsOut).step (s, delivered) e = some (s', delivered')) :
    Tracked party good s' delivered' := by
  obtain ⟨hst, rfl⟩ := Machine.noting_step.mp hs
  cases e with
  | env e =>
    obtain ⟨m, hm, rfl⟩ := threads_env hst
    have hstream := hk.env hm
    refine ⟨?_, h.named, ?_⟩
    · intro i job hp
      show job.message ∈ m.stream.entries ∨ _
      rw [hstream]
      exact h.sent hp
    · intro id hid
      change id < m.stream.cursor at hid
      rw [hstream] at hid
      exact h.covered hid
  | run i x =>
    obtain ⟨c, k, rm, hc, hx, rfl⟩ := threads_run hst
    refine ⟨?_, ?_, fun hid => h.covered_run hk hc hx ?_ rfl hid⟩
    · intro j job hp
      rcases h.sent hp with hin | hpass
      · exact .inl (hk.grows hx hin)
      by_cases e : j = i
      · subst e
        rw [hc] at hpass
        rcases hpass rm.1 with hgood | hrest
        · exact .inl (hsend j x c k rm rfl hc hx job hgood)
        · exact .inr (by simpa using hrest)
      · exact .inr (by simpa [e] using hpass)
    · intro j job hp
      have hname := h.named hp
      by_cases e : j = i
      · subst e
        rw [hc] at hname
        simpa using hname rm.1
      · simpa [e] using hname
    · rintro rfl
      exact hcreate i x k rm rfl hc hx

omit [DecidableEq ι] in
theorem Tracked.deliverable (h : Tracked party good s delivered) : Deliverable party s delivered := by
  intro i job r hp hr
  have hname : r = .jobId job.jobId := by
    have hname := h.named hp
    rwa [hr] at hname
  rcases h.sent hp with hin | hpass
  · obtain ⟨id, hid, hm⟩ := List.mem_iff_getElem.mp hin
    refine ⟨job.jobId, id, job.message, hname, List.getElem?_eq_some_iff.mpr ⟨hid, hm⟩, rfl, ?_⟩
    by_cases hcur : id < s.mem.stream.cursor
    · exact .inl (h.covered hcur)
    · exact .inr (Nat.le_of_not_lt hcur)
  · rw [hr] at hpass
    exact hpass.elim

end Invariant

/-! ## The three versions -/

/-- The `XADD` of a job's message, answered. -/
def Answered (job : NewJob P) (c : Cmd P) (r : Except Exc (Ans c)) : Prop :=
  c = .xadd job.message ∧ ∃ a, r = .ok a

/-- The `XADD` of a job's message, however it ended. -/
def Tried (job : NewJob P) (c : Cmd P) (_ : Except Exc (Ans c)) : Prop := c = .xadd job.message

/-- The `XADD` of a job's message, answered or failed with an exception. -/
def Caught (job : NewJob P) (c : Cmd P) (r : Except Exc (Ans c)) : Prop :=
  c = .xadd job.message ∧ r ≠ .error .cancelled

theorem enqueueJob_passes (json : Json P) (job : NewJob P) : (enqueueJob json job).Passes (Answered job) := by
  refine Co.passes_bind fun _ => Co.passes_bind fun _ => Co.Passes.bind ?_ _
  intro r
  cases r with
  | ok a => exact .inl ⟨rfl, a, rfl⟩
  | error x => exact .inr trivial

theorem Nest.enqueueJob_passes (json : Json P) (job : NewJob P) : (Nest.enqueueJob json job).Passes (Tried job) := by
  refine Co.passes_bind fun _ => Co.passes_bind fun _ => Co.Passes.bind ?_ _
  exact fun r => .inl rfl

theorem Spring.enqueueJob_passes (text : P → String) (job : NewJob (Option P)) :
    (Spring.enqueueJob text job).Passes (Caught job) := by
  refine Co.passes_bind fun _ => Co.passes_bind fun _ => Co.Passes.bind ?_ _
  intro r
  match r with
  | .ok a => exact .inl ⟨rfl, nofun⟩
  | .error (.exception m) => exact .inl ⟨rfl, nofun⟩
  | .error .cancelled => exact .inr trivial

theorem enqueueJob_returns (json : Json P) (job : NewJob P) : (enqueueJob json job).Returns (· = job.jobId) :=
  (Co.returns_true _).bind fun _ _ => (Co.returns_true _).bind fun _ _ => (Co.returns_true _).bind fun _ _ => rfl

theorem Nest.enqueueJob_returns (json : Json P) (job : NewJob P) :
    (Nest.enqueueJob json job).Returns (· = job.jobId) :=
  (Co.returns_true _).bind fun _ _ => (Co.returns_true _).bind fun _ _ => (Co.returns_true _).bind fun _ _ => rfl

theorem Spring.enqueueJob_returns (text : P → String) (job : NewJob (Option P)) :
    (Spring.enqueueJob text job).Returns (· = job.jobId) :=
  (Co.returns_true _).bind fun _ _ => (Co.returns_true _).bind fun _ _ => (Co.returns_true _).bind fun _ _ => rfl

/-- No `XADD` fails without having taken effect. -/
def Nest.Sends (s : Serving ι P) : Ev ι Chance (World ι) → Prop
  | .run i x => (s.thr i).next.any (·.isXadd) = true → x.lost = false
  | .env _ => True

/-- No `XADD` fails so with an exception, and the group is not created, with effect, over
    a stream that has entries. -/
def Spring.Sends (s : Serving ι P) : Ev ι Chance (World ι) → Prop
  | .run i x =>
    ((s.thr i).next.any (·.isXadd) = true → x.dropped = false) ∧
      ((s.thr i).next.any (·.isCreate) = true → x.lost = false → s.mem.stream.group = none →
        s.mem.stream.entries = [])
  | .env _ => True

instance (s : Serving ι P) (e : Ev ι Chance (World ι)) : Decidable (Nest.Sends s e) :=
  match e with
  | .run .. => inferInstanceAs (Decidable (_ → _))
  | .env _ => instDecidableTrue

instance (s : Serving ι P) (e : Ev ι Chance (World ι)) : Decidable (Spring.Sends s e) :=
  match e with
  | .run .. => inferInstanceAs (Decidable ((_ → _) ∧ (_ → _ → _ → _)))
  | .env _ => instDecidableTrue

section Versions

variable [DecidableEq ι]

/-- The runs of parties over a memory, with what was handed out. -/
def Served (M : QueueMemory ι P) (ok : Serving ι P → Ev ι Chance (World ι) → Prop) (prog : ι → Prog P Reply)
    (s : Serving ι P) (delivered : List Nat) : Prop :=
  ((threads M).noting handsOut).Reach (fun t e => ok t.1 e) (start Mem.init prog, []) (s, delivered)

theorem Served.deliverable (hk : KeepsStream M) {ok : Serving ι P → Ev ι Chance (World ι) → Prop}
    {party : ι → Party P} {enqueue : NewJob P → Prog P String}
    {good : NewJob P → (c : Cmd P) → Except Exc (Ans c) → Prop} {s : Serving ι P} {delivered : List Nat}
    (hsend : ∀ s i x c k rm, ok s (.run i x) → s.thr i = .cmd c k → M.exec i c x s.mem = some rm →
      ∀ job, good job c rm.1 → job.message ∈ rm.2.stream.entries)
    (hcreate : ∀ s i x k rm, ok s (.run i x) → s.thr i = .cmd .xgroupCreate k →
      M.exec i .xgroupCreate x s.mem = some rm → rm.2.stream.cursor ≤ s.mem.stream.cursor)
    (hpass : ∀ job, (enqueue job).Passes (good job)) (hname : ∀ job, (enqueue job).Returns (· = job.jobId))
    (h : Served M ok (fun i => (party i).prog enqueue) s delivered) : Deliverable party s delivered := by
  have htracked : Tracked party good s delivered := by
    refine Machine.Reach.invariant (P := fun t => Tracked party good t.1 t.2) ?_ ?_ h
    · refine ⟨fun {i job} hp => .inr ?_, fun {i job} hp => ?_, fun hid => absurd hid (Nat.not_lt_zero _)⟩
      · show (Party.prog enqueue (party i)).Passes (good job)
        rw [hp]
        exact (hpass job).bind _
      · show (Party.prog enqueue (party i)).Returns (· = .jobId job.jobId)
        rw [hp]
        exact (hname job).bind fun id he => congrArg Reply.jobId he
    · rintro ⟨s, d⟩ e ⟨s', d'⟩ hi hok hs
      refine hi.step hk ?_ ?_ hs
      · rintro i x c k rm rfl
        exact hsend s i x c k rm hok
      · rintro i x k rm rfl
        exact hcreate s i x k rm hok
  exact htracked.deliverable

omit [DecidableEq ι] in
/-- An `XADD` that did not fail without effect sent the message. -/
theorem KeepsStream.sent (hk : KeepsStream M) {i : ι} {x : Chance} {job : NewJob P} {m : Mem ι}
    {rm : Except Exc Nat × Mem ι} (hx : M.exec i (.xadd job.message) x m = some rm)
    (hne : ∀ e, x.fault = some (false, e) → rm.1 ≠ .error e) : job.message ∈ rm.2.stream.entries := by
  rcases hk.xadd hx with he | ⟨-, e, hf, herr⟩
  · rw [he]
    exact List.mem_append_right _ (List.mem_singleton.mpr rfl)
  · exact absurd herr (hne e hf)

/-- What was accepted is deliverable: in every run of the Python version; in every run of
    the NestJS version in which no `XADD` fails without having taken effect; and in every
    run of the Spring version in which none does so with an exception and the group is
    created only while the stream has no entries. Workers may be any programs. -/
theorem accepted_deliverable (json : Json P) (text : P → String) (party : ι → Party P)
    (party' : ι → Party (Option P)) (s : Serving ι P) (s' : Serving ι (Option P)) (delivered : List Nat) :
    (Served memory Machine.any (fun i => (party i).prog (enqueueJob json)) s delivered →
      Deliverable party s delivered) ∧
    (Served memory Nest.Sends (fun i => (party i).prog (Nest.enqueueJob json)) s delivered →
      Deliverable party s delivered) ∧
    (Served Spring.springMemory Spring.Sends (fun i => (party' i).prog (Spring.enqueueJob text)) s' delivered →
      Deliverable party' s' delivered) := by
  have hcreate : ∀ (s : Serving ι P) i x (k : Except Exc Unit → Prog P Reply) rm, s.thr i = .cmd .xgroupCreate k →
      memory.exec i .xgroupCreate x s.mem = some rm → rm.2.stream.cursor ≤ s.mem.stream.cursor :=
    fun _ _ _ _ _ _ hx => Nat.le_of_eq (exec_quiet (c := (.xgroupCreate : Cmd P)) True.intro hx).2
  refine ⟨fun h => ?_, fun h => ?_, fun h => ?_⟩
  · refine Served.deliverable memory_keepsStream ?_ (fun s i x k rm _ => hcreate s i x k rm) (enqueueJob_passes json)
      (enqueueJob_returns json) h
    intro s i x c k rm _ _ hx job hg
    obtain ⟨rfl, a, ha⟩ := hg
    refine memory_keepsStream.sent hx ?_
    intro e _ herr
    cases ha.symm.trans herr
  · refine Served.deliverable memory_keepsStream ?_ (fun s i x k rm _ => hcreate s i x k rm)
      (Nest.enqueueJob_passes json) (Nest.enqueueJob_returns json) h
    intro s i x c k rm hok hc hx job hg
    cases hg
    refine memory_keepsStream.sent hx ?_
    intro e hf _
    have hkept : x.lost = false := hok (by rw [hc]; rfl)
    simp [Chance.lost, hf] at hkept
  · refine Served.deliverable springMemory_keepsStream ?_ ?_ (Spring.enqueueJob_passes text)
      (Spring.enqueueJob_returns text) h
    · intro s i x c k rm hok hc hx job hg
      obtain ⟨rfl, hcaught⟩ := hg
      refine springMemory_keepsStream.sent hx ?_
      intro e hf herr
      have hkept : x.dropped = false := hok.1 (by rw [hc]; rfl)
      cases e with
      | exception m => simp [Chance.dropped, hf] at hkept
      | cancelled => exact hcaught herr
    · intro s i x k rm hok hc hx
      obtain ⟨-, hsame | ⟨hnone, heffect, hcur⟩⟩ := exec_createLatest hx
      · exact Nat.le_of_eq hsame
      · have hempty := hok.2 (by rw [hc]; rfl) heffect hnone
        rw [hcur, hempty]
        exact Nat.zero_le _

end Versions

/-! ## A job and a poll -/

/-- Spring's `ensureConsumerGroup` and a read: the start of every version's worker, where
    nothing fails. -/
def poll : Prog P Reply := do
  Spring.ensureConsumerGroup
  let messages ← await (.xreadgroup "w1" 1)
  pure (.processed !messages.isEmpty)

def pollParty (payload : P) : Who → Party P
  | .api => .producer ⟨"resize_image", payload, "a", "1.0", "1.0"⟩
  | _ => .worker poll

def pythonStart : Serving Who Unit × List Nat :=
  (start Mem.init fun i => (pollParty () i).prog (enqueueJob unitJson), [])

def nestStart : Serving Who Unit × List Nat :=
  (start Mem.init fun i => (pollParty () i).prog (Nest.enqueueJob unitJson), [])

def springStart : Serving Who (Option Unit) × List Nat :=
  (start Mem.init fun i => (pollParty none i).prog (Spring.enqueueJob fun _ => "null"), [])

def calmRun : List (Ev Who Chance (World Who)) := [.api, .api, .api, .first, .first].map turn

def calm : Serving Who Unit × List Nat := (((threads memory).noting handsOut).run pythonStart calmRun).get rfl

def nestCalm : Serving Who Unit × List Nat :=
  (((threads memory).noting handsOut).runIf (fun t e => Nest.Sends t.1 e) nestStart calmRun).get rfl

def springCalm : Serving Who (Option Unit) × List Nat :=
  (((threads Spring.springMemory).noting handsOut).runIf (fun t e => Spring.Sends t.1 e) springStart calmRun).get rfl

/-- The job is accepted, and its message handed out. -/
theorem calm_delivered : (calm.1.thr .api = .ret (.jobId "a") ∧ calm.2 = [0] ∧ springCalm.2 = [0]) ∧
    Deliverable (pollParty ()) calm.1 calm.2 ∧ Deliverable (pollParty ()) nestCalm.1 nestCalm.2 ∧
      Deliverable (pollParty none) springCalm.1 springCalm.2 := by
  have hpython := accepted_deliverable unitJson (fun _ => "null") (pollParty ()) (pollParty none) calm.1 springCalm.1
    calm.2
  have hnest := accepted_deliverable unitJson (fun _ => "null") (pollParty ()) (pollParty none) nestCalm.1 springCalm.1
    nestCalm.2
  have hspring := accepted_deliverable unitJson (fun _ => "null") (pollParty ()) (pollParty none) calm.1 springCalm.1
    springCalm.2
  refine ⟨⟨rfl, rfl, rfl⟩, hpython.1 ?_, hnest.2.1 ?_, hspring.2.2 ?_⟩
  · exact Machine.reach_any_of_run calmRun (Option.some_get rfl).symm
  · exact Machine.reach_of_runIf calmRun (Option.some_get rfl).symm
  · exact Machine.reach_of_runIf calmRun (Option.some_get rfl).symm

/-- A step at which the command fails without having taken effect. -/
def failure (i : Who) : Ev Who Chance (World Who) :=
  .run i ⟨some (false, .exception "Connection is closed."), .ok "done"⟩

/-- The `XADD` fails. -/
def unsentRun : List (Ev Who Chance (World Who)) := [turn .api, turn .api, failure .api]

/-- The producer's `createGroup` fails, and the worker's comes after the message. -/
def skippedRun : List (Ev Who Chance (World Who)) := [failure .api, turn .api, turn .api, turn .first, turn .first]

def unsent : Serving Who Unit × List Nat := (((threads memory).noting handsOut).run nestStart unsentRun).get rfl

def skipped : Serving Who (Option Unit) × List Nat :=
  (((threads Spring.springMemory).noting handsOut).run springStart skippedRun).get rfl

theorem unsent_accepted : unsent.1.thr .api = .ret (.jobId "a") ∧ unsent.1.mem.stream.entries = [] := ⟨rfl, rfl⟩

theorem skipped_accepted : skipped.1.thr .api = .ret (.jobId "a") ∧
    skipped.1.mem.stream.entries = [⟨some "a", some "resize_image"⟩] ∧
      skipped.1.mem.stream.cursor = 1 ∧ skipped.2 = [] :=
  ⟨rfl, rfl, rfl, rfl⟩

/-- A job of the NestJS version that no stream holds, and one of the Spring version that
    is skipped. -/
theorem accepted_lost :
    (Served memory Machine.any (fun i => (pollParty () i).prog (Nest.enqueueJob unitJson)) unsent.1 unsent.2 ∧
      ¬ Deliverable (pollParty ()) unsent.1 unsent.2) ∧
    (Served Spring.springMemory Machine.any
        (fun i => (pollParty none i).prog (Spring.enqueueJob fun _ : Unit => "null")) skipped.1 skipped.2 ∧
      ¬ Deliverable (pollParty none) skipped.1 skipped.2) := by
  refine ⟨⟨Machine.reach_any_of_run unsentRun (Option.some_get rfl).symm, fun h => ?_⟩,
    ⟨Machine.reach_any_of_run skippedRun (Option.some_get rfl).symm, fun h => ?_⟩⟩
  · obtain ⟨haccepted, hempty⟩ := unsent_accepted
    obtain ⟨jobId, id, message, -, hid, -⟩ := h .api _ _ rfl haccepted
    rw [hempty] at hid
    cases hid
  · obtain ⟨haccepted, hone, hcursor, hnone⟩ := skipped_accepted
    obtain ⟨jobId, id, message, -, hid, -, hdelivered | hlater⟩ := h .api _ _ rfl haccepted
    · rw [hnone] at hdelivered
      cases hdelivered
    · rw [hone] at hid
      have hlt := (List.getElem?_eq_some_iff.mp hid).1
      rw [hcursor] at hlater
      simp only [List.length_singleton] at hlt
      omega

end Playground.Queue
