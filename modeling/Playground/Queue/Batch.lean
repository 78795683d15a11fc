/-
  Playground.Queue.Batch — one call of Spring's `JobWorker.processStream`
  (`JobWorker.java`, `JobQueueService.updateJobStatus`).

  The poll reads without a count, so it is handed everything the group has not handed
  out yet. The records are processed in a loop whose one `catch` is around it, so the
  first record whose turn throws ends the call for those behind it: they are pending,
  and no later poll is handed them.
  - `processRecord_ends`, `processRecord_throws`: what a record's turn does.
  - `processStream_spares_iff`: every record whose own turn does not throw ends completed
    and acknowledged just when none that carries a job comes after one that throws.
-/

import Playground.Lib.Solo
import Playground.Queue.Delivery
import Playground.Queue.Siblings

namespace Playground.Queue.Spring

open Playground.Lib Playground.Redis

variable {P ι : Type}

/-! ## `processStream` -/

/-- The updates of `updateJobStatus`; a null worker id or result is left out. -/
def statusUpdates (status : Status) (workerId result : Option String) : List (Field × String) :=
  [(.status, status.str)] ++ (workerId.map (Prod.mk Field.workerId)).toList ++
    (result.map (Prod.mk Field.result)).toList

def updateJobStatus (jobId : String) (status : Status) (workerId result : Option String) : Prog P Unit :=
  await (.hset (jobKey jobId) (statusUpdates status workerId result))

/-- A null `taskType` reads `null` in the text. -/
def resultStr (taskType : Option String) : String := "Processed '" ++ taskType.getD "null" ++ "' successfully"

/-- The body of the loop. The work is a `Thread.sleep`, which ends or is interrupted. -/
def processRecord (workerId : String) (record : Nat × Message) : Prog P Unit :=
  match record.2.jobId with
  | none => await (.xack record.1)
  | some jobId => do
    updateJobStatus jobId .processing (some workerId) (some "")
    let _ ← await .awaitTask
    updateJobStatus jobId .completed (some workerId) (some (resultStr record.2.taskType))
    await (.xack record.1)

/-- The read names no count; the one it is given here is not used. -/
def processStream (workerId : String) : Prog P Unit := do
  ensureConsumerGroup
  catchException do
    let messages ← await (.xreadgroup workerId 0)
    Co.forEach (processRecord workerId) messages

/-! ## What the surroundings decide -/

/-- The chances of a record's turn. -/
structure Turn where
  processing : Chance
  work : Chance
  completed : Chance
  acknowledge : Chance

/-- The chances in the order the turn's commands draw them. -/
def Turn.script (x : Turn) (data : Message) : List Chance :=
  match data.jobId with
  | none => [x.acknowledge]
  | some _ => [x.processing, x.work, x.completed, x.acknowledge]

/-- A status update, the work or the acknowledgement throws. -/
def Turn.throws (x : Turn) (data : Message) : Bool :=
  (data.jobId.isSome && (x.processing.fault.isSome || !x.work.outcome.isOk || x.completed.fault.isSome)) ||
    x.acknowledge.fault.isSome

def script (plan : Nat → Turn) (records : List (Nat × Message)) : List Chance :=
  records.flatMap fun e => (plan e.1).script e.2

/-- What a poll is handed: all that the group has not handed out. -/
def delivered (m : Mem ι) : List (Nat × Message) :=
  (m.stream.group.map fun g => m.stream.entriesFrom g.cursor m.stream.entries.length).getD []

/-! ## One record's turn -/

variable {m m' : Mem ι} {w : String} {e e' : Nat × Message}

/-- The memory after an `HSET` of a job's hash. -/
def put (m : Mem ι) (jobId : String) (mapping : List (Field × String)) : Mem ι :=
  { m with hashes := m.hashes.hset (jobKey jobId) mapping }

/-- The memory after an `XACK`. -/
def ack (m : Mem ι) (id : Nat) : Mem ι := { m with stream := m.stream.xack id }

/-- The memory after a turn that does not throw. -/
def finish (w : String) (m : Mem ι) (e : Nat × Message) : Mem ι :=
  match e.2.jobId with
  | none => ack m e.1
  | some jobId =>
    ack (put (put m jobId (statusUpdates .processing (some w) (some ""))) jobId
      (statusUpdates .completed (some w) (some (resultStr e.2.taskType)))) e.1

/-- What the turn of `e` leaves of the rest: no other job's status and no other pending
    entry changes, and none is added. -/
structure Turned (e : Nat × Message) (m m' : Mem ι) : Prop where
  dead : m'.dead = m.dead
  status : ∀ jobId, e.2.jobId ≠ some jobId → jobStatus m' jobId = jobStatus m jobId
  kept : ∀ p ∈ m.stream.pending, p.1 ≠ e.1 → p ∈ m'.stream.pending
  fewer : ∀ p ∈ m'.stream.pending, p ∈ m.stream.pending

theorem Turned.refl (e : Nat × Message) (m : Mem ι) : Turned e m m :=
  ⟨rfl, fun _ _ => rfl, fun _ hp _ => hp, fun _ hp => hp⟩

theorem Turned.trans {m₁ m₂ m₃ : Mem ι} (h₁ : Turned e m₁ m₂) (h₂ : Turned e m₂ m₃) : Turned e m₁ m₃ where
  dead := h₂.dead.trans h₁.dead
  status jobId h := (h₂.status jobId h).trans (h₁.status jobId h)
  kept p hp hne := h₂.kept p (h₁.kept p hp hne) hne
  fewer p hp := h₁.fewer p (h₂.fewer p hp)

theorem turned_put {jobId : String} (h : e.2.jobId = some jobId) (m : Mem ι) (mapping : List (Field × String)) :
    Turned e m (put m jobId mapping) where
  dead := rfl
  status j hj := by
    have hne : jobKey j ≠ jobKey jobId := fun hk => hj (by rw [h, jobKey_inj hk])
    simp only [put, jobStatus, Hashes.field, Hashes.hset_ne _ _ hne]
  kept _ hp _ := hp
  fewer _ hp := hp

theorem turned_ack (e : Nat × Message) (m : Mem ι) : Turned e m (ack m e.1) where
  dead := rfl
  status _ _ := rfl
  kept _ hp hne := Stream.mem_pending_xack.mpr ⟨hp, hne⟩
  fewer _ hp := (Stream.mem_pending_xack.mp hp).1

theorem finish_turned (w : String) (m : Mem ι) (e : Nat × Message) : Turned e m (finish w m e) := by
  unfold finish
  split
  · exact turned_ack e m
  · rename_i jobId hj
    exact ((turned_put hj m _).trans (turned_put hj _ _)).trans (turned_ack e _)

/-- The record is processed: its job, when it has one, is completed, and it is no longer
    pending. -/
def Done (e : Nat × Message) (m : Mem ι) : Prop :=
  (∀ jobId, e.2.jobId = some jobId → jobStatus m jobId = some Status.completed.str) ∧ ∀ p ∈ m.stream.pending, p.1 ≠ e.1

theorem finish_done (w : String) (m : Mem ι) (e : Nat × Message) : Done e (finish w m e) := by
  unfold finish
  split
  · rename_i hj
    refine ⟨fun jobId h => ?_, fun p hp => (Stream.mem_pending_xack.mp hp).2⟩
    rw [hj] at h
    cases h
  · rename_i jobId hj
    refine ⟨fun j h => ?_, fun p hp => (Stream.mem_pending_xack.mp hp).2⟩
    rw [hj] at h
    cases h
    simp only [jobStatus, ack, put, Hashes.field_hset_same]
    rfl

/-- Two records of different jobs and ids. -/
def Distinct (e e' : Nat × Message) : Prop := e.1 ≠ e'.1 ∧ ∀ jobId, e.2.jobId = some jobId → e'.2.jobId ≠ some jobId

theorem Done.turned (h : Done e m) (hd : Distinct e e') (ht : Turned e' m m') : Done e m' :=
  ⟨fun jobId hj => (ht.status jobId (hd.2 jobId hj)).trans (h.1 jobId hj), fun p hp => h.2 p (ht.fewer p hp)⟩

variable [DecidableEq ι]

/-- Run as thread `i` with the chances `xs`, the program ends so. -/
abbrev Ends {α : Type} (i : ι) (p : Prog P α) (m : Mem ι) (xs : List Chance) (r : Except Exc α) (m' : Mem ι)
    (rest : List Chance) : Prop :=
  p.Ends (springMemory (P := P)).scripted i (fun _ => ()) (m, xs) r (m', rest)

variable {i : ι} {x : Chance} {xs : List Chance}

omit [DecidableEq ι] in
theorem Chance.reply_throws {α : Type} {x : Chance} (h : x.fault.isSome) (m : Mem ι) (r : Except Exc α × Mem ι) :
    ∃ exc m', x.reply m r = (.error exc, m') ∧ (m' = m ∨ m' = r.2) := by
  obtain ⟨⟨effect, exc⟩, hf⟩ := Option.isSome_iff_exists.mp h
  refine ⟨exc, if effect then r.2 else m, by simp only [Chance.reply, hf], ?_⟩
  cases effect with
  | true => exact .inr rfl
  | false => exact .inl rfl

/-- A command that answers as Redis does, or throws with or without effect. -/
theorem await_ends {c : Cmd P} {r : Except Exc (Ans c) × Mem ι}
    (hx : (springMemory (P := P)).exec i c x m = some (x.reply m r)) (h : x.fault = none) :
    Ends i (await c) m (x :: xs) r.1 r.2 xs := by
  have hr : x.reply m r = (r.1, r.2) := by simp only [Chance.reply, h]
  rw [hr] at hx
  exact Co.ends_await (scripted_exec hx)

theorem await_throws {c : Cmd P} {r : Except Exc (Ans c) × Mem ι} (xs : List Chance)
    (hx : (springMemory (P := P)).exec i c x m = some (x.reply m r)) (h : x.fault.isSome) :
    ∃ exc m', Ends i (await c) m (x :: xs) (.error exc) m' xs ∧ (m' = m ∨ m' = r.2) := by
  obtain ⟨exc, m', hr, hm⟩ := Chance.reply_throws h m r
  rw [hr] at hx
  exact ⟨exc, m', Co.ends_await (scripted_exec hx), hm⟩

section Commands

variable (ha : m.dead i = false)

include ha

theorem exec_hset (jobId : String) (mapping : List (Field × String)) :
    (springMemory (P := P)).exec i (.hset (jobKey jobId) mapping) x m =
      some (x.reply m (.ok (), put m jobId mapping)) := by
  simp [springMemory, memory, ha, put]

theorem exec_xack (id : Nat) : (springMemory (P := P)).exec i (.xack id) x m = some (x.reply m (.ok (), ack m id)) := by
  simp [springMemory, memory, ha, ack]

theorem exec_awaitTask : (springMemory (P := P)).exec i .awaitTask x m = some (x.outcome, m) := by
  simp [springMemory, memory, ha]

theorem updateJobStatus_ends {jobId : String} {status : Status} {result : Option String} (h : x.fault = none) :
    Ends i (updateJobStatus jobId status (some w) result : Prog P Unit) m (x :: xs) (.ok ())
      (put m jobId (statusUpdates status (some w) result)) xs :=
  await_ends (exec_hset ha _ _) h

theorem awaitTask_ends (xs : List Chance) : Ends i (await .awaitTask : Prog P String) m (x :: xs) x.outcome m xs :=
  Co.ends_await (scripted_exec (exec_awaitTask ha))

end Commands

/-- The program of a record's turn, when the record carries a job. -/
theorem processRecord_some (w : String) {jobId : String} (h : e.2.jobId = some jobId) :
    (processRecord w e : Prog P Unit) =
      (updateJobStatus jobId .processing (some w) (some "")).bind fun _ => (await .awaitTask).bind fun _ =>
        (updateJobStatus jobId .completed (some w) (some (resultStr e.2.taskType))).bind fun _ =>
          await (.xack e.1) := by
  unfold processRecord
  rw [h]
  rfl

theorem processRecord_none (w : String) (h : e.2.jobId = none) :
    (processRecord w e : Prog P Unit) = await (.xack e.1) := by
  unfold processRecord
  rw [h]

/-- Why a turn throws. -/
theorem Turn.throws_some {x : Turn} {data : Message} {jobId : String} (h : data.jobId = some jobId) :
    x.throws data = (x.processing.fault.isSome || !x.work.outcome.isOk || x.completed.fault.isSome ||
      x.acknowledge.fault.isSome) := by
  simp [Turn.throws, h]

theorem Turn.throws_none {x : Turn} {data : Message} (h : data.jobId = none) :
    x.throws data = x.acknowledge.fault.isSome := by
  simp [Turn.throws, h]

theorem Turn.script_some {x : Turn} {data : Message} {jobId : String} (h : data.jobId = some jobId) :
    x.script data = [x.processing, x.work, x.completed, x.acknowledge] := by
  unfold Turn.script
  rw [h]

theorem Turn.script_none {x : Turn} {data : Message} (h : data.jobId = none) : x.script data = [x.acknowledge] := by
  unfold Turn.script
  rw [h]

/-- A turn in which nothing throws. -/
theorem processRecord_ends {turn : Turn} (ha : m.dead i = false) (h : turn.throws e.2 = false) :
    Ends i (processRecord w e : Prog P Unit) m (turn.script e.2 ++ xs) (.ok ()) (finish w m e) xs := by
  cases hj : e.2.jobId with
  | none =>
    rw [Turn.throws_none hj, Option.isSome_eq_false_iff, Option.isNone_iff_eq_none] at h
    rw [Turn.script_none hj, processRecord_none w hj]
    simpa [finish, hj] using await_ends (exec_xack ha e.1) h
  | some jobId =>
    rw [Turn.throws_some hj] at h
    simp only [Bool.or_eq_false_iff, Option.isSome_eq_false_iff, Option.isNone_iff_eq_none] at h
    obtain ⟨⟨⟨hp, hw⟩, hc⟩, hx⟩ := h
    rw [Turn.script_some hj, processRecord_some w hj]
    obtain ⟨text, htext⟩ : ∃ text, turn.work.outcome = .ok text := by
      cases ho : turn.work.outcome with
      | ok text => exact ⟨text, rfl⟩
      | error exc => simp [ho, Except.isOk, Except.toBool] at hw
    -- neither status update changes who is dead
    have ha₁ : (put m jobId (statusUpdates .processing (some w) (some ""))).dead i = false := ha
    have ha₂ : (put (put m jobId (statusUpdates .processing (some w) (some ""))) jobId
      (statusUpdates .completed (some w) (some (resultStr e.2.taskType)))).dead i = false := ha
    have hwork := awaitTask_ends (P := P) (x := turn.work) ha₁ (turn.completed :: turn.acknowledge :: xs)
    rw [htext] at hwork
    refine (updateJobStatus_ends ha hp).bind (hwork.bind ((updateJobStatus_ends ha₁ hc).bind ?_))
    simpa [finish, hj] using await_ends (exec_xack ha₂ e.1) hx

/-- A status update that throws. -/
theorem updateJobStatus_throws {jobId : String} {status : Status} {result : Option String} (hj : e.2.jobId = some jobId)
    (ha : m.dead i = false) (h : x.fault.isSome) :
    ∃ exc m', Ends i (updateJobStatus jobId status (some w) result : Prog P Unit) m (x :: xs) (.error exc) m' xs ∧
      Turned e m m' := by
  obtain ⟨exc, m', he, hm⟩ := await_throws (P := P) xs (exec_hset ha jobId (statusUpdates status (some w) result)) h
  refine ⟨exc, m', he, ?_⟩
  rcases hm with rfl | rfl
  · exact .refl e m'
  · exact turned_put hj m _

theorem xack_throws (e : Nat × Message) (ha : m.dead i = false) (h : x.fault.isSome) :
    ∃ exc m', Ends i (await (.xack e.1) : Prog P Unit) m (x :: xs) (.error exc) m' xs ∧ Turned e m m' := by
  obtain ⟨exc, m', he, hm⟩ := await_throws (P := P) xs (exec_xack ha e.1) h
  refine ⟨exc, m', he, ?_⟩
  rcases hm with rfl | rfl
  · exact .refl e m'
  · exact turned_ack e m

/-- A turn that throws ends with the exception, and concerns no other record. -/
theorem processRecord_throws {turn : Turn} (w : String) (xs : List Chance) (ha : m.dead i = false)
    (h : turn.throws e.2 = true) :
    ∃ exc m' rest, Ends i (processRecord w e : Prog P Unit) m (turn.script e.2 ++ xs) (.error exc) m' rest ∧
      Turned e m m' := by
  cases hj : e.2.jobId with
  | none =>
    rw [Turn.throws_none hj] at h
    rw [Turn.script_none hj, processRecord_none w hj]
    obtain ⟨exc, m', hends, ht⟩ := xack_throws e ha h
    exact ⟨exc, m', xs, hends, ht⟩
  | some jobId =>
    rw [Turn.throws_some hj] at h
    rw [Turn.script_some hj, processRecord_some w hj]
    have ha₁ : (put m jobId (statusUpdates .processing (some w) (some ""))).dead i = false := ha
    have ht₁ := turned_put hj m (statusUpdates .processing (some w) (some ""))
    -- the first of the four commands that throws
    cases hp : turn.processing.fault.isSome with
    | true =>
      obtain ⟨exc, m', hends, ht⟩ := updateJobStatus_throws hj ha hp
      exact ⟨exc, m', _, hends.bind_error _, ht⟩
    | false =>
      rw [Option.isSome_eq_false_iff, Option.isNone_iff_eq_none] at hp
      have hstart : Ends i (updateJobStatus jobId .processing (some w) (some "") : Prog P Unit) m
          (turn.processing :: turn.work :: turn.completed :: turn.acknowledge :: xs) (.ok ()) _ _ :=
        updateJobStatus_ends ha hp
      have hwork := awaitTask_ends (P := P) (x := turn.work) ha₁ (turn.completed :: turn.acknowledge :: xs)
      cases ho : turn.work.outcome with
      | error exc =>
        rw [ho] at hwork
        exact ⟨exc, _, _, hstart.bind (hwork.bind_error _), ht₁⟩
      | ok text =>
        rw [ho] at hwork
        cases hc : turn.completed.fault.isSome with
        | true =>
          obtain ⟨exc, m', hends, ht⟩ := updateJobStatus_throws hj ha₁ hc
          exact ⟨exc, m', _, hstart.bind (hwork.bind (hends.bind_error _)), ht₁.trans ht⟩
        | false =>
          rw [Option.isSome_eq_false_iff, Option.isNone_iff_eq_none] at hc
          have hx : turn.acknowledge.fault.isSome := by simpa [hp, ho, hc, Except.isOk, Except.toBool] using h
          have ha₂ : (put (put m jobId (statusUpdates .processing (some w) (some ""))) jobId
            (statusUpdates .completed (some w) (some (resultStr e.2.taskType)))).dead i = false := ha
          obtain ⟨exc, m', hends, ht⟩ := xack_throws e ha₂ hx
          exact ⟨exc, m', _, hstart.bind (hwork.bind ((updateJobStatus_ends ha₁ hc).bind hends)),
            (ht₁.trans (turned_put hj _ _)).trans ht⟩

/-! ## The loop -/

variable {plan : Nat → Turn} {l l₁ l₂ : List (Nat × Message)}

theorem forEach_finishes (ha : m.dead i = false) (h : ∀ e ∈ l, (plan e.1).throws e.2 = false) (xs : List Chance) :
    Ends i (Co.forEach (processRecord w) l : Prog P Unit) m (script plan l ++ xs) (.ok ()) (l.foldl (finish w) m)
      xs := by
  induction l generalizing m with
  | nil => exact Co.ends_forEach_nil
  | cons e l ih =>
    have hrest := ih (m := finish w m e) (by rw [(finish_turned w m e).dead]; exact ha)
      (fun d hd => h d (List.mem_cons_of_mem _ hd))
    rw [script, List.flatMap_cons, List.append_assoc]
    exact Co.ends_forEach_cons (processRecord_ends ha (h e List.mem_cons_self)) hrest

/-- The loop ends at the first record whose turn throws. -/
theorem forEach_stops (w : String) (l₂ : List (Nat × Message)) (ha : m.dead i = false)
    (h : ∀ d ∈ l₁, (plan d.1).throws d.2 = false) (he : (plan e.1).throws e.2 = true) :
    ∃ exc m' rest, Ends i (Co.forEach (processRecord w) (l₁ ++ e :: l₂) : Prog P Unit) m (script plan (l₁ ++ e :: l₂))
      (.error exc) m' rest ∧ Turned e (l₁.foldl (finish w) m) m' := by
  induction l₁ generalizing m with
  | nil =>
    obtain ⟨exc, m', rest, hends, ht⟩ := processRecord_throws (P := P) w (script plan l₂) ha he
    exact ⟨exc, m', rest, Co.ends_forEach_error hends, ht⟩
  | cons d l₁ ih =>
    obtain ⟨exc, m', rest, hends, ht⟩ := ih (m := finish w m d) (by rw [(finish_turned w m d).dead]; exact ha)
      (fun c hc => h c (List.mem_cons_of_mem _ hc))
    refine ⟨exc, m', rest, ?_, ht⟩
    rw [List.cons_append, script, List.flatMap_cons]
    exact Co.ends_forEach_cons (processRecord_ends ha (h d List.mem_cons_self)) hends

omit [DecidableEq ι] in
/-- Records processed later leave one that is done alone. -/
theorem foldl_keeps (h : Done e m) (hl : ∀ d ∈ l, Distinct e d) : Done e (l.foldl (finish w) m) := by
  induction l generalizing m with
  | nil => exact h
  | cons d l ih =>
    exact ih (h.turned (hl d List.mem_cons_self) (finish_turned w m d)) fun c hc => hl c (List.mem_cons_of_mem _ hc)

omit [DecidableEq ι] in
theorem foldl_done (hl : l.Pairwise Distinct) (he : e ∈ l) (m : Mem ι) : Done e (l.foldl (finish w) m) := by
  induction l generalizing m with
  | nil => cases he
  | cons d l ih =>
    rw [List.pairwise_cons] at hl
    rcases List.mem_cons.mp he with rfl | he
    · exact foldl_keeps (m := finish w m e) (finish_done w m e) hl.1
    · exact ih hl.2 he _

omit [DecidableEq ι] in
/-- An entry that none of the records is stays pending. -/
theorem foldl_kept {p : Nat × String} (hp : p ∈ m.stream.pending) (hl : ∀ d ∈ l, p.1 ≠ d.1) :
    p ∈ (l.foldl (finish w) m).stream.pending := by
  induction l generalizing m with
  | nil => exact hp
  | cons d l ih =>
    exact ih ((finish_turned w m d).kept p hp (hl d List.mem_cons_self)) fun c hc => hl c (List.mem_cons_of_mem _ hc)

/-- Every record whose own turn does not throw and that carries a job is completed and
    acknowledged. -/
def Spared (plan : Nat → Turn) (l : List (Nat × Message)) (m : Mem ι) : Prop :=
  ∀ e ∈ l, (plan e.1).throws e.2 = false → ∀ jobId, e.2.jobId = some jobId →
    jobStatus m jobId = some Status.completed.str ∧ ∀ p ∈ m.stream.pending, p.1 ≠ e.1

/-- Behind a record whose turn throws, those whose turns do not carry no job. -/
def NoneBehind (plan : Nat → Turn) (l : List (Nat × Message)) : Prop :=
  l.Pairwise fun e e' => (plan e.1).throws e.2 = true → (plan e'.1).throws e'.2 = false → e'.2.jobId = none

instance (plan : Nat → Turn) (l : List (Nat × Message)) : Decidable (NoneBehind plan l) :=
  inferInstanceAs (Decidable (List.Pairwise _ l))

theorem noneBehind_of_all (h : ∀ e ∈ l, (plan e.1).throws e.2 = false) : NoneBehind plan l := by
  refine List.Pairwise.imp_of_mem ?_ (List.pairwise_of_forall (R := fun _ _ => True) fun _ _ => trivial)
  intro e e' he _ _ ht
  rw [h e he] at ht
  cases ht

/-- Counted from the first record that throws. -/
theorem noneBehind_iff (h : ∀ d ∈ l₁, (plan d.1).throws d.2 = false) (he : (plan e.1).throws e.2 = true) :
    NoneBehind plan (l₁ ++ e :: l₂) ↔ ∀ d ∈ l₂, (plan d.1).throws d.2 = false → d.2.jobId = none := by
  unfold NoneBehind
  rw [List.pairwise_append, List.pairwise_cons]
  constructor
  · rintro ⟨-, ⟨hl, -⟩, -⟩ d hd hn
    exact hl d hd he hn
  · intro hl
    refine ⟨noneBehind_of_all h, ⟨fun d hd _ hn => hl d hd hn, ?_⟩, ?_⟩
    · refine List.Pairwise.imp_of_mem ?_ (List.pairwise_of_forall (R := fun _ _ => True) fun _ _ => trivial)
      intro _ d _ hd _ _ hn
      exact hl d hd hn
    · intro d hd _ _ ht
      rw [h d hd] at ht
      cases ht

/-- The loop over records that were just handed out. -/
theorem forEach_spares_iff (plan : Nat → Turn) (ha : m.dead i = false) (hl : l.Pairwise Distinct)
    (hpend : ∀ e ∈ l, (e.1, w) ∈ m.stream.pending) :
    ∃ r m' rest, Ends i (Co.forEach (processRecord w) l : Prog P Unit) m (script plan l) r m' rest ∧
      (Spared plan l m' ↔ NoneBehind plan l) := by
  cases hf : l.find? fun e => (plan e.1).throws e.2 with
  | none =>
    have hall : ∀ e ∈ l, (plan e.1).throws e.2 = false := by
      intro e he
      simpa using List.find?_eq_none.mp hf e he
    have hends := forEach_finishes (P := P) (w := w) ha hall []
    rw [List.append_nil] at hends
    refine ⟨_, _, _, hends, iff_of_true ?_ (noneBehind_of_all hall)⟩
    intro e he _ jobId hj
    have hdone := foldl_done (w := w) hl he m
    exact ⟨hdone.1 jobId hj, hdone.2⟩
  | some e =>
    obtain ⟨he, l₁, l₂, rfl, hfirst⟩ := List.find?_eq_some_iff_append.mp hf
    have h₁ : ∀ d ∈ l₁, (plan d.1).throws d.2 = false := by
      intro d hd
      simpa using hfirst d hd
    obtain ⟨exc, m', rest, hends, ht⟩ := forEach_stops (P := P) w l₂ ha h₁ he
    refine ⟨_, m', rest, hends, ?_⟩
    rw [noneBehind_iff h₁ he]
    rw [List.pairwise_append, List.pairwise_cons] at hl
    obtain ⟨hl₁, ⟨hl₂, -⟩, hcross⟩ := hl
    constructor
    · -- a record behind the first that throws is still pending
      intro hs d hd hn
      by_contra hj
      obtain ⟨jobId, hj⟩ := Option.ne_none_iff_exists'.mp hj
      have hmem : d ∈ l₁ ++ e :: l₂ := List.mem_append_right _ (List.mem_cons_of_mem _ hd)
      have hkept := foldl_kept (w := w) (hpend d hmem) fun c hc => (hcross c hc d (List.mem_cons_of_mem _ hd)).1.symm
      exact (hs d hmem hn jobId hj).2 _ (ht.kept _ hkept (hl₂ d hd).1.symm) rfl
    · intro hnone d hd hn jobId hj
      rcases List.mem_append.mp hd with hd | hd
      · have hdone := (foldl_done (w := w) hl₁ hd m).turned (hcross d hd e List.mem_cons_self) ht
        exact ⟨hdone.1 jobId hj, hdone.2⟩
      · rcases List.mem_cons.mp hd with rfl | hd
        · rw [he] at hn
          cases hn
        · rw [hnone d hd hn] at hj
          cases hj

/-! ## The call -/

omit [DecidableEq ι] in
/-- The records of one poll have ids of their own. -/
theorem delivered_ids (m : Mem ι) : (delivered m).Pairwise fun e e' => e.1 ≠ e'.1 := by
  unfold delivered
  cases hg : m.stream.group with
  | none => exact List.Pairwise.nil
  | some g =>
    rw [Option.map_some, Option.getD_some, Stream.entriesFrom, List.pairwise_map]
    have hids : ((((m.stream.entries.drop g.cursor).take m.stream.entries.length).zipIdx g.cursor).map
        Prod.snd).Nodup := by
      rw [List.zipIdx_map_snd]
      exact List.nodup_range'
    exact List.pairwise_map.mp hids

omit [DecidableEq ι] in
theorem delivered_distinct (h : ((delivered m).filterMap (·.2.jobId)).Nodup) : (delivered m).Pairwise Distinct := by
  have hjobs := List.pairwise_filterMap.mp h
  refine ((delivered_ids m).and hjobs).imp ?_
  intro e e' hd
  exact ⟨hd.1, fun jobId hj hj' => hd.2 jobId hj jobId hj' rfl⟩

omit [DecidableEq ι] in
/-- A group created at the latest entry has nothing to hand out, as no group has. -/
theorem delivered_created {s : Stream Message} (h : m.stream.xgroupCreateLatest = some s) :
    delivered { m with stream := s } = delivered m := by
  have hg := (Stream.xgroupCreateLatest_same h).1
  simp only [Stream.xgroupCreateLatest, hg, Option.some.injEq] at h
  subst h
  simp [delivered, hg, Stream.entriesFrom]

/-- Creating the group changes nothing that a poll is handed, whether it fails or not. -/
theorem exec_xgroupCreate (ha : m.dead i = false) (hx : ∀ effect, x.fault ≠ some (effect, .cancelled)) :
    ∃ r m₁, (springMemory (P := P)).exec i .xgroupCreate x m = some (r, m₁) ∧ r ≠ .error .cancelled ∧
      m₁.dead = m.dead ∧ delivered m₁ = delivered m := by
  -- what it does when it does not fail
  obtain ⟨r, m₁, hexec, hr, hd, hdel⟩ : ∃ r m₁,
      (springMemory (P := P)).exec i .xgroupCreate x m = some (x.reply m (r, m₁)) ∧ r ≠ .error .cancelled ∧
        m₁.dead = m.dead ∧ delivered m₁ = delivered m := by
    simp only [springMemory, ha, Bool.false_eq_true, if_false]
    cases hc : m.stream.xgroupCreateLatest with
    | some s => exact ⟨_, _, rfl, by simp, rfl, delivered_created hc⟩
    | none => exact ⟨_, _, rfl, by simp, rfl, rfl⟩
  cases hf : x.fault with
  | none => exact ⟨r, m₁, by rw [hexec, Chance.reply, hf], hr, hd, hdel⟩
  | some f =>
    obtain ⟨effect, exc⟩ := f
    have hexc : (Except.error exc : Except Exc Unit) ≠ .error .cancelled := by
      intro h
      cases h
      exact hx effect hf
    cases effect with
    | true => exact ⟨.error exc, m₁, by rw [hexec, Chance.reply, hf]; rfl, hexc, hd, hdel⟩
    | false => exact ⟨.error exc, m, by rw [hexec, Chance.reply, hf]; rfl, hexc, rfl, rfl⟩

theorem ensureConsumerGroup_ends (xs : List Chance) (ha : m.dead i = false)
    (hx : ∀ effect, x.fault ≠ some (effect, .cancelled)) :
    ∃ m₁, Ends i (ensureConsumerGroup : Prog P Unit) m (x :: xs) (.ok ()) m₁ xs ∧ m₁.dead = m.dead ∧
      delivered m₁ = delivered m := by
  obtain ⟨r, m₁, hexec, hr, hd, hdel⟩ := exec_xgroupCreate (P := P) ha hx
  refine ⟨m₁, ?_, hd, hdel⟩
  have hends : Ends i (await .xgroupCreate : Prog P Unit) m (x :: xs) r m₁ xs := Co.ends_await (scripted_exec hexec)
  match r, hr with
  | .ok (), _ => exact hends.handle _
  | .error (.exception str), _ => exact hends.handle_error (Co.ends_ret ())

/-- The poll hands the records out: they are pending, and the rest is as before. -/
theorem read_ends {g : Group} (w : String) (xs : List Chance) (ha : m.dead i = false) (hx : x.fault = none)
    (hg : m.stream.group = some g) :
    ∃ m₁, Ends i (await (.xreadgroup w 0) : Prog P _) m (x :: xs) (.ok (delivered m)) m₁ xs ∧ m₁.dead = m.dead ∧
      ∀ e ∈ delivered m, (e.1, w) ∈ m₁.stream.pending := by
  have hdel : delivered m = m.stream.entriesFrom g.cursor m.stream.entries.length := by
    rw [delivered, hg]
    rfl
  obtain ⟨s, hread, hs⟩ : ∃ s, m.stream.xreadgroup w m.stream.entries.length = some (delivered m, s) ∧
      s.pending = g.pending ++ (delivered m).map fun e => (e.1, w) := by
    refine ⟨_, by rw [Stream.xreadgroup, hg, Option.map_some, hdel], ?_⟩
    rw [hdel]
    rfl
  refine ⟨{ m with stream := s }, Co.ends_await (scripted_exec ?_), rfl, ?_⟩
  · simp only [springMemory, memory, ha, Bool.false_eq_true, if_false, hread, Chance.reply, hx]
  · intro e he
    rw [hs]
    exact List.mem_append_right _ (List.mem_map_of_mem he)

/-- Without a group there is nothing to read from. -/
theorem read_throws (ha : m.dead i = false) (hx : x.fault = none) (hg : m.stream.group = none) :
    Ends i (await (.xreadgroup w 0) : Prog P _) m (x :: xs) (.error (.exception noGroup)) m xs := by
  refine Co.ends_await (scripted_exec ?_)
  simp only [springMemory, memory, ha, Bool.false_eq_true, if_false, Stream.xreadgroup, hg, Option.map_none,
    Chance.reply, hx]

/-- What the `catch` around the loop makes of it: the same memory. -/
theorem catchException_ends {p : Prog P Unit} {r : Except Exc Unit} {rest : List Chance} (h : Ends i p m xs r m' rest) :
    ∃ r', Ends i (catchException p) m xs r' m' rest := by
  match r with
  | .ok () => exact ⟨_, h.handle _⟩
  | .error (.exception str) => exact ⟨_, h.handle_error (Co.ends_ret ())⟩
  | .error .cancelled => exact ⟨_, h.handle_error (Co.ends_raise _)⟩

/-- The call is made with these chances: of the group's creation, of the read and of
    each record's turn. Every record it is handed whose own turn does not throw and that
    carries a job ends completed and acknowledged. -/
def Spares (i : ι) (w : String) (m : Mem ι) (group read : Chance) (plan : Nat → Turn) : Prop :=
  ∃ r m' rest, Ends i (processStream w : Prog Unit Unit) m (group :: read :: script plan (delivered m)) r m' rest ∧
    Spared plan (delivered m) m'

theorem processStream_spares_iff (i : ι) (w : String) (m : Mem ι) (group read : Chance) (plan : Nat → Turn)
    (ha : m.dead i = false) (hgroup : ∀ effect, group.fault ≠ some (effect, .cancelled)) (hread : read.fault = none)
    (hjobs : ((delivered m).filterMap (·.2.jobId)).Nodup) :
    Spares i w m group read plan ↔ NoneBehind plan (delivered m) := by
  obtain ⟨m₁, hends₁, hd₁, hdel⟩ :=
    ensureConsumerGroup_ends (P := Unit) (read :: script plan (delivered m)) ha hgroup
  have ha₁ : m₁.dead i = false := by rw [hd₁]; exact ha
  -- the rest of the call, and what it leaves
  obtain ⟨r, m', rest, hbody, hiff⟩ : ∃ r m' rest,
      Ends i ((await (.xreadgroup w 0) : Prog Unit _).bind (Co.forEach (processRecord w))) m₁
        (read :: script plan (delivered m)) r m' rest ∧
        (Spared plan (delivered m) m' ↔ NoneBehind plan (delivered m)) := by
    rw [← hdel]
    cases hg : m₁.stream.group with
    | none =>
      have hnil : delivered m₁ = [] := by rw [delivered, hg]; rfl
      refine ⟨_, _, _, (read_throws ha₁ hread hg).bind_error _, ?_⟩
      rw [hnil]
      exact iff_of_true (fun e he => by cases he) List.Pairwise.nil
    | some g =>
      obtain ⟨m₂, hends₂, hd₂, hpend⟩ := read_ends (P := Unit) w (script plan (delivered m₁)) ha₁ hread hg
      have hdist : (delivered m₁).Pairwise Distinct := delivered_distinct (by rw [hdel]; exact hjobs)
      obtain ⟨r, m', rest, hends₃, hiff⟩ := forEach_spares_iff (P := Unit) plan
        (by rw [hd₂]; exact ha₁ : m₂.dead i = false) hdist hpend
      exact ⟨r, m', rest, hends₂.bind hends₃, hiff⟩
  obtain ⟨r', hcatch⟩ := catchException_ends hbody
  have hall : Ends i (processStream w : Prog Unit Unit) m (group :: read :: script plan (delivered m)) r' m' rest :=
    hends₁.bind hcatch
  rw [← hiff]
  constructor
  · rintro ⟨r₂, m₂, rest₂, hends, hs⟩
    cases (hends.unique hall).2
    exact hs
  · intro hs
    exact ⟨r', m', rest, hall, hs⟩

def twoJobs : Mem Unit where
  hashes _ := none
  stream := ⟨[⟨some "a", some "report"⟩, ⟨some "b", some "report"⟩], some ⟨0, []⟩⟩
  dead _ := false

/-- Nothing fails. -/
def smooth : Chance := ⟨none, .ok ""⟩

/-- The first status update of one record fails, and nothing else. -/
def throwsAt (record id : Nat) : Turn where
  processing := if id = record then ⟨some (false, .exception "timeout"), .ok ""⟩ else smooth
  work := smooth
  completed := smooth
  acknowledge := smooth

/-- Job `a` is completed before job `b` fails. -/
theorem last_throws_spares : Spares () "w" twoJobs smooth smooth (throwsAt 1) := by
  have hiff := processStream_spares_iff () "w" twoJobs smooth smooth (throwsAt 1) rfl (by decide) rfl (by decide)
  exact hiff.mpr (by decide)

/-- Job `b` is stranded behind job `a`. -/
theorem batch_lost : ¬ Spares () "w" twoJobs smooth smooth (throwsAt 0) := by
  rintro ⟨r, m', rest, ⟨cs, hrun⟩, hs⟩
  have hpend : ((processStream "w" : Prog Unit Unit).alone springMemory.scripted () (fun _ => ())
      (twoJobs, smooth :: smooth :: script (throwsAt 0) (delivered twoJobs))).map (fun t => t.2.1.1.stream.pending) =
        some [(0, "w"), (1, "w")] := by decide
  rw [hrun] at hpend
  have hb := (hs (1, ⟨some "b", some "report"⟩) (by decide) (by decide) "b" rfl).2 (1, "w")
  simp only [Option.map_some, Option.some.injEq] at hpend
  rw [hpend] at hb
  exact hb (by decide) rfl

end Playground.Queue.Spring
