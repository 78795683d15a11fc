/-
  Playground.Lock.Retry — what a 429 of NestJS's `purchase/safe` says of the stock.

  `buySafe` answers every exception of `purchaseWithLock` with 429, "please retry". Any
  number of requests run side by side with other clients, and each Redis command of a
  request may throw, with or without having taken effect. Beside the state each
  request's commands are noted with how they went wrong (`History`).
  - `retry_safe_iff`: a request that has ended has either not been answered 429 or not
    written the stock, just when its `SET` of the stock did not throw after taking
    effect, and its release script did not throw after such a `SET`.
  - `bought_and_429`: the release script throws, the client is told to buy again.
-/

import Playground.Lock.NestLock

namespace Playground.Lock.Nest

open Playground.Lib Playground.Redis

/-! ## Phases of a purchase -/

/-- The arguments of a `buySafe`, and the token that its lock draws. -/
structure Body where
  token : Token
  itemId : String
  quantity : Option Double

/-- Where a request stands: the command it awaits next, with the locals it holds. -/
inductive Phase where
  /-- `n` attempts of `acquireLock` left. -/
  | trying (n : Nat)
  | resting (n : Nat)
  | reading
  | delaying (cur : Double)
  | writing (new : Double)
  /-- In the `finally`, with the outcome of the `try`. -/
  | releasing (r : Except Exc PurchaseResult)
  | ended (r : Except Exc PurchaseResponse)

section Flow

variable (text : DoubleText) (nodeId : String) (b : Body)

def Body.lockKey : String := lockKeyOf ("inventory:" ++ b.itemId)

def Body.amount : Double := quantityOr1 b.quantity

/-- The answer to a request, from the outcome of its purchase. -/
def respond : Except Exc PurchaseResult → Except Exc PurchaseResponse
  | .ok res => .ok ⟨nodeId, res.success, res.message, res.remaining⟩
  | .error _ => .error tooManyRequests

/-- After the `GET`, with the stock it found. -/
def Phase.read (cur : Double) : Phase :=
  if cur.lt b.amount then .releasing (.ok ⟨false, "Out of stock", cur⟩) else .delaying cur

/-- Go on with an answer; an exception ends the request. -/
def Phase.on {α : Type} (k : α → Phase) : Except Exc α → Phase
  | .ok a => k a
  | .error _ => .ended (.error tooManyRequests)

/-- As `on`, inside the `try`. -/
def Phase.onTry {α : Type} (k : α → Phase) : Except Exc α → Phase
  | .ok a => k a
  | .error e => .releasing (.error e)

def headOf : Phase → Head Cmd Ans Exc PurchaseResponse Phase
  | .trying 0 => .ended (.error tooManyRequests)
  | .trying (n + 1) => .goes (.setNxPx b.lockKey b.token 5000)
    (.on fun result => if result = some "OK" then .reading else .resting n)
  | .resting n => .goes (.setTimeout 50) (.on fun _ => .trying n)
  | .reading => .goes (.get (stockKey b.itemId)) (.onTry fun val => .read b (stockOf text val))
  | .delaying cur => .goes (.setTimeout 10) (.onTry fun _ => .writing (cur.sub b.amount))
  | .writing new => .goes (.set (stockKey b.itemId) (text.toString new))
    (.onTry fun _ => .releasing (.ok ⟨true, "Purchase successful", new⟩))
  | .releasing r => .goes (.evalRelease b.lockKey b.token) (.on fun _ => .ended (respond nodeId r))
  | .ended r => .ended r

/-! ## The program -/

/-- The rest of a request from its purchase on, which `p` is what is left of. -/
def codeAnswer (p : Prog PurchaseResult) : Prog PurchaseResponse :=
  (p.bind fun res => .ret ⟨nodeId, res.success, res.message, res.remaining⟩).handle fun _ => .raise tooManyRequests

def codeRelease : Prog Unit := (releaseLock ("inventory:" ++ b.itemId) b.token).bind fun _ => .ret ()

/-- From the `try` on. -/
def codeTry (p : Prog PurchaseResult) : Prog PurchaseResponse := codeAnswer nodeId (p.andFinally (codeRelease b))

/-- Past the acquisition. -/
def codeAcquired : Option Token → Prog PurchaseResult
  | none => .raise (.error "Lock acquisition timeout")
  | some token => (purchase text b.itemId b.amount).andFinally
    ((releaseLock ("inventory:" ++ b.itemId) token).bind fun _ => .ret ())

def codeTrying (n : Nat) : Prog PurchaseResponse :=
  codeAnswer nodeId ((acquireLoop b.lockKey b.token 5000 50 n).bind (codeAcquired text b))

def codeWriting (new : Double) : Prog PurchaseResult :=
  (await (.set (stockKey b.itemId) (text.toString new))).bind fun _ => .ret ⟨true, "Purchase successful", new⟩

/-- The `try` from its comparison on. -/
def afterRead (cur : Double) : Prog PurchaseResult :=
  if cur.lt b.amount then .ret ⟨false, "Out of stock", cur⟩
  else (await (.setTimeout 10)).bind fun _ => codeWriting text b (cur.sub b.amount)

/-- The program left in a phase. -/
def codeOf : Phase → Prog PurchaseResponse
  | .trying n => codeTrying text nodeId b n
  | .resting n => codeAnswer nodeId (((await (.setTimeout 50)).bind fun _ =>
      acquireLoop b.lockKey b.token 5000 50 n).bind (codeAcquired text b))
  | .reading => codeTry nodeId b (purchase text b.itemId b.amount)
  | .delaying cur => codeTry nodeId b ((await (.setTimeout 10)).bind fun _ => codeWriting text b (cur.sub b.amount))
  | .writing new => codeTry nodeId b (codeWriting text b new)
  | .releasing r => codeTry nodeId b (Co.resume r)
  | .ended r => Co.resume r

theorem code_read (cur : Double) : codeOf text nodeId b (.read b cur) = codeTry nodeId b (afterRead text b cur) := by
  unfold Phase.read afterRead
  split <;> rfl

theorem unfolds (p : Phase) : codeOf text nodeId b p = (headOf text nodeId b p).code (codeOf text nodeId b) := by
  cases p with
  | trying n =>
    cases n with
    | zero => rfl
    | succ n =>
      refine Co.cmd_congr ?_ (fun _ => rfl)
      intro result
      show codeAnswer nodeId ((if result = some "OK" then pure (some b.token) else
        (await (.setTimeout 50)).bind fun _ => acquireLoop b.lockKey b.token 5000 50 n : Prog (Option Token)).bind
          (codeAcquired text b)) =
          codeOf text nodeId b (if result = some "OK" then .reading else .resting n)
      split <;> rfl
  | resting n => exact Co.cmd_congr (fun _ => rfl) (fun _ => rfl)
  | reading =>
    refine Co.cmd_congr ?_ (fun _ => rfl)
    intro val
    exact (code_read text nodeId b (stockOf text val)).symm
  | delaying cur => exact Co.cmd_congr (fun _ => rfl) (fun _ => rfl)
  | writing new => exact Co.cmd_congr (fun _ => rfl) (fun _ => rfl)
  | releasing r =>
    cases r with
    | ok res => exact Co.cmd_congr (fun _ => rfl) (fun _ => rfl)
    | error e => exact Co.cmd_congr (fun _ => rfl) (fun _ => rfl)
  | ended r => rfl

theorem buySafe_begin : buySafe text nodeId b.token b.itemId b.quantity = codeOf text nodeId b (.trying 20) := by
  show codeAnswer nodeId ((acquireLoop b.lockKey b.token 5000 50 20).bind _) = codeAnswer nodeId (_)
  rfl

end Flow

/-- The requests' flow chart. -/
def sales {ι : Type} (text : DoubleText) (nodeId : String) (bodies : ι → Body) :
    Flow ι Cmd Ans Exc PurchaseResponse Phase :=
  ⟨fun i => codeOf text nodeId (bodies i), fun i => headOf text nodeId (bodies i),
    fun i => unfolds text nodeId (bodies i)⟩

/-! ## Histories -/

/-- The commands that a request has run, each with how it went wrong. -/
abbrev History := List (Cmd × Fault)

def tookEffect : Fault → Bool
  | none => true
  | some (effect, _) => effect

section History

variable (itemId : String)

/-- A `SET` of the stock that takes effect. -/
def writes : Cmd × Fault → Bool
  | (.set key _, fault) => key == stockKey itemId && tookEffect fault
  | _ => false

/-- A `SET` of the stock that takes effect and throws. -/
def writesAndThrows : Cmd × Fault → Bool
  | (.set key _, some (true, _)) => key == stockKey itemId
  | _ => false

/-- A release script that throws. -/
def releaseThrows : Cmd × Fault → Bool
  | (.evalRelease .., some _) => true
  | _ => false

variable (h : History)

def wrote : Bool := h.any (writes itemId)

def wroteAndThrew : Bool := h.any (writesAndThrows itemId)

def releaseThrew : Bool := h.any releaseThrows

variable (c : Cmd) (x : Fault)

@[simp] theorem wrote_snoc : wrote itemId (h ++ [(c, x)]) = (wrote itemId h || writes itemId (c, x)) := by
  simp [wrote, List.any_append]

@[simp] theorem wroteAndThrew_snoc :
    wroteAndThrew itemId (h ++ [(c, x)]) = (wroteAndThrew itemId h || writesAndThrows itemId (c, x)) := by
  simp [wroteAndThrew, List.any_append]

@[simp] theorem releaseThrew_snoc : releaseThrew (h ++ [(c, x)]) = (releaseThrew h || releaseThrows (c, x)) := by
  simp [releaseThrew, List.any_append]

end History

section Runs

variable {ι : Type} [DecidableEq ι] {text : DoubleText} {nodeId : String} {bodies : ι → Body}

/-- The requests being served. -/
abbrev Serving (ι : Type) := Threads ι Cmd Ans Exc PurchaseResponse World Mem

/-- The command that a step ran is noted for its request. -/
def note (h : ι → History) (s : Serving ι) : Ev ι Fault World → Serving ι → ι → History
  | .run i x, _ => match (s.thr i).next with
    | some c => Function.update h i (h i ++ [(c, x)])
    | none => h
  | .env _, _ => h

/-- What a request's history says, in each of its phases. -/
def Books (b : Body) (h : History) : Phase → Prop
  | .releasing (.ok _) => wroteAndThrew b.itemId h = false ∧ releaseThrew h = false
  | .releasing (.error _) => wrote b.itemId h = wroteAndThrew b.itemId h ∧ releaseThrew h = false
  | .ended (.ok _) => wroteAndThrew b.itemId h = false ∧ releaseThrew h = false
  | .ended (.error e) => e = tooManyRequests ∧
      wrote b.itemId h = (wroteAndThrew b.itemId h || wrote b.itemId h && releaseThrew h)
  | _ => wrote b.itemId h = false ∧ wroteAndThrew b.itemId h = false ∧ releaseThrew h = false

/-- A command that is no `SET` and no release script leaves a history without them so. -/
theorem clean_snoc {itemId : String} {h : History} {c : Cmd} (x : Fault)
    (hc : wrote itemId h = false ∧ wroteAndThrew itemId h = false ∧ releaseThrew h = false)
    (hset : ∀ key value, c ≠ .set key value) (hrelease : ∀ key token, c ≠ .evalRelease key token) :
    wrote itemId (h ++ [(c, x)]) = false ∧ wroteAndThrew itemId (h ++ [(c, x)]) = false ∧
      releaseThrew (h ++ [(c, x)]) = false := by
  obtain ⟨h1, h2, h3⟩ := hc
  rw [wrote_snoc, wroteAndThrew_snoc, releaseThrew_snoc, h1, h2, h3]
  cases c with
  | set key value => exact absurd rfl (hset key value)
  | evalRelease key token => exact absurd rfl (hrelease key token)
  | _ => exact ⟨rfl, rfl, rfl⟩

/-- A history without writes and release scripts fits every phase. -/
theorem books_clean {b : Body} {h : History} {p : Phase}
    (hc : wrote b.itemId h = false ∧ wroteAndThrew b.itemId h = false ∧ releaseThrew h = false)
    (hp : ∀ e, p = .ended (.error e) → e = tooManyRequests) : Books b h p := by
  obtain ⟨h1, h2, h3⟩ := hc
  cases p with
  | releasing r => cases r <;> simp [Books, h1, h2, h3]
  | ended r =>
    cases r with
    | ok res => exact ⟨h2, h3⟩
    | error e => simp [Books, h1, h2, hp e rfl]
  | _ => exact ⟨h1, h2, h3⟩

/-- Up to its `SET`, whatever a request's command comes to. -/
theorem books_on {α : Type} {k : α → Phase} (hk : ∀ a e, k a ≠ .ended (.error e)) (r : Except Exc α) :
    (∀ e, Phase.on k r = .ended (.error e) → e = tooManyRequests) ∧
      ∀ e, Phase.onTry k r = .ended (.error e) → e = tooManyRequests := by
  cases r with
  | ok a => exact ⟨fun e he => absurd he (hk a e), fun e he => absurd he (hk a e)⟩
  | error x =>
    constructor
    · intro e he
      cases he
      rfl
    · intro e he
      cases he

omit [DecidableEq ι] in
/-- A step of a request keeps its books. -/
theorem Books.step {b : Body} {h : History} {p : Phase} {c : Cmd} {k : Except Exc (Ans c) → Phase} {x : Fault} {i : ι}
    {m : Mem} {rm : Except Exc (Ans c) × Mem} (hb : Books b h p) (hh : headOf text nodeId b p = .goes c k)
    (hx : memory.exec i c x m = some rm) : Books b (h ++ [(c, x)]) (k rm.1) := by
  cases p with
  | trying n =>
    cases n with
    | zero => cases hh
    | succ n =>
      cases hh
      refine books_clean (clean_snoc x hb nofun nofun) (books_on ?_ rm.1).1
      intro result e
      split <;> nofun
  | resting n =>
    cases hh
    exact books_clean (clean_snoc x hb nofun nofun) (books_on (fun _ _ he => by cases he) rm.1).1
  | reading =>
    cases hh
    refine books_clean (clean_snoc x hb nofun nofun) (books_on ?_ rm.1).2
    intro val e
    unfold Phase.read
    split <;> nofun
  | delaying cur =>
    cases hh
    exact books_clean (clean_snoc x hb nofun nofun) (books_on (fun _ _ he => by cases he) rm.1).2
  | writing new =>
    cases hh
    obtain ⟨h1, h2, h3⟩ := hb
    simp only [memory, outcome] at hx
    cases x with
    | none =>
      cases hx
      simp [Books, Phase.onTry, writesAndThrows, releaseThrows, h2, h3]
    | some fault =>
      cases hx
      obtain ⟨effect, e⟩ := fault
      cases effect <;> simp [Books, Phase.onTry, writes, tookEffect, writesAndThrows, releaseThrows, h1, h2, h3]
  | releasing r =>
    cases hh
    simp only [memory, outcome] at hx
    cases x with
    | none =>
      cases hx
      cases r with
      | ok res => simpa [Books, Phase.on, respond, writesAndThrows, releaseThrows] using hb
      | error e => simpa [Books, Phase.on, respond, writes, writesAndThrows, releaseThrows, hb.2] using hb.1
    | some fault =>
      cases hx
      cases r with
      | ok res => simp [Books, Phase.on, writes, writesAndThrows, releaseThrows, hb.1]
      | error e => simp [Books, Phase.on, writes, writesAndThrows, releaseThrows, hb.1]
  | ended r => cases hh

omit [DecidableEq ι] in
/-- Only a `SET` that takes effect changes the stock. -/
theorem stock_kept {b : Body} {p : Phase} {c : Cmd} {k : Except Exc (Ans c) → Phase} {x : Fault} {i : ι} {m : Mem}
    {rm : Except Exc (Ans c) × Mem} (hh : headOf text nodeId b p = .goes c k) (hx : memory.exec i c x m = some rm)
    (hw : writes b.itemId (c, x) = false) : rm.2.get (stockKey b.itemId) = m.get (stockKey b.itemId) := by
  have hkept : ∀ {α : Type} {r : α × Mem}, r.2.get (stockKey b.itemId) = m.get (stockKey b.itemId) →
      (outcome x m r).2.get (stockKey b.itemId) = m.get (stockKey b.itemId) := by
    intro α r hr
    unfold outcome
    split
    · exact hr
    · split
      · exact hr
      · rfl
  cases p with
  | trying n =>
    cases n with
    | zero => cases hh
    | succ n =>
      cases hh
      cases hx
      exact hkept (Strings.get_setNxPx_ne _ _ _ (lockKey_ne_stockKey _ _).symm)
  | resting n | delaying cur => cases hh; cases hx; rfl
  | reading => cases hh; cases hx; exact hkept rfl
  | writing new =>
    cases hh
    cases hx
    cases x with
    | none => simp [writes, tookEffect] at hw
    | some fault =>
      obtain ⟨effect, e⟩ := fault
      cases effect with
      | false => rfl
      | true => simp [writes, tookEffect] at hw
  | releasing r =>
    cases hh
    cases hx
    exact hkept (get_releaseLockLua_ne m b.token (lockKey_ne_stockKey _ _).symm)
  | ended r => cases hh

/-- The requests before their first step, over a Redis as other clients left it. -/
def opening (text : DoubleText) (nodeId : String) (bodies : ι → Body) (m : Mem) : Serving ι :=
  start m fun i => buySafe text nodeId (bodies i).token (bodies i).itemId (bodies i).quantity

/-- The requests with their histories. -/
def noted : Machine (Serving ι × (ι → History)) (Ev ι Fault World) := (threads memory).noting note

/-- In every state of every run each request's history fits its phase. -/
theorem books_kept {m : Mem} {s : Serving ι} {h : ι → History}
    (hr : noted.Reach Machine.any (opening text nodeId bodies m, fun _ => []) (s, h)) :
    ∃ u, s = (sales text nodeId bodies).threadsOf u ∧ ∀ i, Books (bodies i) (h i) (u.ph i) := by
  refine hr.invariant (P := fun t => ∃ u, t.1 = (sales text nodeId bodies).threadsOf u ∧
    ∀ i, Books (bodies i) (t.2 i) (u.ph i)) ?_ ?_
  · refine ⟨⟨m, fun _ => .trying 20, []⟩, ?_, fun i => ⟨rfl, rfl, rfl⟩⟩
    simp only [opening, start, Flow.threadsOf, buySafe_begin]
    rfl
  · rintro ⟨_, h⟩ e ⟨s', h'⟩ ⟨u, rfl, hb⟩ - hst
    obtain ⟨hmove, rfl⟩ := Machine.noting_step.mp hst
    rw [Flow.step_threadsOf, Option.map_eq_some_iff] at hmove
    obtain ⟨u', hu, rfl⟩ := hmove
    refine ⟨u', rfl, fun i => ?_⟩
    cases e with
    | env e =>
      obtain ⟨m, -, rfl⟩ := Flow.step_env _ hu
      exact hb i
    | run j x =>
      obtain ⟨c, k, rm, hh, hx, rfl⟩ := Flow.step_run _ hu
      have hnext : (((sales text nodeId bodies).threadsOf u).thr j).next = some c := Flow.next_of_head _ hh
      simp only [note, hnext]
      by_cases e : i = j
      · subst e
        simpa using (hb i).step hh hx
      · simpa [e] using hb i

omit [DecidableEq ι] in
/-- The books of a request that goes no further. -/
theorem Books.ended {b : Body} {h : History} {p : Phase} {r : Except Exc PurchaseResponse} (hb : Books b h p)
    (hh : headOf text nodeId b p = .ended r) : Books b h (.ended r) := by
  cases p with
  | trying n =>
    cases n with
    | zero =>
      cases hh
      refine books_clean hb fun e he => ?_
      cases he
      rfl
    | succ n => cases hh
  | ended r' => cases hh; exact hb
  | _ => cases hh

/-- A request that has ended was answered 429 with the stock written by it just when its
    `SET` took effect and threw, or its release script threw after it took effect. -/
theorem retry_safe_iff {m : Mem} {s : Serving ι} {h : ι → History}
    (hr : noted.Reach Machine.any (opening text nodeId bodies m, fun _ => []) (s, h)) (i : ι)
    (hend : (s.thr i).next = none) :
    (s.thr i = .raise tooManyRequests → wrote (bodies i).itemId (h i) = false) ↔
      wroteAndThrew (bodies i).itemId (h i) = false ∧
        ¬ (wrote (bodies i).itemId (h i) = true ∧ releaseThrew (h i) = true) := by
  obtain ⟨u, rfl, hb⟩ := books_kept hr
  obtain ⟨r, hr⟩ := (sales text nodeId bodies).head_of_next_none hend
  have hbooks : Books (bodies i) (h i) (.ended r) := (hb i).ended hr
  have hthr : ((sales text nodeId bodies).threadsOf u).thr i = Co.resume r := by
    show (sales text nodeId bodies).code i (u.ph i) = _
    rw [Flow.unfolds, hr]
    rfl
  rw [hthr]
  cases r with
  | ok res =>
    obtain ⟨h1, h2⟩ := hbooks
    simp [Co.resume, h1, h2]
  | error e =>
    obtain ⟨rfl, hw⟩ := hbooks
    simp only [Co.resume, forall_const]
    cases h1 : wrote (bodies i).itemId (h i) with
    | false => simpa [h1] using hw.symm
    | true =>
      rw [h1, Bool.true_and] at hw
      rcases Bool.or_eq_true_iff.mp hw.symm with h2 | h3
      · simp [h2]
      · simp [h3]

end Runs

/-! ## One request -/

/-- The purchase of one of item `x`, at stock 5. -/
def one : Unit → Body := fun _ => ⟨⟨"r", by decide⟩, "x", some (.int 1)⟩

def fiveLeft : Mem := Strings.set (fun _ => none) (stockKey "x") "5"

/-- Its next command. -/
def turn (fault : Fault) : Ev Unit Fault World := .run () fault

/-- The `GET` throws. -/
def getThrows : List (Ev Unit Fault World) := [turn none, turn (some (false, .error "ETIMEDOUT")), turn none]

def afterGet : Serving Unit × (Unit → History) :=
  (noted.run (opening .decimal "node-1" one fiveLeft, fun _ => []) getThrows).get rfl

/-- The request is answered 429 and has not written the stock. -/
theorem get_fails_safely : afterGet.1.thr () = .raise tooManyRequests ∧ wrote "x" (afterGet.2 ()) = false :=
  have h : noted.Reach Machine.any (opening .decimal "node-1" one fiveLeft, fun _ => []) afterGet :=
    Machine.reach_any_of_run getThrows (Option.some_get rfl).symm
  have hthr : afterGet.1.thr () = .raise tooManyRequests := rfl
  ⟨hthr, (retry_safe_iff h () rfl).mpr (by decide) hthr⟩

/-- The purchase goes through up to its release script, which throws. -/
def releaseFails : List (Ev Unit Fault World) :=
  [turn none, turn none, turn none, turn none, turn (some (false, .error "ETIMEDOUT"))]

def afterRelease : Serving Unit × (Unit → History) :=
  (noted.run (opening .decimal "node-1" one fiveLeft, fun _ => []) releaseFails).get rfl

/-- The client is asked to retry what it has bought. -/
theorem bought_and_429 : noted.Reach Machine.any (opening .decimal "node-1" one fiveLeft, fun _ => []) afterRelease ∧
    afterRelease.1.thr () = .raise tooManyRequests ∧ wrote "x" (afterRelease.2 ()) = true ∧
      fiveLeft.get (stockKey "x") = some "5" ∧ afterRelease.1.mem.get (stockKey "x") = some "4" :=
  ⟨Machine.reach_any_of_run releaseFails (Option.some_get rfl).symm, rfl, by decide, by decide, by decide⟩

end Playground.Lock.Nest
