/-
  Playground.Lock.Refused — what a 429 of `purchase/safe` says of the stock, in FastAPI's
  version and in Spring's (`buy_safe` of `case1_lock/router.py`, `Case1Controller.java`).

  Whatever other clients do to the lock and the stock, and whatever goes wrong with
  Redis: a buyer that is answered 429 has never had the lock and never looked at the
  stock. All that it did are rounds of an attempt, refused, and a sleep.
  - `busy_unsold`: with FastAPI, twenty of them.
  - `refused_unsold`: with Spring, twenty, or fewer and then a sleep that was interrupted.

  NestJS's endpoint answers 429 for more than that (`Retry`).
-/

import Playground.Lib.Trace
import Playground.Lock.ErrorPath
import Playground.Lock.SpringSerial

namespace Playground.Lock

open Playground.Lib Playground.Redis

variable {ι O : Type}

/-- So many rounds of the two. -/
def rounds {S : Type} (attempt rest : S) (n : Nat) : List S := (List.replicate n [attempt, rest]).flatten

theorem rounds_succ {S : Type} (attempt rest : S) (n : Nat) :
    rounds attempt rest (n + 1) = attempt :: rest :: rounds attempt rest n := by
  simp [rounds, List.replicate_succ]

/-! ## `buy_safe` -/

/-- What `purchase/safe` answers: a `PurchaseResponse`, or an `HTTPException` of status 429. -/
inductive PurchaseAnswer where
  | purchased (nodeId : String) (success : Bool) (message : String) (remainingStock : Int)
  | tooManyRequests (detail : String)
  deriving DecidableEq, Repr

section Endpoint

variable (py : IntText)

def buySafe (nodeId : String) (self : O) (token : Token) (itemId : String) (quantity : Int) : Prog O PurchaseAnswer :=
  Co.handle (do
    let res ← purchaseWithLock py self token itemId quantity
    pure (.purchased nodeId res.success res.message res.remaining)) fun
    | .timeoutError _ => pure (.tooManyRequests "Server busy, please retry in a moment (lock acquisition timeout)")
    | e => Co.raise e

/-! ## An acquisition given up -/

/-- So many refused attempts, with a sleep after each. -/
def refusals (l : DistributedLock O) (token : Token) : Nat → List (Asked (Cmd O) Ans Exc) :=
  rounds ⟨.setNxPx l.lockKey token l.ttlMs, .ok false⟩ ⟨.sleep l.retryDelayMs, .ok ()⟩

/-- An `acquire` that returns `False` has used up its attempts. -/
theorem acquire_refused (l : DistributedLock O) (token : Token) {n : Nat} {asked : List (Asked (Cmd O) Ans Exc)}
    (h : (l.acquireLoop token n).Trace asked (.ok false)) : asked = refusals l token n := by
  induction n generalizing asked with
  | zero =>
    cases h
    rfl
  | succ n ih =>
    cases h with
    | @cmd _ _ tried _ _ h =>
    rcases tried with e | acquired
    · cases h
    cases acquired with
    | true =>
      -- `store_token` comes first, and then `True`
      cases h with
      | @cmd _ _ stored _ _ h =>
      cases stored <;> cases h
    | false =>
      cases h with
      | @cmd _ _ slept _ _ h =>
      rcases slept with e | u
      · cases h
      · rw [ih h]
        exact (rounds_succ ..).symm

/-! ## Whose timeout it is -/

/-- Not a `TimeoutError`. -/
def Prompt {α : Type} : Except Exc α → Prop
  | .error (.timeoutError _) => False
  | _ => True

theorem Prompt.of_error {α β : Type} (x : Exc) (h : Prompt (.error x : Except Exc α)) :
    Prompt (.error x : Except Exc β) := by
  cases x with
  | timeoutError message => exact h
  | valueError | redisError message | cancelled => trivial

/-- No command raises a `TimeoutError`: Redis's client has a class of its own. -/
def prompt : Contract (Cmd O) Ans Exc := ⟨fun _ => True, fun _ r => Prompt r⟩

theorem keeps_command (c : Cmd O) : (await c).Keeps prompt Prompt := Co.keeps_await trivial

theorem keeps_purchase (item : String) (quantity : Int) :
    (purchaseWithoutLock py item quantity : Prog O PurchaseResult).Keeps prompt Prompt := by
  refine Co.Keeps.bind (q := Prompt) ?_ (fun currentStock _ => ?_) Prompt.of_error
  · refine (keeps_command _).bind (fun val _ => ?_) Prompt.of_error
    unfold readStock
    split
    · trivial
    · split <;> trivial
  · split
    · trivial
    · exact (keeps_command _).bind
        (fun _ _ => (keeps_command _).bind (fun _ _ => trivial) Prompt.of_error) Prompt.of_error

theorem keeps_aexit (l : DistributedLock O) : l.aexit.Keeps prompt Prompt := by
  refine Co.Keeps.bind (q := Prompt) ?_ (fun _ _ => trivial) Prompt.of_error
  refine (keeps_command _).bind (fun got _ => ?_) Prompt.of_error
  cases got with
  | none => trivial
  | some token => exact (keeps_command _).bind (fun _ _ => trivial) Prompt.of_error

theorem keeps_acquire (l : DistributedLock O) (token : Token) (n : Nat) :
    (l.acquireLoop token n).Keeps prompt Prompt := by
  induction n with
  | zero => trivial
  | succ n ih =>
    refine (keeps_command _).bind (fun acquired _ => ?_) Prompt.of_error
    split
    · exact (keeps_command _).bind (fun _ _ => trivial) Prompt.of_error
    · exact (keeps_command _).bind (fun _ _ => ih) Prompt.of_error

/-- The only `TimeoutError` is that of an acquisition given up. -/
theorem timeout_refused {self : O} {token : Token} {item : String} {quantity : Int} {message : String}
    {asked : List (Asked (Cmd O) Ans Exc)}
    (h : (purchaseWithLock py self token item quantity).Trace asked (.error (.timeoutError message)))
    (hp : ∀ step ∈ asked, Prompt step.2) : asked = refusals (itemLock self item) token 20 := by
  rcases h.of_bind with ⟨_, first, rest, -, hbody, rfl⟩ | ⟨x, henter, hx⟩
  · have hkeeps := (keeps_purchase py item quantity).andFinally (keeps_aexit (itemLock self item)) Prompt.of_error
    exact (hkeeps.trace hbody fun step hs => hp step (List.mem_append_right _ hs)).elim
  · cases hx
    rcases henter.of_bind with ⟨acquired, first, rest, hacquire, hraise, rfl⟩ | ⟨x, hacquire, hx⟩
    · cases acquired with
      | true => cases hraise
      | false =>
        cases hraise
        rw [List.append_nil]
        exact acquire_refused _ token hacquire
    · cases hx
      exact ((keeps_acquire (itemLock self item) token 20).trace hacquire hp).elim

end Endpoint

/-! ## Runs of `buy_safe` -/

namespace ErrorPath

variable [DecidableEq ι] {py : IntText} {nodeId : String} {token : ι → Token} {itemId : ι → String} {quantity : ι → Int}
  {m : Mem ι}

/-- What goes wrong is no `TimeoutError`. -/
def Foreseen {α : Type} (_ : Threads ι (Cmd ι) Ans Exc α Foreign (Mem ι)) : Ev ι Fault Foreign → Prop
  | .run _ (some (_, e)) => Prompt (.error e : Except Exc Unit)
  | _ => True

theorem outcomes_prompt {α : Type} {p : ι → Prog ι α} {s : Threads ι (Cmd ι) Ans Exc α Foreign (Mem ι)}
    (h : (threads memory).Reach Foreseen (start m p) s) : ∀ i c r, .did i c r ∈ s.log → Prompt r := by
  refine h.invariant (P := fun s => ∀ i c r, .did i c r ∈ s.log → Prompt r) nofun ?_
  intro s e s' hall hok hs i c r hmem
  cases e with
  | env e =>
    obtain ⟨m, -, rfl⟩ := threads_env hs
    exact hall i c r (by simpa using hmem)
  | run j x =>
    obtain ⟨d, k, rm, -, hx, rfl⟩ := threads_run hs
    rcases List.mem_append.mp hmem with hmem | hmem
    · exact hall i c r hmem
    · cases List.mem_singleton.mp hmem
      obtain ⟨rm', hx', ⟨rfl, -⟩ | ⟨effect, e, rfl, -, rfl⟩⟩ := exec_cases hx
      · cases c <;> cases hx' <;> trivial
      · exact Prompt.of_error e hok

/-- A buyer that is answered 429 has tried for the lock twenty times, found it taken each
    time, and done nothing else but sleep. -/
theorem busy_unsold {s : Threads ι (Cmd ι) Ans Exc PurchaseAnswer Foreign (Mem ι)}
    (h : (threads memory).Reach Foreseen (start m fun i => buySafe py nodeId i (token i) (itemId i) (quantity i)) s)
    {i : ι} {detail : String} (hi : s.thr i = .ret (.tooManyRequests detail)) :
    asked i s.log = refusals (itemLock i (itemId i)) (token i) 20 := by
  have hprompt : ∀ step ∈ asked i s.log, Prompt step.2 :=
    fun step hs => outcomes_prompt h i step.1 step.2 (mem_asked.mp hs)
  have htrace := trace_of_reach (r := .ok (.tooManyRequests detail)) h hi
  rcases htrace.of_handle with ⟨answer, hanswer, heq⟩ | ⟨x, first, rest, hraised, hcaught, hsteps⟩
  · cases heq
    rcases hanswer.of_bind with ⟨res, first, rest, -, hret, -⟩ | ⟨x, -, heq⟩
    · cases hret
    · cases heq
  · rw [hsteps] at hprompt ⊢
    cases x with
    | timeoutError message =>
      cases hcaught
      rw [List.append_nil] at hprompt ⊢
      rcases hraised.of_bind with ⟨res, first, rest, -, hret, -⟩ | ⟨x, hraised, heq⟩
      · cases hret
      · cases heq
        exact timeout_refused py hraised hprompt
    | valueError | redisError message | cancelled => cases hcaught

/-- The first of two buyers has the lock while the second tries. -/
def waitedOut : Threads Buyer (Cmd Buyer) Ans Exc PurchaseAnswer Foreign (Mem Buyer) :=
  ((threads memory).run (start ⟨Strings.set (fun _ => none) (stockKey "x") "1", fun _ => none⟩
      fun i => buySafe .decimal "node-1" i (twoTokens i) "x" 1)
    (.run .first none :: List.replicate 40 (.run .second none))).get (by decide +kernel)

theorem second_busy : waitedOut.thr .second =
    .ret (.tooManyRequests "Server busy, please retry in a moment (lock acquisition timeout)") := rfl

theorem waited_unsold : asked .second waitedOut.log = refusals (itemLock .second "x") (twoTokens .second) 20 :=
  busy_unsold (Machine.reach_of_run _ (by simp [Foreseen]) (Option.some_get _).symm) second_busy

end ErrorPath

/-! ## `purchaseSafe` -/

namespace Spring

section Trace

variable (text : IntText)

/-- The attempt on an item's lock, refused. -/
def denied (itemId : String) (token : Token) : Asked Cmd Ans Exc :=
  ⟨.setIfAbsent (Nest.itemLockKey itemId) token 5000, .ok false⟩

/-- A sleep between two attempts. -/
def rested (outcome : Except Exc Unit) : Asked Cmd Ans Exc := ⟨.sleep 50, outcome⟩

/-- Refused at every one of `n` attempts, or at fewer and then interrupted. -/
def Refusals (itemId : String) (token : Token) (n : Nat) (asked : List (Asked Cmd Ans Exc)) : Prop :=
  asked = rounds (denied itemId token) (rested (.ok ())) n ∨ ∃ k < n,
    asked = rounds (denied itemId token) (rested (.ok ())) k ++ [denied itemId token, rested (.error .interrupted)]

theorem acquire_refused {itemId : String} {token : Token} {n : Nat} {asked : List (Asked Cmd Ans Exc)}
    (h : (acquireLoop (Nest.itemLockKey itemId) token 5000 50 n).Trace asked (.ok none)) :
    Refusals itemId token n asked := by
  induction n generalizing asked with
  | zero =>
    cases h
    exact .inl rfl
  | succ n ih =>
    cases h with
    | @cmd _ _ tried _ _ h =>
    rcases tried with e | acquired
    · cases h
    cases acquired with
    | true => cases h
    | false =>
      cases h with
      | @cmd _ _ slept _ _ h =>
      rcases slept with e | u
      · cases e with
        | interrupted =>
          cases h
          exact .inr ⟨0, Nat.succ_pos n, rfl⟩
        | redis message => cases h
        | numberFormat s => cases h
      · rcases ih h with rfl | ⟨k, hk, rfl⟩
        · exact .inl (rounds_succ ..).symm
        · exact .inr ⟨k + 1, Nat.succ_lt_succ hk, by rw [rounds_succ]; rfl⟩

/-- Whatever a purchase under the lock comes to, it is not `TIMEOUT`. -/
def Decided : Except Exc PurchaseResult → Prop
  | .ok res => res ≠ .timeout
  | .error _ => True

/-- Nothing is asked of commands or promised of them. -/
def anyCommand : Contract Cmd Ans Exc := ⟨fun _ => True, fun _ _ => True⟩

theorem keeps_any {α : Type} (p : Prog α) : p.Keeps anyCommand fun _ => True := by
  induction p with
  | ret a => trivial
  | raise x => trivial
  | cmd c k ih => exact ⟨trivial, fun r _ => ih r⟩

theorem keeps_decided (itemId : String) (quantity : Int32) (release : Prog Unit) :
    ((purchaseWithoutLock text itemId quantity).andFinally release).Keeps anyCommand Decided := by
  refine Co.Keeps.andFinally ?_ (keeps_any release) fun _ _ => trivial
  refine (keeps_any _).bind (fun currentStock _ => ?_) fun _ _ => trivial
  split
  · exact fun h => absurd (congrArg PurchaseResult.message h)
      (by simp [PurchaseResult.outOfStock, PurchaseResult.timeout])
  · refine (keeps_any _).bind (fun _ _ => (keeps_any _).bind (fun _ _ => ?_) fun _ _ => trivial) fun _ _ => trivial
    exact fun h => absurd (congrArg PurchaseResult.success h) (by simp [PurchaseResult.ok, PurchaseResult.timeout])

end Trace

variable [DecidableEq ι] {text : IntText} {nodeId : ι → String} {token : ι → Token} {req : ι → Option PurchaseRequest}
  {m : Mem} {ok : Threads ι Cmd Ans Exc Response World Mem → Ev ι Fault World → Prop}

/-- A buyer that is answered 429 has found the lock taken at every attempt, and has done
    nothing else but sleep. -/
theorem refused_unsold {s : Threads ι Cmd Ans Exc Response World Mem}
    (h : (threads memory).Reach ok (start m fun i => purchaseSafe text (nodeId i) (token i) (req i)) s) {i : ι}
    {message : String} (hi : s.thr i = .ret (.tooManyRequests message)) :
    Refusals (PurchaseRequest.ofNullable (req i)).itemId (token i) 20 (asked i s.log) := by
  have htrace := trace_of_reach (r := .ok (.tooManyRequests message)) h hi
  rcases htrace.of_bind with ⟨res, first, rest, hres, hanswer, hsteps⟩ | ⟨x, -, heq⟩
  · obtain rfl : res = .timeout := by
      by_contra hne
      have hpurchased : respondSafe (nodeId i) res = purchased (nodeId i) res := if_neg fun h => hne h.2
      rw [hpurchased] at hanswer
      cases hanswer
    cases hanswer
    rw [hsteps, List.append_nil]
    rcases hres.of_bind with ⟨got, first, rest, hgot, hbody, rfl⟩ | ⟨x, -, heq⟩
    · cases got with
      | none =>
        cases hbody
        rw [List.append_nil]
        exact acquire_refused hgot
      | some lock =>
        exact absurd rfl ((keeps_decided text _ _ _).trace hbody fun _ _ => trivial)
    · cases heq
  · cases heq

/-- The second of two buyers is interrupted while it waits for the lock. -/
def givenUp : Threads Bool Cmd Ans Exc Response World Mem :=
  ((threads memory).run twoBuying [.run true none, .run false none, .run false (some (false, ""))]).get
    (by decide +kernel)

theorem interrupted_unsold : givenUp.thr false = .ret busy ∧
    Refusals "x" (buyerTokens false) 20 (asked false givenUp.log) :=
  ⟨rfl, refused_unsold (Machine.reach_any_of_run _ (Option.some_get _).symm) rfl⟩

end Spring

end Playground.Lock
