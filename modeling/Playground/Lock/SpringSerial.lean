/-
  Playground.Lock.SpringSerial — Spring's locked purchases side by side
  (`purchaseSafe`, `purchaseWithLock`).

  As in `NestSerial`, with its differences: a sleep may be interrupted, which ends a
  buyer's attempts, and a buyer without the lock is answered 429 instead of being thrown
  an exception.
  - `safe_sales_serial`: the purchases are sold one after another, in the order in which
    they took the lock.
  - `sold_from_stock`: what buyers are told that they have bought was in stock.
-/

import Playground.Lock.Guarded
import Playground.Lock.SpringRange

namespace Playground.Lock.Spring

open Playground.Lib Playground.Redis
open Playground.Lock.Nest (itemLockKey stock_ne_lock)

variable {ι : Type} (text : IntText)

/-! ## A purchase is a critical section -/

/-- The lock of a purchase: `acquireLock` with the arguments of `purchaseWithLock`, and
    `releaseLock`. An interrupted rest is the end of it. -/
def guard (itemId : String) (token : Token) : Guard Cmd Ans Exc where
  attempt := .setIfAbsent (itemLockKey itemId) token 5000
  rest := .sleep 50
  free := .releaseScript (itemLockKey itemId) token
  takes
    | .setIfAbsent .., .ok acquired => acquired
    | _, _ => false
  frees
    | .releaseScript .. => true
    | _ => false
  woken
    | .interrupted => none
    | e => some e
  takes_error _ := rfl
  takes_rest _ := rfl
  takes_free _ := rfl
  frees_attempt := rfl
  frees_rest := rfl
  frees_free := rfl

def busy : Response := .tooManyRequests "Server busy, please retry in a moment"

def safeSection (nodeId : String) (token : Token) (itemId : String) (quantity : Int32) :
    Section Cmd Ans Exc Response where
  guard := guard itemId token
  tries := 20
  body := (purchaseWithoutLock text itemId quantity).bind fun res => .ret (respondSafe nodeId res)
  giveUp := .ok busy

theorem locked_code (nodeId : String) (token : Token) (itemId : String) (quantity : Int32) :
    ((purchaseWithLock text token itemId quantity).bind fun res => .ret (respondSafe nodeId res)) =
      (safeSection text nodeId token itemId quantity).code := by
  refine (Co.bind_assoc ..).trans ?_
  have hloop : ∀ n, ((acquireLoop (itemLockKey itemId) token 5000 50 n).bind fun got => Co.bind (got.elim (pure .timeout)
      fun token => (purchaseWithoutLock text itemId quantity).andFinally do
        let _ ← releaseLock ("inventory:" ++ itemId) token
        pure ()) fun res => .ret (respondSafe nodeId res)) =
      ((guard itemId token).attempts n).bind (safeSection text nodeId token itemId quantity).enter := by
    intro n
    induction n with
    | zero => rfl
    | succ n ih =>
      refine Co.cmd_congr ?_ fun _ => rfl
      intro acquired
      cases acquired with
      | true =>
        refine (Co.andFinally_map ..).trans (congrArg (Co.andFinally _) ?_)
        exact Co.cmd_congr (fun _ => rfl) fun _ => rfl
      | false =>
        refine Co.cmd_congr (fun _ => ih) ?_
        intro e
        cases e <;> rfl
  refine Eq.trans (congrArg (Co.bind _) (funext fun got => ?_)) (hloop 20)
  cases got <;> rfl

theorem purchaseSafe_code (nodeId : String) (token : Token) (req : Option PurchaseRequest) :
    purchaseSafe text nodeId token req = (safeSection text nodeId token (PurchaseRequest.ofNullable req).itemId
      (PurchaseRequest.ofNullable req).quantity).code :=
  locked_code text nodeId token _ _

/-! ## The stock by itself -/

/-- What a purchase's commands do to the stock alone. -/
def stockMemory : Memory ι Cmd Ans Exc Fault Empty (Option String) where
  exec _ c x val :=
    match c with
    | .get _ => some (match x with
      | none => (.ok val, val)
      | some (_, message) => (.error (.redis message), val))
    | .set _ value => some (match x with
      | none => (.ok (), some value)
      | some (effect, message) => (.error (.redis message), if effect then some value else val))
    | .sleep _ => some (if x.isNone then .ok () else .error .interrupted, val)
    | _ => none
  env e := e.elim

/-- The commands of a purchase under the lock. -/
def Trades (itemId : String) (c : Cmd) : Prop :=
  c = .get (stockKey itemId) ∨ (∃ value, c = .set (stockKey itemId) value) ∨ ∃ ms, c = .sleep ms

theorem sleep_trades (itemId : String) (ms : Nat) : (sleepInterrupted ms).Only (Trades itemId) := by
  refine ⟨.inr (.inr ⟨ms, rfl⟩), fun r => ?_⟩
  cases r with
  | ok _ => trivial
  | error e => cases e <;> trivial

theorem purchase_trades (itemId : String) (quantity : Int32) :
    (purchaseWithoutLock text itemId quantity).Only (Trades itemId) := by
  refine Co.only_bind (Co.only_bind (Co.only_await (.inl rfl)) fun _ => Co.only_resume _) fun cur => ?_
  split
  · trivial
  · exact Co.only_bind (sleep_trades itemId 10) fun _ =>
      Co.only_bind (Co.only_await (.inr (.inl ⟨_, rfl⟩))) fun _ => trivial

/-- A fault with what it throws. -/
def raising (x : Fault) : Option (Bool × Exc) := x.map (Prod.map id .redis)

theorem outcome_eq {α : Type} (x : Fault) (m : Mem) (r : α × Mem) : outcome x m r = faulty (raising x) m r := by
  cases x <;> rfl

/-- The lock is seen to be taken by the answer `true`. -/
theorem takes_ok {itemId : String} {token : Token} {r : Except Exc Bool}
    (h : (guard itemId token).takes (guard itemId token).attempt r = true) : r = .ok true := by
  cases r with
  | ok acquired => exact congrArg Except.ok h
  | error e => cases h

/-- The item's lock guards its stock. -/
theorem guarded (token : ι → Token) (itemId : String) :
    Guarded memory stockMemory (fun i => guard itemId (token i)) (Trades itemId) (itemLockKey itemId) (stockKey itemId)
      fun i => (token i).1 where
  attempt i x := ⟨raising x, 5000, id, Bool.false_ne_true, fun m => congrArg some (outcome_eq x m _),
    fun r h => takes_ok h⟩
  rest i x := ⟨_, fun _ => rfl⟩
  free i x := ⟨raising x, id, fun m => congrArg some (outcome_eq x m _)⟩
  inside i c x hc := by
    rcases hc with rfl | ⟨value, rfl⟩ | ⟨ms, rfl⟩
    · refine .reads (raising x) id (fun m => congrArg some (outcome_eq x m _)) fun d => ?_
      rcases x with - | ⟨_ | _, e⟩ <;> rfl
    · refine .writes (raising x) () value (fun m => congrArg some (outcome_eq x m _)) fun d => ?_
      cases x <;> rfl
    · exact .rests _ (fun _ => rfl) fun _ => rfl
  plain i c hc := by
    rcases hc with rfl | ⟨value, rfl⟩ | ⟨ms, rfl⟩ <;> exact ⟨fun _ => rfl, rfl⟩

/-! ## Sales -/

/-- A purchase that finds the stock at `val` may come to `r` and leave it at `val'`. An
    exception loses the answer, and the sale with it if Redis did nothing. -/
inductive Sale (nodeId : String) (quantity : Int32) (val : Option String) : Except Exc Response → Option String → Prop
  | outOfStock {n : Int32} : stockOf text val = .ok n → n < quantity →
    Sale nodeId quantity val (.ok (.purchased nodeId false "Out of stock" n)) val
  | sold {n : Int32} : stockOf text val = .ok n → ¬ n < quantity →
    Sale nodeId quantity val (.ok (.purchased nodeId true "Purchase successful" (n - quantity)))
      (some (valueOf text (n - quantity)))
  | unsold (e : Exc) : Sale nodeId quantity val (.error e) val
  | unanswered {n : Int32} (e : Exc) : stockOf text val = .ok n → ¬ n < quantity →
    Sale nodeId quantity val (.error e) (some (valueOf text (n - quantity)))

/-- What a purchase does with enough in stock. -/
def sell (nodeId itemId : String) (newStock : Int32) : Prog Response := do
  let _ ← sleepInterrupted 10
  await (.set (stockKey itemId) (valueOf text newStock))
  pure (.purchased nodeId true "Purchase successful" newStock)

variable {text}

theorem sold_of_solo {i : ι} {nodeId itemId : String} {quantity n : Int32} {val val' : Option String}
    {r : Except Exc Response} (hn : stockOf text val = .ok n) (hlt : ¬ n < quantity)
    (h : Solo stockMemory i (sell text nodeId itemId (n - quantity)) val r val') :
    Sale text nodeId quantity val r val' := by
  cases h with
  | @cmd _ _ slept _ _ _ _ _ hx h =>
  have hset : Solo stockMemory i (do
      await (.set (stockKey itemId) (valueOf text (n - quantity)))
      pure (.purchased nodeId true "Purchase successful" (n - quantity)) : Prog Response) val r val' := by
    cases slept with
    | none => cases hx; exact h
    | some x => cases hx; exact h
  cases hset with
  | @cmd _ _ wrote _ _ _ _ _ hx h =>
  rcases wrote with - | ⟨_ | _, message⟩
  · cases hx
    cases h
    exact .sold hn hlt
  · cases hx
    cases h
    exact .unsold _
  · cases hx
    cases h
    exact .unanswered _ hn hlt

theorem sale_of_solo {i : ι} {nodeId itemId : String} {token : Token} {quantity : Int32} {val val' : Option String}
    {r : Except Exc Response} (h : Solo stockMemory i (safeSection text nodeId token itemId quantity).body val r val') :
    Sale text nodeId quantity val r val' := by
  cases h with
  | @cmd _ _ got _ _ _ _ _ hx h =>
  rcases got with - | ⟨effect, message⟩
  · cases hx
    have h : Solo stockMemory i (((Co.resume (stockOf text val)).bind fun n => if n < quantity
        then Co.ret (.outOfStock n) else (sleepInterrupted 10).bind fun _ =>
          (await (.set (stockKey itemId) (valueOf text (n - quantity)))).bind fun _ => Co.ret (.ok (n - quantity))).bind
        fun res => Co.ret (respondSafe nodeId res)) val r val' := h
    cases hn : stockOf text val with
    | error e =>
      rw [hn] at h
      cases h
      exact .unsold e
    | ok n =>
      rw [hn] at h
      by_cases hlt : n < quantity
      · simp only [Co.resume, Co.ret_bind, if_pos hlt] at h
        cases h
        exact .outOfStock hn hlt
      · simp only [Co.resume, Co.ret_bind, if_neg hlt, Co.bind_assoc] at h
        exact sold_of_solo hn hlt h
  · cases hx
    cases h
    exact .unsold _

/-! ## Runs -/

section Run

variable [DecidableEq ι] (text) (nodeId : ι → String) (token : ι → Token) (itemId : String)
  (req : ι → Option PurchaseRequest)

def quantityOf (i : ι) : Int32 := (PurchaseRequest.ofNullable (req i)).quantity

def safeSections (i : ι) : Section Cmd Ans Exc Response :=
  safeSection text (nodeId i) (token i) itemId (quantityOf req i)

/-- In such a step nothing happens to the lock under a purchase that has it, nor to the
    stock but by a purchase. -/
def Kept : Threads ι Cmd Ans Exc Response World Mem → Ev ι Fault World → Prop :=
  Undisturbed memory (safeSections text nodeId token itemId req) (fun m => m.get (itemLockKey itemId))
    fun m => m.get (stockKey itemId)

def purchases (m : Mem) : Threads ι Cmd Ans Exc Response World Mem :=
  start m fun i => purchaseSafe text (nodeId i) (token i) (req i)

/-- The buyers that took the lock, in that order. -/
abbrev order (s : Threads ι Cmd Ans Exc Response World Mem) : List ι :=
  entered (safeSections text nodeId token itemId req) s.log

/-- Between taking the lock and the release script. -/
abbrev Buying (s : Threads ι Cmd Ans Exc Response World Mem) : ι → Prop :=
  Inside (safeSections text nodeId token itemId req) s.log

variable {text nodeId token itemId req} {m : Mem} {s : Threads ι Cmd Ans Exc Response World Mem}

theorem sales_inOrder (htok : Function.Injective token)
    (hitem : ∀ i, (PurchaseRequest.ofNullable (req i)).itemId = itemId)
    (h : (threads memory).Reach (Kept text nodeId token itemId req) (purchases text nodeId token req m) s) :
    ∃ done stock, InOrder (safeSections text nodeId token itemId req) (fun i => Sale text (nodeId i) (quantityOf req i))
      (fun m => m.get (stockKey itemId)) (m.get (stockKey itemId)) s done stock := by
  have hstart : purchases text nodeId token req m =
      start m fun i => (safeSections text nodeId token itemId req i).code :=
    congrArg (start m) (funext fun i => by rw [purchaseSafe_code, hitem i]; rfl)
  rw [hstart] at h
  have honly : ∀ i, (safeSections text nodeId token itemId req i).body.Only (Trades itemId) := fun i =>
    Co.only_bind (purchase_trades text itemId _) fun _ => trivial
  have hexcludes := (guarded token itemId).excludes (fun _ _ h => htok (Subtype.ext h)) (stock_ne_lock itemId itemId)
  obtain ⟨done, stock, hdone⟩ := sections_serial hexcludes honly h
  exact ⟨done, stock, hdone.mono sale_of_solo⟩

/-- Whatever Redis throws and whoever is interrupted, the locked purchases of an item are
    sales one after another, in the order in which they took the lock. A buyer that is
    answered is answered its sale, or 429 without ever having had the lock. -/
theorem safe_sales_serial (htok : Function.Injective token)
    (hitem : ∀ i, (PurchaseRequest.ofNullable (req i)).itemId = itemId)
    (h : (threads memory).Reach (Kept text nodeId token itemId req) (purchases text nodeId token req m) s) :
    ∃ done stock, Serial (fun i => Sale text (nodeId i) (quantityOf req i)) (m.get (stockKey itemId)) done stock ∧
      (order text nodeId token itemId req s).Nodup ∧ done.map Prod.fst <+: order text nodeId token itemId req s ∧
      (∀ i res, s.thr i = .ret res → (i, .ok res) ∈ done ∨ i ∉ order text nodeId token itemId req s ∧ res = busy) ∧
      (∀ i e, s.thr i = .raise e → (i, .error e) ∈ done ∨ i ∉ order text nodeId token itemId req s ∨
        .did i (.releaseScript (itemLockKey itemId) (token i)) (.error e) ∈ s.log) ∧
      ((∀ i, ¬ Buying text nodeId token itemId req s i) →
        done.map Prod.fst = order text nodeId token itemId req s ∧ s.mem.get (stockKey itemId) = stock) := by
  obtain ⟨done, stock, hdone⟩ := sales_inOrder htok hitem h
  refine ⟨done, stock, hdone.serial, hdone.nodup, hdone.order, fun i res hi => ?_, hdone.raised, hdone.left⟩
  exact (hdone.answered i res hi).imp_right fun h => ⟨h.1, (Except.ok.inj h.2).symm⟩

end Run

/-! ## Two buyers of three items each -/

def buyerTokens (first : Bool) : Token := if first then ⟨"s1", by decide⟩ else ⟨"s2", by decide⟩

theorem buyerTokens_injective : Function.Injective buyerTokens := by decide

def threeEach (_ : Bool) : Option PurchaseRequest := some (.make (some "x") (some 3))

theorem threeEach_item : ∀ i, (PurchaseRequest.ofNullable (threeEach i)).itemId = "x" := by decide +kernel

def twoBuying : Threads Bool Cmd Ans Exc Response World Mem :=
  purchases .decimal (fun _ => "node-1") buyerTokens threeEach fiveInStock

/-- The second finds the lock taken; the first is interrupted while it sells, and leaves. -/
def inTurn : List (Ev Bool Fault World) :=
  [.run true none, .run false none, .run true none, .run true (some (false, "")), .run true none, .run true none,
    .run false none, .run false none, .run false none, .run false none]

def inTurnDone : Threads Bool Cmd Ans Exc Response World Mem :=
  ((threads memory).run twoBuying inTurn).get (by decide +kernel)

theorem inTurn_reach :
    (threads memory).Reach (Kept .decimal (fun _ => "node-1") buyerTokens "x" threeEach) twoBuying inTurnDone :=
  Machine.reach_of_run inTurn (fun _ => by simp [inTurn, Kept, Undisturbed]) (Option.some_get _).symm

theorem second_served : inTurnDone.thr false = .ret (.purchased "node-1" false "Out of stock" 2) := rfl

theorem sold_in_turn : ∃ done, Serial (fun _ => Sale .decimal "node-1" 3) (some "5") done (some "2") ∧
    done.map Prod.fst = [true, false] ∧ (false, .ok (.purchased "node-1" false "Out of stock" 2)) ∈ done := by
  obtain ⟨done, stock, hserial, -, -, hret, -, hout⟩ :=
    safe_sales_serial buyerTokens_injective threeEach_item inTurn_reach
  obtain ⟨horder, hstock⟩ := hout (by decide +kernel)
  obtain rfl : some "2" = stock := Eq.trans (by decide +kernel) hstock
  rcases hret false _ second_served with hsecond | ⟨-, hbusy⟩
  · exact ⟨done, hserial, horder.trans (by decide +kernel), hsecond⟩
  · cases hbusy

section Run

variable [DecidableEq ι] {text : IntText} {nodeId : ι → String} {token : ι → Token} {itemId : String}
  {req : ι → Option PurchaseRequest} {m : Mem} {s : Threads ι Cmd Ans Exc Response World Mem}

/-! ## Nothing is sold twice -/

/-- What a buyer is told that it has bought. -/
def bought (quantity : Int32) : Except Exc Response → Nat
  | .ok (.purchased _ true _ _) => quantity.toInt.toNat
  | _ => 0

omit [DecidableEq ι] in
theorem Sale.spends {nodeId : String} {quantity n : Int32} {val val' : Option String} {r : Except Exc Response}
    (h : Sale text nodeId quantity val r val') (hn : stockOf text val = .ok n) (h0 : 0 ≤ n) (hq : 0 < quantity) :
    ∃ n', stockOf text val' = .ok n' ∧ 0 ≤ n' ∧ n'.toInt.toNat + bought quantity r ≤ n.toInt.toNat := by
  have hsell : ∀ {k}, stockOf text val = .ok k → ¬ k < quantity →
    stockOf text (some (valueOf text (k - quantity))) = .ok (k - quantity) ∧
      0 ≤ k - quantity ∧ (k - quantity).toInt.toNat + quantity.toInt.toNat ≤ n.toInt.toNat := by
    intro k hk hlt
    obtain rfl : n = k := Except.ok.inj (hn.symm.trans hk)
    have hall : Within n.toInt.toNat n := ⟨h0, Int.self_le_toNat _⟩
    obtain ⟨hwithin, hsum⟩ := hall.sub hq hlt
    have hleft := Int32.le_iff_toInt_le.mp hwithin.1
    have hpos := Int32.lt_iff_toInt_lt.mp hq
    rw [Int32.toInt_zero] at hleft hpos
    exact ⟨by rw [stockOf, parseInt_valueOf], hwithin.1, by omega⟩
  cases h with
  | outOfStock _ _ => exact ⟨n, hn, h0, Nat.le_refl _⟩
  | sold hk hlt => exact ⟨_, hsell hk hlt⟩
  | unsold e => exact ⟨n, hn, h0, Nat.le_refl _⟩
  | unanswered e hk hlt =>
    obtain ⟨hk', h0', hle⟩ := hsell hk hlt
    exact ⟨_, hk', h0', (Nat.le_add_right ..).trans hle⟩

/-- What the buyers are told that they have bought was in stock; with nobody buying, what
    is left was too. -/
theorem sold_from_stock (htok : Function.Injective token)
    (hitem : ∀ i, (PurchaseRequest.ofNullable (req i)).itemId = itemId) {n : Int32}
    (hn : stockOf text (m.get (stockKey itemId)) = .ok n) (h0 : 0 ≤ n)
    (h : (threads memory).Reach (Kept text nodeId token itemId req) (purchases text nodeId token req m) s)
    (buyers : Finset ι) (hb : ∀ i ∈ buyers, ∃ message left, s.thr i = .ret (.purchased (nodeId i) true message left)) :
    ∑ i ∈ buyers, (quantityOf req i).toInt.toNat ≤ n.toInt.toNat ∧
      ((∀ i, ¬ Buying text nodeId token itemId req s i) →
        ∃ n', stockOf text (s.mem.get (stockKey itemId)) = .ok n' ∧ 0 ≤ n' ∧
          n'.toInt.toNat + ∑ i ∈ buyers, (quantityOf req i).toInt.toNat ≤ n.toInt.toNat) := by
  obtain ⟨done, stock, hdone⟩ := sales_inOrder htok hitem h
  have hsum : ∑ i ∈ buyers, (quantityOf req i).toInt.toNat ≤
      (done.map fun e => bought (quantityOf req e.1) e.2).sum := by
    refine sum_le_costs buyers fun i hi => ?_
    obtain ⟨message, left, hi⟩ := hb i hi
    rcases hdone.answered i _ hi with hsale | ⟨-, hbusy⟩
    · exact ⟨_, hsale, Nat.le_refl _⟩
    · cases hbusy
  obtain ⟨n', ⟨k, hk, hk0, rfl⟩, hle⟩ :=
    hdone.serial.spends (fun val n => ∃ k, stockOf text val = .ok k ∧ 0 ≤ k ∧ k.toInt.toNat = n)
      (fun e => bought (quantityOf req e.1) e.2) (fun {i d r d' n} hw hsale => by
        obtain ⟨k, hk, hk0, rfl⟩ := hw
        obtain ⟨k', hk', hk0', hle⟩ := hsale.spends hk hk0 (PurchaseRequest.ofNullable (req i)).positive
        exact ⟨_, ⟨k', hk', hk0', rfl⟩, hle⟩) ⟨n, hn, h0, rfl⟩
  refine ⟨by omega, fun hnobody => ⟨k, ?_, hk0, by omega⟩⟩
  rw [(hdone.left hnobody).2]
  exact hk

end Run

theorem three_of_five : ∑ i ∈ {true}, (quantityOf threeEach i).toInt.toNat ≤ (5 : Int32).toInt.toNat ∧
    ∃ n' : Int32, stockOf .decimal (inTurnDone.mem.get (stockKey "x")) = .ok n' ∧ 0 ≤ n' ∧
      n'.toInt.toNat + ∑ i ∈ {true}, (quantityOf threeEach i).toInt.toNat ≤ (5 : Int32).toInt.toNat := by
  have hfirst : inTurnDone.thr true = .ret (.purchased "node-1" true "Purchase successful" 2) := rfl
  obtain ⟨hsum, hleft⟩ := sold_from_stock (n := 5) buyerTokens_injective threeEach_item (by decide +kernel) (by decide)
    inTurn_reach {true} (by
      intro i hi
      obtain rfl := Finset.mem_singleton.mp hi
      exact ⟨_, _, hfirst⟩)
  exact ⟨hsum, hleft (by decide +kernel)⟩

end Playground.Lock.Spring
