/-
  Playground.Lock.Shop — requests for one item, served side by side, and their flow
  chart.

  A request is a call of `init_inventory`, `purchase_with_lock` or
  `purchase_without_lock`. Each is one thread over the shared Redis; any
  number run together, each step is one command of one thread.

  `shop` is the flow chart of these programs (`shop.unfolds` checks it against them):
  where a thread stands between two commands. `Move` lists what one step of it can be;
  the invariants are proved from that list.
-/

import Mathlib.Data.Fintype.Basic
import Playground.Lock.History

namespace Playground.Lock

open Playground.Lib Playground.Redis

inductive Request where
  | init (stock : Int)
  | withLock (token : Token) (quantity : Int)
  | withoutLock (quantity : Int)

def Request.quantity : Request → Int
  | .init _ => 0
  | .withLock _ quantity => quantity
  | .withoutLock quantity => quantity

/-- `init_inventory` returns nothing, a purchase its result. -/
abbrev Reply := Option PurchaseResult

section Shop

variable {ι : Type} (py : IntText) (item : String)

def serve (self : ι) : Request → Prog ι Reply
  | .init stock => do
    initInventory py item stock
    pure none
  | .withLock token quantity => do
    let r ← purchaseWithLock py self token item quantity
    pure (some r)
  | .withoutLock quantity => do
    let r ← purchaseWithoutLock py item quantity
    pure (some r)

/-! ## Phases -/

def itemKey (item : String) : String := lockKeyOf ("inventory:" ++ item)

/-- Where a thread stands: the command it awaits next, with the locals it holds.
    `locked`: the thread is inside `async with`. -/
inductive Phase where
  | initing (stock : Int)
  /-- `n` attempts of `acquire` left. -/
  | trying (t : Token) (q : Int) (n : Nat)
  | resting (t : Token) (q : Int) (n : Nat)
  /-- The key is taken; `self.token` is not set yet. -/
  | entering (t : Token) (q : Int)
  | reading (locked : Bool) (q : Int)
  | delaying (locked : Bool) (q cur : Int)
  | writing (locked : Bool) (new : Int)
  /-- In `__aexit__`, with the outcome of the body. -/
  | exiting (r : Except Exc PurchaseResult)
  | releasing (t : Token) (r : Except Exc PurchaseResult)
  | ended (r : Except Exc Reply)

def reply (r : Except Exc PurchaseResult) : Except Exc Reply := r.map some

/-- After the body: through `__aexit__` when inside the lock. -/
def Phase.leave (locked : Bool) (r : Except Exc PurchaseResult) : Phase :=
  if locked then .exiting r else .ended (reply r)

/-- After the `GET`. -/
def Phase.read (locked : Bool) (q : Int) (val : Option String) : Phase :=
  match val with
  | none => compare locked q 0
  | some v => match py.int v with
    | some n => compare locked q n
    | none => .leave locked (.error .valueError)
where
  compare (locked : Bool) (q cur : Int) : Phase :=
    if cur < q then .leave locked (.ok ⟨false, "Out of stock", cur⟩) else .delaying locked q cur

def timeout (item : String) : Exc :=
  .timeoutError ("Could not acquire lock for resource '" ++ ("inventory:" ++ item) ++ "'")

def Phase.begin : Request → Phase
  | .init stock => .initing stock
  | .withLock token quantity => .trying token quantity 20
  | .withoutLock quantity => .reading false quantity

/-- The rest of a purchase after its body's outcome. -/
def finish (self : ι) (locked : Bool) (body : Prog ι PurchaseResult) : Prog ι Reply :=
  (if locked then body.andFinally (itemLock self item).aexit else body).bind fun r => .ret (some r)

/-- The body from its comparison on. -/
def afterRead (q cur : Int) : Prog ι PurchaseResult :=
  if cur < q then .ret ⟨false, "Out of stock", cur⟩
  else (await (.sleep 10)).bind fun _ =>
    (await (.set (stockKey item) (py.str (cur - q)))).bind fun _ => .ret ⟨true, "Purchase successful", cur - q⟩

/-- The program left in a phase. -/
def codeOf (self : ι) : Phase → Prog ι Reply
  | .initing stock => serve py item self (.init stock)
  | .trying t q n =>
    (((itemLock self item).acquireLoop t n).bind fun acquired =>
      if acquired then .ret () else .raise (timeout item)).bind fun _ =>
        finish item self true (purchaseWithoutLock py item q)
  | .resting t q n => (await (.sleep 50)).bind fun _ =>
    (((itemLock self item).acquireLoop t n).bind fun acquired =>
      if acquired then .ret () else .raise (timeout item)).bind fun _ =>
        finish item self true (purchaseWithoutLock py item q)
  | .entering t q => (await (.storeToken self t)).bind fun _ =>
    finish item self true (purchaseWithoutLock py item q)
  | .reading locked q => finish item self locked (purchaseWithoutLock py item q)
  | .delaying locked q cur => finish item self locked ((await (.sleep 10)).bind fun _ =>
    (await (.set (stockKey item) (py.str (cur - q)))).bind fun _ => .ret ⟨true, "Purchase successful", cur - q⟩)
  | .writing locked new => finish item self locked
    ((await (.set (stockKey item) (py.str new))).bind fun _ => .ret ⟨true, "Purchase successful", new⟩)
  | .exiting r => finish item self true (Co.resume r)
  | .releasing t r => (await (.evalRelease (itemKey item) t.1)).bind fun _ =>
    Co.resume (reply r)
  | .ended r => Co.resume r

/-- Go on with an answer; the thread ends with an exception of the command. -/
def Phase.on {α : Type} (k : α → Phase) : Except Exc α → Phase
  | .ok a => k a
  | .error x => .ended (.error x)

/-- As `on`, but an exception still leaves through `__aexit__`. -/
def Phase.onIn {α : Type} (locked : Bool) (k : α → Phase) : Except Exc α → Phase
  | .ok a => k a
  | .error x => .leave locked (.error x)

def headOf (self : ι) : Phase → Head (Cmd ι) Ans Exc Reply Phase
  | .initing stock => .goes (.set (stockKey item) (py.str stock)) (.on fun _ => .ended (.ok none))
  | .trying _ _ 0 => .ended (.error (timeout item))
  | .trying t q (n + 1) => .goes (.setNxPx (itemKey item) t.1 5000)
    (.on fun acquired => if acquired then .entering t q else .resting t q n)
  | .resting t q n => .goes (.sleep 50) (.on fun _ => .trying t q n)
  | .entering t q => .goes (.storeToken self t) (.on fun _ => .reading true q)
  | .reading locked q => .goes (.get (stockKey item)) (.onIn locked (.read py locked q))
  | .delaying locked q cur => .goes (.sleep 10) (.onIn locked fun _ => .writing locked (cur - q))
  | .writing locked new => .goes (.set (stockKey item) (py.str new))
    (.onIn locked fun _ => .leave locked (.ok ⟨true, "Purchase successful", new⟩))
  | .exiting r => .goes (.loadToken self) (.on fun
    | none => .ended (reply r)
    | some t => .releasing t r)
  | .releasing t r => .goes (.evalRelease (itemKey item) t.1) (.on fun _ => .ended (reply r))
  | .ended r => .ended r

theorem code_leave (self : ι) (locked : Bool) (r : Except Exc PurchaseResult) :
    codeOf py item self (.leave locked r) = finish item self locked (Co.resume r) := by
  cases locked <;> cases r <;> rfl

theorem code_read (self : ι) (locked : Bool) (q : Int) (val : Option String) :
    codeOf py item self (.read py locked q val) =
      finish item self locked ((readStock py val).bind (afterRead py item q)) := by
  have hcmp : ∀ cur, codeOf py item self (Phase.read.compare locked q cur) =
      finish item self locked (afterRead py item q cur) := by
    intro cur
    unfold Phase.read.compare afterRead
    split
    · exact code_leave ..
    · rfl
  unfold Phase.read readStock
  cases val with
  | none => exact hcmp 0
  | some v =>
    simp only
    cases py.int v with
    | some n => exact hcmp n
    | none => exact code_leave ..

/-- Past the acquisition: into the body, or out with the timeout. -/
def enter (self : ι) (q : Int) (acquired : Bool) : Prog ι Reply :=
  if acquired then finish item self true (purchaseWithoutLock py item q) else .raise (timeout item)

theorem code_trying (self : ι) (t : Token) (q : Int) (n : Nat) : codeOf py item self (.trying t q n) =
    ((itemLock self item).acquireLoop t n).bind (enter py item self q) := by
  simp only [codeOf, Co.bind_assoc]
  congr 1
  funext acquired
  cases acquired <;> rfl

theorem unfolds (self : ι) (p : Phase) :
    codeOf py item self p = (headOf py item self p).code (codeOf py item self) := by
  cases p with
  | initing stock => exact Co.cmd_congr (fun _ => rfl) (fun _ => rfl)
  | trying t q n =>
    rw [code_trying]
    cases n with
    | zero => rfl
    | succ n =>
      refine Co.cmd_congr ?_ (fun _ => rfl)
      intro acquired
      cases acquired with
      | true => exact Co.cmd_congr (fun _ => rfl) (fun _ => rfl)
      | false =>
        show _ = codeOf py item self (.resting t q n)
        exact Co.cmd_congr (fun _ => (code_trying ..).symm) (fun _ => rfl)
  | resting t q n => exact Co.cmd_congr (fun _ => rfl) (fun _ => rfl)
  | entering t q => exact Co.cmd_congr (fun _ => rfl) (fun _ => rfl)
  | reading locked q =>
    cases locked with
    | true => exact Co.cmd_congr (fun val => (code_read py item self true q val).symm) (fun _ => rfl)
    | false => exact Co.cmd_congr (fun val => (code_read py item self false q val).symm) (fun _ => rfl)
  | delaying locked q cur => cases locked <;> exact Co.cmd_congr (fun _ => rfl) (fun _ => rfl)
  | writing locked new => cases locked <;> exact Co.cmd_congr (fun _ => rfl) (fun _ => rfl)
  | exiting r =>
    cases r with
    | ok a =>
      refine Co.cmd_congr ?_ (fun _ => rfl)
      intro t
      cases t with
      | none => rfl
      | some t => exact Co.cmd_congr (fun _ => rfl) (fun _ => rfl)
    | error x =>
      refine Co.cmd_congr ?_ (fun _ => rfl)
      intro t
      cases t with
      | none => rfl
      | some t => exact Co.cmd_congr (fun _ => rfl) (fun _ => rfl)
  | releasing t r => exact Co.cmd_congr (fun _ => rfl) (fun _ => rfl)
  | ended r => rfl

/-- The flow chart of the requests. -/
def shop : Flow ι (Cmd ι) Ans Exc Reply Phase := ⟨codeOf py item, headOf py item, unfolds py item⟩

theorem serve_begin (self : ι) (req : Request) : serve py item self req = codeOf py item self (.begin req) := by
  cases req with
  | init stock => rfl
  | withLock t q =>
    rw [Phase.begin, code_trying]
    show (((itemLock self item).aenter t).bind _).bind _ = _
    rw [Co.bind_assoc]
    show (((itemLock self item).acquire t).bind _).bind _ = _
    rw [Co.bind_assoc]
    congr 1
    funext acquired
    cases acquired <;> rfl
  | withoutLock q => rfl

theorem purchase_spares (q : Int) : (purchaseWithoutLock (O := ι) py item q).Only (Spares (itemKey item)) := by
  have hset : ∀ v, Spares (O := ι) (itemKey item) (.set (stockKey item) v) :=
    fun v w h => lockKey_ne_stockKey _ _ (Cmd.set.inj h).1.symm
  refine Co.only_bind (Co.only_bind (Co.only_await fun v h => by cases h) fun val => ?_) fun cur => ?_
  · unfold readStock
    split
    · trivial
    · split <;> trivial
  · dsimp only
    split
    · trivial
    · exact Co.only_bind (Co.only_await fun v h => by cases h) fun _ =>
        Co.only_bind (Co.only_await (hset _)) fun _ => trivial

/-- No request sets the item's lock key. -/
theorem serve_spares (self : ι) (req : Request) : (serve py item self req).Only (Spares (itemKey item)) := by
  cases req with
  | init stock =>
    exact Co.only_bind (Co.only_await fun w h => lockKey_ne_stockKey _ _ (Cmd.set.inj h).1.symm) fun _ => trivial
  | withLock t q =>
    exact Co.only_bind (DistributedLock.asyncWith_spares _ _ _ (purchase_spares py item q)) fun _ => trivial
  | withoutLock q => exact Co.only_bind (purchase_spares py item q) fun _ => trivial

/-! ## What one step can be -/

/-- The requests being served. -/
abbrev Serving (ι : Type) := Threads ι (Cmd ι) Ans Exc Reply World (Mem ι)

abbrev St (ι : Type) := Phases ι (Cmd ι) Ans Exc World (Mem ι) Phase

theorem shop_start {ε : Type} (m : Mem ι) (req : ι → Request) :
    (shop py item).threadsOf (⟨m, fun i => .begin (req i), []⟩ : Phases ι (Cmd ι) Ans Exc ε (Mem ι) Phase) =
      start m fun i => serve py item i (req i) := by
  unfold Flow.threadsOf start
  congr 1
  funext i
  exact (serve_begin py item i (req i)).symm

/-- The item's lock key and its stock, as Redis holds them. -/
def Mem.lock (m : Mem ι) : Option String := m.redis.get (itemKey item)
def Mem.stock (m : Mem ι) : Option String := m.redis.get (stockKey item)

def Mem.setStock (m : Mem ι) (v : String) : Mem ι := { m with redis := m.redis.set (stockKey item) v }
def Mem.take (m : Mem ι) (t : Token) : Mem ι :=
  { m with redis := (m.redis.setNxPx (itemKey item) t.1 5000).2 }
def Mem.release (m : Mem ι) (t : Token) : Mem ι :=
  { m with redis := (releaseLockLua m.redis (itemKey item) t.1).2 }

@[simp] theorem Mem.lock_setStock (m : Mem ι) (v : String) : (m.setStock item v).lock item = m.lock item :=
  Strings.get_set_ne _ _ (lockKey_ne_stockKey _ _)

@[simp] theorem Mem.stock_setStock (m : Mem ι) (v : String) : (m.setStock item v).stock item = some v :=
  Strings.get_set_same ..

@[simp] theorem Mem.lock_take (m : Mem ι) (t : Token) (h : m.lock item = none) :
    (m.take item t).lock item = some t.1 := by
  unfold Mem.lock Mem.take at *
  rw [Strings.get_setNxPx_same, if_pos h]

@[simp] theorem Mem.stock_take (m : Mem ι) (t : Token) : (m.take item t).stock item = m.stock item :=
  Strings.get_setNxPx_ne _ _ _ (lockKey_ne_stockKey _ _).symm

@[simp] theorem Mem.stock_release (m : Mem ι) (t : Token) : (m.release item t).stock item = m.stock item :=
  get_releaseLockLua_ne m.redis t.1 (lockKey_ne_stockKey _ _).symm

variable [DecidableEq ι]

/-- What one step can be: which thread, what it ran and was answered, and what changed. -/
inductive Move (s : St ι) : St ι → Prop
  | init (i : ι) (stock : Int) : s.ph i = .initing stock →
      Move s (s.did i (.set (stockKey item) (py.str stock)) (.ok ()) (s.mem.setStock item (py.str stock))
        (.ended (.ok none)))
  | take (i : ι) (t : Token) (q : Int) (n : Nat) : s.ph i = .trying t q (n + 1) → s.mem.lock item = none →
      Move s (s.did i (.setNxPx (itemKey item) t.1 5000) (.ok true) (s.mem.take item t) (.entering t q))
  | busy (i : ι) (t : Token) (q : Int) (n : Nat) : s.ph i = .trying t q (n + 1) → s.mem.lock item ≠ none →
      Move s (s.did i (.setNxPx (itemKey item) t.1 5000) (.ok false) s.mem (.resting t q n))
  | rest (i : ι) (t : Token) (q : Int) (n : Nat) : s.ph i = .resting t q n →
      Move s (s.did i (.sleep 50) (.ok ()) s.mem (.trying t q n))
  | enter (i : ι) (t : Token) (q : Int) : s.ph i = .entering t q →
      Move s (s.did i (.storeToken i t) (.ok ()) { s.mem with token := Function.update s.mem.token i (some t) }
        (.reading true q))
  | read (i : ι) (locked : Bool) (q : Int) : s.ph i = .reading locked q →
      Move s (s.did i (.get (stockKey item)) (.ok (s.mem.stock item)) s.mem (.read py locked q (s.mem.stock item)))
  | delay (i : ι) (locked : Bool) (q cur : Int) : s.ph i = .delaying locked q cur →
      Move s (s.did i (.sleep 10) (.ok ()) s.mem (.writing locked (cur - q)))
  | write (i : ι) (locked : Bool) (new : Int) : s.ph i = .writing locked new →
      Move s (s.did i (.set (stockKey item) (py.str new)) (.ok ()) (s.mem.setStock item (py.str new))
        (.leave locked (.ok ⟨true, "Purchase successful", new⟩)))
  | exit (i : ι) (t : Token) (r : Except Exc PurchaseResult) : s.ph i = .exiting r → s.mem.token i = some t →
      Move s (s.did i (.loadToken i) (.ok (some t)) s.mem (.releasing t r))
  | exitBare (i : ι) (r : Except Exc PurchaseResult) : s.ph i = .exiting r → s.mem.token i = none →
      Move s (s.did i (.loadToken i) (.ok none) s.mem (.ended (reply r)))
  | release (i : ι) (t : Token) (r : Except Exc PurchaseResult) (n : Nat) : s.ph i = .releasing t r →
      (n = 1 ↔ s.mem.lock item = some t.1) →
      Move s (s.did i (.evalRelease (itemKey item) t.1) (.ok n) (s.mem.release item t) (.ended (reply r)))
  /-- The item's lock key runs out; some other key's expiry changes nothing here. -/
  | expire (m : Mem ι) : s.mem.lock item ≠ none → m.lock item = none → m.stock item = s.mem.stock item →
      m.token = s.mem.token → Move s (s.moved (.expire ("inventory:" ++ item)) m)
  | expireOther (m : Mem ι) (resource : String) : resource ≠ "inventory:" ++ item → m.lock item = s.mem.lock item →
      m.stock item = s.mem.stock item → m.token = s.mem.token → Move s (s.moved (.expire resource) m)

omit [DecidableEq ι] in
theorem release_answer (m : Mem ι) (t : Token) :
    (releaseLockLua m.redis (itemKey item) t.1).1 = 1 ↔ m.lock item = some t.1 := by
  by_cases h : m.lock item = some t.1
  · have hown : m.redis.get (itemKey item) = some t.1 := h
    simp [releaseLockLua_own hown, Strings.del_fst, hown, h]
  · simp [releaseLockLua_other h, h]

theorem step_move {s s' : St ι} {e : Ev ι Unit World}
    (h : ((shop py item).phases memory).step s e = some s') : Move py item s s' := by
  cases e with
  | env e =>
    obtain ⟨m, hm, rfl⟩ := Flow.step_env _ h
    obtain ⟨resource⟩ := e
    simp only [memory, Option.map_eq_some_iff] at hm
    obtain ⟨r, hr, rfl⟩ := hm
    obtain ⟨h1, h2, h3⟩ := Strings.expire_some hr
    by_cases e : resource = "inventory:" ++ item
    · subst e
      exact .expire _ h1 h2 (h3 _ (lockKey_ne_stockKey _ _).symm) rfl
    · exact .expireOther _ _ e (h3 _ fun h => e (lockKeyOf_inj h).symm) (h3 _ (lockKey_ne_stockKey _ _).symm) rfl
  | run i x =>
    obtain ⟨c, k, rm, hk, hrm, rfl⟩ := Flow.step_run _ h
    change headOf py item i (s.ph i) = .goes c k at hk
    cases hp : s.ph i with
    | initing stock =>
      rw [hp] at hk; cases hk; cases hrm
      exact .init i stock hp
    | trying t q n =>
      cases n with
      | zero => rw [hp] at hk; cases hk
      | succ n =>
        rw [hp] at hk; cases hk; cases hrm
        cases hl : s.mem.lock item with
        | none =>
          have hb : (s.mem.redis.setNxPx (itemKey item) t.1 5000).1 = true :=
            (Strings.setNxPx_fst ..).mpr hl
          simp only [hb, Phase.on, if_true]
          exact .take i t q n hp hl
        | some v =>
          have hb := Strings.setNxPx_denied s.mem.redis (itemKey item) t.1 5000 (by rw [← Mem.lock, hl]; simp)
          simp only [hb, Phase.on, Bool.false_eq_true, if_false]
          exact .busy i t q n hp (by rw [hl]; simp)
    | resting t q n =>
      rw [hp] at hk; cases hk; cases hrm
      exact .rest i t q n hp
    | entering t q =>
      rw [hp] at hk; cases hk; cases hrm
      exact .enter i t q hp
    | reading locked q =>
      rw [hp] at hk; cases hk; cases hrm
      exact .read i locked q hp
    | delaying locked q cur =>
      rw [hp] at hk; cases hk; cases hrm
      exact .delay i locked q cur hp
    | writing locked new =>
      rw [hp] at hk; cases hk; cases hrm
      exact .write i locked new hp
    | exiting r =>
      rw [hp] at hk; cases hk; cases hrm
      cases ht : s.mem.token i with
      | none => exact .exitBare i r hp ht
      | some t => exact .exit i t r hp ht
    | releasing t r =>
      rw [hp] at hk; cases hk; cases hrm
      exact .release i t r _ hp (release_answer ..)
    | ended r => rw [hp] at hk; cases hk

end Shop

/-! ## Two buyers of item `x` -/

inductive Buyer
  | first
  | second
  deriving DecidableEq

instance : Fintype Buyer := ⟨{.first, .second}, fun b => by cases b <;> decide⟩

def stocked (stock : String) : Mem Buyer :=
  ⟨fun k => if k = "stock:x" then some ⟨stock, none⟩ else none, fun _ => none⟩

def twoTokens : Buyer → Token
  | .first => ⟨"a", by decide⟩
  | .second => ⟨"b", by decide⟩

theorem twoTokens_injective : Function.Injective twoTokens := by decide

end Playground.Lock
