/-
  Playground.Lock.Count — NestJS's stock as a count of items.

  `setupInventory` and `buySafe` use the numbers of a request's body as they come, with
  1 for a quantity that is absent or 0. Requests are served one at a time, each by
  itself, over a Redis that was empty at first; a JSON integer is read as the nearest
  double.
  - `stock_counts`: the stock stays a count, which a purchase lowers when it succeeds
    and never raises, as long as no stock and no quantity is negative; and a request
    with a negative one breaks it.
  - `negative_buys_stock`: a purchase of minus three items.
-/

import Playground.Lib.Solo
import Playground.Lock.NestLock

namespace Playground.Lock.Nest

open Playground.Lib Playground.Redis

/-! ## Requests one at a time -/

inductive Request where
  | init (itemId : String) (stock : Int)
  | purchase (token : Token) (itemId : String) (quantity : Option Int)

def Request.itemId : Request → String
  | .init itemId _ => itemId
  | .purchase _ itemId _ => itemId

def Request.isPurchase : Request → Bool
  | .init .. => false
  | .purchase .. => true

/-- A stock is a number that JavaScript represents exactly. -/
def Request.InRange : Request → Prop
  | .init _ stock => stock.natAbs < Double.exact
  | .purchase .. => True

/-- No number of the body is negative. -/
def Request.Valid : Request → Prop
  | .init _ stock => 0 ≤ stock
  | .purchase _ _ quantity => ∀ n, quantity = some n → 0 ≤ n

/-- A negative quantity is a number that JavaScript represents exactly. -/
def Request.Moderate : Request → Prop
  | .init .. => True
  | .purchase _ _ quantity => ∀ n, quantity = some n → -(Double.exact : Int) < n

inductive Response where
  | initialized (r : InitResponse)
  | purchased (r : PurchaseResponse)
  deriving DecidableEq, Repr

section Serve

variable (text : DoubleText) (nodeId : String)

def serve : Request → Prog Response
  | .init itemId stock => do
    let r ← setupInventory text nodeId itemId (.ofInt stock)
    pure (.initialized r)
  | .purchase token itemId quantity => do
    let r ← buySafe text nodeId token itemId (quantity.map .ofInt)
    pure (.purchased r)

/-- Run by itself with nothing failing, a program ends so. -/
abbrev Ends {α : Type} (p : Prog α) (m : Mem) (r : Except Exc α) (m' : Mem) : Prop :=
  p.Ends (memory (ι := Unit)) () (fun _ => none) m r m'

/-- One request after the other. -/
def requests : Machine Mem Request where
  step m q := ((serve text nodeId q).alone (memory (ι := Unit)) () (fun _ => none) m).map (·.2.1)

/-- What `getInventory` reads. -/
def inventory (m : Mem) (itemId : String) : Double := stockOf text (m.get (stockKey itemId))

/-! ## What a request does -/

variable {text nodeId} {m : Mem} {itemId : String}

theorem getInventory_ends : Ends (getInventory text itemId) m (.ok (inventory text m itemId)) m := by
  have hget : Ends (await (.get (stockKey itemId))) m (.ok (m.get (stockKey itemId))) m := Co.ends_await rfl
  exact hget.bind (Co.ends_ret _)

theorem set_ends {value : String} :
    Ends (await (.set (stockKey itemId) value)) m (.ok ()) (m.set (stockKey itemId) value) :=
  Co.ends_await rfl

theorem init_ends (stock : Int) : Ends (serve text nodeId (.init itemId stock)) m
    (.ok (.initialized ⟨nodeId, itemId, .ofInt stock, "Inventory initialized"⟩))
    (m.set (stockKey itemId) (text.toString (.ofInt stock))) := by
  have hset : Ends (setupInventory text nodeId itemId (.ofInt stock)) m _ _ := set_ends.bind (Co.ends_ret _)
  exact hset.bind (Co.ends_ret _)

def itemLockKey (itemId : String) : String := lockKeyOf ("inventory:" ++ itemId)

theorem stock_ne_lock (itemId item : String) : stockKey item ≠ itemLockKey itemId :=
  (lockKey_ne_stockKey ("inventory:" ++ itemId) item).symm

/-- With the item's lock taken for `token`. -/
def locked (m : Mem) (itemId : String) (token : Token) : Mem :=
  Function.update m (itemLockKey itemId) (some ⟨token, some 5000⟩)

theorem acquireLock_ends {token : Token} (hfree : m (itemLockKey itemId) = none) :
    Ends (acquireLock ("inventory:" ++ itemId) token 5000 20 50) m (.ok (some token)) (locked m itemId token) := by
  have hx : (memory (ι := Unit)).exec () (.setNxPx (itemLockKey itemId) token 5000) none m =
      some (.ok (some "OK"), locked m itemId token) := by
    simp only [memory, Strings.setNxPx, hfree, outcome]
    rfl
  exact Co.ends_cmd hx (Co.ends_ret _)

/-- The release gives back Redis without the lock. -/
theorem releaseLock_ends {token : Token} {m' : Mem} (hheld : m' (itemLockKey itemId) = some ⟨token, some 5000⟩) :
    Ends (releaseLock ("inventory:" ++ itemId) token) m' (.ok true) (Function.update m' (itemLockKey itemId) none) := by
  have hget : m'.get (itemLockKey itemId) = some token := by simp [Strings.get, hheld]
  have hx : (memory (ι := Unit)).exec () (.evalRelease (itemLockKey itemId) token) none m' =
      some (.ok 1, Function.update m' (itemLockKey itemId) none) := by
    simp only [memory, outcome, releaseLockLua_own hget, Strings.del, hheld]
  have heval : Ends (await (.evalRelease (itemLockKey itemId) token)) m' _ _ := Co.ends_await hx
  exact heval.bind (Co.ends_ret _)

/-- What comes of a purchase of `quantity`, from the stock it finds. -/
def sale (text : DoubleText) (m : Mem) (itemId : String) (quantity : Double) : PurchaseResult :=
  if (inventory text m itemId).lt quantity then ⟨false, "Out of stock", inventory text m itemId⟩
  else ⟨true, "Purchase successful", (inventory text m itemId).sub quantity⟩

/-- Redis after it. -/
def sold (text : DoubleText) (m : Mem) (itemId : String) (quantity : Double) : Mem :=
  if (inventory text m itemId).lt quantity then m
  else m.set (stockKey itemId) (text.toString ((inventory text m itemId).sub quantity))

/-- What the `try` does. -/
theorem purchase_ends (quantity : Double) :
    Ends (purchase text itemId quantity) m (.ok (sale text m itemId quantity)) (sold text m itemId quantity) := by
  unfold sale sold
  refine getInventory_ends.bind ?_
  by_cases h : (inventory text m itemId).lt quantity = true
  · simp only [h, if_true]
    exact Co.ends_ret _
  · simp only [h]
    have hrest : Ends (await (.setTimeout 10)) m (.ok ()) m := Co.ends_await rfl
    exact hrest.bind (set_ends.bind (Co.ends_ret _))

theorem inventory_locked (token : Token) (item : String) :
    inventory text (locked m itemId token) item = inventory text m item := by
  have hne : stockKey item ≠ itemLockKey itemId := stock_ne_lock itemId item
  simp only [inventory, Strings.get, locked, Function.update_of_ne hne]

theorem sale_locked (token : Token) (quantity : Double) :
    sale text (locked m itemId token) itemId quantity = sale text m itemId quantity := by
  simp only [sale, inventory_locked]

/-- The lock comes and goes. -/
theorem unlock_sold {token : Token} (quantity : Double) (hfree : m (itemLockKey itemId) = none) :
    (sold text (locked m itemId token) itemId quantity) (itemLockKey itemId) = some ⟨token, some 5000⟩ ∧
      Function.update (sold text (locked m itemId token) itemId quantity) (itemLockKey itemId) none =
        sold text m itemId quantity := by
  have hne : itemLockKey itemId ≠ stockKey itemId := lockKey_ne_stockKey _ _
  have hself : Function.update (locked m itemId token) (itemLockKey itemId) none = m := by
    rw [locked, Function.update_idem, ← hfree, Function.update_eq_self]
  simp only [sold, inventory_locked]
  split
  · exact ⟨Function.update_self .., hself⟩
  · refine ⟨?_, ?_⟩
    · rw [Strings.set, Function.update_of_ne hne]
      exact Function.update_self ..
    · rw [Strings.set, Function.update_comm hne.symm, hself]
      rfl

/-- The response to a purchase. -/
def report (nodeId : String) (res : PurchaseResult) : PurchaseResponse :=
  ⟨nodeId, res.success, res.message, res.remaining⟩

/-- A purchase of an item that is not locked. -/
theorem purchase_request_ends {token : Token} {quantity : Option Int} {q : Double}
    (hq : quantityOr1 (quantity.map .ofInt) = q) (hfree : m (itemLockKey itemId) = none) :
    Ends (serve text nodeId (.purchase token itemId quantity)) m
      (.ok (.purchased (report nodeId (sale text m itemId q)))) (sold text m itemId q) := by
  obtain ⟨hheld, hback⟩ := unlock_sold q hfree
  have hbody : Ends (purchase text itemId q) (locked m itemId token) (.ok (sale text m itemId q)) _ :=
    (sale_locked token q) ▸ purchase_ends q
  have hrelease : Ends (do let _ ← releaseLock ("inventory:" ++ itemId) token; pure ()) _ (.ok ()) _ :=
    (releaseLock_ends hheld).bind (Co.ends_ret ())
  rw [hback] at hrelease
  have hlock : Ends (purchaseWithLock text token itemId q) m (.ok (sale text m itemId q)) (sold text m itemId q) :=
    (acquireLock_ends hfree).bind (hbody.andFinally hrelease)
  have hbuy : Ends (buySafe text nodeId token itemId (quantity.map .ofInt)) m
      (.ok (report nodeId (sale text m itemId q))) (sold text m itemId q) := by
    unfold buySafe
    rw [hq]
    exact (hlock.bind (f := fun res => .ret (report nodeId res)) (Co.ends_ret _)).handle _
  exact hbuy.bind (Co.ends_ret _)

/-! ## Counts -/

/-- What a request from `m` to `m'` with this answer does to the stocks. -/
structure Counts (text : DoubleText) (q : Request) (m : Mem) (r : Except Exc Response) (m' : Mem) : Prop where
  count : (∃ response, r = .ok response) → ∀ item, ∃ n : Nat, inventory text m' item = .int n
  kept : q.isPurchase → ∀ item, (inventory text m item).lt (inventory text m' item) = false
  lowered : ∀ response, r = .ok (.purchased response) → response.success →
    (inventory text m' q.itemId).lt (inventory text m q.itemId) = true

/-- Nothing is locked, and each stock is a count. -/
structure Counted (text : DoubleText) (m : Mem) : Prop where
  free : ∀ item, m (itemLockKey item) = none
  count : ∀ item, ∃ n : Nat, n < Double.exact ∧ inventory text m item = .int n

theorem stockKey_inj {a b : String} (h : stockKey a = stockKey b) : a = b := by
  have := congrArg String.toList h
  simp only [stockKey, String.toList_append, List.append_cancel_left_eq] at this
  exact String.toList_inj.mp this

/-- A stock that is written is read back; the others stay. -/
theorem inventory_set {n : Int} (hn : n.natAbs ≤ 10 ^ 20) (item : String) :
    inventory text (m.set (stockKey itemId) (text.toString (.ofInt n))) item =
      if item = itemId then .ofInt n else inventory text m item := by
  by_cases h : item = itemId
  · subst h
    simp only [inventory, Strings.get_set_same, stockOf, text.parseInt_toString n hn, if_true]
  · rw [if_neg h, inventory, Strings.get_set_ne _ _ fun he => h (stockKey_inj he), inventory]

/-- `quantity || 1` of an integer. -/
def amount : Option Int → Int
  | some n => if n = 0 then 1 else n
  | none => 1

theorem amount_pos {quantity : Option Int} (h : ∀ n, quantity = some n → 0 ≤ n) : 0 < amount quantity := by
  cases quantity with
  | none => decide
  | some n =>
    have := h n rfl
    simp only [amount]
    split <;> omega

theorem quantityOr1_ofInt (quantity : Option Int) : quantityOr1 (quantity.map .ofInt) = .ofInt (amount quantity) := by
  have hone : Double.ofInt 1 = .int 1 := Double.ofInt_exact (by decide)
  cases quantity with
  | none => exact hone.symm
  | some n =>
    simp only [Option.map_some, quantityOr1, amount, Double.truthy_ofInt]
    by_cases h : n = 0
    · simp [h, hone]
    · simp [h]

theorem set_free (value item : String) : (m.set (stockKey itemId) value) (itemLockKey item) = m (itemLockKey item) :=
  Function.update_of_ne (lockKey_ne_stockKey _ _) ..

/-- An initialisation sets its item's stock. -/
theorem Counted.init (hc : Counted text m) (itemId : String) {stock : Int} (h0 : 0 ≤ stock)
    (hlt : stock.natAbs < Double.exact) :
    Counted text (m.set (stockKey itemId) (text.toString (.ofInt stock))) := by
  have hsmall : stock.natAbs ≤ 10 ^ 20 := hlt.le.trans (by decide)
  refine ⟨fun item => (set_free ..).trans (hc.free item), fun item => ?_⟩
  rw [inventory_set hsmall]
  split
  · refine ⟨stock.toNat, by omega, ?_⟩
    rw [Double.ofInt_exact hlt.le, Int.toNat_of_nonneg h0]
  · exact hc.count item

variable {z : Int} {n : Nat}

/-- Too little is there. -/
theorem sold_short (hn : n < Double.exact) (hinv : inventory text m itemId = .int n) (hz : n < z) :
    sold text m itemId (.ofInt z) = m ∧ (sale text m itemId (.ofInt z)).success = false := by
  have hlt : (inventory text m itemId).lt (.ofInt z) = true := by
    rw [hinv]
    exact Double.lt_ofInt (by omega) (by omega) hz
  simp only [sold, sale, hlt, if_true, and_self]

/-- Enough is there, or the quantity is negative. -/
theorem sold_enough (hn : n < Double.exact) (hinv : inventory text m itemId = .int n) (hz : z ≤ n)
    (hexact : -(Double.exact : Int) < z) :
    sold text m itemId (.ofInt z) = m.set (stockKey itemId) (text.toString (.ofInt (n - z))) ∧
      (sale text m itemId (.ofInt z)).success = true := by
  have hofInt : Double.ofInt z = .int z := Double.ofInt_exact (by omega)
  have hlt : (inventory text m itemId).lt (.ofInt z) = false := by
    rw [hinv, hofInt]
    simpa [Double.lt] using hz
  have hsub : (inventory text m itemId).sub (.ofInt z) = .ofInt (n - z) := by
    rw [hinv, hofInt]
    rfl
  simp only [sold, sale, hlt, hsub, Bool.false_eq_true, if_false, and_self]

theorem difference_small (hn : n < Double.exact) (hz : z ≤ n) (hexact : -(Double.exact : Int) < z) :
    ((n : Int) - z).natAbs ≤ 10 ^ 20 := by
  have : Double.exact ≤ 10 ^ 19 := by decide
  omega

/-- A sale of a positive amount. -/
theorem Counted.after_sale (hc : Counted text m) (itemId : String) (hz : 0 < z) :
    Counted text (sold text m itemId (.ofInt z)) ∧
    (∀ item, (inventory text m item).lt (inventory text (sold text m itemId (.ofInt z)) item) = false) ∧
    ((sale text m itemId (.ofInt z)).success = true →
      (inventory text (sold text m itemId (.ofInt z)) itemId).lt (inventory text m itemId) = true) := by
  obtain ⟨n, hn, hinv⟩ := hc.count itemId
  have hrefl : ∀ item, (inventory text m item).lt (inventory text m item) = false := by
    intro item
    obtain ⟨k, -, hk⟩ := hc.count item
    rw [hk]
    simp [Double.lt]
  by_cases hle : z ≤ n
  · have hexact : -(Double.exact : Int) < z := by omega
    obtain ⟨hsold, -⟩ := sold_enough hn hinv hle hexact
    have hsub : Double.ofInt (n - z) = .int (n - z) := Double.ofInt_exact (by omega)
    have hread : ∀ item, inventory text (sold text m itemId (.ofInt z)) item =
        if item = itemId then .int (n - z) else inventory text m item := by
      intro item
      rw [hsold, inventory_set (difference_small hn hle hexact), hsub]
    refine ⟨⟨fun item => ?_, fun item => ?_⟩, fun item => ?_, fun _ => ?_⟩
    · rw [hsold, set_free]
      exact hc.free item
    · rw [hread]
      split
      · exact ⟨(n - z).toNat, by omega, by rw [Int.toNat_of_nonneg (by omega)]⟩
      · exact hc.count item
    · rw [hread]
      split
      · rename_i he
        rw [he, hinv]
        simp only [Double.lt, decide_eq_false_iff_not]
        omega
      · exact hrefl item
    · rw [hread, if_pos rfl, hinv]
      simp only [Double.lt, decide_eq_true_eq]
      omega
  · obtain ⟨hsold, hfail⟩ := sold_short hn hinv (by omega : (n : Int) < z)
    rw [hsold, hfail]
    exact ⟨hc, hrefl, fun h => absurd h Bool.false_ne_true⟩

/-- A sale of a negative amount raises the stock. -/
theorem Counted.raised (hc : Counted text m) (itemId : String) (hz : z < 0) (hexact : -(Double.exact : Int) < z) :
    (inventory text m itemId).lt (inventory text (sold text m itemId (.ofInt z)) itemId) = true := by
  obtain ⟨n, hn, hinv⟩ := hc.count itemId
  have hle : z ≤ n := by omega
  rw [(sold_enough hn hinv hle hexact).1, inventory_set (difference_small hn hle hexact), if_pos rfl, hinv]
  exact Double.lt_ofInt (by omega) (by omega) (by omega)

/-! ## Sequences of requests -/

/-- Every request is answered from a state in which the stocks are counts; a valid one
    keeps them, and one with a negative number that is represented exactly does not. -/
theorem Counted.request (hc : Counted text m) (nodeId : String) (q : Request) (hq : q.InRange) :
    ∃ response m', Ends (serve text nodeId q) m (.ok response) m' ∧
      (q.Valid → Counted text m' ∧ Counts text q m (.ok response) m') ∧
      (q.Moderate → Counts text q m (.ok response) m' → q.Valid) := by
  cases q with
  | init itemId stock =>
    refine ⟨_, _, init_ends stock, fun hv => ?_, fun _ hcounts => ?_⟩
    · have hc' := hc.init itemId hv hq
      refine ⟨hc', fun _ item => ?_, nofun, fun _ h => by cases h⟩
      obtain ⟨n, -, hn⟩ := hc'.count item
      exact ⟨n, hn⟩
    · obtain ⟨n, hn⟩ := hcounts.count ⟨_, rfl⟩ itemId
      have hq : stock.natAbs < Double.exact := hq
      rw [inventory_set (hq.le.trans (by decide)), if_pos rfl, Double.ofInt_exact hq.le] at hn
      cases hn
      exact Int.natCast_nonneg n
  | purchase token itemId quantity =>
    refine ⟨_, _, purchase_request_ends (quantityOr1_ofInt quantity) (hc.free itemId), fun hv => ?_,
      fun hm hcounts => ?_⟩
    · obtain ⟨hc', hkept, hlowered⟩ := hc.after_sale itemId (amount_pos hv)
      refine ⟨hc', fun _ item => ?_, fun _ => hkept, fun response h hs => ?_⟩
      · obtain ⟨n, -, hn⟩ := hc'.count item
        exact ⟨n, hn⟩
      · cases h
        exact hlowered hs
    · rintro n rfl
      by_contra hneg
      have hamount : amount (some n) = n := if_neg (by omega)
      have hraised := hc.raised itemId (by omega : n < 0) (hm n rfl)
      have hkept := hcounts.kept rfl itemId
      rw [hamount, hraised] at hkept
      cases hkept

theorem counted_empty : Counted text (fun _ => none) := ⟨fun _ => rfl, fun _ => ⟨0, by decide, rfl⟩⟩

/-- In every sequence of valid requests the stocks stay counts. -/
theorem counted_of_reach
    (h : (requests text nodeId).Reach (fun _ q => q.InRange ∧ q.Valid) (fun _ => none) m) : Counted text m := by
  refine h.invariant (P := Counted text) counted_empty fun m q m' hc hok hs => ?_
  obtain ⟨response, m'', hends, hvalid, -⟩ := hc.request nodeId q hok.1
  simp only [requests, Option.map_eq_some_iff] at hs
  obtain ⟨⟨r, m₁, cs⟩, hrun, rfl⟩ := hs
  have hone := Co.Ends.unique hends ⟨cs, hrun⟩
  rw [← hone.2]
  exact (hvalid hok.2).1

/-- In every sequence of requests without a negative number, with any quantities and any
    stocks that JavaScript represents exactly, each request is answered; after it every
    stock is a count, a purchase has raised none, and a successful one has lowered its
    item's. A request with a negative number, unless it is a quantity below what is
    represented exactly, breaks one of these. -/
theorem stock_counts (h : (requests text nodeId).Reach (fun _ q => q.InRange ∧ q.Valid) (fun _ => none) m)
    (q : Request) (hq : q.InRange) :
    ∃ response m', Ends (serve text nodeId q) m (.ok response) m' ∧
      (q.Valid → Counts text q m (.ok response) m') ∧ (q.Moderate → Counts text q m (.ok response) m' → q.Valid) := by
  obtain ⟨response, m', hends, hvalid, hback⟩ := (counted_of_reach h).request nodeId q hq
  exact ⟨response, m', hends, fun hv => (hvalid hv).2, hback⟩

end Serve

/-! ## Five items -/

def tokenC : Token := ⟨"c", by decide⟩

def empty : Mem := fun _ => none

/-- Five of item `x`, and one is bought. -/
def opened : List Request := [.init "x" 5, .purchase tokenC "x" none]

theorem opened_valid : ∀ q ∈ opened, q.InRange ∧ q.Valid := by
  simp [opened, Request.InRange, Request.Valid, Double.exact]

def afterOpened : Mem := ((requests .decimal "node-1").run empty opened).get rfl

/-- The next buyer takes three of the four that are left. -/
theorem three_of_four : ∃ response m', Ends (serve .decimal "node-1" (.purchase tokenC "x" (some 3))) afterOpened
    (.ok response) m' ∧ Counts .decimal (.purchase tokenC "x" (some 3)) afterOpened (.ok response) m' :=
  have h : (requests .decimal "node-1").Reach (fun _ q => q.InRange ∧ q.Valid) empty afterOpened :=
    Machine.reach_of_run opened (fun _ => opened_valid) (Option.some_get rfl).symm
  have ⟨response, m', hends, hvalid, _⟩ := stock_counts h (.purchase tokenC "x" (some 3)) trivial
  ⟨response, m', hends, hvalid fun n hn => by cases hn; decide⟩

/-- The next one buys minus three. -/
def refund : Request := .purchase tokenC "x" (some (-3))

/-- It succeeds, and seven are there. -/
theorem negative_buys_stock : (requests .decimal "node-1").Reach Machine.any empty afterOpened ∧
    ∃ m', Ends (serve .decimal "node-1" refund) afterOpened
        (.ok (.purchased ⟨"node-1", true, "Purchase successful", .int 7⟩)) m' ∧
      inventory .decimal afterOpened "x" = .int 4 ∧ inventory .decimal m' "x" = .int 7 ∧
      ¬ Counts .decimal refund afterOpened (.ok (.purchased ⟨"node-1", true, "Purchase successful", .int 7⟩)) m' := by
  have hreach : (requests .decimal "node-1").Reach Machine.any empty afterOpened :=
    Machine.reach_any_of_run opened (Option.some_get rfl).symm
  refine ⟨hreach, _, ⟨_, rfl⟩, by decide, by decide, fun h => ?_⟩
  exact absurd (h.kept rfl "x") (by decide)

end Playground.Lock.Nest
