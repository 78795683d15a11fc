/-
  Playground.Lock.Range — the stock stays in range under races.

  Purchases with and without the lock and initialisations run side by side, and lock
  keys run out at any moment. A purchase that has read the stock still writes what it
  read less its quantity, however old that is by then (`stock_in_range`): the stock is
  never negative and never more than the largest initialised so far, and so is what any
  purchase answers. Races sell the same stock twice (`sold_twice`), no more.

  The invariant bounds the local values too: what a call has read was stored once, and
  covers its quantity.
-/

import Playground.Lock.Shop

namespace Playground.Lock

open Playground.Lib Playground.Redis

/-! ## Requests and what the log says of them -/

/-- `stock: int = Field(gt=0)` and `quantity: int = Field(default=1, gt=0)`. -/
def Request.Valid : Request → Prop
  | .init stock => 0 < stock
  | .withLock _ quantity => 0 < quantity
  | .withoutLock quantity => 0 < quantity

section Range

variable {ι : Type} (py : IntText) (item : String) (req : ι → Request)

/-- The stock that the `SET` of an `init_inventory` stored. -/
def initialised : Entry ι (Cmd ι) Ans Exc World → Option Int
  | .did i (.set ..) _ => match req i with
    | .init stock => some stock
    | _ => none
  | _ => none

/-- The largest stock initialised so far, 0 if none. -/
def largest (log : Log ι ι) : Int := (log.filterMap (initialised req)).foldl max 0

/-- Some call stored `n`. -/
def Stored (log : Log ι ι) (n : Int) : Prop := ∃ j, .did j (.set (stockKey item) (py.str n)) (.ok ()) ∈ log

/-- Call `i` read the stock `n`, which had been stored before. -/
def ReadStored (log : Log ι ι) (i : ι) (n : Int) : Prop :=
  ∃ before after, log = before ++ .did i (.get (stockKey item)) (.ok (some (py.str n))) :: after ∧
    Stored py item before n

/-- What a purchase of call `i` answers. -/
def FairResult (log : Log ι ι) (i : ι) : Except Exc PurchaseResult → Prop
  | .error _ => True
  | .ok p => 0 ≤ p.remaining ∧ p.remaining ≤ largest req log ∧
      (p.success → ReadStored py item log i (p.remaining + (req i).quantity))

/-- What call `i` holds in its phase. -/
def Fair (log : Log ι ι) (i : ι) : Phase → Prop
  | .initing stock => req i = .init stock
  | .trying _ q _ => q = (req i).quantity ∧ 0 < q
  | .resting _ q _ => q = (req i).quantity ∧ 0 < q
  | .entering _ q => q = (req i).quantity ∧ 0 < q
  | .reading _ q => q = (req i).quantity ∧ 0 < q
  | .delaying _ q cur => q = (req i).quantity ∧ 0 < q ∧ q ≤ cur ∧ cur ≤ largest req log ∧ ReadStored py item log i cur
  | .writing _ new => 0 ≤ new ∧ new ≤ largest req log ∧ ReadStored py item log i (new + (req i).quantity)
  | .exiting r => FairResult py item req log i r
  | .releasing _ r => FairResult py item req log i r
  | .ended (.ok (some p)) => FairResult py item req log i (.ok p)
  | .ended _ => True

variable {py item req} {log : Log ι ι} {e : Entry ι (Cmd ι) Ans Exc World} {i : ι} {n : Int}

theorem largest_snoc (log : Log ι ι) (e : Entry ι (Cmd ι) Ans Exc World) :
    largest req (log ++ [e]) = (initialised req e).toList.foldl max (largest req log) := by
  rw [largest, List.filterMap_append, List.foldl_append, filterMap_one]
  rfl

theorem largest_le_snoc (log : Log ι ι) (e : Entry ι (Cmd ι) Ans Exc World) :
    largest req log ≤ largest req (log ++ [e]) := by
  rw [largest_snoc]
  cases initialised req e with
  | none => exact Int.le_refl _
  | some stock => exact Int.le_max_left ..

theorem largest_nonneg (log : Log ι ι) : 0 ≤ largest req log := by
  induction log using List.reverseRecOn with
  | nil => exact Int.le_refl 0
  | append_singleton log e ih => exact Int.le_trans ih (largest_le_snoc log e)

theorem Stored.snoc (h : Stored py item log n) : Stored py item (log ++ [e]) n :=
  h.imp fun _ hj => List.mem_append_left _ hj

theorem ReadStored.snoc (h : ReadStored py item log i n) : ReadStored py item (log ++ [e]) i n := by
  obtain ⟨before, after, rfl, hs⟩ := h
  exact ⟨before, after ++ [e], by simp, hs⟩

theorem FairResult.snoc {r : Except Exc PurchaseResult} (h : FairResult py item req log i r) :
    FairResult py item req (log ++ [e]) i r := by
  cases r with
  | error x => trivial
  | ok p => exact ⟨h.1, Int.le_trans h.2.1 (largest_le_snoc ..), fun hp => (h.2.2 hp).snoc⟩

theorem Fair.snoc {p : Phase} (h : Fair py item req log i p) : Fair py item req (log ++ [e]) i p := by
  cases p with
  | initing | trying | resting | entering | reading => exact h
  | delaying locked q cur =>
    obtain ⟨hq, hpos, hle, hmax, hread⟩ := h
    exact ⟨hq, hpos, hle, Int.le_trans hmax (largest_le_snoc ..), hread.snoc⟩
  | writing locked new =>
    obtain ⟨hpos, hmax, hread⟩ := h
    exact ⟨hpos, Int.le_trans hmax (largest_le_snoc ..), hread.snoc⟩
  | exiting r => exact FairResult.snoc h
  | releasing t r => exact FairResult.snoc h
  | ended r =>
    cases r with
    | error x => trivial
    | ok r =>
      cases r with
      | none => trivial
      | some p => exact FairResult.snoc (r := .ok p) h

/-- Whether it is still in the lock or not, a call leaves with a fair result. -/
theorem fair_leave (locked : Bool) {r : Except Exc PurchaseResult} (h : FairResult py item req log i r) :
    Fair py item req log i (.leave locked r) := by
  cases locked with
  | true => exact h
  | false =>
    cases r with
    | error x => trivial
    | ok p => exact h

/-! ## The invariant -/

variable (py item req) in
/-- What is stored was stored by some call, and is in range. -/
def StockFair (m : Mem ι) (log : Log ι ι) : Prop :=
  ∀ v, m.stock item = some v → ∃ n, v = py.str n ∧ 0 ≤ n ∧ n ≤ largest req log ∧ Stored py item log n

theorem StockFair.snoc {m m' : Mem ι} (h : StockFair py item req m log) (hs : m'.stock item = m.stock item) :
    StockFair py item req m' (log ++ [e]) := by
  intro v hv
  obtain ⟨n, hn, hpos, hmax, hstored⟩ := h v (hs ▸ hv)
  exact ⟨n, hn, hpos, Int.le_trans hmax (largest_le_snoc ..), hstored.snoc⟩

/-- A `SET` of a number in range. -/
theorem stockFair_set {m : Mem ι} (hpos : 0 ≤ n)
    (hmax : n ≤ largest req (log ++ [.did i (.set (stockKey item) (py.str n)) (.ok ())])) :
    StockFair py item req (m.setStock item (py.str n))
      (log ++ [.did i (.set (stockKey item) (py.str n)) (.ok ())]) := by
  intro v hv
  rw [Mem.stock_setStock] at hv
  cases hv
  exact ⟨n, rfl, hpos, hmax, i, List.mem_append_right _ (List.mem_singleton.mpr rfl)⟩

/-- A purchase that compares what it read with its quantity. -/
theorem fair_compare {locked : Bool} {q cur : Int} (hq : q = (req i).quantity) (hpos : 0 < q) (hcur : 0 ≤ cur)
    (hmax : cur ≤ largest req log) (hread : q ≤ cur → ReadStored py item log i cur) :
    Fair py item req log i (Phase.read.compare locked q cur) := by
  unfold Phase.read.compare
  split
  · exact fair_leave locked ⟨hcur, hmax, nofun⟩
  · have hle : q ≤ cur := by omega
    exact ⟨hq, hpos, hle, hmax, hread hle⟩

/-- After its `GET`, a purchase holds a number that was stored, or none. -/
theorem fair_read {m : Mem ι} {locked : Bool} {q : Int} (hm : StockFair py item req m log)
    (hq : q = (req i).quantity) (hpos : 0 < q) :
    Fair py item req (log ++ [.did i (.get (stockKey item)) (.ok (m.stock item))]) i
      (.read py locked q (m.stock item)) := by
  cases hs : m.stock item with
  | none =>
    have hnone : q ≤ 0 → False := by omega
    exact fair_compare hq hpos (Int.le_refl 0) (largest_nonneg _) fun hle => (hnone hle).elim
  | some v =>
    obtain ⟨n, rfl, hn, hmax, hstored⟩ := hm v hs
    simp only [Phase.read, py.int_str]
    exact fair_compare hq hpos hn (Int.le_trans hmax (largest_le_snoc ..)) fun _ => ⟨log, [], rfl, hstored⟩

variable [DecidableEq ι]

variable (py item req) in
structure InRange (s : St ι) : Prop where
  stock : StockFair py item req s.mem s.log
  here : ∀ i, Fair py item req s.log i (s.ph i)

variable {s s' : St ι}

omit [DecidableEq ι] in
theorem InRange.here_of (h : InRange py item req s) {i : ι} {p : Phase} (hp : s.ph i = p) :
    Fair py item req s.log i p :=
  hp ▸ h.here i

theorem InRange.did (h : InRange py item req s) {c : Cmd ι} {r : Except Exc (Ans c)} {m : Mem ι} {p : Phase}
    (hm : StockFair py item req m (s.log ++ [.did i c r])) (hp : Fair py item req (s.log ++ [.did i c r]) i p) :
    InRange py item req (s.did i c r m p) := by
  exact ⟨hm, (Phases.forall_did (Q := Fair py item req _)).mpr ⟨hp, fun j _ => (h.here j).snoc⟩⟩

omit [DecidableEq ι] in
theorem InRange.moved (h : InRange py item req s) {e : World} {m : Mem ι} (hs : m.stock item = s.mem.stock item) :
    InRange py item req (s.moved e m) :=
  ⟨h.stock.snoc hs, fun j => (h.here j).snoc⟩

theorem InRange.step (hvalid : ∀ i, (req i).Valid) (h : InRange py item req s) (hm : Move py item s s') :
    InRange py item req s' := by
  cases hm with
  | init i stock hp =>
    have hreq : req i = .init stock := h.here_of hp
    have hpos : 0 < stock := by
      have hv := hvalid i
      rwa [hreq] at hv
    have hmax : stock ≤ largest req (s.log ++ [.did i (.set (stockKey item) (py.str stock)) (.ok ())]) := by
      rw [largest_snoc, initialised, hreq]
      exact Int.le_max_right ..
    exact h.did (stockFair_set (Int.le_of_lt hpos) hmax) trivial
  | take i t q n hp hl =>
    exact h.did (h.stock.snoc (Mem.stock_take item s.mem t)) (h.here_of hp)
  | busy i t q n hp hl =>
    exact h.did (h.stock.snoc rfl) (h.here_of hp)
  | rest i t q n hp =>
    exact h.did (h.stock.snoc rfl) (h.here_of hp)
  | enter i t q hp =>
    exact h.did (h.stock.snoc rfl) (h.here_of hp)
  | read i locked q hp =>
    obtain ⟨hq, hpos⟩ := h.here_of hp
    exact h.did (h.stock.snoc rfl) (fair_read h.stock hq hpos)
  | delay i locked q cur hp =>
    obtain ⟨hq, hpos, hle, hmax, hread⟩ := h.here_of hp
    have hback : cur - q + (req i).quantity = cur := by omega
    refine h.did (h.stock.snoc rfl) ⟨by omega, ?_, ?_⟩
    · have hgrow : largest req s.log ≤ largest req (s.log ++ [.did i (.sleep 10) (.ok ())]) := largest_le_snoc ..
      omega
    · rw [hback]
      exact hread.snoc
  | write i locked new hp =>
    obtain ⟨hpos, hmax, hread⟩ := h.here_of hp
    have hmax' := Int.le_trans hmax (largest_le_snoc s.log (.did i (.set (stockKey item) (py.str new)) (.ok ())))
    exact h.did (stockFair_set hpos hmax') (fair_leave locked ⟨hpos, hmax', fun _ => hread.snoc⟩)
  | exit i t r hp ht =>
    exact h.did (h.stock.snoc rfl) (FairResult.snoc (h.here_of hp))
  | exitBare i r hp ht =>
    exact h.did (h.stock.snoc rfl) (fair_leave false (FairResult.snoc (h.here_of hp)))
  | release i t r n hp hn =>
    exact h.did (h.stock.snoc (Mem.stock_release item s.mem t)) (fair_leave false (FairResult.snoc (h.here_of hp)))
  | expire m hlock hnone hs ht => exact h.moved hs
  | expireOther m resource hne hlock hs ht => exact h.moved hs

/-- In every run, with lock keys running out at any time: the stock is absent or in
    range, every answer is in range, and what a success leaves is what it read, stored
    before, less its quantity. -/
theorem stock_in_range (hvalid : ∀ i, (req i).Valid) {m : Mem ι} (hm : m.stock item = none) {s : Serving ι}
    (h : (threads memory).Reach Machine.any (start m fun i => serve py item i (req i)) s) :
    (s.mem.stock item = none ∨
      ∃ n, s.mem.stock item = some (py.str n) ∧ 0 ≤ n ∧ n ≤ largest req s.log) ∧
    ∀ i p, s.thr i = .ret (some p) → 0 ≤ p.remaining ∧ p.remaining ≤ largest req s.log ∧
      (p.success → ∃ n, ReadStored py item s.log i n ∧ p.remaining = n - (req i).quantity) := by
  rw [← shop_start] at h
  obtain ⟨t, ht, rfl⟩ := Flow.follows _ h
  have hi : InRange py item req t := by
    refine ht.invariant ⟨fun v hv => ?_, fun i => ?_⟩ fun _ _ _ hi _ hs => hi.step hvalid (step_move _ _ hs)
    · cases hm.symm.trans hv
    · show Fair py item req [] i (.begin (req i))
      have hv := hvalid i
      cases hr : req i with
      | init stock => exact hr
      | withLock token q => rw [hr] at hv; exact ⟨by rw [hr]; rfl, hv⟩
      | withoutLock q => rw [hr] at hv; exact ⟨by rw [hr]; rfl, hv⟩
  constructor
  · show t.mem.stock item = none ∨ _
    cases hs : t.mem.stock item with
    | none => exact .inl rfl
    | some v =>
      obtain ⟨n, rfl, hpos, hmax, -⟩ := hi.stock v hs
      exact .inr ⟨n, hs, hpos, hmax⟩
  · intro i p hr
    have hend := Flow.head_of_ret (shop py item) hr
    have hfair := hi.here i
    revert hend hfair
    cases t.ph i with
    | ended r =>
      intro hend hfair
      cases hend
      obtain ⟨hpos, hmax, hread⟩ := hfair
      exact ⟨hpos, hmax, fun hp => ⟨_, hread hp, by omega⟩⟩
    | trying t q n => cases n <;> exact nofun
    | initing | resting | entering | reading | delaying | writing | exiting | releasing => exact nofun

end Range

/-! ## One sold twice -/

inductive Client
  | admin
  | careful
  | hasty
  deriving DecidableEq

def oneEach : Client → Request
  | .admin => .init 1
  | .careful => .withLock (twoTokens .first) 1
  | .hasty => .withoutLock 1

def emptyShop : Mem Client := ⟨fun _ => none, fun _ => none⟩

/-- Both buyers read the stock before either writes. -/
def bothRead : List (Ev Client Unit World) :=
  .run .admin () :: List.replicate 3 (.run Client.careful ()) ++ .run .hasty () ::
    List.replicate 4 (.run Client.careful ()) ++ List.replicate 2 (.run Client.hasty ())

def soldOut : Serving Client :=
  ((threads memory).run (start emptyShop fun i => serve IntText.decimal "x" i (oneEach i)) bothRead).get rfl

/-- Both are sold the one there was, and the stock is 0. -/
theorem sold_twice : soldOut.thr .careful = .ret (some ⟨true, "Purchase successful", 0⟩) ∧
    soldOut.thr .hasty = .ret (some ⟨true, "Purchase successful", 0⟩) ∧
    largest oneEach soldOut.log = 1 ∧
    ∃ n, ReadStored IntText.decimal "x" soldOut.log .hasty n ∧ 0 = n - 1 :=
  have hvalid : ∀ i, (oneEach i).Valid := fun i => by cases i <;> exact Int.one_pos
  have hr : (threads memory).Reach Machine.any _ soldOut := Machine.reach_any_of_run bothRead (Option.some_get _).symm
  ⟨rfl, rfl, rfl, ((stock_in_range hvalid rfl hr).2 .hasty _ rfl).2.2 rfl⟩

end Playground.Lock
