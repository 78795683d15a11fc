/-
  Playground.Lock.NestSerial — locked purchases of the NestJS version side by side
  (`lock.service.ts`: `acquireLock`, `releaseLock`, `purchaseWithLock`).

  Every Redis command of a purchase may throw, with its effect or without, and other
  clients may do as they like with every key but the item's stock and, while a purchase
  is between taking the lock and giving it back, the item's lock.
  - `purchases_serial`: then the purchases are sold one after another, in the order in
    which they took the lock, each as it may go by itself on the stock it finds.
-/

import Playground.Lock.Count
import Playground.Lock.Guarded

namespace Playground.Lock.Nest

open Playground.Lib Playground.Redis

variable {ι : Type} (text : DoubleText)

/-! ## A purchase is a critical section -/

/-- The lock of a purchase: `acquireLock` with its default arguments, and `releaseLock`. -/
def guard (itemId : String) (token : Token) : Guard Cmd Ans Exc where
  attempt := .setNxPx (itemLockKey itemId) token 5000
  rest := .setTimeout 50
  free := .evalRelease (itemLockKey itemId) token
  takes
    | .setNxPx .., .ok result => decide (result = some "OK")
    | _, _ => false
  frees
    | .evalRelease .. => true
    | _ => false
  woken := some
  takes_error _ := rfl
  takes_rest _ := rfl
  takes_free _ := rfl
  frees_attempt := rfl
  frees_rest := rfl
  frees_free := rfl

def purchaseSection (token : Token) (itemId : String) (quantity : Double) : Section Cmd Ans Exc PurchaseResult where
  guard := guard itemId token
  tries := 20
  body := purchase text itemId quantity
  giveUp := .error (.error "Lock acquisition timeout")

theorem purchaseWithLock_code (token : Token) (itemId : String) (quantity : Double) :
    purchaseWithLock text token itemId quantity = (purchaseSection text token itemId quantity).code := by
  have hloop : ∀ n, ((acquireLoop (itemLockKey itemId) token 5000 50 n).bind fun got =>
      got.elim (Co.raise (.error "Lock acquisition timeout")) fun token => (purchase text itemId quantity).andFinally do
        let _ ← releaseLock ("inventory:" ++ itemId) token
        pure ()) = ((guard itemId token).attempts n).bind (purchaseSection text token itemId quantity).enter := by
    intro n
    induction n with
    | zero => rfl
    | succ n ih =>
      refine Co.cmd_congr ?_ fun _ => rfl
      intro result
      by_cases h : result = some "OK"
      · have htakes : (guard itemId token).takes (guard itemId token).attempt (.ok result) = true := decide_eq_true h
        simp only [Co.resume, Co.ret_bind, if_pos h, htakes, if_true]
        exact congrArg (purchase text itemId quantity).andFinally (Co.cmd_congr (fun _ => rfl) fun _ => rfl)
      · have htakes : (guard itemId token).takes (guard itemId token).attempt (.ok result) = false := decide_eq_false h
        simp only [Co.resume, Co.ret_bind, if_neg h, htakes, Bool.false_eq_true, if_false]
        refine Co.cmd_congr (fun _ => ih) fun _ => rfl
  refine Eq.trans (congrArg (Co.bind _) (funext fun got => ?_)) (hloop 20)
  cases got <;> rfl

/-! ## The stock by itself -/

/-- What a purchase's commands do to the stock alone. -/
def stockMemory : Memory ι Cmd Ans Exc Fault Empty (Option String) where
  exec _ c x val :=
    match c with
    | .get _ => some (match x with
      | none => (.ok val, val)
      | some (_, e) => (.error e, val))
    | .set _ value => some (match x with
      | none => (.ok (), some value)
      | some (effect, e) => (.error e, if effect then some value else val))
    | .setTimeout _ => some (.ok (), val)
    | _ => none
  env e := e.elim

/-- The commands of a purchase under the lock. -/
def Trades (itemId : String) (c : Cmd) : Prop :=
  c = .get (stockKey itemId) ∨ (∃ value, c = .set (stockKey itemId) value) ∨ ∃ ms, c = .setTimeout ms

theorem purchase_trades (itemId : String) (quantity : Double) :
    (purchase text itemId quantity).Only (Trades itemId) := by
  refine Co.only_bind (Co.only_bind (Co.only_await (.inl rfl)) fun _ => trivial) fun cur => ?_
  split
  · trivial
  · exact Co.only_bind (Co.only_await (.inr (.inr ⟨10, rfl⟩))) fun _ =>
      Co.only_bind (Co.only_await (.inr (.inl ⟨_, rfl⟩))) fun _ => trivial

theorem outcome_eq {α : Type} (x : Fault) (m : Mem) (r : α × Mem) : outcome x m r = faulty x m r := by
  cases x <;> rfl

/-- The lock is seen to be taken by the answer `OK`. -/
theorem takes_ok {itemId : String} {token : Token} {r : Except Exc (Option String)}
    (h : (guard itemId token).takes (guard itemId token).attempt r = true) : r = .ok (some "OK") := by
  cases r with
  | ok result => exact congrArg Except.ok (of_decide_eq_true h)
  | error e => cases h

/-- The item's lock guards its stock. -/
theorem guarded (token : ι → Token) (itemId : String) :
    Guarded memory stockMemory (fun i => guard itemId (token i)) (Trades itemId) (itemLockKey itemId) (stockKey itemId)
      fun i => (token i).1 where
  attempt i x := ⟨x, 5000, fun took => if took then some "OK" else none, (Option.some_ne_none "OK").symm,
    fun m => congrArg some (outcome_eq x m _), fun r h => takes_ok h⟩
  rest i x := ⟨.ok (), fun _ => rfl⟩
  free i x := ⟨x, id, fun m => congrArg some (outcome_eq x m _)⟩
  inside i c x hc := by
    rcases hc with rfl | ⟨value, rfl⟩ | ⟨ms, rfl⟩
    · refine .reads x id (fun m => congrArg some (outcome_eq x m _)) fun d => ?_
      rcases x with - | ⟨_ | _, e⟩ <;> rfl
    · refine .writes x () value (fun m => congrArg some (outcome_eq x m _)) fun d => ?_
      cases x <;> rfl
    · exact .rests (.ok ()) (fun _ => rfl) fun _ => rfl
  plain i c hc := by
    rcases hc with rfl | ⟨value, rfl⟩ | ⟨ms, rfl⟩ <;> exact ⟨fun _ => rfl, rfl⟩

/-! ## Sales -/

/-- A purchase that finds the stock at `val` may come to `r` and leave it at `val'`. A
    command that throws loses the answer, and the sale with it if it did nothing. -/
inductive Sale (quantity : Double) (val : Option String) : Except Exc PurchaseResult → Option String → Prop
  | outOfStock : (stockOf text val).lt quantity = true →
    Sale quantity val (.ok ⟨false, "Out of stock", stockOf text val⟩) val
  | sold : (stockOf text val).lt quantity = false →
    Sale quantity val (.ok ⟨true, "Purchase successful", (stockOf text val).sub quantity⟩)
      (some (text.toString ((stockOf text val).sub quantity)))
  | unsold (e : Exc) : Sale quantity val (.error e) val
  | unanswered (e : Exc) : (stockOf text val).lt quantity = false →
    Sale quantity val (.error e) (some (text.toString ((stockOf text val).sub quantity)))

/-- What a purchase does with enough in stock. -/
def sell (itemId : String) (quantity currentStock : Double) : Prog PurchaseResult := do
  await (.setTimeout 10)
  await (.set (stockKey itemId) (text.toString (currentStock.sub quantity)))
  pure ⟨true, "Purchase successful", currentStock.sub quantity⟩

variable {text}

theorem sold_of_solo {i : ι} {itemId : String} {quantity : Double} {val val' : Option String}
    {r : Except Exc PurchaseResult} (hlt : (stockOf text val).lt quantity = false)
    (h : Solo stockMemory i (sell text itemId quantity (stockOf text val)) val r val') :
    Sale text quantity val r val' := by
  cases h with
  | cmd hx h =>
  cases hx
  cases h with
  | @cmd _ _ wrote _ _ _ _ _ hx h =>
  rcases wrote with - | ⟨_ | _, e⟩
  · cases hx
    cases h
    exact .sold hlt
  · cases hx
    cases h
    exact .unsold e
  · cases hx
    cases h
    exact .unanswered e hlt

theorem sale_of_solo {i : ι} {itemId : String} {quantity : Double} {val val' : Option String}
    {r : Except Exc PurchaseResult} (h : Solo stockMemory i (purchase text itemId quantity) val r val') :
    Sale text quantity val r val' := by
  cases h with
  | @cmd _ _ got _ _ _ _ _ hx h =>
  rcases got with - | ⟨effect, e⟩
  · cases hx
    have h : Solo stockMemory i (if (stockOf text val).lt quantity = true
        then Co.ret ⟨false, "Out of stock", stockOf text val⟩
        else sell text itemId quantity (stockOf text val)) val r val' := h
    by_cases hlt : (stockOf text val).lt quantity = true
    · rw [if_pos hlt] at h
      cases h
      exact .outOfStock hlt
    · rw [if_neg hlt] at h
      exact sold_of_solo (Bool.eq_false_iff.mpr hlt) h
  · cases hx
    cases h
    exact .unsold e

/-! ## Runs -/

section Run

variable [DecidableEq ι] (text) (token : ι → Token) (itemId : String) (quantity : ι → Double)

def purchaseSections (i : ι) : Section Cmd Ans Exc PurchaseResult := purchaseSection text (token i) itemId (quantity i)

/-- In such a step nothing happens to the lock under a purchase that has it, nor to the
    stock but by a purchase. -/
def Kept : Threads ι Cmd Ans Exc PurchaseResult World Mem → Ev ι Fault World → Prop :=
  Undisturbed memory (purchaseSections text token itemId quantity) (fun m => m.get (itemLockKey itemId))
    fun m => m.get (stockKey itemId)

def purchases (m : Mem) : Threads ι Cmd Ans Exc PurchaseResult World Mem :=
  start m fun i => purchaseWithLock text (token i) itemId (quantity i)

/-- The buyers that took the lock, in that order. -/
abbrev order (s : Threads ι Cmd Ans Exc PurchaseResult World Mem) : List ι :=
  entered (purchaseSections text token itemId quantity) s.log

/-- Between taking the lock and the release script. -/
abbrev Buying (s : Threads ι Cmd Ans Exc PurchaseResult World Mem) : ι → Prop :=
  Inside (purchaseSections text token itemId quantity) s.log

variable {text token itemId quantity} {m : Mem} {s : Threads ι Cmd Ans Exc PurchaseResult World Mem}

theorem sales_inOrder (htok : Function.Injective token)
    (h : (threads memory).Reach (Kept text token itemId quantity) (purchases text token itemId quantity m) s) :
    ∃ done stock, InOrder (purchaseSections text token itemId quantity) (fun i => Sale text (quantity i))
      (fun m => m.get (stockKey itemId)) (m.get (stockKey itemId)) s done stock := by
  have hstart : purchases text token itemId quantity m =
      start m fun i => (purchaseSections text token itemId quantity i).code :=
    congrArg (start m) (funext fun i => purchaseWithLock_code text (token i) itemId (quantity i))
  rw [hstart] at h
  have hexcludes := (guarded token itemId).excludes (fun _ _ h => htok (Subtype.ext h)) (stock_ne_lock itemId itemId)
  obtain ⟨done, stock, hdone⟩ :=
    sections_serial hexcludes (fun i => purchase_trades text itemId (quantity i)) h
  exact ⟨done, stock, hdone.mono sale_of_solo⟩

omit [DecidableEq ι] in
/-- A buyer that is answered has had its sale: without the lock it would be thrown an exception. -/
theorem answered_sale {done : List (ι × Except Exc PurchaseResult)} {stock : Option String}
    (hdone : InOrder (purchaseSections text token itemId quantity) (fun i => Sale text (quantity i))
      (fun m => m.get (stockKey itemId)) (m.get (stockKey itemId)) s done stock)
    {i : ι} {res : PurchaseResult} (hi : s.thr i = .ret res) : (i, .ok res) ∈ done := by
  rcases hdone.answered i res hi with hi | ⟨-, hgave⟩
  · exact hi
  · cases hgave

/-- Whatever commands throw, the purchases of an item are sales one after another, in the
    order in which they took the lock. A buyer that is answered is answered its sale; one
    that is thrown an exception was thrown it by its sale, by its release script or before
    it had the lock. -/
theorem purchases_serial (htok : Function.Injective token)
    (h : (threads memory).Reach (Kept text token itemId quantity) (purchases text token itemId quantity m) s) :
    ∃ done stock, Serial (fun i => Sale text (quantity i)) (m.get (stockKey itemId)) done stock ∧
      (order text token itemId quantity s).Nodup ∧ done.map Prod.fst <+: order text token itemId quantity s ∧
      (∀ i res, s.thr i = .ret res → (i, .ok res) ∈ done) ∧
      (∀ i e, s.thr i = .raise e → (i, .error e) ∈ done ∨ i ∉ order text token itemId quantity s ∨
        .did i (.evalRelease (itemLockKey itemId) (token i)) (.error e) ∈ s.log) ∧
      ((∀ i, ¬ Buying text token itemId quantity s i) →
        done.map Prod.fst = order text token itemId quantity s ∧ s.mem.get (stockKey itemId) = stock) := by
  obtain ⟨done, stock, hdone⟩ := sales_inOrder htok h
  exact ⟨done, stock, hdone.serial, hdone.nodup, hdone.order, fun _ _ => answered_sale hdone, hdone.raised, hdone.left⟩

end Run

/-! ## Two buyers of the last item -/

def tokens (first : Bool) : Token := if first then ⟨"b1", by decide⟩ else ⟨"b2", by decide⟩

theorem tokens_injective : Function.Injective tokens := by decide

def lastOne : Threads Bool Cmd Ans Exc PurchaseResult World Mem :=
  purchases .decimal tokens "x" (fun _ => .ofInt 1) (Strings.set (fun _ => none) (stockKey "x") "1")

/-- The second buyer finds the lock taken and tries again once the first one has left. -/
def turns (wrote : Fault) : List (Ev Bool Fault World) :=
  [.run true none, .run false none, .run true none, .run true none, .run true wrote, .run true none,
    .run false none, .run false none, .run false none, .run false none]

theorem turns_kept (wrote : Fault) (s : Threads Bool Cmd Ans Exc PurchaseResult World Mem) :
    ∀ e ∈ turns wrote, Kept .decimal tokens "x" (fun _ => .ofInt 1) s e := by
  simp [turns, Kept, Undisturbed]

/-- The `SET` of the first buyer goes through, but it is not told. -/
def unheard : Threads Bool Cmd Ans Exc PurchaseResult World Mem :=
  ((threads memory).run lastOne (turns (some (true, .error "ETIMEDOUT")))).get (by decide +kernel)

theorem sold_unheard : unheard.thr true = .raise (.error "ETIMEDOUT") ∧
    unheard.thr false = .ret ⟨false, "Out of stock", .int 0⟩ ∧
    ∃ done, Serial (fun _ => Sale .decimal (.ofInt 1)) (some "1") done (some "0") ∧ done.map Prod.fst = [true, false] ∧
      (false, .ok ⟨false, "Out of stock", .int 0⟩) ∈ done := by
  refine ⟨rfl, rfl, ?_⟩
  have hr : (threads memory).Reach (Kept .decimal tokens "x" fun _ => .ofInt 1) lastOne unheard :=
    Machine.reach_of_run (turns _) (fun s => turns_kept _ s) (Option.some_get _).symm
  obtain ⟨done, stock, hserial, -, -, hret, -, hout⟩ := purchases_serial tokens_injective hr
  obtain ⟨horder, hstock⟩ := hout (by decide +kernel)
  have hleft : stock = some "0" := hstock.symm.trans (by decide +kernel)
  exact ⟨done, hleft ▸ hserial, horder.trans (by decide +kernel), hret false _ rfl⟩

/-! ## Nothing is sold twice -/

/-- What a buyer is told that it has bought. -/
def bought (q : Nat) : Except Exc PurchaseResult → Nat
  | .ok res => if res.success then q else 0
  | .error _ => 0

theorem Sale.spends {q n : Nat} {val val' : Option String} {r : Except Exc PurchaseResult}
    (h : Sale text (.ofInt q) val r val') (hval : stockOf text val = .int n) (hn : n < Double.exact) :
    ∃ n' : Nat, stockOf text val' = .int n' ∧ n' + bought q r ≤ n := by
  have hsell : (Double.int n).lt (.ofInt q) = false →
      q ≤ n ∧ stockOf text (some (text.toString ((Double.int n).sub (.ofInt q)))) = .int (n - q : Nat) := by
    intro hlt
    have hle : q ≤ n := by
      by_contra hgt
      rw [Double.lt_ofInt (Int.natCast_nonneg n) (Int.ofNat_lt.mpr hn) (by omega)] at hlt
      cases hlt
    refine ⟨hle, ?_⟩
    have hq : Double.ofInt q = .int q := Double.ofInt_exact (by rw [Int.natAbs_natCast]; omega)
    have hd : Double.ofInt ((n : Int) - q) = .int (n - q : Nat) := by
      rw [Double.ofInt_exact (by omega), Int.ofNat_sub hle]
    have hsmall : ((n : Int) - q).natAbs ≤ 10 ^ 20 := by
      have : Double.exact ≤ 10 ^ 20 := by decide
      omega
    rw [hq]
    exact (text.parseInt_toString _ hsmall).trans hd
  cases h with
  | outOfStock _ => exact ⟨n, hval, Nat.le_refl n⟩
  | sold hlt =>
    rw [hval] at hlt ⊢
    obtain ⟨hle, hn'⟩ := hsell hlt
    exact ⟨n - q, hn', (Nat.sub_add_cancel hle).le⟩
  | unsold e => exact ⟨n, hval, Nat.le_refl n⟩
  | unanswered e hlt =>
    rw [hval] at hlt ⊢
    obtain ⟨hle, hn'⟩ := hsell hlt
    exact ⟨n - q, hn', Nat.sub_le n q⟩

variable [DecidableEq ι] {token : ι → Token} {itemId : String} {q : ι → Nat} {m : Mem}
  {s : Threads ι Cmd Ans Exc PurchaseResult World Mem}

/-- What the buyers are told that they have bought was in stock, whatever commands throw;
    with nobody buying, what is left was too. -/
theorem never_oversold (htok : Function.Injective token) {n : Nat} (hn : n < Double.exact)
    (hm : stockOf text (m.get (stockKey itemId)) = .int n)
    (h : (threads memory).Reach (Kept text token itemId fun i => .ofInt (q i))
      (purchases text token itemId (fun i => .ofInt (q i)) m) s)
    (buyers : Finset ι) (hb : ∀ i ∈ buyers, ∃ res, s.thr i = .ret res ∧ res.success = true) :
    ∑ i ∈ buyers, q i ≤ n ∧
      ((∀ i, ¬ Buying text token itemId (fun i => .ofInt (q i)) s i) →
        ∃ n' : Nat, stockOf text (s.mem.get (stockKey itemId)) = .int n' ∧ n' + ∑ i ∈ buyers, q i ≤ n) := by
  obtain ⟨done, stock, hdone⟩ := sales_inOrder htok h
  have hsum : ∑ i ∈ buyers, q i ≤ (done.map fun e => bought (q e.1) e.2).sum := by
    refine sum_le_costs buyers fun i hi => ?_
    obtain ⟨res, hres, hsold⟩ := hb i hi
    exact ⟨.ok res, answered_sale hdone hres, by rw [bought, if_pos hsold]⟩
  obtain ⟨n', ⟨hn', -⟩, hle⟩ := hdone.serial.spends (fun val n => stockOf text val = .int (n : Nat) ∧ n < Double.exact)
    (fun e => bought (q e.1) e.2) (fun {i d r d' n} hw hsale => by
      obtain ⟨n', hval, hle⟩ := hsale.spends hw.1 hw.2
      exact ⟨n', ⟨hval, (Nat.le_add_right ..).trans_lt (hle.trans_lt hw.2)⟩, hle⟩) ⟨hm, hn⟩
  refine ⟨by omega, fun hnobody => ⟨n', ?_, by omega⟩⟩
  rw [(hdone.left hnobody).2]
  exact hn'

def heard : Threads Bool Cmd Ans Exc PurchaseResult World Mem :=
  ((threads memory).run lastOne (turns none)).get (by decide +kernel)

/-- One of them bought it, and nothing is left. -/
theorem last_sold_once : heard.thr true = .ret ⟨true, "Purchase successful", .int 0⟩ ∧
    ∑ _ ∈ ({true} : Finset Bool), 1 ≤ 1 ∧
    ∃ n' : Nat, stockOf .decimal (heard.mem.get (stockKey "x")) = .int n' ∧
      n' + ∑ _ ∈ ({true} : Finset Bool), 1 ≤ 1 := by
  have hr : (threads memory).Reach (Kept .decimal tokens "x" fun _ => .ofInt 1) lastOne heard :=
    Machine.reach_of_run (turns _) (fun s => turns_kept _ s) (Option.some_get _).symm
  have hm : stockOf .decimal (lastOne.mem.get (stockKey "x")) = .int (1 : Nat) := by decide +kernel
  obtain ⟨hsum, hleft⟩ := never_oversold (q := fun _ => 1) tokens_injective (by decide) hm hr {true} (by
    intro i hi
    obtain rfl := Finset.mem_singleton.mp hi
    exact ⟨_, rfl, rfl⟩)
  exact ⟨rfl, hsum, hleft (by decide +kernel)⟩

end Playground.Lock.Nest
