/-
  Playground.Lock.Serial — locked purchases of one item are serialisable.

  While the lock key does not run out under a call that holds it, the calls are the
  sales of a plain counter (`sales`), one at a time, in the order in which they took
  the lock.

  `Inv` is the invariant behind it: a call inside the lock has its token in the key,
  is the newest in the order, and what it has read and will write is what the counter
  has after the calls before it.
-/

import Mathlib.Algebra.BigOperators.Group.Finset.Basic
import Mathlib.Algebra.Ring.Int.Defs
import Playground.Lock.Shop

namespace Playground.Lock

open Playground.Lib Playground.Redis

/-! ## A plain counter -/

section Counter

variable {ι : Type}

/-- What the counter answers a buyer of `q` when it stands at `n`. -/
def buy (n q : Int) : PurchaseResult :=
  if n < q then ⟨false, "Out of stock", n⟩ else ⟨true, "Purchase successful", n - q⟩

/-- Where it stands afterwards. -/
def left (n q : Int) : Int := if q ≤ n then n - q else n

variable (qty : ι → Int)

/-- Where the counter stands after the buyers of `order`, from `n`. -/
def stockAfter (n : Int) (order : List ι) : Int := order.foldl (fun n i => left n (qty i)) n

/-- What each buyer of `order` is answered. -/
def sales : Int → List ι → List (ι × PurchaseResult)
  | _, [] => []
  | n, i :: order => (i, buy n (qty i)) :: sales (left n (qty i)) order

@[simp] theorem stockAfter_snoc (n : Int) (order : List ι) (i : ι) :
    stockAfter qty n (order ++ [i]) = left (stockAfter qty n order) (qty i) := by
  simp [stockAfter]

theorem sales_snoc (n : Int) (order : List ι) (i : ι) :
    sales qty n (order ++ [i]) = sales qty n order ++ [(i, buy (stockAfter qty n order) (qty i))] := by
  induction order generalizing n with
  | nil => rfl
  | cons j order ih => simp only [List.cons_append, sales, ih, stockAfter, List.foldl_cons]

theorem sales_fst (n : Int) (order : List ι) : (sales qty n order).map Prod.fst = order := by
  induction order generalizing n with
  | nil => rfl
  | cons j order ih => simp [sales, ih]

theorem sales_mem {n : Int} {order : List ι} {i : ι} {p : PurchaseResult} (h : (i, p) ∈ sales qty n order) :
    i ∈ order := by
  rw [← sales_fst qty n order]
  exact List.mem_map_of_mem h

/-- Nothing is sold but what the counter had. -/
theorem stock_conserved (n : Int) (order : List ι) :
    n = stockAfter qty n order + ((sales qty n order).map fun s => if s.2.success then qty s.1 else 0).sum := by
  induction order generalizing n with
  | nil => simp [stockAfter, sales]
  | cons i order ih =>
    have h := ih (left n (qty i))
    have hl : n = left n (qty i) + if (buy n (qty i)).success then qty i else 0 := by
      unfold left buy
      by_cases e : qty i ≤ n
      · simp [e, Int.not_lt.mpr e]
      · simp [e, Int.not_le.mp e]
    simp only [sales, List.map_cons, List.sum_cons, stockAfter, List.foldl_cons] at h ⊢
    omega

end Counter

/-! ## The invariant -/

section Serial

variable {ι : Type} (py : IntText) (item : String)

/-- The stock as `get_inventory` reads it. -/
def Mem.count (m : Mem ι) : Option Int :=
  match m.stock item with
  | none => some 0
  | some v => py.int v

/-- Inside the lock: between the `SET NX` that took the key and the release script. -/
def Phase.inside : Phase → Prop
  | .entering .. => True
  | .reading locked _ => locked = true
  | .delaying locked .. => locked = true
  | .writing locked _ => locked = true
  | .exiting _ => True
  | .releasing .. => True
  | _ => False

variable (tok : ι → Token) (qty : ι → Int) (n₀ : Int)

/-- Call `i` holds the lock, and the counter stood at `n` when its turn came. -/
def Turn (m : Mem ι) (order : List ι) (i : ι) (n : Int) : Prop :=
  m.lock item = some (tok i).1 ∧ ∃ before, order = before ++ [i] ∧ stockAfter qty n₀ before = n

/-- What is known of call `i` in its phase. -/
def Local (m : Mem ι) (order : List ι) (i : ι) : Phase → Prop
  | .trying t q _ => t = tok i ∧ q = qty i ∧ i ∉ order
  | .resting t q _ => t = tok i ∧ q = qty i ∧ i ∉ order
  | .entering t q => t = tok i ∧ q = qty i ∧ ∃ n, Turn item tok qty n₀ m order i n ∧ m.count py item = some n
  | .reading locked q => locked = true ∧ q = qty i ∧ m.token i = some (tok i) ∧
      ∃ n, Turn item tok qty n₀ m order i n ∧ m.count py item = some n
  | .delaying locked q cur => locked = true ∧ q = qty i ∧ m.token i = some (tok i) ∧ qty i ≤ cur ∧
      Turn item tok qty n₀ m order i cur ∧ m.count py item = some cur
  | .writing locked new => locked = true ∧ m.token i = some (tok i) ∧
      ∃ n, qty i ≤ n ∧ new = n - qty i ∧ Turn item tok qty n₀ m order i n ∧ m.count py item = some n
  | .exiting r => m.token i = some (tok i) ∧
      ∃ n, r = .ok (buy n (qty i)) ∧ Turn item tok qty n₀ m order i n ∧ m.count py item = some (left n (qty i))
  | .releasing t r => t = tok i ∧
      ∃ n, r = .ok (buy n (qty i)) ∧ Turn item tok qty n₀ m order i n ∧ m.count py item = some (left n (qty i))
  | .ended (.ok (some p)) => (i, p) ∈ sales qty n₀ order
  | _ => False

variable {py item tok qty n₀}

theorem Local.turn {m : Mem ι} {order : List ι} {i : ι} {p : Phase} (h : Local py item tok qty n₀ m order i p)
    (hin : p.inside) : ∃ n, Turn item tok qty n₀ m order i n := by
  cases p with
  | entering t q => exact ⟨_, h.2.2.choose_spec.1⟩
  | reading locked q => exact ⟨_, h.2.2.2.choose_spec.1⟩
  | delaying locked q cur => exact ⟨_, h.2.2.2.2.1⟩
  | writing locked new => exact ⟨_, h.2.2.choose_spec.2.2.1⟩
  | exiting r => exact ⟨_, h.2.choose_spec.2.1⟩
  | releasing t r => exact ⟨_, h.2.choose_spec.2.1⟩
  | initing | trying | resting | ended => cases hin

/-- A call keeps its place while lock, stock, its token field and the order stay. -/
theorem Local.same {m m' : Mem ι} {order : List ι} {i : ι} {p : Phase} (h : Local py item tok qty n₀ m order i p)
    (hl : m'.lock item = m.lock item) (hs : m'.stock item = m.stock item) (ht : m'.token i = m.token i) :
    Local py item tok qty n₀ m' order i p := by
  have hc : m'.count py item = m.count py item := by unfold Mem.count; rw [hs]
  unfold Local at h ⊢
  unfold Turn at h ⊢
  rw [hl, hc, ht]
  exact h

/-- A call outside the lock keeps its place whatever the others do. -/
theorem Local.away {m m' : Mem ι} {order new : List ι} {i : ι} {p : Phase} (h : Local py item tok qty n₀ m order i p)
    (hout : ¬ p.inside) (hnew : new = order ∨ ∃ j, j ≠ i ∧ new = order ++ [j]) :
    Local py item tok qty n₀ m' new i p := by
  have hno : i ∉ order → i ∉ new := by
    rintro hi
    rcases hnew with rfl | ⟨j, hj, rfl⟩
    · exact hi
    · simpa [hi] using hj.symm
  cases p with
  | trying t q n => exact ⟨h.1, h.2.1, hno h.2.2⟩
  | resting t q n => exact ⟨h.1, h.2.1, hno h.2.2⟩
  | ended r =>
    cases r with
    | error x => exact h
    | ok r =>
      cases r with
      | none => exact h
      | some p =>
        rcases hnew with rfl | ⟨j, hj, rfl⟩
        · exact h
        · show (i, p) ∈ sales qty n₀ (order ++ [j])
          rw [sales_snoc]
          exact List.mem_append_left _ h
  | initing => exact h
  | reading locked q => exact absurd h.1 hout
  | delaying locked q cur => exact absurd h.1 hout
  | writing locked new => exact absurd h.1 hout
  | entering | exiting | releasing => exact absurd trivial hout

variable [DecidableEq ι] (py item tok qty n₀)

structure Inv (s : St ι) : Prop where
  order : (acquired (itemKey item) s.log).Nodup
  here : ∀ i, Local py item tok qty n₀ s.mem (acquired (itemKey item) s.log) i (s.ph i)
  /-- With nobody inside, the stock is the counter's. -/
  shut : (∀ i, ¬ (s.ph i).inside) →
    s.mem.count py item = some (stockAfter qty n₀ (acquired (itemKey item) s.log))
  gone : ∀ i ∈ released (itemKey item) s.log, ∃ r, s.ph i = .ended r
  quiet : ∀ i, i ∉ acquired (itemKey item) s.log → ∀ c r, .did i c r ∈ s.log → Idle c r

variable {py item tok qty n₀} {s s' : St ι}

theorem Inv.here_of (hi : Inv py item tok qty n₀ s) {i : ι} {p : Phase} (hp : s.ph i = p) :
    Local py item tok qty n₀ s.mem (acquired (itemKey item) s.log) i p :=
  hp ▸ hi.here i

theorem Inv.turn (hi : Inv py item tok qty n₀ s) {i : ι} (hin : (s.ph i).inside) : s.mem.lock item = some (tok i).1 :=
  ((hi.here i).turn hin).choose_spec.1

/-- The tokens are distinct, so one call at a time is inside. -/
theorem Inv.alone (hi : Inv py item tok qty n₀ s) (htok : Function.Injective tok) {i j : ι} (hin : (s.ph i).inside)
    (hj : j ≠ i) : ¬ (s.ph j).inside := fun hjn =>
  hj (htok (Subtype.ext (Option.some.inj ((hi.turn hjn).symm.trans (hi.turn hin)))))

theorem Inv.holding (hi : Inv py item tok qty n₀ s) {i : ι} (hin : (s.ph i).inside) :
    Holding (itemKey item) s.log i := by
  obtain ⟨n, -, before, hb, -⟩ := (hi.here i).turn hin
  refine ⟨by rw [hb]; simp, ?_⟩
  intro hr
  obtain ⟨r, hr⟩ := hi.gone i hr
  rw [hr] at hin
  exact hin

/-- What a step of call `i` has to show. -/
theorem Inv.did (hi : Inv py item tok qty n₀ s) {i : ι} {c : Cmd ι} {r : Except Exc (Ans c)} {m : Mem ι} {p : Phase}
    {new : List ι} (hnew : acquired (itemKey item) (s.log ++ [.did i c r]) = new)
    (hord : new = acquired (itemKey item) s.log ∨
      new = acquired (itemKey item) s.log ++ [i] ∧ i ∉ acquired (itemKey item) s.log)
    (hp : Local py item tok qty n₀ m new i p)
    (hrest : (∀ j, j ≠ i → ¬ (s.ph j).inside) ∨ new = acquired (itemKey item) s.log ∧
      m.lock item = s.mem.lock item ∧ m.stock item = s.mem.stock item ∧ ∀ j, j ≠ i → m.token j = s.mem.token j)
    (hshut : ¬ p.inside → (∀ j, j ≠ i → ¬ (s.ph j).inside) → m.count py item = some (stockAfter qty n₀ new))
    (hgone : releaser (itemKey item) (.did i c r) = none ∨ ∃ r, p = .ended r) (hlive : ∀ r, s.ph i ≠ .ended r)
    (hquiet : i ∉ new → Idle c r) : Inv py item tok qty n₀ (s.did i c r m p) := by
  have hsub : ∀ j, j ∉ new → j ∉ acquired (itemKey item) s.log := by
    intro j hj
    rcases hord with rfl | ⟨rfl, -⟩
    · exact hj
    · exact fun h => hj (List.mem_append_left _ h)
  refine ⟨?_, fun j => ?_, fun hout => ?_, fun j hj => ?_, fun j hj d q hd => ?_⟩ <;>
    simp only [Phases.did_log, hnew, Phases.did_mem] at *
  · rcases hord with rfl | ⟨rfl, hn⟩
    · exact hi.order
    · exact List.nodup_append.mpr ⟨hi.order, by simp, fun a ha b hb => by
        rw [List.mem_singleton.mp hb]; rintro rfl; exact hn ha⟩
  · by_cases e : j = i
    · subst e; simpa using hp
    · rw [Phases.did_ph_ne _ _ _ _ _ _ e]
      rcases hrest with hr | ⟨rfl, hl, hs, ht⟩
      · apply (hi.here j).away (hr j e)
        rcases hord with h | ⟨h, -⟩
        · exact .inl h
        · exact .inr ⟨i, Ne.symm e, h⟩
      · exact (hi.here j).same hl hs (ht j e)
  · apply hshut (by simpa using hout i)
    intro j hj
    simpa [hj] using hout j
  · rw [released_snoc, List.mem_append] at hj
    by_cases e : j = i
    · subst e
      rcases hj with hj | hj
      · obtain ⟨r, hr⟩ := hi.gone j hj
        exact absurd hr (hlive r)
      · rcases hgone with h | ⟨r, h⟩
        · simp [h] at hj
        · exact ⟨r, by simpa using h⟩
    · rw [Phases.did_ph_ne _ _ _ _ _ _ e]
      refine hi.gone j (hj.resolve_right ?_)
      intro h
      have hr : releaser (itemKey item) (.did i c r) = some j := by simpa using h
      unfold releaser at hr
      split at hr
      · rename_i heq
        cases heq
        simp only [Option.ite_none_right_eq_some, Option.some.injEq] at hr
        exact e hr.2.symm
      · cases hr
  · rcases List.mem_append.mp hd with hd | hd
    · exact hi.quiet j (hsub j hj) d q hd
    · cases List.mem_singleton.mp hd
      exact hquiet hj

/-- What a step of the world has to show. -/
theorem Inv.moved (hi : Inv py item tok qty n₀ s) {e : World} {m : Mem ι} (hs : m.stock item = s.mem.stock item)
    (ht : m.token = s.mem.token) (hl : m.lock item = s.mem.lock item ∨ ∀ i, ¬ (s.ph i).inside) :
    Inv py item tok qty n₀ (s.moved e m) := by
  have hc : m.count py item = s.mem.count py item := by unfold Mem.count; rw [hs]
  have hacq : acquired (itemKey item) (s.moved e m).log = acquired (itemKey item) s.log := by simp [acquirer]
  have hrel : released (itemKey item) (s.moved e m).log = released (itemKey item) s.log := by simp [releaser]
  refine ⟨by rw [hacq]; exact hi.order, ?_, ?_, by rw [hrel]; exact hi.gone, ?_⟩
  · intro i
    rw [hacq]
    rcases hl with hl | hout
    · exact (hi.here i).same hl hs (by rw [Phases.moved_mem, ht])
    · exact (hi.here i).away (hout i) (.inl rfl)
  · intro hout
    rw [hacq]
    exact hc.trans (hi.shut hout)
  · intro i h c r hd
    rw [hacq] at h
    exact hi.quiet i h c r (by simpa using hd)

omit [DecidableEq ι] in
/-- A purchase that read `n` goes on to compare it. -/
theorem read_count {m : Mem ι} {n : Int} (h : m.count py item = some n) (locked : Bool) (q : Int) :
    Phase.read py locked q (m.stock item) = Phase.read.compare locked q n := by
  unfold Mem.count at h
  unfold Phase.read
  cases hs : m.stock item with
  | none => rw [hs] at h; cases h; rfl
  | some v =>
    rw [hs] at h
    simp only at h ⊢
    rw [h]

/-- Every step keeps the invariant, unless the lock key runs out under a call. -/
theorem Inv.step (hi : Inv py item tok qty n₀ s) (htok : Function.Injective tok) (hm : Move py item s s')
    (hkept : s'.log = s.log ++ [.world (.expire ("inventory:" ++ item))] →
      ∀ i, ¬ Holding (itemKey item) s.log i) : Inv py item tok qty n₀ s' := by
  cases hm with
  | init i stock hp => exact absurd (hi.here_of hp) id
  | exitBare i r hp ht =>
    have h := hi.here_of hp
    exact absurd h.1 (by rw [ht]; simp)
  | take i t q n hp hl =>
    obtain ⟨rfl, rfl, hn⟩ := hi.here_of hp
    have hout : ∀ j, ¬ (s.ph j).inside := fun j hj => by rw [hi.turn hj] at hl; cases hl
    have hc : (s.mem.take item (tok i)).count py item = s.mem.count py item := by
      unfold Mem.count; rw [Mem.stock_take]
    have hnew : acquired (itemKey item) (s.log ++ [.did i (.setNxPx (itemKey item) (tok i).1 5000) (.ok true)]) =
        acquired (itemKey item) s.log ++ [i] := by simp [acquirer]
    refine hi.did hnew (.inr ⟨rfl, hn⟩) ?_
      (.inl fun j _ => hout j) (fun h => absurd trivial h) (.inl rfl) (by rw [hp]; simp) (fun h => absurd (by simp) h)
    exact ⟨rfl, rfl, _, ⟨Mem.lock_take item s.mem _ hl, _, rfl, rfl⟩, hc.trans (hi.shut hout)⟩
  | busy i t q n hp hl =>
    have h := hi.here_of hp
    exact hi.did (by simp [acquirer]) (.inl rfl) h (.inr ⟨rfl, rfl, rfl, fun _ _ => rfl⟩)
      (fun _ hout => hi.shut fun j => by by_cases e : j = i <;> [simp [e, hp, Phase.inside]; exact hout j e])
      (.inl rfl) (by rw [hp]; simp) (fun _ => idle_denied _ _ _)
  | rest i t q n hp =>
    have h := hi.here_of hp
    exact hi.did (by simp [acquirer]) (.inl rfl) h (.inr ⟨rfl, rfl, rfl, fun _ _ => rfl⟩)
      (fun _ hout => hi.shut fun j => by by_cases e : j = i <;> [simp [e, hp, Phase.inside]; exact hout j e])
      (.inl rfl) (by rw [hp]; simp) (fun _ => idle_sleep _)
  | enter i t q hp =>
    obtain ⟨rfl, rfl, n, hturn, hc⟩ := hi.here_of hp
    refine hi.did (by simp [acquirer]) (.inl rfl) ⟨rfl, rfl, by simp, n, hturn, hc⟩
      (.inr ⟨rfl, rfl, rfl, fun j hj => by simp [hj]⟩) (fun h => absurd rfl h) (.inl rfl) (by rw [hp]; simp) ?_
    exact fun h => absurd (hi.holding (i := i) (by rw [hp]; trivial)).1 h
  | read i locked q hp =>
    obtain ⟨rfl, rfl, ht, n, hturn, hc⟩ := hi.here_of hp
    have hin := (hi.holding (i := i) (by rw [hp]; rfl)).1
    rw [read_count hc, Phase.read.compare]
    by_cases e : n < qty i
    · rw [if_pos e]
      have hleft : left n (qty i) = n := if_neg (by omega)
      refine hi.did (by simp [acquirer]) (.inl rfl) ⟨ht, n, by simp [buy, e], hturn, by rw [hleft]; exact hc⟩
        (.inr ⟨rfl, rfl, rfl, fun _ _ => rfl⟩) (fun h => absurd trivial h) (.inl rfl) (by rw [hp]; simp)
        (fun h => absurd hin h)
    · rw [if_neg e]
      exact hi.did (by simp [acquirer]) (.inl rfl) ⟨rfl, rfl, ht, by omega, hturn, hc⟩
        (.inr ⟨rfl, rfl, rfl, fun _ _ => rfl⟩) (fun h => absurd rfl h) (.inl rfl) (by rw [hp]; simp)
        (fun h => absurd hin h)
  | delay i locked q cur hp =>
    obtain ⟨rfl, rfl, ht, hq, hturn, hc⟩ := hi.here_of hp
    exact hi.did (by simp [acquirer]) (.inl rfl) ⟨rfl, ht, cur, hq, rfl, hturn, hc⟩
      (.inr ⟨rfl, rfl, rfl, fun _ _ => rfl⟩) (fun h => absurd rfl h) (.inl rfl) (by rw [hp]; simp)
      (fun h => absurd (hi.holding (i := i) (by rw [hp]; rfl)).1 h)
  | write i locked new hp =>
    obtain ⟨rfl, ht, n, hq, rfl, ⟨hl, hlast⟩, hc⟩ := hi.here_of hp
    have hinside : (s.ph i).inside := by rw [hp]; rfl
    have hcount : (s.mem.setStock item (py.str (n - qty i))).count py item = some (left n (qty i)) := by
      rw [left, if_pos hq]
      simp [Mem.count, py.int_str]
    refine hi.did (by simp [acquirer]) (.inl rfl) ⟨ht, n, by simp [buy, Int.not_lt.mpr hq], ⟨?_, hlast⟩, hcount⟩
      (.inl fun j hj => hi.alone htok hinside hj) (fun h => absurd trivial h) (.inl rfl) (by rw [hp]; simp)
      (fun h => absurd (hi.holding hinside).1 h)
    rw [Mem.lock_setStock]
    exact hl
  | exit i t r hp ht =>
    obtain ⟨ht', h⟩ := hi.here_of hp
    cases ht.symm.trans ht'
    exact hi.did (by simp [acquirer]) (.inl rfl) ⟨rfl, h⟩ (.inr ⟨rfl, rfl, rfl, fun _ _ => rfl⟩)
      (fun h => absurd trivial h) (.inl rfl) (by rw [hp]; simp)
      (fun h => absurd (hi.holding (i := i) (by rw [hp]; trivial)).1 h)
  | release i t r n hp hn =>
    obtain ⟨rfl, n, rfl, ⟨hl, before, hb, rfl⟩, hc⟩ := hi.here_of hp
    have hinside : (s.ph i).inside := by rw [hp]; trivial
    have hcount : (s.mem.release item (tok i)).count py item = s.mem.count py item := by
      unfold Mem.count; rw [Mem.stock_release]
    refine hi.did (by simp [acquirer]) (.inl rfl) ?_ (.inl fun j hj => hi.alone htok hinside hj) ?_
      (.inr ⟨_, rfl⟩) (by rw [hp]; simp) (fun h => absurd (hi.holding hinside).1 h)
    · show (i, _) ∈ sales qty n₀ _
      rw [hb, sales_snoc]
      exact List.mem_append_right _ (List.mem_singleton.mpr rfl)
    · intro _ _
      rw [hcount, hc, hb, stockAfter_snoc]
  | expire m hlock hnone hs ht => exact hi.moved hs ht (.inr fun i hin => hkept rfl i (hi.holding hin))
  | expireOther m resource hne hlock hs ht => exact hi.moved hs ht (.inl hlock)

/-! ## Serialisability -/

/-- The key does not run out under a call that holds it. -/
def KeyKept (item : String) (s : Serving ι) (e : Ev ι Unit World) : Prop :=
  e = .env (.expire ("inventory:" ++ item)) → ∀ i, ¬ Holding (itemKey item) s.log i

theorem inv_start {m : Mem ι} (hn : m.count py item = some n₀) :
    Inv py item tok qty n₀ ⟨m, fun i => .begin (.withLock (tok i) (qty i)), []⟩ where
  order := List.nodup_nil
  here _ := ⟨rfl, rfl, List.not_mem_nil⟩
  shut _ := hn
  gone _ h := absurd h List.not_mem_nil
  quiet _ _ _ _ h := absurd h List.not_mem_nil

theorem inv_of_reach (htok : Function.Injective tok) {m : Mem ι} (hn : m.count py item = some n₀)
    (h : ((shop py item).phases memory).Reach (fun t e => KeyKept item ((shop py item).threadsOf t) e)
      ⟨m, fun i => .begin (.withLock (tok i) (qty i)), []⟩ s) : Inv py item tok qty n₀ s := by
  refine h.invariant (P := Inv py item tok qty n₀) (inv_start hn) ?_
  intro s e s' hi hk hs
  apply hi.step htok (step_move _ _ hs)
  intro hlog
  cases e with
  | run i x =>
    obtain ⟨c, k, rm, -, -, rfl⟩ := Flow.step_run _ hs
    simp at hlog
  | env e =>
    obtain ⟨m', -, rfl⟩ := Flow.step_env _ hs
    simp only [Phases.moved_log, List.append_cancel_left_eq, List.cons.injEq, Entry.world.injEq, and_true] at hlog
    exact hk (by rw [hlog])

/-- What a purchase has taken from the stock, by its result. -/
def sold (p : Prog ι Reply) (q : Int) : Int :=
  match p with
  | .ret (some r) => if r.success then q else 0
  | _ => 0

theorem sum_sales [Fintype ι] (qty : ι → Int) (n₀ : Int) {order : List ι} (hord : order.Nodup) {g : ι → Int}
    (hin : ∀ i p, (i, p) ∈ sales qty n₀ order → g i = if p.success then qty i else 0)
    (hout : ∀ i, i ∉ order → g i = 0) :
    ((sales qty n₀ order).map fun s => if s.2.success then qty s.1 else 0).sum = ∑ i, g i := by
  have hmap : (sales qty n₀ order).map (fun s => if s.2.success then qty s.1 else 0) = order.map g := by
    conv_rhs => rw [← sales_fst qty n₀ order, List.map_map]
    exact List.map_congr_left fun s hs => (hin s.1 s.2 hs).symm
  rw [hmap, ← List.sum_toFinset g hord]
  exact Finset.sum_subset (Finset.subset_univ _) fun i _ hi => hout i (by simpa using hi)

/-- A call that returned was answered what the counter answers it. -/
theorem Inv.answered (hi : Inv py item tok qty n₀ s) {i : ι} {r : Reply}
    (hh : headOf py item i (s.ph i) = .ended (.ok r)) :
    ∃ p, r = some p ∧ (i, p) ∈ sales qty n₀ (acquired (itemKey item) s.log) := by
  have hloc := hi.here i
  revert hloc hh
  cases s.ph i with
  | ended r' =>
    intro hh hloc
    cases hh
    cases r with
    | none => exact hloc.elim
    | some p => exact ⟨p, rfl, hloc⟩
  | trying t q n => cases n <;> exact nofun
  | initing | resting | entering | reading | delaying | writing | exiting | releasing => exact nofun

/-- A call that raised gave up, and changed nothing. -/
theorem Inv.gave_up (hi : Inv py item tok qty n₀ s) {i : ι} {x : Exc}
    (hh : headOf py item i (s.ph i) = .ended (.error x)) :
    x = timeout item ∧ i ∉ acquired (itemKey item) s.log ∧ ∀ c r, .did i c r ∈ s.log → Idle c r := by
  have hloc := hi.here i
  have hq := hi.quiet i
  revert hloc hh
  cases s.ph i with
  | trying t q n =>
    intro hh hloc
    cases n with
    | zero =>
      cases hh
      exact ⟨rfl, hloc.2.2, hq hloc.2.2⟩
    | succ n => cases hh
  | ended r =>
    intro hh hloc
    cases hh
    exact hloc.elim
  | initing | resting | entering | reading | delaying | writing | exiting | releasing => exact nofun

/-- A call whose turn is over has ended with its sale. -/
theorem Inv.turn_over (hi : Inv py item tok qty n₀ s) {i : ι} {p : PurchaseResult}
    (hp : (i, p) ∈ sales qty n₀ (acquired (itemKey item) s.log)) (hout : ¬ Holding (itemKey item) s.log i) :
    s.ph i = .ended (.ok (some p)) := by
  have hrel : i ∈ released (itemKey item) s.log := by
    by_contra hn
    exact hout ⟨sales_mem qty hp, hn⟩
  obtain ⟨r, hr⟩ := hi.gone i hrel
  have hloc := hi.here i
  rw [hr] at hloc
  cases r with
  | error x => exact hloc.elim
  | ok r =>
    cases r with
    | none => exact hloc.elim
    | some p' =>
      have hnd : ((sales qty n₀ (acquired (itemKey item) s.log)).map Prod.fst).Nodup := by
        rw [sales_fst]
        exact hi.order
      have he : p' = p := (Prod.ext_iff.mp (List.inj_on_of_nodup_map hnd hloc hp rfl)).2
      rw [hr, he]

/-- A call is answered what the counter answers in the order of acquisition, a call
    that gives up changes nothing, and with nobody inside the stock is the counter's. -/
theorem locked_purchases_serial [Fintype ι] (htok : Function.Injective tok) {m : Mem ι}
    (hn : m.count py item = some n₀) {s : Serving ι}
    (h : (threads memory).Reach (KeyKept item)
      (start m fun i => serve py item i (.withLock (tok i) (qty i))) s) :
    let order := acquired (itemKey item) s.log
    order.Nodup ∧
      (∀ i r, s.thr i = .ret r → ∃ p, r = some p ∧ (i, p) ∈ sales qty n₀ order) ∧
      (∀ i x, s.thr i = .raise x → x = timeout item ∧ i ∉ order ∧ ∀ c r, .did i c r ∈ s.log → Idle c r) ∧
      ((∀ i, ¬ Holding (itemKey item) s.log i) →
        s.mem.count py item = some (stockAfter qty n₀ order) ∧
          n₀ = stockAfter qty n₀ order + ∑ i, sold (s.thr i) (qty i)) := by
  intro order
  rw [← shop_start] at h
  obtain ⟨t, ht, rfl⟩ := Flow.follows _ h
  have hi := inv_of_reach htok hn ht
  have hret : ∀ i r, codeOf py item i (t.ph i) = .ret r → ∃ p, r = some p ∧ (i, p) ∈ sales qty n₀ order :=
    fun i r hr => hi.answered (Flow.head_of_ret (shop py item) hr)
  refine ⟨hi.order, hret, fun i x hx => hi.gave_up (Flow.head_of_raise (shop py item) hx), ?_⟩
  intro hout
  refine ⟨hi.shut fun i hin => hout i (hi.holding hin), ?_⟩
  have hsum := sum_sales qty n₀ (g := fun i => sold (codeOf py item i (t.ph i)) (qty i)) hi.order ?_ ?_
  · show n₀ = stockAfter qty n₀ order + ∑ i, sold (codeOf py item i (t.ph i)) (qty i)
    rw [← hsum]
    exact stock_conserved qty n₀ order
  · intro i p hp
    simp only [hi.turn_over hp (hout i)]
    rfl
  · intro i hi'
    show sold (codeOf py item i (t.ph i)) (qty i) = 0
    unfold sold
    split
    · rename_i r hr
      obtain ⟨p, -, hp⟩ := hret i _ hr
      exact absurd (sales_mem qty hp) hi'
    · rfl

end Serial

/-! ## Two buyers of the last one -/

def twoBuyers : Serving Buyer :=
  start (stocked "1") fun i => serve IntText.decimal "x" i (.withLock (twoTokens i) 1)

/-- The second finds the lock taken, and tries again once the first has left. -/
def turnByTurn : List (Ev Buyer Unit World) :=
  .run .first () :: .run .second () :: List.replicate 6 (.run Buyer.first ()) ++ List.replicate 6 (.run Buyer.second ())

def bothServed : Serving Buyer := ((threads memory).run twoBuyers turnByTurn).get rfl

theorem two_buyers_serial :
    bothServed.thr .first = .ret (some ⟨true, "Purchase successful", 0⟩) ∧
      bothServed.thr .second = .ret (some ⟨false, "Out of stock", 0⟩) ∧
      bothServed.mem.count IntText.decimal "x" = some (stockAfter (fun _ => 1) 1 [Buyer.first, .second]) ∧
      1 = stockAfter (fun _ => 1) 1 [Buyer.first, .second] + ∑ i, sold (bothServed.thr i) 1 := by
  refine ⟨rfl, rfl, ?_⟩
  have hr : (threads memory).Reach (KeyKept "x") twoBuyers bothServed := by
    refine Machine.reach_of_run turnByTurn ?_ (Option.some_get _).symm
    intro s e he h
    subst h
    simp [turnByTurn] at he
  have hout : ∀ i, ¬ Holding (itemKey "x") bothServed.log i := by
    have hrel : released (itemKey "x") bothServed.log = [Buyer.first, .second] := rfl
    have hall : ∀ i : Buyer, i ∈ [Buyer.first, .second] := by decide
    exact fun i hi => hi.2 (hrel ▸ hall i)
  exact (locked_purchases_serial twoTokens_injective rfl hr).2.2.2 hout

end Playground.Lock
