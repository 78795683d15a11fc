/-
  Playground.Lock.Reinit — initialisations among locked purchases.

  `init_inventory` takes no lock: its `SET` may come between the `GET` and the `SET` of
  a purchase, which then overwrites it (`reinit_overwritten`). The others are never
  lost. `noted` reads the order off the log: a purchase at its `GET`, an initialisation
  at its `SET`, unless a purchase is about to write. As long as the lock key does not
  run out under a call that holds it, the calls are those of a plain counter in that
  order (`reinits_serial`).
-/

import Playground.Lib.Transducer
import Playground.Lock.Serial

namespace Playground.Lock

open Playground.Lib Playground.Redis

section Reinit

variable {ι : Type} (py : IntText) (item : String) (req : ι → Request)

/-! ## The counter and the order -/

/-- A plain counter serves a call when it stands at `n`. -/
def counter (n : Int) (i : ι) : Int × (ι × Reply) :=
  match req i with
  | .init stock => (stock, i, none)
  | .withLock _ q => (left n q, i, some (buy n q))
  | .withoutLock q => (left n q, i, some (buy n q))

/-- What it answers the calls of `order`, from `n` on, and where it stands then. -/
abbrev served (n : Int) (order : List ι) : List (ι × Reply) := replies (counter req) n order

abbrev countAfter (n : Int) (order : List ι) : Int := stateAfter (counter req) n order

/-- What the log comes to: the order of the calls, the initialisations that ran while a
    purchase was between its `GET` and its `SET`, and whether one is there now. -/
structure Noted (ι : Type) where
  order : List ι
  lost : List ι
  window : Bool

/-- The number a purchase reads. -/
def countOf (val : Option String) : Option Int :=
  match val with
  | none => some 0
  | some v => py.int v

/-- The only key that a request gets or sets is the stock's. -/
def note (n : Noted ι) : Entry ι (Cmd ι) Ans Exc World → Noted ι
  | .did i (.get _) (.ok val) =>
    { n with order := n.order ++ [i], window := (countOf py val).any fun cur => decide ((req i).quantity ≤ cur) }
  | .did i (.set ..) _ =>
    match req i with
    | .init _ => if n.window then { n with lost := n.lost ++ [i] } else { n with order := n.order ++ [i] }
    | _ => { n with window := false }
  | _ => n

def noted (log : Log ι ι) : Noted ι := log.foldl (note py req) ⟨[], [], false⟩

/-! ## Where the calls are in the log -/

/-- Not yet inside the lock. -/
def Phase.waiting : Phase → Prop
  | .trying .. => True
  | .resting .. => True
  | _ => False

variable [DecidableEq ι]

/-- What the log says of the calls at the lock. -/
structure Placed (s : St ι) : Prop where
  inside : ∀ i, (s.ph i).inside → i ∈ acquired (itemKey item) s.log
  gone : ∀ i ∈ released (itemKey item) s.log, ∃ r, s.ph i = .ended r
  waiting : ∀ i, (s.ph i).waiting → ∀ c r, .did i c r ∈ s.log → Idle c r

variable {py item req} {s s' : St ι}

theorem Placed.holding (h : Placed item s) {i : ι} (hin : (s.ph i).inside) : Holding (itemKey item) s.log i := by
  refine ⟨h.inside i hin, fun hrel => ?_⟩
  obtain ⟨r, hr⟩ := h.gone i hrel
  rw [hr] at hin
  exact hin

/-- What a step of call `i` has to show. -/
theorem Placed.did (h : Placed item s) {i : ι} {c : Cmd ι} {r : Except Exc (Ans c)} {m : Mem ι} {p : Phase}
    (hin : p.inside → i ∈ acquired (itemKey item) (s.log ++ [.did i c r]))
    (hrel : releaser (itemKey item) (.did i c r) = none ∨ ∃ r, p = .ended r) (hlive : ∀ r, s.ph i ≠ .ended r)
    (hwait : p.waiting → (s.ph i).waiting ∧ Idle c r) : Placed item (s.did i c r m p) := by
  refine ⟨fun j hj => ?_, fun j hj => ?_, fun j hj d q hd => ?_⟩ <;> simp only [Phases.did_log] at *
  · by_cases e : j = i
    · subst e
      exact hin (by simpa using hj)
    · rw [Phases.did_ph_ne _ _ _ _ _ _ e] at hj
      rw [acquired_snoc]
      exact List.mem_append_left _ (h.inside j hj)
  · rw [released_snoc, List.mem_append] at hj
    by_cases e : j = i
    · subst e
      rcases hj with hj | hj
      · obtain ⟨r, hr⟩ := h.gone j hj
        exact absurd hr (hlive r)
      · rcases hrel with hn | ⟨r, hr⟩
        · simp [hn] at hj
        · exact ⟨r, by simpa using hr⟩
    · rw [Phases.did_ph_ne _ _ _ _ _ _ e]
      refine h.gone j (hj.resolve_right fun hj => ?_)
      have hr : releaser (itemKey item) (.did i c r) = some j := by simpa using hj
      unfold releaser at hr
      split at hr
      · rename_i heq
        cases heq
        simp only [Option.ite_none_right_eq_some, Option.some.injEq] at hr
        exact e hr.2.symm
      · cases hr
  · by_cases e : j = i
    · subst e
      obtain ⟨hw, hidle⟩ := hwait (by simpa using hj)
      rcases List.mem_append.mp hd with hd | hd
      · exact h.waiting j hw d q hd
      · cases List.mem_singleton.mp hd
        exact hidle
    · rw [Phases.did_ph_ne _ _ _ _ _ _ e] at hj
      rcases List.mem_append.mp hd with hd | hd
      · exact h.waiting j hj d q hd
      · cases List.mem_singleton.mp hd
        exact absurd rfl e

theorem Placed.moved (h : Placed item s) (e : World) (m : Mem ι) : Placed item (s.moved e m) := by
  have hacq : acquired (itemKey item) (s.moved e m).log = acquired (itemKey item) s.log := by simp [acquirer]
  have hrel : released (itemKey item) (s.moved e m).log = released (itemKey item) s.log := by simp [releaser]
  refine ⟨by rw [hacq]; exact h.inside, by rw [hrel]; exact h.gone, fun i hw c r hd => h.waiting i hw c r ?_⟩
  simpa using hd

omit [DecidableEq ι] in
theorem leave_places (locked : Bool) (r : Except Exc PurchaseResult) :
    ((Phase.leave locked r).inside → locked = true) ∧ ¬ (Phase.leave locked r).waiting := by
  cases locked with
  | true => exact ⟨fun _ => rfl, id⟩
  | false => exact ⟨False.elim, id⟩

omit [DecidableEq ι] in
/-- A purchase that has read is in the lock if it was before, and not waiting. -/
theorem read_places (py : IntText) (locked : Bool) (q : Int) (val : Option String) :
    ((Phase.read py locked q val).inside → locked = true) ∧ ¬ (Phase.read py locked q val).waiting := by
  have hcompare : ∀ cur, ((Phase.read.compare locked q cur).inside → locked = true) ∧
      ¬ (Phase.read.compare locked q cur).waiting := by
    intro cur
    unfold Phase.read.compare
    split
    · exact leave_places ..
    · exact ⟨id, nofun⟩
  unfold Phase.read
  split
  · exact hcompare 0
  · split
    · exact hcompare _
    · exact leave_places ..

theorem Placed.step (h : Placed item s) (hm : Move py item s s') : Placed item s' := by
  have hkeep : ∀ {i : ι} {c : Cmd ι} {r : Except Exc (Ans c)}, (s.ph i).inside →
      i ∈ acquired (itemKey item) (s.log ++ [.did i c r]) := by
    intro i c r hin
    rw [acquired_snoc]
    exact List.mem_append_left _ (h.inside i hin)
  cases hm with
  | init i stock hp => exact h.did False.elim (.inl rfl) (by simp [hp]) False.elim
  | take i t q n hp hl =>
    refine h.did (fun _ => ?_) (.inl rfl) (by simp [hp]) False.elim
    simp [acquirer]
  | busy i t q n hp hl =>
    exact h.did False.elim (.inl rfl) (by simp [hp]) fun _ => ⟨by rw [hp]; trivial, idle_denied _ _ _⟩
  | rest i t q n hp => exact h.did False.elim (.inl rfl) (by simp [hp]) fun _ => ⟨by rw [hp]; trivial, idle_sleep _⟩
  | enter i t q hp => exact h.did (fun _ => hkeep (by rw [hp]; trivial)) (.inl rfl) (by simp [hp]) False.elim
  | read i locked q hp =>
    obtain ⟨hin, hwait⟩ := read_places py locked q (s.mem.stock item)
    exact h.did (fun hi => hkeep (by rw [hp]; exact hin hi)) (.inl rfl) (by simp [hp]) fun hw => absurd hw hwait
  | delay i locked q cur hp => exact h.did (fun hi => hkeep (by rw [hp]; exact hi)) (.inl rfl) (by simp [hp]) False.elim
  | write i locked new hp =>
    obtain ⟨hin, hwait⟩ := leave_places locked (.ok ⟨true, "Purchase successful", new⟩)
    exact h.did (fun hi => hkeep (by rw [hp]; exact hin hi)) (.inl rfl) (by simp [hp]) fun hw => absurd hw hwait
  | exit i t r hp ht => exact h.did (fun _ => hkeep (by rw [hp]; trivial)) (.inl rfl) (by simp [hp]) False.elim
  | exitBare i r hp ht => exact h.did False.elim (.inl rfl) (by simp [hp]) False.elim
  | release i t r n hp hn => exact h.did False.elim (.inr ⟨_, rfl⟩) (by simp [hp]) False.elim
  | expire m hlock hnone hs ht => exact h.moved ..
  | expireOther m resource hne hlock hs ht => exact h.moved ..

/-! ## The invariant -/

section Local

variable (item req) (n₀ : Int)

/-- Between the `GET` and the `SET` of a locked purchase. -/
def Phase.between : Phase → Prop
  | .delaying locked .. => locked = true
  | .writing locked _ => locked = true
  | _ => False

/-- Call `i` is inside the lock, with its own token. -/
def Owns (m : Mem ι) (i : ι) (t : Token) (q : Int) : Prop := req i = .withLock t q ∧ m.lock item = some t.1

/-- The newest call in the order is `i`, and the counter stood at `n` when its turn came. -/
def Newest (order : List ι) (i : ι) (n : Int) : Prop := ∃ before, order = before ++ [i] ∧ countAfter req n₀ before = n

/-- What is known of call `i` in its phase. -/
def Serves (m : Mem ι) (n : Noted ι) (i : ι) : Phase → Prop
  | .initing stock => req i = .init stock ∧ i ∉ n.order
  | .trying t q _ => req i = .withLock t q ∧ i ∉ n.order
  | .resting t q _ => req i = .withLock t q ∧ i ∉ n.order
  | .entering t q => Owns item req m i t q ∧ i ∉ n.order
  | .reading locked q => locked = true ∧ i ∉ n.order ∧ ∃ t, Owns item req m i t q ∧ m.token i = some t
  | .delaying locked q cur => locked = true ∧ n.window = true ∧ Newest req n₀ n.order i cur ∧ q ≤ cur ∧
      ∃ t, Owns item req m i t q ∧ m.token i = some t
  | .writing locked new => locked = true ∧ n.window = true ∧ ∃ t q cur, Newest req n₀ n.order i cur ∧ q ≤ cur ∧
      new = cur - q ∧ Owns item req m i t q ∧ m.token i = some t
  | .exiting r => ∃ t q p, r = .ok p ∧ (i, some p) ∈ served req n₀ n.order ∧ Owns item req m i t q ∧ m.token i = some t
  | .releasing t r => ∃ q p, r = .ok p ∧ (i, some p) ∈ served req n₀ n.order ∧ Owns item req m i t q
  | .ended (.ok (some p)) => (i, some p) ∈ served req n₀ n.order ∧ ∃ t q, req i = .withLock t q
  | .ended (.ok none) => (i ∈ n.order ∨ i ∈ n.lost) ∧ ∃ stock, req i = .init stock
  | .ended (.error _) => False

end Local

variable {n₀ : Int} {m m' : Mem ι} {n n' : Noted ι} {i j : ι} {p : Phase}

omit [DecidableEq ι] in
theorem Serves.owns (h : Serves item req n₀ m n i p) (hin : p.inside) : ∃ t q, Owns item req m i t q := by
  cases p with
  | entering t q => exact ⟨t, q, h.1⟩
  | reading locked q => exact ⟨_, q, h.2.2.choose_spec.1⟩
  | delaying locked q cur => exact ⟨_, q, h.2.2.2.2.choose_spec.1⟩
  | writing locked new =>
    obtain ⟨-, -, t, q, -, -, -, -, ho, -⟩ := h
    exact ⟨t, q, ho⟩
  | exiting r =>
    obtain ⟨t, q, -, -, -, ho, -⟩ := h
    exact ⟨t, q, ho⟩
  | releasing t r =>
    obtain ⟨q, -, -, -, ho⟩ := h
    exact ⟨t, q, ho⟩
  | initing | trying | resting | ended => cases hin

omit [DecidableEq ι] in
/-- A call that does not move keeps its place: the others only add to the order, and to
    nothing that it is inside of. -/
theorem Serves.other (h : Serves item req n₀ m n i p)
    (horder : n'.order = n.order ∨ n'.order = n.order ++ [j] ∧ j ≠ i) (hlost : ∀ k ∈ n.lost, k ∈ n'.lost)
    (hin : p.inside → m'.lock item = m.lock item ∧ m'.token i = m.token i)
    (hbetween : p.between → n'.order = n.order ∧ n'.window = n.window) : Serves item req n₀ m' n' i p := by
  have hnot : i ∉ n.order → i ∉ n'.order := by
    intro hi
    rcases horder with he | ⟨he, hj⟩
    · rwa [he]
    · rw [he, List.mem_append, not_or, List.mem_singleton]
      exact ⟨hi, fun e => hj e.symm⟩
  have hserved : ∀ {r}, (i, r) ∈ served req n₀ n.order → (i, r) ∈ served req n₀ n'.order := by
    intro r hr
    rcases horder with he | ⟨he, -⟩
    · rwa [he]
    · rw [he, served, replies_snoc]
      exact List.mem_append_left _ hr
  have howns : ∀ {t q}, p.inside → Owns item req m i t q → Owns item req m' i t q :=
    fun hp ho => ⟨ho.1, (hin hp).1.trans ho.2⟩
  cases p with
  | initing stock => exact ⟨h.1, hnot h.2⟩
  | trying t q k => exact ⟨h.1, hnot h.2⟩
  | resting t q k => exact ⟨h.1, hnot h.2⟩
  | entering t q => exact ⟨howns trivial h.1, hnot h.2⟩
  | reading locked q =>
    obtain ⟨hl, hi, t, ho, ht⟩ := h
    exact ⟨hl, hnot hi, t, howns hl ho, (hin hl).2.trans ht⟩
  | delaying locked q cur =>
    obtain ⟨hl, hw, hnew, hq, t, ho, ht⟩ := h
    obtain ⟨heo, hew⟩ := hbetween hl
    exact ⟨hl, hew.trans hw, heo ▸ hnew, hq, t, howns hl ho, (hin hl).2.trans ht⟩
  | writing locked new =>
    obtain ⟨hl, hw, t, q, cur, hnew, hq, hc, ho, ht⟩ := h
    obtain ⟨heo, hew⟩ := hbetween hl
    exact ⟨hl, hew.trans hw, t, q, cur, heo ▸ hnew, hq, hc, howns hl ho, (hin hl).2.trans ht⟩
  | exiting r =>
    obtain ⟨t, q, p, hr, hs, ho, ht⟩ := h
    exact ⟨t, q, p, hr, hserved hs, howns trivial ho, (hin trivial).2.trans ht⟩
  | releasing t r =>
    obtain ⟨q, p, hr, hs, ho⟩ := h
    exact ⟨q, p, hr, hserved hs, howns trivial ho⟩
  | ended r =>
    cases r with
    | error x => exact h
    | ok r =>
      cases r with
      | some p => exact ⟨hserved h.1, h.2⟩
      | none =>
        refine ⟨?_, h.2⟩
        rcases h.1 with hi | hi
        · rcases horder with he | ⟨he, -⟩
          · exact .inl (he ▸ hi)
          · exact .inl (he ▸ List.mem_append_left _ hi)
        · exact .inr (hlost i hi)

variable (py item req n₀) in
structure Reinits (s : St ι) : Prop where
  nodup : (noted py req s.log).order.Nodup
  one : ∀ i j, (s.ph i).inside → (s.ph j).inside → i = j
  here : ∀ i, Serves item req n₀ s.mem (noted py req s.log) i (s.ph i)
  /-- With no purchase about to write, the stock is the counter's. -/
  shut : (noted py req s.log).window = false →
    s.mem.count py item = some (countAfter req n₀ (noted py req s.log).order)
  opened : (noted py req s.log).window = true → ∃ i, (s.ph i).between

omit [DecidableEq ι] in
theorem Reinits.here_of (h : Reinits py item req n₀ s) (hp : s.ph i = p) :
    Serves item req n₀ s.mem (noted py req s.log) i p :=
  hp ▸ h.here i

omit [DecidableEq ι] in
theorem noted_snoc (log : Log ι ι) (e : Entry ι (Cmd ι) Ans Exc World) :
    noted py req (log ++ [e]) = note py req (noted py req log) e := by
  rw [noted, List.foldl_append]
  rfl

omit [DecidableEq ι] in
theorem Phase.between_inside {p : Phase} (h : p.between) : p.inside := by
  cases p <;> first | exact h | cases h

omit [DecidableEq ι] in
theorem countAfter_snoc (order : List ι) (i : ι) :
    countAfter req n₀ (order ++ [i]) = (counter req (countAfter req n₀ order) i).1 := stateAfter_snoc ..

omit [DecidableEq ι] in
theorem served_snoc (order : List ι) (i : ι) :
    served req n₀ (order ++ [i]) = served req n₀ order ++ [(counter req (countAfter req n₀ order) i).2] :=
  replies_snoc ..

section Notes

variable {key v : String} {val : Option String} {x : Except Exc Unit}

omit [DecidableEq ι] in
theorem note_lost {stock : Int} (hr : req i = .init stock) (hw : n.window = true) :
    note py req n (.did i (.set key v) x) = { n with lost := n.lost ++ [i] } := by
  simp only [note, hr, hw, if_true]

omit [DecidableEq ι] in
theorem note_init {stock : Int} (hr : req i = .init stock) (hw : n.window = false) :
    note py req n (.did i (.set key v) x) = { n with order := n.order ++ [i] } := by
  simp only [note, hr, hw, Bool.false_eq_true, if_false]

omit [DecidableEq ι] in
theorem note_write {t : Token} {q : Int} (hr : req i = .withLock t q) :
    note py req n (.did i (.set key v) x) = { n with window := false } := by
  simp only [note, hr]

omit [DecidableEq ι] in
theorem note_read {cur q : Int} (hq : (req i).quantity = q) (hc : countOf py val = some cur) :
    note py req n (.did i (.get key) (.ok val)) = { n with order := n.order ++ [i], window := decide (q ≤ cur) } := by
  simp only [note, hq, hc, Option.any_some]

end Notes

omit [DecidableEq ι] in
theorem Reinits.alone (h : Reinits py item req n₀ s) (hin : (s.ph i).inside) (hj : j ≠ i) : ¬ (s.ph j).inside :=
  fun hjn => hj (h.one j i hjn hin)

omit [DecidableEq ι] in
theorem Reinits.free (h : Reinits py item req n₀ s) (hl : s.mem.lock item = none) (i : ι) : ¬ (s.ph i).inside := by
  intro hin
  obtain ⟨t, q, -, hown⟩ := (h.here i).owns hin
  cases hl.symm.trans hown

omit [DecidableEq ι] in
/-- The purchase that is about to write is the one inside. -/
theorem Reinits.closed (h : Reinits py item req n₀ s) (hin : (s.ph i).inside)
    (hb : ¬ (s.ph i).between) : (noted py req s.log).window = false := by
  rw [← Bool.not_eq_true]
  intro hw
  obtain ⟨j, hj⟩ := h.opened hw
  by_cases e : j = i
  · subst e
    exact hb hj
  · exact h.alone hin e (Phase.between_inside hj)

omit [DecidableEq ι] in
theorem Serves.window (h : Serves item req n₀ m n i p) (hb : p.between) : n.window = true := by
  cases p with
  | delaying locked q cur => exact h.2.1
  | writing locked new => exact h.2.1
  | initing | trying | resting | entering | reading | exiting | releasing | ended => cases hb

/-- What a step of call `i` has to show. -/
theorem Reinits.did (h : Reinits py item req n₀ s) {c : Cmd ι} {r : Except Exc (Ans c)}
    (hn : note py req (noted py req s.log) (.did i c r) = n')
    (horder : n'.order = (noted py req s.log).order ∨
      n'.order = (noted py req s.log).order ++ [i] ∧ i ∉ (noted py req s.log).order)
    (hlost : ∀ k ∈ (noted py req s.log).lost, k ∈ n'.lost) (hp : Serves item req n₀ m n' i p)
    (hone : p.inside → ∀ j, j ≠ i → ¬ (s.ph j).inside)
    (hin : ∀ j, j ≠ i → (s.ph j).inside → m.lock item = s.mem.lock item ∧ m.token j = s.mem.token j)
    (hbetween : ∀ j, j ≠ i → (s.ph j).between →
      n'.order = (noted py req s.log).order ∧ n'.window = (noted py req s.log).window)
    (hshut : n'.window = false → m.count py item = some (countAfter req n₀ n'.order))
    (hopened : n'.window = true → p.between ∨ ∃ j, j ≠ i ∧ (s.ph j).between) :
    Reinits py item req n₀ (s.did i c r m p) := by
  have hlog : noted py req (s.did i c r m p).log = n' := by rw [Phases.did_log, noted_snoc, hn]
  constructor
  case nodup =>
    rw [hlog]
    rcases horder with he | ⟨he, hi⟩
    · exact he ▸ h.nodup
    · rw [he]
      exact List.nodup_append.mpr ⟨h.nodup, List.nodup_singleton _, fun a ha b hb => by
        rw [List.mem_singleton.mp hb]; rintro rfl; exact hi ha⟩
  case one =>
    intro a b ha hb
    by_cases ea : a = i <;> by_cases eb : b = i
    · rw [ea, eb]
    · subst ea
      rw [Phases.did_ph_same] at ha
      rw [Phases.did_ph_ne _ _ _ _ _ _ eb] at hb
      exact absurd hb (hone ha b eb)
    · subst eb
      rw [Phases.did_ph_same] at hb
      rw [Phases.did_ph_ne _ _ _ _ _ _ ea] at ha
      exact absurd ha (hone hb a ea)
    · rw [Phases.did_ph_ne _ _ _ _ _ _ ea] at ha
      rw [Phases.did_ph_ne _ _ _ _ _ _ eb] at hb
      exact h.one a b ha hb
  case here =>
    intro j
    rw [hlog]
    by_cases e : j = i
    · subst e
      simpa using hp
    · rw [Phases.did_ph_ne _ _ _ _ _ _ e]
      refine (h.here j).other (j := i) ?_ hlost (hin j e) (hbetween j e)
      rcases horder with he | ⟨he, -⟩
      · exact .inl he
      · exact .inr ⟨he, Ne.symm e⟩
  case shut =>
    rw [hlog]
    exact hshut
  case opened =>
    rw [hlog]
    intro hw
    rcases hopened hw with hb | ⟨j, hj, hb⟩
    · exact ⟨i, by simpa using hb⟩
    · exact ⟨j, by simpa [hj] using hb⟩

/-- A step that is not noted. -/
theorem Reinits.unnoted (h : Reinits py item req n₀ s) {c : Cmd ι} {r : Except Exc (Ans c)}
    (hn : note py req (noted py req s.log) (.did i c r) = noted py req s.log)
    (hp : Serves item req n₀ m (noted py req s.log) i p) (hs : m.stock item = s.mem.stock item)
    (hone : p.inside → (s.ph i).inside ∨ s.mem.lock item = none)
    (hin : ∀ j, j ≠ i → (s.ph j).inside → m.lock item = s.mem.lock item ∧ m.token j = s.mem.token j)
    (hb : (s.ph i).between → p.between) : Reinits py item req n₀ (s.did i c r m p) := by
  have hcount : m.count py item = s.mem.count py item := by unfold Mem.count; rw [hs]
  refine h.did hn (.inl rfl) (fun _ hk => hk) hp ?_ hin (fun _ _ _ => ⟨rfl, rfl⟩) ?_ ?_
  · intro hpi j hj
    rcases hone hpi with hi | hnone
    · exact h.alone hi hj
    · exact h.free hnone j
  · intro hw
    rw [hcount]
    exact h.shut hw
  · intro hw
    obtain ⟨j, hj⟩ := h.opened hw
    by_cases e : j = i
    · subst e
      exact .inl (hb hj)
    · exact .inr ⟨j, e, hj⟩

omit [DecidableEq ι] in
theorem Reinits.moved (h : Reinits py item req n₀ s) {e : World} (hs : m.stock item = s.mem.stock item)
    (ht : m.token = s.mem.token) (hl : m.lock item = s.mem.lock item ∨ ∀ i, ¬ (s.ph i).inside) :
    Reinits py item req n₀ (s.moved e m) := by
  have hcount : m.count py item = s.mem.count py item := by unfold Mem.count; rw [hs]
  have hlog : noted py req (s.moved e m).log = noted py req s.log := by rw [Phases.moved_log, noted_snoc]; rfl
  refine ⟨?_, h.one, fun j => ?_, ?_, ?_⟩ <;> rw [hlog]
  · exact h.nodup
  · refine (h.here j).other (j := j) (.inl rfl) (fun _ hk => hk) (fun hin => ?_) fun _ => ⟨rfl, rfl⟩
    rcases hl with hl | hout
    · exact ⟨hl, congrFun ht j⟩
    · exact absurd hin (hout j)
  · intro hw
    show m.count py item = _
    rw [hcount]
    exact h.shut hw
  · exact h.opened

/-- The `SET` of an initialisation. -/
theorem Reinits.init (h : Reinits py item req n₀ s) {stock : Int} (hp : s.ph i = .initing stock) :
    Reinits py item req n₀ (s.did i (.set (stockKey item) (py.str stock)) (.ok ())
      (s.mem.setStock item (py.str stock)) (.ended (.ok none))) := by
  have hi := h.here i
  rw [hp] at hi
  obtain ⟨hr, hnot⟩ := hi
  have hin : ∀ j, j ≠ i → (s.ph j).inside → (s.mem.setStock item (py.str stock)).lock item = s.mem.lock item ∧
      (s.mem.setStock item (py.str stock)).token j = s.mem.token j := fun j _ _ => ⟨Mem.lock_setStock .., rfl⟩
  have hlast : ∀ l : List ι, i ∈ l ++ [i] := fun l => List.mem_append_right _ (List.mem_singleton.mpr rfl)
  cases hw : (noted py req s.log).window with
  | true =>
    refine h.did (note_lost hr hw) (.inl rfl) (fun _ hk => List.mem_append_left _ hk) ⟨.inr (hlast _), stock, hr⟩ nofun
      hin (fun _ _ _ => ⟨rfl, rfl⟩) (fun hf => nomatch hw.symm.trans hf) fun _ => ?_
    obtain ⟨j, hj⟩ := h.opened hw
    refine .inr ⟨j, ?_, hj⟩
    rintro rfl
    rw [hp] at hj
    exact hj
  | false =>
    refine h.did (note_init hr hw) (.inr ⟨rfl, hnot⟩) (fun _ hk => hk) ⟨.inl (hlast _), stock, hr⟩ nofun hin ?_ ?_
      fun ht => nomatch hw.symm.trans ht
    · intro j _ hb
      cases hw.symm.trans ((h.here j).window hb)
    · intro _
      have hcount : (s.mem.setStock item (py.str stock)).count py item = some stock := by
        simp [Mem.count, py.int_str]
      rw [hcount, countAfter_snoc, counter, hr]

/-- The `GET` of a purchase: its turn comes. -/
theorem Reinits.read (h : Reinits py item req n₀ s) {locked : Bool} {q : Int}
    (hp : s.ph i = .reading locked q) :
    Reinits py item req n₀ (s.did i (.get (stockKey item)) (.ok (s.mem.stock item)) s.mem
      (.read py locked q (s.mem.stock item))) := by
  have hi := h.here i
  rw [hp] at hi
  obtain ⟨rfl, hnot, t, ho, ht⟩ := hi
  have hinside : (s.ph i).inside := by rw [hp]; rfl
  have hothers : ∀ j, j ≠ i → ¬ (s.ph j).inside := fun j hj => h.alone hinside hj
  obtain ⟨cur, hcur⟩ : ∃ cur, countAfter req n₀ (noted py req s.log).order = cur := ⟨_, rfl⟩
  have hc : s.mem.count py item = some cur := by
    rw [← hcur]
    exact h.shut (h.closed hinside (by rw [hp]; exact id))
  have hturn : counter req cur i = (left cur q, i, some (buy cur q)) := by rw [counter, ho.1]
  have hquantity : (req i).quantity = q := by rw [ho.1]; rfl
  rw [read_count hc, Phase.read.compare]
  by_cases e : cur < q
  · rw [if_pos e]
    refine h.did (note_read hquantity hc) (.inr ⟨rfl, hnot⟩) (fun _ hk => hk) ?_ (fun _ => hothers)
      (fun _ _ _ => ⟨rfl, rfl⟩) (fun j hj hb => absurd (Phase.between_inside hb) (hothers j hj)) ?_ ?_
    · refine ⟨t, q, _, rfl, ?_, ho, ht⟩
      rw [served_snoc, hcur, hturn, buy, if_pos e]
      exact List.mem_append_right _ (List.mem_singleton.mpr rfl)
    · intro _
      have hleft : left cur q = cur := if_neg (by omega)
      rw [hc, countAfter_snoc, hcur, hturn, hleft]
    · intro hw
      have hle : q ≤ cur := of_decide_eq_true hw
      omega
  · rw [if_neg e]
    have hle : q ≤ cur := by omega
    refine h.did (note_read hquantity hc) (.inr ⟨rfl, hnot⟩) (fun _ hk => hk) ?_ (fun _ => hothers)
      (fun _ _ _ => ⟨rfl, rfl⟩) (fun j hj hb => absurd (Phase.between_inside hb) (hothers j hj)) ?_ fun _ => .inl rfl
    · exact ⟨rfl, decide_eq_true hle, ⟨_, rfl, hcur⟩, hle, t, ho, ht⟩
    · intro hw
      exact absurd hle (of_decide_eq_false hw)

/-- The `SET` of a purchase. -/
theorem Reinits.write (h : Reinits py item req n₀ s) {locked : Bool} {new : Int}
    (hp : s.ph i = .writing locked new) :
    Reinits py item req n₀ (s.did i (.set (stockKey item) (py.str new)) (.ok ())
      (s.mem.setStock item (py.str new)) (.leave locked (.ok ⟨true, "Purchase successful", new⟩))) := by
  have hi := h.here i
  rw [hp] at hi
  obtain ⟨rfl, -, t, q, cur, ⟨before, hb, hcur⟩, hq, rfl, ho, ht⟩ := hi
  have hinside : (s.ph i).inside := by rw [hp]; rfl
  have hothers : ∀ j, j ≠ i → ¬ (s.ph j).inside := fun j hj => h.alone hinside hj
  have hturn : counter req (countAfter req n₀ before) i =
      (cur - q, i, some ⟨true, "Purchase successful", cur - q⟩) := by
    rw [hcur, counter, ho.1]
    simp only [left, buy, if_pos hq, if_neg (Int.not_lt.mpr hq)]
  refine h.did (note_write ho.1) (.inl rfl) (fun _ hk => hk) ?_ (fun _ => hothers)
    (fun j hj hjn => absurd hjn (hothers j hj))
    (fun j hj hbt => absurd (Phase.between_inside hbt) (hothers j hj)) ?_ (fun h => Bool.noConfusion h)
  · refine ⟨t, q, _, rfl, ?_, ⟨ho.1, (Mem.lock_setStock ..).trans ho.2⟩, ht⟩
    show (i, _) ∈ served req n₀ (noted py req s.log).order
    rw [hb, served_snoc, hturn]
    exact List.mem_append_right _ (List.mem_singleton.mpr rfl)
  · intro _
    show _ = some (countAfter req n₀ (noted py req s.log).order)
    rw [hb, countAfter_snoc, hturn]
    simp [Mem.count, py.int_str]

/-- Every step keeps the invariant, unless the lock key runs out under a call. -/
theorem Reinits.step (h : Reinits py item req n₀ s) (hm : Move py item s s')
    (hkept : s'.log = s.log ++ [.world (.expire ("inventory:" ++ item))] → ∀ i, ¬ (s.ph i).inside) :
    Reinits py item req n₀ s' := by
  cases hm with
  | init i stock hp => exact h.init hp
  | take i t q k hp hl =>
    have hi := h.here_of hp
    exact h.unnoted rfl ⟨⟨hi.1, Mem.lock_take item s.mem t hl⟩, hi.2⟩ (Mem.stock_take item s.mem t) (fun _ => .inr hl)
      (fun j _ hj => absurd hj (h.free hl j)) (by rw [hp]; exact id)
  | busy i t q k hp hl =>
    have hi := h.here_of hp
    exact h.unnoted rfl hi rfl nofun (fun _ _ _ => ⟨rfl, rfl⟩) (by rw [hp]; exact id)
  | rest i t q k hp =>
    have hi := h.here_of hp
    exact h.unnoted rfl hi rfl nofun (fun _ _ _ => ⟨rfl, rfl⟩) (by rw [hp]; exact id)
  | enter i t q hp =>
    have hi := h.here_of hp
    exact h.unnoted rfl ⟨rfl, hi.2, t, hi.1, by simp⟩ rfl (fun _ => .inl (by rw [hp]; trivial))
      (fun j hj _ => ⟨rfl, by simp [hj]⟩) (by rw [hp]; exact id)
  | read i locked q hp => exact h.read hp
  | delay i locked q cur hp =>
    obtain ⟨hl, hw, hnew, hq, t, ho, ht⟩ := h.here_of hp
    exact h.unnoted rfl ⟨hl, hw, t, q, cur, hnew, hq, rfl, ho, ht⟩ rfl (fun _ => .inl (by rw [hp]; exact hl))
      (fun _ _ _ => ⟨rfl, rfl⟩) (by rw [hp]; exact id)
  | write i locked new hp => exact h.write hp
  | exit i t r hp ht =>
    obtain ⟨t', q, p, hr, hs, ho, ht'⟩ := h.here_of hp
    cases ht.symm.trans ht'
    exact h.unnoted rfl ⟨q, p, hr, hs, ho⟩ rfl (fun _ => .inl (by rw [hp]; trivial)) (fun _ _ _ => ⟨rfl, rfl⟩)
      (by rw [hp]; exact id)
  | exitBare i r hp ht =>
    obtain ⟨t', q, p, hr, hs, ho, ht'⟩ := h.here_of hp
    cases ht.symm.trans ht'
  | release i t r k hp hk =>
    obtain ⟨q, p, rfl, hs, ho⟩ := h.here_of hp
    have hinside : (s.ph i).inside := by rw [hp]; trivial
    exact h.unnoted rfl ⟨hs, t, q, ho.1⟩ (Mem.stock_release item s.mem t) nofun
      (fun j hj hjn => absurd hjn (h.alone hinside hj)) (by rw [hp]; exact id)
  | expire m hlock hnone hs ht => exact h.moved hs ht (.inr (hkept rfl))
  | expireOther m resource hne hlock hs ht => exact h.moved hs ht (.inl hlock)

/-! ## Serialisability -/

/-- A purchase between its `GET` and its `SET`: it awaits its delay or the `SET`. -/
def AboutToWrite (item : String) (r : Request) (p : Prog ι Reply) : Prop :=
  (∃ t q, r = .withLock t q) ∧ (p.next = some (.sleep 10) ∨ ∃ v, p.next = some (.set (stockKey item) v))

omit [DecidableEq ι] in
theorem mem_served_init {order : List ι} {stock : Int} (hi : i ∈ order) (hr : req i = .init stock) :
    (i, none) ∈ served req n₀ order := by
  induction order using List.reverseRecOn with
  | nil => cases hi
  | append_singleton order j ih =>
    rw [served_snoc]
    rcases List.mem_append.mp hi with hi | hi
    · exact List.mem_append_left _ (ih hi)
    · cases List.mem_singleton.mp hi
      rw [counter, hr]
      exact List.mem_append_right _ (List.mem_singleton.mpr rfl)

omit [DecidableEq ι] in
/-- A call that returned has its place in the order, or is a lost initialisation. -/
theorem Serves.answered {r : Reply} (h : Serves item req n₀ m n i p) (hh : headOf py item i p = .ended (.ok r)) :
    (i, r) ∈ served req n₀ n.order ∨ r = none ∧ i ∈ n.lost := by
  cases p with
  | ended r' =>
    cases hh
    cases r with
    | some p => exact .inl h.1
    | none =>
      obtain ⟨hi, stock, hr⟩ := h
      exact hi.imp (fun hi => mem_served_init hi hr) fun hi => ⟨rfl, hi⟩
  | trying t q k => cases k <;> cases hh
  | initing | resting | entering | reading | delaying | writing | exiting | releasing => cases hh

omit [DecidableEq ι] in
theorem Serves.gave_up {x : Exc} (h : Serves item req n₀ m n i p) (hh : headOf py item i p = .ended (.error x)) :
    x = timeout item ∧ i ∉ n.order ∧ p.waiting := by
  cases p with
  | ended r =>
    cases hh
    exact h.elim
  | trying t q k =>
    cases k with
    | zero => cases hh; exact ⟨rfl, h.2, trivial⟩
    | succ k => cases hh
  | initing | resting | entering | reading | delaying | writing | exiting | releasing => cases hh

omit [DecidableEq ι] in
/-- The phases of a purchase that is about to write. -/
theorem Serves.about_to_write (h : Serves item req n₀ m n i p) :
    AboutToWrite item (req i) (codeOf py item i p) ↔ p.between := by
  have hnext : (codeOf py item i p).next = (shop py item).next i p := (shop py item).next_code i p
  rw [AboutToWrite, hnext, Flow.next]
  cases p with
  | delaying locked q cur =>
    obtain ⟨hl, -, -, -, t, ho, -⟩ := h
    exact ⟨fun _ => hl, fun _ => ⟨⟨t, q, ho.1⟩, .inl rfl⟩⟩
  | writing locked new =>
    obtain ⟨hl, -, t, q, -, -, -, -, ho, -⟩ := h
    exact ⟨fun _ => hl, fun _ => ⟨⟨t, q, ho.1⟩, .inr ⟨_, rfl⟩⟩⟩
  | initing stock =>
    refine ⟨?_, False.elim⟩
    rintro ⟨⟨t, q, hr⟩, -⟩
    cases h.1.symm.trans hr
  | trying t q k => cases k <;> simp [shop, headOf, Phase.between]
  | resting | entering | reading | exiting | releasing | ended => simp [shop, headOf, Phase.between]

/-- The calls are served in the order that the log comes to: a purchase at its `GET`, an
    initialisation at its `SET`. Each is answered what the counter answers it, but for
    the initialisations that ran while a purchase was about to write, which are lost; a
    call that gives up changes nothing. With no purchase about to write, the stock is
    the counter's. -/
theorem reinits_serial (hkind : ∀ i q, req i ≠ .withoutLock q) {m : Mem ι} (hn : m.count py item = some n₀)
    {s : Serving ι}
    (h : (threads memory).Reach (KeyKept item) (start m fun i => serve py item i (req i)) s) :
    let n := noted py req s.log
    n.order.Nodup ∧
      (∀ i r, s.thr i = .ret r → (i, r) ∈ served req n₀ n.order ∨ r = none ∧ i ∈ n.lost) ∧
      (∀ i x, s.thr i = .raise x → x = timeout item ∧ i ∉ n.order ∧ ∀ c r, .did i c r ∈ s.log → Idle c r) ∧
      (n.window = false → s.mem.count py item = some (countAfter req n₀ n.order)) ∧
      (n.window = true ↔ ∃ i, AboutToWrite item (req i) (s.thr i)) := by
  intro n
  rw [← shop_start] at h
  obtain ⟨t, ht, rfl⟩ := Flow.follows _ h
  have hboth : Placed item t ∧ Reinits py item req n₀ t := by
    refine ht.invariant (P := fun t => Placed item t ∧ Reinits py item req n₀ t) ⟨?_, ?_⟩ ?_
    · refine ⟨fun i hin => ?_, nofun, fun i _ c r hd => nomatch hd⟩
      change (Phase.begin (req i)).inside at hin
      cases hr : req i <;> rw [hr] at hin <;> cases hin
    · refine ⟨List.nodup_nil, fun i j hin => ?_, fun i => ?_, fun _ => hn, nofun⟩
      · change (Phase.begin (req i)).inside at hin
        cases hr : req i <;> rw [hr] at hin <;> cases hin
      show Serves item req n₀ m ⟨[], [], false⟩ i (.begin (req i))
      cases hr : req i with
      | init stock => exact ⟨hr, List.not_mem_nil⟩
      | withLock t q => exact ⟨hr, List.not_mem_nil⟩
      | withoutLock q => exact absurd hr (hkind i q)
    · rintro s e s' ⟨hp, hi⟩ hk hs
      refine ⟨hp.step (step_move _ _ hs), hi.step (step_move _ _ hs) fun hlog i hin => ?_⟩
      cases e with
      | run j x =>
        obtain ⟨c, k, rm, -, -, rfl⟩ := Flow.step_run _ hs
        simp at hlog
      | env e =>
        obtain ⟨m', -, rfl⟩ := Flow.step_env _ hs
        simp only [Phases.moved_log, List.append_cancel_left_eq, List.cons.injEq, Entry.world.injEq, and_true] at hlog
        exact hk (by rw [hlog]) i (hp.holding hin)
  obtain ⟨hp, hi⟩ := hboth
  refine ⟨hi.nodup, fun i r hr => (hi.here i).answered (Flow.head_of_ret (shop py item) hr), fun i x hx => ?_, hi.shut,
    ?_, ?_⟩
  · obtain ⟨hexc, hnot, hwait⟩ := (hi.here i).gave_up (Flow.head_of_raise (shop py item) hx)
    exact ⟨hexc, hnot, hp.waiting i hwait⟩
  · intro hw
    obtain ⟨i, hb⟩ := hi.opened hw
    exact ⟨i, (hi.here i).about_to_write.mpr hb⟩
  · rintro ⟨i, hb⟩
    exact (hi.here i).window ((hi.here i).about_to_write.mp hb)

end Reinit

/-! ## One initialisation in the window -/

/-- The first buys one; the second sets the stock to 100. -/
def restock : Buyer → Request
  | .first => .withLock (twoTokens .first) 1
  | .second => .init 100

/-- The stock is set when the purchase has read 10. -/
def inTheWindow : List (Ev Buyer Unit World) :=
  List.replicate 3 (.run Buyer.first ()) ++ .run .second () :: List.replicate 4 (.run Buyer.first ())

def restocking : Serving Buyer := start (stocked "10") fun i => serve IntText.decimal "x" i (restock i)

def restocked : Serving Buyer := ((threads memory).run restocking inTheWindow).get rfl

theorem restocked_reach : (threads memory).Reach (KeyKept "x") restocking restocked := by
  refine Machine.reach_of_run inTheWindow ?_ (Option.some_get _).symm
  intro s e he h
  subst h
  simp [inTheWindow] at he

/-- The initialisation is noted as lost. -/
theorem restock_lost : noted IntText.decimal restock restocked.log = ⟨[.first], [.second], false⟩ ∧
    restocked.mem.count IntText.decimal "x" = some (countAfter restock 10 [.first]) := by
  have hkind : ∀ i q, restock i ≠ .withoutLock q := by
    intro i q
    cases i <;> exact nofun
  exact ⟨rfl, (reinits_serial hkind rfl restocked_reach).2.2.2.1 rfl⟩

/-- Both calls are over, and no order of the two accounts for what they were answered
    and for the stock. -/
theorem reinit_overwritten : (threads memory).Reach (KeyKept "x") restocking restocked ∧
    restocked.thr .first = .ret (some ⟨true, "Purchase successful", 9⟩) ∧ restocked.thr .second = .ret none ∧
    ¬ ∃ order : List Buyer, order.Perm [.first, .second] ∧
      (∀ i r, restocked.thr i = .ret r → (i, r) ∈ served restock 10 order) ∧
      restocked.mem.count IntText.decimal "x" = some (countAfter restock 10 order) := by
  refine ⟨restocked_reach, rfl, rfl, ?_⟩
  rintro ⟨order, hperm, -, hcount⟩
  obtain ⟨a, b, rfl⟩ := List.length_eq_two.mp hperm.length_eq
  cases a with
  | first => cases b <;> exact absurd hcount (by decide)
  | second => cases b <;> exact absurd hcount (by decide)

end Playground.Lock
