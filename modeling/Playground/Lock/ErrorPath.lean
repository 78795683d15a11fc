/-
  Playground.Lock.ErrorPath — every way out of `purchase_with_lock`.

  Requests for one item run side by side with other clients of Redis, who leave it as
  they like. A Redis command or a sleep may raise, cancellation included, before or
  after it took effect. One call's `SET` of the stock has no effect when it raises, its
  release script does not raise, and no other client uses its token.
  - `critical_section`: the call removes nobody else's token, writes the stock only by a
    `SET` that succeeds, and when it has ended after acquiring the lock its token is not
    on the lock key; it has written once, what it read less its quantity, if it answers
    success, and else not at all, and it raises what its body raised.
-/

import Playground.Lock.Shop

namespace Playground.Lock.ErrorPath

open Playground.Lib Playground.Redis

/-! ## Faults -/

/-- How a command goes wrong: whether it took effect, and what it raises. -/
abbrev Fault := Option (Bool × Exc)

/-- Another client leaves Redis so. -/
inductive Foreign where
  | other (redis : Strings String String)

section Memory

variable {ι O : Type} [DecidableEq O]

/-- The object's `token` field is no command of Redis or the timer. -/
def remote : Cmd O → Bool
  | .loadToken _ | .storeToken .. => false
  | _ => true

def memory : Memory ι (Cmd O) Ans Exc Fault Foreign (Mem O) where
  exec i c x m := (Lock.memory.exec i c () m).map fun rm => match x with
    | none => rm
    | some (effect, e) => if remote c then (.error e, if effect then rm.2 else m) else rm
  env
    | .other redis, m => some { m with redis := redis }

/-- A command goes through, or raises with its effect or without. -/
theorem exec_cases {i : ι} {c : Cmd O} {x : Fault} {m : Mem O} {rm : Except Exc (Ans c) × Mem O}
    (hx : memory.exec i c x m = some rm) :
    ∃ rm', (Lock.memory (ι := ι)).exec i c () m = some rm' ∧
      (rm = rm' ∧ (x = none ∨ remote c = false) ∨
        ∃ effect e, x = some (effect, e) ∧ remote c = true ∧ rm = (.error e, if effect then rm'.2 else m)) := by
  simp only [memory, Option.map_eq_some_iff] at hx
  obtain ⟨rm', hx', rfl⟩ := hx
  refine ⟨rm', hx', ?_⟩
  cases x with
  | none => exact .inl ⟨rfl, .inl rfl⟩
  | some fault =>
    obtain ⟨effect, e⟩ := fault
    cases hc : remote c with
    | false => exact .inl ⟨rfl, .inr rfl⟩
    | true => exact .inr ⟨effect, e, rfl, rfl, rfl⟩

/-- What holds before a command, and after it when it goes through, holds after it. -/
theorem exec_keeps {i : ι} {c : Cmd O} {x : Fault} {m : Mem O} {rm : Except Exc (Ans c) × Mem O} {Q : Mem O → Prop}
    (hx : memory.exec i c x m = some rm) (h0 : Q m)
    (h1 : ∀ rm', (Lock.memory (ι := ι)).exec i c () m = some rm' → Q rm'.2) : Q rm.2 := by
  obtain ⟨rm', hx', ⟨rfl, -⟩ | ⟨effect, e, -, -, rfl⟩⟩ := exec_cases hx
  · exact h1 _ hx'
  · cases effect with
    | false => exact h0
    | true => exact h1 rm' hx'

end Memory

section Runs

variable {ι : Type} (py : IntText) (item : String)

abbrev Log (ι : Type) := List (Entry ι (Cmd ι) Ans Exc Foreign)

/-- The requests being served. -/
abbrev Serving (ι : Type) := Threads ι (Cmd ι) Ans Exc Reply Foreign (Mem ι)

abbrev St (ι : Type) := Phases ι (Cmd ι) Ans Exc Foreign (Mem ι) Phase

/-! ## What the log says of a call -/

/-- Call `i` has taken the lock for `t`. -/
def Acquired (i : ι) (t : Token) (log : Log ι) : Prop := .did i (.setNxPx (itemKey item) t 5000) (.ok true) ∈ log

/-- The value of a stored stock; what is not a number has none. -/
def stockValue : Option String → Option Int
  | none => some 0
  | some val => py.int val

/-- Call `i` read the stock `n`. -/
def ReadStock (i : ι) (log : Log ι) (n : Int) : Prop :=
  ∃ val, .did i (.get (stockKey item)) (.ok val) ∈ log ∧ stockValue py val = some n

/-- A command of call `i` raised `x`, or `x` is from the stock it read, which is no number. -/
def Raised (i : ι) (log : Log ι) (x : Exc) : Prop :=
  (∃ c, .did i c (.error x) ∈ log) ∨
    (x = .valueError ∧ ∃ val, .did i (.get (stockKey item)) (.ok val) ∈ log ∧ stockValue py val = none)

variable [DecidableEq ι]

def writtenBy (i : ι) : Entry ι (Cmd ι) Ans Exc Foreign → Option String
  | .did j (.set key value) (.ok _) => if j = i ∧ key = stockKey item then some value else none
  | _ => none

/-- What call `i` has written to the stock. -/
def written (i : ι) (log : Log ι) : List String := log.filterMap (writtenBy item i)

/-- The body of call `i` ended so: with success, and one write of what it read less `q`,
    or with neither. -/
def Outcome (i : ι) (q : Int) (log : Log ι) : Except Exc PurchaseResult → Prop
  | .ok res =>
    if res.success then
      (∃ n, ReadStock py item i log n ∧ res.remaining = n - q) ∧ written item i log = [py.str res.remaining]
    else written item i log = []
  | .error x => written item i log = [] ∧ Raised py item i log x

/-- What holds of call `i` in each phase. -/
def Facts (i : ι) (t : Token) (q : Int) (m : Mem ι) (log : Log ι) : Phase → Prop
  | .initing _ => False
  | .trying t' q' _ | .resting t' q' _ => t' = t ∧ q' = q ∧ written item i log = [] ∧ ¬ Acquired item i t log
  | .entering t' q' => t' = t ∧ q' = q ∧ written item i log = []
  | .reading locked q' => locked = true ∧ q' = q ∧ m.token i = some t ∧ written item i log = []
  | .delaying locked q' cur =>
    locked = true ∧ q' = q ∧ m.token i = some t ∧ written item i log = [] ∧ ReadStock py item i log cur
  | .writing locked new =>
    locked = true ∧ m.token i = some t ∧ written item i log = [] ∧ ∃ n, ReadStock py item i log n ∧ new = n - q
  | .exiting r => m.token i = some t ∧ Outcome py item i q log r
  | .releasing t' r => t' = t ∧ Outcome py item i q log r
  | .ended r => Acquired item i t log → m.lock item ≠ some t.1 ∧ ∃ r', r = reply r' ∧ Outcome py item i q log r'

/-! ## Logs that grow -/

variable {py item} {i j : ι} {t : Token} {q : Int} {log : Log ι} {m m' : Mem ι} {p : Phase}

theorem written_snoc (e : Entry ι (Cmd ι) Ans Exc Foreign) :
    written item i (log ++ [e]) = written item i log ++ (writtenBy item i e).toList := by
  rw [written, List.filterMap_append, filterMap_one, written]

omit [DecidableEq ι] in
theorem ReadStock.snoc {n : Int} (e : Entry ι (Cmd ι) Ans Exc Foreign) (h : ReadStock py item i log n) :
    ReadStock py item i (log ++ [e]) n := by
  obtain ⟨val, hm, hv⟩ := h
  exact ⟨val, List.mem_append_left _ hm, hv⟩

omit [DecidableEq ι] in
theorem Raised.snoc {x : Exc} (e : Entry ι (Cmd ι) Ans Exc Foreign) (h : Raised py item i log x) :
    Raised py item i (log ++ [e]) x := by
  rcases h with ⟨c, hm⟩ | ⟨hx, val, hm, hv⟩
  · exact .inl ⟨c, List.mem_append_left _ hm⟩
  · exact .inr ⟨hx, val, List.mem_append_left _ hm, hv⟩

/-- An outcome stands as long as the call writes nothing more. -/
theorem Outcome.snoc {r : Except Exc PurchaseResult} {e : Entry ι (Cmd ι) Ans Exc Foreign}
    (hw : writtenBy item i e = none) (h : Outcome py item i q log r) : Outcome py item i q (log ++ [e]) r := by
  have hsame : written item i (log ++ [e]) = written item i log := by
    rw [written_snoc, hw]
    exact List.append_nil _
  cases r with
  | error x => exact ⟨hsame.trans h.1, h.2.snoc e⟩
  | ok res =>
    simp only [Outcome, hsame] at h ⊢
    split
    · rename_i hs
      rw [if_pos hs] at h
      obtain ⟨⟨n, hn, hrem⟩, hw⟩ := h
      exact ⟨⟨n, hn.snoc e, hrem⟩, hw⟩
    · rename_i hs
      rwa [if_neg hs] at h

/-- A step of others keeps what holds of the call. -/
theorem Facts.frame {e : Entry ι (Cmd ι) Ans Exc Foreign} (hw : writtenBy item i e = none)
    (ha : Acquired item i t (log ++ [e]) → Acquired item i t log) (htoken : m'.token i = m.token i)
    (hlock : m.lock item ≠ some t.1 → m'.lock item ≠ some t.1) (h : Facts py item i t q m log p) :
    Facts py item i t q m' (log ++ [e]) p := by
  have hsame : written item i (log ++ [e]) = written item i log := by
    rw [written_snoc, hw]
    exact List.append_nil _
  cases p with
  | initing => exact h
  | trying | resting =>
    obtain ⟨h1, h2, h3, h4⟩ := h
    exact ⟨h1, h2, hsame.trans h3, fun h => h4 (ha h)⟩
  | entering =>
    obtain ⟨h1, h2, h3⟩ := h
    exact ⟨h1, h2, hsame.trans h3⟩
  | reading =>
    obtain ⟨h1, h2, h3, h4⟩ := h
    exact ⟨h1, h2, htoken.trans h3, hsame.trans h4⟩
  | delaying =>
    obtain ⟨h1, h2, h3, h4, h5⟩ := h
    exact ⟨h1, h2, htoken.trans h3, hsame.trans h4, h5.snoc e⟩
  | writing =>
    obtain ⟨h1, h2, h3, n, h4, h5⟩ := h
    exact ⟨h1, htoken.trans h2, hsame.trans h3, n, h4.snoc e, h5⟩
  | exiting => exact ⟨htoken.trans h.1, h.2.snoc hw⟩
  | releasing => exact ⟨h.1, h.2.snoc hw⟩
  | ended =>
    intro hacq
    obtain ⟨h1, r', h2, h3⟩ := h (ha hacq)
    exact ⟨hlock h1, r', h2, h3.snoc hw⟩

/-! ## Steps -/

/-- The token that a call may still put on the lock key. -/
def seeks : Phase → Option Token
  | .trying t _ _ | .resting t _ _ => some t
  | _ => none

variable {c : Cmd ι} {k : Except Exc (Ans c) → Phase} {x : Fault} {rm : Except Exc (Ans c) × Mem ι}

theorem seeks_leave (locked : Bool) (r : Except Exc PurchaseResult) : seeks (.leave locked r) = none := by
  cases locked <;> rfl

theorem seeks_read (locked : Bool) (val : Option String) : seeks (.read py locked q val) = none := by
  have hcmp : ∀ cur, seeks (Phase.read.compare locked q cur) = none := by
    intro cur
    unfold Phase.read.compare
    split
    · exact seeks_leave ..
    · rfl
  unfold Phase.read
  cases val with
  | none => exact hcmp 0
  | some v =>
    simp only
    cases py.int v with
    | some n => exact hcmp n
    | none => exact seeks_leave ..

omit [DecidableEq ι] in
/-- A call seeks one token. -/
theorem seeks_next (hh : headOf py item j p = .goes c k) (r : Except Exc (Ans c)) {t' : Token}
    (hs : seeks (k r) = some t') : seeks p = some t' := by
  cases p with
  | trying t q n =>
    cases n with
    | zero => cases hh
    | succ n =>
      cases hh
      cases r with
      | ok acquired =>
        cases acquired with
        | true => cases hs
        | false => exact hs
      | error x => cases hs
  | resting =>
    cases hh
    cases r with
    | ok _ => exact hs
    | error x => cases hs
  | initing | entering | releasing =>
    cases hh
    cases r <;> cases hs
  | reading locked q =>
    cases hh
    cases r with
    | ok val => rw [Phase.onIn, seeks_read] at hs; cases hs
    | error x => rw [Phase.onIn, seeks_leave] at hs; cases hs
  | delaying locked =>
    cases hh
    cases r with
    | ok _ => cases hs
    | error x => rw [Phase.onIn, seeks_leave] at hs; cases hs
  | writing locked =>
    cases hh
    cases r with
    | ok _ | error x => rw [Phase.onIn, seeks_leave] at hs; cases hs
  | exiting =>
    cases hh
    cases r with
    | ok token => cases token <;> cases hs
    | error x => cases hs
  | ended => cases hh

omit [DecidableEq ι] in
/-- A release script takes the caller's token off the lock key, and no other. -/
theorem lock_release_eq (m : Mem ι) (t : Token) :
    (m.release item t).lock item = if m.lock item = some t.1 then none else m.lock item := by
  show (releaseLockLua m.redis (itemKey item) t.1).2.get (itemKey item) = _
  unfold releaseLockLua Mem.lock
  split
  · exact Strings.get_del_same ..
  · rfl

/-- A call that does not seek the token does not put it on the lock key. -/
theorem lock_stays_off (hh : headOf py item j p = .goes c k) (hx : memory.exec j c x m = some rm)
    (hs : ∀ t', seeks p = some t' → t' ≠ t) (hoff : m.lock item ≠ some t.1) : rm.2.lock item ≠ some t.1 := by
  refine exec_keeps (Q := fun m => m.lock item ≠ some t.1) hx hoff fun rm' hx' => ?_
  cases p with
  | initing stock | writing locked new =>
    cases hh
    cases hx'
    show (m.setStock item _).lock item ≠ _
    rw [Mem.lock_setStock]
    exact hoff
  | trying t' q' n =>
    cases n with
    | zero => cases hh
    | succ n =>
      cases hh
      cases hx'
      have hne : t' ≠ t := hs t' rfl
      show (m.redis.setNxPx (itemKey item) t'.1 5000).2.get (itemKey item) ≠ _
      rw [Strings.get_setNxPx_same]
      split
      · exact fun h => hne (Subtype.ext (Option.some.inj h))
      · exact hoff
  | resting | entering | reading | delaying | exiting =>
    cases hh
    cases hx'
    exact hoff
  | releasing t' r =>
    cases hh
    cases hx'
    show (m.release item t').lock item ≠ _
    rw [lock_release_eq]
    split
    · exact (Option.some_ne_none _).symm
    · exact hoff
  | ended => cases hh

/-- A call leaves the `token` fields of the others. -/
theorem token_kept (hh : headOf py item j p = .goes c k) (hx : memory.exec j c x m = some rm) (hne : i ≠ j) :
    rm.2.token i = m.token i := by
  refine exec_keeps (Q := fun m' => m'.token i = m.token i) hx rfl fun rm' hx' => ?_
  cases p with
  | trying t' q' n =>
    cases n with
    | zero => cases hh
    | succ n => cases hh; cases hx'; rfl
  | entering =>
    cases hh
    cases hx'
    exact Function.update_of_ne hne ..
  | ended => cases hh
  | _ => cases hh; cases hx'; rfl

omit [DecidableEq ι] in
theorem acquired_snoc {e : Entry ι (Cmd ι) Ans Exc Foreign} :
    Acquired item i t (log ++ [e]) ↔
      Acquired item i t log ∨ e = .did i (.setNxPx (itemKey item) t 5000) (.ok true) := by
  rw [Acquired, List.mem_append, List.mem_singleton, eq_comm (a := e)]
  rfl

theorem written_quiet {e : Entry ι (Cmd ι) Ans Exc Foreign} (hw : writtenBy item i e = none)
    (h : written item i log = []) : written item i (log ++ [e]) = [] := by
  rw [written_snoc, h, hw]
  rfl

/-- A command of the body that raises: its exception is the outcome. -/
theorem outcome_raised {e : Exc} (h : written item i log = []) :
    Outcome py item i q (log ++ [.did i c (.error e)]) (.error e) := by
  have hw : writtenBy item i (.did i c (.error e) : Entry ι (Cmd ι) Ans Exc Foreign) = none := by cases c <;> rfl
  exact ⟨written_quiet hw h, .inl ⟨c, List.mem_append_right _ (List.mem_singleton.mpr rfl)⟩⟩

/-- After the `GET`. -/
theorem Facts.read {val : Option String} (htoken : m.token i = some t) (h : written item i log = []) :
    Facts py item i t q m (log ++ [.did i (.get (stockKey item)) (.ok val)]) (.read py true q val) := by
  have hmem : .did i (.get (stockKey item)) (.ok val) ∈ log ++ [(.did i (.get (stockKey item)) (.ok val) :
      Entry ι (Cmd ι) Ans Exc Foreign)] := List.mem_append_right _ (List.mem_singleton.mpr rfl)
  have hquiet : written item i (log ++ [.did i (.get (stockKey item)) (.ok val)]) = [] := written_quiet rfl h
  have hcmp : ∀ cur, stockValue py val = some cur → Facts py item i t q m
      (log ++ [.did i (.get (stockKey item)) (.ok val)]) (Phase.read.compare true q cur) := by
    intro cur hcur
    unfold Phase.read.compare
    split
    · exact ⟨htoken, hquiet⟩
    · exact ⟨rfl, rfl, htoken, hquiet, val, hmem, hcur⟩
  unfold Phase.read
  cases val with
  | none => exact hcmp 0 rfl
  | some v =>
    simp only
    cases hv : py.int v with
    | some n => exact hcmp n hv
    | none => exact ⟨htoken, hquiet, .inr ⟨rfl, some v, hmem, hv⟩⟩

omit [DecidableEq ι] in
theorem lock_release (m : Mem ι) (t : Token) : (m.release item t).lock item ≠ some t.1 := by
  rw [lock_release_eq]
  split
  · exact (Option.some_ne_none _).symm
  · assumption

/-- A step of the call, whose release script does not raise. -/
theorem Facts.step (hh : headOf py item i p = .goes c k) (hx : memory.exec i c x m = some rm)
    (hrelease : ∀ key token, c = .evalRelease key token → x = none) (h : Facts py item i t q m log p) :
    Facts py item i t q rm.2 (log ++ [.did i c rm.1]) (k rm.1) := by
  obtain ⟨rm', hx', hcase⟩ := exec_cases hx
  cases p with
  | initing => exact h.elim
  | trying t' q' n =>
    obtain ⟨rfl, rfl, hw, hnot⟩ := h
    cases n with
    | zero => cases hh
    | succ n =>
      cases hh
      cases hx'
      rcases hcase with ⟨rfl, -⟩ | ⟨effect, e, -, -, rfl⟩
      · cases hb : (m.redis.setNxPx (itemKey item) t' 5000).1 with
        | true => exact ⟨rfl, rfl, written_quiet rfl hw⟩
        | false => exact ⟨rfl, rfl, written_quiet rfl hw, fun ha => (acquired_snoc.mp ha).elim hnot nofun⟩
      · exact fun ha => ((acquired_snoc.mp ha).elim hnot nofun).elim
  | resting t' q' n =>
    obtain ⟨rfl, rfl, hw, hnot⟩ := h
    cases hh
    cases hx'
    rcases hcase with ⟨rfl, -⟩ | ⟨effect, e, -, -, rfl⟩
    · exact ⟨rfl, rfl, written_quiet rfl hw, fun ha => (acquired_snoc.mp ha).elim hnot nofun⟩
    · exact fun ha => ((acquired_snoc.mp ha).elim hnot nofun).elim
  | entering t' q' =>
    obtain ⟨rfl, rfl, hw⟩ := h
    cases hh
    cases hx'
    rcases hcase with ⟨rfl, -⟩ | ⟨effect, e, -, hremote, -⟩
    · exact ⟨rfl, rfl, Function.update_self .., written_quiet rfl hw⟩
    · cases hremote
  | reading locked q' =>
    obtain ⟨rfl, rfl, htoken, hw⟩ := h
    cases hh
    cases hx'
    rcases hcase with ⟨rfl, -⟩ | ⟨effect, e, -, -, rfl⟩
    · exact Facts.read htoken hw
    · exact ⟨by cases effect <;> exact htoken, outcome_raised hw⟩
  | delaying locked q' cur =>
    obtain ⟨rfl, rfl, htoken, hw, hread⟩ := h
    cases hh
    cases hx'
    rcases hcase with ⟨rfl, -⟩ | ⟨effect, e, -, -, rfl⟩
    · exact ⟨rfl, htoken, written_quiet rfl hw, cur, hread.snoc _, rfl⟩
    · exact ⟨by cases effect <;> exact htoken, outcome_raised hw⟩
  | writing locked new =>
    obtain ⟨rfl, htoken, hw, n, hread, rfl⟩ := h
    cases hh
    cases hx'
    rcases hcase with ⟨rfl, -⟩ | ⟨effect, e, -, -, rfl⟩
    · refine ⟨htoken, ⟨n, hread.snoc _, rfl⟩, ?_⟩
      rw [written_snoc, hw]
      simp [writtenBy]
    · exact ⟨by cases effect <;> exact htoken, outcome_raised hw⟩
  | exiting r =>
    obtain ⟨htoken, hout⟩ := h
    cases hh
    cases hx'
    rcases hcase with ⟨rfl, -⟩ | ⟨effect, e, -, hremote, -⟩
    · simp only [htoken]
      exact ⟨rfl, hout.snoc rfl⟩
    · cases hremote
  | releasing t' r =>
    obtain ⟨rfl, hout⟩ := h
    cases hh
    cases hrelease _ _ rfl
    cases hx'
    rcases hcase with ⟨rfl, -⟩ | ⟨effect, e, hx, -, -⟩
    · intro _
      exact ⟨lock_release m t', r, rfl, hout.snoc rfl⟩
    · cases hx
  | ended => cases hh

/-- A step of the call leaves another token on the lock key. -/
theorem Facts.foreign_kept (hh : headOf py item i p = .goes c k) (hx : memory.exec i c x m = some rm)
    (h : Facts py item i t q m log p) {v : String} (hv : m.lock item = some v) (hne : v ≠ t.1) :
    rm.2.lock item = some v := by
  refine exec_keeps (Q := fun m' => m'.lock item = some v) hx hv fun rm' hx' => ?_
  cases p with
  | initing => exact h.elim
  | trying t' q' n =>
    cases n with
    | zero => cases hh
    | succ n =>
      cases hh
      cases hx'
      show (m.redis.setNxPx (itemKey item) t'.1 5000).2.get (itemKey item) = _
      rw [Strings.get_setNxPx_same, if_neg (by rw [← Mem.lock, hv]; exact Option.some_ne_none v)]
      exact hv
  | resting | entering | reading | delaying | exiting => cases hh; cases hx'; exact hv
  | writing locked new =>
    cases hh
    cases hx'
    show (m.setStock item _).lock item = _
    rw [Mem.lock_setStock, hv]
  | releasing t' r =>
    obtain ⟨rfl, -⟩ := h
    cases hh
    cases hx'
    have hother : m.lock item ≠ some t'.1 := fun h => hne (Option.some.inj (hv.symm.trans h))
    show (m.release item t').lock item = _
    rw [lock_release_eq, if_neg hother]
    exact hv
  | ended => cases hh

/-- What the call's commands may do: the release script does not raise, and a `SET` that
    raises has no effect. -/
def allowed : Option (Cmd ι) → Fault → Bool
  | some (.evalRelease ..), x => x.isNone
  | some (.set ..), x => !x.any (·.1)
  | _, _ => true

/-- A step of the call changes the stock only by a `SET` that succeeds. -/
theorem Facts.stock_kept (hh : headOf py item i p = .goes c k) (hx : memory.exec i c x m = some rm)
    (ha : allowed (some c) x = true) (h : Facts py item i t q m log p) :
    rm.2.stock item = m.stock item ∨
      ∃ value, (.did i c rm.1 : Entry ι (Cmd ι) Ans Exc Foreign) = .did i (.set (stockKey item) value) (.ok ()) := by
  cases p with
  | initing => exact h.elim
  | writing locked new =>
    cases hh
    obtain ⟨rm', hx', ⟨rfl, -⟩ | ⟨effect, e, rfl, -, rfl⟩⟩ := exec_cases hx
    · cases hx'
      exact .inr ⟨_, rfl⟩
    · cases effect with
      | false => exact .inl rfl
      | true => cases ha
  | trying t' q' n =>
    cases n with
    | zero => cases hh
    | succ n =>
      cases hh
      exact .inl (exec_keeps (Q := fun m' => m'.stock item = m.stock item) hx rfl fun rm' hx' => by
        cases hx'
        exact Mem.stock_take ..)
  | releasing t' r =>
    cases hh
    exact .inl (exec_keeps (Q := fun m' => m'.stock item = m.stock item) hx rfl fun rm' hx' => by
      cases hx'
      exact Mem.stock_release ..)
  | resting | entering | reading | delaying | exiting =>
    cases hh
    exact .inl (exec_keeps (Q := fun m' => m'.stock item = m.stock item) hx rfl fun rm' hx' => by cases hx'; rfl)
  | ended => cases hh

/-! ## Runs -/

variable {req : ι → Request}

/-- What is asked of a run: of call `i`'s commands, and that no other client puts its
    token on the lock key. -/
def Proviso (item : String) (i : ι) (t : Token) (s : Serving ι) : Ev ι Fault Foreign → Prop
  | .run j x => j = i → allowed (s.thr i).next x = true
  | .env (.other redis) => redis.get (itemKey item) = some t.1 → s.mem.lock item = some t.1

instance (s : Serving ι) (e : Ev ι Fault Foreign) : Decidable (Proviso item i t s e) :=
  match e with
  | .run .. => inferInstanceAs (Decidable (_ → _))
  | .env (.other _) => inferInstanceAs (Decidable (_ → _))

structure Inv (py : IntText) (item : String) (req : ι → Request) (i : ι) (t : Token) (q : Int) (u : St ι) : Prop where
  seek : ∀ j t', seeks (u.ph j) = some t' → ∃ q', req j = .withLock t' q'
  facts : Facts py item i t q u.mem u.log (u.ph i)

variable {u u' : St ι} {e : Ev ι Fault Foreign}

theorem Inv.step (hown : ∀ j q', req j = .withLock t q' → j = i) (hi : Inv py item req i t q u)
    (hok : Proviso item i t ((shop py item).threadsOf u) e) (hs : ((shop py item).phases memory).step u e = some u') :
    Inv py item req i t q u' := by
  cases e with
  | env e =>
    obtain ⟨redis⟩ := e
    obtain ⟨m, hm, rfl⟩ := Flow.step_env _ hs
    cases hm
    refine ⟨hi.seek, Facts.frame (m := u.mem) rfl ?_ rfl (fun hoff he => hoff (hok he)) hi.facts⟩
    exact fun ha => (acquired_snoc.mp ha).elim id nofun
  | run j x =>
    obtain ⟨c, k, rm, hh, hx, rfl⟩ := Flow.step_run _ hs
    change headOf py item j (u.ph j) = .goes c k at hh
    refine ⟨?_, ?_⟩
    · refine (Phases.forall_did (Q := fun j' p => ∀ t', seeks p = some t' → ∃ q', req j' = .withLock t' q')).mpr ?_
      exact ⟨fun t' ht => hi.seek j t' (seeks_next hh rm.1 ht), fun j' _ => hi.seek j'⟩
    · by_cases e : i = j
      · subst e
        rw [Phases.did_ph_same]
        have hnext : (((shop py item).threadsOf u).thr i).next = some c := Flow.next_of_head (shop py item) hh
        have ha : allowed (some c) x = true := hnext ▸ hok rfl
        refine hi.facts.step hh hx ?_
        rintro key token rfl
        simpa [allowed] using ha
      · rw [Phases.did_ph_ne _ _ _ _ _ _ e]
        have hother : ∀ t', seeks (u.ph j) = some t' → t' ≠ t := by
          rintro t' ht rfl
          obtain ⟨q', hq⟩ := hi.seek j t' ht
          exact e (hown j q' hq).symm
        refine hi.facts.frame ?_ ?_ (token_kept hh hx e) (lock_stays_off hh hx hother)
        · cases c <;> cases rm.1 <;> simp [writtenBy, Ne.symm e]
        · exact fun ha => (acquired_snoc.mp ha).elim id fun he => absurd (Entry.did.inj he).1.symm e

/-- Call `i`'s `purchase_with_lock` ended with this outcome. -/
def EndedWith (i : ι) (s : Serving ι) (r : Except Exc PurchaseResult) : Prop := s.thr i = Co.resume (reply r)

/-- A call that has ended after acquiring the lock. -/
theorem Facts.ended_with (h : Facts py item i t q m log p) (hnext : ((shop py item).code i p).next = none)
    (ha : Acquired item i t log) : m.lock item ≠ some t.1 ∧
      ∃ r, (shop py item).code i p = Co.resume (reply r) ∧ Outcome py item i q log r := by
  obtain ⟨r, hr⟩ := (shop py item).head_of_next_none hnext
  change headOf py item i p = .ended r at hr
  cases p with
  | trying t' q' n => exact absurd ha h.2.2.2
  | ended r' =>
    obtain ⟨hoff, r, rfl, hout⟩ := h ha
    exact ⟨hoff, r, rfl, hout⟩
  | _ => cases hr

theorem inv_start (hi : req i = .withLock t q) (m : Mem ι) :
    Inv py item req i t q ⟨m, fun j => .begin (req j), []⟩ := by
  constructor
  · intro j t' ht
    change seeks (.begin (req j)) = some t' at ht
    cases hj : req j with
    | withLock t q =>
      rw [hj] at ht
      cases ht
      exact ⟨q, rfl⟩
    | init | withoutLock => rw [hj] at ht; cases ht
  · show Facts py item i t q m [] (.begin (req i))
    rw [hi]
    exact ⟨rfl, rfl, rfl, List.not_mem_nil⟩

/-- Requests for one item with any faults, beside other clients. One of them is a
    `purchase_with_lock` of `q` with its own token `t`, whose release script does not
    raise and whose `SET` of the stock has no effect when it raises. In every state:
    - its next step leaves another token on the lock key, and changes the stock only by
      a `SET` that succeeds;
    - if it has acquired the lock and has ended, its token is not on the lock key, and
      its outcome is success with one write of what it read less `q`, or it has not
      written and is out of stock or raises what its body raised. -/
theorem critical_section (hi : req i = .withLock t q) (hown : ∀ j q', req j = .withLock t q' → j = i) {s : Serving ι}
    (h : (threads memory).Reach (Proviso item i t) (start m fun j => serve py item j (req j)) s) :
    (∀ x s', Proviso item i t s (.run i x) → (threads memory).step s (.run i x) = some s' →
      (∀ v, s.mem.lock item = some v → v ≠ t.1 → s'.mem.lock item = some v) ∧
      (s'.mem.stock item = s.mem.stock item ∨
        ∃ value, s'.log = s.log ++ [.did i (.set (stockKey item) value) (.ok ())])) ∧
    (Acquired item i t s.log → (s.thr i).next = none →
      s.mem.lock item ≠ some t.1 ∧ ∃ r, EndedWith i s r ∧ Outcome py item i q s.log r) := by
  rw [← shop_start] at h
  obtain ⟨u, hu, rfl⟩ := (shop py item).follows h
  have hinv : Inv py item req i t q u :=
    hu.invariant (inv_start hi m) fun _ _ _ hi hok hs => Inv.step hown hi hok hs
  refine ⟨fun x s' hok hs => ?_, fun ha hnext => hinv.facts.ended_with hnext ha⟩
  rw [Flow.step_threadsOf, Option.map_eq_some_iff] at hs
  obtain ⟨u', hu', rfl⟩ := hs
  obtain ⟨c, k, rm, hh, hx, rfl⟩ := Flow.step_run _ hu'
  have hnext : (((shop py item).threadsOf u).thr i).next = some c := Flow.next_of_head (shop py item) hh
  have hallowed : allowed (some c) x = true := hnext ▸ hok rfl
  refine ⟨fun v hv hne => hinv.facts.foreign_kept hh hx hv hne, ?_⟩
  rcases hinv.facts.stock_kept hh hx hallowed with hkept | ⟨value, he⟩
  · exact .inl hkept
  · exact .inr ⟨value, congrArg (fun e => u.log ++ [e]) he⟩

end Runs

/-! ## A stock that is no number -/

/-- Two buyers of one each. -/
def buyers (b : Buyer) : Request := .withLock (twoTokens b) 1

/-- The first buyer's lock has run out, and another client has taken it. -/
def retaken (key : String) : Option (Cell String) :=
  if key = "stock:x" then some ⟨"five", none⟩ else if key = "lock:inventory:x" then some ⟨"z", some 9⟩ else none

/-- A step of the first buyer at which nothing fails. -/
def turn : Ev Buyer Fault Foreign := .run .first none

/-- It takes the lock, which another client has by the time it reads the stock. -/
def overtaken : List (Ev Buyer Fault Foreign) := [turn, turn, .env (.other retaken), turn, turn, turn]

def afterOvertaken : Serving Buyer :=
  ((threads memory).runIf (Proviso "x" .first (twoTokens .first))
    (start (stocked "five") fun b => serve .decimal "x" b (buyers b)) overtaken).get rfl

/-- It raises the `ValueError` of its body, has written nothing and leaves the lock to
    the other client. -/
theorem overtaken_raises : EndedWith .first afterOvertaken (.error .valueError) ∧
    afterOvertaken.mem.lock "x" = some "z" ∧ Outcome .decimal "x" .first 1 afterOvertaken.log (.error .valueError) := by
  have h : (threads memory).Reach (Proviso "x" .first (twoTokens .first))
      (start (stocked "five") fun b => serve .decimal "x" b (buyers b)) afterOvertaken :=
    Machine.reach_of_runIf overtaken (Option.some_get rfl).symm
  have hi : buyers .first = .withLock (twoTokens .first) 1 := rfl
  have hown : ∀ j q', buyers j = .withLock (twoTokens .first) q' → j = .first := by
    intro j q' hj
    cases j with
    | first => rfl
    | second => exact absurd (Request.withLock.inj hj).1 (by decide)
  obtain ⟨-, r, hend, hout⟩ := (critical_section hi hown h).2 List.mem_cons_self rfl
  have hraised : EndedWith .first afterOvertaken (.error .valueError) := rfl
  cases r with
  | ok res => cases hraised.symm.trans hend
  | error x =>
    cases hraised.symm.trans hend
    exact ⟨hraised, by decide, hout⟩

end Playground.Lock.ErrorPath
