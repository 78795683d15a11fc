/-
  Playground.Lock.History — the history of a lock key.

  Whatever the programs are, as long as none of them `SET`s a lock key, the key is a
  lease (`Playground.Lib.Lease`) held by the token it contains: a `SET NX PX` that
  takes it is a grant, a release script that removes it a free, its expiry a lapse
  (`lock_is_lease`). What holds of every lease history therefore holds of the lock.

  `acquired` and `released` read the calls off a log in the order Redis ran them.
-/

import Playground.Lib.Lease
import Playground.Lock.LockService

namespace Playground.Lock

open Playground.Lib Playground.Redis

variable {ι O : Type} (key : String)

abbrev Log (ι O : Type) := List (Entry ι (Cmd O) Ans Exc World)

def takeEvent (t : String) : Bool → Lease.Ev String
  | true => .grant t
  | false => .deny t

def freeEvent (t : String) : Nat → Lease.Ev String
  | 0 => .keep t
  | _ + 1 => .free t

/-- What an entry of a log is to the lease on `key`. -/
def leaseEvent : Entry ι (Cmd O) Ans Exc World → Option (Lease.Ev String)
  | .did _ (.setNxPx k t _) (.ok taken) => if k = key then some (takeEvent t taken) else none
  | .did _ (.evalRelease k t) (.ok removed) => if k = key then some (freeEvent t removed) else none
  | .world (.expire resource) => if lockKeyOf resource = key then some .lapse else none
  | _ => none

def leaseEvents (log : Log ι O) : List (Lease.Ev String) := log.filterMap (leaseEvent key)

/-- The call whose `SET NX PX` took the key in an entry. -/
def acquirer : Entry ι (Cmd O) Ans Exc World → Option ι
  | .did i (.setNxPx k _ _) (.ok true) => if k = key then some i else none
  | _ => none

/-- The call that ran the release script on the key in an entry. -/
def releaser : Entry ι (Cmd O) Ans Exc World → Option ι
  | .did i (.evalRelease k _) _ => if k = key then some i else none
  | _ => none

/-- The calls that took the key, first to last. -/
def acquired (log : Log ι O) : List ι := log.filterMap (acquirer key)

def released (log : Log ι O) : List ι := log.filterMap (releaser key)

@[simp] theorem acquired_snoc (log : Log ι O) (e : Entry ι (Cmd O) Ans Exc World) :
    acquired key (log ++ [e]) = acquired key log ++ (acquirer key e).toList := by
  rw [acquired, List.filterMap_append, filterMap_one]; rfl

@[simp] theorem released_snoc (log : Log ι O) (e : Entry ι (Cmd O) Ans Exc World) :
    released key (log ++ [e]) = released key log ++ (releaser key e).toList := by
  rw [released, List.filterMap_append, filterMap_one]; rfl

@[simp] theorem leaseEvents_snoc (log : Log ι O) (e : Entry ι (Cmd O) Ans Exc World) :
    leaseEvents key (log ++ [e]) = leaseEvents key log ++ (leaseEvent key e).toList := by
  rw [leaseEvents, List.filterMap_append, filterMap_one]; rfl

theorem lapse_mem (resource : String) (log : Log ι O) :
    .lapse ∈ leaseEvents (lockKeyOf resource) log ↔ .world (.expire resource) ∈ log := by
  unfold leaseEvents
  rw [List.mem_filterMap]
  constructor
  · rintro ⟨e, he, hl⟩
    unfold leaseEvent at hl
    split at hl
    · rename_i taken
      cases taken <;> simp [takeEvent] at hl
    · rename_i removed
      cases removed <;> simp [freeEvent] at hl
    · rename_i r
      simp only [Option.ite_none_right_eq_some, and_true] at hl
      exact lockKeyOf_inj hl ▸ he
    · cases hl
  · exact fun he => ⟨_, he, by simp [leaseEvent]⟩

/-- The entry of the `SET NX` by which call `i` took the key. -/
def took (px : Nat) (i : ι) (t : Token) : Entry ι (Cmd O) Ans Exc World := .did i (.setNxPx key t.1 px) (.ok true)

theorem leaseEvents_took {px : Nat} {i : ι} {t : Token} (before after : Log ι O) :
    leaseEvents key (before ++ took key px i t :: after) =
      leaseEvents key before ++ .grant t.1 :: leaseEvents key after := by
  simp [took, leaseEvent, takeEvent, leaseEvents]

/-- After a call took the key, for the only time in `after`: the key still holds its
    token if and only if it neither ran out nor was freed by that token. -/
theorem took_held_iff {px : Nat} {i : ι} {t : Token} {before after : Log ι O} {h h' : Option String}
    (hr : Lease.lease.run h (leaseEvents key (before ++ took key px i t :: after)) = some h')
    (hg : .grant t.1 ∉ leaseEvents key after) :
    h' = some t.1 ↔ .lapse ∉ leaseEvents key after ∧ .free t.1 ∉ leaseEvents key after := by
  rw [leaseEvents_took] at hr
  constructor
  · intro hown
    obtain ⟨g, -, hrest⟩ := Lease.run_append_some hr
    obtain ⟨g', -, hrest⟩ := Lease.run_cons hrest
    exact ⟨fun hl => Lease.ended_gone hrest (.inl hl) hg hown, fun hf => Lease.ended_gone hrest (.inr hf) hg hown⟩
  · exact fun ⟨hl, hf⟩ => (Lease.granted_kept hr hl hf).1

theorem acquired_eq_nil {log : Log ι O} (h : ∀ u, .grant u ∉ leaseEvents key log) : acquired key log = [] := by
  apply List.eq_nil_iff_forall_not_mem.mpr
  intro i hi
  obtain ⟨e, he, hacq⟩ := List.mem_filterMap.mp hi
  unfold acquirer at hacq
  split at hacq
  · rename_i k u px
    simp only [Option.ite_none_right_eq_some] at hacq
    exact h u (List.mem_filterMap.mpr ⟨_, he, by simp [leaseEvent, hacq.1, takeEvent]⟩)
  · cases hacq

/-- While the key holds the token of a call that took it once, nobody took it since. -/
theorem took_newest {px : Nat} {i : ι} {t : Token} {before after : Log ι O} {h : Option String}
    (hr : Lease.lease.run h (leaseEvents key (before ++ took key px i t :: after)) = some (some t.1))
    (hg : .grant t.1 ∉ leaseEvents key after) : acquired key after = [] := by
  obtain ⟨hl, hf⟩ := (took_held_iff key hr hg).mp rfl
  rw [leaseEvents_took] at hr
  exact acquired_eq_nil key (Lease.granted_kept hr hl hf).2

/-- `i` is between its successful acquire and its release. -/
def Holding (log : Log ι O) (i : ι) : Prop := i ∈ acquired key log ∧ i ∉ released key log

/-! ## The key is a lease -/

/-- Not a `SET` of the key. -/
def Spares (c : Cmd O) : Prop := ∀ v, c ≠ .set key v

variable [DecidableEq O]

theorem setNxPx_lease (redis : Strings String String) (t : String) (px : Nat) :
    Lease.lease.step (redis.get key) (takeEvent t (redis.setNxPx key t px).1) =
      some ((redis.setNxPx key t px).2.get key) := by
  unfold Strings.setNxPx Strings.get
  cases h : redis key <;> simp [takeEvent, Lease.lease, Lease.step, h]

theorem release_lease (redis : Strings String String) (t : String) :
    Lease.lease.step (redis.get key) (freeEvent t (releaseLockLua redis key t).1) =
      some ((releaseLockLua redis key t).2.get key) := by
  by_cases h : redis.get key = some t
  · simp [releaseLockLua_own h, h, freeEvent, Strings.del_fst, Strings.get_del_same, Lease.lease, Lease.step]
  · simp [releaseLockLua_other h, h, freeEvent, Lease.lease, Lease.step]

theorem exec_lease {i : ι} {c : Cmd O} {x : Unit} {m : Mem O} {rm : Except Exc (Ans c) × Mem O}
    (hset : Spares key c) (h : memory.exec i c x m = some rm) :
    Lease.lease.run (m.redis.get key) (leaseEvent key (.did i c rm.1)).toList = some (rm.2.redis.get key) := by
  cases c with
  | setNxPx k t px =>
    cases h
    by_cases e : k = key
    · subst e
      simpa [leaseEvent, Machine.run] using setNxPx_lease k m.redis t px
    · simp [leaseEvent, e, Machine.run, Strings.get_setNxPx_ne _ _ _ (Ne.symm e)]
  | get k => cases h; rfl
  | set k v =>
    cases h
    have e : key ≠ k := fun e => hset v (by rw [e])
    simp [leaseEvent, Machine.run, Strings.get_set_ne _ _ e]
  | evalRelease k t =>
    cases h
    by_cases e : k = key
    · subst e
      simpa [leaseEvent, Machine.run] using release_lease k m.redis t
    · simp [leaseEvent, e, Machine.run, get_releaseLockLua_ne m.redis t (Ne.symm e)]
  | sleep ms => cases h; rfl
  | loadToken o => cases h; rfl
  | storeToken o t => cases h; rfl

theorem env_lease {e : World} {m m' : Mem O} (h : (memory (ι := ι)).env e m = some m') :
    Lease.lease.run (m.redis.get key) (leaseEvent (ι := ι) (O := O) key (.world e)).toList =
      some (m'.redis.get key) := by
  obtain ⟨resource⟩ := e
  simp only [memory, Option.map_eq_some_iff] at h
  obtain ⟨r, hr, rfl⟩ := h
  obtain ⟨h1, h2, h3⟩ := Strings.expire_some hr
  by_cases e : lockKeyOf resource = key
  · subst e
    obtain ⟨v, hv⟩ := Option.ne_none_iff_exists'.mp h1
    simp [leaseEvent, Machine.run, Lease.lease, Lease.step, hv, h2]
  · simp [leaseEvent, e, Machine.run, h3 _ (Ne.symm e)]

variable [DecidableEq ι] {α : Type} {thr : ι → Prog O α} {m : Mem O} {s : Threads ι (Cmd O) Ans Exc α World (Mem O)}
  {ok : Threads ι (Cmd O) Ans Exc α World (Mem O) → Ev ι Unit World → Prop}

/-- The log of programs that never `SET` the key is a history of the lease on it. -/
theorem lock_is_lease (hset : ∀ i, (thr i).Only (Spares key))
    (h : (threads memory).Reach ok (start m thr) s) :
    Lease.lease.run (m.redis.get key) (leaseEvents key s.log) = some (s.mem.redis.get key) :=
  log_runs (f := fun m : Mem O => m.redis.get key) (fun _ _ _ _ _ hc hx => exec_lease key hc hx)
    (fun _ _ _ he => env_lease (ι := ι) key he) hset h

/-! ## Commands that change nothing -/

/-- A command whose outcome shows that it changed nothing. -/
def Idle (c : Cmd O) (r : Except Exc (Ans c)) : Prop :=
  ∀ m m' : Mem O, (memory (ι := Unit)).exec () c () m = some (r, m') → m' = m

theorem idle_sleep (ms : Nat) : Idle (O := O) (.sleep ms) (.ok ()) := by
  intro m m' h
  cases h
  rfl

theorem idle_denied (k t : String) (px : Nat) : Idle (O := O) (.setNxPx k t px) (.ok false) := by
  intro m m' h
  simp only [memory, Option.some.injEq, Prod.mk.injEq, Except.ok.injEq] at h
  obtain ⟨h1, rfl⟩ := h
  have hk : m.redis.get k ≠ none := fun hn => by
    rw [(Strings.setNxPx_fst m.redis k t px).mpr hn] at h1
    cases h1
  rw [Strings.setNxPx_denied _ _ _ _ hk]

/-! ## No program sets a lock key -/

namespace DistributedLock

variable (l : DistributedLock O) (token : Token)

omit [DecidableEq O] in
theorem acquireLoop_spares (n : Nat) : (l.acquireLoop token n).Only (Spares key) := by
  induction n with
  | zero => trivial
  | succ n ih =>
    apply Co.only_bind (Co.only_await fun v h => by cases h)
    intro acquired
    cases acquired with
    | true => exact Co.only_bind (Co.only_await fun v h => by cases h) fun _ => trivial
    | false => exact Co.only_bind (Co.only_await fun v h => by cases h) fun _ => ih

omit [DecidableEq O] in
theorem release_spares : l.release.Only (Spares key) := by
  apply Co.only_bind (Co.only_await fun v h => by cases h)
  intro t
  cases t with
  | none => trivial
  | some t => exact Co.only_bind (Co.only_await fun v h => by cases h) fun _ => trivial

omit [DecidableEq O] in
theorem asyncWith_spares {α : Type} {body : Prog O α} (hb : body.Only (Spares key)) :
    (l.asyncWith token body).Only (Spares key) := by
  refine Co.only_bind (Co.only_bind (acquireLoop_spares key l token _) ?_) fun _ =>
    Co.only_andFinally hb (Co.only_bind (release_spares key l) fun _ => trivial)
  intro acquired
  cases acquired <;> trivial

end DistributedLock

end Playground.Lock
