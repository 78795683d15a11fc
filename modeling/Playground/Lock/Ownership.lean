/-
  Playground.Lock.Ownership — the lock under expiry and reuse of its objects.

  Objects keep their token after a release, an expiry or a failed re-acquire, and may
  be called by several tasks at once. Nevertheless (`lock_ownership`), in every run:
  - a release changes the key only if it holds the token of the newest successful
    acquire, one of the same object;
  - the token of a successful acquire stays until the key runs out or the object's own
    release frees it, and nobody acquires in between;
  - each successful acquire is freed by at most one release that returns `True`;
  - an acquire that returns `False` made all its attempts and changed nothing.
-/

import Playground.Lock.Calls

namespace Playground.Lock.Calls

open Playground.Lib Playground.Redis

section Ownership

variable {ι O : Type} (resource : String) (cfg : O → Config) (call : ι → Call O)

/-- `t` is the token of a successful acquire of object `o`. -/
def Took (log : Log ι O) (o : O) (t : Token) : Prop :=
  ∃ a, call a = .acquire o t ∧ took (lockKeyOf resource) (cfg o).ttlMs a t ∈ log

/-- Call `r`'s release script removed the key with token `t`. -/
def Freed (log : Log ι O) (r : ι) (t : Token) : Prop :=
  ∃ n : Nat, .did r (.evalRelease (lockKeyOf resource) t.1) (.ok (n + 1)) ∈ log

theorem freed_event {log : Log ι O} {r : ι} {t : Token} (h : Freed resource log r t) :
    .free t.1 ∈ leaseEvents (lockKeyOf resource) log := by
  obtain ⟨n, h⟩ := h
  exact List.mem_filterMap.mpr ⟨_, h, by simp [leaseEvent, freeEvent]⟩

theorem freed_of_event {log : Log ι O} {t : Token} (h : .free t.1 ∈ leaseEvents (lockKeyOf resource) log) :
    ∃ r, Freed resource log r t := by
  obtain ⟨e, he, hev⟩ := List.mem_filterMap.mp h
  unfold leaseEvent at hev
  split at hev
  · rename_i taken
    cases taken <;> simp [takeEvent] at hev
  · rename_i r k u removed
    cases removed with
    | zero => simp [freeEvent] at hev
    | succ n =>
      simp only [Option.ite_none_right_eq_some, freeEvent, Option.some.injEq, Lease.Ev.free.injEq] at hev
      obtain ⟨rfl, rfl⟩ := hev
      exact ⟨r, n, he⟩
  · simp at hev
  · cases hev

/-- Two releases that free the key with the same token are two frees of the lease. -/
theorem two_frees {log : Log ι O} {r r' : ι} {t : Token} (h : Freed resource log r t) (h' : Freed resource log r' t)
    (hne : r ≠ r') : 2 ≤ (leaseEvents (lockKeyOf resource) log).count (.free t.1) := by
  obtain ⟨n, hn⟩ := h
  obtain ⟨n', hn'⟩ := h'
  obtain ⟨before, after, rfl⟩ := List.append_of_mem hn
  have hother : Freed resource (before ++ after) r' t := by
    refine ⟨n', ?_⟩
    rcases List.mem_append.mp hn' with h | h
    · exact List.mem_append_left _ h
    · rcases List.mem_cons.mp h with h | h
      · cases h
        exact absurd rfl hne
      · exact List.mem_append_right _ h
  have hpos := List.count_pos_iff.mpr (freed_event resource hother)
  have hsplit : leaseEvents (lockKeyOf resource) (before ++
        .did r (.evalRelease (lockKeyOf resource) t.1) (.ok (n + 1)) :: after) =
      leaseEvents (lockKeyOf resource) before ++ .free t.1 :: leaseEvents (lockKeyOf resource) after := by
    simp [leaseEvents, leaseEvent, freeEvent]
  rw [hsplit, List.count_append, List.count_cons_self]
  rw [leaseEvents, List.filterMap_append, List.count_append] at hpos
  change 0 < (leaseEvents (lockKeyOf resource) before).count _ +
    (leaseEvents (lockKeyOf resource) after).count _ at hpos
  omega

variable [DecidableEq ι] [DecidableEq O]

/-- What an attempt of call `i` was answered. -/
def attempt (i : ι) : Entry ι (Cmd O) Ans Exc World → Option Bool
  | .did j (.setNxPx _ _ _) (.ok taken) => if j = i then some taken else none
  | _ => none

def attempts (log : Log ι O) (i : ι) : List Bool := log.filterMap (attempt i)

/-- Call `i` has tried in vain so far, and has `n` attempts left. -/
structure Waiting (log : Log ι O) (i : ι) (o : O) (t : Token) (n : Nat) : Prop where
  acquire : call i = .acquire o t
  fresh : .grant t.1 ∉ leaseEvents (lockKeyOf resource) log
  le : n ≤ (cfg o).maxRetries
  denied : attempts log i = List.replicate ((cfg o).maxRetries - n) false
  idle : ∀ c r, .did i c r ∈ log → Idle c r

/-- What the log says of call `i` in its phase. -/
def Known (log : Log ι O) (i : ι) : Phase O → Prop
  | .trying o t n => Waiting resource cfg call log i o t n
  | .resting o t n => Waiting resource cfg call log i o t n
  | .storing o t => call i = .acquire o t ∧ took (lockKeyOf resource) (cfg o).ttlMs i t ∈ log
  | .loading o => call i = .release o
  | .releasing o t => call i = .release o ∧ Took resource cfg call log o t
  | .ended (.ok b) => (∃ o t, call i = .acquire o t ∧ b = true) ∨ ∃ o, call i = .release o ∧
      (b = true → ∃ t, Took resource cfg call log o t ∧ Freed resource log i t)
  | .ended (.error _) => False

structure Inv (s : St ι O) : Prop where
  here : ∀ i, Known resource cfg call s.log i (s.ph i)
  token : ∀ o t, s.mem.token o = some t → Took resource cfg call s.log o t
  once : ∀ a o t, call a = .acquire o t → (leaseEvents (lockKeyOf resource) s.log).count (.grant t.1) ≤ 1
  frees : ∀ r u x, .did r (.evalRelease (lockKeyOf resource) u) x ∈ s.log →
    ∃ o t, call r = .release o ∧ u = t.1 ∧ Took resource cfg call s.log o t

variable {resource cfg call}

omit [DecidableEq O] in
@[simp] theorem attempts_snoc (log : Log ι O) (e : Entry ι (Cmd O) Ans Exc World) (i : ι) :
    attempts (log ++ [e]) i = attempts log i ++ (attempt i e).toList := by
  rw [attempts, List.filterMap_append, filterMap_one]; rfl

omit [DecidableEq O] in
theorem attempt_other {e : Entry ι (Cmd O) Ans Exc World} {i : ι} (hi : ∀ c r, e ≠ .did i c r) :
    attempt i e = none := by
  unfold attempt
  split
  · exact if_neg fun hj => hi _ _ (by rw [hj])
  · rfl

omit [DecidableEq ι] [DecidableEq O] in
theorem Took.snoc {log : Log ι O} {o : O} {t : Token} (e : Entry ι (Cmd O) Ans Exc World)
    (h : Took resource cfg call log o t) : Took resource cfg call (log ++ [e]) o t :=
  h.imp fun _ h => ⟨h.1, List.mem_append_left _ h.2⟩

/-- A call waits on over an entry that does not grant it the key. -/
theorem Waiting.snoc {log : Log ι O} {i : ι} {o : O} {t : Token} {n k : Nat} {e : Entry ι (Cmd O) Ans Exc World}
    (h : Waiting resource cfg call log i o t n) (hg : leaseEvent (lockKeyOf resource) e ≠ some (.grant t.1))
    (hk : k ≤ n) (ha : (attempt i e).toList = List.replicate (n - k) false) (he : ∀ c r, e = .did i c r → Idle c r) :
    Waiting resource cfg call (log ++ [e]) i o t k where
  acquire := h.acquire
  fresh hm := by
    rw [leaseEvents_snoc, List.mem_append] at hm
    exact hm.elim h.fresh fun hm => hg (by simpa using hm)
  le := Nat.le_trans hk h.le
  denied := by
    have hle := h.le
    rw [attempts_snoc, h.denied, ha, List.replicate_append_replicate]
    congr 1
    omega
  idle c r hm := by
    rcases List.mem_append.mp hm with hm | hm
    · exact h.idle c r hm
    · exact he c r (List.mem_singleton.mp hm).symm

/-- A call that has not moved keeps its place over an entry that does not grant it the
    key. -/
theorem Known.snoc {log : Log ι O} {i : ι} {p : Phase O} {e : Entry ι (Cmd O) Ans Exc World}
    (h : Known resource cfg call log i p) (hi : ∀ c r, e ≠ .did i c r)
    (hg : ∀ o t, call i = .acquire o t → leaseEvent (lockKeyOf resource) e ≠ some (.grant t.1)) :
    Known resource cfg call (log ++ [e]) i p := by
  have hwait : ∀ {o t n}, Waiting resource cfg call log i o t n → Waiting resource cfg call (log ++ [e]) i o t n :=
    fun h => h.snoc (hg _ _ h.acquire) (Nat.le_refl _) (by simp [attempt_other hi]) fun c r he => absurd he (hi c r)
  cases p with
  | trying o t n => exact hwait h
  | resting o t n => exact hwait h
  | storing o t => exact ⟨h.1, List.mem_append_left _ h.2⟩
  | loading o => exact h
  | releasing o t => exact ⟨h.1, h.2.snoc e⟩
  | ended r =>
    cases r with
    | error x => exact h
    | ok b =>
      rcases h with h | ⟨o, hc, h⟩
      · exact .inl h
      · exact .inr ⟨o, hc, fun hb => (h hb).imp fun _ h => ⟨h.1.snoc e, h.2.imp fun _ h => List.mem_append_left _ h⟩⟩

/-! ## Every step keeps the invariant -/

variable {s s' : St ι O}

theorem Inv.here_of (hi : Inv resource cfg call s) {i : ι} {p : Phase O} (hp : s.ph i = p) :
    Known resource cfg call s.log i p :=
  hp ▸ hi.here i

/-- What a step of call `i` has to show. -/
theorem Inv.did (hcall : ∀ a b o o' t, call a = .acquire o t → call b = .acquire o' t → a = b)
    (hi : Inv resource cfg call s) {i : ι} {c : Cmd O} {r : Except Exc (Ans c)} {m : Mem O} {p : Phase O}
    (hp : Known resource cfg call (s.log ++ [.did i c r]) i p)
    (htok : ∀ o t, m.token o = some t →
      s.mem.token o = some t ∨ Took resource cfg call (s.log ++ [.did i c r]) o t)
    (hgrant : ∀ u, leaseEvent (lockKeyOf resource) (.did i c r) = some (.grant u) →
      ∃ o t, call i = .acquire o t ∧ u = t.1 ∧ .grant t.1 ∉ leaseEvents (lockKeyOf resource) s.log)
    (hfree : ∀ u, c = .evalRelease (lockKeyOf resource) u →
      ∃ o t, call i = .release o ∧ u = t.1 ∧ Took resource cfg call s.log o t) :
    Inv resource cfg call (s.did i c r m p) := by
  refine ⟨?_, ?_, ?_, ?_⟩
  · intro j
    by_cases e : j = i
    · subst e
      simpa using hp
    · rw [Phases.did_ph_ne _ _ _ _ _ _ e]
      refine (hi.here j).snoc (fun d q h => ?_) fun o t hj h => ?_
      · cases h
        exact e rfl
      · obtain ⟨o', t', hi', ht, -⟩ := hgrant _ h
        cases Subtype.ext ht
        exact e (hcall j i o o' t hj hi')
  · intro o t h
    exact (htok o t h).elim (fun h => (hi.token o t h).snoc _) id
  · intro a o t ha
    rw [Phases.did_log, leaseEvents_snoc, List.count_append]
    cases he : leaseEvent (lockKeyOf resource) (.did i c r) with
    | none => simpa using hi.once a o t ha
    | some ev =>
      by_cases e : ev = .grant t.1
      · subst e
        obtain ⟨o', t', hi', ht, hn⟩ := hgrant _ he
        rw [← ht] at hn
        simp [List.count_eq_zero.mpr hn]
      · simpa [e] using hi.once a o t ha
  · intro j u x hm
    rcases List.mem_append.mp hm with hm | hm
    · obtain ⟨o, t, h1, h2, h3⟩ := hi.frees j u x hm
      exact ⟨o, t, h1, h2, h3.snoc _⟩
    · cases List.mem_singleton.mp hm
      obtain ⟨o, t, h1, h2, h3⟩ := hfree u rfl
      exact ⟨o, t, h1, h2, h3.snoc _⟩

theorem Inv.step (hcall : ∀ a b o o' t, call a = .acquire o t → call b = .acquire o' t → a = b)
    (hi : Inv resource cfg call s) (hm : Move resource cfg s s') : Inv resource cfg call s' := by
  cases hm with
  | take i o t n m hp ht =>
    have h := hi.here_of hp
    refine hi.did hcall ⟨h.acquire, List.mem_append_right _ (List.mem_singleton.mpr rfl)⟩ (fun o' t' h => .inl (ht ▸ h))
      (fun u hu => ⟨o, t, h.acquire, ?_, h.fresh⟩) (fun u hu => by cases hu)
    simp only [leaseEvent, takeEvent, if_true, Option.some.injEq, Lease.Ev.grant.injEq] at hu
    exact hu.symm
  | busy i o t n hp =>
    have h := hi.here_of hp
    refine hi.did hcall (Waiting.snoc h (by simp [leaseEvent, takeEvent]) (Nat.le_succ n) ?_ ?_) (fun _ _ h => .inl h)
      (by simp [leaseEvent, takeEvent]) (fun u hu => by cases hu)
    · simp [attempt]
    · intro c r he
      cases he
      exact idle_denied _ _ _
  | rest i o t n hp =>
    have h := hi.here_of hp
    refine hi.did hcall (Waiting.snoc h (by simp [leaseEvent]) (Nat.le_refl n) ?_ ?_) (fun _ _ h => .inl h)
      (by simp [leaseEvent]) (fun u hu => by cases hu)
    · simp [attempt]
    · intro c r he
      cases he
      exact idle_sleep _
  | store i o t hp =>
    have h := hi.here_of hp
    refine hi.did hcall (.inl ⟨o, t, h.1, rfl⟩) ?_ (by simp [leaseEvent]) (fun u hu => by cases hu)
    intro o' t' h'
    by_cases e : o' = o
    · subst e
      simp only [Function.update_self, Option.some.injEq] at h'
      subst h'
      exact .inr ⟨i, h.1, List.mem_append_left _ h.2⟩
    · exact .inl (by simpa [e] using h')
  | load i o t hp ht =>
    have h := hi.here_of hp
    exact hi.did hcall ⟨h, (hi.token o t ht).snoc _⟩ (fun _ _ h => .inl h) (by simp [leaseEvent])
      (fun u hu => by cases hu)
  | loadBare i o hp ht =>
    have h := hi.here_of hp
    exact hi.did hcall (.inr ⟨o, h, fun h => by cases h⟩) (fun _ _ h => .inl h) (by simp [leaseEvent])
      (fun u hu => by cases hu)
  | free i o t n m hp ht =>
    have h := hi.here_of hp
    refine hi.did hcall (.inr ⟨o, h.1, fun hb => ⟨t, h.2.snoc _, ?_⟩⟩) (fun o' t' h => .inl (ht ▸ h)) (fun u hu => ?_)
      (fun u hu => ⟨o, t, h.1, ?_, h.2⟩)
    · cases n with
      | zero => cases hb
      | succ n => exact ⟨n, List.mem_append_right _ (List.mem_singleton.mpr rfl)⟩
    · cases n <;> simp [leaseEvent, freeEvent] at hu
    · exact (Cmd.evalRelease.inj hu).2.symm
  | expire e m ht =>
    have hne : ∀ u, leaseEvent (ι := ι) (O := O) (lockKeyOf resource) (.world e) ≠ some (.grant u) := by
      intro u
      simp only [leaseEvent]
      split <;> simp
    refine ⟨fun j => (hi.here j).snoc (fun c r h => by cases h) fun o t _ => hne t.1, fun o t h => (hi.token o t (ht ▸
      h)).snoc _, ?_, ?_⟩
    · intro a o t ha
      rw [Phases.moved_log, leaseEvents_snoc, List.count_append]
      have h0 : (leaseEvent (ι := ι) (O := O) (lockKeyOf resource) (.world e)).toList.count (.grant t.1) = 0 :=
        List.count_eq_zero.mpr fun h => hne t.1 (by simpa using h)
      rw [h0]
      exact hi.once a o t ha
    · intro r u x h
      obtain ⟨o, t, h1, h2, h3⟩ := hi.frees r u x (by simpa using h)
      exact ⟨o, t, h1, h2, h3.snoc _⟩

/-! ## Ownership -/

theorem inv_start (redis : Strings String String) :
    Inv resource cfg call ⟨⟨redis, fun _ => none⟩, fun i => .begin cfg (call i), []⟩ where
  here i := by
    show Known resource cfg call [] i (.begin cfg (call i))
    cases hc : call i with
    | acquire o t => exact ⟨hc, List.not_mem_nil, Nat.le_refl _, by simp [attempts], fun c r h => by cases h⟩
    | release o => exact hc
  token _ _ h := nomatch h
  once _ _ _ _ := Nat.zero_le 1
  frees _ _ _ h := nomatch h

section Runs

-- the lock key's history is one of the lease, from `held` on
variable (hi : Inv resource cfg call s) {held : Option String}
  (hlease : Lease.lease.run held (leaseEvents (lockKeyOf resource) s.log) = some (Mem.lock resource s.mem))

include hi

/-- A call's token is granted the key once. -/
theorem Inv.grant_once {a : ι} {o : O} {t : Token} {px : Nat} {before after : Log ι O} (ha : call a = .acquire o t)
    (hlog : s.log = before ++ took (lockKeyOf resource) px a t :: after) :
    .grant t.1 ∉ leaseEvents (lockKeyOf resource) after := by
  have h := hi.once a o t ha
  rw [hlog, leaseEvents_took, List.count_append, List.count_cons_self] at h
  exact List.count_eq_zero.mp (by omega)

include hlease

/-- A step of a release that changes the key removes the newest acquire's token, one of
    its object's. -/
theorem Inv.removes_newest {r : ι} {o : O} {c : Cmd O} {k : Except Exc (Ans c) → Phase O} {x : Unit}
    {rm : Except Exc (Ans c) × Mem O} (hr : call r = .release o) (hk : headOf resource cfg r (s.ph r) = .goes c k)
    (hx : memory.exec r c x s.mem = some rm) (hne : Mem.lock resource rm.2 ≠ Mem.lock resource s.mem) :
    ∃ a t before after, call a = .acquire o t ∧ Mem.lock resource s.mem = some t.1 ∧
      s.log = before ++ took (lockKeyOf resource) (cfg o).ttlMs a t :: after ∧
      acquired (lockKeyOf resource) after = [] := by
  have hknown := hi.here r
  cases hp : s.ph r with
  | loading o' =>
    rw [hp] at hk
    cases hk
    cases hx
    exact absurd rfl hne
  | releasing o' t =>
    rw [hp] at hk hknown
    cases hk
    cases hx
    obtain ⟨hr', a, ha, hm⟩ := hknown
    cases hr.symm.trans hr'
    have hown : Mem.lock resource s.mem = some t.1 := by
      by_contra hn
      apply hne
      show (releaseLockLua s.mem.redis (lockKeyOf resource) t.1).2.get (lockKeyOf resource) = _
      rw [releaseLockLua_other hn]
      rfl
    obtain ⟨before, after, hlog⟩ := List.append_of_mem hm
    rw [hlog, hown] at hlease
    exact ⟨a, t, before, after, ha, hown, hlog, took_newest _ hlease (hi.grant_once ha hlog)⟩
  | trying o' t n =>
    rw [hp] at hknown
    cases hr.symm.trans hknown.acquire
  | resting o' t n =>
    rw [hp] at hknown
    cases hr.symm.trans hknown.acquire
  | storing o' t =>
    rw [hp] at hknown
    cases hr.symm.trans hknown.1
  | ended r' =>
    rw [hp] at hk
    cases hk

/-- A token taken stays until the key runs out or its object's own release, and nobody
    else acquires. -/
theorem Inv.stays (hcall : ∀ a b o o' t, call a = .acquire o t → call b = .acquire o' t → a = b) {a : ι} {o : O}
    {t : Token} {px : Nat} {before after : Log ι O} (ha : call a = .acquire o t)
    (hlog : s.log = before ++ took (lockKeyOf resource) px a t :: after) (hl : .world (.expire resource) ∉ after)
    (hf : ∀ r, call r = .release o → ¬ Freed resource after r t) :
    Mem.lock resource s.mem = some t.1 ∧ acquired (lockKeyOf resource) after = [] := by
  have hg := hi.grant_once ha hlog
  rw [hlog] at hlease
  have hown : Mem.lock resource s.mem = some t.1 := by
    refine (took_held_iff _ hlease hg).mpr ⟨fun h => hl ((lapse_mem _ _).mp h), ?_⟩
    intro h
    -- whoever freed it was a release of the object whose token it is
    obtain ⟨r, n, hn⟩ := freed_of_event resource h
    obtain ⟨o', t', hc, ht, a', ha', -⟩ := hi.frees r t.1 (.ok (n + 1)) (by rw [hlog]; simp [hn])
    cases Subtype.ext ht
    cases hcall a a' o o' t ha ha'
    cases ha.symm.trans ha'
    exact hf r hc ⟨n, hn⟩
  rw [hown] at hlease
  exact ⟨hown, took_newest _ hlease hg⟩

/-- No two releases free the key with the same token. -/
theorem Inv.freed_once {a r r' : ι} {o : O} {t : Token} (ha : call a = .acquire o t) (hheld : held ≠ some t.1)
    (hf : Freed resource s.log r t) (hf' : Freed resource s.log r' t) : r' = r := by
  by_contra hne
  have h2 := two_frees resource hf' hf hne
  have h1 := Lease.frees_le_grants hlease hheld
  have h0 := hi.once a o t ha
  omega

omit hlease

/-- A release that returned `True` removed the key with a token of its object. -/
theorem Inv.released_true {r : ι} {o : O} (hr : call r = .release o)
    (hh : headOf resource cfg r (s.ph r) = .ended (.ok true)) :
    ∃ t, Took resource cfg call s.log o t ∧ Freed resource s.log r t := by
  have hknown := hi.here r
  revert hknown hh
  cases s.ph r with
  | ended r' =>
    intro hh hknown
    cases hh
    rcases hknown with ⟨o', t, hc, -⟩ | ⟨o', hc, h⟩
    · cases hr.symm.trans hc
    · cases hr.symm.trans hc
      exact h rfl
  | trying o t n => cases n <;> exact nofun
  | resting | storing | loading | releasing => exact nofun

/-- An acquire that returned `False` made all its attempts and changed nothing. -/
theorem Inv.gave_up {a : ι} {o : O} {t : Token} (ha : call a = .acquire o t)
    (hh : headOf resource cfg a (s.ph a) = .ended (.ok false)) :
    attempts s.log a = List.replicate (cfg o).maxRetries false ∧ ∀ c r, .did a c r ∈ s.log → Idle c r := by
  have hknown := hi.here a
  revert hknown hh
  cases s.ph a with
  | trying o' t' n =>
    intro hh hknown
    cases n with
    | zero =>
      cases ha.symm.trans hknown.acquire
      exact ⟨hknown.denied, hknown.idle⟩
    | succ n => cases hh
  | ended r' =>
    intro hh hknown
    cases hh
    rcases hknown with ⟨_, _, _, h⟩ | ⟨o', hc, -⟩
    · cases h
    · cases ha.symm.trans hc
  | resting | storing | loading | releasing => exact nofun

end Runs

/-- The lock in every run of any calls. -/
theorem lock_ownership (hcall : ∀ a b o o' t, call a = .acquire o t → call b = .acquire o' t → a = b)
    {redis : Strings String String}
    (hredis : ∀ a o t, call a = .acquire o t → redis.get (lockKeyOf resource) ≠ some t.1) {s : Performing ι O}
    (h : (threads memory).Reach Machine.any
      (start ⟨redis, fun _ => none⟩ fun i => perform resource cfg (call i)) s) :
    let key := lockKeyOf resource
    -- a release changes the key only while it holds the newest acquire's token, one of its object
    (∀ r o x s', call r = .release o → (threads memory).step s (.run r x) = some s' →
      Mem.lock resource s'.mem ≠ Mem.lock resource s.mem →
      ∃ a t before after, call a = .acquire o t ∧ Mem.lock resource s.mem = some t.1 ∧
        s.log = before ++ took key (cfg o).ttlMs a t :: after ∧ acquired key after = []) ∧
    -- a token taken stays until the key runs out or its object's own release, and nobody else acquires
    (∀ a o t before after, call a = .acquire o t → s.log = before ++ took key (cfg o).ttlMs a t :: after →
      .world (.expire resource) ∉ after → (∀ r, call r = .release o → ¬ Freed resource after r t) →
      Mem.lock resource s.mem = some t.1 ∧ acquired key after = []) ∧
    -- a release that returned True freed an acquire of its object, and no two freed the same
    (∀ r o, call r = .release o → s.thr r = .ret true → ∃ a t, call a = .acquire o t ∧
      took key (cfg o).ttlMs a t ∈ s.log ∧ Freed resource s.log r t ∧
      ∀ r', Freed resource s.log r' t → r' = r) ∧
    -- an acquire that returned False made all its attempts and changed nothing
    (∀ a o t, call a = .acquire o t → s.thr a = .ret false →
      attempts s.log a = List.replicate (cfg o).maxRetries false ∧ ∀ c r, .did a c r ∈ s.log → Idle c r) := by
  intro key
  have hlease := lock_is_lease key (fun i => perform_spares resource cfg key (call i)) h
  rw [← calls_start] at h
  obtain ⟨u, hu, rfl⟩ := Flow.follows _ h
  have hi : Inv resource cfg call u := hu.invariant (inv_start redis)
    fun u e u' hi _ hs => hi.step hcall (step_move resource cfg hs)
  refine ⟨?_, ?_, ?_, ?_⟩
  · intro r o x s' hr hs hne
    rw [Flow.step_threadsOf, Option.map_eq_some_iff] at hs
    obtain ⟨u', hs, rfl⟩ := hs
    obtain ⟨c, k, rm, hk, hx, rfl⟩ := Flow.step_run _ hs
    exact hi.removes_newest hlease hr hk hx hne
  · intro a o t before after ha hlog hl hf
    exact hi.stays hlease hcall ha hlog hl hf
  · intro r o hr hret
    have hh := Flow.head_of_ret (calls resource cfg) (i := r) (p := u.ph r) hret
    obtain ⟨t, ⟨a, ha, hm⟩, hf⟩ := hi.released_true hr hh
    exact ⟨a, t, ha, hm, hf, fun r' hf' => hi.freed_once hlease ha (hredis a o t ha) hf hf'⟩
  · intro a o t ha hret
    have hh := Flow.head_of_ret (calls resource cfg) (i := a) (p := u.ph a) hret
    exact hi.gave_up ha hh

end Ownership

/-! ## A late release -/

/-- Object 0 acquires and releases late; object 1 acquires in between, and releases. -/
def lateCalls : Fin 4 → Call (Fin 2)
  | 0 => .acquire 0 ⟨"early", by decide⟩
  | 1 => .release 0
  | 2 => .acquire 1 ⟨"late", by decide⟩
  | 3 => .release 1

def lateToken : Call (Fin 2) → Option String
  | .acquire _ t => some t.1
  | .release _ => none

def lateRun : List (Ev (Fin 4) Unit World) :=
  [.run 0 (), .run 0 (), .env (.expire "r"), .run 2 (), .run 2 (), .run 1 (), .run 1 (), .run 3 (), .run 3 ()]

def lateDone : Performing (Fin 4) (Fin 2) :=
  ((threads memory).run (start ⟨fun _ => none, fun _ => none⟩ fun i => perform "r" (fun _ => {}) (lateCalls i))
    lateRun).get rfl

/-- The late release frees nothing; the other frees its own object's acquire. -/
theorem late_release : lateDone.thr 1 = .ret false ∧ ∃ a t, lateCalls a = .acquire 1 t ∧
    took (lockKeyOf "r") 5000 a t ∈ lateDone.log ∧ Freed "r" lateDone.log 3 t ∧
      ∀ r', Freed "r" lateDone.log r' t → r' = 3 := by
  refine ⟨rfl, (lock_ownership ?_ ?_
    (Machine.reach_any_of_run lateRun (Option.some_get _).symm)).2.2.1 3 1 rfl rfl⟩
  · intro a b o o' t ha hb
    have hdistinct : ∀ a b, lateToken (lateCalls a) ≠ none →
        lateToken (lateCalls a) = lateToken (lateCalls b) → a = b := by
      decide
    exact hdistinct a b (by simp [ha, lateToken]) (by simp [ha, hb, lateToken])
  · intro a o t _
    simp [Strings.get]

end Playground.Lock.Calls
