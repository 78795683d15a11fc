/-
  Playground.Lock.Exclusion — who owns the lock when a locked purchase writes the
  stock.

  The token guards the release only. A locked `SET` of the stock happens under the
  caller's own token exactly when the key has not run out since the caller took it:
  - `locked_set_owned_iff`: in every run, for every such `SET`.
  - `locked_set_overtaken`: the run in which it has, and the write buries the next
    holder's.
-/

import Playground.Lock.Shop

namespace Playground.Lock

open Playground.Lib Playground.Redis

section Exclusion

variable {ι : Type} (py : IntText) (item : String)

/-- Since call `i` took the lock, its token was neither granted the key nor freed it. -/
def Since (log : Log ι ι) (i : ι) (t : Token) : Prop :=
  ∃ before after, log = before ++ took (itemKey item) 5000 i t :: after ∧
    .grant t.1 ∉ leaseEvents (itemKey item) after ∧ .free t.1 ∉ leaseEvents (itemKey item) after

variable (req : ι → Request)

/-- What the log says of call `i` in its phase. -/
def Known (m : Mem ι) (log : Log ι ι) (i : ι) : Phase → Prop
  | .initing stock => req i = .init stock
  | .trying t q _ => req i = .withLock t q ∧ .grant t.1 ∉ leaseEvents (itemKey item) log
  | .resting t q _ => req i = .withLock t q ∧ .grant t.1 ∉ leaseEvents (itemKey item) log
  | .entering t q => req i = .withLock t q ∧ Since item log i t
  | .reading false q => req i = .withoutLock q
  | .delaying false .. => ∃ q, req i = .withoutLock q
  | .writing false _ => ∃ q, req i = .withoutLock q
  | .reading true _ => ∃ t q, req i = .withLock t q ∧ m.token i = some t ∧ Since item log i t
  | .delaying true .. => ∃ t q, req i = .withLock t q ∧ m.token i = some t ∧ Since item log i t
  | .writing true _ => ∃ t q, req i = .withLock t q ∧ m.token i = some t ∧ Since item log i t
  | .exiting _ => ∃ t q, req i = .withLock t q ∧ m.token i = some t ∧ Since item log i t
  | .releasing t _ => ∃ q, req i = .withLock t q
  | .ended _ => True

variable {py item req}

theorem Since.snoc {log : Log ι ι} {i : ι} {t : Token} {e : Entry ι (Cmd ι) Ans Exc World} (h : Since item log i t)
    (hg : leaseEvent (itemKey item) e ≠ some (.grant t.1)) (hf : leaseEvent (itemKey item) e ≠ some (.free t.1)) :
    Since item (log ++ [e]) i t := by
  obtain ⟨before, after, rfl, h1, h2⟩ := h
  refine ⟨before, after ++ [e], by simp, ?_, ?_⟩ <;> rw [leaseEvents_snoc, List.mem_append]
  · exact fun h => h.elim h1 fun h => hg (by simpa using h)
  · exact fun h => h.elim h2 fun h => hf (by simpa using h)

/-- A call that has not moved stays where it is, when the entry is not about its token. -/
theorem Known.snoc {m m' : Mem ι} {log : Log ι ι} {i : ι} {p : Phase} {e : Entry ι (Cmd ι) Ans Exc World}
    (h : Known item req m log i p) (ht : m'.token i = m.token i)
    (he : ∀ t q, req i = .withLock t q → leaseEvent (itemKey item) e ≠ some (.grant t.1) ∧
      leaseEvent (itemKey item) e ≠ some (.free t.1)) : Known item req m' (log ++ [e]) i p := by
  have hgrant : ∀ {t q}, req i = .withLock t q → .grant t.1 ∉ leaseEvents (itemKey item) log →
      .grant t.1 ∉ leaseEvents (itemKey item) (log ++ [e]) := by
    intro t q hr hn hm
    rw [leaseEvents_snoc, List.mem_append] at hm
    exact hm.elim hn fun hm => (he t q hr).1 (by simpa using hm)
  have hsince : ∀ {t q}, req i = .withLock t q → Since item log i t → Since item (log ++ [e]) i t :=
    fun hr hs => hs.snoc (he _ _ hr).1 (he _ _ hr).2
  have hin : (∃ t q, req i = .withLock t q ∧ m.token i = some t ∧ Since item log i t) →
      ∃ t q, req i = .withLock t q ∧ m'.token i = some t ∧ Since item (log ++ [e]) i t :=
    fun ⟨t, q, hr, hk, hs⟩ => ⟨t, q, hr, ht.trans hk, hsince hr hs⟩
  cases p with
  | initing stock => exact h
  | trying t q n => exact ⟨h.1, hgrant h.1 h.2⟩
  | resting t q n => exact ⟨h.1, hgrant h.1 h.2⟩
  | entering t q => exact ⟨h.1, hsince h.1 h.2⟩
  | reading locked q => cases locked <;> [exact h; exact hin h]
  | delaying locked q cur => cases locked <;> [exact h; exact hin h]
  | writing locked new => cases locked <;> [exact h; exact hin h]
  | exiting r => exact hin h
  | releasing t r => exact h
  | ended r => trivial

/-! ## The invariant of a run -/

variable [DecidableEq ι] {s s' : St ι}

/-- What a step of call `i` has to show: where it is now, and that a grant or a free it
    logs is of its own token. -/
theorem known_did (hreq : ∀ i j t q q', req i = .withLock t q → req j = .withLock t q' → i = j)
    (hi : ∀ j, Known item req s.mem s.log j (s.ph j)) {i : ι} {c : Cmd ι} {r : Except Exc (Ans c)} {m : Mem ι}
    {p : Phase} (hp : Known item req m (s.log ++ [.did i c r]) i p) (ht : ∀ j, j ≠ i → m.token j = s.mem.token j)
    (hown : ∀ u, leaseEvent (itemKey item) (.did i c r) = some (.grant u) ∨
      leaseEvent (itemKey item) (.did i c r) = some (.free u) → ∃ t q, req i = .withLock t q ∧ u = t.1) (j : ι) :
    Known item req (s.did i c r m p).mem (s.did i c r m p).log j ((s.did i c r m p).ph j) := by
  by_cases e : j = i
  · subst e
    simpa using hp
  · rw [Phases.did_ph_ne _ _ _ _ _ _ e]
    apply (hi j).snoc (ht j e)
    intro t q hr
    have hother : ¬ ∃ t' q', req i = .withLock t' q' ∧ t.1 = t'.1 := by
      rintro ⟨t', q', hr', htt⟩
      cases Subtype.ext htt
      exact e (hreq j i t q q' hr hr')
    exact ⟨fun h => hother (hown _ (.inl h)), fun h => hother (hown _ (.inr h))⟩

theorem known_step (hreq : ∀ i j t q q', req i = .withLock t q → req j = .withLock t q' → i = j)
    (hi : ∀ j, Known item req s.mem s.log j (s.ph j)) (hm : Move py item s s') :
    ∀ j, Known item req s'.mem s'.log j (s'.ph j) := by
  -- inside the lock, by an entry that is not about the lease
  have hin : ∀ {i : ι} {c : Cmd ι} {r : Except Exc (Ans c)}, leaseEvent (itemKey item) (.did i c r) = none →
      (∃ t q, req i = .withLock t q ∧ s.mem.token i = some t ∧ Since item s.log i t) →
      ∃ t q, req i = .withLock t q ∧ s.mem.token i = some t ∧ Since item (s.log ++ [.did i c r]) i t :=
    fun he ⟨t, q, hr, hk, hs⟩ => ⟨t, q, hr, hk, hs.snoc (by rw [he]; simp) (by rw [he]; simp)⟩
  cases hm with
  | init i stock hp => exact known_did hreq hi trivial (fun _ _ => rfl) (by simp [leaseEvent])
  | take i t q n hp hl =>
    have h := hi i
    rw [hp] at h
    refine known_did hreq hi ⟨h.1, s.log, [], rfl, by simp [leaseEvents], by simp [leaseEvents]⟩ (fun _ _ => rfl) ?_
    intro u hu
    simp only [leaseEvent, takeEvent, if_true, Option.some.injEq, Lease.Ev.grant.injEq, reduceCtorEq, or_false] at hu
    exact ⟨t, q, h.1, hu.symm⟩
  | busy i t q n hp hl =>
    have h := hi i
    rw [hp] at h
    exact known_did hreq hi ⟨h.1, by simpa [leaseEvent, takeEvent] using h.2⟩ (fun _ _ => rfl)
      (by simp [leaseEvent, takeEvent])
  | rest i t q n hp =>
    have h := hi i
    rw [hp] at h
    exact known_did hreq hi ⟨h.1, by simpa [leaseEvent] using h.2⟩ (fun _ _ => rfl) (by simp [leaseEvent])
  | enter i t q hp =>
    have h := hi i
    rw [hp] at h
    exact known_did hreq hi ⟨t, q, h.1, by simp, h.2.snoc (by simp [leaseEvent]) (by simp [leaseEvent])⟩
      (fun j hj => by simp [hj]) (by simp [leaseEvent])
  | read i locked q hp =>
    have h := hi i
    rw [hp] at h
    refine known_did hreq hi ?_ (fun _ _ => rfl) (by simp [leaseEvent])
    have hcmp : ∀ cur, Known item req s.mem (s.log ++ [.did i (.get (stockKey item)) (.ok (s.mem.stock item))]) i
        (Phase.read.compare locked q cur) := by
      intro cur
      unfold Phase.read.compare Phase.leave
      cases locked with
      | false => split <;> [trivial; exact ⟨q, h⟩]
      | true => split <;> exact hin rfl h
    unfold Phase.read
    split
    · exact hcmp 0
    · split
      · exact hcmp _
      · cases locked <;> [trivial; exact hin rfl h]
  | delay i locked q cur hp =>
    have h := hi i
    rw [hp] at h
    refine known_did hreq hi ?_ (fun _ _ => rfl) (by simp [leaseEvent])
    cases locked <;> [exact h; exact hin rfl h]
  | write i locked new hp =>
    have h := hi i
    rw [hp] at h
    refine known_did hreq hi ?_ (fun _ _ => rfl) (by simp [leaseEvent])
    cases locked <;> [trivial; exact hin rfl h]
  | exit i t r hp ht =>
    have h := hi i
    rw [hp] at h
    obtain ⟨t', q, hr, hk, -⟩ := h
    cases ht.symm.trans hk
    exact known_did hreq hi ⟨q, hr⟩ (fun _ _ => rfl) (by simp [leaseEvent])
  | exitBare i r hp ht => exact known_did hreq hi trivial (fun _ _ => rfl) (by simp [leaseEvent])
  | release i t r n hp hn =>
    have h := hi i
    rw [hp] at h
    obtain ⟨q, hr⟩ := h
    refine known_did hreq hi trivial (fun _ _ => rfl) fun u hu => ⟨t, q, hr, ?_⟩
    have hev : leaseEvent (ι := ι) (O := ι) (itemKey item) (.did i (.evalRelease (itemKey item) t.1) (.ok n)) =
        some (freeEvent t.1 n) := if_pos rfl
    rw [hev] at hu
    cases n with
    | zero => rcases hu with hu | hu <;> cases hu
    | succ n =>
      rcases hu with hu | hu
      · cases hu
      · exact (Lease.Ev.free.inj (Option.some.inj hu)).symm
  | expire m hlock hnone hs ht =>
    exact fun j => (hi j).snoc (congrFun ht j) fun _ _ _ => by simp [leaseEvent, itemKey]
  | expireOther m resource hne hlock hs ht =>
    exact fun j => (hi j).snoc (congrFun ht j) fun _ _ _ => by
      simp only [leaseEvent]
      split <;> simp

omit [DecidableEq ι] in
theorem known_start (m : Mem ι) (i : ι) : Known item req m [] i (.begin (req i)) := by
  cases hr : req i with
  | init stock => exact hr
  | withLock t q => exact ⟨hr, List.not_mem_nil⟩
  | withoutLock q => exact hr

/-! ## The writes -/

/-- In every run: a locked write happens under the caller's own token if and only if
    the key has not run out since the caller took it. -/
theorem locked_set_owned_iff (hreq : ∀ i j t q q', req i = .withLock t q → req j = .withLock t q' → i = j)
    {m : Mem ι} {s : Serving ι} (h : (threads memory).Reach Machine.any (start m fun i => serve py item i (req i)) s)
    {i : ι} {t : Token} {q : Int} {v : String} {k} (hr : req i = .withLock t q)
    (hset : s.thr i = .cmd (.set (stockKey item) v) k) :
    ∃ before after, s.log = before ++ took (itemKey item) 5000 i t :: after ∧
      (s.mem.lock item = some t.1 ↔ .world (.expire ("inventory:" ++ item)) ∉ after) := by
  have hlease := lock_is_lease (itemKey item) (fun i => serve_spares py item i (req i)) h
  rw [← shop_start] at h
  obtain ⟨u, hu, rfl⟩ := Flow.follows _ h
  have hknown := hu.invariant (P := fun u => ∀ j, Known item req u.mem u.log j (u.ph j)) (known_start m)
    (fun u e u' hi _ hs => known_step hreq hi (step_move py item hs)) i
  have hsince : Since item u.log i t := by
    obtain ⟨k', hk⟩ := Flow.head_of_cmd (shop py item) (i := i) (p := u.ph i) hset
    revert hknown hk
    cases u.ph i with
    | writing locked new =>
      intro hknown _
      cases locked with
      | false =>
        obtain ⟨q', hr'⟩ := hknown
        cases hr.symm.trans hr'
      | true =>
        obtain ⟨t', q', hr', -, hs⟩ := hknown
        cases hr.symm.trans hr'
        exact hs
    | initing stock => intro hknown _; cases hr.symm.trans hknown
    | trying t q n => cases n <;> (intro _ hk; cases hk)
    | resting | entering | reading | delaying | exiting | releasing | ended => intro _ hk; cases hk
  obtain ⟨before, after, hlog, hg, hf⟩ := hsince
  refine ⟨before, after, hlog, ?_⟩
  change Lease.lease.run _ (leaseEvents (itemKey item) u.log) = some (u.mem.lock item) at hlease
  rw [hlog] at hlease
  rw [← lapse_mem]
  exact (took_held_iff _ hlease hg).trans (and_iff_left hf)

end Exclusion

/-! ## A write under the next holder's lock -/

/-- The first reads 5; the key runs out; the second takes it, reads 5 too and writes 4. -/
def overtaking : List (Ev Buyer Unit World) :=
  List.replicate 4 (.run Buyer.first ()) ++ .env (.expire "inventory:x") :: List.replicate 5 (.run Buyer.second ())

def overtaken : Serving Buyer :=
  ((threads memory).run (start (stocked "5") fun i => serve IntText.decimal "x" i (.withLock (twoTokens i) 1))
    overtaking).get rfl

theorem overtaken_reached : (threads memory).Reach Machine.any
    (start (stocked "5") fun i => serve IntText.decimal "x" i (.withLock (twoTokens i) 1)) overtaken :=
  Machine.reach_any_of_run overtaking (Option.some_get _).symm

/-- The first then writes its 4 while the key holds the second's token. -/
theorem locked_set_overtaken : ∃ s s' : Serving Buyer,
    (threads memory).Reach Machine.any
        (start (stocked "5") fun i => serve IntText.decimal "x" i (.withLock (twoTokens i) 1)) s ∧
      s.mem.lock "x" = some (twoTokens .second).1 ∧ s.mem.stock "x" = some "4" ∧
      (threads memory).step s (.run .first ()) = some s' ∧
      s'.log = s.log ++ [.did .first (.set (stockKey "x") "4") (.ok ())] :=
  ⟨overtaken, _, overtaken_reached, rfl, rfl, rfl, rfl⟩

theorem overtaken_not_owned : overtaken.mem.lock "x" ≠ some (twoTokens .first).1 ∧ ∃ before after,
    overtaken.log = before ++ took (itemKey "x") 5000 .first (twoTokens .first) :: after ∧
      .world (.expire ("inventory:" ++ "x")) ∈ after := by
  have hlock : overtaken.mem.lock "x" ≠ some (twoTokens .first).1 := by decide
  obtain ⟨before, after, hlog, hiff⟩ := locked_set_owned_iff (q := 1) (v := "4")
    (fun _ _ _ _ _ hi hj => twoTokens_injective ((Request.withLock.inj hi).1.trans (Request.withLock.inj hj).1.symm))
    overtaken_reached (i := .first) (t := twoTokens .first) rfl rfl
  exact ⟨hlock, before, after, hlog, not_not.mp fun hno => hlock (hiff.mpr hno)⟩

end Playground.Lock
