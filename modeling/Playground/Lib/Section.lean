/-
  Playground.Lib.Section — critical sections: bodies that threads run under a lock.

  A `Section` tries so many times to take the lock, runs its body under it and frees it
  whichever way the body ends; its commands may raise, with their effect or without.
  `Excludes` is what is asked of memory: an attempt takes the lock only when nobody has
  it, a free removes the caller's own token only, and a body's command does what it does
  to the data alone.
  - `sections_serial`: while the lock is not taken from a thread inside and nobody else
    changes the data, the bodies run one after another, in the order in which the lock
    was taken: each as it may run by itself, from the data that the one before it left.
-/

import Mathlib.Algebra.BigOperators.Group.Finset.Basic
import Mathlib.Algebra.Ring.Nat
import Playground.Lib.Coroutine

namespace Playground.Lib

variable {ι C X α β χ ε σ δ τ : Type} {A : C → Type}

/-! ## Sections -/

structure Guard (C : Type) (A : C → Type) (X : Type) where
  attempt : C
  rest : C
  free : C
  /-- The outcome of the command shows that the lock was taken. -/
  takes : (c : C) → Except X (A c) → Bool
  frees : C → Bool
  /-- What an exception at the rest comes to: an exception, or giving up. -/
  woken : X → Option X
  takes_error : ∀ x, takes attempt (.error x) = false
  takes_rest : ∀ r, takes rest r = false
  takes_free : ∀ r, takes free r = false
  frees_attempt : frees attempt = false
  frees_rest : frees rest = false
  frees_free : frees free = true

namespace Guard

variable (g : Guard C A X)

/-- Rests, and goes on. -/
def pause (next : Co C A X Bool) : Co C A X Bool :=
  .cmd g.rest fun
    | .ok _ => next
    | .error x => match g.woken x with
      | some x => .raise x
      | none => .ret false

/-- The attempts still to make: whether one took the lock. -/
def attempts : Nat → Co C A X Bool
  | 0 => .ret false
  | n + 1 => .cmd g.attempt fun
    | .ok a => if g.takes g.attempt (.ok a) then .ret true else g.pause (attempts n)
    | .error x => .raise x

def release : Co C A X Unit := (Co.await g.free).bind fun _ => .ret ()

end Guard

structure Section (C : Type) (A : C → Type) (X α : Type) where
  guard : Guard C A X
  tries : Nat
  body : Co C A X α
  /-- What it comes to without the lock. -/
  giveUp : Except X α

namespace Section

variable (s : Section C A X α)

def enter (entered : Bool) : Co C A X α := if entered then s.body.andFinally s.guard.release else Co.resume s.giveUp

def code : Co C A X α := (s.guard.attempts s.tries).bind s.enter

inductive Phase (C : Type) (A : C → Type) (X α : Type) where
  /-- `n` attempts left. -/
  | trying (n : Nat)
  | resting (n : Nat)
  /-- What is left of the body; the release comes behind it. -/
  | inside (p : Co C A X α)
  | ended (r : Except X α)

/-- The release is over. -/
def Phase.leave (out : Except X α) {B : Type} : Except X B → Phase C A X α
  | .ok _ => .ended out
  | .error x => .ended (.error x)

def codeOf : Phase C A X α → Co C A X α
  | .trying n => (s.guard.attempts n).bind s.enter
  | .resting n => (s.guard.pause (s.guard.attempts n)).bind s.enter
  | .inside p => p.andFinally s.guard.release
  | .ended r => Co.resume r

def headOf : Phase C A X α → Head C A X α (Phase C A X α)
  | .trying 0 => .ended s.giveUp
  | .trying (n + 1) => .goes s.guard.attempt fun
    | .ok a => if s.guard.takes s.guard.attempt (.ok a) then .inside s.body else .resting n
    | .error x => .ended (.error x)
  | .resting n => .goes s.guard.rest fun
    | .ok _ => .trying n
    | .error x => match s.guard.woken x with
      | some x => .ended (.error x)
      | none => .ended s.giveUp
  | .inside (.cmd c k) => .goes c fun r => .inside (k r)
  | .inside (.ret a) => .goes s.guard.free (.leave (.ok a))
  | .inside (.raise x) => .goes s.guard.free (.leave (.error x))
  | .ended r => .ended r

theorem unfolds (p : Phase C A X α) : s.codeOf p = (s.headOf p).code s.codeOf := by
  cases p with
  | trying n =>
    cases n with
    | zero => rfl
    | succ n =>
      refine Co.cmd_congr ?_ fun _ => rfl
      intro a
      by_cases h : s.guard.takes s.guard.attempt (.ok a) = true
      · simp only [h, if_true]
        rfl
      · simp only [h, if_false, Bool.false_eq_true]
        rfl
  | resting n =>
    refine Co.cmd_congr (fun _ => rfl) ?_
    intro x
    cases h : s.guard.woken x with
    | none =>
      simp only [h]
      rfl
    | some y =>
      simp only [h]
      rfl
  | inside p =>
    cases p with
    | ret a => exact Co.cmd_congr (fun _ => rfl) fun _ => rfl
    | raise x => exact Co.cmd_congr (fun _ => rfl) fun _ => rfl
    | cmd c k => rfl
  | ended r => rfl

end Section

/-- A section's answer may be made up inside it as well as behind it. -/
theorem Co.andFinally_map (p : Co C A X α) (f : Co C A X Unit) (g : α → β) :
    (p.andFinally f).bind (fun a => .ret (g a)) = (p.bind fun a => .ret (g a)).andFinally f := by
  induction p with
  | ret a => exact Co.bind_assoc ..
  | raise x => exact Co.bind_assoc ..
  | cmd c k ih => exact congrArg (Co.cmd c) (funext ih)

/-! ## What is asked of memory -/

structure Excludes (M : Memory ι C A X χ ε σ) (D : Memory ι C A X χ Empty δ) (guard : ι → Guard C A X)
    (inner : C → Prop) (owner : σ → Option τ) (data : σ → δ) (token : ι → τ) : Prop where
  distinct : Function.Injective token
  attempt : ∀ {i x m rm}, M.exec i (guard i).attempt x m = some rm → data rm.2 = data m ∧
    (owner rm.2 = owner m ∨ owner m = none) ∧
    ((guard i).takes (guard i).attempt rm.1 = true → owner m = none ∧ owner rm.2 = some (token i))
  rest : ∀ {i x m rm}, M.exec i (guard i).rest x m = some rm → data rm.2 = data m ∧ owner rm.2 = owner m
  free : ∀ {i x m rm}, M.exec i (guard i).free x m = some rm → data rm.2 = data m
  inside : ∀ {i c x m rm}, inner c → M.exec i c x m = some rm →
    owner rm.2 = owner m ∧ D.exec i c x (data m) = some (rm.1, data rm.2)
  plain : ∀ {i c}, inner c → (∀ r, (guard i).takes c r = false) ∧ (guard i).frees c = false

/-! ## Bodies one after another -/

/-- Run by itself as thread `i`, the program may end so. -/
inductive Solo (D : Memory ι C A X χ Empty δ) (i : ι) : Co C A X α → δ → Except X α → δ → Prop
  | ret (a : α) (d : δ) : Solo D i (.ret a) d (.ok a) d
  | raise (x : X) (d : δ) : Solo D i (.raise x) d (.error x) d
  | cmd {c : C} {k : Except X (A c) → Co C A X α} {x : χ} {o : Except X (A c)} {d d₁ d₂ : δ} {r : Except X α} :
    D.exec i c x d = some (o, d₁) → Solo D i (k o) d₁ r d₂ → Solo D i (.cmd c k) d r d₂

/-- Run one after another from `d₀`, each thread as `runs` lets it, they may end so and leave `d`. -/
inductive Serial (runs : ι → δ → Except X α → δ → Prop) (d₀ : δ) : List (ι × Except X α) → δ → Prop
  | nil : Serial runs d₀ [] d₀
  | snoc {done : List (ι × Except X α)} {i : ι} {r : Except X α} {d d' : δ} :
    Serial runs d₀ done d → runs i d r d' → Serial runs d₀ (done ++ [(i, r)]) d'

theorem Serial.mono {runs runs' : ι → δ → Except X α → δ → Prop} (h : ∀ {i d r d'}, runs i d r d' → runs' i d r d')
    {d₀ : δ} {done : List (ι × Except X α)} {d : δ} (hs : Serial runs d₀ done d) : Serial runs' d₀ done d := by
  induction hs with
  | nil => exact .nil
  | snoc _ hr ih => exact .snoc ih (h hr)

/-- What the data is worth goes down by what each body costs. -/
theorem Serial.spends {runs : ι → δ → Except X α → δ → Prop} (worth : δ → Nat → Prop) (cost : ι × Except X α → Nat)
    (h : ∀ {i d r d' n}, worth d n → runs i d r d' → ∃ n', worth d' n' ∧ n' + cost (i, r) ≤ n) {d₀ : δ} {n₀ : Nat}
    (h₀ : worth d₀ n₀) {done : List (ι × Except X α)} {d : δ} (hs : Serial runs d₀ done d) :
    ∃ n, worth d n ∧ n + (done.map cost).sum ≤ n₀ := by
  induction hs with
  | nil => exact ⟨n₀, h₀, by simp⟩
  | snoc _ hr ih =>
    obtain ⟨n, hn, hle⟩ := ih
    obtain ⟨n', hn', hle'⟩ := h hn hr
    refine ⟨n', hn', ?_⟩
    rw [List.map_append, List.sum_append, List.map_singleton, List.sum_singleton]
    omega

/-- Some of the threads cost no more than all. -/
theorem sum_le_costs {cost : ι × β → Nat} {q : ι → Nat} {done : List (ι × β)} (who : Finset ι)
    (h : ∀ i ∈ who, ∃ r, (i, r) ∈ done ∧ q i ≤ cost (i, r)) : ∑ i ∈ who, q i ≤ (done.map cost).sum := by
  classical
  induction done generalizing who with
  | nil =>
    rw [Finset.eq_empty_of_forall_notMem fun i hi => List.not_mem_nil (h i hi).choose_spec.1, Finset.sum_empty]
    exact Nat.zero_le _
  | cons e done ih =>
    rw [List.map_cons, List.sum_cons]
    by_cases he : e.1 ∈ who ∧ q e.1 ≤ cost e
    · rw [← Finset.add_sum_erase who q he.1]
      refine Nat.add_le_add he.2 (ih _ fun i hi => ?_)
      obtain ⟨hne, hi⟩ := Finset.mem_erase.mp hi
      obtain ⟨r, hr, hle⟩ := h i hi
      refine ⟨r, (List.mem_cons.mp hr).resolve_left ?_, hle⟩
      rintro rfl
      exact hne rfl
    · refine (ih who fun i hi => ?_).trans (Nat.le_add_left ..)
      obtain ⟨r, hr, hle⟩ := h i hi
      refine ⟨r, (List.mem_cons.mp hr).resolve_left ?_, hle⟩
      rintro rfl
      exact he ⟨hi, hle⟩

/-- However `q` ends from `d'`, `p` may end from `d`. -/
def Part (D : Memory ι C A X χ Empty δ) (i : ι) (p : Co C A X α) (d : δ) (q : Co C A X α) (d' : δ) : Prop :=
  ∀ {r d''}, Solo D i q d' r d'' → Solo D i p d r d''

theorem Part.cmd {D : Memory ι C A X χ Empty δ} {i : ι} {p : Co C A X α} {c : C} {k : Except X (A c) → Co C A X α}
    {x : χ} {o : Except X (A c)} {d d₁ d₂ : δ} (h : Part D i p d (.cmd c k) d₁)
    (hx : D.exec i c x d₁ = some (o, d₂)) : Part D i p d (k o) d₂ :=
  fun hs => h (.cmd hx hs)

/-! ## The order -/

variable (sec : ι → Section C A X α)

abbrev History (ι C : Type) (A : C → Type) (X ε : Type) := List (Entry ι C A X ε)

def enteredBy : Entry ι C A X ε → Option ι
  | .did i c r => if (sec i).guard.takes c r then some i else none
  | .world _ => none

def freedBy : Entry ι C A X ε → Option ι
  | .did i c _ => if (sec i).guard.frees c then some i else none
  | .world _ => none

/-- The threads that took the lock, in that order. -/
def entered (log : History ι C A X ε) : List ι := log.filterMap (enteredBy sec)

def freed (log : History ι C A X ε) : List ι := log.filterMap (freedBy sec)

/-- Between taking the lock and freeing it. -/
def Inside (log : History ι C A X ε) (i : ι) : Prop := i ∈ entered sec log ∧ i ∉ freed sec log

instance [DecidableEq ι] (log : History ι C A X ε) (i : ι) : Decidable (Inside sec log i) :=
  inferInstanceAs (Decidable (_ ∧ _))

/-- The bodies of `done` ran one after another, each as `runs` lets it, in the order in
    which the lock was taken, and left `d`. A thread that returned is answered what its
    body came to, or never took the lock; one that raised may also have been let down by
    the release. -/
structure InOrder (runs : ι → δ → Except X α → δ → Prop) (data : σ → δ) (d₀ : δ) (s : Threads ι C A X α ε σ)
    (done : List (ι × Except X α)) (d : δ) : Prop where
  serial : Serial runs d₀ done d
  nodup : (entered sec s.log).Nodup
  order : done.map Prod.fst <+: entered sec s.log
  answered : ∀ i a, s.thr i = .ret a → (i, .ok a) ∈ done ∨ i ∉ entered sec s.log ∧ (sec i).giveUp = .ok a
  raised : ∀ i x, s.thr i = .raise x → (i, .error x) ∈ done ∨ i ∉ entered sec s.log ∨
    .did i (sec i).guard.free (.error x) ∈ s.log
  /-- With nobody inside, all of them are done, and `d` is what there is. -/
  left : (∀ i, ¬ Inside sec s.log i) → done.map Prod.fst = entered sec s.log ∧ data s.mem = d

variable {sec} in
theorem InOrder.mono {runs runs' : ι → δ → Except X α → δ → Prop} (h : ∀ {i d r d'}, runs i d r d' → runs' i d r d')
    {data : σ → δ} {d₀ d : δ} {s : Threads ι C A X α ε σ} {done : List (ι × Except X α)}
    (hs : InOrder sec runs data d₀ s done d) : InOrder sec runs' data d₀ s done d :=
  ⟨hs.serial.mono h, hs.nodup, hs.order, hs.answered, hs.raised, hs.left⟩

variable {sec}

section Log

variable {log : History ι C A X ε} {i : ι} {c : C} {r : Except X (A c)}

theorem entered_did (h : (sec i).guard.takes c r = true) :
    entered sec (log ++ [.did i c r]) = entered sec log ++ [i] := by
  rw [entered, List.filterMap_append, filterMap_one, enteredBy, if_pos h]
  rfl

theorem entered_quiet (h : (sec i).guard.takes c r = false) : entered sec (log ++ [.did i c r]) = entered sec log := by
  rw [entered, List.filterMap_append, filterMap_one, enteredBy, h]
  exact List.append_nil _

theorem freed_did (h : (sec i).guard.frees c = true) : freed sec (log ++ [.did i c r]) = freed sec log ++ [i] := by
  rw [freed, List.filterMap_append, filterMap_one, freedBy, if_pos h]
  rfl

theorem freed_quiet (h : (sec i).guard.frees c = false) : freed sec (log ++ [.did i c r]) = freed sec log := by
  rw [freed, List.filterMap_append, filterMap_one, freedBy, h]
  exact List.append_nil _

theorem entered_world (e : ε) : entered sec (log ++ [.world e]) = entered sec log := by
  rw [entered, List.filterMap_append, filterMap_one]
  exact List.append_nil _

theorem freed_world (e : ε) : freed sec (log ++ [.world e]) = freed sec log := by
  rw [freed, List.filterMap_append, filterMap_one]
  exact List.append_nil _

end Log

/-! ## The invariant -/

/-- What is known of a thread that is not inside. -/
def Known (sec : ι → Section C A X α) (log : History ι C A X ε) (done : List (ι × Except X α)) (i : ι) :
    Section.Phase C A X α → Prop
  | .trying _ | .resting _ => i ∉ entered sec log
  | .inside _ => False
  | .ended r =>
    (∃ r₀, (i, r₀) ∈ done ∧ (r = r₀ ∨ ∃ x, r = .error x ∧ .did i (sec i).guard.free (.error x) ∈ log)) ∨
      i ∉ entered sec log ∧ (r = (sec i).giveUp ∨ ∃ x, r = .error x)

/-- The bodies of `done` have run, and the one of `cur` runs. -/
structure Core (D : Memory ι C A X χ Empty δ) (sec : ι → Section C A X α) (inner : C → Prop) (owner : σ → Option τ)
    (data : σ → δ) (token : ι → τ) (d₀ : δ) (t : Phases ι C A X ε σ (Section.Phase C A X α))
    (done : List (ι × Except X α)) (cur : Option ι) : Prop where
  order : entered sec t.log = done.map Prod.fst ++ cur.toList
  nodup : (entered sec t.log).Nodup
  released : ∀ i, i ∈ freed sec t.log ↔ i ∈ done.map Prod.fst
  idle : cur = none → Serial (fun i => Solo D i (sec i).body) d₀ done (data t.mem)
  busy : ∀ i, cur = some i → ∃ d p, Serial (fun i => Solo D i (sec i).body) d₀ done d ∧ t.ph i = .inside p ∧
    p.Only inner ∧ owner t.mem = some (token i) ∧ Part D i (sec i).body d p (data t.mem)
  outside : ∀ i, cur ≠ some i → Known sec t.log done i (t.ph i)

theorem Known.mono {log log' : History ι C A X ε} {done done' : List (ι × Except X α)} {i : ι}
    {p : Section.Phase C A X α} (h : Known sec log done i p) (hdone : ∀ e ∈ done, e ∈ done')
    (hent : i ∉ entered sec log → i ∉ entered sec log') (hlog : ∀ e ∈ log, e ∈ log') : Known sec log' done' i p := by
  cases p with
  | trying n => exact hent h
  | resting n => exact hent h
  | inside p => exact h
  | ended r =>
    rcases h with ⟨r₀, hr₀, h⟩ | ⟨hn, h⟩
    · exact .inl ⟨r₀, hdone _ hr₀, h.imp_right fun ⟨x, hx, hl⟩ => ⟨x, hx, hlog _ hl⟩⟩
    · exact .inr ⟨hent hn, h⟩

section Steps

variable {M : Memory ι C A X χ ε σ} {D : Memory ι C A X χ Empty δ} {inner : C → Prop} {owner : σ → Option τ}
  {data : σ → δ} {token : ι → τ} {d₀ : δ} {t : Phases ι C A X ε σ (Section.Phase C A X α)}
  {done : List (ι × Except X α)} {cur : Option ι} {i : ι} {c : C} {r : Except X (A c)} {m : σ}

/-- When nobody has the lock no body runs. -/
theorem Core.free (h : Core D sec inner owner data token d₀ t done cur) (hnone : owner t.mem = none) : cur = none := by
  by_contra hc
  obtain ⟨j, hj⟩ := Option.ne_none_iff_exists'.mp hc
  obtain ⟨_, _, _, _, _, hw, _⟩ := h.busy j hj
  cases hnone.symm.trans hw

theorem Core.current (h : Core D sec inner owner data token d₀ t done cur) :
    (∃ j, Inside sec t.log j) ↔ cur ≠ none := by
  constructor
  · rintro ⟨j, hin, hout⟩ rfl
    rw [h.order, Option.toList_none, List.append_nil] at hin
    exact hout ((h.released j).mpr hin)
  · intro hne
    obtain ⟨j, hj⟩ := Option.ne_none_iff_exists'.mp hne
    refine ⟨j, ?_, fun hfreed => ?_⟩
    · rw [h.order, hj]
      exact List.mem_append_right _ (List.mem_singleton.mpr rfl)
    · have hnd := h.nodup
      rw [h.order, hj, List.nodup_append] at hnd
      exact hnd.2.2 j ((h.released j).mp hfreed) j (List.mem_singleton.mpr rfl) rfl

variable [DecidableEq ι]

/-- A thread outside runs a command that neither takes the lock nor frees it. -/
theorem Core.quiet (h : Core D sec inner owner data token d₀ t done cur) {p : Section.Phase C A X α}
    (htakes : (sec i).guard.takes c r = false) (hfrees : (sec i).guard.frees c = false) (hdata : data m = data t.mem)
    (howner : cur ≠ none → owner m = owner t.mem) (hi : cur ≠ some i)
    (hp : Known sec t.log done i p) :
    Core D sec inner owner data token d₀ (t.did i c r m p) done cur := by
  have hent : entered sec (t.did i c r m p).log = entered sec t.log := entered_quiet htakes
  have hfreed : freed sec (t.did i c r m p).log = freed sec t.log := freed_quiet hfrees
  have hmono : ∀ {j q}, Known sec t.log done j q → Known sec (t.did i c r m p).log done j q := fun hk =>
    hk.mono (fun _ h => h) (by rw [hent]; exact id) fun _ h => List.mem_append_left _ h
  refine ⟨by rw [hent]; exact h.order, by rw [hent]; exact h.nodup, by rw [hfreed]; exact h.released, ?_, ?_, ?_⟩
  · intro hc
    rw [Phases.did_mem, hdata]
    exact h.idle hc
  · intro j hj
    obtain ⟨d, q, hs, hq, ho, hw, hpart⟩ := h.busy j hj
    have hne : j ≠ i := by
      rintro rfl
      exact hi hj
    refine ⟨d, q, hs, (Phases.did_ph_ne _ _ _ _ _ _ hne).trans hq, ho, ?_, ?_⟩
    · rw [Phases.did_mem, howner (by rw [hj]; exact Option.some_ne_none _)]
      exact hw
    · rw [Phases.did_mem, hdata]
      exact hpart
  · intro j hj
    by_cases e : j = i
    · subst e
      rw [Phases.did_ph_same]
      exact hmono hp
    · rw [Phases.did_ph_ne _ _ _ _ _ _ e]
      exact hmono (h.outside j hj)

/-- A thread takes the lock. -/
theorem Core.take (h : Core D sec inner owner data token d₀ t done none) (htakes : (sec i).guard.takes c r = true)
    (hfrees : (sec i).guard.frees c = false) (hdata : data m = data t.mem) (howner : owner m = some (token i))
    (honly : (sec i).body.Only inner) (hi : i ∉ entered sec t.log) :
    Core D sec inner owner data token d₀ (t.did i c r m (.inside (sec i).body)) done (some i) := by
  have hent : entered sec (t.did i c r m (.inside (sec i).body)).log = entered sec t.log ++ [i] := entered_did htakes
  have hfreed : freed sec (t.did i c r m (.inside (sec i).body)).log = freed sec t.log := freed_quiet hfrees
  refine ⟨?_, ?_, by rw [hfreed]; exact h.released, nofun, ?_, ?_⟩
  · rw [hent, h.order]
    exact congrArg (· ++ [i]) (List.append_nil _)
  · rw [hent, List.nodup_append]
    refine ⟨h.nodup, List.pairwise_singleton .., fun a ha b hb hab => hi ?_⟩
    rwa [← List.mem_singleton.mp hb, ← hab]
  · rintro j hj
    cases hj
    refine ⟨data t.mem, _, h.idle rfl, Phases.did_ph_same .., honly, howner, ?_⟩
    rw [Phases.did_mem, hdata]
    exact fun hs => hs
  · intro j hj
    have hne : j ≠ i := fun e => hj (by rw [e])
    rw [Phases.did_ph_ne _ _ _ _ _ _ hne]
    refine (h.outside j nofun).mono (fun _ h => h) ?_ fun _ h => List.mem_append_left _ h
    rw [hent, List.mem_append, List.mem_singleton]
    exact fun hn => not_or.mpr ⟨hn, hne⟩

/-- The thread inside runs a command of its body. -/
theorem Core.work (h : Core D sec inner owner data token d₀ t done (some i)) {k : Except X (A c) → Co C A X α} {x : χ}
    (hph : t.ph i = .inside (.cmd c k)) (hx : D.exec i c x (data t.mem) = some (r, data m))
    (howner : owner m = owner t.mem) (htakes : (sec i).guard.takes c r = false)
    (hfrees : (sec i).guard.frees c = false) :
    Core D sec inner owner data token d₀ (t.did i c r m (.inside (k r))) done (some i) := by
  have hent : entered sec (t.did i c r m (.inside (k r))).log = entered sec t.log := entered_quiet htakes
  have hfreed : freed sec (t.did i c r m (.inside (k r))).log = freed sec t.log := freed_quiet hfrees
  obtain ⟨d, q, hs, hq, ho, hw, hpart⟩ := h.busy i rfl
  cases hph.symm.trans hq
  refine ⟨by rw [hent]; exact h.order, by rw [hent]; exact h.nodup, by rw [hfreed]; exact h.released, nofun, ?_, ?_⟩
  · rintro j hj
    cases hj
    exact ⟨d, k r, hs, Phases.did_ph_same .., ho.2 r, howner.trans hw, hpart.cmd hx⟩
  · intro j hj
    have hne : j ≠ i := fun e => hj (by rw [e])
    rw [Phases.did_ph_ne _ _ _ _ _ _ hne]
    exact (h.outside j hj).mono (fun _ h => h) (by rw [hent]; exact id) fun _ h => List.mem_append_left _ h

/-- The thread inside frees the lock, its body over. -/
theorem Core.leave (h : Core D sec inner owner data token d₀ t done (some i)) {q : Co C A X α} {out : Except X α}
    {r : Except X (A (sec i).guard.free)} (hph : t.ph i = .inside q) (hout : ∀ d, Solo D i q d out d)
    (hdata : data m = data t.mem) :
    Core D sec inner owner data token d₀ (t.did i (sec i).guard.free r m (.leave out r)) (done ++ [(i, out)]) none := by
  have hent : entered sec (t.did i (sec i).guard.free r m (.leave out r)).log = entered sec t.log :=
    entered_quiet ((sec i).guard.takes_free r)
  have hfreed : freed sec (t.did i (sec i).guard.free r m (.leave out r)).log = freed sec t.log ++ [i] :=
    freed_did (sec i).guard.frees_free
  obtain ⟨d, q', hs, hq, -, -, hpart⟩ := h.busy i rfl
  cases hph.symm.trans hq
  refine ⟨?_, by rw [hent]; exact h.nodup, ?_, ?_, nofun, ?_⟩
  · rw [hent, h.order, List.map_append]
    exact (List.append_nil _).symm
  · intro j
    rw [hfreed, List.mem_append, h.released j, List.map_append, List.mem_append]
    exact Iff.rfl
  · intro _
    rw [Phases.did_mem, hdata]
    exact .snoc hs (hpart (hout _))
  · intro j _
    by_cases e : j = i
    · subst e
      rw [Phases.did_ph_same]
      have hmem : (j, out) ∈ done ++ [(j, out)] := List.mem_append_right _ (List.mem_singleton.mpr rfl)
      cases r with
      | ok a => exact .inl ⟨out, hmem, .inl rfl⟩
      | error x => exact .inl ⟨out, hmem, .inr ⟨x, rfl, List.mem_append_right _ (List.mem_singleton.mpr rfl)⟩⟩
    · rw [Phases.did_ph_ne _ _ _ _ _ _ e]
      exact (h.outside j fun hj => e (Option.some.inj hj).symm).mono (fun _ h => List.mem_append_left _ h)
        (by rw [hent]; exact id) fun _ h => List.mem_append_left _ h

omit [DecidableEq ι] in
/-- Something else moves. -/
theorem Core.moved (h : Core D sec inner owner data token d₀ t done cur) (e : ε) (hdata : data m = data t.mem)
    (howner : cur ≠ none → owner m = owner t.mem) : Core D sec inner owner data token d₀ (t.moved e m) done cur := by
  have hent : entered sec (t.moved e m).log = entered sec t.log := entered_world e
  have hfreed : freed sec (t.moved e m).log = freed sec t.log := freed_world e
  refine ⟨by rw [hent]; exact h.order, by rw [hent]; exact h.nodup, by rw [hfreed]; exact h.released, ?_, ?_, ?_⟩
  · intro hc
    rw [Phases.moved_mem, hdata]
    exact h.idle hc
  · intro j hj
    obtain ⟨d, q, hs, hq, ho, hw, hpart⟩ := h.busy j hj
    refine ⟨d, q, hs, hq, ho, (howner (by rw [hj]; exact Option.some_ne_none _)).trans hw, ?_⟩
    rw [Phases.moved_mem, hdata]
    exact hpart
  · exact fun j hj => (h.outside j hj).mono (fun _ h => h) (by rw [hent]; exact id) fun _ h => List.mem_append_left _ h

/-- In such a step nothing happens to the lock under a thread inside, nor to the data. -/
def Undisturbed (M : Memory ι C A X χ ε σ) (sec : ι → Section C A X α) (owner : σ → Option τ) (data : σ → δ)
    (s : Threads ι C A X α ε σ) : Ev ι χ ε → Prop
  | .run _ _ => True
  | .env e => ∀ m, M.env e s.mem = some m →
      data m = data s.mem ∧ ((∃ i, Inside sec s.log i) → owner m = owner s.mem)

def sections (sec : ι → Section C A X α) : Flow ι C A X α (Section.Phase C A X α) :=
  ⟨fun i => (sec i).codeOf, fun i => (sec i).headOf, fun i => (sec i).unfolds⟩

theorem Core.step (hex : Excludes M D (fun i => (sec i).guard) inner owner data token)
    (honly : ∀ i, (sec i).body.Only inner) (h : Core D sec inner owner data token d₀ t done cur) {e : Ev ι χ ε}
    {t' : Phases ι C A X ε σ (Section.Phase C A X α)}
    (hok : Undisturbed M sec owner data ((sections sec).threadsOf t) e)
    (hs : ((sections sec).phases M).step t e = some t') :
    ∃ done' cur', Core D sec inner owner data token d₀ t' done' cur' := by
  cases e with
  | env e =>
    obtain ⟨m, hm, rfl⟩ := Flow.step_env _ hs
    obtain ⟨hdata, howner⟩ := hok m hm
    exact ⟨done, cur, h.moved e hdata fun hc => howner (h.current.mpr hc)⟩
  | run i x =>
    obtain ⟨c, k, rm, hh, hx, rfl⟩ := Flow.step_run _ hs
    change (sec i).headOf (t.ph i) = .goes c k at hh
    -- a thread that is not inside its body is not the one the lock is with
    have hout : (∀ q, t.ph i ≠ .inside q) → cur ≠ some i := by
      rintro hne rfl
      obtain ⟨_, q, _, hq, _⟩ := h.busy i rfl
      exact hne q hq
    have hknown : cur ≠ some i → Known sec t.log done i (t.ph i) := h.outside i
    cases hp : t.ph i with
    | trying n =>
      have hi := hout (by rw [hp]; nofun)
      have hk := hknown hi
      rw [hp] at hh hk
      cases n with
      | zero => cases hh
      | succ n =>
        cases hh
        obtain ⟨hdata, howner, htook⟩ := hex.attempt hx
        have hkept : cur ≠ none → owner rm.2 = owner t.mem := fun hc => howner.resolve_right fun hnone => hc (h.free hnone)
        obtain ⟨r, m⟩ := rm
        cases r with
        | error y =>
          exact ⟨done, cur, h.quiet ((sec i).guard.takes_error y) (sec i).guard.frees_attempt hdata hkept hi
            (.inr ⟨hk, .inr ⟨y, rfl⟩⟩)⟩
        | ok a =>
          by_cases ht : (sec i).guard.takes (sec i).guard.attempt (.ok a) = true
          · obtain ⟨hnone, hmine⟩ := htook ht
            obtain rfl : cur = none := h.free hnone
            simp only [ht, if_true]
            exact ⟨done, some i, h.take ht (sec i).guard.frees_attempt hdata hmine (honly i) hk⟩
          · simp only [ht, if_false, Bool.false_eq_true]
            exact ⟨done, cur, h.quiet (Bool.eq_false_iff.mpr ht) (sec i).guard.frees_attempt hdata hkept hi hk⟩
    | resting n =>
      have hi := hout (by rw [hp]; nofun)
      have hk := hknown hi
      rw [hp] at hh hk
      cases hh
      obtain ⟨hdata, howner⟩ := hex.rest hx
      obtain ⟨r, m⟩ := rm
      refine ⟨done, cur, h.quiet ((sec i).guard.takes_rest r) (sec i).guard.frees_rest hdata (fun _ => howner) hi ?_⟩
      cases r with
      | ok a => exact hk
      | error y =>
        cases hw : (sec i).guard.woken y with
        | none =>
          simp only [hw]
          exact .inr ⟨hk, .inl rfl⟩
        | some z =>
          simp only [hw]
          exact .inr ⟨hk, .inr ⟨z, rfl⟩⟩
    | inside q =>
      obtain rfl : cur = some i := by
        by_contra hi
        have hk := hknown hi
        rw [hp] at hk
        exact hk
      rw [hp] at hh
      cases q with
      | ret a =>
        cases hh
        exact ⟨_, none, h.leave hp (.ret a) (hex.free hx)⟩
      | raise y =>
        cases hh
        exact ⟨_, none, h.leave hp (.raise y) (hex.free hx)⟩
      | cmd c k =>
        cases hh
        obtain ⟨_, q', _, hq, ho, _, _⟩ := h.busy i rfl
        cases hp.symm.trans hq
        obtain ⟨howner, hd⟩ := hex.inside ho.1 hx
        obtain ⟨htakes, hfrees⟩ := hex.plain (i := i) ho.1
        exact ⟨done, some i, h.work hp hd howner (htakes _) hfrees⟩
    | ended r =>
      rw [hp] at hh
      cases hh

omit [DecidableEq ι] in
/-- What is known of a thread that has ended. -/
theorem Core.ended (h : Core D sec inner owner data token d₀ t done cur) {r : Except X α}
    (hh : (sec i).headOf (t.ph i) = .ended r) : Known sec t.log done i (.ended r) := by
  have hi : cur ≠ some i := by
    rintro rfl
    obtain ⟨_, q, _, hq, _⟩ := h.busy i rfl
    rw [hq] at hh
    cases q <;> cases hh
  have hk := h.outside i hi
  cases hp : t.ph i with
  | trying n =>
    rw [hp] at hh hk
    cases n with
    | zero => cases hh; exact .inr ⟨hk, .inl rfl⟩
    | succ n => cases hh
  | resting n => rw [hp] at hh; cases hh
  | inside q => rw [hp] at hk; exact hk.elim
  | ended r' => rw [hp] at hh hk; cases hh; exact hk

/-- The bodies run one after another, each as it may run by itself. -/
theorem sections_serial (hex : Excludes M D (fun i => (sec i).guard) inner owner data token)
    (honly : ∀ i, (sec i).body.Only inner) {m₀ : σ} {s : Threads ι C A X α ε σ}
    (h : (threads M).Reach (Undisturbed M sec owner data) (start m₀ fun i => (sec i).code) s) :
    ∃ done d, InOrder sec (fun i => Solo D i (sec i).body) data (data m₀) s done d := by
  have hflow : (threads M).Reach (Undisturbed M sec owner data)
      ((sections sec).threadsOf ⟨m₀, fun i => .trying (sec i).tries, []⟩) s := h
  obtain ⟨t, ht, rfl⟩ := (sections sec).follows hflow
  obtain ⟨done, cur, hc⟩ : ∃ done cur, Core D sec inner owner data token (data m₀) t done cur := by
    refine ht.invariant (P := fun t => ∃ done cur, Core D sec inner owner data token (data m₀) t done cur) ?_ ?_
    · exact ⟨[], none, rfl, List.nodup_nil, fun _ => Iff.rfl, fun _ => .nil, nofun, fun _ _ => List.not_mem_nil⟩
    · rintro t e t' ⟨done, cur, hc⟩ hok hs
      exact hc.step hex honly hok hs
  obtain ⟨d, hserial, hlast⟩ : ∃ d, Serial (fun i => Solo D i (sec i).body) (data m₀) done d ∧
    (cur = none → data t.mem = d) := by
    cases cur with
    | none => exact ⟨_, hc.idle rfl, fun _ => rfl⟩
    | some j =>
      obtain ⟨d, _, hserial, _⟩ := hc.busy j rfl
      exact ⟨d, hserial, nofun⟩
  refine ⟨done, d, hserial, hc.nodup, ⟨cur.toList, hc.order.symm⟩, ?_, ?_, ?_⟩
  · intro i a hret
    rcases hc.ended ((sections sec).head_of_ret hret) with ⟨r₀, hr₀, h | ⟨x, hx, -⟩⟩ | ⟨hn, h | ⟨x, hx⟩⟩
    · exact .inl (h ▸ hr₀)
    · cases hx
    · exact .inr ⟨hn, h.symm⟩
    · cases hx
  · intro i x hraise
    rcases hc.ended ((sections sec).head_of_raise hraise) with ⟨r₀, hr₀, h | ⟨y, hy, hl⟩⟩ | ⟨hn, -⟩
    · exact .inl (h ▸ hr₀)
    · cases hy
      exact .inr (.inr hl)
    · exact .inr (.inl hn)
  · intro hout
    obtain rfl : cur = none := by
      by_contra hne
      obtain ⟨j, hj⟩ := hc.current.mpr hne
      exact hout j hj
    exact ⟨by rw [show entered sec ((sections sec).threadsOf t).log = _ from hc.order]; exact (List.append_nil _).symm,
      hlast rfl⟩

end Steps

end Playground.Lib
