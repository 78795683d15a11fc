/-
  Playground.Lib.Machine — machines driven by events, and what holds over their runs.

  A machine says what an event does in a state, or that the event cannot happen
  there. Its runs are the event sequences it allows; `Reach ok s₀` are the states
  reached by runs from `s₀` each of whose steps meets the condition `ok`, a
  condition on the state before the step and the event.

  - `Reach.invariant`: what holds at the start and is kept by every step that meets
    the condition holds in every state reached.
  - `Reach.along`: the same for a second machine that follows the first step by step
    (a simulation), which yields a related state of it.
  - `reach_of_run`: a run computed by `run` reaches its end.
  - `noting`: the machine with a value kept beside its state that it does not depend on.
-/

namespace Playground.Lib

/-- What an event does in a state; `none` when it cannot happen there. -/
structure Machine (S E : Type) where
  step : S → E → Option S

namespace Machine

variable {S E T F : Type} (sys : Machine S E)

/-- The states reached from `s₀` by steps that each meet `ok`. -/
inductive Reach (ok : S → E → Prop) (s₀ : S) : S → Prop
  | init : Reach ok s₀ s₀
  | step {s s' : S} (e : E) : Reach ok s₀ s → ok s e → sys.step s e = some s' → Reach ok s₀ s'

/-- No condition: every step the machine allows. -/
def any : S → E → Prop := fun _ _ => True

def run (s : S) : List E → Option S
  | [] => some s
  | e :: es => (sys.step s e).bind fun s' => run s' es

variable {sys} {ok ok' : S → E → Prop} {s₀ s s' : S}

theorem Reach.mono (hok : ∀ s e, ok s e → ok' s e) (h : sys.Reach ok s₀ s) : sys.Reach ok' s₀ s := by
  induction h with
  | init => exact .init
  | step e _ ho hs ih => exact .step e ih (hok _ _ ho) hs

theorem Reach.trans (h : sys.Reach ok s₀ s) (h' : sys.Reach ok s s') : sys.Reach ok s₀ s' := by
  induction h' with
  | init => exact h
  | step e _ ho hs ih => exact .step e ih ho hs

/-- What holds at the start and is kept by every allowed step holds in every state
    reached. -/
theorem Reach.invariant {P : S → Prop} (h0 : P s₀)
    (hstep : ∀ s e s', P s → ok s e → sys.step s e = some s' → P s') (h : sys.Reach ok s₀ s) : P s := by
  induction h with
  | init => exact h0
  | step e _ ho hs ih => exact hstep _ e _ ih ho hs

/-- A condition that follows from `ok` in every state reached is met too. -/
theorem Reach.mono_of (h : sys.Reach ok s₀ s) (hok : ∀ s e, sys.Reach ok s₀ s → ok s e → ok' s e) :
    sys.Reach ok' s₀ s := by
  induction h with
  | init => exact .init
  | step e hr ho hs ih => exact .step e ih (hok _ _ hr ho) hs

/-- A machine `sys'` that matches every allowed step of `sys` by one of its own,
    keeping `R`, reaches a state related to each state `sys` reaches. -/
theorem Reach.along {sys' : Machine T F} {okT : T → F → Prop} {R : S → T → Prop} {t₀ : T} (h0 : R s₀ t₀)
    (hstep : ∀ s t e s', R s t → ok s e → sys.step s e = some s' →
      ∃ f t', okT t f ∧ sys'.step t f = some t' ∧ R s' t')
    (h : sys.Reach ok s₀ s) : ∃ t, sys'.Reach okT t₀ t ∧ R s t := by
  induction h with
  | init => exact ⟨t₀, .init, h0⟩
  | step e _ ho hs ih =>
    obtain ⟨t, ht, hr⟩ := ih
    obtain ⟨f, t', hf, hs', hr'⟩ := hstep _ t e _ hr ho hs
    exact ⟨t', .step f ht hf hs', hr'⟩

/-- A run of a machine that keeps a log: where each step relates its two states over what it
    appends, and such relations compose, the run relates its first state to its last over
    all that was appended. -/
theorem Reach.logged {α : Type} {L : S → List α} {P : S → Prop} {R : List α → S → S → Prop} (h0 : P s₀)
    (hrefl : R [] s₀ s₀) (htrans : ∀ {l l' a b c}, R l a b → R l' b c → R (l ++ l') a c)
    (hstep : ∀ l s e s', P s → R l s₀ s → ok s e → sys.step s e = some s' →
      P s' ∧ ∃ news, L s' = L s ++ news ∧ R news s s')
    (h : sys.Reach ok s₀ s) : ∃ news, L s = L s₀ ++ news ∧ R news s₀ s := by
  have hall : P s ∧ ∃ news, L s = L s₀ ++ news ∧ R news s₀ s := by
    induction h with
    | init => exact ⟨h0, [], (List.append_nil _).symm, hrefl⟩
    | step e _ ho hs ih =>
      obtain ⟨hP, l, hlog, hR⟩ := ih
      obtain ⟨hP', news, hlog', hR'⟩ := hstep l _ e _ hP hR ho hs
      exact ⟨hP', l ++ news, by rw [hlog', hlog, List.append_assoc], htrans hR hR'⟩
  exact hall.2

theorem run_append (s : S) (es fs : List E) :
    sys.run s (es ++ fs) = (sys.run s es).bind fun s' => sys.run s' fs := by
  induction es generalizing s with
  | nil => rfl
  | cons e es ih =>
    simp only [List.cons_append, run]
    cases sys.step s e with
    | none => rfl
    | some t => exact ih t

/-- The run of the events, as long as each meets the condition where it happens. -/
def runIf (ok : S → E → Prop) [∀ s e, Decidable (ok s e)] (s : S) : List E → Option S
  | [] => some s
  | e :: es => if ok s e then (sys.step s e).bind fun s' => runIf ok s' es else none

theorem reach_of_runIf [∀ s e, Decidable (ok s e)] (es : List E) (h : sys.runIf ok s es = some s') :
    sys.Reach ok s s' := by
  induction es generalizing s with
  | nil => cases h; exact .init
  | cons e es ih =>
    simp only [runIf, Option.ite_none_right_eq_some, Option.bind_eq_some_iff] at h
    obtain ⟨ho, t, ht, hr⟩ := h
    have h1 : sys.Reach ok s t := .step e .init ho ht
    exact h1.trans (ih hr)

/-- A computed run whose events meet the condition in every state reaches its end. -/
theorem reach_of_run (es : List E) (hok : ∀ s, ∀ e ∈ es, ok s e) (h : sys.run s es = some s') :
    sys.Reach ok s s' := by
  induction es generalizing s with
  | nil => cases h; exact .init
  | cons e es ih =>
    simp only [run, Option.bind_eq_some_iff] at h
    obtain ⟨t, ht, hr⟩ := h
    have h1 : sys.Reach ok s t := .step e .init (hok s e (List.mem_cons_self ..)) ht
    exact h1.trans (ih (fun u f hf => hok u f (List.mem_cons_of_mem _ hf)) hr)

/-- The machine with a value beside its state, which every step moves on by `next`. -/
def noting {G : Type} (sys : Machine S E) (next : G → S → E → S → G) : Machine (S × G) E where
  step s e := (sys.step s.1 e).map fun s' => (s', next s.2 s.1 e s')

section Noting

variable {G : Type} {next : G → S → E → S → G} {g g' : G} {e : E}

theorem noting_step : (sys.noting next).step (s, g) e = some (s', g') ↔
    sys.step s e = some s' ∧ g' = next g s e s' := by
  simp only [noting, Option.map_eq_some_iff, Prod.mk.injEq]
  constructor
  · rintro ⟨t, ht, rfl, rfl⟩
    exact ⟨ht, rfl⟩
  · rintro ⟨h, rfl⟩
    exact ⟨s', h, rfl, rfl⟩

/-- Noting a value changes nothing about the runs. -/
theorem Reach.noting (g₀ : G) (h : sys.Reach ok s₀ s) :
    ∃ g, (sys.noting next).Reach (fun t e => ok t.1 e) (s₀, g₀) (s, g) := by
  induction h with
  | init => exact ⟨g₀, .init⟩
  | step e _ ho hs ih =>
    obtain ⟨g, hg⟩ := ih
    exact ⟨_, .step e hg ho (noting_step.mpr ⟨hs, rfl⟩)⟩

theorem Reach.forget {t₀ t : S × G} (h : (sys.noting next).Reach (fun t e => ok t.1 e) t₀ t) :
    sys.Reach ok t₀.1 t.1 := by
  induction h with
  | init => exact .init
  | step e _ ho hs ih => exact .step e ih ho (noting_step.mp hs).1

end Noting

/-- The condition `any` asks nothing of the events. -/
theorem reach_any_of_run (es : List E) (h : sys.run s es = some s') : sys.Reach any s s' :=
  reach_of_run es (fun _ _ _ => trivial) h

end Machine

/-- A split of a history around an entry is a split before its newest entry, or is
    around the newest. -/
theorem split_snoc {α : Type} {log before after : List α} {x d : α} (h : log ++ [x] = before ++ d :: after) :
    (∃ rest, after = rest ++ [x] ∧ log = before ++ d :: rest) ∨ (after = [] ∧ d = x ∧ before = log) := by
  rcases List.eq_nil_or_concat after with rfl | ⟨rest, y, rfl⟩
  · obtain ⟨h1, h2⟩ := List.append_inj' h rfl
    exact .inr ⟨rfl, (List.singleton_inj.mp h2).symm, h1.symm⟩
  · rw [List.concat_eq_append, ← List.cons_append, ← List.append_assoc] at h
    obtain ⟨h1, h2⟩ := List.append_inj' h rfl
    cases h2
    exact .inl ⟨rest, by simp, h1⟩

end Playground.Lib
