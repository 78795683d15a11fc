/-
  Playground.Breaker.Automaton — what a circuit breaker is for, with calls one at a time.

  The reference is a timed automaton. Closed, it counts the failures in a row and trips
  at the threshold. Tripped at `since`, it is open until the recovery timeout has
  passed and half-open from then on: nobody has to ask for that. Half-open, a success
  closes it and a failure trips it anew. A call runs its action if the reference is not
  open when it comes.

  An implementation (`Core`) takes the step from open to half-open when it happens to
  look, and may keep counting outside closed. `Core.replies_follow`: if its four
  operations are `Lawful`, every history with a clock that does not go back shows of it
  what it shows of the reference.
-/

import Mathlib.Order.Defs.PartialOrder
import Playground.Breaker.CircuitBreaker
import Playground.Lib.Transducer

namespace Playground.Breaker

open Playground.Lib

/-! ## Histories -/

/-- What a breaker makes of the end of an action. -/
inductive Verdict where
  | success
  | failure
  /-- An exception that the breaker does not catch. -/
  | unseen
  deriving DecidableEq, Repr

/-- A call by itself: the readings of the clock at its check, and at its record; whether
    it has a fallback; how its action ends. -/
structure Call (T O : Type) where
  now : T
  later : T
  done : T
  fallback : Bool
  outcome : O

inductive Item (T O : Type) where
  | call (c : Call T O)
  | query (now later : T)

/-- What is seen of an item. -/
inductive Seen where
  /-- Whether the action ran, and whether the fallback did. -/
  | call (action fallback : Bool)
  | query (state : CircuitState)
  deriving DecidableEq, Repr

/-- No reading of the clock is before `t`, or before an earlier one. -/
def Timely {T O : Type} [LE T] (t : T) : List (Item T O) → Prop
  | [] => True
  | .call c :: rest => t ≤ c.now ∧ c.now ≤ c.later ∧ c.later ≤ c.done ∧ Timely c.done rest
  | .query now later :: rest => t ≤ now ∧ now ≤ later ∧ Timely later rest

/-! ## The reference -/

/-- The threshold, and whether the recovery timeout has passed at `t` since `since`. -/
structure Settings (T : Type) [LE T] where
  threshold : Nat
  expired : (since t : T) → Bool
  expired_mono {since t t' : T} : expired since t → t ≤ t' → expired since t'

inductive Automaton (T : Type) where
  | closed (failures : Nat)
  | tripped (since : T)
  deriving DecidableEq, Repr

section Automaton

variable {T O : Type} [LE T] (st : Settings T)

def Automaton.stateAt (t : T) : Automaton T → CircuitState
  | .closed _ => .closed
  | .tripped since => if st.expired since t then .halfOpen else .opened

/-- After an action that ran, at the time `t`. -/
def Automaton.record (t : T) : Automaton T → Verdict → Automaton T
  | .closed _, .success => .closed 0
  | .closed n, .failure => if st.threshold ≤ n + 1 then .tripped t else .closed (n + 1)
  | .tripped _, .success => .closed 0
  | .tripped _, .failure => .tripped t
  | a, .unseen => a

def Automaton.take (verdict : O → Verdict) (a : Automaton T) : Item T O → Automaton T × Seen
  | .call c =>
    if a.stateAt st c.now = .opened then (a, .call false c.fallback)
    else (a.record st c.done (verdict c.outcome), .call true (c.fallback && verdict c.outcome = .failure))
  | .query now _ => (a, .query (a.stateAt st now))

end Automaton

/-! ## Implementations -/

/-- What an implementation does to its fields `B`. -/
structure Core (B T : Type) where
  state : B → CircuitState
  update : B → (now later : T) → B
  success : B → T → B
  failure : B → T → B

namespace Core

variable {B T O : Type} (core : Core B T)

def take (verdict : O → Verdict) (b : B) : Item T O → B × Seen
  | .call c =>
    let b := core.update b c.now c.later
    if core.state b = .opened then (b, .call false c.fallback)
    else match verdict c.outcome with
      | .success => (core.success b c.done, .call true false)
      | .failure => (core.failure b c.done, .call true c.fallback)
      | .unseen => (b, .call true false)
  | .query now later => (core.update b now later, .query (core.state (core.update b now later)))

/-- The operations are the automaton's. `shows b n`: the counter stands at `n`;
    `stamped b t`: the latest change of state was at `t`. -/
structure Lawful [LE T] (st : Settings T) (shows : B → Nat → Prop) (stamped : B → T → Prop) : Prop where
  update_expired {b : B} {since now later : T} : core.state b = .opened → stamped b since → since ≤ now →
    st.expired since now → core.state (core.update b now later) = .halfOpen
  update_wait {b : B} {since now later : T} : core.state b = .opened → stamped b since → since ≤ now →
    ¬ st.expired since now → core.update b now later = b
  update_other {b : B} {now later : T} : core.state b ≠ .opened → core.update b now later = b
  success {b : B} {t : T} : core.state b ≠ .opened →
    core.state (core.success b t) = .closed ∧ shows (core.success b t) 0
  failure_half {b : B} {t : T} : core.state b = .halfOpen →
    core.state (core.failure b t) = .opened ∧ stamped (core.failure b t) t
  failure_trip {b : B} {n : Nat} {t : T} : core.state b = .closed → shows b n → st.threshold ≤ n + 1 →
    core.state (core.failure b t) = .opened ∧ stamped (core.failure b t) t
  failure_count {b : B} {n : Nat} {t : T} : core.state b = .closed → shows b n → ¬ st.threshold ≤ n + 1 →
    core.state (core.failure b t) = .closed ∧ shows (core.failure b t) (n + 1)

/-- At the time `t` the implementation is where the automaton is, or has yet to notice
    that the recovery timeout has passed. Its counter means nothing once tripped. -/
def Related [LE T] (st : Settings T) (shows : B → Nat → Prop) (stamped : B → T → Prop) (t : T) (b : B) :
    Automaton T → Prop
  | .closed n => core.state b = .closed ∧ shows b n
  | .tripped since => (core.state b = .opened ∧ stamped b since ∧ since ≤ t) ∨
      (core.state b = .halfOpen ∧ st.expired since t)

variable {core} [Preorder T] {st : Settings T} {shows : B → Nat → Prop} {stamped : B → T → Prop} {t t' now later : T}
  {b : B} {a : Automaton T}

theorem Related.mono (h : core.Related st shows stamped t b a) (ht : t ≤ t') :
    core.Related st shows stamped t' b a := by
  cases a with
  | closed n => exact h
  | tripped since =>
    rcases h with ⟨ho, hs, hle⟩ | ⟨hh, hexpired⟩
    · exact .inl ⟨ho, hs, le_trans hle ht⟩
    · exact .inr ⟨hh, st.expired_mono hexpired ht⟩

/-- Looking at the state makes it the automaton's. -/
theorem Related.update (hl : core.Lawful st shows stamped) (h : core.Related st shows stamped t b a) (hn : t ≤ now)
    (hr : now ≤ later) : core.state (core.update b now later) = a.stateAt st now ∧
      core.Related st shows stamped later (core.update b now later) a := by
  cases a with
  | closed n =>
    have hb : core.update b now later = b := hl.update_other (by rw [h.1]; decide)
    rw [hb]
    exact ⟨h.1, h⟩
  | tripped since =>
    rcases h with ⟨ho, hs, hle⟩ | ⟨hh, hexpired⟩
    · by_cases hexpired : st.expired since now
      · have hb : core.state (core.update b now later) = .halfOpen := hl.update_expired ho hs (le_trans hle hn) hexpired
        exact ⟨by rw [hb, Automaton.stateAt, if_pos hexpired], .inr ⟨hb, st.expired_mono hexpired hr⟩⟩
      · have hb : core.update b now later = b := hl.update_wait ho hs (le_trans hle hn) hexpired
        rw [hb]
        exact ⟨by rw [ho, Automaton.stateAt, if_neg hexpired], .inl ⟨ho, hs, le_trans hle (le_trans hn hr)⟩⟩
    · have hb : core.update b now later = b := hl.update_other (by rw [hh]; decide)
      have hexpired' := st.expired_mono hexpired hn
      rw [hb]
      exact ⟨by rw [hh, Automaton.stateAt, if_pos hexpired'], .inr ⟨hh, st.expired_mono hexpired' hr⟩⟩

theorem Related.success (hl : core.Lawful st shows stamped) (h : core.state b ≠ .opened) :
    core.Related st shows stamped t' (core.success b t') (a.record st t' .success) := by
  cases a <;> exact hl.success h

theorem Related.failure (hl : core.Lawful st shows stamped) (h : core.Related st shows stamped t b a)
    (hb : core.state b ≠ .opened) :
    core.Related st shows stamped t' (core.failure b t') (a.record st t' .failure) := by
  cases a with
  | closed n =>
    simp only [Automaton.record]
    split
    · obtain ⟨ho, hs⟩ := hl.failure_trip (t := t') h.1 h.2 ‹_›
      exact .inl ⟨ho, hs, le_refl _⟩
    · exact hl.failure_count h.1 h.2 ‹_›
  | tripped since =>
    rcases h with ⟨ho, -⟩ | ⟨hh, -⟩
    · exact absurd ho hb
    · obtain ⟨ho, hs⟩ := hl.failure_half (t := t') hh
      exact .inl ⟨ho, hs, le_refl _⟩

/-- An item of a history shows of the implementation what it shows of the automaton. -/
theorem step_follows (hl : core.Lawful st shows stamped) (verdict : O → Verdict)
    (h : core.Related st shows stamped t b a) {item : Item T O} {rest : List (Item T O)}
    (ht : Timely t (item :: rest)) :
    (core.take verdict b item).2 = (a.take st verdict item).2 ∧ ∃ t', Timely t' rest ∧
      core.Related st shows stamped t' (core.take verdict b item).1 (a.take st verdict item).1 := by
  cases item with
  | query now later =>
    obtain ⟨hn, hr, hrest⟩ := ht
    obtain ⟨hs, hrel⟩ := h.update hl hn hr
    exact ⟨congrArg Seen.query hs, later, hrest, hrel⟩
  | call c =>
    obtain ⟨hn, hr, hd, hrest⟩ := ht
    obtain ⟨hs, hrel⟩ := h.update hl hn hr
    simp only [take, Automaton.take, hs]
    split
    · exact ⟨rfl, c.done, hrest, hrel.mono hd⟩
    · rename_i hne
      have hb := hs ▸ hne
      cases hv : verdict c.outcome with
      | success => exact ⟨by simp, c.done, hrest, Related.success hl hb⟩
      | failure => exact ⟨by simp, c.done, hrest, hrel.failure hl hb⟩
      | unseen => exact ⟨by simp, c.done, hrest, by cases a <;> exact hrel.mono hd⟩

/-- So does a whole history. -/
theorem replies_follow (hl : core.Lawful st shows stamped) (verdict : O → Verdict)
    (h : core.Related st shows stamped t b a) {hist : List (Item T O)} (ht : Timely t hist) :
    replies (core.take verdict) b hist = replies (Automaton.take st verdict) a hist := by
  refine Lib.replies_follow (P := Timely) (Q := core.Related st shows stamped) ?_ ht h
  intro t b a item rest ht h
  exact step_follows hl verdict h ht

end Core

end Playground.Breaker
