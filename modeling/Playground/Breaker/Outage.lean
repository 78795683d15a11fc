/-
  Playground.Breaker.Outage — what the three breakers are good for, with calls one at a
  time.

  A history is cut where the protected service goes down, or comes back. What is seen of
  it before the cut is arbitrary.
  - `outage_spared`: while the service is down every call falls back, and after the
    threshold-th each action starts a recovery timeout after the one before it ended.
  - `recovers`: once it is back, a call that comes a recovery timeout after every action
    that ran before reaches it, and so does every call after one that reached it.
-/

import Mathlib.Data.List.Chain
import Playground.Breaker.Sequential

namespace Playground.Breaker

open Playground.Lib

/-! ## The reference -/

section Reference

variable {T O : Type} [LE T] (st : Settings T)

/-- The call of an item that ran its action. -/
def ranOf : Item T O × Seen → Option (Call T O)
  | (.call c, .call true _) => some c
  | _ => none

/-- The calls that ran their action. -/
def ran (items : List (Item T O)) (seen : List Seen) : List (Call T O) := (items.zip seen).filterMap ranOf

/-- Every call falls back, and after the threshold-th each action starts a recovery
    timeout after the one before it ended. -/
def Spared (during : List (Item T O)) (seen : List Seen) : Prop :=
  (∀ c s, (.call c, s) ∈ during.zip seen → ∃ action, s = .call action c.fallback) ∧
    List.IsChain (fun c d : Call T O => st.expired c.done d.now = true) ((ran during seen).drop (st.threshold - 1))

/-- A call that comes a recovery timeout after every action of `earlier` reaches the
    service, and so does every call after one that reached it. -/
def Recovered (earlier : List (Call T O)) (later : List (Item T O)) (seen : List Seen) : Prop :=
  (∀ c s, (.call c, s) ∈ later.zip seen → (∀ d ∈ earlier, st.expired d.done c.now = true) → s = .call true false) ∧
    (later.zip seen).Pairwise fun e f => e.2 = .call true false → ∀ c, f.1 = .call c → f.2 = .call true false

def AllEnd (verdict : O → Verdict) (v : Verdict) (items : List (Item T O)) : Prop :=
  ∀ c, .call c ∈ items → verdict c.outcome = v

variable {st} {verdict : O → Verdict}

omit [LE T] in
theorem AllEnd.of_cons {v : Verdict} {item : Item T O} {items : List (Item T O)}
    (h : AllEnd verdict v (item :: items)) :
    AllEnd verdict v items :=
  fun c hc => h c (List.mem_cons_of_mem _ hc)

theorem take_query (a : Automaton T) (now later : T) :
    a.take st verdict (.query now later : Item T O) = (a, .query (a.stateAt st now)) := rfl

theorem take_opened {a : Automaton T} {c : Call T O} (h : a.stateAt st c.now = .opened) :
    a.take st verdict (.call c) = (a, .call false c.fallback) := if_pos h

theorem take_ran {a : Automaton T} {c : Call T O} (h : a.stateAt st c.now ≠ .opened) :
    a.take st verdict (.call c) =
      (a.record st c.done (verdict c.outcome), .call true (c.fallback && verdict c.outcome = .failure)) := if_neg h

theorem stateAt_tripped {since t : T} :
    (Automaton.tripped since).stateAt st t ≠ .opened ↔ st.expired since t = true := by
  simp only [Automaton.stateAt]
  split <;> simp [*]

/-! ## Down -/

section Down

variable {during : List (Item T O)}

theorem falls_back (hfail : AllEnd verdict .failure during) (a : Automaton T) :
    ∀ c s, (.call c, s) ∈ during.zip (replies (Automaton.take st verdict) a during) →
      ∃ action, s = .call action c.fallback := by
  induction during generalizing a with
  | nil => exact nofun
  | cons item during ih =>
    intro c s hc
    rcases List.mem_cons.mp hc with hc | hc
    · cases hc
      by_cases h : a.stateAt st c.now = .opened
      · exact ⟨false, by rw [take_opened h]⟩
      · exact ⟨true, by rw [take_ran h, hfail c List.mem_cons_self]; simp⟩
    · exact ih hfail.of_cons _ c s hc

/-- Tripped at `since`, an outage's actions start a recovery timeout after that and after
    each other. -/
theorem tripped_spaced (hfail : AllEnd verdict .failure during) (since : T) :
    (∀ d ∈ (ran during (replies (Automaton.take st verdict) (.tripped since) during)).head?,
      st.expired since d.now = true) ∧
      List.IsChain (fun c d : Call T O => st.expired c.done d.now = true)
        (ran during (replies (Automaton.take st verdict) (.tripped since) during)) := by
  induction during generalizing since with
  | nil => exact ⟨nofun, .nil⟩
  | cons item during ih =>
    cases item with
    | query now later => exact ih hfail.of_cons since
    | call c =>
      by_cases h : (Automaton.tripped since).stateAt st c.now = .opened
      · have hrun : ran (.call c :: during) (replies (Automaton.take st verdict) (.tripped since) (.call c :: during)) =
            ran during (replies (Automaton.take st verdict) (.tripped since) during) := by
          rw [replies, take_opened h]
          rfl
        rw [hrun]
        exact ih hfail.of_cons since
      · have hrun : ran (.call c :: during) (replies (Automaton.take st verdict) (.tripped since) (.call c :: during)) =
            c :: ran during (replies (Automaton.take st verdict) (.tripped c.done) during) := by
          rw [replies, take_ran h, hfail c List.mem_cons_self]
          rfl
        rw [hrun]
        refine ⟨?_, List.isChain_cons.mpr (ih hfail.of_cons c.done)⟩
        rintro d ⟨⟩
        exact stateAt_tripped.mp h

/-- Closed with `n` failures in a row, so many more actions may run freely. -/
theorem closed_spaced (hfail : AllEnd verdict .failure during) (n : Nat) :
    List.IsChain (fun c d : Call T O => st.expired c.done d.now = true)
      ((ran during (replies (Automaton.take st verdict) (.closed n) during)).drop (st.threshold - (n + 1))) := by
  induction during generalizing n with
  | nil => exact List.IsChain.drop .nil _
  | cons item during ih =>
    cases item with
    | query now later => exact ih hfail.of_cons n
    | call c =>
      have hrun : ran (.call c :: during) (replies (Automaton.take st verdict) (.closed n) (.call c :: during)) =
          c :: ran during (replies (Automaton.take st verdict)
            (if st.threshold ≤ n + 1 then .tripped c.done else .closed (n + 1)) during) := by
        rw [replies, take_ran (fun h => CircuitState.noConfusion h), hfail c List.mem_cons_self]
        rfl
      rw [hrun]
      by_cases h : st.threshold ≤ n + 1
      · rw [if_pos h, Nat.sub_eq_zero_of_le h, List.drop_zero]
        exact List.isChain_cons.mpr (tripped_spaced hfail.of_cons c.done)
      · rw [if_neg h, show st.threshold - (n + 1) = st.threshold - (n + 1 + 1) + 1 by omega, List.drop_succ_cons]
        exact ih hfail.of_cons (n + 1)

theorem spared (hfail : AllEnd verdict .failure during) (a : Automaton T) :
    Spared st during (replies (Automaton.take st verdict) a during) := by
  refine ⟨falls_back hfail a, ?_⟩
  cases a with
  | closed n =>
    have hspaced : List.IsChain (fun c d : Call T O => st.expired c.done d.now = true)
        ((ran during (replies (Automaton.take st verdict) (.closed n) during)).drop (st.threshold - (n + 1))) :=
      closed_spaced hfail n
    have h := hspaced.drop (st.threshold - 1 - (st.threshold - (n + 1)))
    have hdrop : st.threshold - (n + 1) + (st.threshold - 1 - (st.threshold - (n + 1))) = st.threshold - 1 := by omega
    rwa [List.drop_drop, hdrop] at h
  | tripped since => exact (tripped_spaced hfail since).2.drop _

end Down

/-! ## Back -/

section Back

variable {before after : List (Item T O)}

/-- A trip is the end of an action. -/
theorem tripped_by (before : List (Item T O)) {since : T}
    (h : stateAfter (Automaton.take st verdict) (.closed 0) before = .tripped since) :
    ∃ d ∈ ran before (replies (Automaton.take st verdict) (.closed 0) before), d.done = since := by
  induction before using List.reverseRecOn with
  | nil => cases h
  | append_singleton before item ih =>
    have hran : ran (before ++ [item]) (replies (Automaton.take st verdict) (.closed 0) (before ++ [item])) =
        ran before (replies (Automaton.take st verdict) (.closed 0) before) ++
          ran [item] [((stateAfter (Automaton.take st verdict) (.closed 0) before).take st verdict item).2] := by
      rw [replies_snoc, ran, List.zip_append (length_replies ..).symm, List.filterMap_append]
      rfl
    rw [stateAfter_snoc] at h
    rw [hran]
    generalize stateAfter (Automaton.take st verdict) (.closed 0) before = a at h ih
    have hold : a = .tripped since → ∃ d ∈ ran before (replies (Automaton.take st verdict) (.closed 0) before) ++
        ran [item] [(a.take st verdict item).2], d.done = since := fun ha => by
      obtain ⟨d, hd, hdone⟩ := ih ha
      exact ⟨d, List.mem_append_left _ hd, hdone⟩
    cases item with
    | query now later => exact hold h
    | call c =>
      by_cases hopen : a.stateAt st c.now = .opened
      · rw [take_opened hopen] at h
        exact hold h
      · have hc : c ∈ ran [.call c] [(a.take st verdict (.call c)).2] := by
          rw [take_ran hopen]
          exact List.mem_singleton.mpr rfl
        rw [take_ran hopen] at h
        cases hv : verdict c.outcome with
        | success => rw [hv] at h; cases a <;> cases h
        | unseen => rw [hv] at h; exact hold (by cases a <;> exact h)
        | failure =>
          refine ⟨c, List.mem_append_right _ hc, ?_⟩
          rw [hv] at h
          cases a with
          | closed n =>
            simp only [Automaton.record] at h
            split at h
            · exact Automaton.tripped.inj h
            · cases h
          | tripped since' => exact Automaton.tripped.inj h

/-- A call that reaches a service that works closes the breaker. -/
theorem take_works {a : Automaton T} {c : Call T O} (h : a.stateAt st c.now ≠ .opened)
    (hv : verdict c.outcome = .success) :
    a.take st verdict (.call c) = (.closed 0, .call true false) := by
  rw [take_ran h, hv]
  cases a <;> simp [Automaton.record]

/-- Closed, every call reaches a service that works. -/
theorem closed_reaches (hok : AllEnd verdict .success after) (n : Nat) :
    ∀ c s, (.call c, s) ∈ after.zip (replies (Automaton.take st verdict) (.closed n) after) → s = .call true false := by
  induction after generalizing n with
  | nil => exact nofun
  | cons item after ih =>
    intro c s hc
    cases item with
    | query now later =>
      rcases List.mem_cons.mp hc with hc | hc
      · cases hc
      · exact ih hok.of_cons n c s hc
    | call d =>
      rw [replies, take_works (fun h => CircuitState.noConfusion h) (hok d List.mem_cons_self)] at hc
      rcases List.mem_cons.mp hc with hc | hc
      · cases hc
        rfl
      · exact ih hok.of_cons 0 c s hc

theorem tripped_reaches (hok : AllEnd verdict .success after) (since : T) :
    ∀ c s, (.call c, s) ∈ after.zip (replies (Automaton.take st verdict) (.tripped since) after) →
      st.expired since c.now = true → s = .call true false := by
  induction after with
  | nil => exact nofun
  | cons item after ih =>
    intro c s hc hexpired
    cases item with
    | query now later =>
      rcases List.mem_cons.mp hc with hc | hc
      · cases hc
      · exact ih hok.of_cons c s hc hexpired
    | call d =>
      by_cases hopen : (Automaton.tripped since).stateAt st d.now = .opened
      · rw [replies, take_opened hopen] at hc
        rcases List.mem_cons.mp hc with hc | hc
        · cases hc
          exact absurd hopen (stateAt_tripped.mpr hexpired)
        · exact ih hok.of_cons c s hc hexpired
      · rw [replies, take_works hopen (hok d List.mem_cons_self)] at hc
        rcases List.mem_cons.mp hc with hc | hc
        · cases hc
          rfl
        · exact closed_reaches hok.of_cons 0 c s hc

/-- Behind a call that reached the service, every call does. -/
theorem reaches_on (hok : AllEnd verdict .success after) (a : Automaton T) :
    (after.zip (replies (Automaton.take st verdict) a after)).Pairwise fun e f =>
      e.2 = .call true false → ∀ c, f.1 = .call c → f.2 = .call true false := by
  induction after generalizing a with
  | nil => exact .nil
  | cons item after ih =>
    cases item with
    | query now later =>
      rw [replies, take_query]
      refine List.pairwise_cons.mpr ⟨fun f _ h => ?_, ih hok.of_cons a⟩
      cases h
    | call d =>
      by_cases hopen : a.stateAt st d.now = .opened
      · rw [replies, take_opened hopen]
        refine List.pairwise_cons.mpr ⟨fun f _ h => ?_, ih hok.of_cons a⟩
        cases h
      · rw [replies, take_works hopen (hok d List.mem_cons_self)]
        refine List.pairwise_cons.mpr ⟨?_, ih hok.of_cons _⟩
        rintro ⟨_, s⟩ hf _ c rfl
        exact closed_reaches hok.of_cons 0 c s hf

theorem recovered (hok : AllEnd verdict .success after) (before : List (Item T O)) :
    Recovered st (ran before (replies (Automaton.take st verdict) (.closed 0) before)) after
      (replies (Automaton.take st verdict) (stateAfter (Automaton.take st verdict) (.closed 0) before) after) := by
  refine ⟨fun c s hc hpassed => ?_, reaches_on hok _⟩
  cases ha : stateAfter (Automaton.take st verdict) (.closed 0) before with
  | closed n =>
    rw [ha] at hc
    exact closed_reaches hok n c s hc
  | tripped since =>
    rw [ha] at hc
    obtain ⟨d, hd, rfl⟩ := tripped_by before ha
    exact tripped_reaches hok d.done c s hc (hpassed d hd)

end Back

end Reference

/-! ## The three breakers -/

/-- The breaker shows the timed automaton of every history whose clock does not go back. -/
def Shows {B T O : Type} [LE T] (take : B → Item T O → B × Seen) (init : T → B) (st : Settings T)
    (verdict : O → Verdict) : Prop :=
  ∀ t₀ hist, Timely t₀ hist → replies take (init t₀) hist = replies (Automaton.take st verdict) (.closed 0) hist

section Shows

variable {B T O : Type} [LE T] {take : B → Item T O → B × Seen} {init : T → B} {st : Settings T} {verdict : O → Verdict}
  {t₀ : T} {before after : List (Item T O)}

omit [LE T] in
theorem ran_append {seen more : List Seen} (h : seen.length = before.length) :
    ran before (seen ++ more) = ran before seen := by
  have hzip : (before ++ []).zip (seen ++ more) = before.zip seen ++ [].zip more := List.zip_append h.symm
  rw [List.append_nil, List.zip_nil_left, List.append_nil] at hzip
  rw [ran, hzip, ran]

theorem drop_replies (h : Shows take init st verdict) (ht : Timely t₀ (before ++ after)) :
    (replies take (init t₀) (before ++ after)).drop before.length =
      replies (Automaton.take st verdict) (stateAfter (Automaton.take st verdict) (.closed 0) before) after := by
  rw [h t₀ _ ht, replies_append, List.drop_left' (length_replies ..)]

theorem Shows.spared (h : Shows take init st verdict) (ht : Timely t₀ (before ++ after))
    (hfail : AllEnd verdict .failure after) :
    Spared st after ((replies take (init t₀) (before ++ after)).drop before.length) := by
  rw [drop_replies h ht]
  exact Breaker.spared hfail _

theorem Shows.recovered (h : Shows take init st verdict) (ht : Timely t₀ (before ++ after))
    (hok : AllEnd verdict .success after) :
    Recovered st (ran before (replies take (init t₀) (before ++ after))) after
      ((replies take (init t₀) (before ++ after)).drop before.length) := by
  have hran : ran before (replies take (init t₀) (before ++ after)) =
      ran before (replies (Automaton.take st verdict) (.closed 0) before) := by
    rw [h t₀ _ ht, replies_append, ran_append (length_replies ..)]
  rw [drop_replies h ht, hran]
  exact Breaker.recovered hok before

end Shows

section Three

variable {ι T E V : Type} [AddCommGroup T] [LinearOrder T] [IsOrderedAddMonoid T]

omit [AddCommGroup T] [LinearOrder T] [IsOrderedAddMonoid T] in
theorem items_append (before after : List (ι × Call T (Outcomes E V))) :
    items (before ++ after) = items before ++ items after := List.map_append

theorem python_shows (cb : CircuitBreaker T) :
    Shows ((core cb : Core (Mem ι T) T).take (verdict (E := E) (V := V))) Mem.init (settings cb) verdict :=
  fun t₀ _ ht => Core.replies_follow (core_lawful cb) verdict (b := Mem.init t₀) (a := .closed 0) ⟨rfl, rfl⟩ ht

theorem nest_shows : Shows (Nest.takeAlone (E := E) (V := V)) .init Nest.settings Nest.verdict := by
  intro t₀ hist ht
  rw [show Nest.takeAlone (E := E) (V := V) = Nest.core.take Nest.verdict from funext fun b => funext (Nest.takeAlone_eq b)]
  exact Core.replies_follow Nest.core_lawful Nest.verdict (b := .init t₀) (a := .closed 0) ⟨rfl, rfl⟩ ht

theorem java_shows : Shows (Java.takeAlone (E := E) (V := V)) .init Java.settings Java.verdict := by
  intro t₀ hist ht
  rw [show Java.takeAlone (E := E) (V := V) = Java.core.take Java.verdict from funext fun b => funext (Java.takeAlone_eq b)]
  exact Core.replies_follow Java.core_lawful Java.verdict (b := .init t₀) (a := .closed 0) ⟨rfl, rfl, by decide⟩ ht

omit [IsOrderedAddMonoid T] in
/-- A Python history is answered. -/
theorem python_answers (cb : CircuitBreaker T) (t₀ : T) (hist : List (ι × Call T (Outcomes E V))) :
    answers (callAlone cb) (Mem.init t₀) hist =
      some (replies ((core cb : Core (Mem ι T) T).take verdict) (Mem.init t₀) (items hist)) :=
  answers_replies (P := fun m => m.lock = none) (fun _ c hl => callAlone_eq cb c.1 c.2 hl) rfl

/-- While the service behind a breaker is down, whatever came before: every call falls
    back, and after the threshold-th each action starts a recovery timeout after the one
    before it ended. -/
theorem outage_spared :
    (∀ (cb : CircuitBreaker T) (t₀ : T) (before during : List (ι × Call T (Outcomes E V))),
      Timely t₀ (items (before ++ during)) → AllEnd verdict .failure (items during) →
      ∃ seen, answers (callAlone cb) (Mem.init t₀) (before ++ during) = some seen ∧
        Spared (settings cb) (items during) (seen.drop before.length)) ∧
    (∀ (t₀ : Int) (before during : List (Item Int (Except E V))),
      Timely t₀ (before ++ during) → AllEnd Nest.verdict .failure during →
      Spared Nest.settings during ((replies Nest.takeAlone (.init t₀) (before ++ during)).drop before.length)) ∧
    (∀ (t₀ : Java.Millis) (before during : List (Item Java.Millis (Except (Java.Throwable E) V))),
      Timely t₀ (before ++ during) → AllEnd Java.verdict .failure during →
      Spared Java.settings during ((replies Java.takeAlone (.init t₀) (before ++ during)).drop before.length)) := by
  refine ⟨fun cb t₀ before during ht hfail => ⟨_, python_answers cb t₀ _, ?_⟩,
    fun t₀ before during ht hfail => nest_shows.spared ht hfail,
    fun t₀ before during ht hfail => java_shows.spared ht hfail⟩
  have hlen : before.length = (items before).length := (List.length_map ..).symm
  rw [items_append] at ht ⊢
  rw [hlen]
  exact (python_shows cb).spared ht hfail

/-- Once the service behind a breaker is back, whatever came before: a call that comes a
    recovery timeout after every action that ran before reaches it, and so does every
    call after one that reached it. -/
theorem recovers :
    (∀ (cb : CircuitBreaker T) (t₀ : T) (before after : List (ι × Call T (Outcomes E V))),
      Timely t₀ (items (before ++ after)) → AllEnd verdict .success (items after) →
      ∃ seen, answers (callAlone cb) (Mem.init t₀) (before ++ after) = some seen ∧
        Recovered (settings cb) (ran (items before) seen) (items after) (seen.drop before.length)) ∧
    (∀ (t₀ : Int) (before after : List (Item Int (Except E V))),
      Timely t₀ (before ++ after) → AllEnd Nest.verdict .success after →
      Recovered Nest.settings (ran before (replies Nest.takeAlone (.init t₀) (before ++ after))) after
        ((replies Nest.takeAlone (.init t₀) (before ++ after)).drop before.length)) ∧
    (∀ (t₀ : Java.Millis) (before after : List (Item Java.Millis (Except (Java.Throwable E) V))),
      Timely t₀ (before ++ after) → AllEnd Java.verdict .success after →
      Recovered Java.settings (ran before (replies Java.takeAlone (.init t₀) (before ++ after))) after
        ((replies Java.takeAlone (.init t₀) (before ++ after)).drop before.length)) := by
  refine ⟨fun cb t₀ before after ht hok => ⟨_, python_answers cb t₀ _, ?_⟩,
    fun t₀ before after ht hok => nest_shows.recovered ht hok,
    fun t₀ before after ht hok => java_shows.recovered ht hok⟩
  have hlen : before.length = (items before).length := (List.length_map ..).symm
  rw [items_append] at ht ⊢
  rw [hlen]
  exact (python_shows cb).recovered ht hok

end Three

/-! ## Down and back -/

section Down

variable {T O : Type} (time : Nat → T) (fails outcome : O)

def firstThree : List (Item T O) := [1, 2, 3].map fun t => .call (callAt (time t) fails)

/-- A call while open, one when the recovery timeout has passed, and the next. -/
def thenThree : List (Item T O) := [4, 4003, 4004].map fun t => .call (callAt (time t) outcome)

theorem three_timely [Preorder T] (h : ∀ m n, m ≤ n → n ≤ 5000 → time m ≤ time n) :
    Timely (time 0) (firstThree time fails ++ thenThree time outcome) := by
  simp [Timely, firstThree, thenThree, callAt, h]

end Down

def firstCalls : List (Nat × Call Int (Outcomes Unit Unit)) :=
  [(0, callAt 1 ⟨.error (.app ()), .ok ()⟩), (1, callAt 2 ⟨.error (.app ()), .ok ()⟩),
    (2, callAt 3 ⟨.error (.app ()), .ok ()⟩)]

def thenCalls (func : Except (Exc Unit) Unit) : List (Nat × Call Int (Outcomes Unit Unit)) :=
  [(3, callAt 4 ⟨func, .ok ()⟩), (4, callAt 4003 ⟨func, .ok ()⟩), (5, callAt 4004 ⟨func, .ok ()⟩)]

theorem calls_timely (func : Except (Exc Unit) Unit) : Timely 0 (items (firstCalls ++ thenCalls func)) := by
  simp [Timely, items, firstCalls, thenCalls, callAt]

/-- The service stays down, or is back. -/
def down : Except Unit Unit := .error ()

def javaDown : Except (Java.Throwable Unit) Unit := .error (.exception ())

def back {E : Type} : Except E Unit := .ok ()

/-- What is seen of the calls after the third, if the service stays down. -/
def downSeen : List Seen := [.call false true, .call true true, .call false true]

/-- What is seen of them if it is back. -/
def backSeen : List Seen := [.call false true, .call true false, .call true false]

theorem four_reach :
    (∃ seen, answers (callAlone paymentGateway) (Mem.init 0) (firstCalls ++ thenCalls (.error (.app ()))) = some seen ∧
      Spared (settings paymentGateway) (items (thenCalls (.error (.app ())))) (seen.drop 3)) ∧
    Spared Nest.settings (thenThree Int.ofNat down) downSeen ∧
    Spared Java.settings (thenThree javaTime javaDown) downSeen := by
  have h := @outage_spared Nat Int Unit Unit _ _ _
  refine ⟨h.1 paymentGateway 0 firstCalls (thenCalls _) (calls_timely _) ?_,
    h.2.1 0 (firstThree Int.ofNat down) (thenThree Int.ofNat down) ?_ ?_,
    h.2.2 (javaTime 0) (firstThree javaTime javaDown) (thenThree javaTime javaDown) ?_ ?_⟩
  · simp [AllEnd, items, thenCalls, callAt, verdict, Exc.isException]
  · exact three_timely _ _ _ fun m n hle _ => Int.ofNat_le.mpr hle
  · simp [AllEnd, thenThree, callAt, Nest.verdict, down]
  · exact three_timely _ _ _ javaTime_mono
  · simp [AllEnd, thenThree, callAt, Java.verdict, javaDown]

theorem two_back :
    (∃ seen, answers (callAlone paymentGateway) (Mem.init 0) (firstCalls ++ thenCalls back) = some seen ∧
      Recovered (settings paymentGateway) (ran (items firstCalls) seen) (items (thenCalls back)) (seen.drop 3)) ∧
    Recovered Nest.settings (ran (firstThree Int.ofNat down) (List.replicate 3 (.call true true)))
      (thenThree Int.ofNat back) backSeen ∧
    Recovered Java.settings (ran (firstThree javaTime javaDown) (List.replicate 3 (.call true true)))
      (thenThree javaTime back) backSeen := by
  have h := @recovers Nat Int Unit Unit _ _ _
  refine ⟨h.1 paymentGateway 0 firstCalls (thenCalls _) (calls_timely _) ?_,
    h.2.1 0 (firstThree Int.ofNat down) (thenThree Int.ofNat back) ?_ ?_,
    h.2.2 (javaTime 0) (firstThree javaTime javaDown) (thenThree javaTime back) ?_ ?_⟩
  · simp [AllEnd, items, thenCalls, callAt, verdict, back]
  · exact three_timely _ _ _ fun m n hle _ => Int.ofNat_le.mpr hle
  · simp [AllEnd, thenThree, callAt, Nest.verdict, back]
  · exact three_timely _ _ _ javaTime_mono
  · simp [AllEnd, thenThree, callAt, Java.verdict, back]

end Playground.Breaker
