/-
  Playground.Lib.Transducer — programs that answer one input after another.

  `replies take s` are the answers to a list of inputs, from the state `s` on, and
  `answers` the same for a program that can get stuck.
  - `replies_follow`: a program that answers as a reference does, step by step and in
    related states, answers every list as it does. What is asked of the inputs to come
    (that the clock in them does not go back) is carried along by `P`.
  - `answers_replies`: a program that never gets stuck has the answers of the one it is
    step by step.
-/

namespace Playground.Lib

variable {S T I J O C : Type}

def replies (take : S → I → S × O) (s : S) : List I → List O
  | [] => []
  | i :: is => (take s i).2 :: replies take (take s i).1 is

def answers (take : S → I → Option (S × O)) (s : S) : List I → Option (List O)
  | [] => some []
  | i :: is => (take s i).bind fun so => (answers take so.1 is).map (so.2 :: ·)

/-- The state after a list of inputs. -/
def stateAfter (take : S → I → S × O) (s : S) (is : List I) : S := is.foldl (fun s i => (take s i).1) s

@[simp] theorem stateAfter_snoc (take : S → I → S × O) (s : S) (is : List I) (i : I) :
    stateAfter take s (is ++ [i]) = (take (stateAfter take s is) i).1 := by
  simp only [stateAfter, List.foldl_append, List.foldl_cons, List.foldl_nil]

/-- The newest input is answered in the state that the others left. -/
theorem replies_snoc (take : S → I → S × O) (s : S) (is : List I) (i : I) :
    replies take s (is ++ [i]) = replies take s is ++ [(take (stateAfter take s is) i).2] := by
  induction is generalizing s with
  | nil => rfl
  | cons j is ih =>
    rw [List.cons_append, replies, ih, replies, List.cons_append]
    rfl

theorem replies_append (take : S → I → S × O) (s : S) (is js : List I) :
    replies take s (is ++ js) = replies take s is ++ replies take (stateAfter take s is) js := by
  induction is generalizing s with
  | nil => rfl
  | cons i is ih => exact congrArg (_ :: ·) (ih _)

theorem length_replies (take : S → I → S × O) (s : S) (is : List I) : (replies take s is).length = is.length := by
  induction is generalizing s with
  | nil => rfl
  | cons i is ih => exact congrArg (· + 1) (ih _)

theorem replies_follow {take : S → I → S × O} {ref : T → I → T × O} {P : C → List I → Prop} {Q : C → S → T → Prop}
    (hstep : ∀ c s t i is, P c (i :: is) → Q c s t →
      (take s i).2 = (ref t i).2 ∧ ∃ c', P c' is ∧ Q c' (take s i).1 (ref t i).1)
    {c : C} {s : S} {t : T} {is : List I} (hp : P c is) (h : Q c s t) : replies take s is = replies ref t is := by
  induction is generalizing c s t with
  | nil => rfl
  | cons i is ih =>
    obtain ⟨heq, c', hp', h'⟩ := hstep c s t i is hp h
    rw [replies, replies, heq, ih hp' h']

theorem answers_replies {take : S → I → Option (S × O)} {total : S → J → S × O} {f : I → J} {P : S → Prop}
    (hstep : ∀ s i, P s → take s i = some (total s (f i)) ∧ P (total s (f i)).1) {s : S} {is : List I} (h : P s) :
    answers take s is = some (replies total s (is.map f)) := by
  induction is generalizing s with
  | nil => rfl
  | cons i is ih =>
    obtain ⟨ht, h'⟩ := hstep s i h
    rw [answers, ht, Option.bind_some, ih h']
    rfl

end Playground.Lib
