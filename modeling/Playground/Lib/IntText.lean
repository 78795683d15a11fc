/-
  Playground.Lib.IntText — integers written as text and read back.

  An `IntText` is a pair of a writer and a reader that agree: what the writer writes,
  the reader reads back. What the reader makes of any other text is left open, so a
  development over an arbitrary `IntText` covers every language's own rules for signs,
  spaces and separators. `decimal` is the plain one.
-/

namespace Playground.Lib

structure IntText where
  str : Int → String
  int : String → Option Int
  int_str : ∀ n, int (str n) = some n

namespace IntText

/-- The number a nonempty run of decimal digits stands for. -/
def digits? (cs : List Char) : Option Nat :=
  if cs ≠ [] ∧ cs.all Char.isDigit = true then some (Nat.ofDigitChars 10 cs 0) else none

/-- Decimal digits with an optional minus sign. -/
def readDecimal (s : String) : Option Int :=
  match s.toList with
  | '-' :: cs => (digits? cs).map fun n => -(n : Int)
  | cs => (digits? cs).map fun n => (n : Int)

theorem digits_toDigits (n : Nat) : digits? (Nat.toDigits 10 n) = some n := by
  have hall : (Nat.toDigits 10 n).all Char.isDigit = true :=
    List.all_eq_true.mpr fun c hc => Nat.isDigit_of_mem_toDigits (by decide) (by decide) hc
  unfold digits?
  rw [if_pos ⟨Nat.toDigits_ne_nil, hall⟩, Nat.ofDigitChars_ten_toDigits]

/-- A run of digits does not start with a minus sign. -/
theorem toDigits_head (n : Nat) (cs : List Char) : Nat.toDigits 10 n ≠ '-' :: cs := by
  intro h
  have : ('-' : Char).isDigit = true :=
    Nat.isDigit_of_mem_toDigits (b := 10) (n := n) (by decide) (by decide) (by rw [h]; exact List.mem_cons_self ..)
  exact absurd this (by decide)

theorem readDecimal_repr (n : Int) : readDecimal n.repr = some n := by
  unfold readDecimal
  cases n with
  | ofNat m =>
    simp only [Int.repr, Nat.toList_repr]
    split
    · rename_i cs h; exact absurd h (toDigits_head m cs)
    · rw [digits_toDigits]; rfl
  | negSucc m =>
    have hl : (Int.negSucc m).repr.toList = '-' :: Nat.toDigits 10 (m + 1) := by
      simp [Int.repr, String.toList_append]
    rw [hl]
    show (digits? (Nat.toDigits 10 (m + 1))).map (fun n => -(n : Int)) = some (Int.negSucc m)
    rw [digits_toDigits]; rfl

def decimal : IntText := ⟨Int.repr, readDecimal, readDecimal_repr⟩

example : decimal.int "-42" = some (-42) := by decide

end IntText

end Playground.Lib
