/-
  Playground.Lib.JsonObject — an object of strings as `JSON.stringify` writes it, and
  read back.

  A quote, a backslash and a control character are escaped, with the short escape where
  there is one, and nothing is written between the tokens.
  - `readObject_writeObject`: the members are read back as they were.
-/

import Mathlib.Tactic.IntervalCases
import Playground.Lib.JsonText

namespace Playground.Lib.JsonObject

open JsonText

/-! ## Writing -/

def hexDigit (n : Nat) : Char := "0123456789abcdef".toList.getD n '0'

/-- What stands for a control character behind the backslash. -/
def escapeControl (c : Char) : List Char :=
  match simpleEscapes.find? (·.2 = c) with
  | some (e, _) => [e]
  | none => ['u', '0', '0', hexDigit (c.toNat / 16), hexDigit (c.toNat % 16)]

def escapeChar (c : Char) : List Char :=
  if c = '"' ∨ c = '\\' then ['\\', c]
  else if 0x20 ≤ c.toNat then [c]
  else '\\' :: escapeControl c

def escape (d : List Char) : List Char := d.flatMap escapeChar

def escapeMember (m : List Char × List Char) : List Char × List Char := (escape m.1, escape m.2)

def writeObject (l : List (List Char × List Char)) : List Char := objectText (l.map escapeMember)

/-! ## Reading -/

/-- The character with this number in hexadecimal. -/
def hexChar (h : List Char) : Option Char :=
  (h.foldlM (fun n c => (Percent.hexValue c).map (16 * n + ·)) 0).map Char.ofNat

/-- A character before what is read behind it. -/
def before (c : Char) (r : Option (List Char × List Char)) : Option (List Char × List Char) :=
  r.map fun r => (c :: r.1, r.2)

/-- Reads a literal behind its opening quote: the string, and the text behind it. -/
def readLit : List Char → Option (List Char × List Char)
  | [] => none
  | '"' :: s => some ([], s)
  | '\\' :: 'u' :: a :: b :: c :: d :: s => (hexChar [a, b, c, d]).bind fun c => before c (readLit s)
  | '\\' :: e :: s => (simpleEscapes.lookup e).bind fun c => before c (readLit s)
  | c :: s => if plainChar c then before c (readLit s) else none

def expect (c : Char) : List Char → Option (List Char)
  | [] => none
  | d :: s => if d = c then some s else none

def readMember (s : List Char) : Option ((List Char × List Char) × List Char) := do
  let (k, s) ← readLit (← expect '"' s)
  let (v, s) ← readLit (← expect '"' (← expect ':' s))
  pure ((k, v), s)

/-- The members up to the closing brace, `n` of them at most. -/
def readMembers : Nat → List Char → Option (List (List Char × List Char))
  | 0, _ => none
  | n + 1, s => do
    let (m, s) ← readMember s
    match s with
    | ['\x7d'] => pure [m]
    | ',' :: s => (readMembers n s).map (m :: ·)
    | _ => none

def readObject : List Char → Option (List (List Char × List Char))
  | ['\x7b', '\x7d'] => some []
  | '\x7b' :: s => readMembers s.length s
  | _ => none

/-! ## What is written is read back -/

theorem readLit_plain {c : Char} (h : plainChar c = true) (s : List Char) :
    readLit (c :: s) = before c (readLit s) := by
  have hq : c ≠ '"' := by rintro rfl; exact absurd h (by decide)
  have hb : c ≠ '\\' := by rintro rfl; exact absurd h (by decide)
  rw [readLit]
  · rw [if_pos h]
  · exact fun e => hq e
  · exact fun a b c d s e => absurd e hb
  · exact fun e s h => absurd h hb

theorem readLit_control : ∀ n < 32, ∀ s,
    readLit ('\\' :: (escapeControl (Char.ofNat n) ++ s)) = before (Char.ofNat n) (readLit s) := by
  intro n hn s
  interval_cases n <;> rfl

theorem readLit_escapeChar (c : Char) (s : List Char) : readLit (escapeChar c ++ s) = before c (readLit s) := by
  unfold escapeChar
  split
  · rename_i h
    rcases h with rfl | rfl <;> rfl
  · rename_i h
    rw [not_or] at h
    split
    · rename_i hp
      exact readLit_plain (by simp [plainChar, h, hp]) s
    · rename_i hp
      have hc : Char.ofNat c.toNat = c := Char.ofNat_toNat c
      have := readLit_control c.toNat (by omega) s
      rwa [hc] at this

theorem readLit_escape (d t : List Char) : readLit (escape d ++ '"' :: t) = some (d, t) := by
  induction d with
  | nil => rfl
  | cons c d ih =>
    rw [escape, List.flatMap_cons, List.append_assoc, ← escape, readLit_escapeChar, ih]
    rfl

theorem readMember_memberText (m : List Char × List Char) (t : List Char) :
    readMember (memberText (escapeMember m) t) = some (m, t) := by
  simp only [readMember, memberText, escapeMember, expect, if_true, Option.bind_eq_bind, Option.bind_some,
    readLit_escape]
  rfl

theorem length_restText (l : List (List Char × List Char)) : l.length < (restText l).length := by
  induction l with
  | nil => decide
  | cons m l ih =>
    simp only [restText, memberText, List.length_cons, List.length_append]
    omega

theorem readMembers_memberText (m : List Char × List Char) (l : List (List Char × List Char)) {n : Nat}
    (hn : l.length < n) :
    readMembers n (memberText (escapeMember m) (restText (l.map escapeMember))) = some (m :: l) := by
  induction l generalizing m n with
  | nil =>
    obtain ⟨n, rfl⟩ := Nat.exists_eq_add_of_lt hn
    simp only [readMembers, readMember_memberText]
    rfl
  | cons m' l ih =>
    rw [List.length_cons] at hn
    obtain ⟨n, rfl⟩ := Nat.exists_eq_succ_of_ne_zero (Nat.ne_zero_of_lt hn)
    have hrest : readMembers n (memberText (escapeMember m') (restText (l.map escapeMember))) = some (m' :: l) :=
      ih m' (Nat.lt_of_succ_lt_succ hn)
    simp only [readMembers, readMember_memberText, List.map_cons, restText, Option.bind_eq_bind, Option.bind_some,
      hrest,
      Option.map_some]

theorem readObject_writeObject (l : List (List Char × List Char)) : readObject (writeObject l) = some l := by
  cases l with
  | nil => rfl
  | cons m l =>
    have hlen : l.length < (memberText (escapeMember m) (restText (l.map escapeMember))).length := by
      have := length_restText (l.map escapeMember)
      rw [List.length_map] at this
      simp only [memberText, List.length_cons, List.length_append]
      omega
    exact readMembers_memberText m l hlen

end Playground.Lib.JsonObject
