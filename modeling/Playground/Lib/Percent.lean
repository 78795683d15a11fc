/-
  Playground.Lib.Percent — percent-encoded text and what it stands for.

  A character is written as itself or as the octets of its UTF-8 encoding, each as `%`
  and two hexadecimal digits. Reading the text back (`decode`) does not tell which of the
  two was written, so a character that is escaped to keep it apart from a separator
  comes back as the separator does.
  - `StandsFor`: what a piece of encoded text is read as, whatever follows it; pieces
    are read one after another.
  - `standsFor_encode`: encoded text is read as the text.
-/

namespace Playground.Lib.Percent

def hexDigits : List Char := "0123456789ABCDEF".toList

/-- Either case is read. -/
def hexValue (c : Char) : Option Nat := hexDigits.findIdx? (· == c.toUpper)

def hexDigit (n : Nat) : Char := hexDigits.getD n '0'

/-- The characters that `encodeURIComponent` leaves as they are. -/
def unreserved (c : Char) : Bool := c.isAlphanum || "-_.!~*'()".toList.contains c

def escape (b : UInt8) : List Char := ['%', hexDigit (b.toNat / 16), hexDigit (b.toNat % 16)]

def encodeChar (c : Char) : List Char := if unreserved c then [c] else (String.utf8EncodeChar c).flatMap escape

def encode (l : List Char) : List Char := l.flatMap encodeChar

/-- The octets that encoded text stands for; `none` where a `%` is not followed by two
    hexadecimal digits. -/
def octets : List Char → Option (List UInt8)
  | [] => some []
  | c :: s =>
    if c = '%' then
      match s with
      | a :: b :: s =>
        match hexValue a, hexValue b with
        | some x, some y => (octets s).map (UInt8.ofNat (16 * x + y) :: ·)
        | _, _ => none
      | _ => none
    else (octets s).map (String.utf8EncodeChar c ++ ·)

/-- The text read back; `none` where the octets are not UTF-8. -/
def decode (s : List Char) : Option (List Char) :=
  (octets s).bind fun bs => bs.toByteArray.utf8Decode?.map (·.toList)

theorem hexValue_hexDigit : ∀ n < 16, hexValue (hexDigit n) = some n := by decide

theorem unreserved_ne_percent {c : Char} (h : unreserved c = true) : c ≠ '%' := by
  rintro rfl
  exact absurd h (by decide)

/-- `raw` is read as `text`, whatever follows it. -/
def StandsFor (raw text : List Char) : Prop :=
  ∀ s, octets (raw ++ s) = (octets s).map (text.flatMap String.utf8EncodeChar ++ ·)

theorem standsFor_nil : StandsFor [] [] := by
  intro s
  simp

theorem StandsFor.append {r₁ r₂ t₁ t₂ : List Char} (h₁ : StandsFor r₁ t₁) (h₂ : StandsFor r₂ t₂) :
    StandsFor (r₁ ++ r₂) (t₁ ++ t₂) := by
  intro s
  rw [List.append_assoc, h₁, h₂, Option.map_map, List.flatMap_append]
  congr 1
  funext bs
  simp only [Function.comp, List.append_assoc]

/-- A character that is not escaped. -/
theorem standsFor_plain {c : Char} (h : c ≠ '%') : StandsFor [c] [c] := by
  intro s
  rw [List.cons_append, List.nil_append, octets.eq_def]
  simp only [if_neg h, List.flatMap_cons, List.flatMap_nil, List.append_nil]

theorem octets_escape (b : UInt8) (s : List Char) : octets (escape b ++ s) = (octets s).map (b :: ·) := by
  have hlt : b.toNat < 256 := b.toNat_lt
  have hb : UInt8.ofNat (16 * (b.toNat / 16) + b.toNat % 16) = b := by
    rw [Nat.div_add_mod]
    exact UInt8.ofNat_toNat
  simp only [escape, List.cons_append, List.nil_append, octets, if_true,
    hexValue_hexDigit _ (by omega : b.toNat / 16 < 16), hexValue_hexDigit _ (by omega : b.toNat % 16 < 16), hb]

theorem octets_escapes (bs : List UInt8) (s : List Char) :
    octets (bs.flatMap escape ++ s) = (octets s).map (bs ++ ·) := by
  induction bs with
  | nil => simp
  | cons b bs ih =>
    rw [List.flatMap_cons, List.append_assoc, octets_escape, ih, Option.map_map]
    rfl

theorem standsFor_encodeChar (c : Char) : StandsFor (encodeChar c) [c] := by
  unfold encodeChar
  split
  · rename_i h
    exact standsFor_plain (unreserved_ne_percent h)
  · intro s
    rw [octets_escapes]
    simp

theorem standsFor_encode (l : List Char) : StandsFor (encode l) l := by
  induction l with
  | nil => exact standsFor_nil
  | cons c l ih => exact (standsFor_encodeChar c).append ih

theorem StandsFor.decode {raw text : List Char} (h : StandsFor raw text) : decode raw = some text := by
  have hs := h []
  simp only [List.append_nil, octets, Option.map_some] at hs
  have hu : (text.flatMap String.utf8EncodeChar).toByteArray = text.utf8Encode := rfl
  simp [Percent.decode, hs, hu]

end Playground.Lib.Percent
