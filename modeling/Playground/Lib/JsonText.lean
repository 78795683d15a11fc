/-
  Playground.Lib.JsonText — JSON text and what it stands for, and text put together
  without an encoder.

  `Reads` is the grammar as a relation: a text, the value read from it, and the text left
  behind the value. A string literal stands for its characters with the escapes undone;
  an escaped surrogate that is not half of a pair stands for none.
  - `lit_template`: a literal whose characters were inserted as they are stands for them
    only when none of them needs an escape.
  - `objectText_faithful_iff`: so an object text that was put together from strings as
    they are stands for these strings just when none of them needs an escape.
-/

import Playground.Lib.Percent

namespace Playground.Lib.JsonText

/-! ## The grammar -/

inductive Value where
  | null
  | bool (b : Bool)
  | num (text : List Char)
  | str (s : List Char)
  | arr (elements : List Value)
  | obj (members : List (List Char × Value))

def Ws (w : List Char) : Prop := ∀ c ∈ w, c = ' ' ∨ c = '\t' ∨ c = '\n' ∨ c = '\r'

/-- Behind whitespace, the character `c`. -/
def Tok (c : Char) (s r : List Char) : Prop := ∃ w, Ws w ∧ s = w ++ c :: r

/-- A character that stands for itself in a string literal. -/
def plainChar (c : Char) : Bool := c != '"' && c != '\\' && 0x20 ≤ c.toNat

def Plain (s : List Char) : Prop := ∀ c ∈ s, plainChar c = true

instance (s : List Char) : Decidable (Plain s) := decidable_of_iff (s.all plainChar = true) List.all_eq_true

def simpleEscapes : List (Char × Char) :=
  [('"', '"'), ('\\', '\\'), ('/', '/'), ('b', '\x08'), ('f', '\x0c'), ('n', '\n'), ('r', '\r'), ('t', '\t')]

/-- Four hexadecimal digits. -/
def Hex4 (h : List Char) (n : Nat) : Prop :=
  h.length = 4 ∧ (∀ c ∈ h, (Percent.hexValue c).isSome) ∧
    n = h.foldl (fun n c => 16 * n + (Percent.hexValue c).getD 0) 0

/-- What stands behind a backslash, and the character it is the escape of. -/
inductive Escape : List Char → Char → Prop
  | simple {e c : Char} : (e, c) ∈ simpleEscapes → Escape [e] c
  | unicode {h : List Char} {n : Nat} : Hex4 h n → n.isValidChar → Escape ('u' :: h) (Char.ofNat n)
  | pair {h l : List Char} {hi lo : Nat} : Hex4 h hi → Hex4 l lo → 0xD800 ≤ hi → hi < 0xDC00 → 0xDC00 ≤ lo →
      lo < 0xE000 → Escape ('u' :: h ++ '\\' :: 'u' :: l) (Char.ofNat (0x10000 + (hi - 0xD800) * 0x400 + (lo - 0xDC00)))

/-- A string literal behind its opening quote: the text, the string, the text behind the
    closing quote. -/
inductive Lit : List Char → List Char → List Char → Prop
  | close (s : List Char) : Lit ('"' :: s) [] s
  | char {c : Char} {s d r : List Char} : plainChar c = true → Lit s d r → Lit (c :: s) (c :: d) r
  | escape {e : List Char} {c : Char} {s d r : List Char} : Escape e c → Lit s d r → Lit ('\\' :: (e ++ s)) (c :: d) r

def digits (t : List Char) : Prop := t ≠ [] ∧ ∀ c ∈ t, c.isDigit

/-- `-`, an integer part without leading zeros, a fraction, an exponent. -/
def Number (t : List Char) : Prop :=
  ∃ sign int frac exp, t = sign ++ int ++ frac ++ exp ∧ (sign = [] ∨ sign = ['-']) ∧
    (digits int ∧ (int.head? = some '0' → int = ['0'])) ∧ (frac = [] ∨ ∃ d, frac = '.' :: d ∧ digits d) ∧
    (exp = [] ∨ ∃ e s d, exp = e :: s ++ d ∧ (e = 'e' ∨ e = 'E') ∧ (s = [] ∨ s = ['+'] ∨ s = ['-']) ∧ digits d)

mutual

inductive Reads : List Char → Value → List Char → Prop
  | wordNull {w r : List Char} : Ws w → Reads (w ++ "null".toList ++ r) .null r
  | wordTrue {w r : List Char} : Ws w → Reads (w ++ "true".toList ++ r) (.bool true) r
  | wordFalse {w r : List Char} : Ws w → Reads (w ++ "false".toList ++ r) (.bool false) r
  | num {w t r : List Char} : Ws w → Number t → Reads (w ++ t ++ r) (.num t) r
  | str {s s₁ d r : List Char} : Tok '"' s s₁ → Lit s₁ d r → Reads s (.str d) r
  | emptyArr {s s₁ r : List Char} : Tok '[' s s₁ → Tok ']' s₁ r → Reads s (.arr []) r
  | arr {s s₁ r : List Char} {vs : List Value} : Tok '[' s s₁ → Elements s₁ vs r → Reads s (.arr vs) r
  | emptyObj {s s₁ r : List Char} : Tok '\x7b' s s₁ → Tok '\x7d' s₁ r → Reads s (.obj []) r
  | obj {s s₁ r : List Char} {ms : List (List Char × Value)} : Tok '\x7b' s s₁ → Members s₁ ms r → Reads s (.obj ms) r

/-- The elements of an array that is not empty, and its closing bracket. -/
inductive Elements : List Char → List Value → List Char → Prop
  | last {s s₁ r : List Char} {v : Value} : Reads s v s₁ → Tok ']' s₁ r → Elements s [v] r
  | cons {s s₁ s₂ r : List Char} {v : Value} {vs : List Value} : Reads s v s₁ → Tok ',' s₁ s₂ → Elements s₂ vs r →
      Elements s (v :: vs) r

/-- The members of an object that is not empty, and its closing brace. -/
inductive Members : List Char → List (List Char × Value) → List Char → Prop
  | last {s s₁ s₂ s₃ s₄ k r : List Char} {v : Value} : Tok '"' s s₁ → Lit s₁ k s₂ → Tok ':' s₂ s₃ → Reads s₃ v s₄ →
      Tok '\x7d' s₄ r → Members s [(k, v)] r
  | cons {s s₁ s₂ s₃ s₄ s₅ k r : List Char} {v : Value} {ms : List (List Char × Value)} : Tok '"' s s₁ → Lit s₁ k s₂ →
      Tok ':' s₂ s₃ → Reads s₃ v s₄ → Tok ',' s₄ s₅ → Members s₅ ms r → Members s ((k, v) :: ms) r

end

/-- A JSON text of a value. -/
def Text (s : List Char) (v : Value) : Prop := ∃ r, Reads s v r ∧ Ws r

/-! ## Reading a literal -/

theorem tok_self (c : Char) (s : List Char) : Tok c (c :: s) s := by
  refine ⟨[], ?_, rfl⟩
  intro d hd
  cases hd

/-- Where no whitespace is, the next character is the one that is read. -/
theorem Tok.head {c d : Char} {s r : List Char} (h : Tok c (d :: s) r)
    (hd : ¬ (d = ' ' ∨ d = '\t' ∨ d = '\n' ∨ d = '\r')) : c = d ∧ r = s := by
  obtain ⟨w, hw, hs⟩ := h
  cases w with
  | nil =>
    cases hs
    exact ⟨rfl, rfl⟩
  | cons x w =>
    cases hs
    exact absurd (hw d List.mem_cons_self) hd

theorem Plain.tail {c : Char} {s : List Char} (h : Plain (c :: s)) : Plain s :=
  fun d hd => h d (List.mem_cons_of_mem c hd)

/-- A plain string, written as it is. -/
theorem lit_plain {x : List Char} (h : Plain x) (s : List Char) : Lit (x ++ '"' :: s) x s := by
  induction x with
  | nil => exact .close s
  | cons c x ih => exact .char (h c List.mem_cons_self) (ih h.tail)

theorem Hex4.not_quote {h : List Char} {n : Nat} (hh : Hex4 h n) : '"' ∉ h := by
  intro hq
  exact absurd (hh.2.1 _ hq) (by decide)

/-- The only escape with a quote in it is the quote's. -/
theorem Escape.quote {e : List Char} {c : Char} (h : Escape e c) (hq : '"' ∈ e) : e = ['"'] := by
  cases h with
  | simple _ => rw [List.mem_singleton.mp hq]
  | unicode hh _ =>
    rcases List.mem_cons.mp hq with hq | hq
    · exact absurd hq (by decide)
    · exact absurd hq hh.not_quote
  | pair hh hl =>
    simp only [List.cons_append, List.mem_cons, List.mem_append, Char.reduceEq, false_or] at hq
    rcases hq with hq | hq
    · exact absurd hq hh.not_quote
    · exact absurd hq hl.not_quote

theorem Escape.ne_nil {e : List Char} {c : Char} (h : Escape e c) : e ≠ [] := by
  cases h <;> exact List.cons_ne_nil _ _

/-- How an escape lies over the end of the characters `x` inserted into a literal: within
    them, or it is the quote's and `x` ends with its backslash. -/
theorem Escape.within {e x s tail : List Char} {c : Char} (he : Escape e c) (h : e ++ s = x ++ '"' :: tail) :
    (∃ x', x = e ++ x' ∧ s = x' ++ '"' :: tail) ∨ (x = [] ∧ e = ['"'] ∧ s = tail) := by
  rcases List.append_eq_append_iff.mp h with ⟨a, hx, hs⟩ | ⟨a, he', hs⟩
  · exact .inl ⟨a, hx, hs⟩
  · cases a with
    | nil =>
      rw [List.append_nil] at he'
      exact .inl ⟨[], by rw [he', List.append_nil], hs.symm⟩
    | cons q a =>
      cases hs
      have hq := he.quote (by rw [he']; exact List.mem_append_right _ List.mem_cons_self)
      rw [hq] at he'
      cases x with
      | nil =>
        cases he'
        exact .inr ⟨rfl, hq, rfl⟩
      | cons b x =>
        cases x with
        | nil => cases he'
        | cons b' x => cases he'

/-- A literal that starts with the characters of `x` and a quote. Its string is `x` when
    `x` is plain; or it is shorter, as an escape is longer than what it stands for; or the
    quote belongs to an escape that `x` begins, and the string does not end as `x` does. -/
theorem lit_template {x tail d r : List Char} (h : Lit (x ++ '"' :: tail) d r)
    (htail : ∀ d r, Lit tail d r → d.getLast? ≠ some '\\') :
    (Plain x ∧ d = x ∧ r = tail) ∨ d.length < x.length ∨
      (x.getLast? = some '\\' ∧ d ≠ [] ∧ d.getLast? ≠ some '\\') := by
  generalize ht : x ++ '"' :: tail = t at h
  induction h generalizing x with
  | close s =>
    cases x with
    | nil =>
      cases ht
      refine .inl ⟨?_, rfl, rfl⟩
      intro c hc
      cases hc
    | cons c x => exact .inr (.inl (Nat.succ_pos _))
  | @char c s d r hc hl ih =>
    cases x with
    | nil =>
      cases ht
      exact absurd hc (by decide)
    | cons c x =>
      cases ht
      rcases ih rfl with ⟨hx, rfl, rfl⟩ | hlt | ⟨hx, hd, hlast⟩
      · refine .inl ⟨?_, rfl, rfl⟩
        intro b hb
        rcases List.mem_cons.mp hb with rfl | hb
        · exact hc
        · exact hx b hb
      · exact .inr (.inl (Nat.succ_lt_succ hlt))
      · refine .inr (.inr ⟨?_, List.cons_ne_nil _ _, ?_⟩)
        · rw [List.getLast?_cons, hx]
          rfl
        · obtain ⟨b, d, rfl⟩ := List.exists_cons_of_ne_nil hd
          rwa [List.getLast?_cons_cons]
  | @escape e c s d r he hl ih =>
    cases x with
    | nil => cases ht
    | cons b x =>
      rw [List.cons_append, List.cons.injEq] at ht
      obtain ⟨rfl, ht⟩ := ht
      rcases he.within ht.symm with ⟨x, rfl, hs⟩ | ⟨rfl, rfl, rfl⟩
      · have he' := List.length_pos_iff.mpr he.ne_nil
        rcases ih hs.symm with ⟨-, rfl, -⟩ | hlt | ⟨hx, hd, hlast⟩
        · refine .inr (.inl ?_)
          simp only [List.length_cons, List.length_append]
          omega
        · refine .inr (.inl ?_)
          simp only [List.length_cons, List.length_append]
          omega
        · refine .inr (.inr ⟨?_, List.cons_ne_nil _ _, ?_⟩)
          · rw [List.getLast?_cons, List.getLast?_append, hx]
            rfl
          · obtain ⟨b, d, rfl⟩ := List.exists_cons_of_ne_nil hd
            rwa [List.getLast?_cons_cons]
      · -- the quote is escaped: the string goes on behind it
        refine .inr (.inr ⟨rfl, List.cons_ne_nil _ _, ?_⟩)
        have hc : c = '"' := by
          cases he with
          | simple he => simpa [simpleEscapes] using he
        have := htail d r hl
        cases d with
        | nil =>
          rw [hc]
          decide
        | cons b d => rwa [List.getLast?_cons_cons]

/-- A literal whose string is what was inserted: nothing in it needed an escape. -/
theorem plain_of_lit {x tail r : List Char} (h : Lit (x ++ '"' :: tail) x r)
    (htail : ∀ d r, Lit tail d r → d.getLast? ≠ some '\\') : Plain x ∧ r = tail := by
  rcases lit_template h htail with ⟨hx, -, hr⟩ | hlt | ⟨hx, -, hne⟩
  · exact ⟨hx, hr⟩
  · exact absurd hlt (Nat.lt_irrefl _)
  · exact absurd hx hne

/-- A plain string is read as it is written. -/
theorem lit_of_plain {x tail d r : List Char} (hx : Plain x) (h : Lit (x ++ '"' :: tail) d r) : d = x ∧ r = tail := by
  generalize ht : x ++ '"' :: tail = t at h
  induction h generalizing x with
  | close s =>
    cases x with
    | nil =>
      cases ht
      exact ⟨rfl, rfl⟩
    | cons c x =>
      cases ht
      exact absurd (hx '"' List.mem_cons_self) (by decide)
  | char hc _ ih =>
    cases x with
    | nil =>
      cases ht
      exact absurd hc (by decide)
    | cons c x =>
      cases ht
      obtain ⟨rfl, rfl⟩ := ih hx.tail rfl
      exact ⟨rfl, rfl⟩
  | escape he _ ih =>
    cases x with
    | nil => cases ht
    | cons c x =>
      cases (List.cons.inj ht).1
      exact absurd (hx '\\' List.mem_cons_self) (by decide)

theorem Number.head {t : List Char} (h : Number t) : ∃ c u, t = c :: u ∧ (c = '-' ∨ c.isDigit) := by
  obtain ⟨sign, int, frac, exp, rfl, hsign, ⟨⟨hne, hint⟩, -⟩, -⟩ := h
  rcases hsign with rfl | rfl
  · obtain ⟨c, u, rfl⟩ := List.exists_cons_of_ne_nil hne
    exact ⟨c, _, rfl, .inr (hint c List.mem_cons_self)⟩
  · exact ⟨'-', _, rfl, .inl rfl⟩

/-- At a quote stands a string. -/
theorem reads_quote {s r : List Char} {v : Value} (h : Reads ('"' :: s) v r) : ∃ d, v = .str d ∧ Lit s d r := by
  have hq : ¬ ('"' = ' ' ∨ '"' = '\t' ∨ '"' = '\n' ∨ '"' = '\r') := by decide
  -- no token that begins with another character stands there
  have hother {c : Char} {w u : List Char} (hw : Ws w) (he : '"' :: s = w ++ c :: u) : c = '"' :=
    (Tok.head ⟨w, hw, he⟩ hq).1
  generalize ht : '"' :: s = t at h
  cases h with
  | wordNull hw => exact absurd (hother hw (by simpa using ht)) (by decide)
  | wordTrue hw => exact absurd (hother hw (by simpa using ht)) (by decide)
  | wordFalse hw => exact absurd (hother hw (by simpa using ht)) (by decide)
  | num hw hn =>
    obtain ⟨c, u, rfl, hc⟩ := hn.head
    have := hother hw (by simpa using ht)
    subst this
    exact absurd hc (by decide)
  | str htok hl =>
    rw [← ht] at htok
    obtain ⟨-, rfl⟩ := htok.head hq
    exact ⟨_, rfl, hl⟩
  | emptyArr htok => rw [← ht] at htok; exact absurd (htok.head hq).1 (by decide)
  | arr htok => rw [← ht] at htok; exact absurd (htok.head hq).1 (by decide)
  | emptyObj htok => rw [← ht] at htok; exact absurd (htok.head hq).1 (by decide)
  | obj htok => rw [← ht] at htok; exact absurd (htok.head hq).1 (by decide)

/-! ## Objects put together from strings -/

/-- A member whose key and string are written as they are, before the text `t`. -/
def memberText (m : List Char × List Char) (t : List Char) : List Char :=
  '"' :: (m.1 ++ '"' :: ':' :: '"' :: (m.2 ++ '"' :: t))

/-- The members behind the first. -/
def restText : List (List Char × List Char) → List Char
  | [] => ['\x7d']
  | m :: l => ',' :: memberText m (restText l)

/-- The text of an object whose keys and strings are written as they are. -/
def objectText : List (List Char × List Char) → List Char
  | [] => ['\x7b', '\x7d']
  | m :: l => '\x7b' :: memberText m (restText l)

def strings (l : List (List Char × List Char)) : List (List Char × Value) := l.map fun m => (m.1, .str m.2)

/-- The text is an object with these members, each once, in any order. -/
def Faithful (s : List Char) (l : List (List Char × List Char)) : Prop :=
  ∃ ms, Text s (.obj ms) ∧ ms.Perm (strings l)

/-- No literal that starts where a member's string should have ended ends in a backslash. -/
theorem lit_restText (l : List (List Char × List Char)) (d r : List Char) (h : Lit (restText l) d r) :
    d.getLast? ≠ some '\\' := by
  cases l with
  | nil =>
    cases h with
    | char _ h => cases h
  | cons m l =>
    have hplain : Plain [','] := by decide
    obtain ⟨rfl, -⟩ := lit_of_plain hplain h
    decide

variable {m : List Char × List Char} {l : List (List Char × List Char)} {ms : List (List Char × Value)} {r : List Char}

/-- The first member: its key, and what its value is read from. -/
theorem member_reads {s₁ s₂ s₃ s₄ k t : List Char} {v : Value} (hk : Plain m.1) (hq : Tok '"' (memberText m t) s₁)
    (hl : Lit s₁ k s₂) (hc : Tok ':' s₂ s₃) (hv : Reads s₃ v s₄) :
    k = m.1 ∧ ∃ d, v = .str d ∧ Lit (m.2 ++ '"' :: t) d s₄ := by
  obtain ⟨-, rfl⟩ := hq.head (by decide)
  obtain ⟨rfl, rfl⟩ := lit_of_plain hk hl
  obtain ⟨-, rfl⟩ := hc.head (by decide)
  exact ⟨rfl, reads_quote hv⟩

/-- With keys of their own, a key's string is the one that was given. -/
theorem string_of_key {d : List Char} (hkeys : ((m :: l).map Prod.fst).Nodup)
    (h : (m.1, Value.str d) ∈ strings (m :: l)) : d = m.2 := by
  rw [strings, List.map_cons] at h
  rcases List.mem_cons.mp h with h | h
  · injection h with _ h
    injection h
  · obtain ⟨x, hx, he⟩ := List.mem_map.mp h
    rw [List.map_cons, List.nodup_cons] at hkeys
    exact absurd (List.mem_map.mpr ⟨x, hx, (Prod.mk.inj he).1⟩) hkeys.1

/-- The first member's string is the one that was given, and it is plain. -/
theorem first_exact {d s₄ : List Char} (hp : ms.Perm (strings (m :: l))) (hkeys : ((m :: l).map Prod.fst).Nodup)
    (hmem : (m.1, Value.str d) ∈ ms) (hl : Lit (m.2 ++ '"' :: restText l) d s₄) :
    d = m.2 ∧ Plain m.2 ∧ s₄ = restText l := by
  have hd := string_of_key hkeys (hp.mem_iff.mp hmem)
  subst hd
  exact ⟨rfl, plain_of_lit hl (lit_restText l)⟩

/-- The strings of an object that has the members it was put together from are plain. -/
theorem plain_of_members (h : Members (memberText m (restText l)) ms r) (hp : ms.Perm (strings (m :: l)))
    (hkeys : ((m :: l).map Prod.fst).Nodup) (hplain : ∀ x ∈ m :: l, Plain x.1) : ∀ x ∈ m :: l, Plain x.2 := by
  have hk := hplain m List.mem_cons_self
  induction l generalizing m ms with
  | nil =>
    intro x hx
    cases List.mem_singleton.mp hx
    cases h with
    | last hq hl hc hv =>
      obtain ⟨rfl, d, rfl, hlit⟩ := member_reads hk hq hl hc hv
      exact (first_exact hp hkeys List.mem_cons_self hlit).2.1
    | cons hq hl hc hv =>
      obtain ⟨rfl, d, rfl, hlit⟩ := member_reads hk hq hl hc hv
      exact (first_exact hp hkeys List.mem_cons_self hlit).2.1
  | cons m' l ih =>
    cases h with
    | last hq hl hc hv hend =>
      obtain ⟨rfl, d, rfl, hlit⟩ := member_reads hk hq hl hc hv
      obtain ⟨-, -, rfl⟩ := first_exact hp hkeys List.mem_cons_self hlit
      exact absurd (hend.head (by decide)).1 (by decide)
    | cons hq hl hc hv hcomma hrest =>
      obtain ⟨rfl, d, rfl, hlit⟩ := member_reads hk hq hl hc hv
      obtain ⟨rfl, hm, rfl⟩ := first_exact hp hkeys List.mem_cons_self hlit
      obtain ⟨-, rfl⟩ := hcomma.head (by decide)
      have hrest := ih hrest hp.cons_inv (List.nodup_cons.mp hkeys).2
        (fun x hx => hplain x (List.mem_cons_of_mem m hx)) (hplain m' (List.mem_cons_of_mem m List.mem_cons_self))
      intro x hx
      rcases List.mem_cons.mp hx with rfl | hx
      · exact hm
      · exact hrest x hx

/-- Plain keys and strings are read as they are written. -/
theorem members_of_plain (hplain : ∀ x ∈ m :: l, Plain x.1 ∧ Plain x.2) :
    Members (memberText m (restText l)) (strings (m :: l)) [] := by
  have hm := hplain m List.mem_cons_self
  have hkey : Lit (m.1 ++ '"' :: ':' :: '"' :: (m.2 ++ '"' :: restText l)) m.1 _ := lit_plain hm.1 _
  have hstr : Reads ('"' :: (m.2 ++ '"' :: restText l)) (.str m.2) (restText l) :=
    .str (tok_self _ _) (lit_plain hm.2 _)
  induction l generalizing m with
  | nil => exact .last (tok_self _ _) hkey (tok_self _ _) hstr (tok_self _ _)
  | cons m' l ih =>
    have hm' := hplain m' (List.mem_cons_of_mem m List.mem_cons_self)
    have hrest := ih (fun x hx => hplain x (List.mem_cons_of_mem m hx)) hm' (lit_plain hm'.1 _)
      (.str (tok_self _ _) (lit_plain hm'.2 _))
    exact .cons (tok_self _ _) hkey (tok_self _ _) hstr (tok_self _ _) hrest

theorem reads_obj {s : List Char} (h : Reads s (.obj ms) r) :
    ∃ s₁, Tok '\x7b' s s₁ ∧ (Tok '\x7d' s₁ r ∨ Members s₁ ms r) := by
  cases h with
  | emptyObj hopen hclose => exact ⟨_, hopen, .inl hclose⟩
  | obj hopen hms => exact ⟨_, hopen, .inr hms⟩

/-- A text put together from strings as they are stands for them just when none of them
    needs an escape. -/
theorem objectText_faithful_iff (m : List Char × List Char) (l : List (List Char × List Char))
    (hkeys : ((m :: l).map Prod.fst).Nodup) (hplain : ∀ x ∈ m :: l, Plain x.1) :
    Faithful (objectText (m :: l)) (m :: l) ↔ ∀ x ∈ m :: l, Plain x.2 := by
  constructor
  · rintro ⟨ms, ⟨r, hread, -⟩, hp⟩
    obtain ⟨s₁, hopen, hms⟩ := reads_obj hread
    obtain ⟨-, rfl⟩ := hopen.head (by decide)
    rcases hms with hclose | hms
    · exact absurd (hclose.head (by decide)).1 (by decide)
    · exact plain_of_members hms hp hkeys hplain
  · intro h
    refine ⟨_, ⟨[], .obj (tok_self _ _) (members_of_plain fun x hx => ⟨hplain x hx, h x hx⟩), ?_⟩, .refl _⟩
    intro c hc
    cases hc

end Playground.Lib.JsonText
