/-
  Playground.Queue.Payload — the text that Spring's `enqueueJob` stores of a payload
  (`JobQueueService.java`, `Case2Controller.JobSubmitRequest`).

  The payload is a map read from a JSON object, and what is stored is its `toString`:
  `{k=v, ...}` with keys and strings as they are, so a string can imitate what would
  stand beside it, and a value of another kind.
  - `determined_iff`: the payloads that their stored text determines: the empty one, and
    one string under one key that imitates nothing.
  - `number_collides`: two payloads with one stored text.
-/

import Playground.Queue.Siblings

namespace Playground.Queue.Spring

/-! ## Payloads -/

/-- What Jackson makes of a JSON value; `N` is the numbers. A map has its entries in the
    order they came in. -/
inductive Value (N : Type) where
  | null
  | bool (b : Bool)
  | num (n : N)
  | str (s : String)
  | list (elements : List (Value N))
  | map (entries : List (String × Value N))

variable {N : Type}

/-- A map has an entry for a key once. -/
inductive Value.WF : Value N → Prop
  | null : WF .null
  | bool (b : Bool) : WF (.bool b)
  | num (n : N) : WF (.num n)
  | str (s : String) : WF (.str s)
  | list {l : List (Value N)} : (∀ v ∈ l, WF v) → WF (.list l)
  | map {m : List (String × Value N)} : (m.map Prod.fst).Nodup → (∀ e ∈ m, WF e.2) → WF (.map m)

variable (N) in
/-- A payload that `JobSubmitRequest` accepts. -/
structure Payload where
  entries : List (String × Value N)
  wf : (Value.map entries).WF

mutual

/-- `equals`: maps are equal whatever the order of their entries. -/
inductive Equal : Value N → Value N → Prop
  | null : Equal .null .null
  | bool (b : Bool) : Equal (.bool b) (.bool b)
  | num (n : N) : Equal (.num n) (.num n)
  | str (s : String) : Equal (.str s) (.str s)
  | list {l l' : List (Value N)} : EqualAll l l' → Equal (.list l) (.list l')
  | map {m m' m'' : List (String × Value N)} : EqualEntries m m' → m'.Perm m'' → Equal (.map m) (.map m'')

inductive EqualAll : List (Value N) → List (Value N) → Prop
  | nil : EqualAll [] []
  | cons {v v' : Value N} {l l' : List (Value N)} : Equal v v' → EqualAll l l' → EqualAll (v :: l) (v' :: l')

inductive EqualEntries : List (String × Value N) → List (String × Value N) → Prop
  | nil : EqualEntries [] []
  | cons {k : String} {v v' : Value N} {m m' : List (String × Value N)} : Equal v v' → EqualEntries m m' →
      EqualEntries ((k, v) :: m) ((k, v') :: m')

end

/-! ## `toString` -/

section Text

variable (numText : N → String)

mutual

def Value.text : Value N → String
  | .null => "null"
  | .bool b => if b then "true" else "false"
  | .num n => numText n
  | .str s => s
  | .list l => "[" ++ ", ".intercalate (elementTexts l) ++ "]"
  | .map m => "\x7b" ++ ", ".intercalate (entryTexts m) ++ "\x7d"

def elementTexts : List (Value N) → List String
  | [] => []
  | v :: l => v.text :: elementTexts l

def entryTexts : List (String × Value N) → List String
  | [] => []
  | (k, v) :: m => (k ++ "=" ++ v.text) :: entryTexts m

end

def Payload.text (p : Payload N) : String := (Value.map p.entries).text numText

/-- What `enqueueJob` stores under `payload`. -/
def storedPayload (job : NewJob (Option (Payload N))) : Option String :=
  (jobData (Payload.text numText) job).lookup .payload

/-- Whatever job is stored with the same payload text has an equal payload. -/
def Determined (p : Payload N) : Prop :=
  ∀ (job job' : NewJob (Option (Payload N))) (q : Payload N), job.payload = some p → job'.payload = some q →
    storedPayload numText job' = storedPayload numText job → Equal (.map q.entries) (.map p.entries)

/-- A string that reads as nothing but itself where a value stands. -/
structure Literal (s : String) : Prop where
  no_equals : '=' ∉ s.toList
  not_null : s ≠ "null"
  not_true : s ≠ "true"
  not_false : s ≠ "false"
  not_number : ∀ n, numText n ≠ s
  not_empty : s ≠ "\x7b\x7d"
  not_list : ∀ t, s ≠ "[" ++ t ++ "]"

/-- No entry, or one: a string that reads as nothing else, under a key without `=`. -/
def Unmistakable (m : List (String × Value N)) : Prop :=
  m = [] ∨ ∃ k s, m = [(k, .str s)] ∧ '=' ∉ k.toList ∧ Literal numText s

end Text

variable {numText : N → String} {p q : Payload N} {k s : String}

theorem storedPayload_some {job : NewJob (Option (Payload N))} (h : job.payload = some p) :
    storedPayload numText job = some (p.text numText) := by
  rw [storedPayload, jobData, h]
  rfl

/-- The jobs' other fields do not matter. -/
theorem determined_text : Determined numText p ↔
    ∀ q : Payload N, q.text numText = p.text numText → Equal (.map q.entries) (.map p.entries) := by
  constructor
  · intro h q hq
    refine h ⟨"", some p, "", "", ""⟩ ⟨"", some q, "", "", ""⟩ q rfl rfl ?_
    rw [storedPayload_some rfl, storedPayload_some rfl, hq]
  · intro h job job' q hp hq hs
    rw [storedPayload_some hp, storedPayload_some hq] at hs
    exact h q (Option.some.inj hs)

/-- What stands between the braces. -/
def body (numText : N → String) (m : List (String × Value N)) : String := ", ".intercalate (entryTexts numText m)

theorem text_eq_iff : q.text numText = p.text numText ↔ body numText q.entries = body numText p.entries := by
  have h (p : Payload N) : (p.text numText).toList = '\x7b' :: ((body numText p.entries).toList ++ ['\x7d']) := by
    simp [Payload.text, Value.text, body]
  rw [← String.toList_inj, h, h, List.cons.injEq, List.append_left_inj, String.toList_inj]
  simp

/-- One entry. -/
def Payload.one (k : String) (v : Value N) (h : v.WF) : Payload N :=
  ⟨[(k, v)], .map (by simp) (by simpa using h)⟩

theorem body_one (v : Value N) : body numText [(k, v)] = k ++ "=" ++ v.text numText := by
  simp [body, entryTexts]

theorem body_cons (numText : N → String) (k : String) (v : Value N) (m : List (String × Value N)) :
    ∃ t, body numText ((k, v) :: m) = k ++ "=" ++ t := by
  cases m with
  | nil => exact ⟨_, body_one v⟩
  | cons e m =>
    refine ⟨v.text numText ++ ", " ++ body numText (e :: m), ?_⟩
    simp only [body, entryTexts, String.intercalate_cons_cons, String.append_assoc]

/-- Every entry has a `=`. -/
theorem length_le_count (numText : N → String) (m : List (String × Value N)) :
    m.length ≤ (body numText m).toList.count '=' := by
  induction m with
  | nil => exact Nat.zero_le _
  | cons e m ih =>
    obtain ⟨k, v⟩ := e
    cases m with
    | nil =>
      rw [body_one]
      simp only [String.toList_append, String.reduceToList, List.count_append, List.length_singleton,
        List.count_singleton_self]
      omega
    | cons e m =>
      have hb : body numText ((k, v) :: e :: m) = k ++ "=" ++ v.text numText ++ ", " ++ body numText (e :: m) := by
        simp only [body, entryTexts, String.intercalate_cons_cons]
      rw [hb]
      simp only [String.toList_append, String.reduceToList, List.count_append, List.count_singleton_self]
      rw [List.length_cons]
      omega

/-- A text is cut in one way at its only `=`. -/
theorem cut_unique {k' t : String} (hk : '=' ∉ k.toList) (hs : '=' ∉ s.toList) (h : k' ++ "=" ++ t = k ++ "=" ++ s) :
    k' = k ∧ t = s := by
  rw [← String.toList_inj] at h
  simp only [String.toList_append, String.reduceToList, List.append_assoc, List.singleton_append] at h
  rcases List.append_eq_append_iff.mp h with ⟨a, hk', ht⟩ | ⟨a, hk', ht⟩
  · cases a with
    | nil =>
      rw [List.append_nil] at hk'
      exact ⟨(String.toList_inj.mp hk').symm, String.toList_inj.mp (List.cons.inj ht).2⟩
    | cons c a =>
      cases (List.cons.inj ht).1
      exact absurd (by rw [hk']; simp) hk
  · cases a with
    | nil =>
      rw [List.append_nil] at hk'
      exact ⟨String.toList_inj.mp hk', String.toList_inj.mp (List.cons.inj ht).2.symm⟩
    | cons c a =>
      have hs' : s.toList = a ++ '=' :: t.toList := (List.cons.inj ht).2
      exact absurd (by rw [hs']; simp) hs

/-- What equals a map of one string. -/
theorem equal_one {k' : String} {v : Value N} {m : List (String × Value N)} (h : Equal (.map [(k', v)]) (.map m))
    (hm : m = [(k, .str s)]) : k' = k ∧ v = .str s := by
  subst hm
  cases h with
  | map he hp =>
    cases he with
    | cons hv hnil =>
      cases hnil
      have := List.perm_singleton.mp hp.symm
      cases this
      cases hv
      exact ⟨rfl, rfl⟩

theorem length_equals : "=".length = 1 := rfl

/-- The string that stands behind the first `=`. -/
theorem equal_collapsed {t : String} {m : List (String × Value N)} (h : Equal (.map [(k, .str t)]) (.map m)) :
    m = [(k, .str t)] := by
  cases h with
  | map he hp =>
    cases he with
    | cons hv hnil =>
      cases hnil
      cases hv
      exact (List.singleton_perm.mp hp).symm

/-- A payload that its text determines is equal to every payload of one entry with that
    text. -/
theorem determined_one (h : ∀ q : Payload N, q.text numText = p.text numText → Equal (.map q.entries) (.map p.entries))
    {t : String} (hb : body numText p.entries = k ++ "=" ++ t) (k' : String) {v : Value N} (hv : v.WF)
    (he : k' ++ "=" ++ v.text numText = k ++ "=" ++ t) : Equal (.map [(k', v)]) (.map p.entries) := by
  refine h (.one k' v hv) (text_eq_iff.mpr ?_)
  rw [hb, Payload.one, body_one, he]

theorem unmistakable_of_determined (h : Determined numText p) : Unmistakable numText p.entries := by
  rw [determined_text] at h
  cases hp : p.entries with
  | nil => exact .inl rfl
  | cons e m =>
    obtain ⟨k, v⟩ := e
    obtain ⟨t, ht⟩ := body_cons numText k v m
    rw [← hp] at ht
    -- everything behind the first `=` could be one string
    have hstr := equal_collapsed (determined_one h ht k (.str t) rfl)
    have hone (k' : String) {v : Value N} (hv : v.WF) (he : k' ++ "=" ++ v.text numText = k ++ "=" ++ t) :
        k' = k ∧ v = .str t := equal_one (determined_one h ht k' hv he) hstr
    refine .inr ⟨k, t, hp ▸ hstr, ?_, ?_⟩
    · intro hk
      obtain ⟨a, b, hab⟩ := List.append_of_mem hk
      have hka : k = String.ofList a ++ "=" ++ String.ofList b := by
        rw [← String.toList_inj, hab]
        simp
      have hlen := congrArg String.length (hone (String.ofList a) (.str (String.ofList b ++ "=" ++ t)) (by
        rw [Value.text, hka]
        simp only [String.append_assoc])).1
      rw [hka] at hlen
      simp only [String.length_append, String.length_ofList, length_equals] at hlen
      omega
    · refine ⟨?_, ?_, ?_, ?_, ?_, ?_, ?_⟩
      · intro hs
        obtain ⟨a, b, hab⟩ := List.append_of_mem hs
        have hta : t = String.ofList a ++ "=" ++ String.ofList b := by
          rw [← String.toList_inj, hab]
          simp
        have hlen := congrArg String.length (hone (k ++ "=" ++ String.ofList a) (.str (String.ofList b)) (by
          rw [Value.text, hta]
          simp only [String.append_assoc])).1
        simp only [String.length_append, String.length_ofList, length_equals] at hlen
        omega
      · rintro rfl
        cases (hone k .null rfl).2
      · rintro rfl
        cases (hone k (.bool true) rfl).2
      · rintro rfl
        cases (hone k (.bool false) rfl).2
      · intro n hn
        cases (hone k (.num n) (by rw [Value.text, hn])).2
      · rintro rfl
        cases (hone k (.map (m := []) (by simp) (by simp)) rfl).2
      · rintro u rfl
        cases (hone k (.list (l := [.str u]) (by simp [Value.WF.str])) (by simp [Value.text, elementTexts])).2

theorem determined_of_unmistakable (h : Unmistakable numText p.entries) : Determined numText p := by
  rw [determined_text]
  intro q hq
  rw [text_eq_iff] at hq
  have hcount := length_le_count numText q.entries
  rw [hq] at hcount
  rcases h with hp | ⟨k, s, hp, hk, hs⟩
  · have hq' : q.entries = [] := by
      rw [hp] at hcount
      simpa [body, entryTexts] using hcount
    rw [hp, hq']
    exact .map .nil (.refl _)
  · rw [hp, body_one] at hq hcount
    -- one `=`, so one entry
    have hone : (k ++ "=" ++ s).toList.count '=' = 1 := by
      simp [List.count_eq_zero.mpr hk, List.count_eq_zero.mpr hs.no_equals]
    cases hq' : q.entries with
    | nil =>
      rw [hq'] at hq
      have hlen := congrArg String.length hq
      have hnil : (body numText []).length = 0 := by simp [body, entryTexts]
      simp only [hnil, String.length_append, length_equals] at hlen
      omega
    | cons e m =>
      obtain ⟨k', v⟩ := e
      have hm : m = [] := by
        rw [hq'] at hcount
        simp only [Value.text, hone, List.length_cons] at hcount
        exact List.eq_nil_of_length_eq_zero (by omega)
      subst hm
      rw [hq', body_one] at hq
      obtain ⟨rfl, hv⟩ := cut_unique hk hs.no_equals hq
      rw [hp]
      cases v with
      | null => exact absurd hv.symm hs.not_null
      | bool b =>
        cases b with
        | true => exact absurd hv.symm hs.not_true
        | false => exact absurd hv.symm hs.not_false
      | num n => exact absurd hv (hs.not_number n)
      | str t =>
        rw [Value.text] at hv
        rw [hv]
        exact .map (.cons (.str s) .nil) (.refl _)
      | list l => exact absurd hv.symm (hs.not_list _)
      | map m =>
        cases m with
        | nil => exact absurd hv.symm hs.not_empty
        | cons e m =>
          have hmem : '=' ∈ (body numText (e :: m)).toList := by
            rw [← List.count_pos_iff]
            exact Nat.lt_of_lt_of_le (Nat.succ_pos _) (length_le_count numText (e :: m))
          refine absurd ?_ hs.no_equals
          rw [← hv, Value.text]
          simp only [String.toList_append, List.mem_append]
          exact .inl (.inr hmem)

/-- The payloads that their stored text determines. -/
theorem determined_iff (numText : N → String) (p : Payload N) :
    Determined numText p ↔ Unmistakable numText p.entries :=
  ⟨unmistakable_of_determined, determined_of_unmistakable⟩

def intText (n : Int) : String := toString n

/-- The number 1 under `a`, and the string of its digit. -/
def numberOne : Payload Int := .one "a" (.num 1) (.num 1)

def stringOne : Payload Int := .one "a" (.str "1") (.str "1")

/-- Both are stored as `{a=1}`. -/
theorem number_collides : numberOne.text intText = stringOne.text intText ∧
    ¬ Equal (.map stringOne.entries) (.map numberOne.entries) ∧ ¬ Determined intText numberOne := by
  have htext : stringOne.text intText = numberOne.text intText := by decide
  have hne : ¬ Equal (.map stringOne.entries) (.map numberOne.entries) := by
    intro h
    have := equal_collapsed h
    cases this
  exact ⟨htext.symm, hne, fun h => hne (determined_text.mp h stringOne htext)⟩

end Playground.Queue.Spring
