/-
Character references: what an HTML tokenizer makes of a run of text.

A reference is `&` with a name from a table, or with a number. The table is a parameter;
what is used of it is that names are made of letters, digits and `;`, and that no name is
shorter than what it stands for. So a reference never reaches over a delimiter, a text without
one is read as it is (`read_no_reference`), and a text with one is read as a shorter one
(`no_reference_of_length`).

In an attribute value a reference by name that is not ended by `;` is text, where a letter,
a digit or `=` follows.
-/
import Mathlib.Data.List.TakeWhile
import Mathlib.Tactic.ByContra

set_option autoImplicit false

namespace CharRefs

/-! ## The references -/

/-- The table of references by name. -/
structure References where
  chars : List Char → Option (List Char)
  named : chars [] = none
  name_chars : ∀ name cs, chars name = some cs → ∀ c ∈ name, c.isAlphanum = true ∨ c = ';'
  short : ∀ name cs, chars name = some cs → cs.length ≤ name.length

/-- The longest name in the table that begins with `name` and goes on in the text, with
what it stands for. -/
def longest (refs : References) (name : List Char) : List Char → Option (List Char × List Char)
  | [] => (refs.chars name).map fun cs => (name, cs)
  | c :: s =>
    match longest refs (name ++ [c]) s with
    | some found => some found
    | none => (refs.chars name).map fun cs => (name, cs)

/-- The value of a digit in any base up to sixteen. -/
def digit_value (c : Char) : ℕ :=
  if c.isDigit then c.toNat - 48 else if c.isLower then c.toNat - 87 else c.toNat - 55

def hex_digits : List Char := "0123456789abcdefABCDEF".toList

def is_hex_digit (c : Char) : Bool := hex_digits.contains c

/-- The number that the digits write. -/
def numeral (base : ℕ) (digits : List Char) : ℕ :=
  digits.foldl (fun n c => n * base + digit_value c) 0

/-- The numbers of control characters that stand for printed ones. -/
def windows_1252 : List (ℕ × ℕ) :=
  [(0x80, 0x20AC), (0x82, 0x201A), (0x83, 0x0192), (0x84, 0x201E), (0x85, 0x2026),
    (0x86, 0x2020), (0x87, 0x2021), (0x88, 0x02C6), (0x89, 0x2030), (0x8A, 0x0160),
    (0x8B, 0x2039), (0x8C, 0x0152), (0x8E, 0x017D), (0x91, 0x2018), (0x92, 0x2019),
    (0x93, 0x201C), (0x94, 0x201D), (0x95, 0x2022), (0x96, 0x2013), (0x97, 0x2014),
    (0x98, 0x02DC), (0x99, 0x2122), (0x9A, 0x0161), (0x9B, 0x203A), (0x9C, 0x0153),
    (0x9E, 0x017E), (0x9F, 0x0178)]

/-- The replacement character. -/
def replacement : Char := Char.ofNat 0xFFFD

/-- The character a number stands for. -/
def numbered (n : ℕ) : Char :=
  if n = 0 ∨ 0x10FFFF < n ∨ (0xD800 ≤ n ∧ n ≤ 0xDFFF) then replacement
  else Char.ofNat ((windows_1252.lookup n).getD n)

/-- A reference by number, behind `#`: the character and how much of the text it takes. -/
def digits (base : ℕ) (p : Char → Bool) (s : List Char) : Option (List Char × ℕ) :=
  let ds := s.takeWhile p
  if ds = [] then none
  else some ([numbered (numeral base ds)],
    ds.length + if (s.drop ds.length).head? = some ';' then 1 else 0)

/-- A reference by number, behind the `#`, with the characters taken. -/
def numeric : List Char → Option (List Char × ℕ)
  | [] => none
  | c :: s =>
    if c = 'x' ∨ c = 'X' then (digits 16 is_hex_digit s).map fun r => (r.1, r.2 + 1)
    else digits 10 Char.isDigit (c :: s)

/-- What may not follow a name that is not ended, in an attribute. -/
def goes_on (c : Char) : Bool := c.isAlphanum || c == '='

/-- A reference by name: the longest that is in the table. -/
def named (refs : References) (in_attribute : Bool) (s : List Char) : Option (List Char × ℕ) :=
  match longest refs [] s with
  | none => none
  | some (name, cs) =>
    if in_attribute = true ∧ name.getLast? ≠ some ';' ∧
        (s.drop name.length).head?.any goes_on = true then none
    else some (cs, name.length)

/-- A reference, behind `&`: the characters it stands for and how much of the text it
takes. -/
def reference (refs : References) (in_attribute : Bool) : List Char → Option (List Char × ℕ)
  | '#' :: s => (numeric s).map fun r => (r.1, r.2 + 1)
  | s => named refs in_attribute s

/-! ## What is read -/

/-- Where a text stands. -/
inductive Place
  | data
  | rcdata
  | rawtext
  | attribute
deriving DecidableEq

section Read

variable (refs : References) (place : Place)

/-- One character, with the text behind it: what is read, and how much more it takes. -/
def unit (c : Char) (s : List Char) : List Char × ℕ :=
  let plain := if c.toNat = 0 ∧ place ≠ .data then replacement else c
  if c = '&' ∧ place ≠ .rawtext then
    (reference refs (place = .attribute) s).getD ([plain], 0)
  else ([plain], 0)

/-- What is read of a text of which so many characters are taken already. -/
def read_from : ℕ → List Char → List Char
  | _, [] => []
  | skip + 1, _ :: s => read_from skip s
  | 0, c :: s => (unit refs place c s).1 ++ read_from (unit refs place c s).2 s

def read (s : List Char) : List Char := read_from refs place 0 s

end Read

/-! ## What a reference takes -/

/-- A name that is found is a beginning of the text, and in the table. -/
theorem longest_some {refs : References} {name s n cs : List Char}
    (h : longest refs name s = some (n, cs)) :
    ∃ m, n = name ++ m ∧ m <+: s ∧ refs.chars n = some cs := by
  have hhere : ∀ name s, (refs.chars name).map (fun cs => (name, cs)) = some (n, cs) →
      ∃ m, n = name ++ m ∧ m <+: s ∧ refs.chars n = some cs := by
    intro name s hname
    obtain ⟨cs', hcs, heq⟩ := Option.map_eq_some_iff.mp hname
    obtain ⟨rfl, rfl⟩ := Prod.mk.inj heq
    exact ⟨[], (List.append_nil _).symm, List.nil_prefix, hcs⟩
  induction s generalizing name with
  | nil => exact hhere name [] h
  | cons c s ih =>
    rw [longest] at h
    split at h
    · rename_i found hfound
      rw [h] at hfound
      obtain ⟨m, hm, hprefix, hcs⟩ := ih hfound
      refine ⟨c :: m, ?_, List.cons_prefix_cons.mpr ⟨rfl, hprefix⟩, hcs⟩
      rw [hm, List.append_assoc]
      rfl
    · exact hhere name _ h

/-- A reference by number is one character, and takes one at least. -/
theorem digits_some {base k : ℕ} {p : Char → Bool} {s cs : List Char}
    (h : digits base p s = some (cs, k)) : cs.length = 1 ∧ 1 ≤ k ∧ k ≤ s.length := by
  have hlen := (List.takeWhile_prefix p (l := s)).length_le
  unfold digits at h
  dsimp only at h
  split at h
  · cases h
  · rename_i hne
    have hpos := List.length_pos_iff.mpr hne
    cases h
    refine ⟨rfl, by omega, ?_⟩
    split
    · rename_i hend
      have hdrop : s.drop (s.takeWhile p).length ≠ [] := by
        intro hnil
        rw [hnil] at hend
        cases hend
      have hmore := List.length_pos_iff.mpr hdrop
      rw [List.length_drop] at hmore
      omega
    · omega

/-- **A reference takes at least as many characters as it stands for.** -/
theorem reference_some {refs : References} {in_attribute : Bool} {s cs : List Char} {k : ℕ}
    (h : reference refs in_attribute s = some (cs, k)) : cs.length ≤ k ∧ k ≤ s.length := by
  have hnamed : named refs in_attribute s = some (cs, k) → cs.length ≤ k ∧ k ≤ s.length := by
    intro hn
    unfold named at hn
    split at hn
    · cases hn
    · rename_i name found hfound
      obtain ⟨m, hm, hprefix, hcs⟩ := longest_some hfound
      rw [List.nil_append] at hm
      split at hn
      · cases hn
      · cases hn
        exact ⟨refs.short _ _ hcs, by rw [hm]; exact hprefix.length_le⟩
  unfold reference at h
  split at h
  · rename_i t
    obtain ⟨⟨cs', k'⟩, hnumeric, heq⟩ := Option.map_eq_some_iff.mp h
    obtain ⟨rfl, rfl⟩ := Prod.mk.inj heq
    cases t with
    | nil => cases hnumeric
    | cons c t =>
      unfold numeric at hnumeric
      dsimp only at hnumeric
      rw [List.length_cons]
      split at hnumeric
      · obtain ⟨⟨cs', k'⟩, hdigits, heq⟩ := Option.map_eq_some_iff.mp hnumeric
        obtain ⟨rfl, rfl⟩ := Prod.mk.inj heq
        have hd := digits_some hdigits
        rw [List.length_cons]
        dsimp only
        omega
      · have hd := digits_some hnumeric
        rw [List.length_cons] at hd ⊢
        dsimp only
        omega
  · exact hnamed h

/-! ## Delimiters -/

/-- A character no reference has in it. -/
structure Delimiter (c : Char) : Prop where
  not_alphanum : c.isAlphanum = false
  not_semicolon : c ≠ ';'
  not_number : c ≠ '#'
  not_equals : c ≠ '='
  not_ampersand : c ≠ '&'

section Delimited

variable {refs : References} {b : Char} (hb : Delimiter b)

include hb

/-- No name goes on over a delimiter. -/
theorem longest_none {name : List Char} (h : b ∈ name) (s : List Char) :
    longest refs name s = none := by
  have hname : ∀ name : List Char, b ∈ name → refs.chars name = none := by
    intro name hmem
    by_contra hsome
    obtain ⟨cs, hcs⟩ := Option.ne_none_iff_exists'.mp hsome
    rcases refs.name_chars name cs hcs b hmem with h | h
    · rw [hb.not_alphanum] at h
      cases h
    · exact hb.not_semicolon h
  induction s generalizing name with
  | nil => rw [longest, hname name h, Option.map_none]
  | cons c s ih =>
    rw [longest, ih (List.mem_append_left _ h), hname name h]
    rfl

/-- A name ends before a delimiter. -/
theorem longest_append (name s y : List Char) :
    longest refs name (s ++ b :: y) = longest refs name s := by
  induction s generalizing name with
  | nil =>
    rw [List.nil_append, longest, longest, longest_none hb (by simp)]
  | cons c s ih => rw [List.cons_append, longest, longest, ih]

omit hb in
theorem takeWhile_append {p : Char → Bool} (hp : p b = false) (s y : List Char) :
    (s ++ b :: y).takeWhile p = s.takeWhile p := by
  induction s with
  | nil =>
    rw [List.nil_append, List.takeWhile_cons, hp, List.takeWhile_nil]
    rfl
  | cons c s ih => rw [List.cons_append, List.takeWhile_cons, List.takeWhile_cons, ih]

omit hb in
theorem head_drop_append {k : ℕ} {s : List Char} (hk : k ≤ s.length) (y : List Char) :
    ((s ++ b :: y).drop k).head? = ((s.drop k).head?).or (some b) := by
  rw [List.drop_append_of_le_length hk, List.head?_append, List.head?_cons]

/-- What follows a delimiter changes nothing in a reference by number. -/
theorem digits_append {p : Char → Bool} (base : ℕ) (hp : p b = false) (s y : List Char) :
    digits base p (s ++ b :: y) = digits base p s := by
  have hlen := (List.takeWhile_prefix p (l := s)).length_le
  have hend : (((s ++ b :: y).drop (s.takeWhile p).length).head? = some ';') =
      ((s.drop (s.takeWhile p).length).head? = some ';') := by
    rw [head_drop_append hlen]
    cases (s.drop (s.takeWhile p).length).head? with
    | none => simp [hb.not_semicolon]
    | some c => rfl
  unfold digits
  rw [takeWhile_append hp]
  simp only [hend]

theorem not_digit : b.isDigit = false ∧ is_hex_digit b = false ∧ b ≠ 'x' ∧ b ≠ 'X' := by
  have hnot := hb.not_alphanum
  have hhex : hex_digits.all Char.isAlphanum = true := by decide
  refine ⟨?_, ?_, ?_, ?_⟩
  · rw [Char.isAlphanum, Bool.or_eq_false_iff] at hnot
    exact hnot.2
  · by_contra hdigit
    rw [Bool.not_eq_false, is_hex_digit, List.contains_iff_mem] at hdigit
    rw [List.all_eq_true.mp hhex b hdigit] at hnot
    cases hnot
  · rintro rfl
    cases hnot
  · rintro rfl
    cases hnot

theorem numeric_append (s y : List Char) : numeric (s ++ b :: y) = numeric s := by
  obtain ⟨hdigit, hhex, hx, hX⟩ := not_digit hb
  cases s with
  | nil =>
    have hnone := digits_append hb 10 hdigit [] y
    rw [List.nil_append] at hnone ⊢
    unfold numeric
    dsimp only
    rw [if_neg (not_or.mpr ⟨hx, hX⟩), hnone]
    rfl
  | cons c s =>
    unfold numeric
    rw [List.cons_append]
    dsimp only
    rw [digits_append hb 16 hhex, ← List.cons_append, digits_append hb 10 hdigit]

/-- Nor in one by name. -/
theorem named_append (in_attribute : Bool) (s y : List Char) :
    named refs in_attribute (s ++ b :: y) = named refs in_attribute s := by
  unfold named
  rw [longest_append hb]
  cases hfound : longest refs [] s with
  | none => rfl
  | some found =>
    obtain ⟨name, cs⟩ := found
    have hlen : name.length ≤ s.length := by
      obtain ⟨m, hm, hprefix, -⟩ := longest_some hfound
      rw [hm, List.nil_append]
      exact hprefix.length_le
    have hgoes : ((s ++ b :: y).drop name.length).head?.any goes_on =
        (s.drop name.length).head?.any goes_on := by
      rw [head_drop_append hlen]
      cases (s.drop name.length).head? with
      | none => simp [goes_on, hb.not_alphanum, hb.not_equals]
      | some c => rfl
    dsimp only
    rw [hgoes]

/-- **A reference ends before a delimiter.** -/
theorem reference_append (in_attribute : Bool) (s y : List Char) :
    reference refs in_attribute (s ++ b :: y) = reference refs in_attribute s := by
  cases s with
  | nil =>
    have hnone : named refs in_attribute ([] ++ b :: y) = named refs in_attribute [] :=
      named_append hb in_attribute [] y
    have hhash : ∀ t, b :: y ≠ '#' :: t := by
      intro t h
      exact hb.not_number (List.cons.inj h).1
    rw [List.nil_append] at hnone ⊢
    unfold reference
    split
    · rename_i t heq
      exact absurd heq (hhash t)
    · exact hnone
  | cons c s =>
    by_cases hc : c = '#'
    · rw [hc, List.cons_append, reference, reference, numeric_append hb]
    · have hother : ∀ t,
          reference refs in_attribute (c :: t) = named refs in_attribute (c :: t) := by
        intro t
        unfold reference
        split
        · rename_i u heq
          exact absurd (List.cons.inj heq).1 hc
        · rfl
      rw [List.cons_append, hother, hother, ← List.cons_append, named_append hb]

end Delimited

/-! ## Reading in pieces -/

section Pieces

variable {refs : References} {place : Place}

variable (refs place) in
/-- A unit takes no more than there is, and gives no more than it takes. -/
theorem unit_le (c : Char) (s : List Char) :
    (unit refs place c s).2 ≤ s.length ∧
      (unit refs place c s).1.length ≤ (unit refs place c s).2 + 1 := by
  unfold unit
  dsimp only
  split
  · cases href : reference refs (place = .attribute) s with
    | none => simp
    | some r =>
      have hle : r.1.length ≤ r.2 ∧ r.2 ≤ s.length := reference_some href
      rw [Option.getD_some]
      omega
  · simp

/-- What follows a delimiter does not change the units before it. -/
theorem unit_append {b : Char} (hb : Delimiter b) (c : Char) (s y : List Char) :
    unit refs place c (s ++ b :: y) = unit refs place c s := by
  unfold unit
  rw [reference_append hb]

/-- Characters already taken are passed over. -/
theorem read_from_eq (k : ℕ) (s : List Char) :
    read_from refs place k s = read refs place (s.drop k) := by
  induction s generalizing k with
  | nil =>
    rw [List.drop_nil]
    cases k <;> rfl
  | cons c s ih =>
    cases k with
    | zero => rfl
    | succ k => rw [read_from, ih, List.drop_succ_cons]

/-- What is read of a text begins with its first unit. -/
theorem read_cons (c : Char) (s : List Char) :
    read refs place (c :: s) =
      (unit refs place c s).1 ++ read refs place (s.drop (unit refs place c s).2) := by
  rw [← read_from_eq]
  rfl

/-- **A text is read up to a delimiter, and then what is behind.** -/
theorem read_append {b : Char} (hb : Delimiter b) (s y : List Char) :
    read refs place (s ++ b :: y) = read refs place s ++ read refs place (b :: y) := by
  induction hn : s.length using Nat.strongRecOn generalizing s with
  | ind n ih =>
    cases s with
    | nil => rfl
    | cons c s =>
      subst hn
      have hle := (unit_le refs place c s).1
      rw [List.cons_append, read_cons, read_cons, unit_append hb,
        List.drop_append_of_le_length hle,
        ih _ (by rw [List.length_drop, List.length_cons]; omega) _ rfl, List.append_assoc]

variable (refs place) in
/-- A text that is read is no longer than it was. -/
theorem read_length_le (s : List Char) : (read refs place s).length ≤ s.length := by
  induction hn : s.length using Nat.strongRecOn generalizing s with
  | ind n ih =>
    cases s with
    | nil => exact Nat.zero_le _
    | cons c s =>
      subst hn
      have hle := unit_le refs place c s
      have hrest := ih _ (by rw [List.length_drop, List.length_cons]; omega)
        (s.drop (unit refs place c s).2) rfl
      rw [List.length_drop] at hrest
      rw [read_cons, List.length_append, List.length_cons]
      omega

/-- A delimiter is read as it is. -/
theorem read_delimiter {b : Char} (hb : Delimiter b) (hnull : b.toNat ≠ 0) (y : List Char) :
    read refs place (b :: y) = b :: read refs place y := by
  have hunit : unit refs place b y = ([b], 0) := by
    unfold unit
    rw [if_neg (fun h => hb.not_ampersand h.1), if_neg (fun h => hnull h.1)]
  rw [read_cons, hunit]
  rfl

end Pieces

/-! ## Text without references -/

/-- No ampersand begins a reference. -/
def NoReference (refs : References) (s : List Char) : Prop :=
  ∀ a b, s = a ++ '&' :: b → reference refs false b = none

theorem NoReference.tail {refs : References} {c : Char} {s : List Char}
    (h : NoReference refs (c :: s)) : NoReference refs s := by
  rintro a b rfl
  exact h (c :: a) b rfl

/-- Without an ampersand there is no reference. -/
theorem no_reference_of_mem {refs : References} {s : List Char} (h : '&' ∉ s) :
    NoReference refs s := by
  rintro a b rfl
  exact absurd (by simp) h

/-- A character that begins no reference is read as itself. -/
theorem unit_plain {refs : References} {c : Char} {s : List Char}
    (h : c = '&' → reference refs false s = none) : unit refs .data c s = ([c], 0) := by
  unfold unit
  dsimp only
  rw [if_neg (fun hc : c.toNat = 0 ∧ Place.data ≠ .data => hc.2 rfl)]
  split
  · rename_i hc
    have hplace : decide (Place.data = .attribute) = false := rfl
    rw [hplace, h hc.1]
    rfl
  · rfl

/-- A text without references is read as it is. -/
theorem read_no_reference {refs : References} {s : List Char} (h : NoReference refs s) :
    read refs .data s = s := by
  induction s with
  | nil => rfl
  | cons c s ih =>
    have hunit : unit refs .data c s = ([c], 0) := by
      apply unit_plain
      rintro rfl
      exact h [] s rfl
    rw [read_cons, hunit]
    exact congrArg (c :: ·) (ih h.tail)

/-- **A text that is read at its length has no reference.** -/
theorem no_reference_of_length {refs : References} {s : List Char}
    (h : s.length ≤ (read refs .data s).length) : NoReference refs s := by
  induction s with
  | nil =>
    rintro a b hnil
    simp at hnil
  | cons c s ih =>
    have hplain : c = '&' → reference refs false s = none := by
      rintro rfl
      by_contra hsome
      obtain ⟨⟨cs, k⟩, href⟩ := Option.ne_none_iff_exists'.mp hsome
      have hunit : unit refs .data '&' s = (cs, k) := by
        have hplace : decide (Place.data = .attribute) = false := rfl
        unfold unit
        dsimp only
        rw [if_pos ⟨rfl, by decide⟩, hplace, href, Option.getD_some]
      have hsmall := reference_some href
      have hrest := read_length_le refs .data (s.drop k)
      rw [read_cons, hunit, List.length_append, List.length_cons] at h
      rw [List.length_drop] at hrest
      dsimp only at h
      omega
    rw [read_cons, unit_plain hplain] at h
    have hrest := ih (by simpa using h)
    intro a b heq
    cases a with
    | nil =>
      obtain ⟨rfl, rfl⟩ := List.cons.inj heq
      exact hplain rfl
    | cons d a => exact hrest a b (List.cons.inj heq).2

end CharRefs
