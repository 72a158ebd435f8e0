/-
Text as it travels in a URI: UTF-8, percent-encoding and the lossy decoder.

`utf8_encode` is the encoding of a string, `percent_decode` undoes `%XX`, and
`utf8_lossy` reads bytes back as characters, one U+FFFD for each maximal
ill-formed sequence. `decode` composes the three: it is what
`percent_decode_str(s).decode_utf8_lossy()` computes.

A slash is an ASCII byte, so it neither takes part in an escape nor continues a
multi-byte sequence, and all three functions cut there: `decode_slash` says that
decoding a text with a slash in it is decoding both sides.
-/
import Mathlib.Algebra.Group.Nat.Defs
import Mathlib.Data.List.Basic
import Mathlib.Tactic.Common

set_option autoImplicit false

namespace Text

/-- What a check of each member says of all. -/
theorem forall_mem_of_all {α : Type*} {P : α → Prop} [DecidablePred P] {l : List α}
    (h : l.all (fun c => decide (P c)) = true) : ∀ c ∈ l, P c := by
  intro c hc
  exact of_decide_eq_true (List.all_eq_true.mp h c hc)

/-- The UTF-8 encoding of a string. -/
def utf8_encode (cs : List Char) : List UInt8 := cs.flatMap String.utf8EncodeChar

/-! ## Percent-decoding -/

/-- The value of a hexadecimal digit. -/
def hex_value (b : UInt8) : Option UInt8 :=
  if 48 ≤ b ∧ b ≤ 57 then some (b - 48)
  else if 65 ≤ b ∧ b ≤ 70 then some (b - 55)
  else if 97 ≤ b ∧ b ≤ 102 then some (b - 87)
  else none

/-- The byte that `%` followed by `h` and `l` stands for. -/
def escape (h l : UInt8) : Option UInt8 :=
  match hex_value h, hex_value l with
  | some x, some y => some (x * 16 + y)
  | _, _ => none

/-- Percent-decoding: `%` followed by two hexadecimal digits is one byte, every
other byte stands for itself. -/
def percent_decode : List UInt8 → List UInt8
  | [] => []
  | [b] => [b]
  | [b, c] => [b, c]
  | b :: h :: l :: rest =>
    match if b = 37 then escape h l else none with
    | some v => v :: percent_decode rest
    | none => b :: percent_decode (h :: l :: rest)

/-! ## Lossy UTF-8

The decoder reads one byte at a time and keeps the bytes of the sequence it is in
the middle of, so a run over a text is one fold and an ASCII byte resets it. -/

/-- The character that stands for an ill-formed sequence. -/
def replacement : Char := Char.ofNat 0xFFFD

/-- A continuation byte. -/
def is_cont (b : UInt8) : Bool := 0x80 ≤ b && b ≤ 0xBF

/-- A byte that begins a multi-byte sequence. -/
def is_lead (b : UInt8) : Bool := 0xC2 ≤ b && b ≤ 0xF4

/-- Whether `b₁` may follow the lead byte `b₀`. -/
def is_second (b₀ b₁ : UInt8) : Bool :=
  if b₀ = 0xE0 then 0xA0 ≤ b₁ && b₁ ≤ 0xBF
  else if b₀ = 0xED then 0x80 ≤ b₁ && b₁ ≤ 0x9F
  else if b₀ = 0xF0 then 0x90 ≤ b₁ && b₁ ≤ 0xBF
  else if b₀ = 0xF4 then 0x80 ≤ b₁ && b₁ ≤ 0x8F
  else is_cont b₁

/-- The length of the sequence a lead byte begins. -/
def width (b₀ : UInt8) : ℕ := if b₀ < 0xE0 then 2 else if b₀ < 0xF0 then 3 else 4

/-- The character a complete sequence encodes. -/
def scalar (b₀ : UInt8) (conts : List UInt8) : Char :=
  Char.ofNat (conts.foldl (fun v b => v * 64 + b.toNat % 64) (b₀.toNat % 2 ^ (7 - width b₀)))

/-- One byte outside a sequence: the characters it yields and the sequence it begins. -/
def start (b : UInt8) : List Char × List UInt8 :=
  if b < 0x80 then ([Char.ofNat b.toNat], [])
  else if is_lead b then ([], [b])
  else ([replacement], [])

/-- One byte after the unfinished sequence `pending`. A byte that cannot continue
it ends it as one replacement character and is then read afresh. -/
def feed (pending : List UInt8) (b : UInt8) : List Char × List UInt8 :=
  match pending with
  | [] => start b
  | b₀ :: more =>
    if (if more = [] then is_second b₀ b else is_cont b) then
      if more.length + 2 = width b₀ then ([scalar b₀ (more ++ [b])], [])
      else ([], b₀ :: (more ++ [b]))
    else (replacement :: (start b).1, (start b).2)

/-- What is left when the text ends. -/
def finish (pending : List UInt8) : List Char := if pending = [] then [] else [replacement]

/-- The decoder from an unfinished sequence on. -/
def utf8_from (pending : List UInt8) : List UInt8 → List Char
  | [] => finish pending
  | b :: bs => (feed pending b).1 ++ utf8_from (feed pending b).2 bs

/-- UTF-8 decoding that never fails: every maximal ill-formed sequence becomes
one replacement character. -/
def utf8_lossy (bs : List UInt8) : List Char := utf8_from [] bs

example : utf8_lossy [0xC3, 0xA9, 0xFF, 0xE2, 0x82, 47] = ['é', replacement, replacement, '/'] := by
  decide

/-- `percent_decode_str(s).decode_utf8_lossy()`. -/
def decode (cs : List Char) : List Char := utf8_lossy (percent_decode (utf8_encode cs))

example : decode "/a%20b%2Fc".toList = "/a b/c".toList := by decide

/-! ## A slash cuts -/

theorem utf8_encode_append (cs ds : List Char) :
    utf8_encode (cs ++ ds) = utf8_encode cs ++ utf8_encode ds :=
  List.flatMap_append

theorem utf8_encode_slash (ds : List Char) : utf8_encode ('/' :: ds) = 47 :: utf8_encode ds := by
  rw [utf8_encode, List.flatMap_cons]
  rfl

/-- A byte that is not `%` is copied. -/
theorem percent_decode_cons {b : UInt8} (hb : b ≠ 37) (t : List UInt8) :
    percent_decode (b :: t) = b :: percent_decode t := by
  rcases t with _ | ⟨c, _ | ⟨d, t⟩⟩
  · rfl
  · rfl
  · rw [percent_decode, if_neg hb]

theorem escape_slash_left (l : UInt8) : escape 47 l = none := by
  have h47 : hex_value 47 = none := by decide
  simp [escape, h47]

theorem escape_slash_right (h : UInt8) : escape h 47 = none := by
  have h47 : hex_value 47 = none := by decide
  simp [escape, h47]

/-- A slash is no hexadecimal digit, so no escape reaches across it. -/
theorem percent_decode_slash (bs cs : List UInt8) :
    percent_decode (bs ++ 47 :: cs) = percent_decode bs ++ 47 :: percent_decode cs := by
  have hone : ∀ b : UInt8, percent_decode (b :: 47 :: cs) = b :: 47 :: percent_decode cs := by
    intro b
    have hsl := percent_decode_cons (b := 47) (by decide) cs
    rcases cs with _ | ⟨c, cs⟩
    · rfl
    · rw [percent_decode, escape_slash_left, ite_self, hsl]
  induction bs using percent_decode.induct with
  | case1 => exact percent_decode_cons (by decide) cs
  | case2 b => exact hone b
  | case3 b c =>
    show percent_decode (b :: c :: 47 :: cs) = b :: c :: 47 :: percent_decode cs
    rw [percent_decode, escape_slash_right, ite_self, hone c]
  | case4 b h l rest v hv ih => simp [percent_decode, hv, ih]
  | case5 b h l rest hv ih =>
    simp only [List.cons_append] at ih ⊢
    simp only [percent_decode, hv, ih, List.cons_append]

/-- A slash continues no multi-byte sequence: it ends the pending one. -/
theorem feed_slash (pending : List UInt8) : feed pending 47 = (finish pending ++ ['/'], []) := by
  have hcont : is_cont 47 = false := by decide
  rcases pending with _ | ⟨b₀, more⟩
  · rfl
  · have hno : (if more = [] then is_second b₀ 47 else is_cont 47) = false := by
      split
      · simp [is_second, hcont]
      · exact hcont
    rw [feed, hno]
    rfl

theorem utf8_from_slash (bs cs : List UInt8) (pending : List UInt8) :
    utf8_from pending (bs ++ 47 :: cs) = utf8_from pending bs ++ '/' :: utf8_lossy cs := by
  induction bs generalizing pending with
  | nil =>
    simp only [List.nil_append, utf8_from, feed_slash, List.append_assoc]
    rfl
  | cons b bs ih => rw [List.cons_append, utf8_from, ih, utf8_from, List.append_assoc]

theorem utf8_lossy_slash (bs cs : List UInt8) :
    utf8_lossy (bs ++ 47 :: cs) = utf8_lossy bs ++ '/' :: utf8_lossy cs :=
  utf8_from_slash bs cs []

/-- **Decoding cuts at a slash.** -/
theorem decode_slash (cs ds : List Char) :
    decode (cs ++ '/' :: ds) = decode cs ++ '/' :: decode ds := by
  rw [decode, utf8_encode_append, utf8_encode_slash, percent_decode_slash, utf8_lossy_slash]
  rfl

/-! ## ASCII bytes

A byte below 0x80 is a character by itself, so a separator or a dot in the encoding
is one in the text. -/

theorem encode_char_low {c : Char} {b : UInt8} (hb : b ∈ String.utf8EncodeChar c)
    (hlow : b.toNat < 128) : c.toNat = b.toNat := by
  have hval : c.toNat = c.val.toNat := rfl
  rw [hval]
  unfold String.utf8EncodeChar at hb
  dsimp only at hb
  -- every byte of a longer sequence has its high bit set
  split at hb
  · rw [List.mem_singleton] at hb
    rw [hb, UInt8.toNat_ofNat']
    omega
  · split at hb
    · simp only [List.mem_cons, List.not_mem_nil, or_false] at hb
      rcases hb with rfl | rfl
      all_goals
        rw [UInt8.toNat_ofNat'] at hlow
        omega
    · split at hb
      · simp only [List.mem_cons, List.not_mem_nil, or_false] at hb
        rcases hb with rfl | rfl | rfl
        all_goals
          rw [UInt8.toNat_ofNat'] at hlow
          omega
      · simp only [List.mem_cons, List.not_mem_nil, or_false] at hb
        rcases hb with rfl | rfl | rfl | rfl
        all_goals
          rw [UInt8.toNat_ofNat'] at hlow
          omega

theorem encode_char_ascii {c : Char} (h : c.toNat < 128) :
    String.utf8EncodeChar c = [UInt8.ofNat c.toNat] := by
  have hval : c.toNat = c.val.toNat := rfl
  rw [hval] at h
  unfold String.utf8EncodeChar
  dsimp only
  rw [if_pos (by omega)]
  rfl

theorem mem_utf8_encode_low {cs : List Char} {b : UInt8} (hb : b ∈ utf8_encode cs)
    (hlow : b.toNat < 128) : ∃ c ∈ cs, c.toNat = b.toNat := by
  obtain ⟨c, hc, hmem⟩ := List.mem_flatMap.mp hb
  exact ⟨c, hc, encode_char_low hmem hlow⟩

/-- An encoding that begins with an ASCII byte begins with that character. -/
theorem utf8_encode_cons_low {c : Char} {cs : List Char} {b : UInt8} {bs : List UInt8}
    (h : utf8_encode (c :: cs) = b :: bs) (hlow : b.toNat < 128) :
    c.toNat = b.toNat ∧ utf8_encode cs = bs := by
  rw [utf8_encode, List.flatMap_cons] at h
  have hmem : b ∈ String.utf8EncodeChar c := by
    rcases hc : String.utf8EncodeChar c with _ | ⟨a, as⟩
    · exact absurd hc String.utf8EncodeChar_ne_nil
    · rw [hc, List.cons_append, List.cons.injEq] at h
      rw [h.1]
      exact List.mem_cons_self
  have hnat := encode_char_low hmem hlow
  rw [encode_char_ascii (by omega), List.singleton_append, List.cons.injEq] at h
  exact ⟨hnat, h.2⟩

theorem utf8_encode_eq_nil {cs : List Char} : utf8_encode cs = [] ↔ cs = [] := by
  constructor
  · intro h
    rcases cs with _ | ⟨c, cs⟩
    · rfl
    · rw [utf8_encode, List.flatMap_cons, List.append_eq_nil_iff] at h
      exact absurd h.1 String.utf8EncodeChar_ne_nil
  · intro h
    rw [h]
    rfl

end Text
