/-
Escapes in a text, and what decoding does to its length.

`HasEscape` says that a percent sign with two hexadecimal digits stands somewhere.
Decoding leaves a text without an escape alone (`decode_plain_text`) and makes every
other one shorter, not counting separators (`weight_decode_lt`): an escape is three
characters and becomes at most one, also where its byte ends an unfinished sequence or
is replaced. A colon is no part of an escape, so decoding keeps it.
-/
import Rshs.Utf8

set_option autoImplicit false

namespace Text

/-! ## Escapes -/

def hex_digits : List Char := "0123456789abcdefABCDEF".toList

/-- A percent sign followed by two hexadecimal digits stands in the text. -/
def HasEscape (t : List Char) : Prop :=
  ∃ a h l b, t = a ++ '%' :: h :: l :: b ∧ h ∈ hex_digits ∧ l ∈ hex_digits

/-- The characters that are no separators. -/
def weight (t : List Char) : ℕ := t.countP (· ≠ '/')

theorem hex_value_iff {b : UInt8} :
    (∃ v, hex_value b = some v) ↔ ∃ c ∈ hex_digits, UInt8.ofNat c.toNat = b := by
  have hbytes : ∀ b : UInt8, (∃ v, hex_value b = some v) ↔
      (48 ≤ b.toNat ∧ b.toNat ≤ 57) ∨ (65 ≤ b.toNat ∧ b.toNat ≤ 70) ∨
        (97 ≤ b.toNat ∧ b.toNat ≤ 102) := by
    intro b
    unfold hex_value
    simp only [UInt8.le_iff_toNat_le, UInt8.toNat_ofNat]
    split_ifs with h1 h2 h3 <;> simp <;> omega
  rw [hbytes b]
  constructor
  · intro h
    have hall : ∀ n < 128, (48 ≤ n ∧ n ≤ 57) ∨ (65 ≤ n ∧ n ≤ 70) ∨ (97 ≤ n ∧ n ≤ 102) →
        hex_digits.any (fun c => c.toNat = n) = true := by decide
    obtain ⟨c, hc, hn⟩ := List.any_eq_true.mp (hall b.toNat (by omega) h)
    refine ⟨c, hc, ?_⟩
    rw [of_decide_eq_true hn, UInt8.ofNat_toNat]
  · rintro ⟨c, hc, rfl⟩
    have hall : ∀ c ∈ hex_digits, (48 ≤ (UInt8.ofNat c.toNat).toNat ∧
        (UInt8.ofNat c.toNat).toNat ≤ 57) ∨ (65 ≤ (UInt8.ofNat c.toNat).toNat ∧
        (UInt8.ofNat c.toNat).toNat ≤ 70) ∨ (97 ≤ (UInt8.ofNat c.toNat).toNat ∧
        (UInt8.ofNat c.toNat).toNat ≤ 102) := forall_mem_of_all (by decide)
    exact hall c hc

/-- A hexadecimal digit is one byte. -/
theorem encode_hex {c : Char} (hc : c ∈ hex_digits) (t : List Char) :
    utf8_encode (c :: t) = UInt8.ofNat c.toNat :: utf8_encode t := by
  have hlow : ∀ c ∈ hex_digits, c.toNat < 128 := forall_mem_of_all (by decide)
  rw [utf8_encode, List.flatMap_cons, encode_char_ascii (hlow c hc), List.singleton_append]
  rfl

theorem escape_some_iff {h l : UInt8} :
    (∃ v, escape h l = some v) ↔ (∃ v, hex_value h = some v) ∧ ∃ v, hex_value l = some v := by
  unfold escape
  cases hex_value h with
  | none => simp
  | some x =>
    cases hex_value l with
    | none => simp
    | some y => simp

/-- Bytes without a percent sign are copied. -/
theorem percent_decode_copy {bs : List UInt8} (h : 37 ∉ bs) (t : List UInt8) :
    percent_decode (bs ++ t) = bs ++ percent_decode t := by
  induction bs with
  | nil => rfl
  | cons b bs ih =>
    simp only [List.mem_cons, not_or] at h
    rw [List.cons_append, percent_decode_cons (Ne.symm h.1), ih h.2, List.cons_append]

/-- A percent sign that begins no escape is copied. -/
theorem percent_decode_percent {t : List UInt8}
    (h : ∀ x y rest, t = x :: y :: rest → escape x y = none) :
    percent_decode (37 :: t) = 37 :: percent_decode t := by
  rcases t with _ | ⟨x, _ | ⟨y, rest⟩⟩
  · rfl
  · rfl
  · rw [percent_decode, if_pos rfl, h x y rest rfl]

/-- **Decoding, one character at a time**: an escape becomes a byte, any other character
its own encoding. -/
theorem percent_decode_encode_cons (c : Char) (t : List Char) :
    (∃ h l rest v, c = '%' ∧ t = h :: l :: rest ∧ h ∈ hex_digits ∧ l ∈ hex_digits ∧
        percent_decode (utf8_encode (c :: t)) = v :: percent_decode (utf8_encode rest)) ∨
      ((∀ h l rest, c = '%' → t = h :: l :: rest → ¬ (h ∈ hex_digits ∧ l ∈ hex_digits)) ∧
        percent_decode (utf8_encode (c :: t)) =
          String.utf8EncodeChar c ++ percent_decode (utf8_encode t)) := by
  have hcons : utf8_encode (c :: t) = String.utf8EncodeChar c ++ utf8_encode t := by
    rw [utf8_encode, List.flatMap_cons]
    rfl
  by_cases hc : c = '%'
  · subst hc
    have hpercent : String.utf8EncodeChar '%' = [37] := by decide
    by_cases hesc : ∃ h l rest, t = h :: l :: rest ∧ h ∈ hex_digits ∧ l ∈ hex_digits
    · obtain ⟨h, l, rest, rfl, hh, hl⟩ := hesc
      obtain ⟨v, hv⟩ : ∃ v, escape (UInt8.ofNat h.toNat) (UInt8.ofNat l.toNat) = some v :=
        escape_some_iff.mpr ⟨hex_value_iff.mpr ⟨h, hh, rfl⟩, hex_value_iff.mpr ⟨l, hl, rfl⟩⟩
      refine Or.inl ⟨h, l, rest, v, rfl, rfl, hh, hl, ?_⟩
      rw [hcons, hpercent, encode_hex hh, encode_hex hl, List.singleton_append, percent_decode,
        if_pos rfl, hv]
    · refine Or.inr ⟨fun h l rest _ ht hhl => hesc ⟨h, l, rest, ht, hhl⟩, ?_⟩
      rw [hcons, hpercent, List.singleton_append, List.singleton_append]
      refine percent_decode_percent (fun x y rest ht => ?_)
      -- two digits in the encoding are two digits in the text
      by_contra hsome
      obtain ⟨v, hv⟩ := Option.ne_none_iff_exists'.mp hsome
      obtain ⟨hx, hy⟩ := escape_some_iff.mp ⟨v, hv⟩
      obtain ⟨h, hh, rfl⟩ := hex_value_iff.mp hx
      obtain ⟨l, hl, rfl⟩ := hex_value_iff.mp hy
      have hlow : ∀ c ∈ hex_digits, (UInt8.ofNat c.toNat).toNat = c.toNat ∧ c.toNat < 128 :=
        forall_mem_of_all (by decide)
      rcases t with _ | ⟨h', t⟩
      · simp [utf8_encode] at ht
      · obtain ⟨hh', ht'⟩ := utf8_encode_cons_low ht (by rw [(hlow h hh).1]; exact (hlow h hh).2)
        rcases t with _ | ⟨l', t⟩
        · simp [utf8_encode] at ht'
        · obtain ⟨hl', -⟩ := utf8_encode_cons_low ht' (by rw [(hlow l hl).1]; exact (hlow l hl).2)
          rw [(hlow h hh).1, Char.toNat_inj] at hh'
          rw [(hlow l hl).1, Char.toNat_inj] at hl'
          exact hesc ⟨h', l', t, rfl, by rw [hh']; exact hh, by rw [hl']; exact hl⟩
  · refine Or.inr ⟨fun h l rest hp => absurd hp hc, ?_⟩
    rw [hcons]
    refine percent_decode_copy (fun hmem => hc ?_) _
    have hnat := encode_char_low hmem (by decide)
    rw [← Char.toNat_inj, hnat]
    rfl

/-! ## Text without escapes -/

theorem HasEscape.cons {c : Char} {t : List Char} (h : HasEscape t) : HasEscape (c :: t) := by
  obtain ⟨a, x, y, b, rfl, hx, hy⟩ := h
  exact ⟨c :: a, x, y, b, rfl, hx, hy⟩

theorem HasEscape.append {s : List Char} (h : HasEscape s) (t : List Char) :
    HasEscape (s ++ t) := by
  obtain ⟨a, x, y, b, rfl, hx, hy⟩ := h
  exact ⟨a, x, y, b ++ t, by simp, hx, hy⟩

/-- The first escape is here or further on. -/
theorem has_escape_cons {c : Char} {t : List Char} (h : HasEscape (c :: t)) :
    (∃ x y b, c = '%' ∧ t = x :: y :: b ∧ x ∈ hex_digits ∧ y ∈ hex_digits) ∨ HasEscape t := by
  obtain ⟨a, x, y, b, heq, hx, hy⟩ := h
  cases a with
  | nil =>
    rw [List.nil_append, List.cons.injEq] at heq
    exact Or.inl ⟨x, y, b, heq.1, heq.2, hx, hy⟩
  | cons d a =>
    rw [List.cons_append, List.cons.injEq] at heq
    exact Or.inr ⟨a, x, y, b, heq.2, hx, hy⟩

theorem percent_decode_plain_text {t : List Char} (h : ¬ HasEscape t) :
    percent_decode (utf8_encode t) = utf8_encode t := by
  induction t with
  | nil => rfl
  | cons c t ih =>
    have ht : ¬ HasEscape t := fun he => h he.cons
    rcases percent_decode_encode_cons c t with ⟨x, y, b, v, hc, hcons, hx, hy, -⟩ | ⟨-, heq⟩
    · rw [hc, hcons] at h
      exact absurd ⟨[], x, y, b, rfl, hx, hy⟩ h
    · rw [heq, ih ht]
      rfl

/-- **A text without escapes is decoded to itself.** -/
theorem decode_plain_text {t : List Char} (h : ¬ HasEscape t) : decode t = t := by
  rw [decode, percent_decode_plain_text h, utf8_lossy_encode]

/-! ## What decoding takes away -/

/-- An encoded character begins with no continuation byte. -/
theorem encode_char_head (c : Char) :
    ∃ b rest, String.utf8EncodeChar c = b :: rest ∧ (b.toNat < 128 ∨ 192 ≤ b.toNat) := by
  have hval : c.val.toNat = c.toNat := rfl
  have hbounds := char_bounds c
  unfold String.utf8EncodeChar
  dsimp only
  rw [hval]
  split
  · refine ⟨_, _, rfl, Or.inl ?_⟩
    rw [UInt8.toNat_ofNat']
    omega
  · split
    · refine ⟨_, _, rfl, Or.inr ?_⟩
      rw [UInt8.toNat_ofNat']
      omega
    · split
      · refine ⟨_, _, rfl, Or.inr ?_⟩
        rw [UInt8.toNat_ofNat']
        omega
      · refine ⟨_, _, rfl, Or.inr ?_⟩
        rw [UInt8.toNat_ofNat']
        omega

/-- An encoded character ends what was unfinished and is read. -/
theorem utf8_from_pending (pending : List UInt8) (c : Char) (bs : List UInt8) :
    utf8_from pending (String.utf8EncodeChar c ++ bs) = finish pending ++ c :: utf8_from [] bs := by
  rw [← utf8_from_char]
  cases pending with
  | nil => rfl
  | cons b₀ more =>
    obtain ⟨b, rest, hbytes, hb⟩ := encode_char_head c
    have hcut : ¬ (if more = [] then is_second b₀ b else is_cont b) = true := by
      split
      · rw [is_second_iff]
        omega
      · rw [is_cont_iff]
        omega
    rw [hbytes, List.cons_append, utf8_from, utf8_from, feed_cut hcut]
    rfl

theorem weight_append (s t : List Char) : weight (s ++ t) = weight s + weight t :=
  List.countP_append

/-- The segments of a text are the text, separators aside. -/
theorem flatten_split (t : List Char) : (t.splitOn '/').flatten = t.filter (· ≠ '/') := by
  induction t with
  | nil => rfl
  | cons c t ih =>
    rw [List.splitOn_cons_eq_if_modifyHead]
    by_cases hc : c = '/'
    · rw [if_pos (by simpa using hc), List.flatten_cons, ih,
        List.filter_cons_of_neg (by simpa using hc)]
      rfl
    · rw [if_neg (by simpa using hc), List.filter_cons_of_pos (by simpa using hc), ← ih]
      obtain ⟨s, segs, hsplit⟩ := List.exists_cons_of_ne_nil (List.splitOn_ne_nil '/' t)
      rw [hsplit]
      rfl

theorem weight_segment_le {s t : List Char} (h : s ∈ t.splitOn '/') : weight s ≤ weight t := by
  have hsub := (List.sublist_flatten_of_mem h).trans (flatten_split t ▸ List.filter_sublist)
  exact hsub.countP_le

theorem weight_cons_le (c : Char) (t : List Char) :
    weight t ≤ weight (c :: t) ∧ weight (c :: t) ≤ weight t + 1 := by
  unfold weight
  rw [List.countP_cons]
  split
  · omega
  · omega

/-- What an unfinished sequence will still count for. -/
def owed (pending : List UInt8) : ℕ := if pending = [] then 0 else 1

theorem weight_finish (pending : List UInt8) : weight (finish pending) = owed pending := by
  unfold finish owed
  split
  · rfl
  · rfl

/-- One byte counts for one character at most, the one it completes or begins. -/
theorem weight_feed (pending : List UInt8) (b : UInt8) :
    weight (feed pending b).1 + owed (feed pending b).2 ≤ owed pending + 1 := by
  have hstart : weight (start b).1 + owed (start b).2 ≤ 1 := by
    unfold start
    split
    · have := weight_cons_le (Char.ofNat b.toNat) []
      simp [owed, weight] at this ⊢
      omega
    · split
      · simp [owed, weight]
      · simp [owed, weight, replacement]
  cases pending with
  | nil =>
    have hnil : owed [] = 0 := rfl
    have hfeed : feed [] b = start b := rfl
    rw [hfeed]
    omega
  | cons b₀ more =>
    have hone : owed (b₀ :: more) = 1 := rfl
    by_cases hb : (if more = [] then is_second b₀ b else is_cont b) = true
    · by_cases hw : more.length + 2 = width b₀
      · have hnil : owed [] = 0 := rfl
        have hle := (weight_cons_le (scalar b₀ (more ++ [b])) []).2
        have hzero : weight [] = 0 := rfl
        rw [feed_done hb hw]
        dsimp only
        omega
      · have hmore : owed (b₀ :: (more ++ [b])) = 1 := rfl
        have hzero : weight [] = 0 := rfl
        rw [feed_more hb hw]
        dsimp only
        omega
    · have hle := (weight_cons_le replacement (start b).1).2
      rw [feed_cut hb]
      dsimp only
      omega

/-- **Decoding adds nothing, and an escape takes something away.** -/
theorem weight_from (pending : List UInt8) (t : List Char) :
    weight (utf8_from pending (percent_decode (utf8_encode t))) ≤ weight t + owed pending ∧
      (HasEscape t →
        weight (utf8_from pending (percent_decode (utf8_encode t))) < weight t + owed pending) := by
  induction hn : t.length using Nat.strongRecOn generalizing pending t with
  | ind n ih =>
    subst hn
    cases t with
    | nil =>
      refine ⟨?_, ?_⟩
      · show weight (finish pending) ≤ _
        rw [weight_finish]
        omega
      · rintro ⟨a, h, l, b, heq, -⟩
        simp at heq
    | cons c t =>
      rcases percent_decode_encode_cons c t with
        ⟨h, l, rest, v, rfl, rfl, hh, hl, heq⟩ | ⟨hno, heq⟩
      · -- three characters for one byte
        have hdigit : ∀ c ∈ hex_digits, c ≠ '/' := forall_mem_of_all (by decide)
        have hfeed := weight_feed pending v
        have hrest := (ih rest.length (by simp only [List.length_cons]; omega)
          (feed pending v).2 rest rfl).1
        have hweight : weight ('%' :: h :: l :: rest) = weight rest + 3 := by
          unfold weight
          rw [List.countP_cons_of_pos (by decide), List.countP_cons_of_pos (by simp [hdigit h hh]),
            List.countP_cons_of_pos (by simp [hdigit l hl])]
        rw [heq, utf8_from, weight_append, hweight]
        omega
      · have hrest := ih t.length (by simp) [] t rfl
        have hnil : owed [] = 0 := rfl
        have hcons : ∀ s : List Char, weight (c :: s) = weight [c] + weight s :=
          fun s => weight_append [c] s
        rw [heq, utf8_from_pending, weight_append, weight_finish, hcons t, hcons]
        refine ⟨by omega, fun hesc => ?_⟩
        rcases has_escape_cons hesc with ⟨x, y, b, hc, ht, hx, hy⟩ | hmore
        · exact absurd ⟨hx, hy⟩ (hno x y b hc ht)
        · have hlt := hrest.2 hmore
          omega

theorem weight_decode_le (t : List Char) : weight (decode t) ≤ weight t :=
  (weight_from [] t).1

theorem weight_decode_lt {t : List Char} (h : HasEscape t) : weight (decode t) < weight t :=
  (weight_from [] t).2 h

/-- A character that is no part of an escape is kept. -/
theorem mem_decode {c : Char} {t : List Char} (hpercent : c ≠ '%') (hhex : c ∉ hex_digits)
    (h : c ∈ t) : c ∈ decode t := by
  have hall : ∀ (pending : List UInt8) (t : List Char), c ∈ t →
      c ∈ utf8_from pending (percent_decode (utf8_encode t)) := by
    intro pending t
    induction hn : t.length using Nat.strongRecOn generalizing pending t with
    | ind n ih =>
      subst hn
      intro hc
      cases t with
      | nil => cases hc
      | cons d t =>
        rcases percent_decode_encode_cons d t with
          ⟨x, y, rest, v, rfl, rfl, hx, hy, heq⟩ | ⟨-, heq⟩
        · have hmem : c ∈ rest := by
            simp only [List.mem_cons] at hc
            rcases hc with hc | rfl | rfl | hc
            · exact absurd hc hpercent
            · exact absurd hx hhex
            · exact absurd hy hhex
            · exact hc
          rw [heq, utf8_from]
          exact List.mem_append_right _
            (ih rest.length (by simp only [List.length_cons]; omega) _ rest rfl hmem)
        · rw [heq, utf8_from_pending]
          refine List.mem_append_right _ ?_
          rcases List.mem_cons.mp hc with rfl | hc
          · exact List.mem_cons_self
          · exact List.mem_cons_of_mem _ (ih t.length (by simp) [] t rfl hc)
  exact hall [] t h

end Text
