/-
UTF-8 and percent-encoding there and back.

`utf8_lossy_encode` says that the decoder gives a text back, `head_utf8_lossy` that it
gives an ASCII character only for that byte, and `decode_percent_encode` that a text
whose bytes were escaped, any of them, is decoded to itself.
-/
import Rshs.Text

set_option autoImplicit false

namespace Text

/-! ## Scalar values -/

theorem toNat_ofNat {n : ℕ} (h : n.isValidChar) : (Char.ofNat n).toNat = n := by
  unfold Char.ofNat
  rw [dif_pos h]
  rfl

/-- The bounds of the byte classes, as numbers. -/
theorem is_cont_iff {b : UInt8} : is_cont b = true ↔ 128 ≤ b.toNat ∧ b.toNat ≤ 191 := by
  simp [is_cont, UInt8.le_iff_toNat_le]

theorem is_lead_iff {b : UInt8} : is_lead b = true ↔ 194 ≤ b.toNat ∧ b.toNat ≤ 244 := by
  simp [is_lead, UInt8.le_iff_toNat_le]

theorem width_eq (b : UInt8) :
    width b = if b.toNat < 224 then 2 else if b.toNat < 240 then 3 else 4 := by
  simp [width, UInt8.lt_iff_toNat_lt]

/-- What may follow a lead byte: a continuation, with a tighter bound after four of them. -/
theorem is_second_iff {b₀ b₁ : UInt8} :
    is_second b₀ b₁ = true ↔ 128 ≤ b₁.toNat ∧ b₁.toNat ≤ 191 ∧
      (b₀.toNat = 224 → 160 ≤ b₁.toNat) ∧ (b₀.toNat = 237 → b₁.toNat ≤ 159) ∧
      (b₀.toNat = 240 → 144 ≤ b₁.toNat) ∧ (b₀.toNat = 244 → b₁.toNat ≤ 143) := by
  unfold is_second
  simp only [← UInt8.toNat_inj, UInt8.toNat_ofNat]
  split
  · simp [UInt8.le_iff_toNat_le]
    omega
  · split
    · simp [UInt8.le_iff_toNat_le]
      omega
    · split
      · simp [UInt8.le_iff_toNat_le]
        omega
      · split
        · simp [UInt8.le_iff_toNat_le]
          omega
        · rw [is_cont_iff]
          omega

/-! ## An ASCII character is read from its byte only -/

/-- A sequence the decoder can be in the middle of. -/
def Begun : List UInt8 → Prop
  | [] => True
  | b₀ :: more => is_lead b₀ = true ∧ more.length + 1 < width b₀ ∧
      match more with
      | [] => True
      | b₁ :: conts => is_second b₀ b₁ = true ∧ ∀ b ∈ conts, is_cont b = true

/-- What a complete sequence encodes is beyond ASCII. -/
theorem scalar_high {b₀ : UInt8} {more : List UInt8} {b : UInt8} (h : Begun (b₀ :: more))
    (hb : (if more = [] then is_second b₀ b else is_cont b) = true)
    (hw : more.length + 2 = width b₀) : 128 ≤ (scalar b₀ (more ++ [b])).toNat := by
  obtain ⟨hlead, -, hmore⟩ := h
  rw [is_lead_iff] at hlead
  unfold scalar
  rw [width_eq] at hw ⊢
  -- by the number of bytes that the first one announces
  rcases more with _ | ⟨b₁, _ | ⟨b₂, _ | ⟨b₃, more⟩⟩⟩
  · rw [if_pos rfl, is_second_iff] at hb
    have hlt : b₀.toNat < 224 := by
      by_contra hge
      rw [if_neg hge] at hw
      split at hw <;> simp at hw
    rw [if_pos hlt]
    simp only [List.nil_append, List.foldl_cons, List.foldl_nil]
    rw [toNat_ofNat (by simp [Nat.isValidChar]; omega)]
    omega
  · rw [if_neg (by simp), is_cont_iff] at hb
    obtain ⟨hsecond, -⟩ := hmore
    rw [is_second_iff] at hsecond
    have hge : ¬ b₀.toNat < 224 := by
      intro hlt
      rw [if_pos hlt] at hw
      simp at hw
    have hlt : b₀.toNat < 240 := by
      by_contra hge'
      rw [if_neg hge, if_neg hge'] at hw
      simp at hw
    rw [if_neg hge, if_pos hlt]
    simp only [List.singleton_append, List.foldl_cons, List.foldl_nil]
    rw [toNat_ofNat (by simp [Nat.isValidChar]; omega)]
    omega
  · rw [if_neg (by simp), is_cont_iff] at hb
    obtain ⟨hsecond, hconts⟩ := hmore
    have hthird := hconts b₂ (by simp)
    rw [is_second_iff] at hsecond
    rw [is_cont_iff] at hthird
    have hge : ¬ b₀.toNat < 224 := by
      intro hlt
      rw [if_pos hlt] at hw
      simp at hw
    have hge' : ¬ b₀.toNat < 240 := by
      intro hlt
      rw [if_neg hge, if_pos hlt] at hw
      simp at hw
    rw [if_neg hge, if_neg hge']
    simp only [List.cons_append, List.nil_append, List.foldl_cons, List.foldl_nil]
    rw [toNat_ofNat (by simp [Nat.isValidChar]; omega)]
    omega
  · -- no sequence is longer than four bytes
    split at hw
    · simp at hw
    · split at hw <;> simp at hw

theorem feed_lead {b : UInt8} (h : is_lead b = true) : feed [] b = ([], [b]) := by
  have hlow : ¬ b < 0x80 := by
    rw [is_lead_iff] at h
    rw [UInt8.lt_iff_toNat_lt]
    simp
    omega
  unfold feed start
  dsimp only
  rw [if_neg hlow, if_pos h]

theorem feed_more {b₀ b : UInt8} {more : List UInt8}
    (hb : (if more = [] then is_second b₀ b else is_cont b) = true)
    (hw : more.length + 2 ≠ width b₀) : feed (b₀ :: more) b = ([], b₀ :: (more ++ [b])) := by
  unfold feed
  dsimp only
  rw [if_pos hb, if_neg hw]

theorem feed_done {b₀ b : UInt8} {more : List UInt8}
    (hb : (if more = [] then is_second b₀ b else is_cont b) = true)
    (hw : more.length + 2 = width b₀) : feed (b₀ :: more) b = ([scalar b₀ (more ++ [b])], []) := by
  unfold feed
  dsimp only
  rw [if_pos hb, if_pos hw]

theorem feed_cut {b₀ b : UInt8} {more : List UInt8}
    (hb : ¬ (if more = [] then is_second b₀ b else is_cont b) = true) :
    feed (b₀ :: more) b = (replacement :: (start b).1, (start b).2) := by
  unfold feed
  dsimp only
  rw [if_neg hb]

theorem replacement_high : 128 ≤ replacement.toNat := by decide

theorem begun_lead {b : UInt8} (h : is_lead b = true) : Begun [b] := by
  refine ⟨h, ?_, trivial⟩
  rw [width_eq]
  split
  · simp
  · split <;> simp

/-- A continuation that does not complete the sequence. -/
theorem begun_append {b₀ b : UInt8} {more : List UInt8} (h : Begun (b₀ :: more))
    (hb : (if more = [] then is_second b₀ b else is_cont b) = true)
    (hw : more.length + 2 ≠ width b₀) : Begun (b₀ :: (more ++ [b])) := by
  obtain ⟨hlead, hlen, hmore⟩ := h
  refine ⟨hlead, ?_, ?_⟩
  · rw [List.length_append, List.length_singleton]
    omega
  · rcases more with _ | ⟨b₁, conts⟩
    · exact ⟨hb, by simp⟩
    · rw [if_neg (by simp)] at hb
      refine ⟨hmore.1, fun d hd => ?_⟩
      rcases List.mem_append.mp hd with hd | hd
      · exact hmore.2 d hd
      · rw [List.mem_singleton] at hd
        rw [hd]
        exact hb

/-- One byte outside a sequence yields no ASCII character but its own. -/
theorem start_spec (b : UInt8) :
    Begun (start b).2 ∧ ∀ c ∈ (start b).1, c.toNat < 128 → c.toNat = b.toNat := by
  unfold start
  split
  · rename_i hb
    refine ⟨trivial, fun c hc _ => ?_⟩
    rw [UInt8.lt_iff_toNat_lt] at hb
    simp at hb
    rw [List.mem_singleton] at hc
    rw [hc]
    exact toNat_ofNat (by simp [Nat.isValidChar]; omega)
  · split
    · rename_i hlead
      exact ⟨begun_lead hlead, by simp⟩
    · refine ⟨trivial, fun c hc hlow => ?_⟩
      rw [List.mem_singleton] at hc
      rw [hc] at hlow
      have := replacement_high
      omega

theorem feed_spec {pending : List UInt8} (b : UInt8) (h : Begun pending) :
    Begun (feed pending b).2 ∧ ∀ c ∈ (feed pending b).1, c.toNat < 128 → c.toNat = b.toNat := by
  rcases pending with _ | ⟨b₀, more⟩
  · exact start_spec b
  · by_cases hb : (if more = [] then is_second b₀ b else is_cont b) = true
    · by_cases hw : more.length + 2 = width b₀
      · rw [feed_done hb hw]
        refine ⟨trivial, fun c hc hlow => ?_⟩
        have hhigh := scalar_high h hb hw
        rw [List.mem_singleton] at hc
        rw [← hc] at hhigh
        omega
      · rw [feed_more hb hw]
        exact ⟨begun_append h hb hw, by simp⟩
    · rw [feed_cut hb]
      refine ⟨(start_spec b).1, fun c hc hlow => ?_⟩
      rcases List.mem_cons.mp hc with hc | hc
      · rw [hc] at hlow
        have := replacement_high
        omega
      · exact (start_spec b).2 c hc hlow

theorem mem_utf8_from_low {bs pending : List UInt8} {c : Char} (h : Begun pending)
    (hc : c ∈ utf8_from pending bs) (hlow : c.toNat < 128) : UInt8.ofNat c.toNat ∈ bs := by
  induction bs generalizing pending with
  | nil =>
    rw [utf8_from, finish] at hc
    split at hc
    · simp at hc
    · rw [List.mem_singleton] at hc
      rw [hc] at hlow
      have := replacement_high
      omega
  | cons b bs ih =>
    rw [utf8_from] at hc
    obtain ⟨hnext, hfed⟩ := feed_spec b h
    rcases List.mem_append.mp hc with hc | hc
    · rw [hfed c hc hlow, UInt8.ofNat_toNat]
      exact List.mem_cons_self
    · exact List.mem_cons_of_mem _ (ih hnext hc)

/-- **An ASCII character is read from its byte.** -/
theorem mem_utf8_lossy_low {bs : List UInt8} {c : Char} (hc : c ∈ utf8_lossy bs)
    (hlow : c.toNat < 128) : UInt8.ofNat c.toNat ∈ bs := @mem_utf8_from_low bs [] c trivial hc hlow

/-- In the middle of a sequence the next character is beyond ASCII. -/
theorem head_utf8_from {b₀ : UInt8} {more bs : List UInt8} (h : Begun (b₀ :: more)) :
    ∃ c cs, utf8_from (b₀ :: more) bs = c :: cs ∧ 128 ≤ c.toNat := by
  induction bs generalizing more with
  | nil => exact ⟨replacement, [], by simp [utf8_from, finish], replacement_high⟩
  | cons b bs ih =>
    rw [utf8_from]
    by_cases hb : (if more = [] then is_second b₀ b else is_cont b) = true
    · by_cases hw : more.length + 2 = width b₀
      · rw [feed_done hb hw]
        exact ⟨_, _, rfl, scalar_high h hb hw⟩
      · rw [feed_more hb hw]
        exact ih (begun_append h hb hw)
    · rw [feed_cut hb]
      exact ⟨_, _, rfl, replacement_high⟩

/-- A text begins with the character of an ASCII byte, or with one beyond ASCII. -/
theorem utf8_lossy_cons (b : UInt8) (bs : List UInt8) :
    (b.toNat < 128 ∧ utf8_lossy (b :: bs) = Char.ofNat b.toNat :: utf8_lossy bs) ∨
      ∃ c cs, utf8_lossy (b :: bs) = c :: cs ∧ 128 ≤ c.toNat := by
  unfold utf8_lossy
  rw [utf8_from]
  unfold feed start
  dsimp only
  split
  · rename_i hb
    rw [UInt8.lt_iff_toNat_lt] at hb
    exact Or.inl ⟨hb, rfl⟩
  · split
    · rename_i hlead
      exact Or.inr (head_utf8_from (begun_lead hlead))
    · exact Or.inr ⟨_, _, rfl, replacement_high⟩

theorem utf8_lossy_ne_nil {bs : List UInt8} (h : bs ≠ []) : utf8_lossy bs ≠ [] := by
  obtain ⟨b, rest, rfl⟩ := List.exists_cons_of_ne_nil h
  rcases utf8_lossy_cons b rest with ⟨-, hcons⟩ | ⟨c, cs, hcons, -⟩
  · rw [hcons]
    simp
  · rw [hcons]
    simp

theorem head_utf8_lossy {bs : List UInt8} {c : Char} {cs : List Char}
    (h : utf8_lossy bs = c :: cs) (hlow : c.toNat < 128) :
    ∃ rest, bs = UInt8.ofNat c.toNat :: rest ∧ utf8_lossy rest = cs := by
  rcases bs with _ | ⟨b, rest⟩
  · simp [utf8_lossy, utf8_from, finish] at h
  · rcases utf8_lossy_cons b rest with ⟨hb, hcons⟩ | ⟨d, ds, hcons, hhigh⟩
    · rw [hcons, List.cons.injEq] at h
      have hnat : (Char.ofNat b.toNat).toNat = b.toNat :=
        toNat_ofNat (by simp [Nat.isValidChar]; omega)
      exact ⟨rest, by rw [← h.1, hnat, UInt8.ofNat_toNat], h.2⟩
    · rw [hcons, List.cons.injEq] at h
      rw [h.1] at hhigh
      omega

/-! ## UTF-8 there and back -/

theorem char_bounds (c : Char) : c.toNat < 0xD800 ∨ (0xDFFF < c.toNat ∧ c.toNat < 0x110000) :=
  c.valid

theorem scalar_eq {b₀ : UInt8} {conts : List UInt8} {c : Char}
    (h : conts.foldl (fun v b => v * 64 + b.toNat % 64) (b₀.toNat % 2 ^ (7 - width b₀)) = c.toNat) :
    scalar b₀ conts = c := by
  rw [scalar, h, Char.ofNat_toNat]

/-- The decoder reads one encoded character. -/
theorem utf8_from_char (c : Char) (bs : List UInt8) :
    utf8_from [] (String.utf8EncodeChar c ++ bs) = c :: utf8_from [] bs := by
  have hbounds := char_bounds c
  have hval : c.val.toNat = c.toNat := rfl
  have hbyte : ∀ n, n < 256 → (UInt8.ofNat n).toNat = n := by
    intro n hn
    rw [UInt8.toNat_ofNat']
    omega
  unfold String.utf8EncodeChar
  dsimp only
  rw [hval]
  split
  -- a byte below 128 is a character at once
  · have hb := hbyte c.toNat (by omega)
    rw [List.singleton_append, utf8_from]
    unfold feed start
    dsimp only
    rw [if_pos (by rw [UInt8.lt_iff_toNat_lt, hb]; simp; omega), hb, Char.ofNat_toNat]
    rfl
  · split
    · -- two bytes
      have hb₀ := hbyte (c.toNat / 64 % 32 + 192) (by omega)
      have hb₁ := hbyte (c.toNat % 64 + 128) (by omega)
      generalize UInt8.ofNat (c.toNat / 64 % 32 + 192) = b₀ at hb₀ ⊢
      generalize UInt8.ofNat (c.toNat % 64 + 128) = b₁ at hb₁ ⊢
      have hw : width b₀ = 2 := by rw [width_eq, if_pos (by omega)]
      have hlead : is_lead b₀ = true := is_lead_iff.mpr (by omega)
      have hsecond : is_second b₀ b₁ = true := is_second_iff.mpr (by omega)
      have hscalar : scalar b₀ [b₁] = c := by
        apply scalar_eq
        rw [hw]
        simp only [List.foldl_cons, List.foldl_nil]
        omega
      have h₁ : feed [b₀] b₁ = ([c], []) := by
        rw [← hscalar]
        exact @feed_done b₀ b₁ [] (by simpa using hsecond) (by simp [hw])
      rw [List.cons_append, List.singleton_append, utf8_from, utf8_from, feed_lead hlead, h₁]
      rfl
    · split
      · -- three bytes
        have hb₀ := hbyte (c.toNat / 4096 % 16 + 224) (by omega)
        have hb₁ := hbyte (c.toNat / 64 % 64 + 128) (by omega)
        have hb₂ := hbyte (c.toNat % 64 + 128) (by omega)
        generalize UInt8.ofNat (c.toNat / 4096 % 16 + 224) = b₀ at hb₀ ⊢
        generalize UInt8.ofNat (c.toNat / 64 % 64 + 128) = b₁ at hb₁ ⊢
        generalize UInt8.ofNat (c.toNat % 64 + 128) = b₂ at hb₂ ⊢
        have hw : width b₀ = 3 := by rw [width_eq, if_neg (by omega), if_pos (by omega)]
        have hlead : is_lead b₀ = true := is_lead_iff.mpr (by omega)
        have hsecond : is_second b₀ b₁ = true := is_second_iff.mpr (by omega)
        have hthird : is_cont b₂ = true := is_cont_iff.mpr (by omega)
        have hscalar : scalar b₀ [b₁, b₂] = c := by
          apply scalar_eq
          rw [hw]
          simp only [List.foldl_cons, List.foldl_nil]
          omega
        have h₁ : feed [b₀] b₁ = ([], [b₀, b₁]) :=
          @feed_more b₀ b₁ [] (by simpa using hsecond) (by simp [hw])
        have h₂ : feed [b₀, b₁] b₂ = ([c], []) := by
          rw [← hscalar]
          exact @feed_done b₀ b₂ [b₁] (by simpa using hthird) (by simp [hw])
        rw [List.cons_append, List.cons_append, List.singleton_append, utf8_from, utf8_from,
          utf8_from, feed_lead hlead, h₁, h₂]
        rfl
      · -- four bytes
        have hb₀ := hbyte (c.toNat / 262144 % 8 + 240) (by omega)
        have hb₁ := hbyte (c.toNat / 4096 % 64 + 128) (by omega)
        have hb₂ := hbyte (c.toNat / 64 % 64 + 128) (by omega)
        have hb₃ := hbyte (c.toNat % 64 + 128) (by omega)
        generalize UInt8.ofNat (c.toNat / 262144 % 8 + 240) = b₀ at hb₀ ⊢
        generalize UInt8.ofNat (c.toNat / 4096 % 64 + 128) = b₁ at hb₁ ⊢
        generalize UInt8.ofNat (c.toNat / 64 % 64 + 128) = b₂ at hb₂ ⊢
        generalize UInt8.ofNat (c.toNat % 64 + 128) = b₃ at hb₃ ⊢
        have hw : width b₀ = 4 := by rw [width_eq, if_neg (by omega), if_neg (by omega)]
        have hlead : is_lead b₀ = true := is_lead_iff.mpr (by omega)
        have hsecond : is_second b₀ b₁ = true := is_second_iff.mpr (by omega)
        have hthird : is_cont b₂ = true := is_cont_iff.mpr (by omega)
        have hfourth : is_cont b₃ = true := is_cont_iff.mpr (by omega)
        have hscalar : scalar b₀ [b₁, b₂, b₃] = c := by
          apply scalar_eq
          rw [hw]
          simp only [List.foldl_cons, List.foldl_nil]
          omega
        have h₁ : feed [b₀] b₁ = ([], [b₀, b₁]) :=
          @feed_more b₀ b₁ [] (by simpa using hsecond) (by simp [hw])
        have h₂ : feed [b₀, b₁] b₂ = ([], [b₀, b₁, b₂]) :=
          @feed_more b₀ b₂ [b₁] (by simpa using hthird) (by simp [hw])
        have h₃ : feed [b₀, b₁, b₂] b₃ = ([c], []) := by
          rw [← hscalar]
          exact @feed_done b₀ b₃ [b₁, b₂] (by simpa using hfourth) (by simp [hw])
        rw [List.cons_append, List.cons_append, List.cons_append, List.singleton_append,
          utf8_from, utf8_from, utf8_from, utf8_from, feed_lead hlead, h₁, h₂, h₃]
        rfl

/-- **The decoder gives a text back.** -/
theorem utf8_lossy_encode (cs : List Char) : utf8_lossy (utf8_encode cs) = cs := by
  unfold utf8_lossy
  induction cs with
  | nil => rfl
  | cons c cs ih =>
    have hcons : utf8_encode (c :: cs) = String.utf8EncodeChar c ++ utf8_encode cs :=
      List.flatMap_cons
    rw [hcons, utf8_from_char, ih]

/-! ## Percent-encoding there and back -/

/-- An upper-case hexadecimal digit. -/
def hex_digit (n : ℕ) : Char := if n < 10 then Char.ofNat (48 + n) else Char.ofNat (55 + n)

/-- `%XX`. -/
def percent_escape (b : UInt8) : List Char :=
  ['%', hex_digit (b.toNat / 16), hex_digit (b.toNat % 16)]

/-- `utf8_percent_encode`: the bytes outside `keep` escaped, and every byte beyond
ASCII. -/
def utf8_percent_encode (keep : Char → Bool) (cs : List Char) : List Char :=
  cs.flatMap fun c =>
    if c.toNat < 128 ∧ keep c = true then [c] else (String.utf8EncodeChar c).flatMap percent_escape

theorem percent_decode_escape (b : UInt8) (bs : List UInt8) :
    percent_decode (utf8_encode (percent_escape b) ++ bs) = b :: percent_decode bs := by
  have hdigits : ∀ n < 256,
      utf8_encode (percent_escape (UInt8.ofNat n))
          = [37, UInt8.ofNat (hex_digit (n / 16)).toNat, UInt8.ofNat (hex_digit (n % 16)).toNat] ∧
        escape (UInt8.ofNat (hex_digit (n / 16)).toNat) (UInt8.ofNat (hex_digit (n % 16)).toNat)
          = some (UInt8.ofNat n) := by
    decide +kernel
  obtain ⟨henc, hesc⟩ := hdigits b.toNat b.toNat_lt
  rw [UInt8.ofNat_toNat] at henc hesc
  rw [henc, List.cons_append, List.cons_append, List.singleton_append, percent_decode,
    if_pos rfl, hesc]

/-- Escaped or kept, one character is decoded to its bytes. -/
theorem percent_decode_char {keep : Char → Bool} (hkeep : keep '%' = false) (c : Char)
    (bs : List UInt8) :
    percent_decode (utf8_encode (if c.toNat < 128 ∧ keep c = true then [c]
        else (String.utf8EncodeChar c).flatMap percent_escape) ++ bs)
      = String.utf8EncodeChar c ++ percent_decode bs := by
  split
  · rename_i h
    have hne : UInt8.ofNat c.toNat ≠ 37 := by
      intro heq
      have hnat : c.toNat = 37 := by
        have hmod := congrArg UInt8.toNat heq
        rw [UInt8.toNat_ofNat'] at hmod
        simp at hmod
        omega
      have hc : c = '%' := Char.toNat_inj.mp hnat
      rw [hc, hkeep] at h
      cases h.2
    have henc : utf8_encode [c] = [UInt8.ofNat c.toNat] := by
      rw [utf8_encode, List.flatMap_singleton, encode_char_ascii h.1]
    rw [henc, encode_char_ascii h.1, List.singleton_append, percent_decode_cons hne,
      List.singleton_append]
  · generalize String.utf8EncodeChar c = bytes
    induction bytes with
    | nil => rfl
    | cons b bytes ih =>
      rw [List.flatMap_cons, utf8_encode_append, List.append_assoc, percent_decode_escape, ih,
        List.cons_append]

/-- **A percent-encoded text is decoded to itself.** -/
theorem decode_percent_encode {keep : Char → Bool} (hkeep : keep '%' = false) (cs : List Char) :
    decode (utf8_percent_encode keep cs) = cs := by
  have hbytes : percent_decode (utf8_encode (utf8_percent_encode keep cs)) = utf8_encode cs := by
    induction cs with
    | nil => rfl
    | cons c cs ih =>
      rw [utf8_percent_encode, List.flatMap_cons, utf8_encode_append, percent_decode_char hkeep]
      rw [utf8_percent_encode] at ih
      rw [ih]
      exact List.flatMap_cons.symm
  rw [decode, hbytes, utf8_lossy_encode]

/-- An escape makes no separator. -/
theorem slash_not_mem_encode {keep : Char → Bool} {cs : List Char} (h : '/' ∉ cs) :
    '/' ∉ utf8_percent_encode keep cs := by
  have hdigit : ∀ n < 256, '/' ∉ percent_escape (UInt8.ofNat n) := by decide +kernel
  intro hmem
  obtain ⟨c, hc, hslash⟩ := List.mem_flatMap.mp hmem
  split at hslash
  · rw [List.mem_singleton] at hslash
    rw [← hslash] at hc
    exact h hc
  · obtain ⟨b, -, hb⟩ := List.mem_flatMap.mp hslash
    have := hdigit b.toNat b.toNat_lt
    rw [UInt8.ofNat_toNat] at this
    exact this hb

theorem percent_encode_ne_nil {keep : Char → Bool} {cs : List Char} (h : cs ≠ []) :
    utf8_percent_encode keep cs ≠ [] := by
  obtain ⟨c, cs, rfl⟩ := List.exists_cons_of_ne_nil h
  intro hnil
  unfold utf8_percent_encode at hnil
  rw [List.flatMap_cons, List.append_eq_nil_iff] at hnil
  have hfirst := hnil.1
  split at hfirst
  · cases hfirst
  · obtain ⟨b, bs, hbytes⟩ := List.exists_cons_of_ne_nil (@String.utf8EncodeChar_ne_nil c)
    rw [hbytes] at hfirst
    cases hfirst

end Text
