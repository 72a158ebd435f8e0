/-
The scanner of the `If` header as it stands, on bytes.

Every index, every slice and every debug assertion of the source is an operation that
can panic, and a loop that has used up its turns is still running. `scan` gives each
loop one turn more than the value has bytes.

The value of an accepted header is ASCII, so its bytes and its characters stand at the
same positions, and each function here returns what its namesake in `IfHeader` does:
there is one lemma for each, and `parse_if_header_bounded` follows from the last.
-/
import Rshs.Utf8
import Rshs.Str
import Rshs.IfHeader

set_option autoImplicit false

namespace Rshs.IfBytes

open Rshs.Webdav
open Rshs.IfHeader (Abort IfCondition IfList)

/-! ## Access -/

section Scan

variable (bytes : List UInt8)

/-- `bytes[p]`. -/
def index (p : ℕ) : Except Abort UInt8 :=
  match bytes[p]? with
  | some b => .ok b
  | none => .error .panic

/-- `&bytes[start..stop]`. -/
def slice (start stop : ℕ) : Except Abort (List UInt8) :=
  if start ≤ stop ∧ stop ≤ bytes.length then .ok ((bytes.drop start).take (stop - start))
  else .error .panic

/-- `debug_assert!`, in a build that checks it. -/
def debug_assert (holds : Bool) : Except Abort Unit :=
  if holds then .ok () else .error .panic

/-- `p < bytes.len() && bytes[p] == b`. -/
def stands_at (p : ℕ) (b : UInt8) : Except Abort Bool :=
  if p < bytes.length then do
    let c ← index bytes p
    return c == b
  else return false

/-! ## The functions of the scanner -/

/-- `u8::is_ascii_whitespace`. -/
def is_ascii_whitespace (b : UInt8) : Bool := b == 32 || b == 9 || b == 10 || b == 13 || b == 12

/-- The loop over white space. -/
def skip_ws_loop : ℕ → ℕ → Except Abort ℕ
  | 0, _ => .error .running
  | turns + 1, p =>
    if p < bytes.length then do
      let b ← index bytes p
      if is_ascii_whitespace b then skip_ws_loop turns (p + 1) else return p
    else return p

/-- The position behind white space; there are no more turns than bytes. -/
def skip_ws (p : ℕ) : Except Abort ℕ := skip_ws_loop bytes (bytes.length + 1) p

/-- What stands between angle brackets, and the position behind them. -/
def read_angle_bracket (p : ℕ) : Except Abort (Option (String × ℕ)) := do
  debug_assert (bytes[p]? == some 60)
  let start := p + 1
  let rest ← slice bytes start bytes.length
  match rest.findIdx? (· = 62) with
  | none => return none
  | some e =>
    let tag ← slice bytes start (start + e)
    return (Str.from_utf8 tag).map fun s => (String.ofList s, start + e + 1)

/-- The bytes of `Not`. -/
def NOT : List UInt8 := [78, 111, 116]

/-- Whether a `Not` stands at `p`, and the position of what it negates. -/
def read_not (p : ℕ) : Except Abort (Bool × ℕ) := do
  let rest ← slice bytes p bytes.length
  if NOT.isPrefixOf rest then
    let after := p + 3
    if after < bytes.length then
      let b ← index bytes after
      if is_ascii_whitespace b || b == 60 || b == 40 then
        let p ← skip_ws bytes after
        return (true, p)
      else return (false, p)
    else
      let p ← skip_ws bytes after
      return (true, p)
  else return (false, p)

/-- The loop over the conditions of a list. -/
def read_list_loop : ℕ → ℕ → List IfCondition → Except Abort (List IfCondition × ℕ)
  | 0, _, _ => .error .running
  | turns + 1, p, conditions => do
    let p ← skip_ws bytes p
    if p < bytes.length then
      let b ← index bytes p
      if b == 41 then return (conditions, p + 1)
      else
        let (negated, p) ← read_not bytes p
        let angle ← stands_at bytes p 60
        if angle then
          match ← read_angle_bracket bytes p with
          | none => return (conditions, p)
          | some (token, new_p) =>
            let cond := IfCondition.StateToken token
            read_list_loop turns new_p (conditions ++ [if negated then .Not cond else cond])
        else read_list_loop turns (p + 1) conditions
    else return (conditions, p)

/-- A list in parentheses, from its opening one. -/
def read_list (p : ℕ) : Except Abort (List IfCondition × ℕ) := do
  debug_assert (bytes[p]? == some 40)
  read_list_loop bytes (bytes.length + 1) (p + 1) []

/-- The lists after a resource tag. -/
def tagged_loop (tag : String) : ℕ → ℕ → List IfList → Except Abort (List IfList × ℕ)
  | 0, _, _ => .error .running
  | turns + 1, pos, lists => do
    let paren ← stands_at bytes pos 40
    if paren then
      let (conditions, new_pos) ← read_list bytes pos
      let pos ← skip_ws bytes new_pos
      tagged_loop tag turns pos (lists ++ [⟨some tag.toList, conditions⟩])
    else return (lists, pos)

/-- The loop over the header: a tag with its lists, a list, or a byte that is skipped. -/
def scan_loop : ℕ → ℕ → List IfList → Except Abort (List IfList)
  | 0, _, _ => .error .running
  | turns + 1, pos, lists =>
    if pos < bytes.length then do
      let pos ← skip_ws bytes pos
      if pos < bytes.length then
        let b ← index bytes pos
        if b == 60 then
          match ← read_angle_bracket bytes pos with
          | none => return lists
          | some (tag, new_pos) =>
            let pos ← skip_ws bytes new_pos
            let paren ← stands_at bytes pos 40
            if paren then
              let (lists, pos) ← tagged_loop bytes tag (bytes.length + 1) pos lists
              scan_loop turns pos lists
            else scan_loop turns pos (lists ++ [⟨none, [.StateToken tag]⟩])
        else if b == 40 then
          let (conditions, new_pos) ← read_list bytes pos
          let pos ← skip_ws bytes new_pos
          scan_loop turns pos (lists ++ [⟨none, conditions⟩])
        else scan_loop turns (pos + 1) lists
      else return lists
    else return lists

/-- The lists of a header. -/
def scan : Except Abort (List IfList) := scan_loop bytes (bytes.length + 1) 0 []

end Scan

/-- `parse_if_header`. -/
def parse_if_header (headers : HeaderMap) : Except Abort (List IfList) :=
  match headers.if_header with
  | none => .ok []
  | some v => if v.to_str.isSome then scan v else .ok []

/-! ## Bytes and characters -/

/-- The character of an ASCII byte. -/
def chr (b : UInt8) : Char := Char.ofNat b.toNat

/-- What `to_str` lets through is ASCII. -/
def Ascii (bytes : List UInt8) : Prop := ∀ b ∈ bytes, b.toNat < 128

/-- An ASCII byte and its character have one number. -/
theorem chr_toNat {b : UInt8} (h : b.toNat < 128) : (chr b).toNat = b.toNat :=
  Text.toNat_ofNat (Or.inl (by omega))

/-- An ASCII byte is the one of a character when its character is that one. -/
theorem chr_eq_iff {b d : UInt8} (hb : b.toNat < 128) (hd : d.toNat < 128) :
    chr b = chr d ↔ b = d := by
  constructor
  · intro h
    have hnat := congrArg Char.toNat h
    rw [chr_toNat hb, chr_toNat hd] at hnat
    exact UInt8.toNat_inj.mp hnat
  · intro h
    rw [h]

/-- A comparison of bytes is one of characters. -/
theorem beq_chr {b d : UInt8} (hb : b.toNat < 128) (hd : d.toNat < 128) :
    (b == d) = decide (chr b = chr d) := by
  rw [Bool.eq_iff_iff, beq_iff_eq, decide_eq_true_iff, chr_eq_iff hb hd]

/-- White space is white space. -/
theorem whitespace_chr {b : UInt8} (hb : b.toNat < 128) :
    is_ascii_whitespace b = IfHeader.is_ascii_whitespace (chr b) := by
  unfold is_ascii_whitespace IfHeader.is_ascii_whitespace
  rw [beq_chr hb (by decide), beq_chr hb (by decide), beq_chr hb (by decide),
    beq_chr hb (by decide), beq_chr hb (by decide)]
  rfl

/-- A prefix in bytes is one in characters. -/
theorem isPrefixOf_chr {xs ys : List UInt8} (hxs : ∀ b ∈ xs, b.toNat < 128)
    (hys : ∀ b ∈ ys, b.toNat < 128) : (xs.map chr).isPrefixOf (ys.map chr) = xs.isPrefixOf ys := by
  induction xs generalizing ys with
  | nil => rfl
  | cons x xs ih =>
    cases ys with
    | nil => rfl
    | cons y ys =>
      rw [List.forall_mem_cons] at hxs hys
      rw [List.map_cons, List.map_cons, List.isPrefixOf, List.isPrefixOf, ih hxs.2 hys.2,
        beq_chr hxs.1 hys.1]
      rfl

/-- The closing bracket stands at the same place. -/
theorem findIdx_chr {xs : List UInt8} (h : Ascii xs) :
    (xs.map chr).findIdx? (· = '>') = xs.findIdx? (· = 62) := by
  induction xs with
  | nil => rfl
  | cons x xs ih =>
    have hx : (chr x = '>') = (x = 62) :=
      propext (chr_eq_iff (d := 62) (h x List.mem_cons_self) (by decide))
    rw [List.map_cons, List.findIdx?_cons, List.findIdx?_cons,
      ih (fun b hb => h b (List.mem_cons_of_mem _ hb))]
    simp only [hx]

/-- ASCII bytes are UTF-8, and decode to their characters. -/
theorem from_utf8_ascii {bytes : List UInt8} (h : Ascii bytes) :
    Str.from_utf8 bytes = some (bytes.map chr) := by
  have hencode : Text.utf8_encode (bytes.map chr) = bytes := by
    induction bytes with
    | nil => rfl
    | cons b bytes ih =>
      have hb : b.toNat < 128 := h b List.mem_cons_self
      have hone : String.utf8EncodeChar (chr b) = [b] := by
        rw [Text.encode_char_ascii (by rw [chr_toNat hb]; exact hb), chr_toNat hb]
        simp
      unfold Text.utf8_encode at ih ⊢
      rw [List.map_cons, List.flatMap_cons, hone, ih (fun c hc => h c (List.mem_cons_of_mem _ hc))]
      rfl
  unfold Str.from_utf8
  have hlossy : Text.utf8_lossy bytes = bytes.map chr := by
    rw [← hencode, Text.utf8_lossy_encode, hencode]
  rw [hlossy, if_pos hencode]

/-! ## Each function returns what its namesake does -/

/-- A step that has returned is followed by the next. -/
theorem ok_bind {α β : Type} (a : α) (f : α → Except Abort β) : (Except.ok a >>= f) = f a := rfl

section Agree

variable {bytes : List UInt8}

/-- Indexing a byte that is there returns it. -/
theorem index_ok {p : ℕ} {b : UInt8} (h : bytes[p]? = some b) : index bytes p = .ok b := by
  unfold index
  rw [h]

/-- A slice within bounds is returned, -/
theorem slice_ok {start stop : ℕ} (hle : start ≤ stop) (hstop : stop ≤ bytes.length) :
    slice bytes start stop = .ok ((bytes.drop start).take (stop - start)) := if_pos ⟨hle, hstop⟩

/-- and so is one to the end. -/
theorem slice_rest {start : ℕ} (h : start ≤ bytes.length) :
    slice bytes start bytes.length = .ok (bytes.drop start) := by
  rw [slice_ok h le_rfl, List.take_of_length_le (by rw [List.length_drop])]

variable (hascii : Ascii bytes)

include hascii

/-- Each byte of the header is ASCII. -/
theorem ascii_get {p : ℕ} {b : UInt8} (h : bytes[p]? = some b) : b.toNat < 128 :=
  hascii b (List.mem_of_getElem? h)

/-- A position holds a byte when it holds its character. -/
theorem get_chr_iff {p : ℕ} {d : UInt8} (hd : d.toNat < 128) :
    (bytes.map chr)[p]? = some (chr d) ↔ bytes[p]? = some d := by
  rw [List.getElem?_map]
  cases hb : bytes[p]? with
  | none => simp
  | some b => rw [Option.map_some, Option.some_inj, Option.some_inj,
      chr_eq_iff (ascii_get hascii hb) hd]

/-- The guarded comparison never indexes past the end. -/
theorem stands_at_ok (p : ℕ) {d : UInt8} (hd : d.toNat < 128) :
    stands_at bytes p d = .ok (decide ((bytes.map chr)[p]? = some (chr d))) := by
  unfold stands_at
  by_cases hp : p < bytes.length
  · rw [if_pos hp, index_ok (List.getElem?_eq_getElem hp), List.getElem?_map,
      List.getElem?_eq_getElem hp]
    show Except.ok (bytes[p] == d) = _
    rw [beq_chr (hascii _ (List.getElem_mem hp)) hd, Option.map_some]
    simp
  · rw [if_neg hp, List.getElem?_eq_none (by rw [List.length_map]; omega)]
    rfl

/-- The loop skips what its namesake skips, once the turns are enough for the bytes left. -/
theorem skip_ws_loop_ok {turns fuel p : ℕ} (hpos : 0 < turns) (hturns : bytes.length < turns + p)
    (hfuel : bytes.length ≤ fuel + p) :
    skip_ws_loop bytes turns p = .ok (IfHeader.skip_ws_loop (bytes.map chr) fuel p) := by
  induction turns generalizing fuel p with
  | zero => omega
  | succ turns ih =>
    unfold skip_ws_loop
    by_cases hp : p < bytes.length
    · obtain ⟨fuel, rfl⟩ : ∃ k, fuel = k + 1 := ⟨fuel - 1, by omega⟩
      have hb : bytes[p]? = some bytes[p] := List.getElem?_eq_getElem hp
      rw [if_pos hp, index_ok hb, IfHeader.skip_ws_loop, List.getElem?_map, hb, Option.map_some]
      dsimp only
      rw [← whitespace_chr (ascii_get hascii hb)]
      change (if _ then _ else _) = Except.ok (if _ then _ else _)
      split
      · exact ih (by omega) (by omega) (by omega)
      · rfl
    · rw [if_neg hp]
      cases fuel with
      | zero => rfl
      | succ fuel =>
        rw [IfHeader.skip_ws_loop, List.getElem?_eq_none (by rw [List.length_map]; omega)]
        rfl

/-- So does the function: it always returns. -/
theorem skip_ws_ok (p : ℕ) : skip_ws bytes p = .ok (IfHeader.skip_ws (bytes.map chr) p) := by
  unfold skip_ws IfHeader.skip_ws
  rw [List.length_map]
  exact skip_ws_loop_ok hascii (by omega) (by omega) (by omega)

/-- The same tag is read, or the same assertion fails. -/
theorem read_angle_bracket_eq (p : ℕ) :
    read_angle_bracket bytes p = IfHeader.read_angle_bracket (bytes.map chr) p := by
  unfold read_angle_bracket IfHeader.read_angle_bracket
  have hopen : (bytes.map chr)[p]? = some '<' ↔ bytes[p]? = some 60 :=
    get_chr_iff hascii (d := 60) (by decide)
  by_cases hlt : bytes[p]? = some 60
  · -- the slice behind the bracket, and in it the one in front of its end
    have hp : p < bytes.length := (List.getElem?_eq_some_iff.mp hlt).1
    rw [if_neg (not_not.mpr (hopen.mpr hlt)), hlt]
    dsimp only
    rw [if_neg (by rw [List.length_map]; omega), slice_rest (by omega), ← List.map_drop]
    rw [findIdx_chr (fun b hb => hascii b (List.mem_of_mem_drop hb))]
    change (match (bytes.drop (p + 1)).findIdx? (· = 62) with | none => _ | some e => _) = _
    cases he : (bytes.drop (p + 1)).findIdx? (· = 62) with
    | none => rfl
    | some e =>
      have hend : e < (bytes.drop (p + 1)).length := (List.findIdx?_eq_some_iff_getElem.mp he).1
      rw [List.length_drop] at hend
      dsimp only
      rw [slice_ok (by omega) (by omega), Nat.add_sub_cancel_left, ← List.map_take]
      have htag : Ascii ((bytes.drop (p + 1)).take e) :=
        fun b hb => hascii b (List.mem_of_mem_drop (List.mem_of_mem_take hb))
      change Except.ok (Option.map _ (Str.from_utf8 _)) = _
      rw [from_utf8_ascii htag]
      rfl
  · rw [if_pos (fun h => hlt (hopen.mp h))]
    have hfalse : (bytes[p]? == some 60) = false := beq_eq_false_iff_ne.mpr hlt
    rw [hfalse]
    rfl

/-- `Not` is read at the same places, and its slice is always in bounds. -/
theorem read_not_ok {p : ℕ} (hp : p ≤ bytes.length) :
    read_not bytes p = .ok (IfHeader.read_not (bytes.map chr) p) := by
  have hpre : "Not".toList.isPrefixOf ((bytes.map chr).drop p) = NOT.isPrefixOf (bytes.drop p) := by
    have hnot : ∀ b ∈ NOT, b.toNat < 128 := Text.forall_mem_of_all (by decide)
    rw [← List.map_drop]
    exact isPrefixOf_chr hnot (fun b hb => hascii b (List.mem_of_mem_drop hb))
  have hdelim : ∀ b : UInt8, b.toNat < 128 → ((is_ascii_whitespace b || b == 60 || b == 40) = true ↔
      (IfHeader.is_ascii_whitespace (chr b) = true ∨ chr b = '<' ∨ chr b = '(')) := by
    intro b hb
    rw [Bool.or_eq_true, Bool.or_eq_true, whitespace_chr hb, or_assoc, beq_iff_eq, beq_iff_eq,
      ← chr_eq_iff hb (d := 60) (by decide), ← chr_eq_iff hb (d := 40) (by decide)]
    rfl
  unfold read_not IfHeader.read_not
  rw [slice_rest hp, hpre, ok_bind]
  split
  · dsimp only
    by_cases hafter : p + 3 < bytes.length
    · have hb : bytes[p + 3]? = some bytes[p + 3] := List.getElem?_eq_getElem hafter
      rw [if_pos hafter, index_ok hb, ok_bind, List.getElem?_map, hb, Option.map_some]
      dsimp only
      have hiff := hdelim _ (ascii_get hascii hb)
      split
      · rename_i hd
        rw [if_pos (hiff.mp hd), skip_ws_ok hascii, ok_bind]
        rfl
      · rename_i hd
        rw [if_neg (fun h => hd (hiff.mpr h))]
        rfl
    · rw [if_neg hafter, List.getElem?_eq_none (by rw [List.length_map]; omega), skip_ws_ok hascii,
        ok_bind]
      rfl
  · rfl

omit hascii in
/-- A turn of the inner loop that meets a character of the list. -/
theorem list_turn {text : List Char} {turns p : ℕ} {c : Char} (conditions : List IfCondition)
    (h : text[IfHeader.skip_ws text p]? = some c) (hc : c ≠ ')') :
    IfHeader.read_list_loop text (turns + 1) p conditions
      = let r := IfHeader.read_not text (IfHeader.skip_ws text p)
        if text[r.2]? = some '<' then
          match IfHeader.read_angle_bracket text r.2 with
          | .error a => .error a
          | .ok none => .ok (conditions, r.2)
          | .ok (some (token, new_p)) =>
            IfHeader.read_list_loop text turns new_p (conditions ++
              [if r.1 then .Not (.StateToken token) else .StateToken token])
        else IfHeader.read_list_loop text turns (r.2 + 1) conditions := by
  rw [IfHeader.read_list_loop]
  dsimp only
  rw [h]
  split
  · rename_i heq
    cases heq
  · rename_i heq
    exact absurd (Option.some_inj.mp heq) hc
  · rfl

/-- By induction on the turns: each of them reads the same condition. -/
theorem read_list_loop_eq (turns p : ℕ) (conditions : List IfCondition) :
    read_list_loop bytes turns p conditions
      = IfHeader.read_list_loop (bytes.map chr) turns p conditions := by
  -- on the turns: both loops stand at the same position with the same conditions
  induction turns generalizing p conditions with
  | zero => rfl
  | succ turns ih =>
    unfold read_list_loop
    rw [skip_ws_ok hascii, ok_bind]
    generalize hq : IfHeader.skip_ws (bytes.map chr) p = q
    by_cases hlt : q < bytes.length
    · have hb : bytes[q]? = some bytes[q] := List.getElem?_eq_getElem hlt
      have hc : (bytes.map chr)[q]? = some (chr bytes[q]) := by
        rw [List.getElem?_map, hb, Option.map_some]
      have hclose : chr bytes[q] = ')' ↔ bytes[q] = 41 :=
        chr_eq_iff (d := 41) (ascii_get hascii hb) (by decide)
      rw [if_pos hlt, index_ok hb, ok_bind]
      by_cases hend : bytes[q] = 41
      · rw [if_pos (beq_iff_eq.mpr hend), IfHeader.read_list_loop]
        dsimp only
        rw [hq, hc, hclose.mpr hend]
        rfl
      -- after an optional `Not`, a token in angle brackets, or one byte that is skipped
      · rw [if_neg (by simpa using hend), list_turn conditions (hq ▸ hc) (fun h => hend (hclose.mp h)),
          hq, read_not_ok hascii hlt.le, ok_bind]
        obtain ⟨negated, r⟩ := IfHeader.read_not (bytes.map chr) q
        dsimp only
        rw [stands_at_ok hascii r (d := 60) (by decide), ok_bind, read_angle_bracket_eq hascii]
        change _ = if (bytes.map chr)[r]? = some (chr 60) then _ else _
        by_cases hangle : (bytes.map chr)[r]? = some (chr 60)
        · rw [if_pos hangle, if_pos (decide_eq_true hangle)]
          cases IfHeader.read_angle_bracket (bytes.map chr) r with
          | error a => rfl
          | ok found =>
            rw [ok_bind]
            cases found with
            | none => rfl
            | some found => exact ih _ _
        · rw [if_neg hangle, if_neg (by simpa using hangle)]
          exact ih _ _
    · rw [if_neg hlt, IfHeader.read_list_loop]
      dsimp only
      rw [hq, List.getElem?_eq_none (by rw [List.length_map]; omega)]
      rfl

/-- The same list is read, or the same assertion fails. -/
theorem read_list_eq (p : ℕ) :
    read_list bytes p = IfHeader.read_list (bytes.map chr) p := by
  unfold read_list IfHeader.read_list
  have hopen : (bytes.map chr)[p]? = some '(' ↔ bytes[p]? = some 40 :=
    get_chr_iff hascii (d := 40) (by decide)
  by_cases h : bytes[p]? = some 40
  · rw [if_neg (not_not.mpr (hopen.mpr h)), h, List.length_map]
    exact read_list_loop_eq hascii _ _ _
  · rw [if_pos (fun heq => h (hopen.mp heq)), beq_eq_false_iff_ne.mpr h]
    rfl

/-- The lists behind a tag are the same, by induction on the turns. -/
theorem tagged_loop_eq (tag : String) (turns pos : ℕ) (lists : List IfList) :
    tagged_loop bytes tag turns pos lists
      = IfHeader.tagged_loop (bytes.map chr) tag turns pos lists := by
  induction turns generalizing pos lists with
  | zero => rfl
  | succ turns ih =>
    unfold tagged_loop IfHeader.tagged_loop
    rw [stands_at_ok hascii pos (d := 40) (by decide), ok_bind, read_list_eq hascii]
    change _ = if (bytes.map chr)[pos]? = some (chr 40) then _ else _
    by_cases hopen : (bytes.map chr)[pos]? = some (chr 40)
    · rw [if_pos hopen, if_pos (decide_eq_true hopen)]
      cases IfHeader.read_list (bytes.map chr) pos with
      | error a => rfl
      | ok r =>
        rw [ok_bind]
        dsimp only
        rw [skip_ws_ok hascii, ok_bind]
        exact ih _ _
    · rw [if_neg hopen, if_neg (by simpa using hopen)]
      rfl

omit hascii in
/-- A turn of the outer loop that meets neither bracket. -/
theorem scan_turn {text : List Char} {turns pos : ℕ} {c : Char} (lists : List IfList)
    (hpos : pos < text.length) (h : text[IfHeader.skip_ws text pos]? = some c) (hangle : c ≠ '<')
    (hopen : c ≠ '(') : IfHeader.parse_loop text (turns + 1) pos lists
      = IfHeader.parse_loop text turns (IfHeader.skip_ws text pos + 1) lists := by
  rw [IfHeader.parse_loop, if_neg (by omega)]
  dsimp only
  rw [h]
  split
  · rename_i heq
    cases heq
  · rename_i heq
    exact absurd (Option.some_inj.mp heq) hangle
  · rename_i heq
    exact absurd (Option.some_inj.mp heq) hopen
  · rfl

/-- By induction on the turns: each of them reads the same lists. -/
theorem scan_loop_eq (turns pos : ℕ) (lists : List IfList) :
    scan_loop bytes turns pos lists = IfHeader.parse_loop (bytes.map chr) turns pos lists := by
  -- on the turns: both loops stand at the same position with the same lists
  induction turns generalizing pos lists with
  | zero => rfl
  | succ turns ih =>
    have hlen : (bytes.map chr).length = bytes.length := List.length_map _
    unfold scan_loop
    by_cases hpos : pos < bytes.length
    · rw [if_pos hpos, skip_ws_ok hascii, ok_bind]
      generalize hq : IfHeader.skip_ws (bytes.map chr) pos = q
      by_cases hlt : q < bytes.length
      · have hb : bytes[q]? = some bytes[q] := List.getElem?_eq_getElem hlt
        have hc : (bytes.map chr)[q]? = some (chr bytes[q]) := by
          rw [List.getElem?_map, hb, Option.map_some]
        have hangle : chr bytes[q] = '<' ↔ bytes[q] = 60 :=
          chr_eq_iff (d := 60) (ascii_get hascii hb) (by decide)
        have hopen : chr bytes[q] = '(' ↔ bytes[q] = 40 :=
          chr_eq_iff (d := 40) (ascii_get hascii hb) (by decide)
        rw [if_pos hlt, index_ok hb, ok_bind]
        by_cases htag : bytes[q] = 60
        · -- a tag, or a token that stands alone
          rw [if_pos (beq_iff_eq.mpr htag), IfHeader.parse_loop, if_neg (by omega)]
          dsimp only
          rw [hq, hc, hangle.mpr htag, read_angle_bracket_eq hascii]
          cases IfHeader.read_angle_bracket (bytes.map chr) q with
          | error a => rfl
          | ok found =>
            rw [ok_bind]
            cases found with
            | none => rfl
            | some found =>
              -- behind the tag, only an opening parenthesis starts lists of its own
              dsimp only
              rw [skip_ws_ok hascii, ok_bind, stands_at_ok hascii _ (d := 40) (by decide), ok_bind,
                tagged_loop_eq hascii, hlen]
              generalize IfHeader.skip_ws (bytes.map chr) found.2 = r
              change _ = if (bytes.map chr)[r]? = some (chr 40) then _ else _
              by_cases hparen : (bytes.map chr)[r]? = some (chr 40)
              · rw [if_pos hparen, if_pos (decide_eq_true hparen)]
                cases IfHeader.tagged_loop (bytes.map chr) found.1 (bytes.length + 1) r lists with
                | error a => rfl
                | ok out => exact ih _ _
              · rw [if_neg hparen, if_neg (by simpa using hparen)]
                exact ih _ _
        -- neither a tag nor a list: both skip one byte
        · rw [if_neg (by simpa using htag)]
          by_cases hlist : bytes[q] = 40
          · -- an untagged list
            rw [if_pos (beq_iff_eq.mpr hlist), IfHeader.parse_loop, if_neg (by omega)]
            dsimp only
            rw [hq, hc, hopen.mpr hlist, read_list_eq hascii]
            cases IfHeader.read_list (bytes.map chr) q with
            | error a => rfl
            | ok out =>
              rw [ok_bind]
              dsimp only
              rw [skip_ws_ok hascii, ok_bind]
              exact ih _ _
          · rw [if_neg (by simpa using hlist), scan_turn lists (by omega) (hq ▸ hc)
              (fun h => htag (hangle.mp h)) (fun h => hlist (hopen.mp h)), hq]
            exact ih _ _
      · rw [if_neg hlt, IfHeader.parse_loop, if_neg (by omega)]
        dsimp only
        rw [hq, List.getElem?_eq_none (by omega)]
        rfl
    · rw [if_neg hpos, IfHeader.parse_loop, if_pos (by omega)]
      rfl

/-- The scanner of bytes is that of characters. -/
theorem scan_eq : scan bytes = IfHeader.scan_if (bytes.map chr) := by
  unfold scan IfHeader.scan_if
  rw [List.length_map]
  exact scan_loop_eq hascii _ _ _

end Agree

/-- The bytes of an accepted value are those of its characters. -/
theorem to_str_ascii {v : HeaderValue} {text : List Char} (h : v.to_str = some text) :
    Ascii v ∧ text = v.map chr := by
  unfold HeaderValue.to_str at h
  split at h
  · rename_i hall
    refine ⟨fun b hb => ?_, (Option.some_inj.mp h).symm⟩
    have hone := List.all_eq_true.mp hall b hb
    simp only [Bool.or_eq_true, Bool.and_eq_true, decide_eq_true_eq, beq_iff_eq,
      UInt8.lt_iff_toNat_lt] at hone
    rcases hone with ⟨-, hlt⟩ | htab
    · exact lt_trans hlt (by decide)
    · rw [htab]
      decide
  · cases h

/-- **The scanner ends and stays within the bytes.** On an accepted value, whatever its
text, no loop runs out of turns, no index or slice is out of range and no assertion
fails; and the inner scanner returns from every opening parenthesis, behind it. -/
theorem parse_if_header_bounded {headers : HeaderMap} {v : HeaderValue} {text : List Char}
    (hv : headers.if_header = some v) (htext : v.to_str = some text) :
    parse_if_header headers = .ok (IfHeader.parse_if_header headers) ∧
      ∀ p, v[p]? = some 40 → ∃ conditions q, read_list v p = .ok (conditions, q) ∧ p < q := by
  obtain ⟨hascii, rfl⟩ := to_str_ascii htext
  constructor
  · obtain ⟨lists, hlists⟩ := IfHeader.scan_if_ok (v.map chr)
    unfold parse_if_header IfHeader.parse_if_header
    rw [hv]
    dsimp only
    rw [Option.bind_some, htext, if_pos Option.isSome_some, scan_eq hascii]
    dsimp only
    rw [hlists]
    rfl
  · intro p hp
    rw [read_list_eq hascii]
    exact IfHeader.read_list_ok ((get_chr_iff hascii (d := 40) (by decide)).mpr hp)

/-- A list that ends behind its `Not`, where the position passes the end. -/
theorem parse_if_header_bounded_not :
    parse_if_header { if_header := some (IfHeader.header_value "(Not") } = .ok [⟨none, []⟩] ∧
      ∃ conditions q,
        read_list (IfHeader.header_value "(Not") 0 = .ok (conditions, q) ∧ 0 < q := by
  have htext : (IfHeader.header_value "(Not").to_str = some "(Not".toList := by decide
  obtain ⟨hscan, hread⟩ := parse_if_header_bounded
    (show HeaderMap.if_header { if_header := some (IfHeader.header_value "(Not") } = some _ from rfl)
    htext
  exact ⟨hscan.trans (by decide), hread 0 (by decide)⟩

example : read_list (IfHeader.header_value "(Not") 0 = .ok ([], 5) := by decide

end Rshs.IfBytes
