/-
The syntax of the `If` header, and the scanner as its inverse.

A header value is a sequence of lists, all of them untagged or all of them under a
resource tag. `Prints lists text` says that `text` is one way to write `lists`:
each list in parentheses, a token in angle brackets, `Not` before the token it
negates, a tag before each list or once before a run of lists that share it, and
any white space between these parts.

The scanner keeps a position in the whole text. `At bytes p rest` says what is left
from there on, so that a scan is described by the text it consumes: every lemma
takes one printed part off the front of `rest`.
-/
import Rshs.IfHeader

set_option autoImplicit false

namespace Rshs.IfHeader

open Rshs.Webdav

/-! ## The syntax -/

/-- The white space a header value can hold. -/
def Blank (w : List Char) : Prop := ∀ c ∈ w, c = ' ' ∨ c = '\t'

/-- Visible ASCII or spaces, without the bracket that would end it. -/
def Quotable (s : List Char) : Prop := ∀ c ∈ s, 32 ≤ c.toNat ∧ c.toNat < 127 ∧ c ≠ '>'

def quoted (s : List Char) : List Char := '<' :: (s ++ ['>'])

/-- A condition: a token, or `Not` and a token. -/
inductive PrintsCondition : IfCondition → List Char → Prop
  | token {t : String} (ht : Quotable t.toList) :
      PrintsCondition (.StateToken t) (quoted t.toList)
  | negated {t : String} {w : List Char} (ht : Quotable t.toList) (hw : Blank w) :
      PrintsCondition (.Not (.StateToken t)) ("Not".toList ++ (w ++ quoted t.toList))

/-- What stands between the parentheses of a list. -/
inductive PrintsConditions : List IfCondition → List Char → Prop
  | nil {w : List Char} (hw : Blank w) : PrintsConditions [] w
  | cons {c : IfCondition} {cs : List IfCondition} {w x y : List Char} (hw : Blank w)
      (hc : PrintsCondition c x) (hcs : PrintsConditions cs y) :
      PrintsConditions (c :: cs) (w ++ (x ++ y))

/-- The text of a list whose conditions are written `x`. -/
def parenthesized (x : List Char) : List Char := '(' :: (x ++ [')'])

/-- A sequence of lists without tags. -/
inductive PrintsUntagged : List IfList → List Char → Prop
  | nil {w : List Char} (hw : Blank w) : PrintsUntagged [] w
  | cons {cs : List IfCondition} {ls : List IfList} {w x y : List Char} (hw : Blank w)
      (hx : PrintsConditions cs x) (hls : PrintsUntagged ls y) :
      PrintsUntagged (⟨none, cs⟩ :: ls) (w ++ (parenthesized x ++ y))

/-- A sequence of tagged lists, read after the tag `cur`: the next list is under that
tag, or its own tag stands before it. -/
inductive PrintsTagged : Option (List Char) → List IfList → List Char → Prop
  | nil {cur : Option (List Char)} {w : List Char} (hw : Blank w) : PrintsTagged cur [] w
  | same {tag : List Char} {cs : List IfCondition} {ls : List IfList} {w x y : List Char}
      (hw : Blank w) (hx : PrintsConditions cs x) (hls : PrintsTagged (some tag) ls y) :
      PrintsTagged (some tag) (⟨some tag, cs⟩ :: ls) (w ++ (parenthesized x ++ y))
  | tag {cur : Option (List Char)} {tag : List Char} {cs : List IfCondition} {ls : List IfList}
      {w v x y : List Char} (hw : Blank w) (htag : Quotable tag) (hv : Blank v)
      (hx : PrintsConditions cs x) (hls : PrintsTagged (some tag) ls y) :
      PrintsTagged cur (⟨some tag, cs⟩ :: ls) (w ++ (quoted tag ++ (v ++ (parenthesized x ++ y))))

/-- `text` is one way to write `lists` as a header value. -/
def Prints (lists : List IfList) (text : List Char) : Prop :=
  PrintsUntagged lists text ∨ PrintsTagged none lists text

/-! ## Every sequence can be written -/

/-- A state token or one `Not` of a state token. -/
def IfCondition.Printable (c : IfCondition) : Prop :=
  ∃ t : String, Quotable t.toList ∧ (c = .StateToken t ∨ c = .Not (.StateToken t))

/-- The sequences of the syntax: all lists untagged, or all of them tagged. -/
structure Printable (lists : List IfList) : Prop where
  conditions : ∀ l ∈ lists, ∀ c ∈ l.conditions, c.Printable
  tags : (∀ l ∈ lists, l.resource_tag = none) ∨
    ∀ l ∈ lists, ∃ tag, l.resource_tag = some tag ∧ Quotable tag

theorem blank_nil : Blank [] := by simp [Blank]

theorem prints_conditions {cs : List IfCondition} (h : ∀ c ∈ cs, c.Printable) :
    ∃ x, PrintsConditions cs x := by
  induction cs with
  | nil => exact ⟨[], .nil blank_nil⟩
  | cons c cs ih =>
    obtain ⟨t, ht, hc⟩ := h c List.mem_cons_self
    obtain ⟨y, hy⟩ := ih (fun d hd => h d (List.mem_cons_of_mem c hd))
    rcases hc with rfl | rfl
    · exact ⟨_, .cons blank_nil (.token ht) hy⟩
    · exact ⟨_, .cons blank_nil (.negated ht blank_nil) hy⟩

/-- **Every printable sequence has a text.** -/
theorem prints_some {lists : List IfList} (h : Printable lists) : ∃ text, Prints lists text := by
  rcases h.tags with htags | htags
  · have hall : ∃ text, PrintsUntagged lists text := by
      induction lists with
      | nil => exact ⟨[], .nil blank_nil⟩
      | cons l ls ih =>
        obtain ⟨x, hx⟩ := prints_conditions (h.conditions l List.mem_cons_self)
        have hls : ∀ m ∈ ls, m.resource_tag = none :=
          fun m hm => htags m (List.mem_cons_of_mem l hm)
        obtain ⟨y, hy⟩ := ih
          ⟨fun m hm => h.conditions m (List.mem_cons_of_mem l hm), Or.inl hls⟩ hls
        have hl : l = ⟨none, l.conditions⟩ := by rw [← htags l List.mem_cons_self]
        rw [hl]
        exact ⟨_, .cons blank_nil hx hy⟩
    obtain ⟨text, htext⟩ := hall
    exact ⟨text, Or.inl htext⟩
  · have hall : ∀ cur, ∃ text, PrintsTagged cur lists text := by
      induction lists with
      | nil => exact fun cur => ⟨[], .nil blank_nil⟩
      | cons l ls ih =>
        intro cur
        obtain ⟨x, hx⟩ := prints_conditions (h.conditions l List.mem_cons_self)
        obtain ⟨tag, hl, htag⟩ := htags l List.mem_cons_self
        have hls : ∀ m ∈ ls, ∃ tag, m.resource_tag = some tag ∧ Quotable tag :=
          fun m hm => htags m (List.mem_cons_of_mem l hm)
        obtain ⟨y, hy⟩ := ih
          ⟨fun m hm => h.conditions m (List.mem_cons_of_mem l hm), Or.inr hls⟩ hls (some tag)
        have hl' : l = ⟨some tag, l.conditions⟩ := by rw [← hl]
        rw [hl']
        exact ⟨_, .tag blank_nil htag blank_nil hx hy⟩
    obtain ⟨text, htext⟩ := hall none
    exact ⟨text, Or.inr htext⟩

/-! ## A position as what is left -/

/-- At `p`, the rest of the text is `rest`. -/
def At (bytes : List Char) (p : ℕ) (rest : List Char) : Prop :=
  ∃ pre, bytes = pre ++ rest ∧ p = pre.length

section Scanned

variable {bytes rest : List Char} {p : ℕ}

theorem At.drop (h : At bytes p rest) : bytes.drop p = rest := by
  obtain ⟨pre, rfl, rfl⟩ := h
  simp

theorem At.length (h : At bytes p rest) : p + rest.length = bytes.length := by
  obtain ⟨pre, rfl, rfl⟩ := h
  simp

theorem At.advance {x : List Char} (h : At bytes p (x ++ rest)) :
    At bytes (p + x.length) rest := by
  obtain ⟨pre, rfl, rfl⟩ := h
  exact ⟨pre ++ x, by simp, by simp⟩

theorem At.get_cons {c : Char} (h : At bytes p (c :: rest)) : bytes[p]? = some c := by
  obtain ⟨pre, rfl, rfl⟩ := h
  simp

theorem At.get_nil (h : At bytes p []) : bytes[p]? = none := by
  obtain ⟨pre, rfl, rfl⟩ := h
  simp

theorem At.next {c : Char} (h : At bytes p (c :: rest)) : At bytes (p + 1) rest :=
  At.advance (x := [c]) h

/-- A text that does not begin with white space. -/
def Solid (rest : List Char) : Prop := ∀ c ∈ rest.head?, is_ascii_whitespace c = false

theorem solid_quoted (s t : List Char) : Solid (quoted s ++ t) := by
  simp [Solid, quoted, is_ascii_whitespace]

theorem solid_parenthesized (x t : List Char) : Solid (parenthesized x ++ t) := by
  simp [Solid, parenthesized, is_ascii_whitespace]

theorem solid_nil : Solid [] := by simp [Solid]

theorem solid_close (t : List Char) : Solid (')' :: t) := by simp [Solid, is_ascii_whitespace]

theorem blank_whitespace {w : List Char} (hw : Blank w) :
    ∀ c ∈ w, is_ascii_whitespace c = true := by
  intro c hc
  rcases hw c hc with rfl | rfl
  · rfl
  · rfl

theorem skip_ws_loop_at {w : List Char} {fuel : ℕ} (hw : Blank w) (hrest : Solid rest)
    (hat : At bytes p (w ++ rest)) (hfuel : w.length ≤ fuel) :
    skip_ws_loop bytes fuel p = p + w.length := by
  induction w generalizing p fuel with
  | nil =>
    -- the first character left, if there is one, is not white space
    rw [List.nil_append] at hat
    cases fuel with
    | zero => rfl
    | succ fuel =>
      rw [skip_ws_loop]
      cases rest with
      | nil => simp [hat.get_nil]
      | cons c rest =>
        have hc : is_ascii_whitespace c = false := hrest c (by simp)
        simp [hat.get_cons, hc]
  | cons c w ih =>
    cases fuel with
    | zero => simp at hfuel
    | succ fuel =>
      have hc : is_ascii_whitespace c = true := blank_whitespace hw c List.mem_cons_self
      have hw' : Blank w := fun d hd => hw d (List.mem_cons_of_mem c hd)
      simp only [List.length_cons, Nat.add_le_add_iff_right] at hfuel
      have hih := ih hw' hat.next hfuel
      rw [skip_ws_loop, hat.get_cons]
      simp only [hc, if_true, hih, List.length_cons]
      omega

/-- White space is skipped up to the next part. -/
theorem skip_ws_at {w : List Char} (hw : Blank w) (hrest : Solid rest)
    (hat : At bytes p (w ++ rest)) : At bytes (skip_ws bytes p) rest := by
  have hlen := hat.length
  rw [List.length_append] at hlen
  have hskip : skip_ws bytes p = p + w.length :=
    skip_ws_loop_at hw hrest hat (by omega)
  rw [hskip]
  exact hat.advance

/-- A quoted text is read up to its own bracket. -/
theorem read_angle_bracket_at {s : List Char} (hs : Quotable s)
    (hat : At bytes p (quoted s ++ rest)) :
    ∃ q, read_angle_bracket bytes p = .ok (some (String.ofList s, q)) ∧ At bytes q rest ∧
      p < q := by
  have hopen : At bytes p ('<' :: (s ++ '>' :: rest)) := by simpa [quoted] using hat
  have hget := hopen.get_cons
  have hdrop := hopen.next.drop
  have hlen := hopen.next.length
  have hfind : (s ++ '>' :: rest).findIdx? (· = '>') = some s.length := by
    rw [List.findIdx?_append]
    have hnone : s.findIdx? (· = '>') = none := by
      rw [List.findIdx?_eq_none_iff]
      intro c hc
      simpa using (hs c hc).2.2
    simp [hnone, List.findIdx?_cons]
  refine ⟨p + 1 + s.length + 1, ?_, ?_, by omega⟩
  · unfold read_angle_bracket
    rw [if_neg (not_not.mpr hget)]
    dsimp only
    rw [if_neg (by omega), hdrop, hfind]
    simp
  · exact (At.advance (x := s) hopen.next).next

/-! ## A list -/

theorem read_not_quoted {s : List Char} (hat : At bytes p (quoted s ++ rest)) :
    read_not bytes p = (false, p) := by
  unfold read_not
  rw [hat.drop]
  simp [quoted]

/-- `Not` is recognised by what follows it: white space or the bracket. -/
theorem read_not_negated {w s : List Char} (hw : Blank w)
    (hat : At bytes p ("Not".toList ++ (w ++ quoted s) ++ rest)) :
    ∃ q, read_not bytes p = (true, q) ∧ At bytes q (quoted s ++ rest) ∧ p ≤ q := by
  have hnot : At bytes p ("Not".toList ++ (w ++ (quoted s ++ rest))) := by simpa using hat
  have hafter : At bytes (p + 3) (w ++ (quoted s ++ rest)) := hnot.advance
  have hskip := skip_ws_at hw (solid_quoted s rest) hafter
  have hge := skip_ws_ge bytes (p + 3)
  refine ⟨skip_ws bytes (p + 3), ?_, hskip, by omega⟩
  unfold read_not
  rw [hnot.drop, if_pos (by simp)]
  cases w with
  | nil =>
    have hget : bytes[p + 3]? = some '<' := by
      have hopen : At bytes (p + 3) ('<' :: (s ++ '>' :: rest)) := by simpa [quoted] using hafter
      exact hopen.get_cons
    simp [hget]
  | cons c w =>
    have hget : bytes[p + 3]? = some c := hafter.get_cons
    have hc : is_ascii_whitespace c = true := blank_whitespace hw c List.mem_cons_self
    simp [hget, hc]

/-- The first turn of the loop, on a printed condition. -/
theorem read_list_loop_condition {c : IfCondition} {w x : List Char} (fuel : ℕ)
    (acc : List IfCondition) (hw : Blank w) (hc : PrintsCondition c x)
    (hat : At bytes p (w ++ (x ++ rest))) :
    ∃ q, read_list_loop bytes (fuel + 1) p acc = read_list_loop bytes fuel q (acc ++ [c]) ∧
      At bytes q rest ∧ p < q := by
  have hge := skip_ws_ge bytes p
  cases hc with
  | @token t ht =>
    have hskip := skip_ws_at hw (solid_quoted t.toList rest) hat
    obtain ⟨q, hread, hq, hlt⟩ := read_angle_bracket_at ht hskip
    have hget : bytes[skip_ws bytes p]? = some '<' := At.get_cons hskip
    refine ⟨q, ?_, hq, by omega⟩
    rw [read_list_loop]
    simp [hget, read_not_quoted hskip, hread]
  | @negated t v ht hv =>
    have hsolid : Solid ("Not".toList ++ (v ++ quoted t.toList) ++ rest) := by
      simp [Solid, is_ascii_whitespace]
    have hskip := skip_ws_at hw hsolid hat
    obtain ⟨n, hnot, hn, hpn⟩ := read_not_negated hv hskip
    obtain ⟨q, hread, hq, hlt⟩ := read_angle_bracket_at ht hn
    have hget : bytes[skip_ws bytes p]? = some 'N' := At.get_cons hskip
    have hopen : bytes[n]? = some '<' := At.get_cons hn
    refine ⟨q, ?_, hq, by omega⟩
    rw [read_list_loop]
    simp [hget, hnot, hopen, hread]

theorem read_list_loop_at {cs : List IfCondition} {x : List Char} (fuel : ℕ)
    (acc : List IfCondition) (hx : PrintsConditions cs x)
    (hat : At bytes p (x ++ ')' :: rest)) (hfuel : bytes.length < fuel + p) :
    ∃ q, read_list_loop bytes fuel p acc = .ok (acc ++ cs, q) ∧ At bytes q rest := by
  have hlen := hat.length
  simp only [List.length_append, List.length_cons] at hlen
  obtain ⟨fuel, rfl⟩ : ∃ f, fuel = f + 1 := ⟨fuel - 1, by omega⟩
  clear hlen
  induction hx generalizing p fuel acc with
  | @nil w hw =>
    have hskip := skip_ws_at hw (solid_close rest) hat
    refine ⟨skip_ws bytes p + 1, ?_, hskip.next⟩
    rw [read_list_loop]
    simp [hskip.get_cons]
  | @cons c cs w x y hw hc hcs ih =>
    have hat' : At bytes p (w ++ (x ++ (y ++ ')' :: rest))) := by simpa using hat
    obtain ⟨q, hturn, hq, hlt⟩ := read_list_loop_condition fuel acc hw hc hat'
    have hqlen := hq.length
    simp only [List.length_append, List.length_cons] at hqlen
    obtain ⟨fuel, rfl⟩ : ∃ f, fuel = f + 1 := ⟨fuel - 1, by omega⟩
    obtain ⟨r, hloop, hr⟩ := ih (acc ++ [c]) hq fuel (by omega)
    refine ⟨r, ?_, hr⟩
    rw [hturn, hloop, List.append_assoc, List.singleton_append]

/-- **A printed list is read as its conditions.** -/
theorem read_list_at {cs : List IfCondition} {x : List Char} (hx : PrintsConditions cs x)
    (hat : At bytes p (parenthesized x ++ rest)) :
    ∃ q, read_list bytes p = .ok (cs, q) ∧ At bytes q rest ∧ p < q := by
  have hopen : At bytes p ('(' :: (x ++ ')' :: rest)) := by simpa [parenthesized] using hat
  obtain ⟨q, hloop, hq⟩ := read_list_loop_at (bytes.length + 1) [] hx hopen.next (by omega)
  have hlen := hopen.length
  have hqlen := hq.length
  simp only [List.length_append, List.length_cons] at hlen
  refine ⟨q, ?_, hq, by omega⟩
  unfold read_list
  rw [if_neg (not_not.mpr hopen.get_cons), hloop, List.nil_append]

/-! ## A sequence of lists -/

theorem skip_ws_loop_stops {fuel : ℕ} (hfuel : bytes.length ≤ fuel + p) :
    ∀ c ∈ bytes[skip_ws_loop bytes fuel p]?, is_ascii_whitespace c = false := by
  induction fuel generalizing p with
  | zero =>
    rw [skip_ws_loop, List.getElem?_eq_none (by omega)]
    simp
  | succ fuel ih =>
    rw [skip_ws_loop]
    split
    · rename_i c hget
      split
      · exact ih (by omega)
      · rename_i hc
        rw [hget]
        simpa using hc
    · rename_i hget
      rw [hget]
      simp

/-- Skipping white space twice is skipping it once. -/
theorem skip_ws_idem (p : ℕ) : skip_ws bytes (skip_ws bytes p) = skip_ws bytes p := by
  have hstop : ∀ c ∈ bytes[skip_ws bytes p]?, is_ascii_whitespace c = false :=
    skip_ws_loop_stops (by omega)
  generalize skip_ws bytes p = q at hstop ⊢
  unfold skip_ws
  cases bytes.length - q with
  | zero => rfl
  | succ fuel =>
    rw [skip_ws_loop]
    split
    · rename_i c hget
      have hc : is_ascii_whitespace c = false := hstop c hget
      simp [hc]
    · rfl

/-- The loop skips white space itself, so it may as well start after it. -/
theorem parse_loop_skip (fuel p : ℕ) (acc : List IfList) :
    parse_loop bytes fuel (skip_ws bytes p) acc = parse_loop bytes fuel p acc := by
  cases fuel with
  | zero => rfl
  | succ fuel =>
    have hge := skip_ws_ge bytes p
    rw [parse_loop, parse_loop, skip_ws_idem]
    dsimp only
    by_cases hend : bytes.length ≤ skip_ws bytes p
    · rw [if_pos hend, List.getElem?_eq_none hend]
      simp
    · rw [if_neg hend, if_neg (by omega)]

theorem parse_loop_blank {w : List Char} {fuel : ℕ} (acc : List IfList) (hw : Blank w)
    (hat : At bytes p w) : parse_loop bytes (fuel + 1) p acc = .ok acc := by
  have hend : At bytes p (w ++ []) := by simpa using hat
  have hskip := skip_ws_at hw solid_nil hend
  rw [parse_loop]
  simp [hskip.get_nil]

theorem parse_loop_untagged {ls : List IfList} {y : List Char} {fuel : ℕ} (acc : List IfList)
    (hy : PrintsUntagged ls y) (hat : At bytes p y) (hfuel : bytes.length < fuel + p) :
    parse_loop bytes fuel p acc = .ok (acc ++ ls) := by
  have hlen := hat.length
  obtain ⟨fuel, rfl⟩ : ∃ f, fuel = f + 1 := ⟨fuel - 1, by omega⟩
  clear hlen
  induction hy generalizing p fuel acc with
  | nil hw => rw [parse_loop_blank acc hw hat, List.append_nil]
  | @cons cs ls w x y hw hx hls ih =>
    have hskip := skip_ws_at hw (solid_parenthesized x y) hat
    obtain ⟨q, hread, hq, hlt⟩ := read_list_at hx hskip
    have hge := skip_ws_ge bytes p
    have hlen := hskip.length
    have hqlen := hq.length
    have hopen : bytes[skip_ws bytes p]? = some '(' := At.get_cons hskip
    simp only [parenthesized, List.length_append, List.length_cons] at hlen
    obtain ⟨fuel, rfl⟩ : ∃ f, fuel = f + 1 := ⟨fuel - 1, by omega⟩
    have hturn : parse_loop bytes (fuel + 1 + 1) p acc =
        parse_loop bytes (fuel + 1) (skip_ws bytes q) (acc ++ [⟨none, cs⟩]) := by
      rw [parse_loop, if_neg (by omega)]
      simp [hopen, hread]
    rw [hturn, parse_loop_skip, ih _ hq fuel (by omega), List.append_assoc, List.singleton_append]

/-- The lists under one tag: the loop takes those that are written without a tag of
their own and stops at the next tag or the end. -/
theorem tagged_loop_at {tag : List Char} {ls : List IfList} {y : List Char} (fuel : ℕ)
    (acc : List IfList) (hy : PrintsTagged (some tag) ls y) (hat : At bytes p y)
    (hfuel : bytes.length < fuel + p) :
    ∃ run left z q, ls = run ++ left ∧
      tagged_loop bytes (String.ofList tag) fuel (skip_ws bytes p) acc = .ok (acc ++ run, q) ∧
      PrintsTagged none left z ∧ At bytes q z ∧ p ≤ q := by
  have hlen := hat.length
  have hge := skip_ws_ge bytes p
  obtain ⟨fuel, rfl⟩ : ∃ f, fuel = f + 1 := ⟨fuel - 1, by omega⟩
  clear hlen
  generalize hcur : some tag = cur at hy
  -- on the text: a list under the same tag goes on, a tag or the end stops the loop
  induction hy generalizing p fuel acc with
  | @nil cur w hw =>
    have hend : At bytes p (w ++ []) := by simpa using hat
    have hskip := skip_ws_at hw solid_nil hend
    refine ⟨[], [], [], skip_ws bytes p, rfl, ?_, .nil blank_nil, hskip, hge⟩
    rw [tagged_loop]
    simp [hskip.get_nil]
  | @same tag' cs ls w x y hw hx hls ih =>
    obtain rfl : tag = tag' := Option.some_inj.mp hcur
    have hskip := skip_ws_at hw (solid_parenthesized x y) hat
    obtain ⟨q, hread, hq, hlt⟩ := read_list_at hx hskip
    have hlen := hskip.length
    have hqlen := hq.length
    have hopen : bytes[skip_ws bytes p]? = some '(' := At.get_cons hskip
    simp only [parenthesized, List.length_append, List.length_cons] at hlen
    obtain ⟨fuel, rfl⟩ : ∃ f, fuel = f + 1 := ⟨fuel - 1, by omega⟩
    obtain ⟨run, left, z, r, hls', hloop, hleft, hr, hqr⟩ :=
      ih (acc ++ [⟨some tag, cs⟩]) hq (skip_ws_ge bytes q) fuel (by omega) rfl
    refine ⟨⟨some tag, cs⟩ :: run, left, z, r, ?_, ?_, hleft, hr, by omega⟩
    · rw [hls', List.cons_append]
    · rw [tagged_loop, if_pos hopen, hread]
      dsimp only
      rw [String.toList_ofList, hloop, List.append_assoc, List.singleton_append]
  | @tag cur tag' cs ls w v x y hw htag hv hx hls =>
    have hskip := skip_ws_at hw (solid_quoted tag' _) hat
    have hopen : bytes[skip_ws bytes p]? = some '<' := At.get_cons hskip
    refine ⟨[], _, _, skip_ws bytes p, rfl, ?_, .tag blank_nil htag hv hx hls, hskip, hge⟩
    rw [tagged_loop]
    simp [hopen]

theorem parse_loop_tagged {ls : List IfList} {y : List Char} {fuel : ℕ} (acc : List IfList)
    (hy : PrintsTagged none ls y) (hat : At bytes p y) (hfuel : bytes.length < fuel + p) :
    parse_loop bytes fuel p acc = .ok (acc ++ ls) := by
  induction fuel generalizing p ls y acc with
  | zero =>
    have hlen := hat.length
    omega
  | succ fuel ih =>
    cases hy with
    | nil hw => rw [parse_loop_blank acc hw hat, List.append_nil]
    | @tag _ tag cs ls w v x y hw htag hv hx hls =>
      have hskip := skip_ws_at hw (solid_quoted tag _) hat
      obtain ⟨q, hread, hq, hlt⟩ := read_angle_bracket_at htag hskip
      have hge := skip_ws_ge bytes p
      have hqge := skip_ws_ge bytes q
      have hlen := hat.length
      have hqlen := hq.length
      have hopen : bytes[skip_ws bytes p]? = some '<' := At.get_cons hskip
      have hlist : bytes[skip_ws bytes q]? = some '(' :=
        At.get_cons (skip_ws_at hv (solid_parenthesized x y) hq)
      -- the first list stands under the tag just read
      obtain ⟨run, left, z, r, hls', hloop, hleft, hr, hqr⟩ :=
        tagged_loop_at (bytes.length + 1) acc (.same hv hx hls) hq (by omega)
      have hturn : parse_loop bytes (fuel + 1) p acc =
          parse_loop bytes fuel r (acc ++ run) := by
        rw [parse_loop, if_neg (by omega)]
        simp [hopen, hread, hlist, hloop]
      rw [hturn, ih _ hleft hr (by omega), hls', List.append_assoc]

end Scanned

/-- The scanner inverts the syntax. -/
theorem scan_if_prints {lists : List IfList} {text : List Char} (h : Prints lists text) :
    scan_if text = .ok lists := by
  have hstart : At text 0 text := ⟨[], rfl, rfl⟩
  unfold scan_if
  rcases h with h | h
  · exact parse_loop_untagged [] h hstart (by omega)
  · exact parse_loop_tagged [] h hstart (by omega)

/-! ## As a header value -/

/-- A character a header value can hold as text. -/
def Carried (c : Char) : Prop := (32 ≤ c.toNat ∧ c.toNat < 127) ∨ c = '\t'

theorem blank_carried {w : List Char} (h : Blank w) : ∀ c ∈ w, Carried c := by
  intro c hc
  rcases h c hc with rfl | rfl
  · exact Or.inl (by decide)
  · exact Or.inr rfl

theorem quoted_carried {s : List Char} (h : Quotable s) : ∀ c ∈ quoted s, Carried c := by
  intro c hc
  simp only [quoted, List.mem_cons, List.mem_append, List.not_mem_nil, or_false] at hc
  rcases hc with rfl | hc | rfl
  · exact Or.inl (by decide)
  · exact Or.inl ⟨(h c hc).1, (h c hc).2.1⟩
  · exact Or.inl (by decide)

theorem carried_append {s t : List Char} (hs : ∀ c ∈ s, Carried c) (ht : ∀ c ∈ t, Carried c) :
    ∀ c ∈ s ++ t, Carried c := by
  intro c hc
  rcases List.mem_append.mp hc with h | h
  · exact hs c h
  · exact ht c h

theorem conditions_carried {cs : List IfCondition} {x : List Char} (h : PrintsConditions cs x) :
    ∀ c ∈ parenthesized x, Carried c := by
  have hx : ∀ c ∈ x, Carried c := by
    induction h with
    | nil hw => exact blank_carried hw
    | cons hw hc _ ih =>
      refine carried_append (blank_carried hw) (carried_append ?_ ih)
      cases hc with
      | token ht => exact quoted_carried ht
      | negated ht hv =>
        have hnot : ∀ c ∈ "Not".toList, Carried c := by
          unfold Carried
          exact Text.forall_mem_of_all (by decide)
        exact carried_append hnot (carried_append (blank_carried hv) (quoted_carried ht))
  have hopen : ∀ c ∈ ['('], Carried c := by simp [Carried]
  have hclose : ∀ c ∈ [')'], Carried c := by simp [Carried]
  exact carried_append hopen (carried_append hx hclose)

theorem prints_carried {lists : List IfList} {text : List Char} (h : Prints lists text) :
    ∀ c ∈ text, Carried c := by
  rcases h with h | h
  · induction h with
    | nil hw => exact blank_carried hw
    | cons hw hx _ ih =>
      exact carried_append (blank_carried hw) (carried_append (conditions_carried hx) ih)
  · generalize (none : Option (List Char)) = cur at h
    induction h with
    | nil hw => exact blank_carried hw
    | same hw hx _ ih =>
      exact carried_append (blank_carried hw) (carried_append (conditions_carried hx) ih)
    | tag hw htag hv hx _ ih =>
      exact carried_append (blank_carried hw) (carried_append (quoted_carried htag)
        (carried_append (blank_carried hv) (carried_append (conditions_carried hx) ih)))

/-- The bytes of such a text are a header value that reads back as the text. -/
theorem to_str_header_value {text : List Char} (h : ∀ c ∈ text, Carried c) :
    (header_value (String.ofList text)).to_str = some text := by
  have hlow : ∀ c ∈ text, (UInt8.ofNat c.toNat).toNat = c.toNat := by
    intro c hc
    rcases h c hc with hv | rfl
    · rw [UInt8.toNat_ofNat', Nat.mod_eq_of_lt (by omega)]
    · rfl
  unfold HeaderValue.to_str header_value
  rw [String.toList_ofList, if_pos]
  · rw [List.map_map, Option.some_inj]
    have hback : ∀ c ∈ text,
        ((fun b : UInt8 => Char.ofNat b.toNat) ∘ fun c => UInt8.ofNat c.toNat) c = id c := by
      intro c hc
      rw [Function.comp_apply, hlow c hc, Char.ofNat_toNat, id_eq]
    rw [List.map_congr_left hback, List.map_id]
  · simp only [List.all_map, List.all_eq_true, Function.comp_apply]
    intro c hc
    have hbyte := hlow c hc
    rcases h c hc with hv | rfl
    · simp [UInt8.le_iff_toNat_le, UInt8.lt_iff_toNat_lt, hbyte, hv.1, hv.2]
    · rfl

/-- **The `If` header parser inverts the `If` header syntax.** However a sequence of
lists is written, the parser returns exactly that sequence. -/
theorem parse_if_header_prints {lists : List IfList} {text : List Char} {headers : HeaderMap}
    (h : Prints lists text) (hif : headers.if_header = some (header_value (String.ofList text))) :
    parse_if_header headers = lists := by
  unfold parse_if_header
  rw [hif, Option.bind_some, to_str_header_value (prints_carried h)]
  dsimp only
  rw [scan_if_prints h]
  rfl

/-- Two lists under one tag, the second with a `Not` that touches its bracket. -/
theorem parse_if_header_prints_p :
    parse_if_header { if_header := some (header_value "</p>(<t1>) (Not<t2>\t<u>)") } =
      [⟨some ['/', 'p'], [.StateToken "t1"]⟩,
        ⟨some ['/', 'p'], [.Not (.StateToken "t2"), .StateToken "u"]⟩] := by
  have hq : Quotable ['/', 'p'] := Text.forall_mem_of_all (by decide)
  have ht1 : Quotable "t1".toList := Text.forall_mem_of_all (by decide)
  have ht2 : Quotable "t2".toList := Text.forall_mem_of_all (by decide)
  have hu : Quotable "u".toList := Text.forall_mem_of_all (by decide)
  have hnil : Blank [] := List.forall_mem_nil _
  have hspace : Blank [' '] := Text.forall_mem_of_all (by decide)
  have htab : Blank ['\t'] := Text.forall_mem_of_all (by decide)
  have hfirst : PrintsConditions [.StateToken "t1"] "<t1>".toList :=
    .cons hnil (.token ht1) (.nil hnil)
  have hsecond : PrintsConditions [.Not (.StateToken "t2"), .StateToken "u"]
      "Not<t2>\t<u>".toList :=
    .cons hnil (.negated ht2 hnil)
      (.cons htab (.token hu) (.nil hnil))
  have hvalue : ({ if_header := some (header_value "</p>(<t1>) (Not<t2>\t<u>)") } :
      HeaderMap).if_header =
        some (header_value (String.ofList "</p>(<t1>) (Not<t2>\t<u>)".toList)) := by simp
  refine parse_if_header_prints (Or.inr ?_) hvalue
  · exact .tag hnil hq hnil hfirst
      (.same hspace hsecond (.nil hnil))

end Rshs.IfHeader
