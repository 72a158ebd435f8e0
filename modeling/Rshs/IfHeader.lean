/-
The `If` header of `webdav/ls.rs`: its conditions, its lists and the scanner.

The scanner works on the bytes of an accepted header value, all of them ASCII, so
a position in the text is a position in a list of characters. Its loops run on a
fuel: `Abort.running` is a loop that has not come to its end, and `Abort.panic` is
an index or a slice out of range or a failed debug assertion. `parse_if_header`
gives the scanner one more turn than the text has characters.

What the evaluation needs of the scanner is the shape of its conditions: a state
token or one `Not` around one (`parse_if_header_simple`).
-/
import Rshs.Webdav

set_option autoImplicit false

namespace Rshs.IfHeader

open Rshs.Webdav

/-! ## Types -/

inductive IfCondition
  | StateToken (t : String)
  | Not (inner : IfCondition)
deriving DecidableEq

structure IfList where
  resource_tag : Option (List Char)
  conditions : List IfCondition
deriving DecidableEq

/-- The token of a non-negated state token. -/
def IfCondition.positive : IfCondition → Option String
  | .StateToken t => some t
  | .Not _ => none

/-- All non-negated state tokens of a list. -/
def IfList.positive_tokens (l : IfList) : List String := l.conditions.filterMap IfCondition.positive

def no_lock : String := "DAV:no-lock"

/-- Whether the list names an actual lock token, negated or not. -/
def IfList.has_lock_token (l : IfList) : Bool :=
  l.conditions.any fun
    | .StateToken t => t ≠ no_lock
    | .Not (.StateToken t) => t ≠ no_lock
    | .Not (.Not _) => false

/-! ## The scanner -/

/-- How a scan can fail to return. -/
inductive Abort
  | panic
  | running
deriving DecidableEq

/-- `u8::is_ascii_whitespace`: space, tab, line feed, carriage return and form feed. -/
def is_ascii_whitespace (c : Char) : Bool :=
  c = ' ' || c = '\t' || c = '\n' || c = '\r' || c = Char.ofNat 12

section Scan

variable (bytes : List Char)

/-- The loop of `skip_ws`, one byte a turn. -/
def skip_ws_loop : ℕ → ℕ → ℕ
  | 0, p => p
  | fuel + 1, p =>
    match bytes[p]? with
    | some c => if is_ascii_whitespace c then skip_ws_loop fuel (p + 1) else p
    | none => p

/-- The first position from `p` on that is no white space. -/
def skip_ws (p : ℕ) : ℕ := skip_ws_loop bytes (bytes.length - p) p

/-- The text up to the next `>` and the position after it. -/
def read_angle_bracket (p : ℕ) : Except Abort (Option (String × ℕ)) :=
  if bytes[p]? ≠ some '<' then .error .panic
  else
    let start := p + 1
    if bytes.length < start then .error .panic
    else
      match (bytes.drop start).findIdx? (· = '>') with
      | none => .ok none
      | some e => .ok (some (String.ofList ((bytes.drop start).take e), start + e + 1))

/-- Whether a `Not` stands at `p`, and the position of what it negates. -/
def read_not (p : ℕ) : Bool × ℕ :=
  if "Not".toList.isPrefixOf (bytes.drop p) then
    match bytes[p + 3]? with
    | none => (true, skip_ws bytes (p + 3))
    | some c =>
      if is_ascii_whitespace c ∨ c = '<' ∨ c = '(' then (true, skip_ws bytes (p + 3))
      else (false, p)
  else (false, p)

/-- The loop of `read_list`: conditions up to the closing parenthesis. -/
def read_list_loop : ℕ → ℕ → List IfCondition → Except Abort (List IfCondition × ℕ)
  | 0, _, _ => .error .running
  | fuel + 1, p, conditions =>
    let p := skip_ws bytes p
    match bytes[p]? with
    | none => .ok (conditions, p)
    | some ')' => .ok (conditions, p + 1)
    | some _ =>
      let (negated, p) := read_not bytes p
      if bytes[p]? = some '<' then
        match read_angle_bracket bytes p with
        | .error a => .error a
        | .ok none => .ok (conditions, p)
        | .ok (some (token, new_p)) =>
          let cond := IfCondition.StateToken token
          read_list_loop fuel new_p (conditions ++ [if negated then .Not cond else cond])
      else read_list_loop fuel (p + 1) conditions

/-- `read_list`: its `debug_assert` that it stands at a `(` is a panic here. -/
def read_list (p : ℕ) : Except Abort (List IfCondition × ℕ) :=
  if bytes[p]? ≠ some '(' then .error .panic
  else read_list_loop bytes (bytes.length + 1) (p + 1) []

/-- The lists after a resource tag. -/
def tagged_loop (tag : String) : ℕ → ℕ → List IfList → Except Abort (List IfList × ℕ)
  | 0, _, _ => .error .running
  | fuel + 1, pos, lists =>
    if bytes[pos]? = some '(' then
      match read_list bytes pos with
      | .error a => .error a
      | .ok (conditions, new_pos) =>
        tagged_loop tag fuel (skip_ws bytes new_pos) (lists ++ [⟨some tag.toList, conditions⟩])
    else .ok (lists, pos)

/-- The loop of `parse_if_header`: a tag with its lists, or one untagged list, a turn. -/
def parse_loop : ℕ → ℕ → List IfList → Except Abort (List IfList)
  | 0, _, _ => .error .running
  | fuel + 1, pos, lists =>
    if bytes.length ≤ pos then .ok lists
    else
      let pos := skip_ws bytes pos
      match bytes[pos]? with
      | none => .ok lists
      | some '<' =>
        match read_angle_bracket bytes pos with
        | .error a => .error a
        | .ok none => .ok lists
        | .ok (some (tag, new_pos)) =>
          let pos := skip_ws bytes new_pos
          if bytes[pos]? = some '(' then
            match tagged_loop bytes tag (bytes.length + 1) pos lists with
            | .error a => .error a
            | .ok (lists, pos) => parse_loop fuel pos lists
          else parse_loop fuel pos (lists ++ [⟨none, [.StateToken tag]⟩])
      | some '(' =>
        match read_list bytes pos with
        | .error a => .error a
        | .ok (conditions, new_pos) =>
          parse_loop fuel (skip_ws bytes new_pos) (lists ++ [⟨none, conditions⟩])
      | some _ => parse_loop fuel (pos + 1) lists

end Scan

/-- The scanner on the text of a header value. -/
def scan_if (text : List Char) : Except Abort (List IfList) :=
  parse_loop text (text.length + 1) 0 []

/-- `parse_if_header`. -/
def parse_if_header (headers : HeaderMap) : List IfList :=
  match headers.if_header.bind HeaderValue.to_str with
  | none => []
  | some text => (scan_if text).toOption.getD []

/-- The header value of a text. -/
def header_value (s : String) : HeaderValue := s.toList.map (fun c => UInt8.ofNat c.toNat)

example : parse_if_header { if_header := some (header_value "</p> (<t1> Not <DAV:no-lock>) (<t2>)") }
    = [⟨some ['/', 'p'], [.StateToken "t1", .Not (.StateToken "DAV:no-lock")]⟩,
       ⟨some ['/', 'p'], [.StateToken "t2"]⟩] := by decide

/-! ## The scanner returns

Every turn of every loop moves the position forward, so a loop with more fuel than
text left comes to its end, and no position is ever used out of range. -/

section Total

variable (bytes : List Char)

theorem skip_ws_loop_ge (fuel p : ℕ) : p ≤ skip_ws_loop bytes fuel p := by
  induction fuel generalizing p with
  | zero => exact le_refl p
  | succ fuel ih =>
    unfold skip_ws_loop
    split
    · split
      · exact le_trans (Nat.le_succ p) (ih (p + 1))
      · exact le_refl p
    · exact le_refl p

/-- White space is skipped forward only. -/
theorem skip_ws_ge (p : ℕ) : p ≤ skip_ws bytes p := skip_ws_loop_ge bytes _ p

/-- Reading `Not` never goes back. -/
theorem read_not_ge (p : ℕ) : p ≤ (read_not bytes p).2 := by
  have hskip : p ≤ skip_ws bytes (p + 3) := le_trans (by omega) (skip_ws_ge bytes (p + 3))
  unfold read_not
  split
  · split
    · exact hskip
    · split
      · exact hskip
      · exact le_refl p
  · exact le_refl p

variable {bytes}

/-- At a `<` the reader returns, and it moves on when it has found the end. -/
theorem read_angle_bracket_ok {p : ℕ} (h : bytes[p]? = some '<') :
    ∃ r, read_angle_bracket bytes p = .ok r ∧ ∀ t q, r = some (t, q) → p < q := by
  have hlt : p < bytes.length := (List.getElem?_eq_some_iff.mp h).1
  unfold read_angle_bracket
  rw [if_neg (not_not.mpr h)]
  dsimp only
  rw [if_neg (by omega)]
  split
  · exact ⟨none, rfl, by simp⟩
  · rename_i e _
    refine ⟨_, rfl, fun t q hq => ?_⟩
    cases hq
    omega

/-- The loop ends within the bytes that are left, and never goes back. -/
theorem read_list_loop_ok {fuel p : ℕ} (conds : List IfCondition) (hpos : 0 < fuel)
    (hfuel : bytes.length < fuel + p) :
    ∃ out q, read_list_loop bytes fuel p conds = .ok (out, q) ∧ p ≤ q := by
  induction fuel generalizing p conds with
  | zero => omega
  | succ fuel ih =>
    have hws := skip_ws_ge bytes p
    have hnot := read_not_ge bytes (skip_ws bytes p)
    rw [read_list_loop]
    dsimp only
    split
    · exact ⟨_, _, rfl, hws⟩
    · exact ⟨_, _, rfl, by omega⟩
    · -- a character of the list: the next turn starts further on
      rename_i hsome
      have hlt : skip_ws bytes p < bytes.length := (List.getElem?_eq_some_iff.mp hsome).1
      split
      · rename_i hangle
        obtain ⟨r, hr, hadv⟩ := read_angle_bracket_ok hangle
        rw [hr]
        rcases r with _ | ⟨token, q⟩
        · exact ⟨_, _, rfl, by omega⟩
        · have hq := hadv token q rfl
          dsimp only
          obtain ⟨out, q', h1, h2⟩ := ih _ (p := q) (by omega) (by omega)
          exact ⟨out, q', h1, by omega⟩
      · obtain ⟨out, q', h1, h2⟩ := ih conds (p := (read_not bytes (skip_ws bytes p)).2 + 1)
          (by omega) (by omega)
        exact ⟨out, q', h1, by omega⟩

/-- At a `(` a list is read without a panic, and the position moves on. -/
theorem read_list_ok {p : ℕ} (h : bytes[p]? = some '(') :
    ∃ out q, read_list bytes p = .ok (out, q) ∧ p < q := by
  unfold read_list
  rw [if_neg (not_not.mpr h)]
  exact read_list_loop_ok [] (by omega) (by omega)

/-- The lists behind a tag are read within the bytes that are left. -/
theorem tagged_loop_ok {tag : String} {fuel pos : ℕ} (lists : List IfList) (hpos : 0 < fuel)
    (hfuel : bytes.length < fuel + pos) :
    ∃ out q, tagged_loop bytes tag fuel pos lists = .ok (out, q) ∧ pos ≤ q := by
  induction fuel generalizing pos lists with
  | zero => omega
  | succ fuel ih =>
    rw [tagged_loop]
    split
    · rename_i hopen
      have hlt : pos < bytes.length := (List.getElem?_eq_some_iff.mp hopen).1
      obtain ⟨conds, q, hread, hq⟩ := read_list_ok hopen
      have hws := skip_ws_ge bytes q
      rw [hread]
      dsimp only
      have hfuel' : bytes.length < fuel + skip_ws bytes q := by omega
      obtain ⟨out, q', h1, h2⟩ := ih (lists ++ [⟨some tag.toList, conds⟩]) (by omega) hfuel'
      exact ⟨out, q', h1, by omega⟩
    · exact ⟨lists, pos, rfl, le_refl pos⟩

/-- The whole header is read within its bytes. -/
theorem parse_loop_ok {fuel pos : ℕ} (lists : List IfList) (hpos : 0 < fuel)
    (hfuel : bytes.length < fuel + pos) : ∃ out, parse_loop bytes fuel pos lists = .ok out := by
  induction fuel generalizing pos lists with
  | zero => omega
  | succ fuel ih =>
    have hws := skip_ws_ge bytes pos
    rw [parse_loop]
    dsimp only
    split
    · exact ⟨lists, rfl⟩
    · split
      · exact ⟨lists, rfl⟩
      · rename_i hangle
        have hlt := (List.getElem?_eq_some_iff.mp hangle).1
        obtain ⟨r, hr, hadv⟩ := read_angle_bracket_ok hangle
        rw [hr]
        rcases r with _ | ⟨tag, q⟩
        · exact ⟨lists, rfl⟩
        · have hq := hadv tag q rfl
          have hws' := skip_ws_ge bytes q
          dsimp only
          split
          · have htag : bytes.length < bytes.length + 1 + skip_ws bytes q := by omega
            obtain ⟨out, q', h1, h2⟩ := tagged_loop_ok lists (Nat.succ_pos _) htag
            rw [h1]
            have hfuel' : bytes.length < fuel + q' := by omega
            exact ih out (by omega) hfuel'
          · exact ih _ (by omega) (by omega)
      · rename_i hopen
        have hlt := (List.getElem?_eq_some_iff.mp hopen).1
        obtain ⟨conds, q, hread, hq⟩ := read_list_ok hopen
        have hws' := skip_ws_ge bytes q
        rw [hread]
        exact ih _ (by omega) (by omega)
      · rename_i hsome
        have hlt := (List.getElem?_eq_some_iff.mp hsome).1
        exact ih lists (by omega) (by omega)

end Total

/-- **The scanner returns on every text.** -/
theorem scan_if_ok (text : List Char) : ∃ lists, scan_if text = .ok lists :=
  parse_loop_ok [] (by omega) (by omega)

/-! ## The shape of a scanned condition -/

/-- A state token, or one `Not` around one. -/
def IfCondition.Simple (c : IfCondition) : Prop :=
  ∃ t, c = .StateToken t ∨ c = .Not (.StateToken t)

/-- No condition of the list is a negation of a negation. -/
def IfList.Simple (l : IfList) : Prop := ∀ c ∈ l.conditions, c.Simple

section Simple

variable {bytes : List Char}

theorem read_list_loop_simple {fuel p : ℕ} {conds out : List IfCondition} {q : ℕ}
    (h : read_list_loop bytes fuel p conds = .ok (out, q)) (hc : ∀ c ∈ conds, c.Simple) :
    ∀ c ∈ out, c.Simple := by
  induction fuel generalizing p conds with
  | zero => simp [read_list_loop] at h
  | succ fuel ih =>
    rw [read_list_loop] at h
    dsimp only at h
    split at h
    · cases h
      exact hc
    · cases h
      exact hc
    · split at h
      · split at h
        · simp at h
        · cases h
          exact hc
        · rename_i token new_p _
          refine ih h (fun c hmem => ?_)
          -- the one place where a condition is built
          rcases List.mem_append.mp hmem with hold | hnew
          · exact hc c hold
          · rw [List.mem_singleton] at hnew
            subst hnew
            unfold IfCondition.Simple
            split
            · exact ⟨token, Or.inr rfl⟩
            · exact ⟨token, Or.inl rfl⟩
      · exact ih h hc

theorem read_list_simple {p q : ℕ} {out : List IfCondition}
    (h : read_list bytes p = .ok (out, q)) : ∀ c ∈ out, c.Simple := by
  unfold read_list at h
  split at h
  · simp at h
  · exact read_list_loop_simple h (by simp)

/-- A list of simple conditions joins simple lists. -/
theorem simple_concat {lists : List IfList} {tag : Option (List Char)} {conds : List IfCondition}
    (hl : ∀ l ∈ lists, l.Simple) (hc : ∀ c ∈ conds, c.Simple) :
    ∀ l ∈ lists ++ [⟨tag, conds⟩], l.Simple := by
  intro l hmem
  rcases List.mem_append.mp hmem with hold | hnew
  · exact hl l hold
  · rw [List.mem_singleton.mp hnew]
    exact hc

theorem tagged_loop_simple {tag : String} {fuel pos q : ℕ} {lists out : List IfList}
    (h : tagged_loop bytes tag fuel pos lists = .ok (out, q)) (hl : ∀ l ∈ lists, l.Simple) :
    ∀ l ∈ out, l.Simple := by
  induction fuel generalizing pos lists with
  | zero => simp [tagged_loop] at h
  | succ fuel ih =>
    rw [tagged_loop] at h
    split at h
    · split at h
      · simp at h
      · rename_i conds new_pos hread
        exact ih h (simple_concat hl (read_list_simple hread))
    · cases h
      exact hl

/-- Every list that the parser adds is simple: `read_not` reads one `Not` at most. -/
theorem parse_loop_simple {fuel pos : ℕ} {lists out : List IfList}
    (h : parse_loop bytes fuel pos lists = .ok out) (hl : ∀ l ∈ lists, l.Simple) :
    ∀ l ∈ out, l.Simple := by
  induction fuel generalizing pos lists with
  | zero => simp [parse_loop] at h
  | succ fuel ih =>
    rw [parse_loop] at h
    dsimp only at h
    split at h
    · cases h
      exact hl
    · split at h
      · cases h
        exact hl
      · -- a `<`: a resource tag, or a token that stands alone
        split at h
        · simp at h
        · cases h
          exact hl
        · rename_i tag new_pos _
          split at h
          · split at h
            · simp at h
            · rename_i htag
              exact ih h (tagged_loop_simple htag hl)
          · refine ih h (simple_concat hl (fun c hc => ?_))
            rw [List.mem_singleton.mp hc]
            exact ⟨tag, Or.inl rfl⟩
      · -- a `(`: an untagged list
        split at h
        · simp at h
        · rename_i hread
          exact ih h (simple_concat hl (read_list_simple hread))
      · exact ih h hl

end Simple

/-- Every condition of a parsed `If` header is a state token or a negated one. -/
theorem parse_if_header_simple (headers : HeaderMap) :
    ∀ l ∈ parse_if_header headers, l.Simple := by
  unfold parse_if_header
  split
  · simp
  · rename_i text _
    cases hscan : scan_if text with
    | error a => simp [Except.toOption]
    | ok lists =>
      simp only [Except.toOption, Option.getD_some]
      exact parse_loop_simple hscan (by simp)

end Rshs.IfHeader
