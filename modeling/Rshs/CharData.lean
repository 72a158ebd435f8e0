/-
Character data of an element: how a value is written, what it denotes, and what
`decode_xml_char_refs` and the reader make of it.

A value is written as a list of pieces: literal characters, character references,
references to the five predefined entities, CDATA sections. `value` is what the pieces
denote: a literal line end of either kind is a line feed, a referenced character is
itself. `decoded` is the text after `decode_xml_char_refs`, and `content_events` are
the reader's events for it: one event for each run of text between the other pieces,
trimmed of white space, none for a blank run.

The text a PROPPATCH keeps is that of the first such event (`kept_text`). It denotes
the value exactly when the value is one run and the run is left as it is
(`kept_text_iff`).
-/
import Rshs.PropBody

set_option autoImplicit false

namespace Rshs.CharData

open Rshs.PropBody

/-! ## Pieces -/

/-- The predefined entities. -/
inductive Entity
  | amp
  | lt
  | gt
  | quot
  | apos
deriving DecidableEq

/-- The names of the predefined entities. -/
def Entity.name : Entity → String
  | .amp => "amp"
  | .lt => "lt"
  | .gt => "gt"
  | .quot => "quot"
  | .apos => "apos"

/-- The characters that they stand for. -/
def Entity.char : Entity → Char
  | .amp => '&'
  | .lt => '<'
  | .gt => '>'
  | .quot => '"'
  | .apos => Char.ofNat 39

/-- A character, a reference to one, a predefined entity, or a CDATA section. -/
inductive Piece
  | Lit (c : Char)
  | CharRef (hex : Bool) (digits : List Char)
  | EntityRef (e : Entity)
  | CData (content : List Char)
deriving DecidableEq

def radix (hex : Bool) : ℕ := if hex then 16 else 10

/-- The character a reference is to, none when it is to no character. -/
def referenced (hex : Bool) (digits : List Char) : List Char :=
  (char_of_digits (radix hex) digits).toList

/-- What a CDATA section is written between. -/
def CDATA_START : List Char := "<![CDATA[".toList

/-- What ends a CDATA section. -/
def CDATA_END : List Char := "]]>".toList

/-- A piece as it is written. -/
def Piece.text : Piece → List Char
  | .Lit c => [c]
  | .CharRef hex digits => '&' :: '#' :: ((if hex then ['x'] else []) ++ digits ++ [';'])
  | .EntityRef e => '&' :: (e.name.toList ++ [';'])
  | .CData content => CDATA_START ++ content ++ CDATA_END

/-- A piece with its character reference decoded. -/
def Piece.decoded : Piece → List Char
  | .CharRef hex digits => referenced hex digits
  | p => p.text

/-- The text of the pieces as it stands in the document. -/
def text (ps : List Piece) : List Char := ps.flatMap Piece.text

/-- Their text with the character references decoded. -/
def decoded (ps : List Piece) : List Char := ps.flatMap Piece.decoded

/-- A character that may stand in a document. -/
def xml_char (c : Char) : Bool :=
  c = '\t' || c = '\n' || c = '\r' || (0x20 ≤ c.toNat && c.toNat ≠ 0xFFFE && c.toNat ≠ 0xFFFF)

/-- What well-formedness asks of a piece. -/
def Piece.Legal : Piece → Prop
  | .Lit c => xml_char c = true ∧ c ≠ '<' ∧ c ≠ '&'
  | .CharRef hex digits => digits.head? ≠ some '+' ∧
      ∃ c, char_of_digits (radix hex) digits = some c ∧ xml_char c = true
  | .EntityRef _ => True
  | .CData content => (∀ c ∈ content, xml_char c = true) ∧ ¬ CDATA_END <:+: content

/-- Well-formed character data. -/
structure Legal (ps : List Piece) : Prop where
  pieces : ∀ p ∈ ps, p.Legal
  no_close : ¬ [.Lit ']', .Lit ']', .Lit '>'] <:+: ps

/-! ## What is denoted -/

/-- A character of a text whose line ends are normalized, before the one that follows. -/
def eol_char (c : Char) (next : Option Char) : List Char :=
  if c = '\r' then (if next = some '\n' then [] else ['\n']) else [c]

/-- A text with its line ends normalized. -/
def eol : List Char → List Char
  | [] => []
  | c :: s => eol_char c s.head? ++ eol s

/-- The characters a piece denotes, before the piece that follows. -/
def Piece.chars (p : Piece) (next : Option Piece) : List Char :=
  match p with
  | .Lit c => if c = '\r' then (if next = some (.Lit '\n') then [] else ['\n']) else [c]
  | .CharRef hex digits => referenced hex digits
  | .EntityRef e => [e.char]
  | .CData content => eol content

/-- The value some pieces denote. -/
def value : List Piece → List Char
  | [] => []
  | p :: ps => p.chars ps.head? ++ value ps

theorem value_cons (p : Piece) (ps : List Piece) : value (p :: ps) = p.chars ps.head? ++ value ps :=
  rfl

/-- A character as a writer escapes it in text. -/
def escape_char (c : Char) : Piece :=
  if c = '<' then .EntityRef .lt
  else if c = '>' then .EntityRef .gt
  else if c = '&' then .EntityRef .amp
  else if c = Char.ofNat 39 then .EntityRef .apos
  else if c = '"' then .EntityRef .quot
  else .Lit c

/-- `escape`, of the writer. -/
def escape (s : List Char) : List Piece := s.map escape_char

/-! ## What the reader delivers -/

/-- The white space of a document. -/
def xml_space (c : Char) : Bool := c = ' ' || c = '\t' || c = '\n' || c = '\r'

/-- `trim_text(true)`: white space at both ends is cut. -/
def trim_text (s : List Char) : List Char := (s.dropWhile xml_space).rdropWhile xml_space

/-- The event of a run of text, none when it is blank. -/
def text_event (s : List Char) : List (ReadEvent Tag) :=
  if trim_text s = [] then [] else [.Text (trim_text s)]

/-- The events of some pieces, after a run of text that has been read. -/
def content_events (run : List Char) : List Piece → List (ReadEvent Tag)
  | [] => text_event run
  | .Lit c :: ps => content_events (run ++ [c]) ps
  | .CharRef hex digits :: ps => content_events (run ++ referenced hex digits) ps
  | .EntityRef e :: ps => text_event run ++ .GeneralRef e.name :: content_events [] ps
  | .CData content :: ps => text_event run ++ .CData content :: content_events [] ps

def text_of : ReadEvent Tag → Option (List Char)
  | .Text content => some content
  | _ => none

/-- The first text of the events, the empty one when there is none. -/
def kept_text (ps : List Piece) : List Char :=
  ((content_events [] ps).findSome? text_of).getD []

example :
    let ps : List Piece := [.Lit ' ', .Lit 'a', .CharRef true ['4', '2'], .EntityRef .amp, .Lit 'c']
    (value ps, kept_text ps) = (" aB&c".toList, "aB".toList) := by
  decide

/-! ## `decode_xml_char_refs`, piece by piece -/

/-- What is behind a reference is shorter than what it was found in. -/
theorem find_ref_length {s before rest : List Char} (h : find_ref s = some (before, rest)) :
    rest.length < s.length := by
  induction s generalizing before rest with
  | nil => cases h
  | cons c s ih =>
    unfold find_ref at h
    split at h
    · cases h
    · rename_i heq
      rw [heq]
      simp only [Option.some.injEq, Prod.mk.injEq] at h
      rw [h.2]
      simp only [List.length_cons]
      omega
    · rename_i c' s' hne heq
      obtain ⟨⟨before', rest'⟩, hp, hpair⟩ := Option.map_eq_some_iff.mp h
      simp only [Prod.mk.injEq] at hpair
      rw [List.cons.injEq] at heq
      rw [← heq.2] at hp
      have hlt := ih hp
      rw [← hpair.2]
      simp only [List.length_cons]
      omega

/-- The loop needs no more rounds than the text has characters. -/
theorem decode_loop_fuel {n m : ℕ} {s : List Char} (hn : s.length ≤ n) (hm : s.length ≤ m) :
    decode_loop n s = decode_loop m s := by
  induction n generalizing m s with
  | zero =>
    have hs : s = [] := List.eq_nil_of_length_eq_zero (by omega)
    rw [hs]
    cases m with
    | zero => rfl
    | succ m => rfl
  | succ n ih =>
    cases m with
    | zero =>
      have hs : s = [] := List.eq_nil_of_length_eq_zero (by omega)
      rw [hs]
      rfl
    | succ m =>
      unfold decode_loop
      cases hfind : find_ref s with
      | none => rfl
      | some p =>
        obtain ⟨before, rest⟩ := p
        have hlt := find_ref_length hfind
        dsimp only
        -- what follows the marker, without the `x` of a hexadecimal reference
        generalize hrest : (if rest.head? = some 'x' ∨ rest.head? = some 'X' then rest.tail
          else rest) = rest'
        have hle : rest'.length ≤ rest.length := by
          rw [← hrest]
          split
          · rw [List.length_tail]
            omega
          · exact le_rfl
        cases hsplit : Str.split_once ';' rest' with
        | none => rfl
        | some q =>
          obtain ⟨num_str, after⟩ := q
          have hparts := congrArg List.length (Str.split_once_some hsplit).2
          rw [List.length_append, List.length_cons] at hparts
          dsimp only
          rw [@ih m after (by omega) (by omega)]

/-- A character that begins no reference stays. -/
theorem decode_cons {c : Char} {s : List Char} (h : c ≠ '&' ∨ s.head? ≠ some '#') :
    decode_xml_char_refs (c :: s) = c :: decode_xml_char_refs s := by
  have hfind : find_ref (c :: s) = (find_ref s).map fun p => (c :: p.1, p.2) := by
    conv_lhs => unfold find_ref
    split
    · rename_i heq
      cases heq
    · rename_i heq
      rw [List.cons.injEq] at heq
      rw [heq.2] at h
      rcases h with h | h
      · exact absurd heq.1 h
      · exact absurd rfl h
    · rename_i heq
      rw [List.cons.injEq] at heq
      rw [← heq.1, ← heq.2]
  unfold decode_xml_char_refs
  rw [List.length_cons, @decode_loop_fuel s.length (s.length + 1) s le_rfl (by omega)]
  unfold decode_loop
  rw [hfind]
  cases find_ref s with
  | none => rfl
  | some p =>
    obtain ⟨before, rest⟩ := p
    simp only [Option.map_some]
    split
    · rw [List.cons_append, List.cons_append]
    · rw [List.cons_append]

/-- Text without an ampersand is decoded as it is. -/
theorem decode_append {a b : List Char} (h : '&' ∉ a) :
    decode_xml_char_refs (a ++ b) = a ++ decode_xml_char_refs b := by
  induction a with
  | nil => rfl
  | cons c a ih =>
    rw [List.mem_cons, not_or] at h
    rw [List.cons_append, decode_cons (Or.inl (Ne.symm h.1)), ih h.2, List.cons_append]

/-- A text without references stays. -/
theorem decode_plain {a : List Char} (h : '&' ∉ a) : decode_xml_char_refs a = a := by
  have happend := @decode_append a [] h
  rw [List.append_nil] at happend
  rw [happend]
  exact List.append_nil a

/-! ### Digits -/

theorem mapM_value {f : Char → Option ℕ} {digits : List Char} {ds : List ℕ}
    (h : digits.mapM f = some ds) : ∀ d ∈ digits, ∃ n, f d = some n := by
  have hsome : (digits.mapM f).isSome = true := by
    rw [h]
    rfl
  intro d hd
  exact Option.isSome_iff_exists.mp (Str.mapM_isSome_iff.mp hsome d hd)

/-- The digits of a reference are figures, and letters when it is hexadecimal. -/
theorem digits_plain {hex : Bool} {digits : List Char} {c : Char}
    (hplus : digits.head? ≠ some '+') (h : char_of_digits (radix hex) digits = some c) :
    ∀ d ∈ digits, d ≠ '&' ∧ d ≠ ';' ∧ d ≠ 'X' ∧ d ≠ 'x' := by
  unfold char_of_digits at h
  dsimp only at h
  split at h
  · exact absurd rfl hplus
  · split at h
    · cases h
    · split at h
      · cases h
      · rename_i ds hds
        intro d hd
        obtain ⟨n, hn⟩ := mapM_value hds d hd
        -- none of the four is a digit in any radix
        refine ⟨?_, ?_, ?_, ?_⟩
        · rintro rfl
          simp at hn
        · rintro rfl
          simp at hn
        · rintro rfl
          simp at hn
        · rintro rfl
          simp at hn

/-- A reference is replaced by its character. -/
theorem decode_ref {hex : Bool} {digits rest : List Char} (h : (Piece.CharRef hex digits).Legal) :
    decode_xml_char_refs ((Piece.CharRef hex digits).text ++ rest)
      = referenced hex digits ++ decode_xml_char_refs rest := by
  obtain ⟨hplus, c, hc, -⟩ := h
  have hdigits := digits_plain hplus hc
  have hsemi : ';' ∉ digits := by
    intro hmem
    exact (hdigits _ hmem).2.1 rfl
  have hsplit : Str.split_once ';' (digits ++ ';' :: rest) = some (digits, rest) :=
    Str.split_once_append hsemi
  have htext : (Piece.CharRef hex digits).text ++ rest
      = '&' :: '#' :: ((if hex then ['x'] else []) ++ (digits ++ ';' :: rest)) := by
    simp [Piece.text]
  -- the digits do not begin with the mark of a hexadecimal number
  have hhead : ∀ x, x = 'x' ∨ x = 'X' → (digits ++ ';' :: rest).head? ≠ some x := by
    intro x hx
    cases digits with
    | nil => rcases hx with rfl | rfl <;> simp
    | cons d digits =>
      have hd := hdigits d List.mem_cons_self
      rw [List.cons_append, List.head?_cons, ne_eq, Option.some.injEq]
      rcases hx with rfl | rfl
      · exact hd.2.2.2
      · exact hd.2.2.1
  rw [htext]
  unfold decode_xml_char_refs
  rw [List.length_cons]
  conv_lhs => unfold decode_loop
  have hfind : find_ref ('&' :: '#' :: ((if hex then ['x'] else []) ++ (digits ++ ';' :: rest)))
      = some ([], (if hex then ['x'] else []) ++ (digits ++ ';' :: rest)) := by
    unfold find_ref
    rfl
  rw [hfind]
  have hfuel : ∀ n, rest.length ≤ n → decode_loop n rest = decode_loop rest.length rest :=
    fun n hn => decode_loop_fuel hn le_rfl
  cases hex with
  | true =>
    simp only [if_true, List.singleton_append, List.head?_cons, true_or, List.tail_cons, hsplit,
      List.nil_append]
    rw [hfuel _ (by simp only [List.length_cons, List.length_append]; omega)]
    rfl
  | false =>
    have hx := hhead 'x' (Or.inl rfl)
    have hX := hhead 'X' (Or.inr rfl)
    simp only [Bool.false_eq_true, if_false, List.nil_append, hx, hX, or_self, hsplit]
    rw [hfuel _ (by simp only [List.length_cons, List.length_append]; omega)]
    rfl

/-- **`decode_xml_char_refs` is local**: the pieces are decoded where they stand, when no
CDATA section has an ampersand. -/
theorem decode_pieces {ps : List Piece} {rest : List Char} (h : ∀ p ∈ ps, p.Legal)
    (hcdata : ∀ content, .CData content ∈ ps → '&' ∉ content) :
    decode_xml_char_refs (text ps ++ rest) = decoded ps ++ decode_xml_char_refs rest := by
  induction ps with
  | nil => rfl
  | cons p ps ih =>
    have hih := ih (fun q hq => h q (List.mem_cons_of_mem _ hq))
      (fun content hmem => hcdata content (List.mem_cons_of_mem _ hmem))
    have hp := h p List.mem_cons_self
    unfold text decoded at *
    rw [List.flatMap_cons, List.flatMap_cons, List.append_assoc, List.append_assoc]
    cases p with
    | Lit c =>
      have hc : '&' ∉ [c] := by
        rw [List.mem_singleton]
        exact Ne.symm hp.2.2
      rw [show (Piece.Lit c).text = [c] from rfl, decode_append hc, hih]
      rfl
    | CharRef hex digits =>
      rw [decode_ref hp, hih]
      rfl
    | EntityRef e =>
      -- the ampersand is followed by a letter
      have htext : (Piece.EntityRef e).text = '&' :: (e.name.toList ++ [';']) := rfl
      have hplain : '&' ∉ e.name.toList ++ [';'] := by
        cases e <;> decide
      have hhead : ∀ t, (e.name.toList ++ [';'] ++ t).head? ≠ some '#' := by
        intro t
        cases e <;> simp [Entity.name]
      rw [htext, List.cons_append, decode_cons (Or.inr (hhead _)), decode_append hplain, hih]
      rfl
    | CData content =>
      have hplain : '&' ∉ (Piece.CData content).text := by
        have hc := hcdata content List.mem_cons_self
        simp only [Piece.text, List.mem_append, not_or]
        exact ⟨⟨by decide, hc⟩, by decide⟩
      rw [decode_append hplain, hih]
      rfl

/-! ## Line ends -/

/-- A text is not emptied by its line ends. -/
theorem eol_eq_nil {s : List Char} : eol s = [] ↔ s = [] := by
  constructor
  · intro h
    induction s with
    | nil => rfl
    | cons c s ih =>
      unfold eol at h
      rw [List.append_eq_nil_iff] at h
      have hs := ih h.2
      rw [hs] at h
      have hc := h.1
      unfold eol_char at hc
      split at hc
      · simp at hc
      · simp at hc
  · intro h
    rw [h]
    rfl

/-- No carriage return is left. -/
theorem mem_eol_char {c d : Char} {next : Option Char} (h : d ∈ eol_char c next) :
    d ≠ '\r' ∧ (d = c ∨ d = '\n') := by
  unfold eol_char at h
  split at h
  · split at h
    · cases h
    · rw [List.mem_singleton] at h
      rw [h]
      exact ⟨by decide, Or.inr rfl⟩
  · rename_i hc
    rw [List.mem_singleton] at h
    rw [h]
    exact ⟨hc, Or.inl rfl⟩

/-- A text with normalized line ends has no carriage return, and no character that was
not there but the line feed. -/
theorem mem_eol {d : Char} {s : List Char} (h : d ∈ eol s) : d ≠ '\r' ∧ (d ∈ s ∨ d = '\n') := by
  induction s with
  | nil => cases h
  | cons c s ih =>
    unfold eol at h
    rcases List.mem_append.mp h with h | h
    · obtain ⟨hcr, hd⟩ := mem_eol_char h
      refine ⟨hcr, hd.imp_left ?_⟩
      intro heq
      rw [heq]
      exact List.mem_cons_self
    · obtain ⟨hcr, hd⟩ := ih h
      exact ⟨hcr, hd.imp_left (List.mem_cons_of_mem c)⟩

theorem mem_eol_of {d : Char} {s : List Char} (h : d ∈ s) (hd : d ≠ '\r') : d ∈ eol s := by
  induction s with
  | nil => cases h
  | cons c s ih =>
    unfold eol
    rcases List.mem_cons.mp h with rfl | h
    · apply List.mem_append_left
      unfold eol_char
      rw [if_neg hd]
      exact List.mem_singleton_self _
    · exact List.mem_append_right _ (ih h)

/-- No character begins or ends the text that is white space. -/
def Tight (s : List Char) : Prop :=
  (∀ c, s.head? = some c → xml_space c = false) ∧ ∀ c, s.getLast? = some c → xml_space c = false

/-- The first character is white space before as after. -/
theorem eol_head {s : List Char} {c : Char} (h : s.head? = some c) :
    ∃ d, (eol s).head? = some d ∧ xml_space d = xml_space c := by
  induction s generalizing c with
  | nil => cases h
  | cons b s ih =>
    rw [List.head?_cons, Option.some.injEq] at h
    subst h
    unfold eol eol_char
    by_cases hcr : b = '\r'
    · rw [if_pos hcr, hcr]
      by_cases hnext : s.head? = some '\n'
      · -- the line feed that follows is what the text begins with
        rw [if_pos hnext, List.nil_append]
        obtain ⟨d, hd, hspace⟩ := ih hnext
        exact ⟨d, hd, hspace⟩
      · rw [if_neg hnext]
        exact ⟨'\n', rfl, by decide⟩
    · rw [if_neg hcr]
      exact ⟨b, rfl, rfl⟩

/-- So is the last. -/
theorem eol_last {s : List Char} {c : Char} (h : s.getLast? = some c) :
    ∃ d, (eol s).getLast? = some d ∧ xml_space d = xml_space c := by
  induction s with
  | nil => cases h
  | cons b s ih =>
    by_cases hs : s = []
    · rw [hs, List.getLast?_singleton, Option.some.injEq] at h
      rw [hs]
      unfold eol eol_char
      by_cases hcr : b = '\r'
      · rw [if_pos hcr, ← h, hcr]
        exact ⟨'\n', rfl, by decide⟩
      · rw [if_neg hcr, ← h]
        exact ⟨b, rfl, rfl⟩
    · have hlast : s.getLast? = some c := by
        rw [← h]
        obtain ⟨x, xs, rfl⟩ := List.exists_cons_of_ne_nil hs
        rfl
      obtain ⟨d, hd, hspace⟩ := ih hlast
      refine ⟨d, ?_, hspace⟩
      unfold eol
      rw [List.getLast?_append, hd]
      rfl

/-- Line ends change nothing in whether there is white space at the ends. -/
theorem tight_eol {s : List Char} : Tight (eol s) ↔ Tight s := by
  constructor
  · intro h
    constructor
    · intro c hc
      obtain ⟨d, hd, hspace⟩ := eol_head hc
      rw [← hspace]
      exact h.1 d hd
    · intro c hc
      obtain ⟨d, hd, hspace⟩ := eol_last hc
      rw [← hspace]
      exact h.2 d hd
  · intro h
    constructor
    · intro d hd
      cases hs : s.head? with
      | none =>
        rw [List.head?_eq_none_iff] at hs
        rw [hs] at hd
        cases hd
      | some c =>
        obtain ⟨e, he, hspace⟩ := eol_head hs
        rw [hd, Option.some.injEq] at he
        rw [he, hspace]
        exact h.1 c hs
    · intro d hd
      cases hs : s.getLast? with
      | none =>
        rw [List.getLast?_eq_none_iff] at hs
        rw [hs] at hd
        cases hd
      | some c =>
        obtain ⟨e, he, hspace⟩ := eol_last hs
        rw [hd, Option.some.injEq] at he
        rw [he, hspace]
        exact h.2 c hs

theorem eol_length_append (s t : List Char) :
    (eol s).length ≤ (eol (s ++ t)).length ∧ (eol t).length ≤ (eol (s ++ t)).length := by
  induction s with
  | nil =>
    rw [List.nil_append]
    exact ⟨by simp [eol], le_rfl⟩
  | cons c s ih =>
    have hcons : ∀ u, (eol (c :: u)).length = (eol_char c u.head?).length + (eol u).length := by
      intro u
      exact List.length_append
    rw [List.cons_append, hcons, hcons]
    refine ⟨?_, by omega⟩
    by_cases hs : s = []
    · -- the last character of the first part leaves at most one
      subst hs
      have hone : (eol_char c none).length ≤ 1 := by
        unfold eol_char
        split <;> simp
      have hmore : 0 < (eol (c :: t)).length := by
        rw [List.length_pos_iff, ne_eq, eol_eq_nil]
        exact List.cons_ne_nil c t
      rw [hcons] at hmore
      simp only [List.head?_nil, List.nil_append, eol, List.length_nil]
      omega
    · have hhead : (s ++ t).head? = s.head? := List.head?_append_of_ne_nil s hs
      rw [hhead]
      omega

/-! ### Trimming -/

/-- The trimmed text is part of the text. -/
theorem trim_infix (s : List Char) : ∃ a b, s = a ++ (trim_text s ++ b) := by
  unfold trim_text
  refine ⟨s.takeWhile xml_space, (s.dropWhile xml_space).rtakeWhile xml_space, ?_⟩
  rw [List.rdropWhile_append_rtakeWhile, List.takeWhile_append_dropWhile]

theorem eol_trim_length (s : List Char) : (eol (trim_text s)).length ≤ (eol s).length := by
  obtain ⟨a, b, hs⟩ := trim_infix s
  have hinner := (eol_length_append (trim_text s) b).1
  have houter := (eol_length_append a (trim_text s ++ b)).2
  rw [← hs] at houter
  omega

/-- It has no white space at its ends. -/
theorem trim_tight (s : List Char) : Tight (trim_text s) := by
  constructor
  · intro c hc
    obtain ⟨cs, hcs⟩ := List.head?_eq_some_iff.mp hc
    exact Str.head_stripped hcs
  · intro c hc
    have hne : trim_text s ≠ [] := by
      intro hnil
      rw [hnil] at hc
      cases hc
    have hlast := List.rdropWhile_last_not xml_space (s.dropWhile xml_space) hne
    rw [List.getLast?_eq_some_getLast hne, Option.some.injEq] at hc
    unfold trim_text at hc
    rw [hc] at hlast
    simpa using hlast

/-- A text without white space at its ends is not trimmed. -/
theorem trim_of_tight {s : List Char} (h : Tight s) : trim_text s = s := by
  have hleft : s.dropWhile xml_space = s := by
    cases s with
    | nil => rfl
    | cons c s =>
      have hc := h.1 c rfl
      exact List.dropWhile_cons_of_neg (by rw [hc]; exact Bool.false_ne_true)
  unfold trim_text
  rw [hleft, List.rdropWhile_eq_self_iff]
  intro hne
  have hlast := h.2 _ (List.getLast?_eq_some_getLast hne)
  rw [hlast]
  exact Bool.false_ne_true

/-! ## Runs of text -/

/-- A piece of a run of text. -/
def Piece.IsText : Piece → Prop
  | .Lit _ | .CharRef _ _ => True
  | .EntityRef _ | .CData _ => False

/-- A list of pieces is runs of text with other pieces between them. -/
theorem runs_induction {motive : List Piece → Prop}
    (last : ∀ run, (∀ p ∈ run, p.IsText) → motive run)
    (cut : ∀ run sep rest, (∀ p ∈ run, p.IsText) → ¬ sep.IsText → motive rest →
      motive (run ++ sep :: rest)) (ps : List Piece) : motive ps := by
  -- with the part of the first run that has been read
  have hread : ∀ run, (∀ p ∈ run, p.IsText) → motive (run ++ ps) := by
    induction ps with
    | nil =>
      intro run hrun
      rw [List.append_nil]
      exact last run hrun
    | cons p ps ih =>
      intro run hrun
      by_cases hp : p.IsText
      · have hmore : ∀ q ∈ run ++ [p], q.IsText := by
          intro q hq
          rcases List.mem_append.mp hq with hq | hq
          · exact hrun q hq
          · rw [List.mem_singleton] at hq
            rw [hq]
            exact hp
        have hrest := ih (run ++ [p]) hmore
        rw [List.append_assoc] at hrest
        exact hrest
      · apply cut run p ps hrun hp
        exact ih [] (by simp)
  exact hread [] (by simp)

section Run

variable {run : List Piece}

/-- Pieces that are text are collected into one event. -/
theorem content_events_run (hrun : ∀ p ∈ run, p.IsText) (read : List Char) (ps : List Piece) :
    content_events read (run ++ ps) = content_events (read ++ decoded run) ps := by
  induction run generalizing read with
  | nil =>
    rw [List.nil_append, decoded, List.flatMap_nil, List.append_nil]
  | cons p run ih =>
    have hih := ih (fun q hq => hrun q (List.mem_cons_of_mem _ hq))
    have hdecoded : decoded (p :: run) = p.decoded ++ decoded run := rfl
    rw [List.cons_append, hdecoded, ← List.append_assoc, ← hih]
    have hp := hrun p List.mem_cons_self
    cases p with
    | Lit c => rfl
    | CharRef hex digits => rfl
    | EntityRef e => exact absurd hp id
    | CData content => exact absurd hp id

/-- The event of a piece between runs. -/
def Piece.event : Piece → ReadEvent Tag
  | .EntityRef e => .GeneralRef e.name
  | .CData content => .CData content
  | .Lit _ | .CharRef _ _ => .Other

theorem text_of_event (p : Piece) : text_of p.event = none := by
  cases p <;> rfl

/-- A piece that is none ends the text before it. -/
theorem content_events_cut {sep : Piece} (hsep : ¬ sep.IsText) (read : List Char)
    (rest : List Piece) :
    content_events read (sep :: rest) = text_event read ++ sep.event :: content_events [] rest := by
  cases sep with
  | Lit c => exact absurd trivial hsep
  | CharRef hex digits => exact absurd trivial hsep
  | EntityRef e => rfl
  | CData content => rfl

/-- Of one run of text, all of it is kept, trimmed. -/
theorem kept_run (hrun : ∀ p ∈ run, p.IsText) : kept_text run = trim_text (decoded run) := by
  have hevents := content_events_run hrun [] []
  rw [List.append_nil, List.nil_append] at hevents
  unfold kept_text
  rw [hevents]
  unfold content_events text_event
  split
  · rename_i hblank
    rw [hblank]
    rfl
  · rfl

/-- Of several, the first that trimming does not empty. -/
theorem kept_cut (hrun : ∀ p ∈ run, p.IsText) {sep : Piece} (hsep : ¬ sep.IsText)
    (rest : List Piece) :
    kept_text (run ++ sep :: rest)
      = if trim_text (decoded run) = [] then kept_text rest else trim_text (decoded run) := by
  unfold kept_text
  rw [content_events_run hrun, content_events_cut hsep, List.nil_append, List.findSome?_append,
    List.findSome?_cons, text_of_event]
  unfold text_event
  split
  · rfl
  · rfl

/-- The value of the pieces is read on both sides of such a piece. -/
theorem value_append_cut (hrun : ∀ p ∈ run, p.IsText) {sep : Piece} (hsep : ¬ sep.IsText)
    (rest : List Piece) : value (run ++ sep :: rest) = value run ++ value (sep :: rest) := by
  induction run with
  | nil => rfl
  | cons p run ih =>
    have hnext : p.chars (run ++ sep :: rest).head? = p.chars run.head? := by
      cases run with
      | nil =>
        -- a line feed does not stand for itself across the cut
        have hlf : sep ≠ .Lit '\n' := by
          intro heq
          rw [heq] at hsep
          exact hsep trivial
        cases p with
        | Lit c => simp [Piece.chars, hlf]
        | CharRef hex digits => rfl
        | EntityRef e => rfl
        | CData content => rfl
      | cons q run => rfl
    rw [List.cons_append]
    unfold value
    rw [hnext, ih (fun q hq => hrun q (List.mem_cons_of_mem _ hq)), List.append_assoc]
    rfl

end Run

/-! ## What no piece is missing from -/

/-- What stands for no character is an empty CDATA section, or a return before a line feed. -/
theorem of_chars_nil {p : Piece} (h : p.Legal) {next : Option Piece}
    (hnil : p.chars next = []) :
    p = .CData [] ∨ (p = .Lit '\r' ∧ next = some (.Lit '\n')) := by
  cases p with
  | Lit c =>
    unfold Piece.chars at hnil
    dsimp only at hnil
    split at hnil
    · rename_i hc
      split at hnil
      · rename_i hnext
        rw [hc]
        exact Or.inr ⟨rfl, hnext⟩
      · cases hnil
    · cases hnil
  | CharRef hex digits =>
    obtain ⟨-, c, hc, -⟩ := h
    unfold Piece.chars referenced at hnil
    dsimp only at hnil
    rw [hc] at hnil
    cases hnil
  | EntityRef e => cases hnil
  | CData content =>
    have hcontent : content = [] := eol_eq_nil.mp hnil
    rw [hcontent]
    exact Or.inl rfl

/-- Pieces that denote nothing are empty CDATA sections. -/
theorem of_value_nil {ps : List Piece} (h : ∀ p ∈ ps, p.Legal) (hnil : value ps = []) :
    ps = List.replicate ps.length (.CData []) := by
  induction ps with
  | nil => rfl
  | cons p ps ih =>
    unfold value at hnil
    rw [List.append_eq_nil_iff] at hnil
    have hps := ih (fun q hq => h q (List.mem_cons_of_mem _ hq)) hnil.2
    rcases of_chars_nil (h p List.mem_cons_self) hnil.1 with hp | ⟨-, hnext⟩
    · rw [hp, List.length_cons, List.replicate_succ, ← hps]
    · rw [hps] at hnext
      have hmem := List.mem_of_mem_head? hnext
      have heq := List.eq_of_mem_replicate hmem
      cases heq

/-- A character that a piece always stands for is in the value. -/
theorem mem_value {p : Piece} {ps : List Piece} (hp : p ∈ ps) {c : Char}
    (hc : ∀ next, c ∈ p.chars next) : c ∈ value ps := by
  induction ps with
  | nil => cases hp
  | cons q ps ih =>
    unfold value
    rcases List.mem_cons.mp hp with rfl | hp
    · exact List.mem_append_left _ (hc _)
    · exact List.mem_append_right _ (ih hp)

/-! ## Text without line ends -/

/-- A literal carriage return leaves a line feed. -/
theorem lf_of_cr {ps : List Piece} (h : .Lit '\r' ∈ ps) : '\n' ∈ value ps := by
  induction ps with
  | nil => cases h
  | cons p ps ih =>
    rw [value_cons]
    rcases List.mem_cons.mp h with rfl | h
    · by_cases hnext : ps.head? = some (.Lit '\n')
      · -- the line feed that follows
        apply List.mem_append_right
        apply mem_value (List.mem_of_mem_head? hnext)
        intro next
        exact List.mem_singleton_self _
      · apply List.mem_append_left
        unfold Piece.chars
        dsimp only
        rw [if_pos rfl, if_neg hnext]
        exact List.mem_singleton_self _
    · exact List.mem_append_right _ (ih h)

/-- A run without carriage returns is decoded to its value. -/
theorem decoded_eq_value {run : List Piece} (htext : ∀ p ∈ run, p.IsText)
    (hcr : .Lit '\r' ∉ run) : decoded run = value run := by
  induction run with
  | nil => rfl
  | cons p run ih =>
    rw [List.mem_cons, not_or] at hcr
    have hp : p.decoded = p.chars run.head? := by
      have hptext := htext p List.mem_cons_self
      cases p with
      | Lit c =>
        unfold Piece.chars
        dsimp only
        rw [if_neg (fun h => hcr.1 (by rw [h]))]
        rfl
      | CharRef hex digits => rfl
      | EntityRef e => exact absurd hptext id
      | CData content => exact absurd hptext id
    rw [value_cons, ← ih (fun q hq => htext q (List.mem_cons_of_mem p hq)) hcr.2, ← hp]
    rfl

/-- References to entities are left, and are longer than what they denote. -/
theorem decoded_length {ps : List Piece} (hcdata : ∀ content, .CData content ∉ ps) :
    (value ps).length ≤ (decoded ps).length ∧
      ((value ps).length = (decoded ps).length → ∀ p ∈ ps, p.IsText) := by
  induction ps with
  | nil =>
    refine ⟨le_rfl, ?_⟩
    intro _ p hp
    cases hp
  | cons p ps ih =>
    obtain ⟨hle, htext⟩ := ih (fun content hmem => hcdata content (List.mem_cons_of_mem p hmem))
    have hlen : (decoded (p :: ps)).length = p.decoded.length + (decoded ps).length := by
      unfold decoded
      rw [List.flatMap_cons, List.length_append]
    rw [value_cons, List.length_append, hlen]
    have hp : (p.chars ps.head?).length ≤ p.decoded.length ∧
        ((p.chars ps.head?).length = p.decoded.length → p.IsText) := by
      cases p with
      | Lit c =>
        refine ⟨?_, fun _ => trivial⟩
        unfold Piece.chars Piece.decoded Piece.text
        dsimp only
        split
        · split <;> simp
        · simp
      | CharRef hex digits => exact ⟨le_rfl, fun _ => trivial⟩
      | EntityRef e =>
        have hlong : 1 < (Piece.EntityRef e).decoded.length := by
          cases e <;> decide
        have hone : ((Piece.EntityRef e).chars ps.head?).length = 1 := rfl
        refine ⟨by omega, ?_⟩
        intro heq
        omega
      | CData content => exact absurd List.mem_cons_self (hcdata content)
    refine ⟨by omega, ?_⟩
    intro heq q hq
    rcases List.mem_cons.mp hq with rfl | hq
    · exact hp.2 (by omega)
    · exact htext (by omega) q hq

/-! ## Line ends that are made by decoding -/

/-- A reference to a line feed comes next, after a literal carriage return. -/
def JoinsNext (p : Piece) (ps : List Piece) : Prop :=
  p = .Lit '\r' ∧
    ∃ hex digits, ps.head? = some (.CharRef hex digits) ∧ referenced hex digits = ['\n']

/-- A literal carriage return is followed by a reference to a line feed, somewhere. -/
def Joins : List Piece → Prop
  | [] => False
  | p :: ps => JoinsNext p ps ∨ Joins ps

/-- A piece that is text is one character, literal or referenced. -/
theorem decoded_text {p : Piece} (htext : p.IsText) (hlegal : p.Legal) :
    ∃ c, p.decoded = [c] ∧ (p = .Lit c ∨ ∃ hex digits, p = .CharRef hex digits ∧
      referenced hex digits = [c]) := by
  cases p with
  | Lit c => exact ⟨c, rfl, Or.inl rfl⟩
  | CharRef hex digits =>
    obtain ⟨-, c, hc, -⟩ := hlegal
    have href : referenced hex digits = [c] := by
      unfold referenced
      rw [hc]
      rfl
    exact ⟨c, href, Or.inr ⟨hex, digits, rfl, href⟩⟩
  | EntityRef e => exact absurd htext id
  | CData content => exact absurd htext id

section Ends

variable {run : List Piece}

/-- What a run begins with when it is decoded. -/
theorem decoded_head (htext : ∀ p ∈ run, p.IsText) (hlegal : ∀ p ∈ run, p.Legal) :
    (decoded run).head? = some '\n' ↔ run.head? = some (.Lit '\n') ∨
      ∃ hex digits, run.head? = some (.CharRef hex digits) ∧ referenced hex digits = ['\n'] := by
  cases run with
  | nil => simp [decoded]
  | cons p run =>
    obtain ⟨c, hdecoded, hp⟩ := decoded_text (htext p List.mem_cons_self)
      (hlegal p List.mem_cons_self)
    have hhead : (decoded (p :: run)).head? = some c := by
      unfold decoded
      rw [List.flatMap_cons, hdecoded]
      rfl
    rw [hhead, List.head?_cons]
    rcases hp with hp | ⟨hex, digits, hp, href⟩
    · rw [hp]
      simp
    · rw [hp]
      simp only [Option.some.injEq, reduceCtorEq, Piece.CharRef.injEq, false_or]
      constructor
      · intro hc
        rw [hc] at href
        exact ⟨hex, digits, ⟨rfl, rfl⟩, href⟩
      · rintro ⟨hex', digits', ⟨rfl, rfl⟩, href'⟩
        rw [href, List.singleton_inj] at href'
        exact href'

/-- One piece of a run: decoding leaves what it denotes, unless it joins the next one. -/
theorem eol_run_step {p : Piece} (htext : ∀ q ∈ p :: run, q.IsText)
    (hlegal : ∀ q ∈ p :: run, q.Legal)
    (hcr : ∀ hex digits, .CharRef hex digits ∈ p :: run → referenced hex digits ≠ ['\r']) :
    ∃ e v, eol (decoded (p :: run)) = e ++ eol (decoded run) ∧ value (p :: run) = v ++ value run ∧
      ((e = v ∧ ¬ JoinsNext p run) ∨ (e = [] ∧ v = ['\n'] ∧ JoinsNext p run)) := by
  obtain ⟨c, hdecoded, hp⟩ := decoded_text (htext p List.mem_cons_self)
    (hlegal p List.mem_cons_self)
  have heol : eol (decoded (p :: run)) = eol_char c (decoded run).head? ++ eol (decoded run) := by
    unfold decoded
    rw [List.flatMap_cons, hdecoded]
    rfl
  refine ⟨_, _, heol, rfl, ?_⟩
  have hhead := decoded_head (fun q hq => htext q (List.mem_cons_of_mem p hq))
    (fun q hq => hlegal q (List.mem_cons_of_mem p hq))
  -- only a carriage return could join the next piece
  by_cases hc : c = '\r'
  · -- a reference to a carriage return is ruled out
    have hlit : p = .Lit '\r' := by
      rcases hp with hp | ⟨hex, digits, hp, href⟩
      · rw [hp, hc]
      · rw [hc] at href
        rw [hp] at hcr
        exact absurd href (hcr hex digits List.mem_cons_self)
    rw [hlit, hc]
    unfold eol_char Piece.chars
    dsimp only
    rw [if_pos rfl, if_pos rfl]
    -- before a literal line feed the return is dropped in both readings
    by_cases hnext : run.head? = some (.Lit '\n')
    · rw [if_pos (hhead.mpr (Or.inl hnext)), if_pos hnext]
      apply Or.inl
      refine ⟨rfl, ?_⟩
      rintro ⟨-, hex, digits, hcharref, -⟩
      rw [hnext] at hcharref
      cases hcharref
    -- before a reference to one it is dropped after decoding only
    · rw [if_neg hnext]
      by_cases hjoin : ∃ hex digits, run.head? = some (.CharRef hex digits) ∧
          referenced hex digits = ['\n']
      · rw [if_pos (hhead.mpr (Or.inr hjoin))]
        exact Or.inr ⟨rfl, rfl, rfl, hjoin⟩
      · rw [if_neg (fun h => (hhead.mp h).elim hnext hjoin)]
        exact Or.inl ⟨rfl, fun h => hjoin h.2⟩
  · have hno : ¬ JoinsNext p run := by
      rintro ⟨hlit, -⟩
      rw [hlit] at hdecoded
      exact hc (List.singleton_inj.mp hdecoded).symm
    refine Or.inl ⟨?_, hno⟩
    unfold eol_char
    rw [if_neg hc]
    rcases hp with hp | ⟨hex, digits, hp, href⟩
    · rw [hp]
      unfold Piece.chars
      dsimp only
      rw [if_neg hc]
    · rw [hp]
      exact href.symm

/-- A run that is decoded is never longer than its value, and is its value when nothing
joins. -/
theorem eol_run (htext : ∀ p ∈ run, p.IsText) (hlegal : ∀ p ∈ run, p.Legal)
    (hcr : ∀ hex digits, .CharRef hex digits ∈ run → referenced hex digits ≠ ['\r']) :
    (eol (decoded run)).length ≤ (value run).length ∧
      (¬ Joins run → eol (decoded run) = value run) ∧
      (Joins run → (eol (decoded run)).length < (value run).length) := by
  induction run with
  | nil =>
    refine ⟨le_rfl, fun _ => rfl, ?_⟩
    intro h
    exact absurd h id
  | cons p run ih =>
    obtain ⟨e, v, heol, hvalue, hstep⟩ := eol_run_step htext hlegal hcr
    obtain ⟨hle, hsame, hless⟩ := ih (fun q hq => htext q (List.mem_cons_of_mem p hq))
      (fun q hq => hlegal q (List.mem_cons_of_mem p hq))
      (fun hex digits hmem => hcr hex digits (List.mem_cons_of_mem p hmem))
    rw [heol, hvalue, List.length_append, List.length_append]
    rcases hstep with ⟨hev, hno⟩ | ⟨he, hv, hjoin⟩
    · rw [hev]
      refine ⟨by omega, ?_, ?_⟩
      · intro h
        rw [hsame (fun hrun => h (Or.inr hrun))]
      · intro h
        have := hless (h.resolve_left hno)
        omega
    · rw [he, hv]
      simp only [List.length_nil, List.length_singleton]
      refine ⟨by omega, ?_, ?_⟩
      · intro h
        exact absurd (Or.inl hjoin) h
      · intro _
        omega

end Ends

/-! ## When the text that is kept denotes the value -/

/-- One run of text, with nothing but empty CDATA sections around it. -/
def OneRun (ps run : List Piece) : Prop :=
  (∀ p ∈ run, p.IsText) ∧ ∃ i j, ps = List.replicate i (.CData []) ++
    (run ++ List.replicate j (.CData []))

/-- A value that is kept. -/
structure Kept (ps : List Piece) : Prop where
  one_run : ∃ run, OneRun ps run
  no_cr : '\r' ∉ value ps
  tight : Tight (value ps)
  apart : ¬ Joins ps

theorem not_text_empty : ¬ (Piece.CData []).IsText := id

theorem chars_text_ne {p : Piece} (h : p.Legal) {next : Option Piece} (hsep : ¬ p.IsText)
    (hnil : p.chars next = []) : p = .CData [] := by
  apply (of_chars_nil h hnil).resolve_right
  rintro ⟨hp, -⟩
  rw [hp] at hsep
  exact hsep trivial

/-- The text that is kept is no longer than the value, and shorter when the value is more
than one run. -/
theorem kept_length {ps : List Piece} (hlegal : ∀ p ∈ ps, p.Legal)
    (hcr : ∀ hex digits, .CharRef hex digits ∈ ps → referenced hex digits ≠ ['\r']) :
    (eol (kept_text ps)).length ≤ (value ps).length ∧
      ((eol (kept_text ps)).length = (value ps).length → ∃ run, OneRun ps run) := by
  -- on the runs: pieces of text up to one that is none
  induction ps using runs_induction with
  | last run hrun =>
    have htrim := eol_trim_length (decoded run)
    have hlen := (eol_run hrun hlegal hcr).1
    rw [kept_run hrun]
    refine ⟨by omega, fun _ => ⟨run, hrun, 0, 0, ?_⟩⟩
    simp
  | cut run sep rest hrun hsep ih =>
    have hsepmem : sep ∈ run ++ sep :: rest := by simp
    have hsub : ∀ p ∈ run, p ∈ run ++ sep :: rest := fun p hp => List.mem_append_left _ hp
    have hrest : ∀ p ∈ rest, p ∈ run ++ sep :: rest :=
      fun p hp => List.mem_append_right _ (List.mem_cons_of_mem _ hp)
    obtain ⟨hle, hone⟩ := ih (fun p hp => hlegal p (hrest p hp))
      (fun hex digits hmem => hcr hex digits (hrest _ hmem))
    have htrim := eol_trim_length (decoded run)
    have hlen := (eol_run hrun (fun p hp => hlegal p (hsub p hp))
      (fun hex digits hmem => hcr hex digits (hsub _ hmem))).1
    have hvalue : (value (run ++ sep :: rest)).length
        = (value run).length + ((sep.chars rest.head?).length + (value rest).length) := by
      rw [value_append_cut hrun hsep, List.length_append, value_cons, List.length_append]
    -- only an empty CDATA section separates without standing for anything
    have hempty : (sep.chars rest.head?).length = 0 → sep = .CData [] := by
      intro h
      exact chars_text_ne (hlegal sep hsepmem) hsep (List.eq_nil_of_length_eq_zero h)
    rw [kept_cut hrun hsep, hvalue]
    by_cases hblank : trim_text (decoded run) = []
    · -- the run is blank: it is lost, and the text comes from further on
      rw [if_pos hblank]
      refine ⟨by omega, ?_⟩
      intro heq
      have hrunnil := of_value_nil (fun p hp => hlegal p (hsub p hp))
        (List.eq_nil_of_length_eq_zero (by omega : (value run).length = 0))
      have hnil : run = [] := by
        by_contra hne
        obtain ⟨p, run', rfl⟩ := List.exists_cons_of_ne_nil hne
        have hp := hrun p List.mem_cons_self
        have hmem : p ∈ List.replicate (p :: run').length (Piece.CData []) := by
          rw [← hrunnil]
          exact List.mem_cons_self
        rw [List.eq_of_mem_replicate hmem] at hp
        exact hp
      obtain ⟨run', htext, i, j, hi⟩ := hone (by omega)
      refine ⟨run', htext, i + 1, j, ?_⟩
      rw [hnil, hempty (by omega), hi, List.nil_append, List.replicate_succ, List.cons_append]
    · -- the run is kept: what follows denotes nothing
      rw [if_neg hblank]
      refine ⟨by omega, ?_⟩
      intro heq
      have hrestnil := of_value_nil (fun p hp => hlegal p (hrest p hp))
        (List.eq_nil_of_length_eq_zero (by omega : (value rest).length = 0))
      refine ⟨run, hrun, 0, rest.length + 1, ?_⟩
      rw [hempty (by omega), List.replicate_succ, ← hrestnil]
      rfl

/-- The text that is kept has no white space at its ends. -/
theorem kept_tight (ps : List Piece) : Tight (kept_text ps) := by
  induction ps using runs_induction with
  | last run hrun =>
    rw [kept_run hrun]
    exact trim_tight _
  | cut run sep rest hrun hsep ih =>
    rw [kept_cut hrun hsep]
    split
    · exact ih
    · exact trim_tight _

section OneRun

variable {run : List Piece}

/-- Empty CDATA sections have no value. -/
theorem value_empty (j : ℕ) : value (List.replicate j (Piece.CData [])) = [] := by
  induction j with
  | zero => rfl
  | succ j ih =>
    rw [List.replicate_succ, value_cons, ih]
    rfl

theorem kept_cdata (ps : List Piece) : kept_text (.CData [] :: ps) = kept_text ps := rfl

theorem kept_empty (j : ℕ) : kept_text (List.replicate j (Piece.CData [])) = [] := by
  induction j with
  | zero => rfl
  | succ j ih =>
    rw [List.replicate_succ, kept_cdata, ih]

theorem joins_empty (j : ℕ) : ¬ Joins (List.replicate j (Piece.CData [])) := by
  induction j with
  | zero => exact id
  | succ j ih =>
    rw [List.replicate_succ]
    rintro (⟨hp, -⟩ | hjoins)
    · cases hp
    · exact ih hjoins

theorem joins_append_empty (j : ℕ) :
    Joins (run ++ List.replicate j (.CData [])) ↔ Joins run := by
  induction run with
  | nil =>
    rw [List.nil_append]
    exact ⟨fun h => absurd h (joins_empty j), fun h => absurd h id⟩
  | cons p run ih =>
    rw [List.cons_append]
    unfold Joins
    rw [ih]
    apply or_congr_left
    unfold JoinsNext
    cases run with
    | nil =>
      -- no reference comes after the run
      have hhead : ([] ++ List.replicate j (Piece.CData [])).head? = none ∨
          ([] ++ List.replicate j (Piece.CData [])).head? = some (.CData []) := by
        cases j with
        | zero => exact Or.inl rfl
        | succ j => exact Or.inr rfl
      rcases hhead with hhead | hhead
      · rw [hhead]
        rfl
      · rw [hhead]
        simp
    | cons q run => rfl

variable {ps : List Piece}

theorem OneRun.mem (h : OneRun ps run) {p : Piece} (hp : p ∈ run) : p ∈ ps := by
  obtain ⟨-, i, j, hps⟩ := h
  rw [hps]
  exact List.mem_append_right _ (List.mem_append_left _ hp)

/-- The value of the one run is the value of all. -/
theorem OneRun.value (h : OneRun ps run) : CharData.value ps = CharData.value run := by
  obtain ⟨hrun, i, j, rfl⟩ := h
  induction i with
  | zero =>
    cases j with
    | zero => simp
    | succ j =>
      have hcut := value_append_cut hrun not_text_empty (List.replicate j (.CData []))
      rw [List.replicate_zero, List.nil_append, List.replicate_succ, hcut, ← List.replicate_succ,
        value_empty, List.append_nil]
  | succ i ih =>
    rw [List.replicate_succ, List.cons_append, value_cons, ih]
    rfl

/-- What is kept is the one run, trimmed. -/
theorem OneRun.kept (h : OneRun ps run) : kept_text ps = trim_text (decoded run) := by
  obtain ⟨hrun, i, j, rfl⟩ := h
  induction i with
  | zero =>
    rw [List.replicate_zero, List.nil_append]
    cases j with
    | zero =>
      rw [List.replicate_zero, List.append_nil]
      exact kept_run hrun
    | succ j =>
      rw [List.replicate_succ, kept_cut hrun not_text_empty, kept_empty]
      split
      · rename_i hblank
        exact hblank.symm
      · rfl
  | succ i ih =>
    rw [List.replicate_succ, List.cons_append, kept_cdata, ih]

/-- All pieces join if those of the run do. -/
theorem OneRun.joins (h : OneRun ps run) : Joins ps ↔ Joins run := by
  obtain ⟨hrun, i, j, rfl⟩ := h
  induction i with
  | zero =>
    rw [List.replicate_zero, List.nil_append]
    exact joins_append_empty j
  | succ i ih =>
    rw [List.replicate_succ, List.cons_append, ← ih]
    constructor
    · rintro (⟨hp, -⟩ | hjoins)
      · cases hp
      · exact hjoins
    · intro hjoins
      exact Or.inr hjoins

end OneRun

/-- **When the text that is kept denotes the value.** -/
theorem kept_text_iff {ps : List Piece} (hlegal : ∀ p ∈ ps, p.Legal) :
    eol (kept_text ps) = value ps ↔ Kept ps := by
  -- a reference to a carriage return puts one in the value
  have hrefs : '\r' ∉ value ps →
      ∀ hex digits, .CharRef hex digits ∈ ps → referenced hex digits ≠ ['\r'] := by
    intro hcr hex digits hmem href
    apply hcr
    apply mem_value hmem
    intro next
    unfold Piece.chars
    dsimp only
    rw [href]
    exact List.mem_singleton_self _
  constructor
  · intro h
    have hcr : '\r' ∉ value ps := by
      rw [← h]
      intro hmem
      exact (mem_eol hmem).1 rfl
    obtain ⟨run, hrun⟩ := (kept_length hlegal (hrefs hcr)).2 (congrArg List.length h)
    have htight : Tight (value ps) := by
      rw [← h, tight_eol]
      exact kept_tight ps
    refine ⟨⟨run, hrun⟩, hcr, htight, ?_⟩
    intro hjoins
    have hless := (eol_run hrun.1 (fun p hp => hlegal p (hrun.mem hp))
      (fun hex digits hmem => hrefs hcr hex digits (hrun.mem hmem))).2.2 (hrun.joins.mp hjoins)
    have htrim := eol_trim_length (decoded run)
    have hlen := congrArg List.length h
    rw [hrun.kept, hrun.value] at hlen
    omega
  · rintro ⟨⟨run, hrun⟩, hcr, htight, hapart⟩
    have hsame := (eol_run hrun.1 (fun p hp => hlegal p (hrun.mem hp))
      (fun hex digits hmem => hrefs hcr hex digits (hrun.mem hmem))).2.1
      (fun h => hapart (hrun.joins.mpr h))
    rw [hrun.value] at htight
    rw [← hsame, tight_eol] at htight
    rw [hrun.kept, trim_of_tight htight, hsame, hrun.value]

/-! ## What a writer's text denotes -/

theorem escape_char_lf {c : Char} : escape_char c = .Lit '\n' ↔ c = '\n' := by
  unfold escape_char
  split_ifs with h1 h2 h3 h4 h5
  · rw [h1]
    simp
  · rw [h2]
    simp
  · rw [h3]
    simp
  · rw [h4]
    simp only [false_iff]
    decide
  · rw [h5]
    simp
  · simp

/-- A text that is written with its markup escaped denotes the text, but for its line
ends. -/
theorem value_escape (s : List Char) : value (escape s) = eol s := by
  induction s with
  | nil => rfl
  | cons c s ih =>
    have hnext : (escape s).head? = some (.Lit '\n') ↔ s.head? = some '\n' := by
      unfold escape
      rw [List.head?_map]
      cases s with
      | nil => simp
      | cons d s =>
        simp only [List.head?_cons, Option.map_some, Option.some.injEq]
        exact escape_char_lf
    have hchar : (escape_char c).chars (escape s).head? = eol_char c s.head? := by
      -- only a carriage return is not escaped and not kept
      by_cases hc : c = '\r'
      · have hlit : escape_char c = .Lit '\r' := by
          rw [hc]
          decide
        rw [hlit, hc]
        unfold Piece.chars eol_char
        simp only [if_true, hnext]
      · unfold eol_char
        rw [if_neg hc]
        unfold escape_char
        split_ifs with h1 h2 h3 h4 h5
        · rw [h1]
          rfl
        · rw [h2]
          rfl
        · rw [h3]
          rfl
        · rw [h4]
          rfl
        · rw [h5]
          rfl
        · unfold Piece.chars
          dsimp only
          rw [if_neg hc]
    have hcons : escape (c :: s) = escape_char c :: escape s := rfl
    rw [hcons, value_cons, hchar, ih]
    rfl

end Rshs.CharData
