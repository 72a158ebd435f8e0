/-
An HTML tokenizer.

The input is tokenized in a mode, which the tags change: the text of `title` and `textarea`
has references but no tags, that of `script` and the like not even references. What a
doctype or a comment says is left out of its token.

A text without markup is read up to a delimiter (`tokenize_text`); one with markup gives
fewer characters before its first tag than would be read of it (`lead_lt`). Behind a tag
the tokenizer goes on as it began (`tokenize_attribute`, `tokenize_forced`).
-/
import Rshs.CharRefs

set_option autoImplicit false

namespace Html

open CharRefs

/-! ## Tokens -/

/-- Attributes, in the order of the tag, with their values. -/
abbrev Attributes := List (List Char × List Char)

/-- What the tokenizer emits; what it says in a doctype or a comment is left out. -/
inductive Token
  | doctype
  | start_tag (name : List Char) (attributes : Attributes) (self_closing : Bool)
  | end_tag (name : List Char)
  | comment
  | character (c : Char)
deriving DecidableEq

def Token.is_character : Token → Bool
  | .character _ => true
  | _ => false

def characters (s : List Char) : List Token := s.map .character

/-! ## Tags -/

/-- The white space of a tag: tab, line feed, form feed, space. -/
def is_space (c : Char) : Bool := ['\t', '\n', '\x0c', ' '].contains c

/-- A character of the name of a tag or an attribute. -/
def name_char (c : Char) : Char := if c.toNat = 0 then replacement else c.toLower

/-- The states within a tag, behind its name. -/
inductive TagState
  | before_attribute_name
  | attribute_name (name : List Char)
  | after_attribute_name (name : List Char)
  | before_attribute_value (name : List Char)
  | attribute_value (quote : Option Char) (name value : List Char)
  | after_attribute_value
  | self_closing_start_tag

/-- What a character does in a tag: the tag goes on, or is complete. -/
inductive TagStep
  | more (state : TagState) (attributes : Attributes)
  | done (self_closing : Bool) (attributes : Attributes)

def before_attribute_name (attributes : Attributes) (c : Char) : TagStep :=
  if is_space c then .more .before_attribute_name attributes
  else if c = '/' then .more .self_closing_start_tag attributes
  else if c = '>' then .done false attributes
  else .more (.attribute_name [name_char c]) attributes

/-- What a character does in each state within a tag. -/
def tag_step (attributes : Attributes) (c : Char) : TagState → TagStep
  | .before_attribute_name => before_attribute_name attributes c
  | .attribute_name name =>
    if is_space c then .more (.after_attribute_name name) attributes
    else if c = '/' then .more .self_closing_start_tag (attributes ++ [(name, [])])
    else if c = '>' then .done false (attributes ++ [(name, [])])
    else if c = '=' then .more (.before_attribute_value name) attributes
    else .more (.attribute_name (name ++ [name_char c])) attributes
  | .after_attribute_name name =>
    if is_space c then .more (.after_attribute_name name) attributes
    else if c = '/' then .more .self_closing_start_tag (attributes ++ [(name, [])])
    else if c = '>' then .done false (attributes ++ [(name, [])])
    else if c = '=' then .more (.before_attribute_value name) attributes
    else .more (.attribute_name [name_char c]) (attributes ++ [(name, [])])
  | .before_attribute_value name =>
    if is_space c then .more (.before_attribute_value name) attributes
    else if c = '"' ∨ c = '\'' then .more (.attribute_value (some c) name []) attributes
    else if c = '>' then .done false (attributes ++ [(name, [])])
    else .more (.attribute_value none name [c]) attributes
  | .attribute_value (some q) name value =>
    if c = q then .more .after_attribute_value (attributes ++ [(name, value)])
    else .more (.attribute_value (some q) name (value ++ [c])) attributes
  | .attribute_value none name value =>
    if is_space c then .more .before_attribute_name (attributes ++ [(name, value)])
    else if c = '>' then .done false (attributes ++ [(name, value)])
    else .more (.attribute_value none name (value ++ [c])) attributes
  | .after_attribute_value => before_attribute_name attributes c
  | .self_closing_start_tag =>
    if c = '>' then .done true attributes else before_attribute_name attributes c

/-- The attributes of a tag, whether it is self-closing, and how much of the text it
takes. Nothing at the end of the input. -/
def scan : TagState → Attributes → List Char → Option (Attributes × Bool × ℕ)
  | _, _, [] => none
  | state, attributes, c :: s =>
    match tag_step attributes c state with
    | .done self_closing attributes => some (attributes, self_closing, 1)
    | .more state attributes =>
      (scan state attributes s).map fun r => (r.1, r.2.1, r.2.2 + 1)

/-- Of two attributes with one name the first counts. -/
def distinct : Attributes → Attributes
  | [] => []
  | a :: attributes => a :: (distinct attributes).filter fun b => b.1 ≠ a.1

/-- Whether a character goes on with a tag's name. -/
def in_tag_name (c : Char) : Bool := !is_space c && c ≠ '/' && c ≠ '>'

/-- A tag, from its name on. -/
def tag (refs : References) (s : List Char) :
    Option (List Char × Attributes × Bool × ℕ) :=
  let name := s.takeWhile in_tag_name
  (scan .before_attribute_name [] (s.drop name.length)).map fun r =>
    (name.map name_char, distinct (r.1.map fun a => (a.1, read refs .attribute a.2)), r.2.1,
      name.length + r.2.2)

/-! ## Modes -/

/-- Where the text of a script stands: in a comment (1), in a script in a comment (2), and
behind so many dashes. -/
structure ScriptState where
  level : ℕ
  dashes : ℕ
deriving DecidableEq

/-- How the text that follows is read. -/
inductive Mode
  | data
  | rcdata (name : List Char)
  | rawtext (name : List Char)
  | script (state : ScriptState)
  | plaintext
deriving DecidableEq

/-- Where references are read in that mode. -/
def Mode.place : Mode → Place
  | .data => .data
  | .rcdata _ => .rcdata
  | _ => .rawtext

/-- The mode behind a start tag. -/
def mode_of (name : List Char) : Mode :=
  if ["title".toList, "textarea".toList].contains name then .rcdata name
  else if ["style".toList, "xmp".toList, "iframe".toList, "noembed".toList,
    "noframes".toList].contains name then .rawtext name
  else if name = "script".toList then .script ⟨0, 0⟩
  else if name = "plaintext".toList then .plaintext
  else .data

/-- What markup gives: tokens, the mode behind it, and how much more of the text it
takes. -/
abbrev Markup := Option (List Token × Mode × ℕ)

def start_tag (refs : References) (s : List Char) : Markup :=
  match tag refs s with
  | none => some ([], .data, s.length)
  | some (name, attributes, self_closing, taken) =>
    some ([.start_tag name attributes self_closing], mode_of name, taken)

/-- An end tag, of whose text so much is taken before its name. -/
def end_tag (refs : References) (before : ℕ) (s : List Char) : Markup :=
  match tag refs s with
  | none => some ([], .data, before + s.length)
  | some (name, _, _, taken) => some ([.end_tag name], .data, before + taken)

/-- How much is taken up to the next `>`. -/
def through_gt (s : List Char) : ℕ := (s.takeWhile (· ≠ '>')).length + 1

/-- How much of a comment is left. -/
def comment_rest : List Char → ℕ
  | [] => 0
  | c :: s =>
    if "-->".toList <+: c :: s then 3
    else if "--!>".toList <+: c :: s then 4
    else comment_rest s + 1

def comment_length (s : List Char) : ℕ :=
  if ">".toList <+: s then 1 else if "->".toList <+: s then 2 else comment_rest s

/-- `<!`: a comment, a doctype, or what is taken for a comment. -/
def declaration (s : List Char) : Markup :=
  if "--".toList <+: s then some ([.comment], .data, 3 + comment_length (s.drop 2))
  else if (s.take 7).map Char.toLower = "doctype".toList then
    some ([.doctype], .data, 1 + through_gt s)
  else some ([.comment], .data, 1 + through_gt s)

/-- Markup in data, behind `<`. -/
def data_markup (refs : References) : List Char → Markup
  | [] => none
  | c :: s =>
    if c.isAlpha then start_tag refs (c :: s)
    else if c = '!' then declaration s
    else if c = '?' then some ([.comment], .data, through_gt (c :: s))
    else if c = '/' then
      match s with
      | [] => none
      | d :: u =>
        if d.isAlpha then end_tag refs 1 (d :: u)
        else if d = '>' then some ([], .data, 2)
        else some ([.comment], .data, 1 + through_gt (d :: u))
    else none

/-- Whether a tag with this name begins, in a mode that has no other. -/
def names_tag (name s : List Char) : Bool :=
  (s.take name.length).map Char.toLower = name &&
    (s.drop name.length).head?.any fun c => !in_tag_name c

/-- Markup where only one end tag counts, behind `<`. -/
def text_markup (refs : References) (name : List Char) : List Char → Markup
  | '/' :: s => if names_tag name s then end_tag refs 1 s else none
  | _ => none

def script_name : List Char := "script".toList

/-- The text of a script, from its next character on. -/
def script_markup (refs : References) (state : ScriptState) (c : Char) (s : List Char) : Markup :=
  let text (cs : List Char) (state : ScriptState) : Markup :=
    some (characters cs, .script state, cs.length - 1)
  if c = '<' ∧ state.level ≠ 2 ∧ (text_markup refs script_name s).isSome = true then
    text_markup refs script_name s
  else if c = '<' ∧ state.level = 0 ∧ "!--".toList <+: s then text "<!--".toList ⟨1, 2⟩
  else if c = '<' ∧ state.level = 1 ∧ names_tag script_name s = true then
    text (c :: s.take 7) ⟨2, 0⟩
  else if c = '<' ∧ state.level = 2 ∧ s.head? = some '/' ∧
      names_tag script_name s.tail = true then text (c :: s.take 8) ⟨1, 0⟩
  else if c = '-' ∧ state.level ≠ 0 then text [c] ⟨state.level, state.dashes + 1⟩
  else if c = '>' ∧ state.level ≠ 0 ∧ 2 ≤ state.dashes then text [c] ⟨0, 0⟩
  else text [if c.toNat = 0 then replacement else c] ⟨state.level, 0⟩

/-- The markup that begins with a character, if it does. -/
def markup (refs : References) (mode : Mode) (c : Char) (s : List Char) : Markup :=
  match mode with
  | .data => if c = '<' then data_markup refs s else none
  | .rcdata name | .rawtext name => if c = '<' then text_markup refs name s else none
  | .script state => script_markup refs state c s
  | .plaintext => none

/-! ## The tokenizer -/

/-- The tokens of a text of which so many characters are taken already. -/
def tokens_from (refs : References) : Mode → ℕ → List Char → List Token
  | _, _, [] => []
  | mode, skip + 1, _ :: s => tokens_from refs mode skip s
  | mode, 0, c :: s =>
    match markup refs mode c s with
    | some (tokens, mode, taken) => tokens ++ tokens_from refs mode taken s
    | none =>
      characters (unit refs mode.place c s).1 ++
        tokens_from refs mode (unit refs mode.place c s).2 s

/-- The ends of lines are all made the same. -/
def normalize : List Char → List Char
  | '\r' :: '\n' :: s => '\n' :: normalize s
  | '\r' :: s => '\n' :: normalize s
  | c :: s => c :: normalize s
  | [] => []

def tokenize_in (refs : References) (mode : Mode) (s : List Char) : List Token :=
  tokens_from refs mode 0 s

/-- The tokens of a document, its line ends made one character first. -/
def tokenize (refs : References) (s : List Char) : List Token :=
  tokenize_in refs .data (normalize s)

/-! ## One step -/

section Steps

variable {refs : References} {mode : Mode}

/-- Characters already taken are passed over. -/
theorem tokens_from_eq (k : ℕ) (s : List Char) :
    tokens_from refs mode k s = tokenize_in refs mode (s.drop k) := by
  induction s generalizing k with
  | nil =>
    rw [List.drop_nil]
    cases k <;> rfl
  | cons c s ih =>
    cases k with
    | zero => rfl
    | succ k => rw [tokens_from, ih, List.drop_succ_cons]

/-- What is no markup is a reference or a character. -/
theorem tokenize_text {c : Char} {s : List Char} (h : markup refs mode c s = none) :
    tokenize_in refs mode (c :: s) = characters (unit refs mode.place c s).1 ++
      tokenize_in refs mode (s.drop (unit refs mode.place c s).2) := by
  rw [← tokens_from_eq, tokenize_in, tokens_from, h]

/-- Markup gives its tokens, and the rest is read in the mode that it sets. -/
theorem tokenize_markup {c : Char} {s : List Char} {tokens : List Token} {mode' : Mode} {k : ℕ}
    (h : markup refs mode c s = some (tokens, mode', k)) :
    tokenize_in refs mode (c :: s) = tokens ++ tokenize_in refs mode' (s.drop k) := by
  rw [← tokens_from_eq, tokenize_in, tokens_from, h]

end Steps

/-! ## Runs of text -/

theorem delimiter_lt : Delimiter '<' := ⟨by decide, by decide, by decide, by decide, by decide⟩

theorem delimiter_slash : Delimiter '/' :=
  ⟨by decide, by decide, by decide, by decide, by decide⟩

theorem delimiter_gt : Delimiter '>' := ⟨by decide, by decide, by decide, by decide, by decide⟩

theorem delimiter_quote : Delimiter '"' := ⟨by decide, by decide, by decide, by decide, by decide⟩

theorem characters_append (s t : List Char) :
    characters (s ++ t) = characters s ++ characters t := List.map_append

/-- How many characters come before the first tag. -/
def lead (tokens : List Token) : ℕ := (tokens.takeWhile Token.is_character).length

/-- Characters in front are so many more characters before the first tag. -/
theorem lead_characters (s : List Char) (tokens : List Token) :
    lead (characters s ++ tokens) = s.length + lead tokens := by
  unfold lead characters
  induction s with
  | nil => simp
  | cons c s ih =>
    rw [List.map_cons, List.cons_append, List.takeWhile_cons_of_pos rfl, List.length_cons, ih,
      List.length_cons]
    omega

/-- Before a token that is no character there are none. -/
theorem lead_cons {token : Token} (h : token.is_character = false) (tokens : List Token) :
    lead (token :: tokens) = 0 := by
  unfold lead
  rw [List.takeWhile_cons_of_neg (by simp [h])]
  rfl

/-- Two texts before tags. -/
theorem characters_inj {s t : List Char} {xs ys : List Token} (hx : lead xs = 0)
    (hy : lead ys = 0) (h : characters s ++ xs = characters t ++ ys) : s = t ∧ xs = ys := by
  have hlen := congrArg lead h
  rw [lead_characters, lead_characters, hx, hy] at hlen
  have hchars : characters s = characters t ∧ xs = ys :=
    List.append_inj h (by simpa [characters] using hlen)
  refine ⟨?_, hchars.2⟩
  exact (List.map_inj_right fun a b hab => Token.character.inj hab).mp hchars.1

section Runs

variable {refs : References} {mode : Mode}

/-- No markup begins in a text that goes on like this. -/
def Quiet (refs : References) (mode : Mode) (t y : List Char) : Prop :=
  ∀ a c b, t = a ++ c :: b → markup refs mode c (b ++ y) = none

theorem Quiet.drop {t y : List Char} (h : Quiet refs mode t y) (k : ℕ) :
    Quiet refs mode (t.drop k) y := by
  intro a c b heq
  refine h (t.take k ++ a) c b ?_
  rw [List.append_assoc, ← heq, List.take_append_drop]

/-- **A text without markup is read as it stands.** -/
theorem tokenize_quiet {t y : List Char} (h : Quiet refs mode t ('<' :: y)) :
    tokenize_in refs mode (t ++ '<' :: y) =
      characters (read refs mode.place t) ++ tokenize_in refs mode ('<' :: y) := by
  induction hn : t.length using Nat.strongRecOn generalizing t with
  | ind n ih =>
    cases t with
    | nil => rfl
    | cons c t =>
      subst hn
      have hle := (unit_le refs mode.place c t).1
      have hrest : Quiet refs mode t ('<' :: y) := h.drop 1
      rw [List.cons_append, tokenize_text (h [] c t rfl), unit_append delimiter_lt,
        List.drop_append_of_le_length hle,
        ih _ (by rw [List.length_drop, List.length_cons]; omega) (hrest.drop _) rfl,
        read_cons, characters_append, List.append_assoc]

/-- What markup can give, behind `<`. -/
inductive Gives (mode : Mode) (s : List Char) : List Token → Mode → ℕ → Prop
  | token {token : Token} {mode' : Mode} {k : ℕ} (h : token.is_character = false) :
    Gives mode s [token] mode' k
  | all {k : ℕ} (h : s.length ≤ k) : Gives mode s [] .data k
  | nothing {u : List Char} (h : s = '/' :: '>' :: u) : Gives mode s [] mode 2

/-- An end tag behind `<` gives one token, nothing, or takes all that is left. -/
theorem end_tag_gives {s : List Char} {tokens : List Token} {mode' : Mode} {k : ℕ}
    (h : end_tag refs 1 s = some (tokens, mode', k)) : Gives mode ('/' :: s) tokens mode' k := by
  unfold end_tag at h
  split at h
  · cases h
    exact .all (by rw [List.length_cons]; omega)
  · cases h
    exact .token rfl

theorem data_markup_gives {s : List Char} {tokens : List Token} {mode' : Mode} {k : ℕ}
    (h : data_markup refs s = some (tokens, mode', k)) : Gives .data s tokens mode' k := by
  cases s with
  | nil => cases h
  | cons c s =>
    unfold data_markup at h
    dsimp only at h
    split at h
    · unfold start_tag at h
      split at h
      · cases h
        exact .all le_rfl
      · cases h
        exact .token rfl
    · split at h
      · unfold declaration at h
        split at h
        · cases h
          exact .token rfl
        · split at h
          · cases h
            exact .token rfl
          · cases h
            exact .token rfl
      · split at h
        · cases h
          exact .token rfl
        · split at h
          · rename_i hslash
            subst hslash
            cases s with
            | nil => cases h
            | cons d u =>
              dsimp only at h
              split at h
              · exact end_tag_gives h
              · split at h
                · rename_i hgt
                  cases h
                  exact .nothing (by rw [hgt])
                · cases h
                  exact .token rfl
          · cases h

theorem text_markup_gives {name s : List Char} {tokens : List Token} {mode' : Mode} {k : ℕ}
    (h : text_markup refs name s = some (tokens, mode', k)) : Gives mode s tokens mode' k := by
  unfold text_markup at h
  split at h
  · split at h
    · exact end_tag_gives h
    · cases h
  · cases h

/-- The modes in which the text of the page stands. -/
inductive Plain : Mode → Prop
  | data : Plain .data
  | rcdata (name : List Char) : Plain (.rcdata name)

/-- Markup begins with `<`, and gives one token, nothing, or takes all that is left. -/
theorem markup_gives (hmode : Plain mode) {c : Char} {s : List Char} {tokens : List Token}
    {mode' : Mode} {k : ℕ} (h : markup refs mode c s = some (tokens, mode', k)) :
    c = '<' ∧ Gives mode s tokens mode' k := by
  unfold markup at h
  cases hmode with
  | data =>
    dsimp only at h
    split at h
    · rename_i hc
      exact ⟨hc, data_markup_gives h⟩
    · cases h
  | rcdata name =>
    dsimp only at h
    split at h
    · rename_i hc
      exact ⟨hc, text_markup_gives h⟩
    · cases h

/-- What is skipped with a character has no markup in it. -/
theorem not_quiet_drop (hmode : Plain mode) {c : Char} {t y : List Char}
    (h : ¬ Quiet refs mode t y) : ¬ Quiet refs mode (t.drop (unit refs mode.place c t).2) y := by
  intro hquiet
  refine h fun a d b heq => ?_
  by_contra hsome
  obtain ⟨⟨tokens, mode', k⟩, hmarkup⟩ := Option.ne_none_iff_exists'.mp hsome
  obtain ⟨rfl, -⟩ := markup_gives hmode hmarkup
  have hle := (unit_le refs mode.place c a).1
  apply hsome
  apply hquiet (a.drop (unit refs mode.place c t).2) '<' b
  rw [heq, unit_append delimiter_lt, List.drop_append_of_le_length hle]

/-- **Markup in a text costs characters.** What is read of a text before markup is at most
what would be read of it, and less if it has markup in it. -/
theorem lead_lt (hmode : Plain mode) {y : List Char}
    (hy : lead (tokenize_in refs mode ('<' :: y)) = 0) (t : List Char) :
    lead (tokenize_in refs mode (t ++ '<' :: y)) ≤ (read refs mode.place t).length ∧
      (¬ Quiet refs mode t ('<' :: y) →
        lead (tokenize_in refs mode (t ++ '<' :: y)) < (read refs mode.place t).length) := by
  induction hn : t.length using Nat.strongRecOn generalizing t with
  | ind n ih =>
    cases t with
    | nil =>
      refine ⟨by rw [List.nil_append, hy]; omega, fun hnot => ?_⟩
      refine absurd (fun a c b heq => ?_) hnot
      simp at heq
    | cons c t =>
      subst hn
      cases hmarkup : markup refs mode c (t ++ '<' :: y) with
      | none =>
        have hle := (unit_le refs mode.place c t).1
        obtain ⟨hmost, hless⟩ := ih _ (by rw [List.length_drop, List.length_cons]; omega)
          (t.drop (unit refs mode.place c t).2) rfl
        rw [List.cons_append, tokenize_text hmarkup, unit_append delimiter_lt,
          List.drop_append_of_le_length hle, lead_characters, read_cons, List.length_append]
        refine ⟨by omega, fun hnot => ?_⟩
        have htail : ¬ Quiet refs mode t ('<' :: y) := by
          intro hquiet
          apply hnot
          intro a d b heq
          cases a with
          | nil =>
            obtain ⟨rfl, rfl⟩ := List.cons.inj heq
            exact hmarkup
          | cons e a => exact hquiet a d b (List.cons.inj heq).2
        have := hless (not_quiet_drop hmode htail)
        omega
      | some found =>
        obtain ⟨tokens, mode', k⟩ := found
        obtain ⟨rfl, hgives⟩ := markup_gives hmode hmarkup
        have hread : ∀ t, (read refs mode.place ('<' :: t)).length =
            (read refs mode.place t).length + 1 := by
          intro t
          rw [read_delimiter delimiter_lt (by decide), List.length_cons]
        have hlt : lead (tokenize_in refs mode ('<' :: (t ++ '<' :: y))) <
            (read refs mode.place ('<' :: t)).length := by
          rw [tokenize_markup hmarkup, hread]
          cases hgives with
          | token htoken =>
            rw [List.singleton_append, lead_cons htoken]
            omega
          | all hall =>
            rw [List.drop_eq_nil_of_le hall]
            exact Nat.succ_pos _
          | nothing hu =>
            -- the two characters that are skipped stand in the text
            rcases t with _ | ⟨a, _ | ⟨b, t⟩⟩
            · simp at hu
            · simp at hu
            · simp only [List.cons_append, List.cons.injEq] at hu
              obtain ⟨rfl, rfl, -⟩ := hu
              have hmost := (ih t.length (by simp only [List.length_cons]; omega) t rfl).1
              rw [read_delimiter delimiter_slash (by decide),
                read_delimiter delimiter_gt (by decide), List.nil_append]
              simp only [List.cons_append, List.drop_succ_cons, List.drop_zero, List.length_cons]
              omega
        exact ⟨hlt.le, fun _ => hlt⟩

/-- **A text that keeps its length has no markup**, and is what it is read as. -/
theorem tokenize_forced (hmode : Plain mode) {t w y : List Char} {rest : List Token}
    (hy : lead (tokenize_in refs mode ('<' :: y)) = 0) (hrest : lead rest = 0)
    (hlen : (read refs mode.place t).length ≤ w.length)
    (h : tokenize_in refs mode (t ++ '<' :: y) = characters w ++ rest) :
    Quiet refs mode t ('<' :: y) ∧ w = read refs mode.place t ∧
      tokenize_in refs mode ('<' :: y) = rest := by
  have hlead := congrArg lead h
  rw [lead_characters, hrest] at hlead
  have hquiet : Quiet refs mode t ('<' :: y) := by
    by_contra hnot
    have hless := (lead_lt hmode hy t).2 hnot
    omega
  rw [tokenize_quiet hquiet] at h
  obtain ⟨hw, htail⟩ := characters_inj hy hrest h
  exact ⟨hquiet, hw.symm, htail⟩

/-- A text is read as it stands, up to a tag, exactly if it has no markup. -/
theorem tokenize_iff (hmode : Plain mode) {t y : List Char} {rest : List Token}
    (hy : lead (tokenize_in refs mode ('<' :: y)) = 0) (hrest : lead rest = 0) :
    tokenize_in refs mode (t ++ '<' :: y) = characters (read refs mode.place t) ++ rest ↔
      Quiet refs mode t ('<' :: y) ∧ tokenize_in refs mode ('<' :: y) = rest := by
  constructor
  · intro h
    obtain ⟨hquiet, -, htail⟩ := tokenize_forced hmode hy hrest le_rfl h
    exact ⟨hquiet, htail⟩
  · rintro ⟨hquiet, rfl⟩
    exact tokenize_quiet hquiet

end Runs

/-! ## Text that is plain in every mode -/

/-- A character that, behind `<`, begins markup. -/
def opens (d : Char) : Bool := d.isAlpha || d = '!' || d = '?' || d = '/'

/-- Markup stands in a text, wherever the text stands. -/
def HasMarkup (t : List Char) : Prop := ∃ a d b, t = a ++ '<' :: d :: b ∧ opens d = true

section PlainText

variable {refs : References}

/-- What opens a tag behind `<` is markup, whatever follows. -/
theorem data_markup_isSome {d : Char} (h : opens d = true) {s : List Char} (hs : s ≠ []) :
    (data_markup refs (d :: s)).isSome = true := by
  unfold data_markup
  dsimp only
  split
  · unfold start_tag
    split <;> rfl
  · split
    · unfold declaration
      split
      · rfl
      · split <;> rfl
    · split
      · rfl
      · rename_i halpha hbang hquestion
        have hslash : d = '/' := by
          simp only [opens, Bool.or_eq_true, decide_eq_true_eq] at h
          rcases h with ((h | h) | h) | h
          · exact absurd h halpha
          · exact absurd h hbang
          · exact absurd h hquestion
          · exact h
        rw [if_pos hslash]
        obtain ⟨e, u, rfl⟩ := List.exists_cons_of_ne_nil hs
        dsimp only
        split
        · unfold end_tag
          split <;> rfl
        · split <;> rfl

/-- Nothing else behind `<` is. -/
theorem data_markup_none {d : Char} (h : opens d = false) (s : List Char) :
    data_markup refs (d :: s) = none := by
  simp only [opens, Bool.or_eq_false_iff, decide_eq_false_iff_not] at h
  unfold data_markup
  dsimp only
  rw [if_neg (by rw [h.1.1.1]; exact Bool.false_ne_true), if_neg h.1.1.2, if_neg h.1.2, if_neg h.2]

/-- **What is quiet in data** before a tag. -/
theorem quiet_data_iff {t y : List Char} :
    Quiet refs .data t ('<' :: y) ↔ ¬ HasMarkup t := by
  constructor
  · rintro h ⟨a, d, b, rfl, hopens⟩
    have hnone := h a '<' (d :: b) rfl
    have hsome : (data_markup refs (d :: (b ++ '<' :: y))).isSome = true :=
      data_markup_isSome hopens (by simp)
    unfold markup at hnone
    dsimp only at hnone
    rw [if_pos rfl, List.cons_append] at hnone
    rw [hnone] at hsome
    cases hsome
  · rintro h a c b rfl
    unfold markup
    dsimp only
    split
    · rename_i hc
      subst hc
      cases b with
      | nil => exact data_markup_none (by decide) y
      | cons d b =>
        apply data_markup_none
        by_contra hopens
        exact h ⟨a, d, b, rfl, by simpa using hopens⟩
    · rfl

/-- A text without markup is quiet where only one end tag counts. -/
theorem quiet_rcdata {name t y : List Char} (h : ¬ HasMarkup t) :
    Quiet refs (.rcdata name) t ('<' :: y) := by
  rintro a c b rfl
  by_contra hsome
  obtain ⟨⟨tokens, mode', k⟩, hmarkup⟩ := Option.ne_none_iff_exists'.mp hsome
  obtain ⟨rfl, -⟩ := markup_gives (.rcdata name) hmarkup
  unfold markup text_markup at hmarkup
  dsimp only at hmarkup
  rw [if_pos rfl] at hmarkup
  split at hmarkup
  · rename_i u heq
    cases b with
    | nil => simp at heq
    | cons d b =>
      obtain ⟨rfl, -⟩ := List.cons.inj heq
      exact h ⟨a, '/', b, rfl, rfl⟩
  · cases hmarkup

end PlainText

/-! ## Tags -/

/-- The letters of a name as it is written in a page. -/
def Lower (name : List Char) : Prop := ∀ c ∈ name, c.isLower = true

theorem lower_toLower {c : Char} (h : c.isLower = true) : c.toLower = c := by
  have hbounds : ¬ (c.val ≥ 'A'.val ∧ c.val ≤ 'Z'.val) := by
    have hlower : c.isLower = (decide (c.val ≥ 'a'.val) && decide (c.val ≤ 'z'.val)) := rfl
    rw [hlower] at h
    simp only [Bool.and_eq_true, decide_eq_true_eq, UInt32.le_iff_toNat_le, ge_iff_le] at h ⊢
    have hz : 'Z'.val.toNat = 90 := rfl
    have ha : 'a'.val.toNat = 97 := rfl
    omega
  exact dif_neg hbounds

/-- A lower case letter is part of a name, and is left as it is. -/
theorem lower_char {c : Char} (h : c.isLower = true) :
    is_space c = false ∧ c ≠ '/' ∧ c ≠ '>' ∧ c ≠ '=' ∧ name_char c = c ∧ c.isAlpha = true := by
  have hne : ∀ d : Char, d.isLower = false → c ≠ d := by
    rintro d hd rfl
    rw [hd] at h
    cases h
  refine ⟨?_, hne '/' (by decide), hne '>' (by decide), hne '=' (by decide), ?_, ?_⟩
  · simp [is_space, hne '\t' (by decide), hne '\n' (by decide), hne '\x0c' (by decide),
      hne ' ' (by decide)]
  · have hnull : c.toNat ≠ 0 := by
      intro h0
      apply hne (Char.ofNat 0) (by decide)
      rw [← Char.toNat_inj, h0]
      rfl
    unfold name_char
    rw [if_neg hnull, lower_toLower h]
  · have halpha : c.isAlpha = (c.isUpper || c.isLower) := rfl
    rw [halpha, h, Bool.or_true]

section Tags

variable {refs : References} {name attr : List Char}

/-- A name of lower case letters ends where one ends it. -/
theorem lower_in_name (hname : Lower name) {c : Char} (hc : in_tag_name c = false)
    (z : List Char) : (name ++ c :: z).takeWhile in_tag_name = name := by
  rw [takeWhile_append hc, List.takeWhile_eq_self_iff]
  intro d hd
  obtain ⟨hspace, hslash, hgt, -⟩ := lower_char (hname d hd)
  simp [in_tag_name, hspace, hslash, hgt]

theorem lower_name_char (hname : Lower name) : name.map name_char = name := by
  conv => rhs; rw [← List.map_id name]
  refine List.map_congr_left fun c hc => ?_
  exact (lower_char (hname c hc)).2.2.2.2.1

/-- A tag behind its name. -/
theorem tag_eq (hname : Lower name) {c : Char} (hc : in_tag_name c = false) (z : List Char) :
    tag refs (name ++ c :: z) = (scan .before_attribute_name [] (c :: z)).map fun r =>
      (name, distinct (r.1.map fun a => (a.1, read refs .attribute a.2)), r.2.1,
        name.length + r.2.2) := by
  unfold tag
  dsimp only
  rw [lower_in_name hname hc, List.drop_left, lower_name_char hname]

variable (refs) in
/-- A start tag is what begins with a letter. -/
theorem markup_letter (hname : Lower name) (hne : name ≠ []) (s : List Char) :
    markup refs .data '<' (name ++ s) = start_tag refs (name ++ s) := by
  obtain ⟨c, cs, rfl⟩ := List.exists_cons_of_ne_nil hne
  have halpha := (lower_char (hname c List.mem_cons_self)).2.2.2.2.2
  unfold markup
  dsimp only
  rw [if_pos rfl, List.cons_append]
  unfold data_markup
  dsimp only
  rw [if_pos halpha]

/-! ## Attributes -/

/-- What is scanned further on, counted from here. -/
def shift (k : ℕ) (r : Option (Attributes × Bool × ℕ)) : Option (Attributes × Bool × ℕ) :=
  r.map fun r => (r.1, r.2.1, r.2.2 + k)

theorem shift_shift (j k : ℕ) (r : Option (Attributes × Bool × ℕ)) :
    shift j (shift k r) = shift (k + j) r := by
  unfold shift
  rw [Option.map_map]
  refine Option.map_congr fun r _ => ?_
  simp only [Function.comp_apply, Nat.add_assoc]

/-- A step takes one character. -/
theorem scan_more {state state' : TagState} {attributes attributes' : Attributes} {c : Char}
    (h : tag_step attributes c state = .more state' attributes') (s : List Char) :
    scan state attributes (c :: s) = shift 1 (scan state' attributes' s) := by
  rw [scan, h]
  rfl

/-- An attribute's name is taken up to the `=`. -/
theorem scan_name (hattr : Lower attr) (before : List Char) (attributes : Attributes)
    (s : List Char) :
    scan (.attribute_name before) attributes (attr ++ '=' :: s) =
      shift (attr.length + 1) (scan (.before_attribute_value (before ++ attr)) attributes s) := by
  induction attr generalizing before with
  | nil =>
    rw [List.nil_append, scan_more rfl, List.append_nil]
    rfl
  | cons c attr ih =>
    obtain ⟨hspace, hslash, hgt, heq, hchar, -⟩ := lower_char (hattr c List.mem_cons_self)
    have hstep : tag_step attributes c (.attribute_name before) =
        .more (.attribute_name (before ++ [c])) attributes := by
      unfold tag_step
      dsimp only
      rw [hspace, if_neg Bool.false_ne_true, if_neg hslash, if_neg hgt, if_neg heq, hchar]
    rw [List.cons_append, scan_more hstep, ih (fun d hd => hattr d (List.mem_cons_of_mem c hd)),
      shift_shift, List.append_assoc, List.singleton_append, List.length_cons]

/-- A quoted value is taken up to the quote. -/
theorem scan_value {value : List Char} (hvalue : '"' ∉ value) (attr before : List Char)
    (attributes : Attributes) (s : List Char) :
    scan (.attribute_value (some '"') attr before) attributes (value ++ '"' :: s) =
      shift (value.length + 1)
        (scan .after_attribute_value (attributes ++ [(attr, before ++ value)]) s) := by
  induction value generalizing before with
  | nil =>
    rw [List.nil_append, scan_more rfl, List.append_nil]
    rfl
  | cons c value ih =>
    rw [List.mem_cons, not_or] at hvalue
    have hstep : tag_step attributes c (.attribute_value (some '"') attr before) =
        .more (.attribute_value (some '"') attr (before ++ [c])) attributes :=
      if_neg (Ne.symm hvalue.1)
    rw [List.cons_append, scan_more hstep, ih hvalue.2, shift_shift, List.append_assoc,
      List.singleton_append, List.length_cons]

/-- **A value between quotes is the first attribute of its tag.** -/
theorem scan_attribute (hattr : Lower attr) (hne : attr ≠ []) {value : List Char}
    (hvalue : '"' ∉ value) (s : List Char) :
    scan .before_attribute_name [] (' ' :: (attr ++ '=' :: '"' :: (value ++ '"' :: s))) =
      shift (attr.length + value.length + 4) (scan .after_attribute_value [(attr, value)] s) := by
  obtain ⟨c, cs, rfl⟩ := List.exists_cons_of_ne_nil hne
  obtain ⟨hspace, hslash, hgt, -, hchar, -⟩ := lower_char (hattr c List.mem_cons_self)
  have hletter : tag_step [] c .before_attribute_name = .more (.attribute_name [c]) [] := by
    unfold tag_step before_attribute_name
    dsimp only
    rw [hspace, if_neg Bool.false_ne_true, if_neg hslash, if_neg hgt, hchar]
  have hopen : ∀ name, tag_step [] '"' (.before_attribute_value name) =
      .more (.attribute_value (some '"') name []) [] := fun name => rfl
  rw [scan_more rfl, List.cons_append, scan_more hletter,
    scan_name (fun d hd => hattr d (List.mem_cons_of_mem c hd)), scan_more (hopen _),
    scan_value hvalue, shift_shift, shift_shift, shift_shift, shift_shift, List.length_cons]
  congr 1
  omega

/-- A tag with one attribute. -/
theorem tokenize_attribute (hname : Lower name) (hne : name ≠ []) (hattr : Lower attr)
    (hne' : attr ≠ []) {value : List Char} (hvalue : '"' ∉ value) (z : List Char) :
    tokenize_in refs .data
        ('<' :: (name ++ ' ' :: (attr ++ '=' :: '"' :: (value ++ '"' :: '>' :: z)))) =
      .start_tag name [(attr, read refs .attribute value)] false ::
        tokenize_in refs (mode_of name) z := by
  have hend : scan .after_attribute_value [(attr, value)] ('>' :: z) =
      some ([(attr, value)], false, 1) := rfl
  have hmarkup := markup_letter refs hname hne
    (' ' :: (attr ++ '=' :: '"' :: (value ++ '"' :: '>' :: z)))
  rw [start_tag, tag_eq hname (by decide), scan_attribute hattr hne' hvalue, hend] at hmarkup
  rw [tokenize_markup hmarkup, List.singleton_append]
  congr 2
  have hsplit : name ++ ' ' :: (attr ++ '=' :: '"' :: (value ++ '"' :: '>' :: z)) =
      (name ++ ' ' :: (attr ++ '=' :: '"' :: (value ++ ['"', '>']))) ++ z := by simp
  rw [hsplit]
  apply List.drop_left'
  simp only [List.length_append, List.length_cons, List.length_nil]
  omega

def TagStep.attributes : TagStep → Attributes
  | .more _ attributes => attributes
  | .done _ attributes => attributes

/-- What is complete of the attributes of a tag stays at their front. -/
theorem tag_step_prefix (attributes : Attributes) (c : Char) (state : TagState) :
    attributes <+: (tag_step attributes c state).attributes := by
  have hbefore : attributes <+: (before_attribute_name attributes c).attributes := by
    unfold before_attribute_name
    split_ifs <;> exact List.prefix_rfl
  cases state with
  | before_attribute_name => exact hbefore
  | after_attribute_value => exact hbefore
  | self_closing_start_tag =>
    unfold tag_step
    dsimp only
    split
    · exact List.prefix_rfl
    · exact hbefore
  | attribute_name name =>
    unfold tag_step
    dsimp only
    split_ifs <;> first | exact List.prefix_rfl | exact List.prefix_append _ _
  | after_attribute_name name =>
    unfold tag_step
    dsimp only
    split_ifs <;> first | exact List.prefix_rfl | exact List.prefix_append _ _
  | before_attribute_value name =>
    unfold tag_step
    dsimp only
    split_ifs <;> first | exact List.prefix_rfl | exact List.prefix_append _ _
  | attribute_value quote name value =>
    cases quote with
    | none =>
      unfold tag_step
      dsimp only
      split_ifs <;> first | exact List.prefix_rfl | exact List.prefix_append _ _
    | some q =>
      unfold tag_step
      dsimp only
      split_ifs <;> first | exact List.prefix_rfl | exact List.prefix_append _ _

/-- Attributes are only added at the end. -/
theorem scan_prefix {state : TagState} {attributes attributes' : Attributes} {s : List Char}
    {closing : Bool} {k : ℕ} (h : scan state attributes s = some (attributes', closing, k)) :
    attributes <+: attributes' := by
  induction s generalizing state attributes k with
  | nil => cases h
  | cons c s ih =>
    have hstep := tag_step_prefix attributes c state
    rw [scan] at h
    split at h
    · rename_i heq
      rw [heq] at hstep
      cases h
      exact hstep
    · rename_i heq
      rw [heq] at hstep
      obtain ⟨⟨as, cl, j⟩, hscan, hfound⟩ := Option.map_eq_some_iff.mp h
      cases hfound
      exact hstep.trans (ih hscan)

variable (refs) in
/-- **A quote ends the value it stands in**, whatever follows. -/
theorem tokenize_quote (hname : Lower name) (hne : name ≠ []) (hattr : Lower attr)
    (hne' : attr ≠ []) {value : List Char} (hvalue : '"' ∉ value) (s : List Char) :
    tokenize_in refs .data
        ('<' :: (name ++ ' ' :: (attr ++ '=' :: '"' :: (value ++ '"' :: s)))) = [] ∨
      ∃ more closing tokens, tokenize_in refs .data
          ('<' :: (name ++ ' ' :: (attr ++ '=' :: '"' :: (value ++ '"' :: s)))) =
        .start_tag name ((attr, read refs .attribute value) :: more) closing :: tokens := by
  have hmarkup := markup_letter refs hname hne
    (' ' :: (attr ++ '=' :: '"' :: (value ++ '"' :: s)))
  rw [start_tag, tag_eq hname (by decide), scan_attribute hattr hne' hvalue] at hmarkup
  cases hscan : scan .after_attribute_value [(attr, value)] s with
  | none =>
    rw [hscan] at hmarkup
    rw [tokenize_markup hmarkup]
    left
    rw [List.drop_length]
    rfl
  | some found =>
    obtain ⟨attributes, closing, k⟩ := found
    obtain ⟨more, rfl⟩ := scan_prefix hscan
    rw [hscan] at hmarkup
    rw [tokenize_markup hmarkup]
    exact Or.inr ⟨_, closing, _, rfl⟩

end Tags

/-! ## The ends of lines -/

theorem normalize_cons {c : Char} (h : c ≠ '\r') (s : List Char) :
    normalize (c :: s) = c :: normalize s := by
  rw [normalize]
  · exact fun _ hc _ => h hc
  · exact fun hc => h hc

/-- A text without returns in front. -/
theorem normalize_front {s : List Char} (h : '\r' ∉ s) (t : List Char) :
    normalize (s ++ t) = s ++ normalize t := by
  induction s with
  | nil => rfl
  | cons c s ih =>
    rw [List.mem_cons, not_or] at h
    rw [List.cons_append, normalize_cons (Ne.symm h.1), ih h.2, List.cons_append]

/-- Without a carriage return nothing is changed. -/
theorem normalize_plain {s : List Char} (h : '\r' ∉ s) : normalize s = s := by
  have hfront := normalize_front h []
  rw [List.append_nil] at hfront
  rw [hfront]
  exact List.append_nil s

/-- What follows does not change a text, unless it begins with the end of a line. -/
theorem normalize_append (s : List Char) {c : Char} (hc : c ≠ '\n') (t : List Char) :
    normalize (s ++ c :: t) = normalize s ++ normalize (c :: t) := by
  induction s using normalize.induct with
  | case1 s ih =>
    rw [List.cons_append, List.cons_append, normalize, normalize, ih, List.cons_append]
  | case2 s hs ih =>
    have hs' : ∀ u, s ++ c :: t = '\n' :: u → False := by
      intro u hu
      cases s with
      | nil => exact hc (List.cons.inj hu).1
      | cons d s => exact hs s (by rw [(List.cons.inj hu).1])
    rw [List.cons_append, normalize, normalize, ih, List.cons_append]
    · exact hs
    · exact hs'
  | case3 d s hrn hr ih =>
    have hd : d ≠ '\r' := fun h => hr h
    rw [List.cons_append, normalize_cons hd, normalize_cons hd, ih, List.cons_append]
  | case4 => rfl

theorem normalize_length_le (s : List Char) : (normalize s).length ≤ s.length := by
  induction s using normalize.induct with
  | case1 s ih =>
    rw [normalize]
    simp only [List.length_cons]
    omega
  | case2 s hs ih =>
    rw [normalize]
    · simp only [List.length_cons]
      omega
    · exact hs
  | case3 d s hrn hr ih =>
    rw [normalize_cons fun h => hr h]
    simp only [List.length_cons]
    omega
  | case4 => exact le_rfl

/-- No carriage return is left. -/
theorem return_not_mem_normalize (s : List Char) : '\r' ∉ normalize s := by
  induction s using normalize.induct with
  | case1 s ih => simp [normalize, ih]
  | case2 s hs ih =>
    rw [normalize]
    · simp [ih]
    · exact hs
  | case3 d s hrn hr ih =>
    rw [normalize_cons fun h => hr h, List.mem_cons, not_or]
    exact ⟨fun h => hr h.symm, ih⟩
  | case4 => simp [normalize]

theorem has_markup_cons {c : Char} {s : List Char} :
    HasMarkup (c :: s) ↔ (c = '<' ∧ s.head?.any opens = true) ∨ HasMarkup s := by
  constructor
  · rintro ⟨a, d, b, heq, hopens⟩
    cases a with
    | nil =>
      obtain ⟨rfl, rfl⟩ := List.cons.inj heq
      exact Or.inl ⟨rfl, hopens⟩
    | cons e a => exact Or.inr ⟨a, d, b, (List.cons.inj heq).2, hopens⟩
  · rintro (⟨rfl, hopens⟩ | ⟨a, d, b, rfl, hopens⟩)
    · cases s with
      | nil => cases hopens
      | cons d s => exact ⟨[], d, s, rfl, hopens⟩
    · exact ⟨c :: a, d, b, rfl, hopens⟩

theorem head_normalize (s : List Char) :
    (normalize s).head?.any opens = s.head?.any opens := by
  cases s with
  | nil => rfl
  | cons c s =>
    by_cases hc : c = '\r'
    · subst hc
      cases s with
      | nil => rfl
      | cons d s =>
        by_cases hd : d = '\n'
        · subst hd
          rfl
        · rw [normalize]
          · rfl
          · intro u hu
            exact hd (List.cons.inj hu).1
    · rw [normalize_cons hc]
      rfl

/-- Line ends are not part of markup. -/
theorem has_markup_normalize (s : List Char) : HasMarkup (normalize s) ↔ HasMarkup s := by
  induction s using normalize.induct with
  | case1 s ih => simp [normalize, has_markup_cons, ih]
  | case2 s hs ih =>
    rw [normalize]
    · simp [has_markup_cons, ih]
    · exact hs
  | case3 d s hrn hr ih =>
    rw [normalize_cons fun h => hr h, has_markup_cons, has_markup_cons, ih, head_normalize]
  | case4 => rfl

end Html
