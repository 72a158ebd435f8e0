/-
Names and paths in the HTML of a listing.

The listing is read by a tokenizer. Its tokens are those of a fixed page, with one anchor
for each entry, exactly if neither the request path nor a name has markup in it, no name
ends its `href` with a quote, and no name is changed by being read as text
(`listing_safe_iff`): `generate_dir_listing` escapes nothing.

The argument goes through the page once. Each run of text is as long as the tokens say it
is only if it has no markup (`tokenize_forced`); then the tokenizer is behind it where the
page says it is, and the rest of the tokens is the rest of the page.
-/
import Rshs.Html
import Rshs.Listing

set_option autoImplicit false

namespace Rshs.Injection

open StdPath Posix Text CharRefs Html Rshs.Href Rshs.Listing
open Rshs.Propfind (DirEntryMeta Disk Scan batch_read_dir_entries)

/-! ## The tokens of a listing -/

/-- What the tokenizer makes of a text, at a place. -/
def text_of (refs : References) (place : Place) (s : List Char) : List Char :=
  read refs place (normalize s)

/-- What is read of one entry: the text of its anchor, and the text behind. -/
structure Row where
  entry : DirEntryMeta
  text : List Char
  tail : List Char

/-- The text of an anchor denotes the name of the entry, with `/` for a directory. -/
def Denotes (row : Row) : Prop :=
  utf8_encode row.text = row.entry.name.bytes ++ if row.entry.is_dir then [47] else []

/-- The page up to the text of its title, -/
def before_title : List Token :=
  [.doctype, .start_tag "html".toList [] false, .start_tag "head".toList [] false,
    .start_tag "title".toList [] false]

/-- from there to the text of its heading, -/
def before_heading : List Token :=
  [.end_tag "title".toList, .start_tag "meta".toList [("charset".toList, "utf-8".toList)] false,
    .end_tag "head".toList, .start_tag "body".toList [] false, .start_tag "h1".toList [] false]

/-- and from there to the links. -/
def before_rows : List Token :=
  [.end_tag "h1".toList, .start_tag "hr".toList [] false, .start_tag "pre".toList [] false]

/-- The attribute of every link of the page. -/
def href : List Char := ['h', 'r', 'e', 'f']

/-- A link with the columns behind it. -/
def anchor_tokens (value text tail : List Char) : List Token :=
  .start_tag ['a'] [(href, value)] false ::
    (characters text ++ .end_tag ['a'] :: characters tail)

/-- The link to the parent, which the root has not. -/
def parent_tokens (request_path : List Char) : List Token :=
  if request_path ≠ ['/'] then anchor_tokens "../".toList "../".toList ['\n'] else []

/-- The end of the page. -/
def after_rows : List Token :=
  [.end_tag "pre".toList, .start_tag "hr".toList [] false, .end_tag "body".toList,
    .end_tag "html".toList]

/-- What title and heading begin with. -/
def index_of : List Char := "Index of ".toList

section Skeleton

variable (refs : References)

/-- The tokens of an entry; the whole name is the value of its `href`. -/
def row_tokens (row : Row) : List Token :=
  anchor_tokens (text_of refs .attribute (shown row.entry)) row.text row.tail

/-- All entries, and the end of the page. -/
def rows_tokens (rows : List Row) : List Token := rows.flatMap (row_tokens refs) ++ after_rows

/-- The fixed page around the entries. -/
def skeleton (request_path : List Char) (rows : List Row) : List Token :=
  before_title ++ (characters (index_of ++ text_of refs .rcdata (decode request_path)) ++
    (before_heading ++ (characters (index_of ++ text_of refs .data (decode request_path)) ++
      (before_rows ++ (parent_tokens request_path ++ rows_tokens refs rows)))))

/-- The listing is read as the fixed page with one anchor for each entry, in their order,
whose text denotes its name. -/
def Safe (request_path html : List Char) (entries : List DirEntryMeta) : Prop :=
  ∃ rows : List Row, rows.map Row.entry = sorted entries ∧ (∀ row ∈ rows, Denotes row) ∧
    tokenize refs html = skeleton refs request_path rows

/-- A name that is read as it is wherever it is written. -/
structure Harmless (e : DirEntryMeta) : Prop where
  text : Unicode e.name
  no_markup : ¬ HasMarkup (shown e)
  no_quote : '"' ∉ shown e
  no_return : '\r' ∉ shown e
  no_reference : NoReference refs (shown e)

end Skeleton

/-! ## The columns -/

/-- A text that the tokenizer leaves as it is. -/
def Tame (s : List Char) : Prop := ∀ c ∈ s, c ≠ '<' ∧ c ≠ '&' ∧ c ≠ '\r'

/-- Tame texts one behind the other are tame, -/
theorem tame_append {s t : List Char} (hs : Tame s) (ht : Tame t) : Tame (s ++ t) := by
  intro c hc
  rcases List.mem_append.mp hc with h | h
  · exact hs c h
  · exact ht c h

/-- a text is tame if a check of its characters says so, -/
theorem tame_of_all {s : List Char}
    (h : s.all (fun c => decide (c ≠ '<' ∧ c ≠ '&' ∧ c ≠ '\r')) = true) : Tame s := by
  intro c hc
  simpa using List.all_eq_true.mp h c hc

/-- so are the blanks that fill a column, -/
theorem tame_replicate {c : Char} (hc : c ≠ '<' ∧ c ≠ '&' ∧ c ≠ '\r') (n : ℕ) :
    Tame (List.replicate n c) := by
  intro d hd
  rw [List.eq_of_mem_replicate hd]
  exact hc

/-- the digits of a number, -/
theorem tame_digits (n : ℕ) : Tame (Nat.toDigits 10 n) := by
  intro c hc
  have hdigit := Nat.isDigit_of_mem_toDigits (by omega) (by omega) hc
  refine ⟨?_, ?_, ?_⟩ <;> rintro rfl <;> cases hdigit

/-- also with a sign and leading zeros, -/
theorem tame_zero_padded (width : ℕ) (n : ℤ) : Tame (Time.zero_padded width n) := by
  have hzeros : ∀ k, Tame (List.replicate k '0' ++ Nat.toDigits 10 n.natAbs) := fun k =>
    tame_append (tame_replicate (by decide) k) (tame_digits _)
  unfold Time.zero_padded
  dsimp only
  split
  · exact tame_append (s := ['-']) (tame_of_all (by decide)) (hzeros _)
  · exact hzeros _

/-- the name of a month, -/
theorem tame_month {month : ℤ} {name : String} (h : Dates.month_abbr month = some name) :
    Tame name.toList := by
  unfold Dates.month_abbr at h
  obtain ⟨i, -, hi⟩ := Option.bind_eq_some_iff.mp h
  have hall : Time.MONTHS.all (fun name => name.toList.all
      fun c => decide (c ≠ '<' ∧ c ≠ '&' ∧ c ≠ '\r')) = true := by decide
  exact tame_of_all (List.all_eq_true.mp hall name (List.mem_of_getElem? hi))

/-- and so a date. -/
theorem tame_date {st : Time.SystemTime} {date_str : List Char}
    (h : Dates.format_rfc850 st = some date_str) : Tame date_str := by
  unfold Dates.format_rfc850 at h
  split at h
  · cases h
    exact tame_of_all (by decide)
  · obtain ⟨p, -, hp⟩ := Option.bind_eq_some_iff.mp h
    obtain ⟨month, hmonth, hrest⟩ := Option.bind_eq_some_iff.mp hp
    have hsign : ∀ c, c ∈ ['-', ' ', ':'] → Tame [c] := by
      intro c hc
      simp only [List.mem_cons, List.not_mem_nil, or_false] at hc
      rcases hc with rfl | rfl | rfl <;> exact tame_of_all (by decide)
    cases hrest
    repeat apply tame_append
    all_goals first
      | exact tame_zero_padded _ _
      | exact tame_month hmonth
      | exact hsign _ (by simp)

/-- The date and the size of an entry are tame. -/
theorem tame_columns {name_col max_size_len : ℕ} {e : DirEntryMeta} {cols : List Char}
    (h : columns name_col max_size_len e = some cols) : Tame cols := by
  have hlabel : Tame (size_label e) := by
    unfold size_label
    split
    · exact tame_of_all (by decide)
    · exact tame_digits _
  unfold columns at h
  obtain ⟨date_str, hdate, hrest⟩ := Option.bind_eq_some_iff.mp h
  cases hrest
  refine tame_append (tame_append (tame_append (tame_append ?_ (tame_date hdate)) ?_) ?_) ?_
  · exact tame_replicate (by decide) _
  · exact tame_of_all (by decide)
  · exact tame_append (tame_replicate (by decide) _) hlabel
  · exact tame_of_all (by decide)

/-! ## One row -/

section Rows

variable {refs : References}

/-- None of the three characters is in a tame text. -/
theorem Tame.not_mem {s : List Char} (h : Tame s) : '<' ∉ s ∧ '&' ∉ s ∧ '\r' ∉ s :=
  ⟨fun hm => (h _ hm).1 rfl, fun hm => (h _ hm).2.1 rfl, fun hm => (h _ hm).2.2 rfl⟩

/-- No tag begins where there is no `<`. -/
theorem no_markup_of_not_mem {s : List Char} (h : '<' ∉ s) : ¬ HasMarkup s := by
  rintro ⟨a, d, b, rfl, -⟩
  exact h (by simp)

/-- A text that is read as it is, up to the next tag. -/
theorem tokenize_plain {s y : List Char} (hmarkup : ¬ HasMarkup s) (href : NoReference refs s) :
    tokenize_in refs .data (s ++ '<' :: y) =
      characters s ++ tokenize_in refs .data ('<' :: y) := by
  rw [tokenize_quiet (quiet_data_iff.mpr hmarkup)]
  exact congrArg (characters · ++ _) (read_no_reference href)

/-- A tame text is read as it is, up to the next tag. -/
theorem tokenize_tame {s y : List Char} (h : Tame s) :
    tokenize_in refs .data (s ++ '<' :: y) =
      characters s ++ tokenize_in refs .data ('<' :: y) :=
  tokenize_plain (no_markup_of_not_mem h.not_mem.1) (no_reference_of_mem h.not_mem.2.1)

/-- The row of an entry, with the text that is shown. -/
def line (s cols : List Char) : List Char :=
  '<' :: (['a'] ++ ' ' :: (href ++ '=' :: '"' :: (s ++ '"' :: '>' ::
    (s ++ '<' :: ('/' :: 'a' :: '>' :: cols)))))

/-- A row, up to the text of its anchor. -/
theorem line_append (s cols z : List Char) : line s cols ++ z =
    '<' :: (['a'] ++ ' ' :: (href ++ '=' :: '"' :: (s ++ '"' :: '>' ::
      (s ++ '<' :: '/' :: 'a' :: '>' :: (cols ++ z))))) := by
  simp only [line, List.append_assoc, List.cons_append]

/-- The end of a link is read as such. -/
theorem tokenize_end_a (z : List Char) :
    tokenize_in refs .data ('<' :: '/' :: 'a' :: '>' :: z) =
      .end_tag ['a'] :: tokenize_in refs .data z := by
  rfl

/-- The tag of a link is in lower case, -/
theorem lower_a : Lower ['a'] := by
  intro c hc
  rw [List.mem_singleton.mp hc]
  decide

/-- and so is its attribute. -/
theorem lower_href : Lower href := by
  have hall : href.all Char.isLower = true := by decide
  exact List.all_eq_true.mp hall

/-- The anchor of a text without a quote. -/
theorem tokenize_line {s : List Char} (hquote : '"' ∉ s) (cols z : List Char) :
    tokenize_in refs .data (line s cols ++ z) =
      .start_tag ['a'] [(href, read refs .attribute s)] false ::
        tokenize_in refs .data (s ++ '<' :: '/' :: 'a' :: '>' :: (cols ++ z)) := by
  have hmode : mode_of ['a'] = .data := by decide
  rw [line_append, tokenize_attribute lower_a (by simp) lower_href (by decide) hquote, hmode]

variable (refs) in
/-- The anchor of a text with a quote has another value, if it is read at all. -/
theorem tokenize_line_quote {s : List Char} (hquote : '"' ∈ s) (cols z : List Char) :
    tokenize_in refs .data (line s cols ++ z) = [] ∨ ∃ value more closing tokens,
      value ≠ read refs .attribute s ∧ tokenize_in refs .data (line s cols ++ z) =
        .start_tag ['a'] ((href, value) :: more) closing :: tokens := by
  obtain ⟨v, u, rfl, hv⟩ := List.eq_append_cons_of_mem hquote
  have hsplit := tokenize_quote refs lower_a (by simp) lower_href (by decide) hv
    (u ++ '"' :: '>' :: (v ++ '"' :: u ++ '<' :: '/' :: 'a' :: '>' :: (cols ++ z)))
  rw [line_append, List.append_assoc v, List.cons_append]
  rcases hsplit with hnil | ⟨more, closing, tokens, htokens⟩
  · exact Or.inl hnil
  · refine Or.inr ⟨_, more, closing, tokens, ?_, htokens⟩
    intro heq
    have hlen := congrArg List.length heq
    rw [read_append delimiter_quote, read_delimiter delimiter_quote (by decide),
      List.length_append, List.length_cons] at hlen
    omega

variable (refs) in
/-- A row begins with a tag, whatever it shows. -/
theorem lead_line (s cols z : List Char) :
    lead (tokenize_in refs .data (line s cols ++ z)) = 0 := by
  by_cases hquote : '"' ∈ s
  · rcases tokenize_line_quote refs hquote cols z with h | ⟨_, _, _, _, -, h⟩
    · rw [h]
      rfl
    · rw [h]
      exact lead_cons rfl _
  · rw [tokenize_line hquote]
    exact lead_cons rfl _

/-- **A harmless entry is read as its row.** -/
theorem harmless_row {e : DirEntryMeta} (h : Harmless refs e) {cols : List Char}
    (hcols : Tame cols) (y : List Char) :
    Denotes ⟨e, shown e, cols⟩ ∧
      tokenize_in refs .data (line (normalize (shown e)) cols ++ '<' :: y) =
        row_tokens refs ⟨e, shown e, cols⟩ ++ tokenize_in refs .data ('<' :: y) := by
  have hplain := normalize_plain h.no_return
  constructor
  · have htext : utf8_encode (to_string_lossy e.name) = e.name.bytes := h.text
    unfold Denotes shown
    dsimp only
    rw [utf8_encode_append, htext]
    cases e.is_dir <;> rfl
  · rw [hplain, tokenize_line h.no_quote, tokenize_plain h.no_markup h.no_reference,
      tokenize_end_a, tokenize_tame hcols]
    unfold row_tokens anchor_tokens text_of
    rw [hplain]
    simp

/-- What denotes a name is the text that is shown. -/
theorem denotes_shown {row : Row} (h : Denotes row) :
    Unicode row.entry.name ∧ row.text = shown row.entry := by
  unfold Denotes at h
  have htext : row.text = shown row.entry := by
    have hlossy := congrArg utf8_lossy h
    rw [utf8_lossy_encode] at hlossy
    rw [hlossy]
    unfold shown to_string_lossy
    cases row.entry.is_dir with
    | false =>
      rw [if_neg Bool.false_ne_true, if_neg Bool.false_ne_true, List.append_nil, List.append_nil]
    | true =>
      rw [if_pos rfl, if_pos rfl, utf8_lossy_slash]
      rfl
  refine ⟨?_, htext⟩
  rw [htext] at h
  unfold shown at h
  rw [utf8_encode_append] at h
  unfold Unicode
  cases hdir : row.entry.is_dir with
  | false =>
    rw [hdir] at h
    exact (List.append_inj' h rfl).1
  | true =>
    rw [hdir] at h
    exact (List.append_inj' h rfl).1

/-- **A row that is read as it should be** is that of a harmless entry. -/
theorem row_forced {row : Row} (hdenotes : Denotes row) {cols : List Char} (hcols : Tame cols)
    {y : List Char} {rest : List Token} (hy : lead (tokenize_in refs .data ('<' :: y)) = 0)
    (hrest : lead rest = 0)
    (h : tokenize_in refs .data (line (normalize (shown row.entry)) cols ++ '<' :: y) =
      row_tokens refs row ++ rest) :
    Harmless refs row.entry ∧ row.tail = cols ∧ tokenize_in refs .data ('<' :: y) = rest := by
  obtain ⟨hunicode, htext⟩ := denotes_shown hdenotes
  have hshort := normalize_length_le (shown row.entry)
  have hread := read_length_le refs .data (normalize (shown row.entry))
  have htokens : row_tokens refs row ++ rest =
      .start_tag ['a'] [(href, text_of refs .attribute (shown row.entry))] false ::
        (characters row.text ++ .end_tag ['a'] :: (characters row.tail ++ rest)) := by
    simp [row_tokens, anchor_tokens]
  rw [htokens] at h
  -- the value of the first attribute is the whole name
  have hquote : '"' ∉ normalize (shown row.entry) := by
    intro hmem
    rcases tokenize_line_quote refs hmem cols ('<' :: y) with
      hnil | ⟨value, more, closing, tokens, hvalue, hfirst⟩
    · rw [hnil] at h
      cases h
    · rw [hfirst] at h
      simp only [List.cons.injEq, Token.start_tag.injEq, Prod.mk.injEq, true_and] at h
      exact hvalue h.1.1.1
  rw [tokenize_line hquote] at h
  -- the text of the anchor is as long as the name
  have hend :
      lead (tokenize_in refs .data ('<' :: '/' :: 'a' :: '>' :: (cols ++ '<' :: y))) = 0 := by
    rw [tokenize_end_a]
    exact lead_cons rfl _
  obtain ⟨hquiet, hw, htail⟩ := tokenize_forced .data hend (lead_cons rfl _)
    (by rw [htext]; exact hread.trans hshort) (List.cons.inj h).2
  have hlen : (normalize (shown row.entry)).length ≤
      (read refs .data (normalize (shown row.entry))).length := by
    have heq := congrArg List.length hw
    rw [htext] at heq
    change (shown row.entry).length = (read refs .data (normalize (shown row.entry))).length at heq
    omega
  have href := no_reference_of_length hlen
  have hsame : normalize (shown row.entry) = shown row.entry := by
    have hsame' : shown row.entry = read refs .data (normalize (shown row.entry)) :=
      htext.symm.trans hw
    rw [read_no_reference href] at hsame'
    exact hsame'.symm
  rw [tokenize_end_a] at htail
  obtain ⟨hcolumns, hafter⟩ := characters_inj (s := cols) (t := row.tail) hy hrest (by
    rw [← tokenize_tame hcols]
    exact (List.cons.inj htail).2)
  refine ⟨⟨hunicode, ?_, ?_, ?_, ?_⟩, hcolumns.symm, hafter⟩
  · rw [← hsame]
    exact quiet_data_iff.mp hquiet
  · rw [← hsame]
    exact hquote
  · rw [← hsame]
    exact return_not_mem_normalize _
  · rw [← hsame]
    exact href

/-! ## All rows -/

/-- The rows of a page and its end, in the form the tokenizer reads. -/
def rows_html (rs : List (DirEntryMeta × List Char)) : List Char :=
  rs.flatMap (fun row => line (normalize (shown row.1)) row.2) ++ footer

/-- The rows of a page, the first one apart. -/
theorem rows_html_cons (row : DirEntryMeta × List Char) (rs : List (DirEntryMeta × List Char)) :
    rows_html (row :: rs) = line (normalize (shown row.1)) row.2 ++ rows_html rs := by
  unfold rows_html
  rw [List.flatMap_cons, List.append_assoc]

/-- The tokens of the rows, those of the first one apart. -/
theorem rows_tokens_cons (row : Row) (rows : List Row) :
    rows_tokens refs (row :: rows) = row_tokens refs row ++ rows_tokens refs rows := by
  unfold rows_tokens
  rw [List.flatMap_cons, List.append_assoc]

/-- The end of the page is read as it is meant. -/
theorem tokenize_footer : tokenize_in refs .data (rows_html []) = rows_tokens refs [] := by
  rfl

/-- What is read of the rows begins with a tag. -/
theorem lead_rows_tokens (rows : List Row) : lead (rows_tokens refs rows) = 0 := by
  cases rows with
  | nil => rfl
  | cons row rows =>
    rw [rows_tokens_cons]
    exact lead_cons rfl _

variable (refs) in
/-- The rows begin with a tag, the first one or the one behind them. -/
theorem rows_html_head (rs : List (DirEntryMeta × List Char)) :
    ∃ y, rows_html rs = '<' :: y ∧ lead (tokenize_in refs .data ('<' :: y)) = 0 := by
  cases rs with
  | nil => exact ⟨_, rfl, by rfl⟩
  | cons row rs =>
    have hlead := lead_line refs (normalize (shown row.1)) row.2 (rows_html rs)
    have hcons := line_append (normalize (shown row.1)) row.2 (rows_html rs)
    rw [rows_html_cons]
    rw [hcons] at hlead ⊢
    exact ⟨_, rfl, hlead⟩

/-- Rows of harmless names are read as they are meant. -/
theorem harmless_rows {rs : List (DirEntryMeta × List Char)} (hcols : ∀ row ∈ rs, Tame row.2)
    (h : ∀ row ∈ rs, Harmless refs row.1) :
    tokenize_in refs .data (rows_html rs) =
      rows_tokens refs (rs.map fun row => ⟨row.1, shown row.1, row.2⟩) := by
  induction rs with
  | nil => exact tokenize_footer
  | cons row rs ih =>
    rw [List.forall_mem_cons] at hcols h
    obtain ⟨y, hy, -⟩ := rows_html_head refs rs
    rw [rows_html_cons, hy, (harmless_row h.1 hcols.1 y).2, ← hy, ih hcols.2 h.2, List.map_cons,
      rows_tokens_cons]

/-- **Rows that are read as they should be** are those of harmless entries. -/
theorem rows_forced {rs : List (DirEntryMeta × List Char)} {rows : List Row}
    (hcols : ∀ row ∈ rs, Tame row.2) (hentries : rows.map Row.entry = rs.map Prod.fst)
    (hdenotes : ∀ row ∈ rows, Denotes row)
    (h : tokenize_in refs .data (rows_html rs) = rows_tokens refs rows) :
    ∀ row ∈ rs, Harmless refs row.1 := by
  induction rs generalizing rows with
  | nil => simp
  | cons r rs ih =>
    cases rows with
    | nil => cases hentries
    | cons row rows =>
      rw [List.map_cons, List.map_cons, List.cons.injEq] at hentries
      rw [List.forall_mem_cons] at hcols hdenotes ⊢
      obtain ⟨y, hy, hlead⟩ := rows_html_head refs rs
      rw [rows_html_cons, rows_tokens_cons, hy, ← hentries.1] at h
      obtain ⟨hrow, -, hrest⟩ := row_forced hdenotes.1 hcols.1 hlead (lead_rows_tokens rows) h
      rw [← hy] at hrest
      rw [← hentries.1]
      exact ⟨hrow, ih hcols.2 hentries.2 hdenotes.2 hrest⟩

/-! ## The page -/

/-- The page in front of its title, -/
def title_front : List Char := "<!DOCTYPE html><html><head><title>".toList

/-- between title and heading, behind the `<` that ends the title, -/
def heading_front : List Char := "/title><meta charset=\"utf-8\"></head><body><h1>".toList

/-- and between heading and links. -/
def rows_front : List Char := "/h1><hr><pre>".toList

/-- A page around its rows, with the path as it is read. -/
def page_html (path parent rows : List Char) : List Char :=
  title_front ++ ((index_of ++ path) ++ '<' :: (heading_front ++
    ((index_of ++ path) ++ '<' :: (rows_front ++ (parent ++ rows)))))

/-- The line ends of a row are those of the text it shows. -/
theorem normalize_line (s : List Char) {cols : List Char} (hcols : Tame cols) (z : List Char) :
    normalize (line s cols ++ z) = line (normalize s) cols ++ normalize z := by
  have hopen : ∀ z, normalize ('<' :: (['a'] ++ ' ' :: (href ++ '=' :: '"' :: z))) =
      '<' :: (['a'] ++ ' ' :: (href ++ '=' :: '"' :: normalize z)) := fun z => by rfl
  have hquote : ∀ z, normalize ('"' :: '>' :: z) = '"' :: '>' :: normalize z := fun z => by rfl
  have hend : ∀ z, normalize ('<' :: '/' :: 'a' :: '>' :: z) =
      '<' :: '/' :: 'a' :: '>' :: normalize z := fun z => by rfl
  rw [line_append, hopen, normalize_append s (by decide), hquote, normalize_append s (by decide),
    hend, normalize_front hcols.not_mem.2.2, line_append]

/-- A row as the source writes it. -/
theorem anchor_line (e : DirEntryMeta) (cols : List Char) :
    anchor e ++ cols = line (shown e) cols := by
  have hopen : "<a href=\"".toList = '<' :: (['a'] ++ ' ' :: (href ++ ['=', '"'])) := rfl
  have hquote : "\">".toList = ['"', '>'] := rfl
  have hend : "</a>".toList = ['<', '/', 'a', '>'] := rfl
  rw [anchor_eq, hopen, hquote, hend]
  simp only [line, List.append_assoc, List.cons_append, List.nil_append]

/-- The line ends of all rows. -/
theorem normalize_rows {rs : List (DirEntryMeta × List Char)} (hcols : ∀ row ∈ rs, Tame row.2) :
    normalize (rs.flatMap (fun row => anchor row.1 ++ row.2) ++ footer) = rows_html rs := by
  induction rs with
  | nil => exact normalize_plain (by decide)
  | cons row rs ih =>
    rw [List.forall_mem_cons] at hcols
    rw [List.flatMap_cons, List.append_assoc, anchor_line, normalize_line _ hcols.1, ih hcols.2,
      rows_html_cons]

/-- A page with its line ends read: only the path and the names may have some. -/
theorem normalize_page {rs : List (DirEntryMeta × List Char)} (request_path : List Char)
    (hcols : ∀ row ∈ rs, Tame row.2) :
    normalize (page request_path rs) =
      page_html (normalize (decode request_path)) (parent_link request_path) (rows_html rs) := by
  have hparent : '\r' ∉ parent_link request_path := by
    unfold parent_link
    split
    · decide
    · simp
  have hheader : header (decode request_path) = (title_front ++ index_of) ++
      (decode request_path ++ '<' :: (heading_front ++ index_of) ++
        (decode request_path ++ '<' :: rows_front)) := by
    have htitle : "<!DOCTYPE html><html><head><title>Index of ".toList =
        title_front ++ index_of := by rfl
    have hheading : "</title><meta charset=\"utf-8\"></head><body><h1>Index of ".toList =
        '<' :: (heading_front ++ index_of) := by rfl
    have hrows : "</h1><hr><pre>".toList = '<' :: rows_front := by rfl
    unfold header
    rw [htitle, hheading, hrows]
    simp only [List.append_assoc, List.cons_append]
  have hheading : ∀ z, normalize ('<' :: (heading_front ++ (index_of ++ z))) =
      '<' :: (heading_front ++ (index_of ++ normalize z)) := fun z => by rfl
  have hrows : ∀ z, normalize ('<' :: (rows_front ++ z)) = '<' :: (rows_front ++ normalize z) :=
    fun z => by rfl
  have htitle : ∀ z, normalize (title_front ++ (index_of ++ z)) =
      title_front ++ (index_of ++ normalize z) := fun z => by rfl
  unfold page
  rw [hheader]
  simp only [List.append_assoc, List.cons_append]
  rw [htitle, normalize_append _ (by decide), hheading, normalize_append _ (by decide), hrows,
    normalize_front hparent, normalize_rows hcols]
  simp only [page_html, List.append_assoc]

/-! ## The fixed parts -/

/-- The page opens up to its title, in which only the end of the title is a tag, -/
theorem tokenize_title_front (z : List Char) : tokenize_in refs .data (title_front ++ z) =
    before_title ++ tokenize_in refs (.rcdata "title".toList) z := by
  rfl

/-- goes on to its heading, -/
theorem tokenize_heading_front (z : List Char) :
    tokenize_in refs (.rcdata "title".toList) ('<' :: (heading_front ++ z)) =
      before_heading ++ tokenize_in refs .data z := by
  rfl

/-- then to its links, -/
theorem tokenize_rows_front (z : List Char) :
    tokenize_in refs .data ('<' :: (rows_front ++ z)) =
      before_rows ++ tokenize_in refs .data z := by
  rfl

/-- of which the first leads to the parent. -/
theorem tokenize_parent_link (request_path z : List Char) :
    tokenize_in refs .data (parent_link request_path ++ z) =
      parent_tokens request_path ++ tokenize_in refs .data z := by
  unfold parent_link parent_tokens
  split
  · rfl
  · rfl

/-- The fixed text holds no reference. -/
theorem read_index_of (place : Place) (path : List Char) :
    read refs place (index_of ++ path) = index_of ++ read refs place path := by
  cases place <;> rfl

/-- And no markup. -/
theorem has_markup_index_of {path : List Char} :
    HasMarkup (index_of ++ path) ↔ HasMarkup path := by
  have hindex : index_of = ['I', 'n', 'd', 'e', 'x', ' ', 'o', 'f', ' '] := rfl
  simp [hindex, has_markup_cons]

/-- **The page is read as it is meant** exactly if the path has no markup and the rows are
read as they are meant. -/
theorem tokenize_page_iff {rs : List (DirEntryMeta × List Char)} {rows : List Row}
    (request_path : List Char) (hcols : ∀ row ∈ rs, Tame row.2) :
    tokenize refs (page request_path rs) = skeleton refs request_path rows ↔
      ¬ HasMarkup (decode request_path) ∧
        tokenize_in refs .data (rows_html rs) = rows_tokens refs rows := by
  let path := index_of ++ normalize (decode request_path)
  have htext : ∀ place, index_of ++ text_of refs place (decode request_path) =
      read refs place path := fun place => (read_index_of place _).symm
  have hmarkup : HasMarkup path ↔ HasMarkup (decode request_path) :=
    has_markup_index_of.trans (has_markup_normalize _)
  have htitle : ∀ z rest, tokenize_in refs (.rcdata "title".toList)
        (path ++ '<' :: (heading_front ++ z)) =
          characters (read refs .rcdata path) ++ (before_heading ++ rest) ↔
      Quiet refs (.rcdata "title".toList) path ('<' :: (heading_front ++ z)) ∧
        tokenize_in refs .data z = rest := by
    intro z rest
    have hrest : ∀ rest, lead (before_heading ++ rest) = 0 := fun rest => lead_cons rfl _
    have hnext : lead (tokenize_in refs (.rcdata "title".toList)
        ('<' :: (heading_front ++ z))) = 0 := by
      rw [tokenize_heading_front]
      exact hrest _
    have htext := tokenize_iff (t := path) (.rcdata _) hnext (hrest rest)
    rw [tokenize_heading_front, List.append_cancel_left_eq] at htext
    exact htext
  have hheading : ∀ z rest, tokenize_in refs .data (path ++ '<' :: (rows_front ++ z)) =
        characters (read refs .data path) ++ (before_rows ++ rest) ↔
      ¬ HasMarkup (decode request_path) ∧ tokenize_in refs .data z = rest := by
    intro z rest
    have hrest : ∀ rest, lead (before_rows ++ rest) = 0 := fun rest => lead_cons rfl _
    have hnext : lead (tokenize_in refs .data ('<' :: (rows_front ++ z))) = 0 := by
      rw [tokenize_rows_front]
      exact hrest _
    have htext := tokenize_iff (t := path) .data hnext (hrest rest)
    rw [tokenize_rows_front, List.append_cancel_left_eq, quiet_data_iff, hmarkup] at htext
    exact htext
  -- one run of text after the other
  unfold tokenize skeleton
  rw [normalize_page request_path hcols, page_html, tokenize_title_front, htext, htext,
    List.append_cancel_left_eq, htitle, hheading, tokenize_parent_link,
    List.append_cancel_left_eq]
  constructor
  · rintro ⟨-, hquiet, hrows⟩
    exact ⟨hquiet, hrows⟩
  · rintro ⟨hquiet, hrows⟩
    exact ⟨quiet_rcdata (mt hmarkup.mp hquiet), hquiet, hrows⟩

/-- **When the listing is safe.** The tokens of the listing are the fixed page with one
anchor for each entry exactly if the request path has no markup and every entry is
harmless. -/
theorem listing_safe_iff {disk : Disk} {scan : Scan} {dir_path : Path}
    {request_path html : List Char} {entries : List DirEntryMeta} {count : ℕ}
    (refs : References) (hread : batch_read_dir_entries disk scan dir_path = some entries)
    (hpage : generate_dir_listing disk scan dir_path request_path = some (html, count)) :
    Safe refs request_path html entries ↔
      ¬ HasMarkup (decode request_path) ∧ ∀ e ∈ entries, Harmless refs e := by
  unfold generate_dir_listing at hpage
  rw [hread] at hpage
  obtain ⟨rs, hrows, heq⟩ := Option.map_eq_some_iff.mp hpage
  cases heq
  obtain ⟨hentries, hcolumns⟩ := rows_entries hrows
  have hcols : ∀ row ∈ rs, Tame row.2 := by
    intro row hrow
    obtain ⟨_, _, h⟩ := hcolumns row hrow
    exact tame_columns h
  have hmem : (∀ e ∈ entries, Harmless refs e) ↔ ∀ row ∈ rs, Harmless refs row.1 := by
    rw [← List.forall_mem_map (f := Prod.fst), hentries]
    unfold sorted
    simp only [List.mem_mergeSort]
  rw [hmem]
  constructor
  · rintro ⟨rows, hsame, hdenotes, htokens⟩
    rw [tokenize_page_iff request_path hcols] at htokens
    exact ⟨htokens.1, rows_forced hcols (hsame.trans hentries.symm) hdenotes htokens.2⟩
  · rintro ⟨hpath, hharmless⟩
    refine ⟨rs.map fun row => ⟨row.1, shown row.1, row.2⟩, ?_, ?_, ?_⟩
    · rw [List.map_map, ← hentries]
      rfl
    · intro row hrow
      obtain ⟨r, hr, rfl⟩ := List.mem_map.mp hrow
      exact (harmless_row (hharmless r hr) (hcols r hr) []).1
    · rw [tokenize_page_iff request_path hcols]
      exact ⟨hpath, harmless_rows hcols hharmless⟩

end Rows

/-! ## A directory with one file -/

section OneFile

open Propfind (server_d)

/-- A few references by name. -/
def common : List (List Char × List Char) :=
  [("amp;".toList, ['&']), ("amp".toList, ['&']), ("lt;".toList, ['<']), ("lt".toList, ['<']),
    ("gt;".toList, ['>']), ("gt".toList, ['>']), ("quot;".toList, ['"']), ("quot".toList, ['"'])]

/-- What is found in the list is on it. -/
theorem mem_of_lookup {name cs : List Char} (h : common.lookup name = some cs) :
    (name, cs) ∈ common := by
  obtain ⟨l₁, l₂, heq, -⟩ := List.lookup_eq_some_iff.mp h
  rw [heq]
  simp

/-- They are a table as the tokenizer wants one. -/
def common_references : References where
  chars name := common.lookup name
  named := by decide
  name_chars := by
    intro name cs h c hc
    have hall : common.all (fun r => r.1.all fun c => decide (c.isAlphanum = true ∨ c = ';'))
        = true := by decide
    have hname := List.all_eq_true.mp hall _ (mem_of_lookup h)
    exact of_decide_eq_true (List.all_eq_true.mp hname c hc)
  short := by
    intro name cs h
    have hall : common.all (fun r => decide (r.2.length ≤ r.1.length)) = true := by decide
    exact of_decide_eq_true (List.all_eq_true.mp hall _ (mem_of_lookup h))

/-- The directory `/d` with one file. -/
def one_file (name : Name) : Disk :=
  { fs := (Fs.empty.set [d_name] .dir).set [d_name, name] (.file [])
    attr := server_d.disk.attr }

/-- The entry of that file. -/
def entry_of (name : Name) : DirEntryMeta :=
  Propfind.scanned (one_file name) [d_name, name] name (.file [])

/-- The directory of a file `f`. -/
theorem listing_safe_iff_f :
    ∃ html count, generate_dir_listing (one_file f_name) server_d.scan [d_name] "/d/".toList
        = some (html, count) ∧
      Safe common_references "/d/".toList html [entry_of f_name] := by
  have hsome : (generate_dir_listing (one_file f_name) server_d.scan [d_name]
      "/d/".toList).isSome := by decide +kernel
  obtain ⟨⟨html, count⟩, hpage⟩ := Option.isSome_iff_exists.mp hsome
  have hread : batch_read_dir_entries (one_file f_name) server_d.scan [d_name]
      = some [entry_of f_name] := rfl
  have hshown : shown (entry_of f_name) = ['f'] := by decide +kernel
  have hpath : decode "/d/".toList = "/d/".toList := by decide +kernel
  have htext : Unicode f_name := by decide
  refine ⟨html, count, hpage, (listing_safe_iff common_references hread hpage).mpr ⟨?_, ?_⟩⟩
  · rw [hpath]
    exact no_markup_of_not_mem (by decide)
  · intro e he
    rw [List.mem_singleton.mp he]
    constructor
    · exact htext
    all_goals rw [hshown]
    · exact no_markup_of_not_mem (by decide)
    · decide
    · decide
    · exact no_reference_of_mem (by decide)

/-- A file called `<b>`, -/
def bold_name : Name := ⟨[60, 98, 62], by decide⟩

/-- and the tag its name is read as, -/
def bold : Token := .start_tag ['b'] [] false

/-- which no page that is read as it is meant has. -/
theorem bold_not_mem_skeleton (refs : References) (request_path : List Char) (rows : List Row) :
    bold ∉ skeleton refs request_path rows := by
  have hchars : ∀ s, bold ∉ characters s := by simp [bold, characters]
  have hanchor : ∀ value text tail, bold ∉ anchor_tokens value text tail := by
    intro value text tail
    have hstart : bold ≠ .start_tag ['a'] [(href, value)] false := by simp [bold]
    have hend : bold ≠ .end_tag ['a'] := by simp [bold]
    simp [anchor_tokens, hchars, hstart, hend]
  have hparent : bold ∉ parent_tokens request_path := by
    unfold parent_tokens
    split
    · exact hanchor _ _ _
    · simp
  have hfixed : bold ∉ before_title ∧ bold ∉ before_heading ∧ bold ∉ before_rows ∧
      bold ∉ after_rows := by decide
  simp [skeleton, rows_tokens, row_tokens, hchars, hanchor, hparent, hfixed]

/-- The name `<b>` adds an element to the page. -/
theorem name_adds_element :
    batch_read_dir_entries (one_file bold_name) server_d.scan [d_name]
        = some [entry_of bold_name] ∧
      ∃ html count, generate_dir_listing (one_file bold_name) server_d.scan [d_name] "/d/".toList
          = some (html, count) ∧
        bold ∈ tokenize common_references html ∧
        ¬ Safe common_references "/d/".toList html [entry_of bold_name] := by
  refine ⟨rfl, ?_⟩
  have hsome : ((generate_dir_listing (one_file bold_name) server_d.scan [d_name]
      "/d/".toList).map fun r => decide (bold ∈ tokenize common_references r.1)) = some true := by
    decide +kernel
  obtain ⟨⟨html, count⟩, hpage, hbold⟩ := Option.map_eq_some_iff.mp hsome
  have hmem := of_decide_eq_true hbold
  refine ⟨html, count, hpage, hmem, ?_⟩
  rintro ⟨rows, -, -, htokens⟩
  rw [htokens] at hmem
  exact bold_not_mem_skeleton _ _ _ hmem

end OneFile

end Rshs.Injection
