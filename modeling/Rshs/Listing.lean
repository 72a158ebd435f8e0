/-
`html.rs`: the listing of a directory.

A listing is a page around one row for each entry: the anchor, then the columns with the
date and the size. The names and the request path are written as they are.

The page is nothing where the date of an entry makes the formatter panic.
-/
import Rshs.Dates
import Rshs.Propfind
import Mathlib.Data.Nat.Log

set_option autoImplicit false

namespace Rshs.Listing

open StdPath Posix Text Rshs.Time Rshs.Href Rshs.Propfind

/-! ## The columns -/

def display_name_len (e : DirEntryMeta) : ℕ := e.name.bytes.length + if e.is_dir then 1 else 0

def size_label (e : DirEntryMeta) : List Char := if e.is_dir then ['-'] else Nat.toDigits 10 e.size

/-- `checked_ilog10` is nothing at zero, and counts as zero there. -/
def size_label_len (e : DirEntryMeta) : ℕ := if e.is_dir then 1 else Nat.log 10 e.size + 1

/-- The widest name and the widest size. -/
def widths (entries : List DirEntryMeta) : ℕ × ℕ :=
  entries.foldl (fun m e => (max m.1 (display_name_len e), max m.2 (size_label_len e))) (0, 0)

/-- `{:>width$}`. -/
def right_aligned (width : ℕ) (s : List Char) : List Char :=
  List.replicate (width - s.length) ' ' ++ s

/-- What stands behind an anchor: the padding, the date and the size. -/
def columns (name_col max_size_len : ℕ) (e : DirEntryMeta) : Option (List Char) := do
  let date_str ← Dates.format_rfc850 e.modified
  return List.replicate (name_col - display_name_len e) ' ' ++ date_str ++ "    ".toList ++
    right_aligned max_size_len (size_label e) ++ ['\n']

/-! ## The page -/

/-- Directories before files, then by the bytes of the name. -/
def before (a b : DirEntryMeta) : Bool :=
  ((compare b.is_dir a.is_dir).then (List.compareLex compare a.name.bytes b.name.bytes)).isLE

def sorted (entries : List DirEntryMeta) : List DirEntryMeta := entries.mergeSort before

def anchor (e : DirEntryMeta) : List Char :=
  let name := to_string_lossy e.name
  if e.is_dir then
    "<a href=\"".toList ++ name ++ "/\">".toList ++ name ++ "/</a>".toList
  else
    "<a href=\"".toList ++ name ++ "\">".toList ++ name ++ "</a>".toList

def header (decoded_path : List Char) : List Char :=
  "<!DOCTYPE html><html><head><title>Index of ".toList ++ decoded_path ++
    "</title><meta charset=\"utf-8\"></head><body><h1>Index of ".toList ++ decoded_path ++
    "</h1><hr><pre>".toList

def parent_link (request_path : List Char) : List Char :=
  if request_path ≠ ['/'] then "<a href=\"../\">../</a>\n".toList else []

def footer : List Char := "</pre><hr></body></html>".toList

/-- The page around the rows: the entries, each with what stands behind its anchor. -/
def page (request_path : List Char) (rows : List (DirEntryMeta × List Char)) : List Char :=
  header (decode request_path) ++ parent_link request_path ++
    rows.flatMap (fun row => anchor row.1 ++ row.2) ++ footer

/-- The rows of a listing, in the order they are written. -/
def rows (entries : List DirEntryMeta) : Option (List (DirEntryMeta × List Char)) :=
  let entries := sorted entries
  let (max_name_len, max_size_len) := widths entries
  let name_col := max_name_len + 20
  entries.mapM fun e => (columns name_col max_size_len e).map fun cs => (e, cs)

def error_page : List Char :=
  ("<!DOCTYPE html><html><head><title>Error</title></head><body><h1>Cannot read directory" ++
    "</h1></body></html>").toList

/-- The page, and how many entries it lists. -/
def generate_dir_listing (disk : Disk) (scan : Scan) (dir_path : Path) (request_path : List Char) :
    Option (List Char × ℕ) :=
  match batch_read_dir_entries disk scan dir_path with
  | none => some (error_page, 0)
  | some entries => (rows entries).map fun rs => (page request_path rs, entries.length)

/-- Every listing of a directory is written: the dates are those a file system keeps. -/
theorem listing_written (disk : Disk) (scan : Scan) (dir_path : Path) (request_path : List Char) :
    ∃ html count, generate_dir_listing disk scan dir_path request_path = some (html, count) := by
  unfold generate_dir_listing
  cases hbatch : batch_read_dir_entries disk scan dir_path with
  | none => exact ⟨_, _, rfl⟩
  | some entries =>
    have hrows : (rows entries).isSome = true := by
      unfold rows
      dsimp only
      rw [Str.mapM_isSome_iff]
      intro e he
      obtain ⟨dir, n, hn⟩ := batch_entries hbatch e (List.mem_mergeSort.mp he)
      obtain ⟨date_str, hdate⟩ := Option.isSome_iff_exists.mp (entry_modified hn).1
      unfold columns
      rw [hdate]
      rfl
    obtain ⟨rs, hrs⟩ := Option.isSome_iff_exists.mp hrows
    dsimp only
    rw [hrs]
    exact ⟨_, _, rfl⟩

/-! ## What an anchor is made of -/

/-- The text of an entry's anchor, which is also the value of its `href`. -/
def shown (e : DirEntryMeta) : List Char :=
  to_string_lossy e.name ++ if e.is_dir then ['/'] else []

theorem anchor_eq (e : DirEntryMeta) : anchor e =
    "<a href=\"".toList ++ (shown e ++ ("\">".toList ++ (shown e ++ "</a>".toList))) := by
  have hdir : "/\">".toList = '/' :: "\">".toList := rfl
  have hend : "/</a>".toList = '/' :: "</a>".toList := rfl
  unfold anchor shown
  cases e.is_dir <;> simp [hdir, hend]

theorem mapM_pair {α β : Type} {f : α → Option β} {es : List α} {rs : List (α × β)}
    (h : es.mapM (fun e => (f e).map fun b => (e, b)) = some rs) :
    rs.map Prod.fst = es ∧ ∀ row ∈ rs, f row.1 = some row.2 := by
  have hall := Str.mapM_some_iff.mp h
  constructor
  · clear h
    induction hall with
    | nil => rfl
    | cons hrow _ ih =>
      obtain ⟨b, -, rfl⟩ := Option.map_eq_some_iff.mp hrow
      rw [List.map_cons, ih]
  · intro row hrow
    obtain ⟨e, -, he⟩ := Str.exists_of_mem_right hall row hrow
    obtain ⟨b, hb, rfl⟩ := Option.map_eq_some_iff.mp he
    exact hb

/-- The rows are those of the entries, in their order, each with its columns. -/
theorem rows_entries {entries : List DirEntryMeta} {rs : List (DirEntryMeta × List Char)}
    (h : rows entries = some rs) : rs.map Prod.fst = sorted entries ∧
      ∀ row ∈ rs, ∃ name_col max_size_len, columns name_col max_size_len row.1 = some row.2 := by
  obtain ⟨hentries, hcols⟩ := mapM_pair h
  exact ⟨hentries, fun row hrow => ⟨_, _, hcols row hrow⟩⟩

end Rshs.Listing
