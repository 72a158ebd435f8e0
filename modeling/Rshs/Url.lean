/-
References that are resolved against the path of a URL.

A reference with a scheme or an authority leaves the URL it stands in. Any other is taken
as a path up to its query or fragment: an empty path is the path of the URL itself, and a
relative one takes the place of the last segment of that path. Dot segments are removed
from the result.

For a reference of one segment the result is the directory of the URL's path with the
segment after it (`resolve_path`).
-/
import Mathlib.Data.List.TakeWhile
import Mathlib.Tactic.ByContra

set_option autoImplicit false

namespace Url

/-! ## The parts of a reference -/

/-- What a scheme is made of, after the letter it begins with. -/
def scheme_char (c : Char) : Bool := c.isAlphanum || ['+', '-', '.'].contains c

def has_scheme : List Char → Bool
  | [] => false
  | c :: rest => c.isAlpha && (rest.dropWhile scheme_char).head? == some ':'

/-- The query and the fragment come after the path. -/
def in_path (c : Char) : Bool := c ≠ '?' && c ≠ '#'

def path_part (reference : List Char) : List Char := reference.takeWhile in_path

/-! ## Paths as segments -/

/-- The segments of a path, the separator in front of the first one aside. -/
def segments : List Char → List (List Char)
  | '/' :: path => path.splitOn '/'
  | path => path.splitOn '/'

def text (segs : List (List Char)) : List Char := segs.flatMap fun s => '/' :: s

/-- One segment after others: `.` stays where it is, `..` goes up. -/
def push (out : List (List Char)) (s : List Char) : List (List Char) :=
  if s = ['.'] then out else if s = ['.', '.'] then out.dropLast else out ++ [s]

/-- Dot segments are removed; the last one leaves its separator. -/
def remove_dot_segments (segs : List (List Char)) : List (List Char) :=
  match segs.getLast? with
  | none => []
  | some s =>
    if s = ['.'] ∨ s = ['.', '.'] then segs.foldl push [] ++ [[]] else segs.foldl push []

/-- The path a reference leads to from a path, if it stays with the same server. -/
def resolve (base reference : List Char) : Option (List Char) :=
  if has_scheme reference = true ∨ ['/', '/'] <+: reference then none
  else
    let path := path_part reference
    if path = [] then some base
    else if path.head? = some '/' then some (text (remove_dot_segments (segments path)))
    else some (text (remove_dot_segments ((segments base).dropLast ++ path.splitOn '/')))

/-- The directory of a path, without the separator at its end. -/
def directory (base : List Char) : List Char := text ((segments base).dropLast.foldl push [])

/-! ## Resolving one segment -/

/-- Nothing in a reference is taken for anything but a path. -/
structure Relative (reference : List Char) : Prop where
  no_scheme : has_scheme reference = false
  no_query : '?' ∉ reference
  no_fragment : '#' ∉ reference

theorem path_part_eq_iff {reference : List Char} :
    path_part reference = reference ↔ '?' ∉ reference ∧ '#' ∉ reference := by
  unfold path_part
  rw [List.takeWhile_eq_self_iff]
  constructor
  · intro h
    constructor
    · intro hmem
      have := h '?' hmem
      simp [in_path] at this
    · intro hmem
      have := h '#' hmem
      simp [in_path] at this
  · rintro ⟨hquery, hfragment⟩ c hc
    have hq : c ≠ '?' := fun heq => hquery (heq ▸ hc)
    have hf : c ≠ '#' := fun heq => hfragment (heq ▸ hc)
    simp [in_path, hq, hf]

/-- What is cut off begins with the mark of a query or a fragment. -/
theorem path_part_split (reference : List Char) :
    path_part reference = reference ∨
      ∃ c rest, reference = path_part reference ++ c :: rest ∧ (c = '?' ∨ c = '#') := by
  have hsplit := List.takeWhile_append_dropWhile (p := in_path) (l := reference)
  cases hdrop : reference.dropWhile in_path with
  | nil =>
    rw [hdrop, List.append_nil] at hsplit
    exact Or.inl hsplit
  | cons c rest =>
    rw [hdrop] at hsplit
    refine Or.inr ⟨c, rest, hsplit.symm, ?_⟩
    have hnot := List.head?_dropWhile_not in_path reference
    rw [hdrop] at hnot
    have hc : in_path c = false := by simpa using hnot
    by_contra hother
    rw [not_or] at hother
    simp [in_path, hother.1, hother.2] at hc

theorem text_append (xs ys : List (List Char)) : text (xs ++ ys) = text xs ++ text ys :=
  List.flatMap_append

/-- A text and the separators of its segments. -/
theorem text_splitOn (t : List Char) : text (t.splitOn '/') = '/' :: t := by
  induction t with
  | nil => rfl
  | cons c t ih =>
    obtain ⟨s, segs, hsplit⟩ := List.exists_cons_of_ne_nil (List.splitOn_ne_nil '/' t)
    rw [hsplit] at ih
    rw [List.splitOn_cons_eq_if_modifyHead, hsplit]
    have hs : s ++ text segs = t := by
      have htail := congrArg List.tail ih
      simpa [text] using htail
    split
    · rename_i hc
      rw [beq_iff_eq] at hc
      rw [hc]
      change '/' :: ([] ++ text (s :: segs)) = _
      rw [ih]
      rfl
    · change '/' :: (c :: s ++ text segs) = _
      rw [List.cons_append, hs]

/-- Segments that are no dot segments are put one after the other. -/
theorem foldl_push {out segs : List (List Char)}
    (h : ∀ s ∈ segs, s ≠ ['.'] ∧ s ≠ ['.', '.']) : segs.foldl push out = out ++ segs := by
  induction segs generalizing out with
  | nil => simp
  | cons s segs ih =>
    rw [List.forall_mem_cons] at h
    rw [List.foldl_cons, ih h.2, push, if_neg h.1.1, if_neg h.1.2, List.append_assoc,
      List.singleton_append]

/-- **A path without dot segments follows the directory.** -/
theorem resolve_path {base reference : List Char} (hscheme : has_scheme reference = false)
    (hhead : reference.head? ≠ some '/') (hpath : path_part reference ≠ [])
    (hdots : ∀ s ∈ (path_part reference).splitOn '/', s ≠ ['.'] ∧ s ≠ ['.', '.']) :
    resolve base reference = some (directory base ++ '/' :: path_part reference) := by
  have hnot : ¬ (has_scheme reference = true ∨ ['/', '/'] <+: reference) := by
    rintro (h | ⟨rest, rfl⟩)
    · rw [hscheme] at h
      cases h
    · exact hhead rfl
  have hhead' : (path_part reference).head? ≠ some '/' := by
    intro h
    rcases path_part_split reference with heq | ⟨c, rest, heq, -⟩
    · rw [heq] at h
      exact hhead h
    · rw [heq, List.head?_append, h] at hhead
      exact hhead rfl
  obtain ⟨pre, s, hlast⟩ := List.eq_nil_or_concat ((path_part reference).splitOn '/')
    |>.resolve_left (List.splitOn_ne_nil '/' _)
  rw [List.concat_eq_append] at hlast
  unfold resolve
  dsimp only
  rw [if_neg hnot, if_neg hpath, if_neg hhead']
  have hremove : remove_dot_segments
      ((segments base).dropLast ++ (path_part reference).splitOn '/')
        = (segments base).dropLast.foldl push [] ++ (path_part reference).splitOn '/' := by
    have hs := hdots s (by rw [hlast]; simp)
    unfold remove_dot_segments
    rw [hlast, ← List.append_assoc, List.getLast?_concat]
    dsimp only
    rw [if_neg (by
      rintro (h | h)
      · exact hs.1 h
      · exact hs.2 h), List.append_assoc, ← hlast, List.foldl_append, foldl_push hdots]
  rw [hremove, text_append, text_splitOn]
  rfl

end Url
