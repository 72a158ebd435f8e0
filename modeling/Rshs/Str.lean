/-
Operations of `str` that split, strip and trim, for texts as lists of characters.

Each is the standard library's by its documented behaviour: whitespace is Unicode's
`White_Space`, `lines` ends a line at a line feed with an optional carriage return
before it, and `from_utf8` accepts exactly the bytes that are the encoding of some
text. The lemmas say what survives a `trim` and which texts have a piece that does, and
what a list is that is collected through a partial function.
-/
import Rshs.Text
import Mathlib.Data.List.DropRight
import Mathlib.Data.List.Forall2

set_option autoImplicit false

namespace Str

/-! ## Operations -/

/-- `char::is_whitespace`. -/
def is_whitespace (c : Char) : Bool :=
  let n := c.toNat
  (9 ≤ n && n ≤ 13) || n == 32 || n == 0x85 || n == 0xA0 || n == 0x1680 ||
    (0x2000 ≤ n && n ≤ 0x200A) || n == 0x2028 || n == 0x2029 || n == 0x202F || n == 0x205F ||
    n == 0x3000

/-- `str::trim`. -/
def trim (s : List Char) : List Char := (s.dropWhile is_whitespace).rdropWhile is_whitespace

/-- `str::trim_end`. -/
def trim_end (s : List Char) : List Char := s.rdropWhile is_whitespace

/-- `str::split_once`, at a character. -/
def split_once (c : Char) : List Char → Option (List Char × List Char)
  | [] => none
  | d :: s => if d = c then some ([], s) else (split_once c s).map fun p => (d :: p.1, p.2)

/-- `str::strip_prefix`. -/
def strip_prefix (pre s : List Char) : Option (List Char) :=
  if pre.isPrefixOf s then some (s.drop pre.length) else none

/-- `str::strip_suffix`. -/
def strip_suffix (suf s : List Char) : Option (List Char) :=
  if suf.isSuffixOf s then some (s.take (s.length - suf.length)) else none

def to_ascii_lowercase (c : Char) : Char :=
  if 'A' ≤ c ∧ c ≤ 'Z' then Char.ofNat (c.toNat + 32) else c

/-- `str::eq_ignore_ascii_case`. -/
def eq_ignore_ascii_case (s t : List Char) : Bool :=
  s.map to_ascii_lowercase = t.map to_ascii_lowercase

/-- A line without the carriage return of its end. -/
def strip_cr (line : List Char) : List Char := (strip_suffix ['\r'] line).getD line

/-- `str::lines`. -/
def lines (s : List Char) : List (List Char) :=
  let segs := s.splitOn '\n'
  segs.dropLast.map strip_cr ++ segs.getLast?.toList.filter (· ≠ [])

/-- `str::split_whitespace`. -/
def split_whitespace (s : List Char) : List (List Char) :=
  (s.splitOnP is_whitespace).filter (· ≠ [])

/-- `str::from_utf8`. -/
def from_utf8 (bytes : List UInt8) : Option (List Char) :=
  if Text.utf8_encode (Text.utf8_lossy bytes) = bytes then some (Text.utf8_lossy bytes) else none

example : lines "a\r\nb\n\nc".toList = ["a".toList, "b".toList, [], "c".toList] := by decide

example : split_whitespace " a\tb  c".toList = ["a".toList, "b".toList, "c".toList] := by decide

/-! ## What survives -/

theorem trim_eq_nil {s : List Char} : trim s = [] ↔ ∀ c ∈ s, is_whitespace c = true := by
  unfold trim
  rw [List.rdropWhile_eq_nil_iff]
  constructor
  · intro h c hc
    by_contra hne
    -- the first character that is no whitespace begins what is left
    have hleft : s.dropWhile is_whitespace ≠ [] := by
      intro hnil
      exact hne (List.dropWhile_eq_nil_iff.mp hnil c hc)
    have hhead := List.head_dropWhile_not is_whitespace hleft
    have hall := h _ (List.head_mem hleft)
    rw [hall] at hhead
    contradiction
  · intro h c hc
    exact h c (List.dropWhile_sublist is_whitespace |>.subset hc)

theorem mem_of_mem_trim {s : List Char} {c : Char} (h : c ∈ trim s) : c ∈ s := by
  have hpre : trim s <+: s.dropWhile is_whitespace := List.rdropWhile_prefix _ _
  exact (List.dropWhile_sublist is_whitespace).subset (hpre.subset h)

/-- What is no whitespace survives. -/
theorem mem_trim {s : List Char} {c : Char} (hc : c ∈ s) (hw : is_whitespace c = false) :
    c ∈ trim s := by
  have hleft : c ∈ s.dropWhile is_whitespace := by
    rw [← List.takeWhile_append_dropWhile (p := is_whitespace) (l := s), List.mem_append] at hc
    apply hc.resolve_left
    intro htake
    have := List.mem_takeWhile_imp htake
    rw [hw] at this
    contradiction
  rw [← List.rdropWhile_append_rtakeWhile (p := is_whitespace) (l := s.dropWhile is_whitespace),
    List.mem_append] at hleft
  apply hleft.resolve_right
  intro htake
  have := List.mem_rtakeWhile_imp htake
  rw [hw] at this
  contradiction

/-- What is left of a text when its ends are stripped of some characters begins with
none of them. -/
theorem head_stripped {p : Char → Bool} {s cs : List Char} {c : Char}
    (h : (s.dropWhile p).rdropWhile p = c :: cs) : p c = false := by
  have hpre : (s.dropWhile p).rdropWhile p <+: s.dropWhile p := List.rdropWhile_prefix _ _
  rw [h] at hpre
  obtain ⟨t, ht⟩ := hpre
  have hne : s.dropWhile p ≠ [] := by
    rw [← ht]
    simp
  have hhead := List.head_dropWhile_not p hne
  have heq : (s.dropWhile p).head hne = c := by
    simp only [← ht, List.cons_append, List.head_cons]
  rw [heq] at hhead
  simpa using hhead

/-- What is trimmed begins with no whitespace. -/
theorem head_trim {s : List Char} {c : Char} {cs : List Char} (h : trim s = c :: cs) :
    is_whitespace c = false :=
  head_stripped h

/-- A text is what is left of it between two ends of whitespace. -/
theorem trim_ends (s : List Char) :
    ∃ front back, s = front ++ trim s ++ back ∧ (∀ c ∈ front, is_whitespace c = true) ∧
      ∀ c ∈ back, is_whitespace c = true := by
  refine ⟨s.takeWhile is_whitespace, (s.dropWhile is_whitespace).rtakeWhile is_whitespace, ?_,
    fun c hc => List.mem_takeWhile_imp hc, fun c hc => List.mem_rtakeWhile_imp hc⟩
  unfold trim
  rw [List.append_assoc, List.rdropWhile_append_rtakeWhile, List.takeWhile_append_dropWhile]

theorem trim_front {front s : List Char} (h : ∀ c ∈ front, is_whitespace c = true) :
    trim (front ++ s) = trim s := by
  unfold trim
  rw [List.dropWhile_append_of_pos h]

theorem trim_back {s back : List Char} (h : ∀ c ∈ back, is_whitespace c = true) :
    trim (s ++ back) = trim s := by
  unfold trim
  have hback : ∀ t : List Char, (t ++ back).rdropWhile is_whitespace = t.rdropWhile is_whitespace := by
    intro t
    unfold List.rdropWhile
    rw [List.reverse_append,
      List.dropWhile_append_of_pos (fun c hc => h c (List.mem_reverse.mp hc))]
  rw [List.dropWhile_append]
  split
  · rename_i hnil
    rw [List.isEmpty_iff.mp hnil, List.dropWhile_eq_nil_iff.mpr h]
  · exact hback _

theorem trim_strip_cr (line : List Char) : trim (strip_cr line) = trim line := by
  unfold strip_cr strip_suffix
  split
  · rename_i hcr
    obtain ⟨front, hfront⟩ := List.isSuffixOf_iff_suffix.mp hcr
    have hback : ∀ c ∈ ['\r'], is_whitespace c = true := by
      intro c hc
      rw [List.mem_singleton.mp hc]
      decide
    rw [Option.getD_some, ← hfront, List.length_append, Nat.add_sub_cancel, List.take_left,
      trim_back hback]
  · rfl

theorem mem_of_mem_strip_cr {line : List Char} {c : Char} (h : c ∈ strip_cr line) : c ∈ line := by
  unfold strip_cr strip_suffix at h
  split at h
  · rw [Option.getD_some] at h
    exact List.mem_of_mem_take h
  · exact h

/-- A text that does not begin with whitespace is trimmed at its end only. -/
theorem trim_eq_trim_end {s : List Char} (h : ∀ c ∈ s.head?, is_whitespace c = false) :
    trim s = trim_end s := by
  unfold trim trim_end
  cases s with
  | nil => rfl
  | cons c s => rw [List.dropWhile_cons_of_neg (by simp [h c rfl])]

theorem trim_end_append {front s : List Char} (h : trim_end s ≠ []) :
    trim_end (front ++ s) = front ++ trim_end s := by
  unfold trim_end List.rdropWhile at h ⊢
  rw [List.reverse_append, List.dropWhile_append, if_neg]
  · rw [List.reverse_append, List.reverse_reverse]
  · intro hnil
    rw [List.isEmpty_iff.mp hnil] at h
    exact h rfl

theorem trim_end_prefix (s : List Char) : trim_end s <+: s := List.rdropWhile_prefix _ _

/-- A text that begins with no whitespace keeps its beginning. -/
theorem trim_end_head {s : List Char} {c : Char} (hs : s.head? = some c)
    (hc : is_whitespace c = false) : (trim_end s).head? = some c := by
  obtain ⟨t, rfl⟩ := List.head?_eq_some_iff.mp hs
  have hne : trim_end (c :: t) ≠ [] := by
    intro hnil
    have hall := List.rdropWhile_eq_nil_iff.mp hnil c List.mem_cons_self
    rw [hc] at hall
    cases hall
  obtain ⟨d, ds, hcons⟩ := List.exists_cons_of_ne_nil hne
  have hpre := trim_end_prefix (c :: t)
  rw [hcons, List.cons_prefix_cons] at hpre
  rw [hcons, hpre.1]
  rfl

theorem trim_end_self {s : List Char} (h : ∀ c ∈ s, is_whitespace c = false) : trim_end s = s := by
  unfold trim_end
  rw [List.rdropWhile_eq_self_iff]
  intro hne
  rw [h _ (List.getLast_mem hne)]
  exact Bool.false_ne_true

/-! ## Splitting -/

/-- A piece more at the end of a text is one more at the end of its last piece. -/
theorem splitOnP_append {p : Char → Bool} (s : List Char) {back : List Char}
    (h : ∀ c ∈ back, p c = false) :
    ∃ pieces last, s.splitOnP p = pieces ++ [last] ∧
      (s ++ back).splitOnP p = pieces ++ [last ++ back] := by
  induction s with
  | nil =>
    refine ⟨[], [], by simp, ?_⟩
    rw [List.nil_append, List.nil_append]
    exact List.splitOnP_eq_singleton h
  | cons c s ih =>
    obtain ⟨pieces, last, hs, hback⟩ := ih
    rw [List.cons_append, List.splitOnP_cons_eq_if_modifyHead, List.splitOnP_cons_eq_if_modifyHead,
      hs, hback]
    by_cases hc : p c = true
    · rw [if_pos hc, if_pos hc]
      exact ⟨[] :: pieces, last, rfl, rfl⟩
    · rw [if_neg hc, if_neg hc]
      cases pieces with
      | nil => exact ⟨[], c :: last, rfl, rfl⟩
      | cons piece pieces => exact ⟨(c :: piece) :: pieces, last, rfl, rfl⟩

/-- A piece more at the front of a text is one more at the front of its first piece. -/
theorem splitOnP_prepend {p : Char → Bool} {front : List Char} (s : List Char)
    (h : ∀ c ∈ front, p c = false) :
    (front ++ s).splitOnP p = (s.splitOnP p).modifyHead (front ++ ·) := by
  induction front with
  | nil =>
    obtain ⟨t, ts, hsplit⟩ := List.exists_cons_of_ne_nil (List.splitOnP_ne_nil p s)
    rw [List.nil_append, hsplit]
    rfl
  | cons c front ih =>
    rw [List.forall_mem_cons] at h
    obtain ⟨t, ts, hsplit⟩ := List.exists_cons_of_ne_nil (List.splitOnP_ne_nil p s)
    rw [List.cons_append, List.splitOnP_cons_eq_if_modifyHead, ih h.2, hsplit, h.1]
    rfl

/-- The trimmed pieces of a text are those of the trimmed text. -/
theorem map_trim_pieces {p : Char → Bool} (h : ∀ c, is_whitespace c = true → p c = false)
    (s : List Char) : (s.splitOnP p).map trim = ((trim s).splitOnP p).map trim := by
  obtain ⟨front, back, hs, hfront, hback⟩ := trim_ends s
  obtain ⟨pieces, last, hmid, hend⟩ :=
    splitOnP_append (p := p) (trim s) (fun c hc => h c (hback c hc))
  have hlast : ((trim s ++ back).splitOnP p).map trim = ((trim s).splitOnP p).map trim := by
    rw [hend, hmid, List.map_append, List.map_append, List.map_singleton, List.map_singleton,
      trim_back hback]
  have hsplit : s.splitOnP p = ((trim s ++ back).splitOnP p).modifyHead (front ++ ·) := by
    rw [← splitOnP_prepend _ (fun c hc => h c (hfront c hc)), ← List.append_assoc, ← hs]
  obtain ⟨t, ts, hcons⟩ := List.exists_cons_of_ne_nil (List.splitOnP_ne_nil p (trim s ++ back))
  rw [← hlast, hsplit, hcons, List.modifyHead_cons, List.map_cons, List.map_cons, trim_front hfront]

theorem split_once_append {c : Char} {a b : List Char} (h : c ∉ a) :
    split_once c (a ++ c :: b) = some (a, b) := by
  induction a with
  | nil =>
    unfold split_once
    simp
  | cons d a ih =>
    rw [List.mem_cons, not_or] at h
    rw [List.cons_append]
    unfold split_once
    rw [if_neg (Ne.symm h.1), ih h.2]
    rfl

theorem split_once_some {c : Char} {s a b : List Char} (h : split_once c s = some (a, b)) :
    c ∉ a ∧ s = a ++ c :: b := by
  induction s generalizing a b with
  | nil => cases h
  | cons d s ih =>
    unfold split_once at h
    split at h
    · rename_i hd
      simp only [Option.some.injEq, Prod.mk.injEq] at h
      rw [← h.1, ← h.2, hd]
      exact ⟨List.not_mem_nil, rfl⟩
    · rename_i hd
      obtain ⟨⟨a', b'⟩, hp, hpair⟩ := Option.map_eq_some_iff.mp h
      simp only [Prod.mk.injEq] at hpair
      obtain ⟨hmem, hs⟩ := ih hp
      rw [← hpair.1, ← hpair.2, hs, List.mem_cons, not_or]
      exact ⟨⟨Ne.symm hd, hmem⟩, rfl⟩

theorem split_once_none {c : Char} {s : List Char} (h : c ∉ s) : split_once c s = none := by
  rw [Option.eq_none_iff_forall_ne_some]
  rintro ⟨a, b⟩ heq
  rw [(split_once_some heq).2] at h
  exact h (List.mem_append_right a List.mem_cons_self)

theorem not_mem_of_split_once {c : Char} {s : List Char} (h : split_once c s = none) : c ∉ s := by
  induction s with
  | nil => exact List.not_mem_nil
  | cons d s ih =>
    unfold split_once at h
    split at h
    · cases h
    · rename_i hd
      rw [Option.map_eq_none_iff] at h
      rw [List.mem_cons, not_or]
      exact ⟨Ne.symm hd, ih h⟩

/-- The characters of the pieces are those that separate nothing. -/
theorem mem_splitOnP_iff {p : Char → Bool} {s : List Char} {d : Char} :
    (∃ t ∈ s.splitOnP p, d ∈ t) ↔ d ∈ s ∧ p d = false := by
  induction s with
  | nil => simp
  | cons e s ih =>
    rw [List.splitOnP_cons_eq_if_modifyHead]
    obtain ⟨h, ts, hsplit⟩ := List.exists_cons_of_ne_nil (List.splitOnP_ne_nil p s)
    rw [hsplit] at ih ⊢
    by_cases he : p e = true
    · rw [if_pos he]
      have hstep : (∃ t ∈ [] :: h :: ts, d ∈ t) ↔ ∃ t ∈ h :: ts, d ∈ t := by simp
      rw [hstep, ih, List.mem_cons]
      constructor
      · intro hd
        exact ⟨Or.inr hd.1, hd.2⟩
      · intro hd
        refine ⟨?_, hd.2⟩
        -- the separator itself is in no piece
        apply hd.1.resolve_left
        intro heq
        rw [heq, he] at hd
        cases hd.2
    · rw [if_neg he, List.modifyHead_cons]
      have hstep : (∃ t ∈ (e :: h) :: ts, d ∈ t) ↔ d = e ∨ ∃ t ∈ h :: ts, d ∈ t := by
        simp [or_assoc]
      rw [hstep, ih, List.mem_cons]
      constructor
      · intro hd
        rcases hd with heq | hd
        · rw [heq]
          exact ⟨Or.inl rfl, by simpa using he⟩
        · exact ⟨Or.inr hd.1, hd.2⟩
      · intro hd
        rcases hd.1 with heq | hmem
        · exact Or.inl heq
        · exact Or.inr ⟨hmem, hd.2⟩

/-- The lines of a text have no line feed. -/
theorem mem_lines {s line : List Char} (h : line ∈ lines s) : '\n' ∉ line := by
  have hseg : ∀ seg ∈ s.splitOn '\n', '\n' ∉ seg := by
    intro seg hseg hmem
    have hp := (mem_splitOnP_iff.mp ⟨seg, hseg, hmem⟩).2
    exact absurd hp (by decide)
  unfold lines at h
  rcases List.mem_append.mp h with hline | hlast
  · obtain ⟨seg, hmem, rfl⟩ := List.mem_map.mp hline
    intro hbreak
    exact hseg seg ((List.dropLast_sublist _).subset hmem) (mem_of_mem_strip_cr hbreak)
  · have hmem := (List.mem_filter.mp hlast).1
    rw [Option.mem_toList] at hmem
    exact hseg line (List.mem_of_getLast? hmem)

/-- Lines that are ended by a line feed each are read back. -/
theorem lines_ended {ls : List (List Char)} (h : ∀ line ∈ ls, '\n' ∉ line) :
    lines (ls.flatMap fun line => line ++ ['\n']) = ls.map strip_cr := by
  have hsplit : (ls.flatMap fun line => line ++ ['\n']).splitOn '\n' = ls ++ [[]] := by
    induction ls with
    | nil => rfl
    | cons line ls ih =>
      rw [List.forall_mem_cons] at h
      rw [List.flatMap_cons, List.append_assoc, List.singleton_append,
        List.splitOn_append_cons_self, List.splitOn_eq_singleton h.1, ih h.2]
      rfl
  unfold lines
  dsimp only
  rw [hsplit, List.dropLast_concat, List.getLast?_concat]
  exact List.append_nil _

/-- A text without whitespace at its ends is split into a first piece and others. -/
theorem split_whitespace_ne_nil {s : List Char} {c : Char} (hc : c ∈ s)
    (hw : is_whitespace c = false) : split_whitespace s ≠ [] := by
  obtain ⟨t, ht, hct⟩ := mem_splitOnP_iff.mpr ⟨hc, hw⟩
  have hne : t ≠ [] := List.ne_nil_of_mem hct
  apply List.ne_nil_of_mem
  exact List.mem_filter.mpr ⟨ht, by simpa using hne⟩

/-! ## Collecting through a partial function -/

section Collect

variable {α β : Type} {f : α → Option β} {xs : List α} {ys : List β}

/-- The collected list has the value of each element at its place. -/
theorem mapM_some_iff : xs.mapM f = some ys ↔ List.Forall₂ (fun x y => f x = some y) xs ys := by
  induction xs generalizing ys with
  | nil =>
    rw [List.mapM_nil, List.forall₂_nil_left_iff]
    exact ⟨fun h => (Option.some.inj h).symm, fun h => congrArg some h.symm⟩
  | cons x xs ih =>
    rw [List.mapM_cons, List.forall₂_cons_left_iff]
    constructor
    · intro h
      obtain ⟨y, hy, hrest⟩ := Option.bind_eq_some_iff.mp h
      obtain ⟨ys', hys, hcons⟩ := Option.bind_eq_some_iff.mp hrest
      exact ⟨y, ys', hy, ih.mp hys, (Option.some.inj hcons).symm⟩
    · rintro ⟨y, ys', hy, hys, rfl⟩
      rw [hy, ih.mpr hys]
      rfl

theorem mapM_isSome_iff : (xs.mapM f).isSome = true ↔ ∀ x ∈ xs, (f x).isSome = true := by
  induction xs with
  | nil => simp
  | cons x xs ih =>
    rw [List.mapM_cons, List.forall_mem_cons, ← ih]
    cases f x with
    | none => simp
    | some y => cases xs.mapM f <;> simp

/-- What is collected, by a function that has the value of each element. -/
theorem mapM_eq_map {g : α → β} (h : xs.mapM f = some ys)
    (hg : ∀ x ∈ xs, ∀ y, f x = some y → g x = y) : ys = xs.map g := by
  have hall := mapM_some_iff.mp h
  induction hall with
  | nil => rfl
  | cons hy hys ih =>
    rw [List.forall_mem_cons] at hg
    rw [List.map_cons, hg.1 _ hy, ← ih (mapM_some_iff.mpr hys) hg.2]

/-- What is on the right of two related lists is related to something on the left. -/
theorem exists_of_mem_right {R : α → β → Prop} (h : List.Forall₂ R xs ys) :
    ∀ y ∈ ys, ∃ x ∈ xs, R x y := by
  induction h with
  | nil => exact List.forall_mem_nil _
  | cons hxy _ ih =>
    intro y hy
    rcases List.mem_cons.mp hy with rfl | hy
    · exact ⟨_, List.mem_cons_self, hxy⟩
    · obtain ⟨x, hx, hrel⟩ := ih y hy
      exact ⟨x, List.mem_cons_of_mem _ hx, hrel⟩

end Collect

end Str
