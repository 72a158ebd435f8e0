/-
Paths as `std::path` sees them: file names, components, `PathBuf` and the
canonical absolute paths that `realpath` returns.

Every operation of `std::path` (`==`, hashing, `starts_with`, `parent`,
`file_name`, `join`) works on the components of a path, which forget repeated
separators and every `.` but a leading one. One thing of the text survives beside
them and matters to the system calls: whether it ends in a separator (or in
`/.`), since such a path only names a directory. A `PathBuf` here is those two.

A canonical path is the list of its names from the root (`Path`): no link, no
`.`, no `..`.
-/
import Rshs.Text
import Mathlib.Data.List.Infix

set_option autoImplicit false

namespace StdPath

open Text

/-! ## Names -/

/-- What a directory entry may be called: not empty, no separator, neither `.`
nor `..`. -/
def Name.Legal (bs : List UInt8) : Prop := bs ≠ [] ∧ bs ≠ [46] ∧ bs ≠ [46, 46] ∧ 47 ∉ bs

instance (bs : List UInt8) : Decidable (Name.Legal bs) :=
  inferInstanceAs (Decidable (_ ∧ _ ∧ _ ∧ _))

/-- A file name, as the bytes of its directory entry. -/
structure Name where
  bytes : List UInt8
  legal : Name.Legal bytes
deriving DecidableEq

/-- Every letter is a name. -/
theorem Name.legal_letter {b : UInt8} (h : 97 ≤ b) : Name.Legal [b] := by
  have hdot : b ≠ 46 := by rintro rfl; exact absurd h (by decide)
  have hslash : b ≠ 47 := by rintro rfl; exact absurd h (by decide)
  exact ⟨by simp, by simpa using hdot, by simp, by simpa using hslash.symm⟩

-- the names of the examples
def a_name : Name := ⟨[97], Name.legal_letter (by decide)⟩
def b_name : Name := ⟨[98], Name.legal_letter (by decide)⟩
def d_name : Name := ⟨[100], Name.legal_letter (by decide)⟩
def e_name : Name := ⟨[101], Name.legal_letter (by decide)⟩
def f_name : Name := ⟨[102], Name.legal_letter (by decide)⟩
def g_name : Name := ⟨[103], Name.legal_letter (by decide)⟩
def l_name : Name := ⟨[108], Name.legal_letter (by decide)⟩
def o_name : Name := ⟨[111], Name.legal_letter (by decide)⟩
def r_name : Name := ⟨[114], Name.legal_letter (by decide)⟩
def s_name : Name := ⟨[115], Name.legal_letter (by decide)⟩
def x_name : Name := ⟨[120], Name.legal_letter (by decide)⟩

/-- No system call accepts a name with a NUL byte. -/
def Name.has_nul (n : Name) : Bool := n.bytes.contains 0

/-- Every other piece of a text between separators is a name. -/
theorem Name.legal_of_segment {s : List Char} (hne : s ≠ []) (hdot : s ≠ ['.'])
    (hdots : s ≠ ['.', '.']) (hslash : '/' ∉ s) : Name.Legal (utf8_encode s) := by
  have hchar : ∀ c : Char, c.toNat = 46 → c = '.' := fun c hc => Char.toNat_inj.mp hc
  have hbyte : ∀ c cs bs, utf8_encode (c :: cs) = 46 :: bs → c = '.' ∧ utf8_encode cs = bs := by
    intro c cs bs h
    obtain ⟨hc, hcs⟩ := utf8_encode_cons_low h (by decide)
    exact ⟨hchar c hc, hcs⟩
  obtain ⟨c, cs, rfl⟩ := List.exists_cons_of_ne_nil hne
  refine ⟨fun h => hne (utf8_encode_eq_nil.mp h), fun h => ?_, fun h => ?_, fun h => ?_⟩
  · obtain ⟨rfl, hcs⟩ := hbyte c cs _ h
    rw [utf8_encode_eq_nil.mp hcs] at hdot
    exact hdot rfl
  · obtain ⟨rfl, hcs⟩ := hbyte c cs _ h
    rcases cs with _ | ⟨d, ds⟩
    · cases hcs
    · obtain ⟨rfl, hds⟩ := hbyte d ds _ hcs
      rw [utf8_encode_eq_nil.mp hds] at hdots
      exact hdots rfl
  · obtain ⟨d, hd, hnat⟩ := mem_utf8_encode_low h (by decide)
    have hslash' : d = '/' := Char.toNat_inj.mp hnat
    rw [hslash'] at hd
    exact hslash hd

/-- A canonical absolute path: the names from the root down. -/
abbrev Path := List Name

/-! ## Components -/

/-- `std::path::Component` on Unix. -/
inductive Component
  | rootDir
  | curDir
  | parentDir
  | normal (n : Name)
deriving DecidableEq

/-- The components of a canonical path. -/
def Path.comps (p : Path) : List Component := .rootDir :: p.map .normal

/-- A path as text: its components, and whether the text ends in a separator. -/
structure PathBuf where
  comps : List Component
  slash : Bool
deriving DecidableEq

/-- The component a piece of text between separators stands for. Only the first
piece of a relative path keeps its `.`. -/
def Component.of_segment (first : Bool) (s : List Char) : Option Component :=
  if h : Name.Legal (utf8_encode s) then some (.normal ⟨utf8_encode s, h⟩)
  else if s = ['.', '.'] then some .parentDir
  else if s = ['.'] ∧ first = true then some .curDir
  else none

/-- `PathBuf::from`. -/
def PathBuf.of_text (t : List Char) : PathBuf :=
  let segs := t.splitOn '/'
  let absolute := t.head? = some '/'
  { comps := (if absolute then [.rootDir] else [])
      ++ (segs.head?.bind (Component.of_segment (!decide absolute))).toList
      ++ segs.tail.filterMap (Component.of_segment false)
    slash := decide (2 ≤ segs.length ∧ (segs.getLast? = some [] ∨ segs.getLast? = some ['.'])) }

/-- `Path::is_absolute`. -/
def PathBuf.is_absolute (p : PathBuf) : Bool := p.comps.head? = some .rootDir

/-- `Path::join`: an absolute path replaces, a relative one is appended. -/
def PathBuf.join (p q : PathBuf) : PathBuf :=
  if q.is_absolute then q
  else if p.comps = [] then q
  else
    let added := q.comps.dropWhile (· = .curDir)
    { comps := p.comps ++ added, slash := if added = [] then true else q.slash }

/-- `Path::parent`. -/
def PathBuf.parent (p : PathBuf) : Option PathBuf :=
  match p.comps.getLast? with
  | none | some .rootDir => none
  | some _ => some { comps := p.comps.dropLast, slash := false }

/-- `Path::file_name`. -/
def PathBuf.file_name (p : PathBuf) : Option Name :=
  match p.comps.getLast? with
  | some (.normal n) => some n
  | _ => none

/-- `Path::starts_with`, for a canonical path. -/
def Path.starts_with (p : Path) (root : PathBuf) : Bool := root.comps.isPrefixOf p.comps

/-- A canonical path as a `PathBuf`. -/
def Path.to_buf (p : Path) : PathBuf := { comps := p.comps, slash := false }

/-! ## Texts without dot segments -/

/-- The name a piece of text between separators is. -/
def Name.of_segment (s : List Char) : Option Name :=
  if h : Name.Legal (utf8_encode s) then some ⟨utf8_encode s, h⟩ else none

/-- The names of a text, in order. -/
def names_of_text (t : List Char) : List Name := (t.splitOn '/').filterMap Name.of_segment

/-- A relative text that ends in a name and has no dot segment. -/
structure Plain (t : List Char) : Prop where
  relative : t.head? ≠ some '/'
  not_nil : t ≠ []
  not_dir : t.getLast? ≠ some '/'
  no_dots : ∀ s ∈ t.splitOn '/', s ≠ ['.', '.'] ∧ s ≠ ['.']

theorem Component.of_segment_plain {first : Bool} {s : List Char} (hdots : s ≠ ['.', '.'])
    (hdot : s ≠ ['.']) : Component.of_segment first s = (Name.of_segment s).map .normal := by
  unfold Component.of_segment Name.of_segment
  split
  · rfl
  · rw [if_neg (fun h => hdot h.1)]
    rfl

/-- A text up to its last separator, and what follows it. -/
theorem split_last (t : List Char) :
    ∃ pre s, t.splitOn '/' = pre ++ [s] ∧ '/' ∉ s ∧ (s = [] → t = [] ∨ t.getLast? = some '/') := by
  by_cases hmem : '/' ∈ t
  · -- the last separator is the first one of the reversed text
    obtain ⟨as, bs, hrev, hnot⟩ := List.eq_append_cons_of_mem (List.mem_reverse.mpr hmem)
    have ht : t = bs.reverse ++ '/' :: as.reverse := by
      have h := congrArg List.reverse hrev
      simpa using h
    have hlast : '/' ∉ as.reverse := by simpa using hnot
    refine ⟨bs.reverse.splitOn '/', as.reverse, ?_, hlast, fun hnil => Or.inr ?_⟩
    · rw [ht, List.splitOn_append_cons_self, List.splitOn_eq_singleton hlast]
    · rw [ht, hnil, List.getLast?_concat]
  · exact ⟨[], t, List.splitOn_eq_singleton hmem, hmem, fun h => Or.inl h⟩

/-- A plain text has at least one name: its last. -/
theorem Plain.names {t : List Char} (h : Plain t) :
    ∃ init n, names_of_text t = init ++ [n] := by
  obtain ⟨pre, s, hsplit, hslash, hnil⟩ := split_last t
  have hne : s ≠ [] := by
    intro hs
    rcases hnil hs with h' | h'
    · exact h.not_nil h'
    · exact h.not_dir h'
  have hdots := h.no_dots s (by rw [hsplit]; simp)
  have hlegal := Name.legal_of_segment hne hdots.2 hdots.1 hslash
  refine ⟨pre.filterMap Name.of_segment, ⟨_, hlegal⟩, ?_⟩
  rw [names_of_text, hsplit, List.filterMap_append]
  simp [Name.of_segment, hlegal]

/-- The components of a plain text are its names. -/
theorem Plain.comps {t : List Char} (h : Plain t) :
    (PathBuf.of_text t).comps = (names_of_text t).map .normal := by
  unfold PathBuf.of_text names_of_text
  dsimp only
  rw [if_neg h.relative, List.nil_append]
  obtain ⟨s, segs, hsplit⟩ := List.exists_cons_of_ne_nil (List.splitOn_ne_nil '/' t)
  have hdots := h.no_dots
  rw [hsplit] at hdots ⊢
  have hs := hdots s List.mem_cons_self
  have hrest : ∀ x ∈ segs, Component.of_segment false x = (Name.of_segment x).map .normal :=
    fun x hx => Component.of_segment_plain (hdots x (List.mem_cons_of_mem _ hx)).1
      (hdots x (List.mem_cons_of_mem _ hx)).2
  rw [List.head?_cons, Option.bind_some, Component.of_segment_plain hs.1 hs.2, List.tail_cons,
    List.filterMap_congr hrest, List.map_filterMap]
  cases hn : Name.of_segment s with
  | none => simp [hn]
  | some n => simp [hn]

theorem Plain.slash {t : List Char} (h : Plain t) : (PathBuf.of_text t).slash = false := by
  obtain ⟨pre, s, hsplit, -, hnil⟩ := split_last t
  have hlast := h.no_dots s (by rw [hsplit]; simp)
  unfold PathBuf.of_text
  dsimp only
  rw [hsplit, List.getLast?_concat, decide_eq_false_iff_not]
  rintro ⟨-, hs | hs⟩
  · rcases hnil (by simpa using hs) with h' | h'
    · exact h.not_nil h'
    · exact h.not_dir h'
  · exact hlast.2 (by simpa using hs)

/-- Joining names appends them. -/
theorem PathBuf.join_names {p q : PathBuf} {ns : List Name} (hq : q.comps = ns.map .normal)
    (hslash : q.slash = false) (hns : ns ≠ []) :
    p.join q = { comps := p.comps ++ ns.map .normal, slash := false } := by
  obtain ⟨n, ns, rfl⟩ := List.exists_cons_of_ne_nil hns
  have hrel : q.is_absolute = false := by
    unfold PathBuf.is_absolute
    rw [hq]
    simp
  unfold PathBuf.join
  rw [hrel, if_neg Bool.false_ne_true]
  obtain ⟨qc, qs⟩ := q
  dsimp only at hq hslash
  subst hq hslash
  split
  · rename_i hp
    rw [hp, List.nil_append]
  · rfl

theorem PathBuf.file_name_concat (cs : List Component) (n : Name) (slash : Bool) :
    PathBuf.file_name { comps := cs ++ [.normal n], slash := slash } = some n := by
  unfold PathBuf.file_name
  rw [List.getLast?_concat]

theorem PathBuf.parent_concat (cs : List Component) (n : Name) (slash : Bool) :
    PathBuf.parent { comps := cs ++ [.normal n], slash := slash }
      = some { comps := cs, slash := false } := by
  unfold PathBuf.parent
  rw [List.getLast?_concat, List.dropLast_concat]

/-! ## The bytes of a canonical path -/

/-- `as_os_str().as_encoded_bytes()` of a canonical path. -/
def Path.bytes (p : Path) : List UInt8 :=
  if p = [] then [47] else p.flatMap (fun n => 47 :: n.bytes)

theorem Path.starts_with_iff {p : Path} {root : PathBuf} :
    p.starts_with root = true ↔ root.comps <+: p.comps :=
  List.isPrefixOf_iff_prefix

/-- Components are compared name by name. -/
theorem Path.comps_prefix_iff {p q : Path} : p.comps <+: q.comps ↔ p <+: q := by
  rw [Path.comps, Path.comps, List.cons_prefix_cons]
  constructor
  · rintro ⟨-, h⟩
    exact (List.prefix_map_iff_of_injective (fun a b h => by injection h)).mp h
  · intro h
    exact ⟨rfl, h.map _⟩

/-- What lies below a path inside the root lies inside the root. -/
theorem Path.starts_with_of_prefix {p q : Path} {root : PathBuf} (hp : p.starts_with root = true)
    (hpq : p <+: q) : q.starts_with root = true :=
  Path.starts_with_iff.mpr ((Path.starts_with_iff.mp hp).trans (Path.comps_prefix_iff.mpr hpq))

example : PathBuf.of_text "./a//b/./c/".toList
    = { comps := [.curDir, .normal ⟨[97], by decide⟩, .normal ⟨[98], by decide⟩,
          .normal ⟨[99], by decide⟩], slash := true } := by decide

end StdPath
