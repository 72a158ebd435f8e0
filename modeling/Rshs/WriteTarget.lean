/-
Where a write can land.

`resolve_write_target` works on the text that is decoded once: its target is the root with
the non-empty segments of that text after it, and no segment is a dot segment. So the
target has a file name, and what the guard returns is the entry of that name below the
place its parent leads to.

The guard looks where the parent is, not what it is: below a regular file a target is
found too, and it is the call on it that fails.
-/
import Rshs.Resolve
import Rshs.Str

set_option autoImplicit false

namespace Rshs.WriteTarget

open StdPath Posix FinMap Text Rshs.Resolve

/-! ## The segments of a decoded path -/

/-- The decoded request path between its separators. -/
def segments (request_path : List Char) : List (List Char) := (decode request_path).splitOn '/'

/-- The names of a plain text are its segments, but for the empty ones. -/
theorem names_bytes {t : List Char} (h : Plain t) :
    (names_of_text t).map Name.bytes = ((t.splitOn '/').filter (· ≠ [])).map utf8_encode := by
  have hseg : ∀ s ∈ t.splitOn '/', s ≠ ['.', '.'] ∧ s ≠ ['.'] ∧ '/' ∉ s := by
    intro s hs
    refine ⟨(h.no_dots s hs).1, (h.no_dots s hs).2, ?_⟩
    intro hmem
    have hnot := (Str.mem_splitOnP_iff.mp ⟨s, hs, hmem⟩).2
    simp at hnot
  unfold names_of_text
  generalize t.splitOn '/' = segs at hseg
  induction segs with
  | nil => rfl
  | cons s segs ih =>
    obtain ⟨hdots, hdot, hslash⟩ := hseg s List.mem_cons_self
    have hrest := ih fun r hr => hseg r (List.mem_cons_of_mem s hr)
    by_cases hnil : s = []
    · have hnone : Name.of_segment s = none := by
        rw [hnil]
        rfl
      rw [List.filterMap_cons_none hnone, List.filter_cons_of_neg (by simpa using hnil)]
      exact hrest
    · have hlegal := Name.legal_of_segment hnil hdot hdots hslash
      have hsome : Name.of_segment s = some ⟨utf8_encode s, hlegal⟩ := dif_pos hlegal
      rw [List.filterMap_cons_some hsome, List.filter_cons_of_pos (by simpa using hnil),
        List.map_cons, List.map_cons, hrest]

/-- The segments of a request path are empty ones and those of the text the resolvers
work on. -/
theorem segments_split (t : List Char) :
    ∃ pre, segments t = pre ++ (request_text t).splitOn '/' ∧ ∀ s ∈ pre, s = [] :=
  splitOn_trim (decode t)

theorem segments_names {t : List Char} (h : Plain (request_text t)) :
    (names_of_text (request_text t)).map Name.bytes
      = ((segments t).filter (· ≠ [])).map utf8_encode := by
  obtain ⟨pre, hsplit, hpre⟩ := segments_split t
  have hnone : pre.filter (· ≠ []) = [] := by
    rw [List.filter_eq_nil_iff]
    intro s hs
    simp [hpre s hs]
  rw [names_bytes h, hsplit, List.filter_append, hnone, List.nil_append]

theorem segments_no_dots {t : List Char} (h : Plain (request_text t)) :
    ∀ s ∈ segments t, s ≠ ['.', '.'] ∧ s ≠ ['.'] := by
  intro s hs
  obtain ⟨pre, hsplit, hpre⟩ := segments_split t
  rw [hsplit] at hs
  rcases List.mem_append.mp hs with hs | hs
  · rw [hpre s hs]
    simp
  · exact h.no_dots s hs

/-- The last name is the last segment. -/
theorem segments_last {t : List Char} {init : List Name} {n : Name}
    (h : Plain (request_text t)) (hnames : names_of_text (request_text t) = init ++ [n]) :
    ∃ s, (segments t).getLast? = some s ∧ s ≠ [] ∧ n.bytes = utf8_encode s := by
  obtain ⟨pre, hpre, -⟩ := segments_split t
  obtain ⟨pre', s, hsplit, -, hnil⟩ := split_last (request_text t)
  have hne : s ≠ [] := by
    intro hs
    rcases hnil hs with h' | h'
    · exact h.not_nil h'
    · exact h.not_dir h'
  have hsegs : segments t = (pre ++ pre') ++ [s] := by
    rw [hpre, hsplit, List.append_assoc]
  refine ⟨s, ?_, hne, ?_⟩
  · rw [hsegs, List.getLast?_concat]
  · have hbytes := segments_names h
    rw [hnames, hsegs, List.filter_append, List.map_append, List.map_append,
      List.filter_cons_of_pos (by simpa using hne)] at hbytes
    obtain ⟨-, hlast⟩ := List.append_inj' hbytes rfl
    exact (List.cons.inj hlast).1

/-! ## The target and what the guard returns -/

/-- **Writes are lexically confined.** A write target is the root with names after it,
the non-empty segments of the decoded path: none is a dot segment and the last is not
empty, so that the target has a file name. What the guard returns with an empty cache
has that name, in a place under the canonical root that the parent leads to; the place is
a directory or, where the parent's last segment names one, a regular file. -/
theorem write_target_confined (root_dir : PathBuf) (request_path : List Char) :
    (∀ target, resolve_write_target root_dir request_path = some target →
      (∃ ns, ns ≠ [] ∧ target.path = below root_dir ns ∧
        ns.map Name.bytes = ((segments request_path).filter (· ≠ [])).map utf8_encode) ∧
      (∀ s ∈ segments request_path, s ≠ ['.', '.'] ∧ s ≠ ['.']) ∧
      ∃ n s, target.path.file_name = some n ∧ (segments request_path).getLast? = some s ∧
        s ≠ [] ∧ n.bytes = utf8_encode s) ∧
    ∀ (fs : Fs) (cwd : Path) (root_canonical : PathBuf) (p : Path),
      (resolve_and_guard fs cwd root_dir root_canonical request_path ∅).1 = .ok p →
        ∃ target parent n s, resolve_write_target root_dir request_path = some target ∧
          canonicalize fs cwd (target.path.parent.getD root_dir) = .ok parent ∧
          p = parent ++ [n] ∧ (segments request_path).getLast? = some s ∧
          n.bytes = utf8_encode s ∧ parent.starts_with root_canonical = true ∧
          (fs.node parent = some .dir ∨ ∃ c, fs.node parent = some (.file c)) := by
  constructor
  · intro target htarget
    obtain ⟨hplain, hpath⟩ := resolve_write_target_some_iff.mp htarget
    obtain ⟨init, n, hnames, -, hname⟩ := target_parts htarget
    obtain ⟨s, hlast, hne, hbytes⟩ := segments_last hplain hnames
    refine ⟨⟨names_of_text (request_text request_path), ?_, hpath, segments_names hplain⟩,
      segments_no_dots hplain, n, s, hname, hlast, hne, hbytes⟩
    rw [hnames]
    simp
  · intro fs cwd root_canonical p hok
    obtain ⟨hplain, init, n, parent, hnames, hheld, hstart, hp⟩ := resolve_and_guard_ok_iff.mp hok
    obtain ⟨s, hlast, -, hbytes⟩ := segments_last hplain hnames
    cases htarget : resolve_write_target root_dir request_path with
    | none => exact absurd hplain (resolve_write_target_none_iff.mp htarget)
    | some target =>
      obtain ⟨init', n', hnames', hparent, -⟩ := target_parts htarget
      rw [hnames] at hnames'
      obtain ⟨rfl, -⟩ := List.append_inj' hnames' rfl
      -- the cache is empty, so the parent was looked up in the tree
      have hcanon : canonicalize fs cwd (below root_dir init) = .ok parent := by
        rcases hheld with hcached | ⟨-, hcanon⟩
        · cases hcached
        · exact hcanon
      refine ⟨target, parent, n, s, rfl, ?_, hp, hlast, hbytes, hstart, ?_⟩
      · rw [hparent]
        exact hcanon
      · obtain ⟨x, hx, hlink⟩ := canonicalize_real (canonicalize_cwd hcanon) hcanon
        cases x with
        | dir => exact Or.inl hx
        | file c => exact Or.inr ⟨c, hx⟩
        | symlink t => exact absurd rfl (hlink t)

/-- Below a regular file the guard lets a target through: no directory holds it. -/
theorem guarded_below_file :
    (resolve_and_guard disk_f [] (PathBuf.of_text "/".toList) (PathBuf.of_text "/".toList)
      "/f/x".toList ∅).1 = .ok [f_name, x_name] ∧
      ¬ ∃ parent n, [f_name, x_name] = parent ++ [n] ∧ disk_f.node parent = some .dir := by
  refine ⟨by decide +kernel, ?_⟩
  rintro ⟨parent, n, hparts, hdir⟩
  change [f_name] ++ [x_name] = parent ++ [n] at hparts
  obtain ⟨hparent, -⟩ := List.append_inj' hparts rfl
  have hfile : disk_f.node [f_name] = some (.file []) := by decide +kernel
  rw [← hparent, hfile] at hdir
  cases hdir

end Rshs.WriteTarget
