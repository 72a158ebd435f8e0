/-
Where the paths of a request lead in a served directory without links.

`Serving` is the state of such a server: its root is spelled by a path that leads there
through what stands outside of it, and what the cache has for a parent is the path that
the parent's names spell. Both are the same whatever happens below the root, so that the
resolvers come down to the names of the request: the target of a write is the root with
these names, cached or not (`Serving.guard`), and so is what a URL without `..` is found
to be, if it is there (`Serving.existing_iff`).
-/
import Rshs.Grounds
import Rshs.CachedParents

set_option autoImplicit false

namespace Rshs.ServedRoot

open StdPath Posix Text Hierarchy Rshs.Resolve Rshs.App Rshs.Grounds

/-- The root is spelled by a path that leads to it, whatever stands below it. -/
structure Rooted (cwd R : Path) (root_dir : PathBuf) (fs : Fs) : Prop where
  spelled : root_dir.comps ≠ []
  leads : ∀ fs' : Fs, (∀ q, ¬ (R <+: q ∧ q ≠ R) → fs'.node q = fs.node q) →
    walk fs' false symlink_max cwd root_dir.comps = .ok R

/-- The parents that the cache has are spelled by their keys. -/
def Lexical (R : Path) (root_dir : PathBuf) (cache : Cache) : Prop :=
  ∀ init pc, cache.lookup (below root_dir init).comps = some pc → pc = R ++ init

/-- A server of the directory `R`, in a process whose working directory is `cwd`. -/
structure Serving (cwd R : Path) (app : AppState) (fs : Fs) : Prop where
  ground : Ground R fs
  canonical : app.root_canonical.comps = R.comps
  rooted : Rooted cwd R app.root_dir fs
  cache : Lexical R app.root_dir app.canonical_cache

section Roots

variable {cwd R : Path} {root_dir : PathBuf} {fs fs' : Fs}

theorem Rooted.walk (h : Rooted cwd R root_dir fs) :
    walk fs false symlink_max cwd root_dir.comps = .ok R := h.leads fs fun _ _ => rfl

/-- What happens below the root does not matter to the path that leads there. -/
theorem Rooted.within {P Q : List Name → Prop} (h : Rooted cwd R root_dir fs) (hg : Ground R fs)
    (hw : Within R P Q fs fs') : Rooted cwd R root_dir fs' where
  spelled := h.spelled
  leads := by
    intro fs'' hsame
    apply h.leads
    intro q hq
    rw [hsame q hq]
    by_cases hRq : R <+: q
    · -- the root itself is a directory before and after
      have heq : q = R := by
        by_contra hne
        exact hq ⟨hRq, hne⟩
      rw [heq, hw.ground.root, hg.root]
    · exact hw.outside q hRq

/-- The plain spelling of a directory leads to it, from a directory that is not in it. -/
theorem rooted_self (hroot : fs.node R = some .dir) (hspelled : root_dir.comps = R.comps)
    (hcwd : fs.node cwd = some .dir) (hout : ¬ (R <+: cwd ∧ cwd ≠ R)) :
    Rooted cwd R root_dir fs where
  spelled := by
    rw [hspelled]
    exact List.cons_ne_nil _ _
  leads := by
    intro fs' hsame
    have hroot' : fs'.node R = some .dir := by
      rw [hsame R (fun h => h.2 rfl)]
      exact hroot
    have hcwd' : fs'.node cwd = some .dir := by
      rw [hsame cwd hout]
      exact hcwd
    rw [hspelled, walk_level, Path.comps, walk_with_cons, if_neg (not_not.mpr hcwd')]
    exact walk_with_self ⟨_, hroot', by simp⟩

end Roots

/-! ## The parent of a write target -/

section Resolvers

variable {cwd R p : Path} {app : AppState} {fs : Fs} {t : List Char} {init s : List Name}

theorem Serving.root_real (h : Serving cwd R app fs) : fs.Real R := ⟨_, h.ground.root, by simp⟩

/-- A parent is found where its names spell it, if it is there. -/
theorem Serving.parent_iff (h : Serving cwd R app fs) :
    canonicalize fs cwd (below app.root_dir init) = .ok p ↔
      p = R ++ init ∧ fs.node (R ++ init) ≠ none := by
  have hwalk := h.rooted.walk
  have hne : (below app.root_dir init).comps ≠ [] := by simp [below, h.rooted.spelled]
  have hsteps : steps (below app.root_dir init) = app.root_dir.comps ++ init.map .normal := by
    simp [steps, below]
  unfold canonicalize
  rw [if_neg hne, hsteps]
  by_cases hinit : init = []
  · rw [hinit, List.map_nil, List.append_nil, List.append_nil, hwalk]
    constructor
    · intro heq
      cases heq
      exact ⟨rfl, by rw [h.ground.root]; simp⟩
    · rintro ⟨rfl, -⟩
      rfl
  · rw [Href.walk_names_iff h.ground.free h.root_real hwalk hinit]
    constructor
    · rintro ⟨rfl, hnode⟩
      exact ⟨rfl, hnode⟩
    · rintro ⟨rfl, hnode⟩
      exact ⟨rfl, hnode⟩

/-- Cached or not, the parent is the path that its names spell. -/
theorem Serving.held (h : Serving cwd R app fs)
    (hh : Held fs cwd app.canonical_cache (below app.root_dir init) p) : p = R ++ init := by
  rcases hh with hcached | ⟨-, hfound⟩
  · exact h.cache init p hcached
  · exact (h.parent_iff.mp hfound).1

theorem Serving.starts_with (h : Serving cwd R app fs) :
    p.starts_with app.root_canonical = true ↔ R <+: p := by
  rw [Path.starts_with_iff, h.canonical, Path.comps_prefix_iff]

/-- The names of the text that a request path is taken for. -/
def target_names (t : List Char) : List Name := names_of_text (request_text t)

/-- **The target of a write is the root with the names of its URL.** -/
theorem Serving.guard (h : Serving cwd R app fs)
    (hg : (Resolve.resolve_and_guard fs cwd app.root_dir app.root_canonical t
      app.canonical_cache).1 = .ok p) :
    Plain (request_text t) ∧ target_names t ≠ [] ∧ p = R ++ target_names t := by
  obtain ⟨hplain, init, n, pc, hnames, hheld, -, rfl⟩ := resolve_and_guard_ok_iff.mp hg
  refine ⟨hplain, ?_, ?_⟩
  · unfold target_names
    rw [hnames]
    simp
  · unfold target_names
    rw [hnames, h.held hheld, List.append_assoc]

/-- Where its parent is there, a plain text has a target. -/
theorem Serving.guard_ok (h : Serving cwd R app fs) (hplain : Plain (request_text t))
    (hparent : fs.node (R ++ (target_names t).dropLast) ≠ none) :
    (Resolve.resolve_and_guard fs cwd app.root_dir app.root_canonical t
      app.canonical_cache).1 = .ok (R ++ target_names t) := by
  obtain ⟨init, n, hnames⟩ := hplain.names
  have htarget : target_names t = init ++ [n] := hnames
  rw [htarget, List.dropLast_concat] at hparent
  refine resolve_and_guard_ok_iff.mpr ⟨hplain, init, n, R ++ init, hnames, ?_, ?_, ?_⟩
  · unfold Held
    cases hl : app.canonical_cache.lookup (below app.root_dir init).comps with
    | some pc =>
      left
      rw [h.cache init pc hl]
    | none => exact Or.inr ⟨rfl, h.parent_iff.mpr ⟨rfl, hparent⟩⟩
  · exact h.starts_with.mpr (List.prefix_append R init)
  · rw [htarget, List.append_assoc]

/-- What is cached after a resolution was cached before, or has been found. -/
theorem lookup_guard_found {root_dir root_canonical : PathBuf} {cache : Cache} {k : List Component}
    (hl : (Resolve.resolve_and_guard fs cwd root_dir root_canonical t cache).2.lookup k = some p) :
    cache.lookup k = some p ∨ parents fs cwd k = .ok p := by
  have hcases : (Resolve.resolve_and_guard fs cwd root_dir root_canonical t cache).2 = cache ∨
      ∃ parent : PathBuf, parent.slash = false ∧ ParentOf root_dir t parent.comps ∧
        (Resolve.resolve_and_guard fs cwd root_dir root_canonical t cache).2
          = (canonical_parent fs cwd parent cache).2 := resolve_and_guard_cache
  rcases hcases with hsame | ⟨parent, hp, -, hnew⟩
  · rw [hsame] at hl
    exact Or.inl hl
  · rw [hnew, canonical_parent_eq_ask hp] at hl
    rcases Memo.lookup_ask hl with hold | ⟨rfl, hfound⟩
    · exact Or.inl hold
    · exact Or.inr hfound

theorem Serving.with_cache (h : Serving cwd R app fs) {cache : Cache}
    (hc : Lexical R app.root_dir cache) :
    Serving cwd R { app with canonical_cache := cache } fs :=
  ⟨h.ground, h.canonical, h.rooted, hc⟩

/-- A resolution leaves such a cache. -/
theorem Serving.guard_cache (h : Serving cwd R app fs) {cache : Cache}
    (hc : Lexical R app.root_dir cache) (t : List Char) :
    Lexical R app.root_dir (Resolve.resolve_and_guard fs cwd app.root_dir app.root_canonical t
      cache).2 := by
  intro init pc hl
  rcases lookup_guard_found hl with hold | hfound
  · exact hc init pc hold
  · exact (h.parent_iff.mp hfound).1

/-! ## What a URL is found to be -/

/-- Whatever is found for a URL is below the root. -/
theorem Serving.existing (h : Serving cwd R app fs)
    (he : Resolve.resolve_existing fs cwd app.root_dir app.root_canonical t = some p) :
    ∃ s, p = R ++ s ∧ fs.node (R ++ s) ≠ none := by
  obtain ⟨s, rfl⟩ := h.starts_with.mp (resolve_existing_some_iff.mp he).2
  exact ⟨s, rfl, (resolve_existing_real he).ne_none⟩

/-- No segment of the text leads upwards. -/
def NoDots (t : List Char) : Prop := ∀ seg ∈ (request_text t).splitOn '/', seg ≠ ['.', '.']

/-- A segment that does not lead upwards is a name, or is skipped. -/
theorem of_segment_no_dots {seg : List Char} (hseg : seg ≠ ['.', '.']) :
    Component.of_segment false seg = (Name.of_segment seg).map .normal := by
  unfold Component.of_segment Name.of_segment
  rw [if_neg hseg]
  split
  · rfl
  · rw [if_neg (by simp)]
    rfl

theorem first_no_dots {seg : List Char} (hseg : seg ≠ ['.', '.']) :
    (Component.of_segment true seg).toList.dropWhile (· = .curDir) =
      ((Name.of_segment seg).map Component.normal).toList := by
  unfold Component.of_segment Name.of_segment
  rw [if_neg hseg]
  split
  · rfl
  · split <;> rfl

/-- Without `..` the components of a text, but a leading `.`, are its names. -/
theorem comps_no_dots (hd : NoDots t) :
    (PathBuf.of_text (request_text t)).comps.dropWhile (· = .curDir) =
      (target_names t).map .normal := by
  unfold NoDots at hd
  unfold target_names names_of_text PathBuf.of_text
  dsimp only
  have hhead : (request_text t).head? ≠ some '/' := head_trim_start_matches '/' (decode t)
  rw [if_neg hhead, List.nil_append, decide_eq_false hhead, Bool.not_false]
  obtain ⟨seg, segs, hsplit⟩ := List.exists_cons_of_ne_nil (List.splitOn_ne_nil '/' (request_text t))
  rw [hsplit] at hd ⊢
  have hrest : segs.filterMap (Component.of_segment false) =
      (segs.filterMap Name.of_segment).map .normal := by
    rw [List.map_filterMap]
    exact List.filterMap_congr fun x hx => of_segment_no_dots (hd x (List.mem_cons_of_mem _ hx))
  have hnot : ∀ ns : List Name, (ns.map Component.normal).dropWhile (· = .curDir)
      = ns.map .normal := by
    intro ns
    cases ns with
    | nil => rfl
    | cons n ns => exact List.dropWhile_cons_of_neg (by simp)
  have hfirst := first_no_dots (hd seg List.mem_cons_self)
  rw [List.head?_cons, Option.bind_some, List.tail_cons, hrest, List.dropWhile_append, hfirst,
    hnot, List.filterMap_cons]
  cases Name.of_segment seg with
  | none => simp
  | some n => simp

/-- **What a URL without `..` is found to be**: the root with its names, if that is there
and is a directory where the URL says so. -/
theorem Serving.existing_iff (h : Serving cwd R app fs) (hd : NoDots t) :
    Resolve.resolve_existing fs cwd app.root_dir app.root_canonical t = some p ↔
      p = R ++ target_names t ∧ fs.node p ≠ none ∧
        ((PathBuf.of_text (request_text t)).slash = true → fs.node p = some .dir) := by
  have hrel : (PathBuf.of_text (request_text t)).is_absolute = false :=
    Href.of_text_relative (head_trim_start_matches '/' (decode t))
  have hcomps : (app.root_dir.join (PathBuf.of_text (request_text t))).comps =
      app.root_dir.comps ++ (target_names t).map .normal := by
    rw [Href.join_comps hrel, if_neg h.rooted.spelled, comps_no_dots hd]
  have hslash : (app.root_dir.join (PathBuf.of_text (request_text t))).slash =
      if target_names t = [] then true else (PathBuf.of_text (request_text t)).slash := by
    unfold PathBuf.join
    rw [hrel, if_neg Bool.false_ne_true, if_neg h.rooted.spelled]
    dsimp only
    rw [comps_no_dots hd]
    simp only [List.map_eq_nil_iff]
  -- where the components lead
  have hwalk : ∀ q, walk fs false symlink_max cwd
      (app.root_dir.join (PathBuf.of_text (request_text t))).comps = .ok q ↔
        q = R ++ target_names t ∧ fs.node q ≠ none := by
    intro q
    rw [hcomps]
    by_cases hnil : target_names t = []
    · rw [hnil, List.map_nil, List.append_nil, List.append_nil, h.rooted.walk]
      constructor
      · intro heq
        cases heq
        exact ⟨rfl, by rw [h.ground.root]; simp⟩
      · rintro ⟨rfl, -⟩
        rfl
    · exact Href.walk_names_iff h.ground.free h.root_real h.rooted.walk hnil
  have hne : (app.root_dir.join (PathBuf.of_text (request_text t))).comps ≠ [] := by
    rw [hcomps]
    simp [h.rooted.spelled]
  rw [resolve_existing_some_iff, h.starts_with]
  constructor
  · rintro ⟨hcanon, -⟩
    unfold canonicalize steps at hcanon
    rw [if_neg hne] at hcanon
    split at hcanon
    · -- a last `.` says that it is a directory
      obtain ⟨q, l, hq, hlast⟩ := walk_split (by simp) hcanon
      have hdir := walk_dir hlast
      have hsame := Href.walk_cur hcanon
      rw [hq] at hsame
      cases hsame
      obtain ⟨rfl, hnode⟩ := (hwalk _).mp hq
      exact ⟨rfl, hnode, fun _ => hdir⟩
    · rename_i hno
      rw [List.append_nil] at hcanon
      obtain ⟨rfl, hnode⟩ := (hwalk _).mp hcanon
      refine ⟨rfl, hnode, fun hs => ?_⟩
      rw [hslash, hs, ite_self] at hno
      exact absurd rfl hno
  · rintro ⟨rfl, hnode, hdir⟩
    refine ⟨Href.canonicalize_of_walk hne ((hwalk _).mpr ⟨rfl, hnode⟩) fun hs => ?_,
      List.prefix_append R _⟩
    rw [hslash] at hs
    split at hs
    · rename_i hnil
      rw [hnil, List.append_nil]
      exact h.ground.root
    · exact hdir hs

end Resolvers

end Rshs.ServedRoot
