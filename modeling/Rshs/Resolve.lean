/-
`utils/path.rs`: the two resolvers of a request path.

`resolve_existing` canonicalises the whole path and looks whether it lies under the
root. `resolve_and_guard` checks the segments of the text, canonicalises only the
parent, through a cache, and appends the last name: its target need not exist, and
what stands at the last name is not looked at.

A target without a file name cannot be built (`Target`), so the `unwrap` of
`resolve_and_guard` is total. `Held` is what the cache and the file system together
say a parent is; `resolve_and_guard_ok_iff` states the resolver in its terms, and
`resolve_and_guard_stable` says that a resolution only adds to the cache what it
would find again.
-/
import Rshs.Memo
import Rshs.Posix
import Rshs.Webdav

set_option autoImplicit false

namespace Rshs.Resolve

open StdPath Posix FinMap Text Rshs.Webdav

/-! ## Errors -/

inductive ResolveTargetError
  | InvalidPath
  | ParentCanonicalizeFailed (e : ErrorKind)
  | TraversalBlocked
deriving DecidableEq

def ResolveTargetError.status (on_invalid : StatusCode) : ResolveTargetError → StatusCode
  | .InvalidPath => on_invalid
  | .ParentCanonicalizeFailed _ => .CONFLICT
  | .TraversalBlocked => .FORBIDDEN

/-! ## The resolvers -/

/-- `str::trim_start_matches`. -/
def trim_start_matches (c : Char) (s : List Char) : List Char := s.dropWhile (· = c)

theorem head_trim_start_matches (c : Char) (s : List Char) :
    (trim_start_matches c s).head? ≠ some c := by
  intro h
  have hnot := List.head?_dropWhile_not (fun x => decide (x = c)) s
  unfold trim_start_matches at h
  rw [h] at hnot
  simp at hnot

/-- The separators in front make empty segments only. -/
theorem splitOn_trim (t : List Char) :
    ∃ pre, t.splitOn '/' = pre ++ (trim_start_matches '/' t).splitOn '/' ∧ ∀ s ∈ pre, s = [] := by
  induction t with
  | nil => exact ⟨[], rfl, by simp⟩
  | cons c t ih =>
    unfold trim_start_matches at ih ⊢
    by_cases hc : c = '/'
    · obtain ⟨pre, hpre, hnil⟩ := ih
      subst hc
      refine ⟨[] :: pre, ?_, ?_⟩
      · have hsplit : ('/' :: t).splitOn '/' = [] :: t.splitOn '/' := by
          rw [List.splitOn_cons_eq_if_modifyHead, if_pos (by simp)]
        rw [hsplit, hpre, List.dropWhile_cons_of_pos (by simp)]
        rfl
      · intro s hs
        rcases List.mem_cons.mp hs with rfl | hs
        · rfl
        · exact hnil s hs
    · refine ⟨[], ?_, by simp⟩
      rw [List.dropWhile_cons_of_neg (by simpa using hc)]
      rfl

/-- A path with a file name. -/
structure Target where
  path : PathBuf
  named : path.file_name.isSome = true

/-- The root joined with a plain text has a file name. -/
theorem file_name_join (root_dir : PathBuf) {t : List Char} (h : Plain t) :
    (root_dir.join (PathBuf.of_text t)).file_name.isSome = true := by
  obtain ⟨init, n, hnames⟩ := h.names
  rw [PathBuf.join_names h.comps h.slash (by rw [hnames]; simp), hnames, List.map_append,
    List.map_singleton, ← List.append_assoc, PathBuf.file_name_concat]
  rfl

/-- The segments of a text that is no directory path, looked at one by one. -/
def has_dot_segment (trimmed : List Char) : Bool :=
  (trimmed.splitOn '/').any fun segment => segment = ['.', '.'] || segment = ['.']

theorem plain_of_checks {s : List Char}
    (hdir : ¬ (trim_start_matches '/' s = [] ∨
      (trim_start_matches '/' s).getLast? = some '/'))
    (hdots : ¬ has_dot_segment (trim_start_matches '/' s) = true) :
    Plain (trim_start_matches '/' s) where
  relative := head_trim_start_matches '/' s
  not_nil := fun h => hdir (Or.inl h)
  not_dir := fun h => hdir (Or.inr h)
  no_dots := by
    intro seg hseg
    rw [has_dot_segment, List.any_eq_true] at hdots
    constructor
    · intro h
      exact hdots ⟨seg, hseg, by simp [h]⟩
    · intro h
      exact hdots ⟨seg, hseg, by simp [h]⟩

def resolve_write_target (root_dir : PathBuf) (request_path : List Char) : Option Target :=
  let decoded := decode request_path
  let trimmed := trim_start_matches '/' decoded
  if hdir : trimmed = [] ∨ trimmed.getLast? = some '/' then none
  else if hdots : has_dot_segment trimmed = true then none
  else
    some { path := root_dir.join (PathBuf.of_text trimmed)
           named := file_name_join root_dir (plain_of_checks hdir hdots) }

/-- `canonical_cache`: a parent's components to the canonical path they were found
to lead to. Two `PathBuf`s are the same key when their components are. -/
abbrev Cache := Map (List Component) Path

section Resolvers

variable (fs : Fs) (cwd : Path) (root_dir root_canonical : PathBuf)

def resolve_existing (request_path : List Char) : Option Path :=
  let decoded := decode request_path
  let fs_path := root_dir.join (PathBuf.of_text (trim_start_matches '/' decoded))
  match canonicalize fs cwd fs_path with
  | .error _ => none
  | .ok fs_path => if fs_path.starts_with root_canonical then some fs_path else none

/-- The parent as the cache has it, or canonicalised and then cached. -/
def canonical_parent (parent : PathBuf) (cache : Cache) : Except ErrorKind Path × Cache :=
  match cache.lookup parent.comps with
  | some cached => (.ok cached, cache)
  | none =>
    match canonicalize fs cwd parent with
    | .error e => (.error e, cache)
    | .ok pc => (.ok pc, cache.insert parent.comps pc)

def resolve_and_guard (request_path : List Char) (cache : Cache) :
    Except ResolveTargetError Path × Cache :=
  match resolve_write_target root_dir request_path with
  | none => (.error .InvalidPath, cache)
  | some fs_path =>
    let parent := fs_path.path.parent.getD root_dir
    match canonical_parent fs cwd parent cache with
    | (.error e, cache) => (.error (.ParentCanonicalizeFailed e), cache)
    | (.ok parent_canonical, cache) =>
      if !parent_canonical.starts_with root_canonical then (.error .TraversalBlocked, cache)
      else (.ok (parent_canonical ++ [fs_path.path.file_name.get fs_path.named]), cache)

end Resolvers

/-! ## What they return -/

/-- The text the resolvers work on. -/
def request_text (request_path : List Char) : List Char :=
  trim_start_matches '/' (decode request_path)

/-- The components a directory of the root is written with. -/
def below (root_dir : PathBuf) (ns : List Name) : PathBuf :=
  { comps := root_dir.comps ++ ns.map .normal, slash := false }

theorem resolve_write_target_some_iff {root_dir : PathBuf} {t : List Char} {target : Target} :
    resolve_write_target root_dir t = some target ↔
      Plain (request_text t) ∧ target.path = below root_dir (names_of_text (request_text t)) := by
  have hjoin : ∀ h : Plain (request_text t), root_dir.join (PathBuf.of_text (request_text t))
      = below root_dir (names_of_text (request_text t)) := by
    intro h
    obtain ⟨init, n, hnames⟩ := h.names
    exact PathBuf.join_names h.comps h.slash (by rw [hnames]; simp)
  unfold resolve_write_target
  dsimp only
  constructor
  · intro h
    split at h
    · cases h
    · rename_i hdir
      split at h
      · cases h
      · rename_i hdots
        have hplain := plain_of_checks hdir hdots
        cases h
        exact ⟨hplain, hjoin hplain⟩
  · rintro ⟨hplain, hpath⟩
    rw [dif_neg (by
        rintro (h | h)
        · exact hplain.not_nil h
        · exact hplain.not_dir h), dif_neg (by
        rw [has_dot_segment, List.any_eq_true]
        rintro ⟨seg, hseg, htest⟩
        have := hplain.no_dots seg hseg
        simp [this.1, this.2] at htest)]
    obtain ⟨path, named⟩ := target
    dsimp only at hpath
    subst hpath
    congr 2
    exact hjoin hplain

/-- What names no target is not plain. -/
theorem resolve_write_target_none_iff {root_dir : PathBuf} {t : List Char} :
    resolve_write_target root_dir t = none ↔ ¬ Plain (request_text t) := by
  constructor
  · intro h hplain
    obtain ⟨init, n, hnames⟩ := hplain.names
    have hpath : (Target.mk (root_dir.join (PathBuf.of_text (request_text t)))
        (file_name_join root_dir hplain)).path = below root_dir (names_of_text (request_text t)) :=
      PathBuf.join_names hplain.comps hplain.slash (by rw [hnames]; simp)
    have hsome := resolve_write_target_some_iff.mpr ⟨hplain, hpath⟩
    rw [h] at hsome
    cases hsome
  · intro h
    cases ht : resolve_write_target root_dir t with
    | none => rfl
    | some target => exact absurd (resolve_write_target_some_iff.mp ht).1 h

/-- The parent and the last name of a write target. -/
theorem target_parts {root_dir : PathBuf} {t : List Char} {target : Target}
    (h : resolve_write_target root_dir t = some target) :
    ∃ init n, names_of_text (request_text t) = init ++ [n] ∧
      target.path.parent = some (below root_dir init) ∧
      target.path.file_name = some n := by
  obtain ⟨hplain, hpath⟩ := resolve_write_target_some_iff.mp h
  obtain ⟨init, n, hnames⟩ := hplain.names
  refine ⟨init, n, hnames, ?_, ?_⟩
  · rw [hpath, below, hnames, List.map_append, List.map_singleton, ← List.append_assoc,
      PathBuf.parent_concat]
    rfl
  · rw [hpath, below, hnames, List.map_append, List.map_singleton, ← List.append_assoc,
      PathBuf.file_name_concat]

/-- What a key of the cache stands for. -/
def parents (fs : Fs) (cwd : Path) (k : List Component) : Except ErrorKind Path :=
  canonicalize fs cwd { comps := k, slash := false }

/-- What the cache and the file system together say a parent is. -/
def Held (fs : Fs) (cwd : Path) (cache : Cache) (parent : PathBuf) (pc : Path) : Prop :=
  cache.lookup parent.comps = some pc ∨
    (cache.lookup parent.comps = none ∧ canonicalize fs cwd parent = .ok pc)

section Lemmas

variable {fs : Fs} {cwd : Path} {root_dir root_canonical : PathBuf}

theorem canonical_parent_ok_iff {parent : PathBuf} {cache : Cache} {pc : Path} :
    (canonical_parent fs cwd parent cache).1 = .ok pc ↔ Held fs cwd cache parent pc := by
  unfold canonical_parent Held
  cases hl : cache.lookup parent.comps with
  | some cached => simp
  | none =>
    cases hc : canonicalize fs cwd parent with
    | error e => simp
    | ok p => simp

/-- A parent is asked for as in any map of answers. -/
theorem canonical_parent_eq_ask {parent : PathBuf} (h : parent.slash = false) (cache : Cache) :
    canonical_parent fs cwd parent cache = Memo.ask (parents fs cwd) parent.comps cache := by
  obtain ⟨comps, slash⟩ := parent
  dsimp only at h
  subst h
  unfold canonical_parent Memo.ask parents
  dsimp only
  cases cache.lookup comps with
  | some cached => rfl
  | none =>
    dsimp only
    cases canonicalize fs cwd { comps := comps, slash := false } <;> rfl

/-- Another parent is found the same before and after. -/
theorem canonical_parent_stable {p q : PathBuf} {cache : Cache} (hp : p.slash = false)
    (hq : q.slash = false) :
    (canonical_parent fs cwd p (canonical_parent fs cwd q cache).2).1
      = (canonical_parent fs cwd p cache).1 := by
  rw [canonical_parent_eq_ask hp, canonical_parent_eq_ask hp, canonical_parent_eq_ask hq]
  exact Memo.ask_stable _ _ _ _

/-- The key that the parent of a text's target is cached under. -/
def ParentOf (root_dir : PathBuf) (t : List Char) (k : List Component) : Prop :=
  Plain (request_text t) ∧
    ∃ init n, names_of_text (request_text t) = init ++ [n] ∧ k = (below root_dir init).comps

/-- The guard asks for one parent at most. -/
theorem resolve_and_guard_cache {t : List Char} {cache : Cache} :
    (resolve_and_guard fs cwd root_dir root_canonical t cache).2 = cache ∨
      ∃ parent : PathBuf, parent.slash = false ∧ ParentOf root_dir t parent.comps ∧
        (resolve_and_guard fs cwd root_dir root_canonical t cache).2
          = (canonical_parent fs cwd parent cache).2 := by
  unfold resolve_and_guard
  cases ht : resolve_write_target root_dir t with
  | none => exact Or.inl rfl
  | some target =>
    obtain ⟨init, n, hnames, hparent, -⟩ := target_parts ht
    have hplain := (resolve_write_target_some_iff.mp ht).1
    refine Or.inr ⟨below root_dir init, rfl, ⟨hplain, init, n, hnames, rfl⟩, ?_⟩
    dsimp only
    rw [hparent, Option.getD_some]
    split
    · rename_i heq
      rw [heq]
    · rename_i heq
      rw [heq]
      split <;> rfl

/-- What the guard answers depends on the cache through the parent it asks for. -/
theorem resolve_and_guard_congr {t : List Char} {cache cache' : Cache}
    (h : ∀ parent : PathBuf, parent.slash = false →
      (canonical_parent fs cwd parent cache).1 = (canonical_parent fs cwd parent cache').1) :
    (resolve_and_guard fs cwd root_dir root_canonical t cache).1
      = (resolve_and_guard fs cwd root_dir root_canonical t cache').1 := by
  unfold resolve_and_guard
  cases ht : resolve_write_target root_dir t with
  | none => rfl
  | some target =>
    obtain ⟨init, n, -, hparent, -⟩ := target_parts ht
    have hsame := h (below root_dir init) rfl
    dsimp only
    rw [hparent, Option.getD_some]
    rcases h₁ : canonical_parent fs cwd (below root_dir init) cache with ⟨r₁, c₁⟩
    rcases h₂ : canonical_parent fs cwd (below root_dir init) cache' with ⟨r₂, c₂⟩
    rw [h₁, h₂] at hsame
    dsimp only at hsame
    subst hsame
    cases r₁ with
    | error e => rfl
    | ok pc =>
      dsimp only
      split <;> rfl

/-- **A resolution leaves every other as it was.** -/
theorem resolve_and_guard_stable (s t : List Char) (cache : Cache) :
    (resolve_and_guard fs cwd root_dir root_canonical t
        (resolve_and_guard fs cwd root_dir root_canonical s cache).2).1
      = (resolve_and_guard fs cwd root_dir root_canonical t cache).1 := by
  have hcases : (resolve_and_guard fs cwd root_dir root_canonical s cache).2 = cache ∨
      ∃ parent : PathBuf, parent.slash = false ∧ ParentOf root_dir s parent.comps ∧
        (resolve_and_guard fs cwd root_dir root_canonical s cache).2
          = (canonical_parent fs cwd parent cache).2 := resolve_and_guard_cache
  rcases hcases with hcache | ⟨q, hq, -, hcache⟩
  · rw [hcache]
  · rw [hcache]
    exact resolve_and_guard_congr fun p hp => canonical_parent_stable hp hq

/-- **What the guard lets through.** A plain text whose parent is found under the
root; the target is that parent's entry of the last name. -/
theorem resolve_and_guard_ok_iff {t : List Char} {cache : Cache} {m : Path} :
    (resolve_and_guard fs cwd root_dir root_canonical t cache).1 = .ok m ↔
      Plain (request_text t) ∧ ∃ init n pc, names_of_text (request_text t) = init ++ [n] ∧
        Held fs cwd cache (below root_dir init) pc ∧ pc.starts_with root_canonical = true ∧
        m = pc ++ [n] := by
  unfold resolve_and_guard
  cases ht : resolve_write_target root_dir t with
  | none =>
    constructor
    · intro h
      cases h
    · rintro ⟨hplain, -⟩
      exact absurd hplain (resolve_write_target_none_iff.mp ht)
  | some target =>
    have hplain := (resolve_write_target_some_iff.mp ht).1
    -- the target is the directory of the names before the last, and the last
    obtain ⟨init, n, hnames, hparent, hname⟩ := target_parts ht
    have hget : ∀ h, target.path.file_name.get h = n := fun h => by
      simp only [hname, Option.get_some]
    dsimp only
    rw [hparent, Option.getD_some, hget]
    have hheld := @canonical_parent_ok_iff fs cwd (below root_dir init) cache
    constructor
    · intro h
      refine ⟨hplain, init, n, ?_⟩
      rcases hc : canonical_parent fs cwd (below root_dir init) cache with ⟨r, c⟩
      rw [hc] at h
      cases r with
      | error e => cases h
      | ok pc =>
        dsimp only at h
        split at h
        · cases h
        · rename_i hstart
          cases h
          exact ⟨pc, hnames, hheld.mp (by rw [hc]), by simpa using hstart, rfl⟩
    · rintro ⟨-, init', n', pc, hnames', hh, hstart, rfl⟩
      rw [hnames] at hnames'
      obtain ⟨rfl, hn⟩ := List.append_inj' hnames' rfl
      cases hn
      have hok := hheld.mpr hh
      rcases hc : canonical_parent fs cwd (below root_dir init) cache with ⟨r, c⟩
      rw [hc] at hok
      dsimp only at hok
      subst hok
      dsimp only
      rw [hstart, Bool.not_true, if_neg Bool.false_ne_true]

/-- **What `resolve_existing` finds**: what the path leads to, if it lies under the root. -/
theorem resolve_existing_some_iff {t : List Char} {p : Path} :
    resolve_existing fs cwd root_dir root_canonical t = some p ↔
      canonicalize fs cwd (root_dir.join (PathBuf.of_text (request_text t))) = .ok p ∧
        p.starts_with root_canonical = true := by
  unfold resolve_existing
  change (match canonicalize fs cwd (root_dir.join (PathBuf.of_text (request_text t))) with
    | .error _ => none
    | .ok fs_path => if fs_path.starts_with root_canonical then some fs_path else none) = some p ↔ _
  cases canonicalize fs cwd (root_dir.join (PathBuf.of_text (request_text t))) with
  | error e => simp
  | ok q =>
    dsimp only
    constructor
    · intro h
      split at h
      · rename_i hstart
        cases h
        exact ⟨rfl, hstart⟩
      · cases h
    · rintro ⟨h, hstart⟩
      cases h
      exact if_pos hstart

/-- What `resolve_existing` returns: a real path under the root. -/
theorem resolve_existing_some {t : List Char} {p : Path} (hcwd : fs.Real cwd)
    (h : resolve_existing fs cwd root_dir root_canonical t = some p) :
    canonicalize fs cwd (root_dir.join (PathBuf.of_text (request_text t))) = .ok p ∧
      fs.Real p ∧ p.starts_with root_canonical = true := by
  obtain ⟨hcanon, hstart⟩ := resolve_existing_some_iff.mp h
  exact ⟨hcanon, canonicalize_real hcwd hcanon, hstart⟩

/-- What a request path leads to is there. -/
theorem resolve_existing_real {t : List Char} {p : Path}
    (h : resolve_existing fs cwd root_dir root_canonical t = some p) : fs.Real p :=
  (resolve_existing_some (canonicalize_cwd (resolve_existing_some_iff.mp h).1) h).2.1

end Lemmas

end Rshs.Resolve
