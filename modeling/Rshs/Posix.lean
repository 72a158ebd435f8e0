/-
A file system with symbolic links, path resolution in it, and the system calls a
file server makes.

`Fs` is a tree by construction: the root is a directory and whatever exists stands
in a directory. `walk` resolves the components of a path one by one, links included,
with the kernel's bound on the number of links. Two resolutions come out of it:
`follow`, which needs the path to exist, and `locate`, which is what `open` with
`O_CREAT` does (the last component may be missing, and a link there is followed).
`locate_entry` does not follow the last component: it is where `mkdir`, `unlink`,
`rename` and an exclusive `open` act.

A system call runs on a `Machine` and asks the `Os` for everything a program cannot
foresee: whether the call fails although it could have succeeded, how far a failing
transfer or removal got, and in which order a directory is read. The machine logs
the real location of everything that is read, created, written or removed.
-/
import Rshs.StdPath
import Mathlib.Data.List.Dedup
import Mathlib.Data.List.Perm.Basic
import Mathlib.Data.List.Infix

set_option autoImplicit false

namespace Posix

open StdPath

/-! ## The tree -/

inductive ErrorKind
  | NotFound
  | AlreadyExists
  | NotADirectory
  | IsADirectory
  | DirectoryNotEmpty
  | FilesystemLoop
  | InvalidInput
  | Other
deriving DecidableEq

inductive Node
  | file (content : List UInt8)
  | dir
  | symlink (target : PathBuf)
deriving DecidableEq

inductive FileType
  | dir
  | file
  | symlink
deriving DecidableEq

def Node.file_type : Node → FileType
  | .file _ => .file
  | .dir => .dir
  | .symlink _ => .symlink

/-- A file system: what stands at each canonical path. -/
structure Fs where
  node : Path → Option Node
  known : List Path
  mem_known : ∀ p, node p ≠ none → p ∈ known
  root_dir : node [] = some .dir
  parent_dir : ∀ p n, node (p ++ [n]) ≠ none → node p = some .dir

/-- The file system of an empty disk. -/
def Fs.empty : Fs where
  node p := if p = [] then some .dir else none
  known := [[]]
  mem_known := by
    intro p hp
    by_cases hnil : p = []
    · rw [hnil]
      exact List.mem_cons_self
    · rw [if_neg hnil] at hp
      exact absurd rfl hp
  root_dir := if_pos rfl
  parent_dir := by
    intro p n hp
    rw [if_neg (by simp)] at hp
    exact absurd rfl hp

/-- Something other than a link stands at the path. -/
def Fs.Real (fs : Fs) (p : Path) : Prop := ∃ x, fs.node p = some x ∧ ∀ t, x ≠ .symlink t

theorem Fs.Real.ne_none {fs : Fs} {p : Path} (h : fs.Real p) : fs.node p ≠ none := by
  obtain ⟨x, hx, -⟩ := h
  rw [hx]
  exact Option.some_ne_none x

theorem node_of_dir {fs : Fs} {q : Path} {x : Node} (hx : fs.node q = some x)
    (ht : x.file_type = .dir) : fs.node q = some .dir := by
  cases x with
  | dir => exact hx
  | file c => cases ht
  | symlink t => cases ht

theorem node_of_file {fs : Fs} {q : Path} {x : Node} (hx : fs.node q = some x)
    (ht : x.file_type = .file) : ∃ c, fs.node q = some (.file c) := by
  cases x with
  | file c => exact ⟨c, hx⟩
  | dir => cases ht
  | symlink t => cases ht

/-- The entry of `p` that the known path `q` is. -/
def Fs.child (fs : Fs) (p q : Path) : Option Name :=
  q.getLast?.bind fun n => if q = p ++ [n] ∧ (fs.node q).isSome = true then some n else none

/-- The names of the entries of a directory. -/
def Fs.children (fs : Fs) (p : Path) : List Name := (fs.known.filterMap (fs.child p)).dedup

theorem Fs.children_nodup {fs : Fs} (p : Path) : (fs.children p).Nodup := List.nodup_dedup _

theorem Fs.mem_children {fs : Fs} {p : Path} {n : Name} :
    n ∈ fs.children p ↔ fs.node (p ++ [n]) ≠ none := by
  unfold Fs.children Fs.child
  rw [List.mem_dedup, List.mem_filterMap]
  constructor
  · rintro ⟨q, -, hq⟩
    obtain ⟨m, -, hm⟩ := Option.bind_eq_some_iff.mp hq
    split at hm
    · rename_i h
      cases hm
      rw [← h.1]
      exact Option.isSome_iff_ne_none.mp h.2
    · cases hm
  · intro h
    refine ⟨p ++ [n], fs.mem_known _ h, ?_⟩
    simp [Option.isSome_iff_ne_none.mpr h]

/-- Everything above an existing path is a directory. -/
theorem Fs.dir_above {fs : Fs} {p q : Path} (h : fs.node q ≠ none) (hpq : p <+: q) (hne : p ≠ q) :
    fs.node p = some .dir := by
  obtain ⟨r, rfl⟩ := hpq
  -- the induction takes the last name off
  induction r using List.reverseRecOn with
  | nil => exact absurd (List.append_nil p).symm hne
  | append_singleton r n ih =>
    rw [← List.append_assoc] at h
    have hdir : fs.node (p ++ r) = some .dir := fs.parent_dir _ n h
    by_cases hr : p = p ++ r
    · rw [hr]
      exact hdir
    · exact ih (by rw [hdir]; simp) hr

/-- Nothing stands below a place where nothing stands. -/
theorem none_below {fs : Fs} {p q : Path} (hnone : fs.node p = none) (hpq : p <+: q) :
    fs.node q = none := by
  by_contra hq
  by_cases heq : p = q
  · rw [heq] at hnone
    exact hq hnone
  · have hdir := fs.dir_above hq hpq heq
    rw [hnone] at hdir
    cases hdir

/-! ## Changing the tree -/

/-- A place where something other than a directory may be put. -/
def Fs.Slot (fs : Fs) (loc : Path) : Prop :=
  loc ≠ [] ∧ fs.node loc.dropLast = some .dir ∧ fs.node loc ≠ some .dir

instance (fs : Fs) (loc : Path) : Decidable (fs.Slot loc) :=
  inferInstanceAs (Decidable (_ ∧ _ ∧ _))

/-- The tree with `x` at a slot. -/
def Fs.put (fs : Fs) (loc : Path) (x : Node) (h : fs.Slot loc) : Fs where
  node q := if q = loc then some x else fs.node q
  known := loc :: fs.known
  mem_known := by
    intro p hp
    by_cases hloc : p = loc
    · rw [hloc]
      exact List.mem_cons_self
    · rw [if_neg hloc] at hp
      exact List.mem_cons_of_mem _ (fs.mem_known p hp)
  root_dir := by
    rw [if_neg (fun h' => h.1 h'.symm)]
    exact fs.root_dir
  parent_dir := by
    intro p n hp
    by_cases hloc : p ++ [n] = loc
    · -- the new entry: its parent is a directory and another place
      have hpar : loc.dropLast = p := by rw [← hloc, List.dropLast_concat]
      have hne : p ≠ loc := fun h' => by
        have hlen := congrArg List.length hloc
        rw [h', List.length_append, List.length_singleton] at hlen
        omega
      rw [if_neg hne, ← hpar]
      exact h.2.1
    · rw [if_neg hloc] at hp
      have hdir := fs.parent_dir p n hp
      have hne : p ≠ loc := fun h' => h.2.2 (by rw [← h']; exact hdir)
      rw [if_neg hne]
      exact hdir

/-- The tree after `x` is put at `loc`, when it can be. -/
def Fs.set (fs : Fs) (loc : Path) (x : Node) : Fs :=
  if h : fs.Slot loc then fs.put loc x h else fs

/-- Whether a path is removed when the paths chosen by `gone` are. -/
def swept (gone : Path → Bool) (q : Path) : Bool := q.inits.any fun a => a ≠ [] && gone a

theorem swept_iff {gone : Path → Bool} {q : Path} :
    swept gone q = true ↔ ∃ a, a <+: q ∧ a ≠ [] ∧ gone a = true := by
  unfold swept
  rw [List.any_eq_true]
  constructor
  · rintro ⟨a, ha, h⟩
    rw [Bool.and_eq_true] at h
    exact ⟨a, (List.mem_inits _ _).mp ha, by simpa using h.1, h.2⟩
  · rintro ⟨a, ha, hne, h⟩
    exact ⟨a, (List.mem_inits _ _).mpr ha, by simp [hne, h]⟩

/-- The tree without the chosen paths and what is below them. -/
def Fs.without (fs : Fs) (gone : Path → Bool) : Fs where
  node q := if swept gone q = true then none else fs.node q
  known := fs.known
  mem_known := by
    intro p hp
    split at hp
    · contradiction
    · exact fs.mem_known p hp
  root_dir := by
    rw [if_neg (fun h => ?_)]
    · exact fs.root_dir
    · obtain ⟨a, ha, hne, -⟩ := swept_iff.mp h
      exact hne (List.prefix_nil.mp ha)
  parent_dir := by
    intro p n hp
    split at hp
    · contradiction
    · rename_i hkeep
      rw [if_neg (fun h => ?_)]
      · exact fs.parent_dir p n hp
      · obtain ⟨a, ha, hne, hg⟩ := swept_iff.mp h
        exact hkeep (swept_iff.mpr ⟨a, ha.trans (List.prefix_append _ _), hne, hg⟩)

/-- The tree without a path and what is below it. -/
def Fs.prune (fs : Fs) (loc : Path) : Fs := fs.without (fun a => a = loc)

/-- A place a subtree may be moved to. -/
def Fs.Movable (fs : Fs) (src dst : Path) : Prop :=
  src ≠ [] ∧ dst ≠ [] ∧ ¬ src <+: dst ∧ fs.node dst.dropLast = some .dir

instance (fs : Fs) (src dst : Path) : Decidable (fs.Movable src dst) :=
  inferInstanceAs (Decidable (_ ∧ _ ∧ _ ∧ _))

/-- The tree with the subtree of `src` at `dst`. -/
def Fs.graft (fs : Fs) (src dst : Path) (h : fs.Movable src dst) : Fs where
  node q := if dst <+: q then fs.node (src ++ q.drop dst.length)
    else if src <+: q then none else fs.node q
  known := fs.known ++ fs.known.map (fun q => dst ++ q.drop src.length)
  mem_known := by
    intro p hp
    rw [List.mem_append, List.mem_map]
    split at hp
    · rename_i hdst
      obtain ⟨r, rfl⟩ := hdst
      rw [List.drop_left] at hp
      exact Or.inr ⟨src ++ r, fs.mem_known _ hp, by rw [List.drop_left]⟩
    · split at hp
      · contradiction
      · exact Or.inl (fs.mem_known p hp)
  root_dir := by
    have hdst : ¬ dst <+: [] := fun h' => h.2.1 (List.prefix_nil.mp h')
    have hsrc : ¬ src <+: [] := fun h' => h.1 (List.prefix_nil.mp h')
    rw [if_neg hdst, if_neg hsrc]
    exact fs.root_dir
  parent_dir := by
    intro p n hp
    by_cases hpn : dst <+: p ++ [n]
    · rw [if_pos hpn] at hp
      rcases List.prefix_concat_iff.mp hpn with heq | hp'
      · -- the moved entry itself: its new parent stays where it is
        have hpar : dst.dropLast = p := by rw [heq, List.dropLast_concat]
        have hlen : dst.length = p.length + 1 := by simp [heq]
        have hnd : ¬ dst <+: p := fun h' => by
          have := h'.length_le
          omega
        have hns : ¬ src <+: p := fun h' => h.2.2.1 (by
          rw [heq]
          exact h'.trans (List.prefix_append _ _))
        rw [if_neg hnd, if_neg hns, ← hpar]
        exact h.2.2.2
      · obtain ⟨r, rfl⟩ := hp'
        rw [if_pos (List.prefix_append _ _), List.drop_left]
        rw [List.append_assoc, List.drop_left, ← List.append_assoc] at hp
        exact fs.parent_dir _ n hp
    · rw [if_neg hpn] at hp
      split at hp
      · contradiction
      · rename_i hsn
        have hnd : ¬ dst <+: p := fun h' => hpn (h'.trans (List.prefix_append _ _))
        have hns : ¬ src <+: p := fun h' => hsn (h'.trans (List.prefix_append _ _))
        rw [if_neg hnd, if_neg hns]
        exact fs.parent_dir p n hp

theorem Fs.node_set {fs : Fs} {loc : Path} {x : Node} (h : fs.Slot loc) (q : Path) :
    (fs.set loc x).node q = if q = loc then some x else fs.node q := by
  rw [Fs.set, dif_pos h]
  rfl

theorem Fs.node_without {fs : Fs} {gone : Path → Bool} (q : Path) :
    (fs.without gone).node q = if swept gone q = true then none else fs.node q := rfl

theorem Fs.node_prune {fs : Fs} {loc : Path} (hloc : loc ≠ []) (q : Path) :
    (fs.prune loc).node q = if loc <+: q then none else fs.node q := by
  have hiff : swept (fun a => a = loc) q = true ↔ loc <+: q := by
    rw [swept_iff]
    constructor
    · rintro ⟨a, ha, -, heq⟩
      rw [decide_eq_true_eq] at heq
      rw [← heq]
      exact ha
    · intro h
      exact ⟨loc, h, hloc, by simp⟩
  rw [Fs.prune, Fs.node_without]
  simp only [hiff]

theorem dropLast_ne {loc : Path} (h : loc ≠ []) : loc.dropLast ≠ loc := by
  intro heq
  have hlen := congrArg List.length heq
  have hpos := List.length_pos_iff.mpr h
  rw [List.length_dropLast] at hlen
  omega

/-- A slot with a file in it is one still. -/
theorem slot_set {fs : Fs} {loc : Path} {c : List UInt8} (h : fs.Slot loc) :
    (fs.set loc (.file c)).Slot loc := by
  refine ⟨h.1, ?_, ?_⟩
  · rw [Fs.node_set h, if_neg (dropLast_ne h.1)]
    exact h.2.1
  · rw [Fs.node_set h, if_pos rfl]
    simp

/-! ## Path resolution -/

/-- What resolving a path goes through: its components, and a last `.` for a text
that ends in a separator. -/
def steps (p : PathBuf) : List Component := p.comps ++ if p.slash then [.curDir] else []

section Walk

variable (fs : Fs) (mk : Bool)

/-- One level of resolution, `next` being resolution with one link less to follow.
With `mk` the last component need not exist. -/
def walk_with (next : Path → List Component → Except ErrorKind Path) :
    Path → List Component → Except ErrorKind Path
  | cur, [] => .ok cur
  | cur, c :: rest =>
    if fs.node cur ≠ some .dir then .error .NotADirectory
    else match c with
      | .rootDir => walk_with next [] rest
      | .curDir => walk_with next cur rest
      | .parentDir => walk_with next cur.dropLast rest
      | .normal n =>
        match fs.node (cur ++ [n]) with
        | none =>
          if mk = true ∧ rest = [] then
            if n.has_nul then .error .InvalidInput else .ok (cur ++ [n])
          else .error .NotFound
        | some (.symlink t) => next cur (steps t ++ rest)
        | some (.file _) => walk_with next (cur ++ [n]) rest
        | some .dir => walk_with next (cur ++ [n]) rest

/-- Resolution from a directory, with so many links to follow at most. -/
def walk : ℕ → Path → List Component → Except ErrorKind Path
  | 0 => walk_with fs mk fun _ _ => .error .FilesystemLoop
  | links + 1 => walk_with fs mk (walk links)

end Walk

def symlink_max : ℕ := 40

/-- `realpath`, for a process in the directory `cwd`. -/
def canonicalize (fs : Fs) (cwd : Path) (p : PathBuf) : Except ErrorKind Path :=
  if p.comps = [] then .error .NotFound else walk fs false symlink_max cwd (steps p)

/-- Where a canonical-looking path really leads. -/
def follow (fs : Fs) (p : Path) : Except ErrorKind Path := walk fs false symlink_max [] p.comps

/-- Where `open` with `O_CREAT` opens or creates. -/
def locate (fs : Fs) (p : Path) : Except ErrorKind Path := walk fs true symlink_max [] p.comps

/-- Where an operation on a directory entry acts. -/
def locate_entry (fs : Fs) (p : Path) : Except ErrorKind Path :=
  match p.getLast? with
  | none => .error .InvalidInput
  | some n =>
    match follow fs p.dropLast with
    | .error e => .error e
    | .ok d =>
      if fs.node d ≠ some .dir then .error .NotADirectory
      else if n.has_nul then .error .InvalidInput
      else .ok (d ++ [n])

/-- `metadata`: the type of what the path leads to. -/
def metadata (fs : Fs) (p : Path) : Except ErrorKind FileType :=
  match follow fs p with
  | .error e => .error e
  | .ok q =>
    match fs.node q with
    | none => .error .NotFound
    | some x => .ok x.file_type

/-! ## What resolution returns -/

section WalkLemmas

variable {fs : Fs} {mk : Bool}

/-- A free place that `mk` may return. -/
def Fs.Free (fs : Fs) (p : Path) : Prop :=
  ∃ d n, p = d ++ [n] ∧ fs.node d = some .dir ∧ fs.node p = none

/-- One component of a walk, in a directory. -/
theorem walk_with_cons {next : Path → List Component → Except ErrorKind Path} {cur : Path}
    {c : Component} {rest : List Component} :
    walk_with fs mk next cur (c :: rest) =
      if fs.node cur ≠ some .dir then .error .NotADirectory
      else match c with
        | .rootDir => walk_with fs mk next [] rest
        | .curDir => walk_with fs mk next cur rest
        | .parentDir => walk_with fs mk next cur.dropLast rest
        | .normal n =>
          match fs.node (cur ++ [n]) with
          | none =>
            if mk = true ∧ rest = [] then
              if n.has_nul then .error .InvalidInput else .ok (cur ++ [n])
            else .error .NotFound
          | some (.symlink t) => next cur (steps t ++ rest)
          | some (.file _) => walk_with fs mk next (cur ++ [n]) rest
          | some .dir => walk_with fs mk next (cur ++ [n]) rest := rfl

/-- What one level returns is real, or free where `mk` allows it, if that holds of
the level below. -/
theorem walk_with_real {next : Path → List Component → Except ErrorKind Path}
    (hnext : ∀ cur comps p, fs.Real cur → next cur comps = .ok p →
      fs.Real p ∨ (mk = true ∧ fs.Free p))
    {cur : Path} {comps : List Component} {p : Path} (hcur : fs.Real cur)
    (h : walk_with fs mk next cur comps = .ok p) : fs.Real p ∨ (mk = true ∧ fs.Free p) := by
  induction comps generalizing cur with
  | nil =>
    cases h
    exact Or.inl hcur
  | cons c rest ih =>
    rw [walk_with_cons] at h
    split at h
    · cases h
    · rename_i hdir
      rw [not_not] at hdir
      cases c with
      | rootDir => exact ih ⟨_, fs.root_dir, by simp⟩ h
      | curDir => exact ih hcur h
      | parentDir =>
        -- above a directory there are directories
        refine ih ⟨.dir, ?_, by simp⟩ h
        by_cases hnil : cur = []
        · rw [hnil]
          exact fs.root_dir
        · exact fs.dir_above (by rw [hdir]; simp) (List.dropLast_prefix cur) (dropLast_ne hnil)
      | normal n =>
        dsimp only at h
        split at h
        · rename_i hnone
          split at h
          · rename_i hmk
            split at h
            · cases h
            · cases h
              exact Or.inr ⟨hmk.1, cur, n, rfl, hdir, hnone⟩
          · cases h
        · exact hnext _ _ _ hcur h
        · rename_i hfile
          exact ih ⟨_, hfile, by simp⟩ h
        · rename_i hsub
          exact ih ⟨_, hsub, by simp⟩ h

theorem walk_real {links : ℕ} {cur : Path} {comps : List Component} {p : Path}
    (hcur : fs.Real cur) (h : walk fs mk links cur comps = .ok p) :
    fs.Real p ∨ (mk = true ∧ fs.Free p) := by
  induction links generalizing cur comps p with
  | zero => exact walk_with_real (fun _ _ _ _ hn => by cases hn) hcur h
  | succ links ih => exact walk_with_real (fun _ _ _ hc hn => ih hc hn) hcur h

theorem real_root : fs.Real [] := ⟨_, fs.root_dir, by simp⟩

theorem canonicalize_real {cwd p : Path} {b : PathBuf} (hcwd : fs.Real cwd)
    (h : canonicalize fs cwd b = .ok p) : fs.Real p := by
  unfold canonicalize at h
  split at h
  · cases h
  · rcases walk_real hcwd h with hreal | ⟨hmk, -⟩
    · exact hreal
    · cases hmk

/-- Nothing is resolved from a place that is no directory. -/
theorem walk_dir {links : ℕ} {cur p : Path} {c : Component} {rest : List Component}
    (h : walk fs mk links cur (c :: rest) = .ok p) : fs.node cur = some .dir := by
  have hlevel : ∀ next, walk_with fs mk next cur (c :: rest) = .ok p → fs.node cur = some .dir := by
    intro next hnext
    rw [walk_with_cons] at hnext
    split at hnext
    · cases hnext
    · rename_i hdir
      exact not_not.mp hdir
  cases links with
  | zero => exact hlevel _ h
  | succ links => exact hlevel _ h

theorem canonicalize_cwd {cwd p : Path} {b : PathBuf} (h : canonicalize fs cwd b = .ok p) :
    fs.Real cwd := by
  unfold canonicalize at h
  split at h
  · cases h
  · rename_i hne
    have hsteps : steps b ≠ [] := by
      intro hnil
      exact hne (List.append_eq_nil_iff.mp hnil).1
    obtain ⟨c, rest, hcons⟩ := List.exists_cons_of_ne_nil hsteps
    rw [hcons] at h
    exact ⟨.dir, walk_dir h, by simp⟩

theorem follow_real {p q : Path} (h : follow fs p = .ok q) : fs.Real q := by
  rcases walk_real real_root h with hreal | ⟨hmk, -⟩
  · exact hreal
  · cases hmk

theorem locate_real {p q : Path} (h : locate fs p = .ok q) : fs.Real q ∨ fs.Free q := by
  rcases walk_real real_root h with hreal | ⟨-, hfree⟩
  · exact Or.inl hreal
  · exact Or.inr hfree

/-- A real path leads to itself. -/
theorem walk_with_self {next : Path → List Component → Except ErrorKind Path} {d q : Path}
    (h : fs.Real (d ++ q)) : walk_with fs mk next d (q.map .normal) = .ok (d ++ q) := by
  induction q generalizing d with
  | nil =>
    rw [List.append_nil]
    rfl
  | cons n q ih =>
    obtain ⟨x, hx, hlink⟩ := h
    have hsome : fs.node (d ++ n :: q) ≠ none := by rw [hx]; simp
    have hd : fs.node d = some .dir :=
      fs.dir_above hsome (List.prefix_append _ _) (fun heq => by simpa using congrArg List.length heq)
    have hassoc : d ++ n :: q = (d ++ [n]) ++ q := by simp
    rw [List.map_cons, walk_with_cons, if_neg (not_not.mpr hd)]
    dsimp only
    -- the next component exists and is no link: it is above the path or the path
    have hn : ∃ y, fs.node (d ++ [n]) = some y ∧ ∀ t, y ≠ .symlink t := by
      by_cases hq : q = []
      · subst hq
        exact ⟨x, hx, hlink⟩
      · refine ⟨.dir, fs.dir_above hsome ?_ ?_, by simp⟩
        · rw [hassoc]
          exact List.prefix_append _ _
        · intro heq
          rw [hassoc] at heq
          exact hq (by simpa using heq.symm)
    obtain ⟨y, hy, hylink⟩ := hn
    rw [hassoc] at hx hsome ⊢
    have hrec := ih ⟨x, hx, hlink⟩
    rw [hy]
    cases y with
    | file c => exact hrec
    | dir => exact hrec
    | symlink t => exact absurd rfl (hylink t)

theorem walk_self {links : ℕ} {p : Path} (h : fs.Real p) :
    walk fs mk links [] p.comps = .ok p := by
  have hroot : ∀ next, walk_with fs mk next [] p.comps = .ok p := by
    intro next
    rw [Path.comps, walk_with_cons, if_neg (not_not.mpr fs.root_dir)]
    exact walk_with_self h
  cases links with
  | zero => exact hroot _
  | succ links => exact hroot _

theorem follow_self {p : Path} (h : fs.Real p) : follow fs p = .ok p := walk_self h

/-- The entry of a real directory is where its path says. -/
theorem locate_entry_self {d : Path} {n : Name} (hd : fs.node d = some .dir)
    (hn : n.has_nul = false) : locate_entry fs (d ++ [n]) = .ok (d ++ [n]) := by
  have hreal : fs.Real d := ⟨_, hd, by simp⟩
  unfold locate_entry
  rw [List.getLast?_concat, List.dropLast_concat, follow_self hreal]
  dsimp only
  rw [if_neg (not_not.mpr hd), hn, if_neg Bool.false_ne_true]

/-- An entry has a directory above it and is not the root. -/
theorem locate_entry_ok {p loc : Path} (h : locate_entry fs p = .ok loc) :
    ∃ d n, p = p.dropLast ++ [n] ∧ follow fs p.dropLast = .ok d ∧ fs.node d = some .dir ∧
      n.has_nul = false ∧ loc = d ++ [n] := by
  unfold locate_entry at h
  split at h
  · cases h
  · rename_i n hlast
    split at h
    · cases h
    · rename_i d hd
      split at h
      · cases h
      · rename_i hdir
        split at h
        · cases h
        · rename_i hnul
          cases h
          refine ⟨d, n, ?_, hd, by simpa using hdir, by simpa using hnul, rfl⟩
          exact (List.dropLast_append_getLast? n hlast).symm

theorem path_ne_nil {p loc : Path} (h : locate_entry fs p = .ok loc) : p ≠ [] := by
  rintro rfl
  cases h

theorem entry_ne_nil {p loc : Path} (h : locate_entry fs p = .ok loc) : loc ≠ [] := by
  obtain ⟨d, n, -, -, -, -, rfl⟩ := locate_entry_ok h
  simp

theorem entry_parent {p loc : Path} (h : locate_entry fs p = .ok loc) :
    fs.node loc.dropLast = some .dir := by
  obtain ⟨d, n, -, -, hd, -, rfl⟩ := locate_entry_ok h
  rw [List.dropLast_concat]
  exact hd

/-- What is left when an entry is removed. -/
theorem node_prune_entry {p loc : Path} (h : locate_entry fs p = .ok loc) (q : Path) :
    (fs.prune loc).node q = if loc <+: q then none else fs.node q :=
  Fs.node_prune (entry_ne_nil h) q

/-- Resolution never says that something exists. -/
theorem walk_with_error
    {next : Path → List Component → Except ErrorKind Path} {cur : Path} {comps : List Component}
    (hnext : ∀ cur comps, next cur comps ≠ .error .AlreadyExists) :
    walk_with fs mk next cur comps ≠ .error .AlreadyExists := by
  induction comps generalizing cur with
  | nil =>
    intro h
    cases h
  | cons c rest ih =>
    rw [walk_with_cons]
    split
    · simp
    · -- only a name can fail, and then as a missing file or none to be walked
      cases c with
      | rootDir => exact ih
      | curDir => exact ih
      | parentDir => exact ih
      | normal n =>
        dsimp only
        split
        · split
          · split <;> simp
          · simp
        · exact hnext _ _
        · exact ih
        · exact ih

theorem walk_error {links : ℕ} {cur : Path} {comps : List Component} :
    walk fs mk links cur comps ≠ .error .AlreadyExists := by
  induction links generalizing cur comps with
  | zero => exact walk_with_error (fun _ _ => by simp)
  | succ links ih => exact walk_with_error (fun _ _ => ih)

theorem locate_entry_error {p : Path} :
    locate_entry fs p ≠ .error .AlreadyExists := by
  unfold locate_entry
  split
  · simp
  · split
    · rename_i e he
      intro h
      cases h
      exact walk_error he
    · split
      · simp
      · split <;> simp

theorem slot_of_locate_entry {p loc : Path} (h : locate_entry fs p = .ok loc)
    (hdir : fs.node loc ≠ some .dir) : fs.Slot loc :=
  ⟨entry_ne_nil h, entry_parent h, hdir⟩

/-- Where something real stands, or could be made, is a slot unless a directory
stands there. -/
theorem slot_of_real_or_free {loc : Path} (h : fs.Real loc ∨ fs.Free loc)
    (hdir : fs.node loc ≠ some .dir) : fs.Slot loc := by
  rcases h with ⟨x, hx, -⟩ | ⟨d, n, rfl, hd, -⟩
  · have hne : loc ≠ [] := fun hnil => hdir (by rw [hnil]; exact fs.root_dir)
    refine ⟨hne, ?_, hdir⟩
    exact fs.dir_above (by rw [hx]; simp) (List.dropLast_prefix loc) (dropLast_ne hne)
  · exact ⟨by simp, by rw [List.dropLast_concat]; exact hd, hdir⟩

theorem slot_of_locate {p loc : Path} (h : locate fs p = .ok loc)
    (hdir : fs.node loc ≠ some .dir) : fs.Slot loc :=
  slot_of_real_or_free (locate_real h) hdir

end WalkLemmas

/-! ## Small trees -/

/-- The empty directory `/d`. -/
def disk_d : Fs := Fs.empty.set [d_name] .dir

/-- The directory `/d` with the empty file `f`. -/
def disk_df : Fs := disk_d.set [d_name, f_name] (.file [])

/-- The directory `/d` with the file `f` and the directory `e`, which has the file `g`. -/
def disk_deep : Fs :=
  ((disk_d.set [d_name, f_name] (.file [1])).set [d_name, e_name] .dir).set [d_name, e_name, g_name]
    (.file [2, 3])

/-- The empty file `/f`. -/
def disk_f : Fs := Fs.empty.set [f_name] (.file [])

end Posix
