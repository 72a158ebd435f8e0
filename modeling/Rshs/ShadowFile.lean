/-
`auth.rs`: the shadow file, and `build_auth_state`, which reads, creates and writes
it at start-up.

A `Disk` is a file system with what permissions decide: whether the write bits of a
file's mode are off, and whether this process may get to a path through the
directories above it, read a file, write it, or add an entry to a directory. The
calls act on paths as texts, from the working directory.

A `:ro` argument is recorded in `ShadowFileArg.writable`, and `build_auth_state` looks
at it only to log a warning. So the file is created when it is missing, and written
back under `--shadow-write`; `shadow_kept_iff` says exactly when neither changes a
file.
-/
import Rshs.Cli
import Rshs.Posix

set_option autoImplicit false

namespace Rshs.ShadowFile

open StdPath Posix Rshs.Webdav Rshs.Auth

/-! ## The disk -/

structure Disk where
  fs : Fs
  /-- No write bit is set in the mode of what stands there. -/
  readonly : Path → Bool
  /-- The directories on the way to a path may be searched. -/
  may_reach : Fs → PathBuf → Bool
  may_read : Path → Bool
  may_write : Path → Bool
  may_add : Path → Bool

def Disk.set (d : Disk) (loc : Path) (x : Node) : Disk := { d with fs := d.fs.set loc x }

/-- `set_permissions` with mode 0600. -/
def Disk.set_mode_600 (d : Disk) (loc : Path) : Disk :=
  { d with readonly := fun q => if q = loc then false else d.readonly q }

@[simp] theorem set_fs (d : Disk) (loc : Path) (x : Node) :
    (d.set loc x).fs = d.fs.set loc x := rfl
@[simp] theorem set_mode_600_fs (d : Disk) (loc : Path) : (d.set_mode_600 loc).fs = d.fs := rfl

section Calls

variable (cwd : Path)

/-- A path with a NUL byte is refused before any call. -/
def has_nul (p : PathBuf) : Bool :=
  p.comps.any fun c =>
    match c with
    | .normal n => n.has_nul
    | _ => false

/-- `f` of a path that a call accepts and that this process can get to. -/
def Disk.reach (d : Disk) (p : PathBuf) (f : Except ErrorKind Path) : Except ErrorKind Path :=
  if has_nul p then .error .InvalidInput
  else if d.may_reach d.fs p then f
  else .error .Other

/-- Where `metadata` looks. -/
def Disk.realpath (d : Disk) (p : PathBuf) : Except ErrorKind Path :=
  d.reach p (canonicalize d.fs cwd p)

/-- `Path::exists`. -/
def Disk.exists (d : Disk) (p : PathBuf) : Bool := (d.realpath cwd p).isOk

/-- `Path::is_dir`. -/
def Disk.is_dir (d : Disk) (p : PathBuf) : Bool :=
  match d.realpath cwd p with
  | .ok loc => d.fs.node loc = some .dir
  | .error _ => false

/-- The directory entry a path names. -/
def entry_of (d : Disk) (p : PathBuf) : Except ErrorKind Path :=
  d.reach p <|
    match p.comps.getLast? with
    | some (.normal n) =>
      match walk d.fs false symlink_max cwd p.comps.dropLast with
      | .error e => .error e
      | .ok dir => if d.fs.node dir ≠ some .dir then .error .NotADirectory else .ok (dir ++ [n])
    | _ => (canonicalize d.fs cwd p).bind fun _ => .error .AlreadyExists

/-- `mkdir`. -/
def mkdir (p : PathBuf) (d : Disk) : Except ErrorKind Unit × Disk :=
  match entry_of cwd d p with
  | .error e => (.error e, d)
  | .ok loc =>
    if d.fs.node loc ≠ none then (.error .AlreadyExists, d)
    else if d.may_add loc.dropLast then (.ok (), d.set loc .dir)
    else (.error .Other, d)

/-- `create_dir_all`; a path has fewer ancestors than `fuel`. -/
def create_dir_all : ℕ → PathBuf → Disk → Except ErrorKind Unit × Disk
  | 0, _, d => (.error .Other, d)
  | fuel + 1, p, d =>
    if p.comps = [] then (.ok (), d)
    else
      match mkdir cwd p d with
      | (.ok (), d) => (.ok (), d)
      | (.error e, d) =>
        if e ≠ .NotFound then (if d.is_dir cwd p then (.ok (), d) else (.error e, d))
        else
          match p.parent with
          | none => (.error .Other, d)
          | some parent =>
            match create_dir_all fuel parent d with
            | (.error e, d) => (.error e, d)
            | (.ok (), d) =>
              match mkdir cwd p d with
              | (.ok (), d) => (.ok (), d)
              | (.error e, d) => if d.is_dir cwd p then (.ok (), d) else (.error e, d)

/-- Where `File::create_new` would make a file. -/
def creatable (d : Disk) (p : PathBuf) : Option Path :=
  if p.slash then none
  else
    match entry_of cwd d p with
    | .error _ => none
    | .ok loc => if d.fs.node loc = none ∧ d.may_add loc.dropLast = true then some loc else none

/-- `create_shadow_file`. -/
def create_shadow_file (p : PathBuf) (d : Disk) : Disk :=
  match creatable cwd d p with
  | none => d
  | some loc => (d.set loc (.file [])).set_mode_600 loc

/-- `fs::read_to_string`. -/
def read_to_string (p : PathBuf) (d : Disk) : Option (List Char) :=
  match d.realpath cwd p with
  | .error _ => none
  | .ok loc =>
    match d.fs.node loc with
    | some (.file content) => if d.may_read loc then Str.from_utf8 content else none
    | _ => none

/-- Where `fs::write` would write: the file the path leads to, or a new one. -/
def openable (d : Disk) (p : PathBuf) : Option Path :=
  if p.comps = [] then none
  else
    match d.reach p (walk d.fs true symlink_max cwd (steps p)) with
    | .error _ => none
    | .ok loc =>
      match d.fs.node loc with
      | none => if d.may_add loc.dropLast then some loc else none
      | some (.file _) => if d.may_write loc then some loc else none
      | some _ => none

def fs_write (p : PathBuf) (content : List UInt8) (d : Disk) : Disk :=
  match openable cwd d p with
  | none => d
  | some loc => d.set loc (.file content)

def is_path_writable (p : PathBuf) (d : Disk) : Bool :=
  match d.realpath cwd p with
  | .ok loc => !d.readonly loc
  | .error _ =>
    match p.parent with
    | none => true
    | some parent =>
      match d.realpath cwd parent with
      | .ok loc => !d.readonly loc
      | .error _ => true

end Calls

/-! ## The file's content -/

/-- One line of a shadow file. -/
def load_line (users : Users) (line : List Char) : Users :=
  let line := Str.trim line
  if line = [] then users
  else
    match Str.split_once ':' line with
    | none => users
    | some (username, rest) =>
      if username = [] then users
      else
        let hash := match Str.split_once ':' rest with
          | some (h, _) => h
          | none => rest
        if hash = [] ∨ hash.head? ≠ some '$' then users
        else users.insert username (.Sha512Crypt hash)

/-- `load_from_shadow_file`, from the text of the file. -/
def load_from_shadow_file (content : List Char) : AuthState :=
  { AuthState.new with users := (Str.lines content).foldl load_line ∅ }

def merge_cli (s other : AuthState) : AuthState :=
  { s with users := other.users.entries.foldl (fun users e => users.insert e.1 e.2) s.users }

section Build

variable (iterate : Users → List (List Char × Credential))
  (hash_password : List Char → List Char → Option (List Char))

/-- One line as it is written. The salt is a new one for each user. -/
def shadow_line (e : List Char × Credential) : Option (List Char) :=
  match e.2 with
  | .Sha512Crypt h => some (e.1 ++ ':' :: h ++ ['\n'])
  | .Plaintext p => (hash_password e.1 p).map fun h => e.1 ++ ':' :: h ++ ['\n']

/-- The content that `write_to_shadow_file` writes; none when a password cannot be
hashed. The hash map is gone through in the order of `iterate`. -/
def shadow_content (users : Users) : Option (List UInt8) :=
  ((iterate users).mapM (shadow_line hash_password)).map fun ls => Text.utf8_encode ls.flatten

variable (cwd : Path) (cli : Cli)

/-- `write_to_shadow_file` for a file that is not to be created. -/
def write_to_shadow_file (s : AuthState) (p : PathBuf) (d : Disk) : Disk :=
  match shadow_content iterate hash_password s.users with
  | none => d
  | some content => fs_write cwd p content d

/-- The disk with the missing directories above the file. -/
def make_parents (p : PathBuf) (d : Disk) : Disk :=
  match p.parent with
  | none => d
  | some parent =>
    if parent.comps ≠ [] ∧ d.exists cwd parent = false then
      (create_dir_all cwd (parent.comps.length + 1) parent d).2
    else d

/-- The users of the file and of the command line, from the disk the file is read
from. -/
def merged_users (p : PathBuf) (d : Disk) : AuthState :=
  let auth_state := match read_to_string cwd p d with
    | some content => load_from_shadow_file content
    | none => AuthState.new
  if cli.to_auth_state.is_empty then auth_state else merge_cli auth_state cli.to_auth_state

def build_auth_state (d : Disk) : AuthState × Disk :=
  match cli.to_shadow_file_arg with
  | none => (cli.to_auth_state, d)
  | some shadow =>
    -- that `shadow.writable` is false is only logged
    let shadow_path := PathBuf.of_text shadow.path
    let d := make_parents cwd shadow_path d
    let d := if d.exists cwd shadow_path then d else create_shadow_file cwd shadow_path d
    let auth_state := merged_users cwd cli shadow_path d
    let d :=
      if cli.shadow_write then
        if is_path_writable cwd shadow_path d then
          write_to_shadow_file iterate hash_password cwd auth_state shadow_path d
        else d
      else d
    ({ auth_state with auth_cache_ttl := Duration.from_secs cli.auth_cache_ttl }, d)

end Build

/-! ## What the calls change -/

/-- Nothing but directories was added to the tree. -/
def Grown (fs fs' : Fs) : Prop :=
  ∀ q, fs'.node q = fs.node q ∨ (fs.node q = none ∧ fs'.node q = some .dir)

/-- The two trees have the same files, with the same content. -/
def SameFiles (fs fs' : Fs) : Prop :=
  ∀ q c, fs'.node q = some (.file c) ↔ fs.node q = some (.file c)

theorem SameFiles.symm {fs fs' : Fs} (h : SameFiles fs fs') : SameFiles fs' fs :=
  fun q c => (h q c).symm

theorem SameFiles.trans {fs₁ fs₂ fs₃ : Fs} (h : SameFiles fs₁ fs₂) (h' : SameFiles fs₂ fs₃) :
    SameFiles fs₁ fs₃ := fun q c => (h' q c).trans (h q c)

theorem Grown.refl (fs : Fs) : Grown fs fs := fun _ => Or.inl rfl

theorem Grown.trans {fs₁ fs₂ fs₃ : Fs} (h : Grown fs₁ fs₂) (h' : Grown fs₂ fs₃) :
    Grown fs₁ fs₃ := by
  intro q
  rcases h' q with heq' | ⟨hnone, hdir⟩
  · rw [heq']
    exact h q
  · refine Or.inr ⟨?_, hdir⟩
    rcases h q with heq | ⟨hfree, -⟩
    · rw [← heq]
      exact hnone
    · exact hfree

theorem Grown.same_files {fs fs' : Fs} (h : Grown fs fs') : SameFiles fs fs' := by
  intro q c
  rcases h q with heq | ⟨hnone, hdir⟩
  · rw [heq]
  · rw [hnone, hdir]
    simp

theorem Grown.real {fs fs' : Fs} (h : Grown fs fs') {p : Path} (hp : fs.Real p) : fs'.Real p := by
  obtain ⟨x, hx, hlink⟩ := hp
  rcases h p with heq | ⟨hnone, -⟩
  · exact ⟨x, by rw [heq, hx], hlink⟩
  · rw [hnone] at hx
    cases hx

variable {cwd : Path}

theorem reach_ok {d : Disk} {p : PathBuf} {f : Except ErrorKind Path} {loc : Path}
    (h : d.reach p f = .ok loc) : f = .ok loc := by
  unfold Disk.reach at h
  split at h
  · cases h
  · split at h
    · exact h
    · cases h

/-- An entry that is not there yet has a directory above it. -/
theorem slot_of_entry {d : Disk} {p : PathBuf} {loc : Path} (h : entry_of cwd d p = .ok loc)
    (hnone : d.fs.node loc = none) : d.fs.Slot loc := by
  have hentry := reach_ok h
  split at hentry
  · split at hentry
    · cases hentry
    · rename_i dir _
      split at hentry
      · cases hentry
      · rename_i hdir
        cases hentry
        apply slot_of_real_or_free
        · exact Or.inr ⟨dir, _, rfl, not_not.mp hdir, hnone⟩
        · rw [hnone]
          simp
  · -- a path that ends in no name is never an entry to make
    cases hcanon : canonicalize d.fs cwd p with
    | error e =>
      rw [hcanon] at hentry
      cases hentry
    | ok q =>
      rw [hcanon] at hentry
      cases hentry

theorem mkdir_grown (cwd : Path) (p : PathBuf) (d : Disk) : Grown d.fs (mkdir cwd p d).2.fs := by
  unfold mkdir
  split
  · exact Grown.refl _
  · rename_i loc hloc
    split
    · exact Grown.refl _
    · rename_i hfree
      rw [not_not] at hfree
      split
      · intro q
        have hnode := Fs.node_set (x := .dir) (slot_of_entry hloc hfree) q
        by_cases hq : q = loc
        · rw [if_pos hq] at hnode
          exact Or.inr ⟨by rw [hq]; exact hfree, hnode⟩
        · rw [if_neg hq] at hnode
          exact Or.inl hnode
      · exact Grown.refl _

theorem create_dir_all_grown (cwd : Path) (fuel : ℕ) (p : PathBuf) (d : Disk) :
    Grown d.fs (create_dir_all cwd fuel p d).2.fs := by
  induction fuel generalizing p d with
  | zero => exact Grown.refl _
  | succ fuel ih =>
    have hfirst := mkdir_grown cwd p d
    unfold create_dir_all
    split
    · exact Grown.refl _
    · split
      · rename_i d₁ hmk
        rw [hmk] at hfirst
        exact hfirst
      · rename_i e d₁ hmk
        rw [hmk] at hfirst
        split
        · split <;> exact hfirst
        · split
          · exact hfirst
          · rename_i parent _
            -- the parents first, then the directory once more
            have hparents := ih parent d₁
            split
            · rename_i e₂ d₂ hrec
              rw [hrec] at hparents
              exact hfirst.trans hparents
            · rename_i d₂ hrec
              rw [hrec] at hparents
              have hlast := (hfirst.trans hparents).trans (mkdir_grown cwd p d₂)
              split
              · rename_i d₃ hmk₃
                rw [hmk₃] at hlast
                exact hlast
              · rename_i e₃ d₃ hmk₃
                rw [hmk₃] at hlast
                split <;> exact hlast

theorem make_parents_grown (cwd : Path) (p : PathBuf) (d : Disk) :
    Grown d.fs (make_parents cwd p d).fs := by
  unfold make_parents
  split
  · exact Grown.refl _
  · split
    · exact create_dir_all_grown _ _ _ _
    · exact Grown.refl _

theorem creatable_spec {d : Disk} {p : PathBuf} {loc : Path} (h : creatable cwd d p = some loc) :
    d.fs.Slot loc ∧ d.fs.node loc = none := by
  unfold creatable at h
  split at h
  · cases h
  · split at h
    · cases h
    · rename_i l hentry
      split at h
      · rename_i hfree
        cases h
        exact ⟨slot_of_entry hentry hfree.1, hfree.1⟩
      · cases h

theorem openable_slot {d : Disk} (hcwd : d.fs.Real cwd) {p : PathBuf} {loc : Path}
    (h : openable cwd d p = some loc) : d.fs.Slot loc := by
  unfold openable at h
  split at h
  · cases h
  · split at h
    · cases h
    · rename_i l hwalk
      have hplace : d.fs.Real l ∨ d.fs.Free l := by
        rcases walk_real hcwd (reach_ok hwalk) with hreal | ⟨-, hfree⟩
        · exact Or.inl hreal
        · exact Or.inr hfree
      split at h
      · rename_i hnone
        split at h
        · cases h
          exact slot_of_real_or_free hplace (by rw [hnone]; simp)
        · cases h
      · rename_i c hfile
        split at h
        · cases h
          exact slot_of_real_or_free hplace (by rw [hfile]; simp)
        · cases h
      · cases h

/-- A file is still a file after the write. -/
theorem fs_write_file {d : Disk} (hcwd : d.fs.Real cwd) {p : PathBuf} {content : List UInt8}
    {q : Path} (h : ∃ c, d.fs.node q = some (.file c)) :
    ∃ c, (fs_write cwd p content d).fs.node q = some (.file c) := by
  unfold fs_write
  split
  · exact h
  · rename_i loc hopen
    rw [set_fs, Fs.node_set (openable_slot hcwd hopen)]
    by_cases hq : q = loc
    · rw [if_pos hq]
      exact ⟨content, rfl⟩
    · rw [if_neg hq]
      exact h

/-- The write changes no file exactly when the file holds what is written. -/
theorem fs_write_same_iff {d : Disk} (hcwd : d.fs.Real cwd) {p : PathBuf} {content : List UInt8} :
    SameFiles d.fs (fs_write cwd p content d).fs ↔
      ∀ loc, openable cwd d p = some loc → d.fs.node loc = some (.file content) := by
  unfold fs_write
  split
  · rename_i hopen
    rw [hopen]
    constructor
    · intro _ loc hloc
      cases hloc
    · intro _ q c
      exact Iff.rfl
  · rename_i loc hopen
    have hnode := Fs.node_set (x := .file content) (openable_slot hcwd hopen)
    rw [hopen, set_fs]
    constructor
    · intro hsame loc' hloc'
      cases hloc'
      apply (hsame loc content).mp
      rw [hnode, if_pos rfl]
    · intro hheld q c
      rw [hnode]
      by_cases hq : q = loc
      · rw [if_pos hq, hq, hheld loc rfl]
      · rw [if_neg hq]

theorem from_arg_ro (path : List Char) :
    ShadowFileArg.from_arg (path ++ ":ro".toList) = ⟨path, false⟩ := by
  have hrw : ¬ ":rw".toList <:+ path ++ ":ro".toList := by
    intro h
    have hro : ":ro".toList <:+ path ++ ":ro".toList := List.suffix_append _ _
    have heq := (List.suffix_of_suffix_length_le h hro (by decide)).eq_of_length (by decide)
    exact absurd heq (by decide)
  unfold ShadowFileArg.from_arg Str.strip_suffix
  rw [if_neg (by rw [List.isSuffixOf_iff_suffix]; exact hrw)]
  dsimp only
  rw [if_pos (by rw [List.isSuffixOf_iff_suffix]; exact List.suffix_append _ _),
    List.length_append, Nat.add_sub_cancel, List.take_left]

/-! ## When a read-only file is kept -/

section Kept

variable (iterate : Users → List (List Char × Credential))
  (hash_password : List Char → List Char → Option (List Char)) (cwd : Path) (cli : Cli)

/-- The file is there or cannot be made; and if it is written back, what it holds is
what is written. -/
structure Spared (p : PathBuf) (d : Disk) : Prop where
  not_made : d.exists cwd p = false → creatable cwd d p = none
  same_content : cli.shadow_write = true → is_path_writable cwd p d = true →
    ∀ content, shadow_content iterate hash_password (merged_users cwd cli p d).users = some content →
      ∀ loc, openable cwd d p = some loc → d.fs.node loc = some (.file content)

/-- The disk once a missing file is made. -/
def made (p : PathBuf) (d : Disk) : Disk :=
  if d.exists cwd p then d else create_shadow_file cwd p d

/-- The disk once the users are written back, if they are. -/
def written (p : PathBuf) (d : Disk) : Disk :=
  if cli.shadow_write then
    if is_path_writable cwd p d then
      write_to_shadow_file iterate hash_password cwd (merged_users cwd cli p d) p d
    else d
  else d

/-- A file that is made was not there before. -/
theorem made_cases (p : PathBuf) (d : Disk) :
    (made cwd p d = d ∧ (d.exists cwd p = false → creatable cwd d p = none)) ∨
      (d.exists cwd p = false ∧ ∃ loc, creatable cwd d p = some loc ∧ d.fs.node loc = none ∧
        ∀ q, (made cwd p d).fs.node q = if q = loc then some (.file []) else d.fs.node q) := by
  unfold made
  split
  · rename_i hthere
    exact Or.inl ⟨rfl, fun h => by rw [hthere] at h; cases h⟩
  · rename_i hmissing
    rw [Bool.not_eq_true] at hmissing
    unfold create_shadow_file
    split
    · rename_i hnot
      exact Or.inl ⟨rfl, fun _ => hnot⟩
    · rename_i loc hloc
      have hspec := creatable_spec hloc
      refine Or.inr ⟨hmissing, loc, hloc, hspec.2, ?_⟩
      intro q
      rw [set_mode_600_fs, set_fs, Fs.node_set hspec.1]

theorem written_file {p : PathBuf} {d : Disk} (hcwd : d.fs.Real cwd) {q : Path}
    (h : ∃ c, d.fs.node q = some (.file c)) :
    ∃ c, (written iterate hash_password cwd cli p d).fs.node q = some (.file c) := by
  unfold written write_to_shadow_file
  split
  · split
    · split
      · exact h
      · exact fs_write_file hcwd h
    · exact h
  · exact h

theorem written_same_iff {p : PathBuf} {d : Disk} (hcwd : d.fs.Real cwd) :
    SameFiles d.fs (written iterate hash_password cwd cli p d).fs ↔
      (cli.shadow_write = true → is_path_writable cwd p d = true →
        ∀ content, shadow_content iterate hash_password (merged_users cwd cli p d).users
            = some content →
          ∀ loc, openable cwd d p = some loc → d.fs.node loc = some (.file content)) := by
  have hrefl : SameFiles d.fs d.fs := fun _ _ => Iff.rfl
  unfold written write_to_shadow_file
  -- the file is written only with the flag, where it is writable, and with a content
  split
  · rename_i hflag
    split
    · rename_i hwritable
      split
      · rename_i hcontent
        rw [hcontent]
        constructor
        · intro _ _ _ content h
          cases h
        · intro _
          exact hrefl
      · rename_i content hcontent
        rw [hcontent, fs_write_same_iff hcwd]
        constructor
        · intro h _ _ content' heq
          cases heq
          exact h
        · intro h
          exact h hflag hwritable content rfl
    · rename_i hreadonly
      constructor
      · intro _ _ h
        exact absurd h hreadonly
      · intro _
        exact hrefl
  · rename_i hflag
    constructor
    · intro _ h
      exact absurd h hflag
    · intro _
      exact hrefl

/-- What starting up with a shadow file leaves on the disk. -/
theorem build_auth_state_disk {shadow : ShadowFileArg} (h : cli.to_shadow_file_arg = some shadow)
    (d : Disk) :
    (build_auth_state iterate hash_password cwd cli d).2
      = written iterate hash_password cwd cli (PathBuf.of_text shadow.path)
          (made cwd (PathBuf.of_text shadow.path)
            (make_parents cwd (PathBuf.of_text shadow.path) d)) := by
  unfold build_auth_state
  rw [h]
  rfl

/-- **When a read-only shadow file is kept.** Whatever the disk and the credentials:
with `--shadow-file PATH:ro`, no file is changed or made if and only if, once the
missing directories above it are made, the file is spared. -/
theorem shadow_kept_iff {path : List Char} (d : Disk) (hcwd : d.fs.Real cwd)
    (h : cli.shadow_file = some (path ++ ":ro".toList)) :
    SameFiles d.fs (build_auth_state iterate hash_password cwd cli d).2.fs ↔
      Spared iterate hash_password cwd cli (PathBuf.of_text path)
        (make_parents cwd (PathBuf.of_text path) d) := by
  have harg : cli.to_shadow_file_arg = some ⟨path, false⟩ := by
    unfold Cli.to_shadow_file_arg
    rw [h, Option.map_some, from_arg_ro]
  rw [build_auth_state_disk iterate hash_password cwd cli harg]
  dsimp only
  have hgrown := make_parents_grown cwd (PathBuf.of_text path) d
  generalize make_parents cwd (PathBuf.of_text path) d = d₁ at hgrown
  generalize PathBuf.of_text path = p
  have hcwd₁ := hgrown.real hcwd
  have hsame₁ := hgrown.same_files
  rcases made_cases cwd p d₁ with ⟨hkept, hnot⟩ | ⟨hmissing, loc, hloc, hfree, hmade⟩
  · rw [hkept]
    constructor
    · intro hsame
      have hwritten := hsame₁.symm.trans hsame
      exact ⟨hnot, (written_same_iff iterate hash_password cwd cli hcwd₁).mp hwritten⟩
    · intro hspared
      exact hsame₁.trans
        ((written_same_iff iterate hash_password cwd cli hcwd₁).mpr hspared.same_content)
  · constructor
    · intro hsame
      -- the new file is still there after the write, and the old disk had none
      have hcwd₂ : (made cwd p d₁).fs.Real cwd := by
        obtain ⟨x, hx, hlink⟩ := hcwd₁
        refine ⟨x, ?_, hlink⟩
        rw [hmade, if_neg (fun heq => ?_), hx]
        rw [heq, hfree] at hx
        cases hx
      have hfile : (made cwd p d₁).fs.node loc = some (.file []) := by rw [hmade, if_pos rfl]
      obtain ⟨c, hc⟩ := written_file iterate hash_password cwd cli (p := p) hcwd₂ ⟨[], hfile⟩
      have hold := (hsame₁ loc c).mpr ((hsame loc c).mp hc)
      rw [hfree] at hold
      cases hold
    · intro hspared
      rw [hspared.not_made hmissing] at hloc
      cases hloc

end Kept

/-! ## A read-only file that is made, and one that is overwritten -/

/-- `--shadow-file /s:ro --shadow-write --user b:p`. -/
def ro_cli : Cli where
  users := ["b:p".toList]
  shadow_file := some "/s:ro".toList
  shadow_write := true
  auth_cache_ttl := 60
  accept_tailscale_serve_auth := none
  tailscale_users_file := none

/-- A disk on which this process may do everything. -/
def open_disk (fs : Fs) : Disk where
  fs := fs
  readonly _ := false
  may_reach _ _ := true
  may_read _ := true
  may_write _ := true
  may_add _ := true

/-- The disk with the file `/s`, which names the user `a`. -/
def with_shadow : Disk := (open_disk Fs.empty).set [s_name] (.file (Text.utf8_encode "a:$x\n".toList))

/-- The order of the map, and a hash. -/
def in_order (users : Users) : List (List Char × Credential) :=
  users.entries.map fun e => (e.1, e.2)
def some_hash (_ _ : List Char) : Option (List Char) := some "$h".toList

theorem shadow_kept_root :
    SameFiles with_shadow.fs (build_auth_state in_order some_hash [] ro_cli with_shadow).2.fs ↔
      Spared in_order some_hash [] ro_cli (PathBuf.of_text "/s".toList)
        (make_parents [] (PathBuf.of_text "/s".toList) with_shadow) :=
  shadow_kept_iff in_order some_hash [] ro_cli with_shadow real_root rfl

/-- The file is overwritten where it is there, and made where it is not. -/
theorem ro_file_lost :
    ¬ SameFiles with_shadow.fs (build_auth_state in_order some_hash [] ro_cli with_shadow).2.fs ∧
      ¬ SameFiles Fs.empty
        (build_auth_state in_order some_hash [] { ro_cli with shadow_write := false }
          (open_disk Fs.empty)).2.fs := by
  constructor
  · intro hsame
    have hold : with_shadow.fs.node [s_name]
        = some (.file (Text.utf8_encode "a:$x\n".toList)) := by decide +kernel
    have hnew : (build_auth_state in_order some_hash [] ro_cli with_shadow).2.fs.node [s_name]
        ≠ some (.file (Text.utf8_encode "a:$x\n".toList)) := by decide +kernel
    exact hnew ((hsame _ _).mpr hold)
  · intro hsame
    have hnew : (build_auth_state in_order some_hash [] { ro_cli with shadow_write := false }
        (open_disk Fs.empty)).2.fs.node [s_name] = some (.file []) := by decide +kernel
    have hold := (hsame _ _).mp hnew
    cases hold

end Rshs.ShadowFile
