/-
The system calls of a file server, as functions of an `Os` and a `Machine`.

Each call takes one number of the machine's counter; the `Os` says for every number
whether the call fails by itself. The calls that only look a path up (`metadata`,
`canonicalize`) take no number and do not fail by themselves.

For each call there is one lemma with all it can do, `_cases`: it fails and leaves
the file system alone, or it acts at one real location.
-/
import Rshs.Posix

set_option autoImplicit false

namespace Posix

open StdPath

/-! ## The machine -/

/-- What a program cannot foresee, by the number of the call. -/
structure Os where
  fault : ℕ → Bool
  order : ℕ → List Name → List Name
  order_perm : ∀ k names, List.Perm (order k names) names
  cut : ℕ → ℕ
  chosen : ℕ → Path → Bool

/-- Nothing fails, and directories are read in their own order. -/
def Os.calm : Os where
  fault _ := false
  order _ names := names
  order_perm _ _ := List.Perm.refl _
  cut _ := 0
  chosen _ _ := false

@[simp] theorem calm_fault (n : ℕ) : Os.calm.fault n = false := rfl

/-- What a call did to a file: read its bytes, or changed what stands there. -/
inductive Access
  | read (loc : Path)
  | change (loc : Path)
deriving DecidableEq

/-- The disk, the number of calls made so far, and the accesses in order. -/
structure Machine where
  fs : Fs
  calls : ℕ
  log : List Access

abbrev IoResult (α : Type) := Except ErrorKind α

/-- One more call has been made. -/
def Machine.tick (m : Machine) : Machine := { m with calls := m.calls + 1 }

/-- The file has been opened for reading. -/
def Machine.read (m : Machine) (loc : Path) : Machine := { m with log := m.log ++ [.read loc] }

/-- A node has been written. -/
def Machine.set (m : Machine) (loc : Path) (x : Node) : Machine :=
  { m with fs := m.fs.set loc x, log := m.log ++ [.change loc] }

/-- A node and all below it have been removed. -/
def Machine.prune (m : Machine) (loc : Path) : Machine :=
  { m with fs := m.fs.prune loc, log := m.log ++ [.change loc] }

@[simp] theorem tick_fs (m : Machine) : m.tick.fs = m.fs := rfl
@[simp] theorem tick_log (m : Machine) : m.tick.log = m.log := rfl
@[simp] theorem read_fs (m : Machine) (loc : Path) : (m.read loc).fs = m.fs := rfl
@[simp] theorem read_log (m : Machine) (loc : Path) :
    (m.read loc).log = m.log ++ [.read loc] := rfl
@[simp] theorem set_fs (m : Machine) (loc : Path) (x : Node) :
    (m.set loc x).fs = m.fs.set loc x := rfl
@[simp] theorem set_log (m : Machine) (loc : Path) (x : Node) :
    (m.set loc x).log = m.log ++ [.change loc] := rfl
@[simp] theorem prune_fs (m : Machine) (loc : Path) : (m.prune loc).fs = m.fs.prune loc := rfl
@[simp] theorem prune_log (m : Machine) (loc : Path) :
    (m.prune loc).log = m.log ++ [.change loc] := rfl

/-! ## Calls -/

section Calls

variable (os : Os)

/-- A call that fails by itself or goes on. -/
def syscall {α : Type} (m : Machine) (go : Machine → IoResult α × Machine) :
    IoResult α × Machine :=
  if os.fault m.calls then (.error .Other, m.tick) else go m.tick

/-- `open` for reading, of a regular file. -/
def open_file (p : Path) (m : Machine) : IoResult Path × Machine :=
  syscall os m fun m =>
    match follow m.fs p with
    | .error e => (.error e, m)
    | .ok loc =>
      match m.fs.node loc with
      | some (.file _) => (.ok loc, m.read loc)
      | _ => (.error .InvalidInput, m)

/-- `open` with `O_CREAT` and `O_TRUNC`. -/
def create (p : Path) (m : Machine) : IoResult Path × Machine :=
  syscall os m fun m =>
    match locate m.fs p with
    | .error e => (.error e, m)
    | .ok loc =>
      if m.fs.node loc = some .dir then (.error .IsADirectory, m)
      else (.ok loc, m.set loc (.file []))

/-- Writing an open file from its start; a failing transfer has written a part. -/
def write (loc : Path) (bytes : List UInt8) (m : Machine) : IoResult Unit × Machine :=
  if os.fault m.calls then
    (.error .Other, m.tick.set loc (.file (bytes.take (os.cut m.calls))))
  else (.ok (), m.tick.set loc (.file bytes))

/-- The bytes read from an open file. -/
def Fs.content (fs : Fs) (loc : Path) : List UInt8 :=
  match fs.node loc with
  | some (.file c) => c
  | _ => []

/-- `std::fs::copy`: open the source, create or truncate the destination, transfer. -/
def copy (src dst : Path) (m : Machine) : IoResult Unit × Machine :=
  match open_file os src m with
  | (.error e, m) => (.error e, m)
  | (.ok s, m) =>
    match create os dst m with
    | (.error e, m) => (.error e, m)
    | (.ok loc, m) => write os loc (m.fs.content s) m

/-- `mkdir`, and `open` with `O_EXCL`, by what they make. -/
def make (x : Node) (p : Path) (m : Machine) : IoResult Unit × Machine :=
  syscall os m fun m =>
    match locate_entry m.fs p with
    | .error e => (.error e, m)
    | .ok loc =>
      match m.fs.node loc with
      | some _ => (.error .AlreadyExists, m)
      | none => (.ok (), m.set loc x)

/-- `tokio::fs::create_dir`: a directory, where nothing stands yet. -/
def create_dir (p : Path) (m : Machine) : IoResult Unit × Machine := make os .dir p m

/-- `tokio::fs::File::create_new`: a file, where nothing stands yet. -/
def create_new (p : Path) (m : Machine) : IoResult Unit × Machine := make os (.file []) p m

/-- `unlink`. -/
def remove_file (p : Path) (m : Machine) : IoResult Unit × Machine :=
  syscall os m fun m =>
    match locate_entry m.fs p with
    | .error e => (.error e, m)
    | .ok loc =>
      match m.fs.node loc with
      | none => (.error .NotFound, m)
      | some .dir => (.error .IsADirectory, m)
      | some _ => (.ok (), m.prune loc)

/-- The machine after a recursive removal that failed on the way: some of the
entries below `loc` are gone, `loc` itself is still there. -/
def Machine.sweep (m : Machine) (loc : Path) (chosen : Path → Bool) : Machine :=
  { m with
    fs := m.fs.without (fun a => loc.isPrefixOf a && a ≠ loc && chosen a)
    log := m.log ++ [.change loc] }

/-- `remove_dir_all`: a link is removed, not followed. -/
def remove_dir_all (p : Path) (m : Machine) : IoResult Unit × Machine :=
  match locate_entry m.fs p with
  | .error e => (.error e, m.tick)
  | .ok loc =>
    match m.fs.node loc with
    | none => (.error .NotFound, m.tick)
    | some (.file _) => (.error .NotADirectory, m.tick)
    | some (.symlink _) =>
      if os.fault m.calls then (.error .Other, m.tick) else (.ok (), m.tick.prune loc)
    | some .dir =>
      if os.fault m.calls then (.error .Other, m.tick.sweep loc (os.chosen m.calls))
      else (.ok (), m.tick.prune loc)

/-- The machine after a move. -/
def Machine.move (m : Machine) (src dst : Path) : Machine :=
  { m with
    fs := if h : m.fs.Movable src dst then m.fs.graft src dst h else m.fs
    log := m.log ++ [.change src, .change dst] }

/-- `rename`. -/
def rename (from_path to_path : Path) (m : Machine) : IoResult Unit × Machine :=
  syscall os m fun m =>
    match locate_entry m.fs from_path, locate_entry m.fs to_path with
    | .error e, _ => (.error e, m)
    | _, .error e => (.error e, m)
    | .ok src, .ok dst =>
      match m.fs.node src, m.fs.node dst with
      | none, _ => (.error .NotFound, m)
      | some x, y =>
        if src = dst then (.ok (), m)
        else if src <+: dst then (.error .InvalidInput, m)
        else if x = .dir ∧ y ≠ none ∧ y ≠ some .dir then (.error .NotADirectory, m)
        else if x ≠ .dir ∧ y = some .dir then (.error .IsADirectory, m)
        else if y = some .dir ∧ m.fs.children dst ≠ [] then (.error .DirectoryNotEmpty, m)
        else (.ok (), m.move src dst)

/-- `opendir` and reading the directory: its entries with their types. -/
def read_dir (p : Path) (m : Machine) : IoResult (List (Name × FileType)) × Machine :=
  syscall os m fun m =>
    match follow m.fs p with
    | .error e => (.error e, m)
    | .ok d =>
      if m.fs.node d ≠ some .dir then (.error .NotADirectory, m)
      else
        (.ok ((os.order m.calls (m.fs.children d)).filterMap fun n =>
          (m.fs.node (d ++ [n])).map fun x => (n, x.file_type)), m)

/-- Advancing in a directory, or asking an entry for its type. -/
def next_entry (m : Machine) : IoResult Unit × Machine := syscall os m fun m => (.ok (), m)

end Calls

/-! ## All a call can do -/

section Cases

variable {os : Os} {m : Machine} {p : Path}

/-- `File::open` fails, or opens the file that the path leads to. -/
theorem open_file_cases (os : Os) (p : Path) (m : Machine) :
    (∃ e, open_file os p m = (.error e, m.tick)) ∨
      ∃ loc c, follow m.fs p = .ok loc ∧ m.fs.node loc = some (.file c) ∧
        open_file os p m = (.ok loc, m.tick.read loc) := by
  unfold open_file syscall
  split
  · exact Or.inl ⟨_, rfl⟩
  · dsimp only
    rw [tick_fs]
    cases hf : follow m.fs p with
    | error e => exact Or.inl ⟨e, rfl⟩
    | ok loc =>
      dsimp only
      cases hn : m.fs.node loc with
      | none => exact Or.inl ⟨_, rfl⟩
      | some x =>
        cases x with
        | file c => exact Or.inr ⟨loc, c, rfl, hn, rfl⟩
        | dir => exact Or.inl ⟨_, rfl⟩
        | symlink t => exact Or.inl ⟨_, rfl⟩

/-- `File::create` fails, or leaves an empty file where the path leads. -/
theorem create_cases (os : Os) (p : Path) (m : Machine) :
    (∃ e, create os p m = (.error e, m.tick)) ∨
      ∃ loc, locate m.fs p = .ok loc ∧ m.fs.Slot loc ∧
        create os p m = (.ok loc, m.tick.set loc (.file [])) := by
  unfold create syscall
  split
  · exact Or.inl ⟨_, rfl⟩
  · dsimp only
    rw [tick_fs]
    cases hl : locate m.fs p with
    | error e => exact Or.inl ⟨e, rfl⟩
    | ok loc =>
      dsimp only
      split
      · exact Or.inl ⟨_, rfl⟩
      · rename_i hdir
        exact Or.inr ⟨loc, rfl, slot_of_locate hl hdir, rfl⟩

/-- A write fails with a beginning of the bytes written, or writes them all. -/
theorem write_cases (os : Os) (loc : Path) (bytes : List UInt8) (m : Machine) :
    (∃ k, write os loc bytes m = (.error .Other, m.tick.set loc (.file (bytes.take k)))) ∨
      write os loc bytes m = (.ok (), m.tick.set loc (.file bytes)) := by
  unfold write
  split
  · exact Or.inl ⟨_, rfl⟩
  · exact Or.inr rfl

/-- A copy that got as far as opening its destination has truncated it, and has
written something there: the content it found in the source, or a part of it. -/
theorem copy_cases (os : Os) (src dst : Path) (m : Machine) :
    (∃ e m', copy os src dst m = (.error e, m') ∧ m'.fs = m.fs ∧
        (m'.log = m.log ∨ ∃ s c, follow m.fs src = .ok s ∧ m.fs.node s = some (.file c) ∧
          m'.log = m.log ++ [.read s])) ∨
      ∃ s c loc, follow m.fs src = .ok s ∧ m.fs.node s = some (.file c) ∧
        locate m.fs dst = .ok loc ∧ m.fs.Slot loc ∧
        ∃ r m' bytes, copy os src dst m = (r, m') ∧
          m'.fs = (m.fs.set loc (.file [])).set loc (.file bytes) ∧
          m'.log = m.log ++ [.read s, .change loc, .change loc] ∧
          (bytes <+: (m.fs.set loc (.file [])).content s ∧
            (r = .ok () → bytes = (m.fs.set loc (.file [])).content s)) := by
  unfold copy
  rcases open_file_cases os src m with ⟨e, ho⟩ | ⟨s, c, hs, hc, ho⟩
  · rw [ho]
    exact Or.inl ⟨e, _, rfl, rfl, Or.inl rfl⟩
  · rw [ho]
    dsimp only
    -- the source is open; now the destination is truncated, or cannot be opened
    rcases create_cases os dst (m.tick.read s) with ⟨e, hcr⟩ | ⟨loc, hl, hslot, hcr⟩
    · rw [hcr]
      exact Or.inl ⟨e, _, rfl, rfl, Or.inr ⟨s, c, hs, hc, rfl⟩⟩
    · rw [hcr]
      dsimp only
      refine Or.inr ⟨s, c, loc, hs, hc, hl, hslot, ?_⟩
      rcases write_cases os loc (((m.tick.read s).tick.set loc (.file [])).fs.content s)
          ((m.tick.read s).tick.set loc (.file [])) with ⟨k, hw⟩ | hw
      · rw [hw]
        exact ⟨_, _, _, rfl, rfl, by simp, List.take_prefix _ _, fun h => by cases h⟩
      · rw [hw]
        exact ⟨_, _, _, rfl, rfl, by simp, List.prefix_rfl, fun _ => rfl⟩

/-- Making a node fails, or puts it where nothing stands. -/
theorem make_cases (os : Os) (x : Node) (p : Path) (m : Machine) :
    (∃ e, make os x p m = (.error e, m.tick)) ∨
      ∃ loc, locate_entry m.fs p = .ok loc ∧ m.fs.node loc = none ∧ m.fs.Slot loc ∧
        make os x p m = (.ok (), m.tick.set loc x) := by
  unfold make syscall
  split
  · exact Or.inl ⟨_, rfl⟩
  · dsimp only
    rw [tick_fs]
    cases hl : locate_entry m.fs p with
    | error e => exact Or.inl ⟨e, rfl⟩
    | ok loc =>
      dsimp only
      cases hn : m.fs.node loc with
      | some y => exact Or.inl ⟨_, rfl⟩
      | none =>
        exact Or.inr ⟨loc, rfl, hn, slot_of_locate_entry hl (by rw [hn]; simp), rfl⟩

/-- `EEXIST` is reported only where something stands. -/
theorem make_exists {x : Node} {m' : Machine} (h : make os x p m = (.error .AlreadyExists, m')) :
    m' = m.tick ∧ ∃ loc y, locate_entry m.fs p = .ok loc ∧ m.fs.node loc = some y := by
  unfold make syscall at h
  split at h
  · cases h
  · dsimp only at h
    rw [tick_fs] at h
    split at h
    · rename_i hl
      cases h
      exact absurd hl locate_entry_error
    · rename_i loc hl
      split at h
      · rename_i y hy
        cases h
        exact ⟨rfl, loc, y, hl, hy⟩
      · cases h

/-- `remove_file` fails, or removes what is no directory. -/
theorem remove_file_cases (os : Os) (p : Path) (m : Machine) :
    (∃ e, remove_file os p m = (.error e, m.tick)) ∨
      ∃ loc, locate_entry m.fs p = .ok loc ∧ m.fs.node loc ≠ none ∧ m.fs.node loc ≠ some .dir ∧
        remove_file os p m = (.ok (), m.tick.prune loc) := by
  unfold remove_file syscall
  split
  · exact Or.inl ⟨_, rfl⟩
  · dsimp only
    rw [tick_fs]
    cases hl : locate_entry m.fs p with
    | error e => exact Or.inl ⟨e, rfl⟩
    | ok loc =>
      dsimp only
      cases hn : m.fs.node loc with
      | none => exact Or.inl ⟨_, rfl⟩
      | some x =>
        cases x with
        | dir => exact Or.inl ⟨_, rfl⟩
        | file c => exact Or.inr ⟨loc, rfl, by rw [hn]; simp, by rw [hn]; simp, rfl⟩
        | symlink t => exact Or.inr ⟨loc, rfl, by rw [hn]; simp, by rw [hn]; simp, rfl⟩

theorem remove_dir_all_cases (os : Os) (p : Path) (m : Machine) :
    (∃ e, remove_dir_all os p m = (.error e, m.tick)) ∨
      ∃ loc, locate_entry m.fs p = .ok loc ∧
        ((∃ chosen, m.fs.node loc = some .dir ∧
            remove_dir_all os p m = (.error .Other, m.tick.sweep loc chosen)) ∨
          ((∀ c, m.fs.node loc ≠ some (.file c)) ∧ m.fs.node loc ≠ none ∧
            remove_dir_all os p m = (.ok (), m.tick.prune loc))) := by
  unfold remove_dir_all
  cases hl : locate_entry m.fs p with
  | error e => exact Or.inl ⟨e, rfl⟩
  | ok loc =>
    dsimp only
    cases hn : m.fs.node loc with
    | none => exact Or.inl ⟨_, rfl⟩
    | some x =>
      -- a link is removed as one, and a file is no directory
      cases x with
      | file c => exact Or.inl ⟨_, rfl⟩
      | symlink t =>
        dsimp only
        split
        · exact Or.inl ⟨_, rfl⟩
        · exact Or.inr ⟨loc, rfl, Or.inr ⟨by rw [hn]; simp, by rw [hn]; simp, rfl⟩⟩
      | dir =>
        dsimp only
        split
        · exact Or.inr ⟨loc, rfl, Or.inl ⟨_, hn, rfl⟩⟩
        · exact Or.inr ⟨loc, rfl, Or.inr ⟨by rw [hn]; simp, by rw [hn]; simp, rfl⟩⟩

/-- Below what is no directory, or an empty one, nothing stands. -/
theorem nothing_below {fs : Fs} {p : Path}
    (h : ¬ (fs.node p = some .dir ∧ fs.children p ≠ [])) :
    ∀ q, p <+: q → q ≠ p → fs.node q = none := by
  intro q hpre hne
  by_contra hq
  have hdir := fs.dir_above hq hpre (fun heq => hne heq.symm)
  apply h
  refine ⟨hdir, ?_⟩
  obtain ⟨r, rfl⟩ := hpre
  cases r with
  | nil =>
    rw [List.append_nil] at hne
    exact absurd rfl hne
  | cons n r =>
    -- the first name below is an entry
    have hentry : fs.node (p ++ [n]) ≠ none := by
      intro hnone
      exact hq (none_below hnone ⟨r, by simp⟩)
    exact List.ne_nil_of_mem (Fs.mem_children.mpr hentry)

/-- `rename` does nothing, or moves the whole tree onto nothing or onto what has nothing below
it. -/
theorem rename_cases (os : Os) (from_path to_path : Path) (m : Machine) :
    (∃ r, rename os from_path to_path m = (r, m.tick)) ∨
      ∃ src dst, locate_entry m.fs from_path = .ok src ∧ locate_entry m.fs to_path = .ok dst ∧
        m.fs.Movable src dst ∧ m.fs.node src ≠ none ∧
        (∀ q, dst <+: q → q ≠ dst → m.fs.node q = none) ∧
        rename os from_path to_path m = (.ok (), m.tick.move src dst) := by
  unfold rename syscall
  split
  · exact Or.inl ⟨_, rfl⟩
  · dsimp only
    rw [tick_fs]
    cases hs : locate_entry m.fs from_path with
    | error e => exact Or.inl ⟨_, rfl⟩
    | ok src =>
      cases hd : locate_entry m.fs to_path with
      | error e => exact Or.inl ⟨_, rfl⟩
      | ok dst =>
        dsimp only
        -- the guards of the call, in its order
        cases hx : m.fs.node src with
        | none => exact Or.inl ⟨_, rfl⟩
        | some x =>
          dsimp only
          split
          · exact Or.inl ⟨_, rfl⟩
          · split
            · exact Or.inl ⟨_, rfl⟩
            · rename_i hpre
              split
              · exact Or.inl ⟨_, rfl⟩
              · split
                · exact Or.inl ⟨_, rfl⟩
                · split
                  · exact Or.inl ⟨_, rfl⟩
                  · rename_i hempty
                    refine Or.inr ⟨src, dst, rfl, rfl, ?_, by rw [hx]; simp, ?_, rfl⟩
                    · exact ⟨entry_ne_nil hs, entry_ne_nil hd, hpre, entry_parent hd⟩
                    · exact nothing_below hempty

/-- A rename puts a directory on a directory, and anything else on no directory. -/
theorem rename_kinds {os : Os} {from_path to_path src dst : Path} {m m' : Machine}
    (hs : locate_entry m.fs from_path = .ok src) (hd : locate_entry m.fs to_path = .ok dst)
    (hne : src ≠ dst) (h : rename os from_path to_path m = (.ok (), m')) :
    (m.fs.node src = some .dir → m.fs.node dst = none ∨ m.fs.node dst = some .dir) ∧
      (m.fs.node dst = some .dir → m.fs.node src = some .dir) := by
  unfold rename syscall at h
  split at h
  · cases h
  · dsimp only at h
    rw [tick_fs, hs, hd] at h
    dsimp only at h
    cases hx : m.fs.node src with
    | none =>
      rw [hx] at h
      cases h
    | some x =>
      rw [hx] at h
      dsimp only at h
      rw [if_neg hne] at h
      split at h
      · cases h
      · split at h
        · cases h
        · rename_i hdir
          split at h
          · cases h
          · rename_i hfile
            constructor
            · intro hxd
              by_contra hy
              rw [not_or] at hy
              exact hdir ⟨Option.some.inj hxd, hy⟩
            · intro hyd
              by_contra hxd
              exact hfile ⟨fun heq => hxd (by rw [heq]), hyd⟩

/-- `read_dir` fails, or lists exactly the entries of the directory. -/
theorem read_dir_cases (os : Os) (p : Path) (m : Machine) :
    (∃ e, read_dir os p m = (.error e, m.tick)) ∨
      ∃ d entries, follow m.fs p = .ok d ∧ m.fs.node d = some .dir ∧
        (∀ n t, (n, t) ∈ entries ↔ ∃ x, m.fs.node (d ++ [n]) = some x ∧ x.file_type = t) ∧
        read_dir os p m = (.ok entries, m.tick) := by
  unfold read_dir syscall
  split
  · exact Or.inl ⟨_, rfl⟩
  · dsimp only
    rw [tick_fs]
    cases hf : follow m.fs p with
    | error e => exact Or.inl ⟨e, rfl⟩
    | ok d =>
      dsimp only
      split
      · exact Or.inl ⟨_, rfl⟩
      · rename_i hdir
        refine Or.inr ⟨d, _, rfl, by simpa using hdir, fun n t => ?_, rfl⟩
        rw [List.mem_filterMap]
        constructor
        · rintro ⟨n', -, hn'⟩
          obtain ⟨x, hx, heq⟩ := Option.map_eq_some_iff.mp hn'
          cases heq
          exact ⟨x, hx, rfl⟩
        · rintro ⟨x, hx, ht⟩
          refine ⟨n, (os.order_perm _ _).mem_iff.mpr (Fs.mem_children.mpr (by rw [hx]; simp)), ?_⟩
          rw [hx, Option.map_some, ht]

/-- A directory is read entry by entry, each one once. -/
theorem read_dir_names {entries : List (Name × FileType)} {m' : Machine}
    (h : read_dir os p m = (.ok entries, m')) :
    ∃ d, follow m.fs p = .ok d ∧ (entries.map Prod.fst).Perm (m.fs.children d) := by
  unfold read_dir syscall at h
  split at h
  · cases h
  · dsimp only at h
    rw [tick_fs] at h
    split at h
    · cases h
    · rename_i d hd
      split at h
      · cases h
      · cases h
        refine ⟨d, hd, ?_⟩
        -- every name read is one of an entry, so none is filtered out
        have hall : ∀ names : List Name, (∀ n ∈ names, m.fs.node (d ++ [n]) ≠ none) →
            (names.filterMap fun n => (m.fs.node (d ++ [n])).map fun x => (n, x.file_type)).map
              Prod.fst = names := by
          intro names hnames
          induction names with
          | nil => rfl
          | cons n names ih =>
            obtain ⟨x, hx⟩ := Option.ne_none_iff_exists'.mp (hnames n List.mem_cons_self)
            rw [List.filterMap_cons_some (b := (n, x.file_type)) (by rw [hx]; rfl), List.map_cons,
              ih (fun n' hn' => hnames n' (List.mem_cons_of_mem _ hn'))]
        have hperm := os.order_perm m.tick.calls (m.fs.children d)
        rw [hall _ (fun n hn => Fs.mem_children.mp (hperm.mem_iff.mp hn))]
        exact hperm

/-- What is read at the place of a directory itself. -/
theorem read_dir_real {entries : List (Name × FileType)} {m' : Machine}
    (hdir : m.fs.node p = some .dir) (h : read_dir os p m = (.ok entries, m')) :
    m' = m.tick ∧
      (∀ n t, (n, t) ∈ entries ↔ ∃ x, m.fs.node (p ++ [n]) = some x ∧ x.file_type = t) ∧
      (entries.map Prod.fst).Perm (m.fs.children p) := by
  have hself : follow m.fs p = .ok p := follow_self ⟨_, hdir, by simp⟩
  obtain ⟨d, hd, hperm⟩ := read_dir_names h
  rcases read_dir_cases os p m with ⟨e, he⟩ | ⟨d', entries', hd', -, hmem, he⟩
  · rw [h] at he
    cases he
  · rw [h] at he
    cases he
    rw [hself] at hd hd'
    cases hd
    cases hd'
    exact ⟨rfl, hmem, hperm⟩

theorem next_entry_cases (os : Os) (m : Machine) :
    ∃ r, next_entry os m = (r, m.tick) := by
  unfold next_entry syscall
  split
  · exact ⟨_, rfl⟩
  · exact ⟨_, rfl⟩

end Cases

/-! ## What a call does that does not fail by itself -/

section Succeeds

variable {os : Os} {m : Machine} {p loc : Path}

/-- A call that does not fail does its work. -/
theorem syscall_ok {α : Type} {go : Machine → IoResult α × Machine} (hf : os.fault m.calls = false) :
    syscall os m go = go m.tick := by
  unfold syscall
  rw [hf, if_neg Bool.false_ne_true]

/-- A call that fails does nothing but count. -/
theorem syscall_fault {α : Type} {go : Machine → IoResult α × Machine}
    (hf : os.fault m.calls = true) : syscall os m go = (.error .Other, m.tick) := by
  unfold syscall
  rw [if_pos hf]

theorem open_file_ok {c : List UInt8} (hf : os.fault m.calls = false) (hl : follow m.fs p = .ok loc)
    (hn : m.fs.node loc = some (.file c)) : open_file os p m = (.ok loc, m.tick.read loc) := by
  unfold open_file
  rw [syscall_ok hf]
  rw [tick_fs, hl]
  dsimp only
  rw [hn]

theorem create_ok (hf : os.fault m.calls = false) (hl : locate m.fs p = .ok loc)
    (hdir : m.fs.node loc ≠ some .dir) :
    create os p m = (.ok loc, m.tick.set loc (.file [])) := by
  unfold create
  rw [syscall_ok hf]
  rw [tick_fs, hl]
  dsimp only
  rw [if_neg hdir]

theorem write_ok {bytes : List UInt8} (hf : os.fault m.calls = false) :
    write os loc bytes m = (.ok (), m.tick.set loc (.file bytes)) := by
  unfold write
  rw [hf, if_neg Bool.false_ne_true]

theorem write_fault {bytes : List UInt8} (hf : os.fault m.calls = true) :
    write os loc bytes m = (.error .Other, m.tick.set loc (.file (bytes.take (os.cut m.calls)))) := by
  unfold write
  rw [if_pos hf]

theorem make_ok {x : Node} (hf : os.fault m.calls = false) (hl : locate_entry m.fs p = .ok loc)
    (hnone : m.fs.node loc = none) : make os x p m = (.ok (), m.tick.set loc x) := by
  unfold make
  rw [syscall_ok hf]
  rw [tick_fs, hl]
  dsimp only
  rw [hnone]

theorem remove_file_ok {x : Node} (hf : os.fault m.calls = false)
    (hl : locate_entry m.fs p = .ok loc) (hn : m.fs.node loc = some x) (hx : x ≠ .dir) :
    remove_file os p m = (.ok (), m.tick.prune loc) := by
  unfold remove_file
  rw [syscall_ok hf]
  rw [tick_fs, hl]
  dsimp only
  rw [hn]
  cases x with
  | dir => exact absurd rfl hx
  | file c => rfl
  | symlink t => rfl

theorem remove_dir_all_ok {x : Node} (hf : os.fault m.calls = false)
    (hl : locate_entry m.fs p = .ok loc) (hn : m.fs.node loc = some x)
    (hx : ∀ c, x ≠ .file c) : remove_dir_all os p m = (.ok (), m.tick.prune loc) := by
  unfold remove_dir_all
  rw [hl]
  dsimp only
  rw [hn]
  cases x with
  | dir =>
    dsimp only
    rw [hf, if_neg Bool.false_ne_true]
  | file c => exact absurd rfl (hx c)
  | symlink t =>
    dsimp only
    rw [hf, if_neg Bool.false_ne_true]

/-- A file, or a link, is renamed onto anything but a directory. -/
theorem rename_ok {src dst src_loc dst_loc : Path} {x : Node} (hf : os.fault m.calls = false)
    (hs : locate_entry m.fs src = .ok src_loc) (hd : locate_entry m.fs dst = .ok dst_loc)
    (hx : m.fs.node src_loc = some x) (hxd : x ≠ .dir) (hne : src_loc ≠ dst_loc)
    (hpre : ¬ src_loc <+: dst_loc) (hdir : m.fs.node dst_loc ≠ some .dir) :
    rename os src dst m = (.ok (), m.tick.move src_loc dst_loc) := by
  unfold rename
  rw [syscall_ok hf]
  rw [tick_fs, hs, hd]
  dsimp only
  rw [hx]
  dsimp only
  rw [if_neg hne, if_neg hpre, if_neg (fun h => hxd h.1), if_neg (fun h => hdir h.2),
    if_neg (fun h => hdir h.1)]

/-- A copy none of whose three calls fails by itself. -/
theorem copy_ok {src dst s : Path} {c : List UInt8} (hf₀ : os.fault m.calls = false)
    (hf₁ : os.fault (m.calls + 1) = false) (hf₂ : os.fault (m.calls + 2) = false)
    (hs : follow m.fs src = .ok s) (hn : m.fs.node s = some (.file c))
    (hl : locate m.fs dst = .ok loc) (hdir : m.fs.node loc ≠ some .dir) :
    copy os src dst m =
      (.ok (), ((m.tick.read s).tick.set loc (.file [])).tick.set loc
        (.file ((m.fs.set loc (.file [])).content s))) := by
  unfold copy
  rw [open_file_ok hf₀ hs hn]
  dsimp only
  rw [create_ok (m := m.tick.read s) hf₁ hl hdir]
  dsimp only
  rw [write_ok (m := (m.tick.read s).tick.set loc (.file [])) hf₂]
  rfl

end Succeeds

end Posix
