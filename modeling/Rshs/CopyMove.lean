/-
`handlers/webdav.rs`: COPY and MOVE.

`do_move_or_copy` resolves the source by `resolve_existing` and the destination by
`resolve_and_guard`, removes a destination of the wrong type, copies, and for a MOVE
renames (or removes the source when the rename fails). `copy_dir` is a worklist: a
directory popped from the stack is read, its files are copied and its
sub-directories created and pushed.

The worklist need not become empty (a directory copied into itself grows while it
is copied), so the loop runs on fuel and a run that has used it up has no reply.
-/
import Rshs.App

set_option autoImplicit false

namespace Rshs.CopyMove

open StdPath Posix FinMap Rshs.Webdav Rshs.Resolve Rshs.App

/-- The destination directories still to be filled, with their sources. -/
abbrev Stack := List (Path × Path)

section Copy

variable (os : Os)

/-- The inner loop of `copy_dir`: the entries of one directory. -/
def copy_entries (src_dir dest_dir : Path) :
    List (Name × FileType) → Stack → Machine → Except StatusCode Stack × Machine
  | [], stack, m =>
    match next_entry os m with
    | (.error _, m) => (.error .INTERNAL_SERVER_ERROR, m)
    | (.ok (), m) => (.ok stack, m)
  | (name, file_type) :: entries, stack, m =>
    match next_entry os m with
    | (.error _, m) => (.error .INTERNAL_SERVER_ERROR, m)
    | (.ok (), m) =>
      -- `entry.file_type()`
      match next_entry os m with
      | (.error _, m) => (.error .INTERNAL_SERVER_ERROR, m)
      | (.ok (), m) =>
        let path := src_dir ++ [name]
        let entry_dest := dest_dir ++ [name]
        match file_type with
        | .dir =>
          match create_dir os entry_dest m with
          | (.error e, m) =>
            if e ≠ .AlreadyExists then (.error .INTERNAL_SERVER_ERROR, m)
            else copy_entries src_dir dest_dir entries ((path, entry_dest) :: stack) m
          | (.ok (), m) => copy_entries src_dir dest_dir entries ((path, entry_dest) :: stack) m
        | .symlink => copy_entries src_dir dest_dir entries stack m
        | .file =>
          match copy os path entry_dest m with
          | (.error _, m) => (.error .INTERNAL_SERVER_ERROR, m)
          | (.ok (), m) => copy_entries src_dir dest_dir entries stack m

/-- The outer loop of `copy_dir`. -/
def copy_loop : ℕ → Stack → Machine → Option (Except StatusCode Unit) × Machine
  | _, [], m => (some (.ok ()), m)
  | 0, _ :: _, m => (none, m)
  | fuel + 1, (src_dir, dest_dir) :: stack, m =>
    match read_dir os src_dir m with
    | (.error _, m) => (some (.error .INTERNAL_SERVER_ERROR), m)
    | (.ok entries, m) =>
      match copy_entries os src_dir dest_dir entries stack m with
      | (.error status, m) => (some (.error status), m)
      | (.ok stack, m) => copy_loop fuel stack m

def copy_dir (fuel : ℕ) (src dest : Path) (dest_existed : Bool) (m : Machine) :
    Option (Except StatusCode Unit) × Machine :=
  if dest_existed then copy_loop os fuel [(src, dest)] m
  else
    match create_dir os dest m with
    | (.error _, m) => (some (.error .INTERNAL_SERVER_ERROR), m)
    | (.ok (), m) => copy_loop os fuel [(src, dest)] m

def copy_file (src dest : Path) (m : Machine) : Except StatusCode Unit × Machine :=
  match copy os src dest m with
  | (.error _, m) => (.error .INTERNAL_SERVER_ERROR, m)
  | (.ok (), m) => (.ok (), m)

/-! ## The phases of `do_move_or_copy` -/

/-- A destination of the wrong type is removed first; whether it was is not looked
at. Returns `dest_existed` and the machine. -/
def clear_dest (overwrite dest_existed : Bool) (src_type : FileType) (dest : Path) (m : Machine) :
    Bool × Machine :=
  if overwrite && dest_existed then
    match metadata m.fs dest with
    | .error _ => (dest_existed, m)
    | .ok dest_type =>
      if src_type ≠ .dir ∧ dest_type = .dir then (false, (remove_dir_all os dest m).2)
      else if src_type = .dir ∧ dest_type = .file then (false, (remove_file os dest m).2)
      else (dest_existed, m)
  else (dest_existed, m)

def copy_source (fuel : ℕ) (is_move : Bool) (depth : Depth) (src_type : FileType)
    (src dest : Path) (dest_existed : Bool) (m : Machine) :
    Option (Except StatusCode Unit) × Machine :=
  if src_type = .dir then
    if is_move = false ∧ depth = .Zero then
      if dest_existed then (some (.ok ()), m)
      else
        match create_dir os dest m with
        | (.error _, m) => (some (.error .INTERNAL_SERVER_ERROR), m)
        | (.ok (), m) => (some (.ok ()), m)
    else copy_dir os fuel src dest dest_existed m
  else
    match copy_file os src dest m with
    | (r, m) => (some r, m)

/-- The last phase of a MOVE; its outcome is not looked at. -/
def move_source (src_type : FileType) (src dest : Path) (m : Machine) : Machine :=
  match rename os src dest m with
  | (.ok (), m) => m
  | (.error _, m) =>
    if src_type = .dir then (remove_dir_all os src m).2 else (remove_file os src m).2

end Copy

/-- The dead properties of the source go to the destination too, or instead. -/
def migrate_props (is_move : Bool) (src dest : Path) (dead_props : DeadPropertyStore) :
    DeadPropertyStore :=
  match dead_props.lookup src with
  | none => dead_props
  | some props =>
    let dead_props := dead_props.erase src
    let dead_props := if is_move then dead_props else dead_props.insert src props
    dead_props.insert dest props

section Handlers

variable (os : Os) (cwd : Path) (fuel : ℕ) (req : Request)

/-- The handler from the resolved paths on. -/
def transfer (is_move : Bool) (fs_src dest : Path) (w : World) : Option AppResult × World :=
  let overwrite := parse_overwrite req.headers
  let depth := parse_depth req.headers
  let dest_existed_before := (metadata w.machine.fs dest).isOk
  if dest_existed_before && !overwrite then (some (.error .PRECONDITION_FAILED), w)
  else
    match metadata w.machine.fs fs_src with
    | .error _ => (some (.error .NOT_FOUND), w)
    | .ok src_type =>
      let w := w.aim (.guarded dest)
      let (dest_existed, m) := clear_dest os overwrite dest_existed_before src_type dest w.machine
      match copy_source os fuel is_move depth src_type fs_src dest dest_existed m with
      | (none, m) => (none, w.on m)
      | (some (.error status), m) => (some (.error status), w.on m)
      | (some (.ok ()), m) =>
        let w := if is_move then
            (w.aim (.existing fs_src)).on (move_source os src_type fs_src dest m)
          else w.on m
        (some (.ok (if dest_existed_before then .NO_CONTENT else .CREATED)),
          w.with_props (migrate_props is_move fs_src dest w.app.dead_props))

def do_move_or_copy (is_move : Bool) (w : World) : Option AppResult × World :=
  match parse_destination req.headers with
  | none => (some (.error .BAD_REQUEST), w)
  | some dest_str =>
    match w.resolve_existing cwd req.uri_path with
    | none => (some (.error .NOT_FOUND), w)
    | some fs_src =>
      match resolve_write_target w.app.root_dir dest_str with
      | none => (some (.error .FORBIDDEN), w)
      | some fs_dest =>
        if fs_src.comps = fs_dest.path.comps then (some (.error .FORBIDDEN), w)
        else
          match w.resolve_and_guard cwd dest_str with
          | (.error e, w) => (some (.error (e.status .BAD_REQUEST)), w)
          | (.ok dest, w) => transfer os fuel req is_move fs_src dest w

def handle_copy (w : World) : Option AppResult × World := do_move_or_copy os cwd fuel req false w

def handle_move (w : World) : Option AppResult × World := do_move_or_copy os cwd fuel req true w

end Handlers

/-! ## Replies -/

section Replies

variable {os : Os}

/-- A copy that fails fails with 500. -/
theorem copy_entries_error {src_dir dest_dir : Path} {entries : List (Name × FileType)}
    {stack : Stack} {m m' : Machine} {status : StatusCode}
    (h : copy_entries os src_dir dest_dir entries stack m = (.error status, m')) :
    status = .INTERNAL_SERVER_ERROR := by
  induction entries generalizing stack m with
  | nil =>
    unfold copy_entries at h
    split at h
    · cases h
      rfl
    · cases h
  | cons entry entries ih =>
    obtain ⟨name, file_type⟩ := entry
    unfold copy_entries at h
    split at h
    · cases h
      rfl
    · split at h
      · cases h
        rfl
      · dsimp only at h
        -- what is done depends on the type of the entry
        cases file_type with
        | dir =>
          dsimp only at h
          split at h
          · split at h
            · cases h
              rfl
            · exact ih h
          · exact ih h
        | symlink => exact ih h
        | file =>
          dsimp only at h
          split at h
          · cases h
            rfl
          · exact ih h

theorem copy_loop_error {fuel : ℕ} {stack : Stack} {m m' : Machine} {status : StatusCode}
    (h : copy_loop os fuel stack m = (some (.error status), m')) :
    status = .INTERNAL_SERVER_ERROR := by
  induction fuel generalizing stack m with
  | zero =>
    cases stack with
    | nil => cases h
    | cons pair stack => cases h
  | succ fuel ih =>
    cases stack with
    | nil => cases h
    | cons pair stack =>
      obtain ⟨src_dir, dest_dir⟩ := pair
      unfold copy_loop at h
      split at h
      · cases h
        rfl
      · split at h
        · rename_i hentries
          cases h
          exact copy_entries_error hentries
        · exact ih h

theorem copy_source_error {fuel : ℕ} {is_move : Bool} {depth : Depth} {src_type : FileType}
    {src dest : Path} {dest_existed : Bool} {m m' : Machine} {status : StatusCode}
    (h : copy_source os fuel is_move depth src_type src dest dest_existed m
      = (some (.error status), m')) : status = .INTERNAL_SERVER_ERROR := by
  unfold copy_source copy_dir copy_file at h
  -- every failure of a call is answered alike
  split at h
  · split at h
    · split at h
      · cases h
      · split at h
        · cases h
          rfl
        · cases h
    · split at h
      · exact copy_loop_error h
      · split at h
        · cases h
          rfl
        · exact copy_loop_error h
  · split at h
    rename_i hcopy
    cases h
    split at hcopy
    · cases hcopy
      rfl
    · cases hcopy

/-- The replies that are given once both paths are resolved. -/
theorem transfer_reply {fuel : ℕ} {req : Request} {is_move : Bool} {fs_src dest : Path}
    {w w' : World} {r : AppResult}
    (h : transfer os fuel req is_move fs_src dest w = (some r, w')) :
    r = .error .PRECONDITION_FAILED ∨ r = .error .NOT_FOUND ∨
      r = .error .INTERNAL_SERVER_ERROR ∨ r = .ok .NO_CONTENT ∨ r = .ok .CREATED := by
  unfold transfer at h
  dsimp only at h
  split at h
  · cases h
    exact Or.inl rfl
  · split at h
    · cases h
      exact Or.inr (Or.inl rfl)
    · split at h
      · cases h
      · rename_i hcopy
        cases h
        exact Or.inr (Or.inr (Or.inl (by rw [copy_source_error hcopy])))
      · cases h
        split
        · exact Or.inr (Or.inr (Or.inr (Or.inl rfl)))
        · exact Or.inr (Or.inr (Or.inr (Or.inr rfl)))

end Replies

/-! ## The guard against copying a path onto itself -/

/-- The root was spelled as a canonical path `R`, and `R` joined with the names of
the destination is the source's real path. -/
def Spelled (root_dir : PathBuf) (text : List Char) (src : Path) : Prop :=
  ∃ R : Path, root_dir.comps = R.comps ∧ src = R ++ names_of_text (request_text text)

theorem normal_injective : Function.Injective Component.normal := by
  intro a b h
  injection h

/-- The comparison of the guard, as a fact about the spelling of the root. -/
theorem comps_eq_iff {root_dir : PathBuf} {text : List Char} {src : Path}
    (h : Plain (request_text text)) :
    src.comps = (below root_dir (names_of_text (request_text text))).comps ↔
      Spelled root_dir text src := by
  obtain ⟨init, n, hnames⟩ := h.names
  unfold Spelled below Path.comps
  dsimp only
  generalize hns : names_of_text (request_text text) = ns at hnames ⊢
  constructor
  · intro heq
    -- the leading separator can only come from the root
    rcases hroot : root_dir.comps with _ | ⟨c, cs⟩
    · rw [hroot, hnames, List.nil_append] at heq
      cases init with
      | nil => simp at heq
      | cons m init => simp at heq
    · rw [hroot, List.cons_append, List.cons.injEq] at heq
      obtain ⟨rfl, htail⟩ := heq
      obtain ⟨R, ns', hsrc, hR, hns'⟩ := List.map_eq_append_iff.mp htail
      have hsame : ns' = ns := normal_injective.list_map hns'
      exact ⟨R, by rw [hR], by rw [hsrc, hsame]⟩
  · rintro ⟨R, hR, rfl⟩
    rw [hR, List.map_append, List.cons_append]

section Guard

variable {os : Os} {cwd : Path} {fuel : ℕ} {req : Request} {is_move : Bool} {w : World}
  {text : List Char} {src dest : Path}

/-- The guard hits exactly when the source is spelled by the destination. -/
theorem guard_hits (htext : parse_destination req.headers = some text)
    (hsrc : w.resolve_existing cwd req.uri_path = some src) (hplain : Plain (request_text text))
    (hspelled : Spelled w.app.root_dir text src) :
    do_move_or_copy os cwd fuel req is_move w = (some (.error .FORBIDDEN), w) := by
  unfold do_move_or_copy
  rw [htext]
  dsimp only
  rw [hsrc]
  dsimp only
  split
  · rfl
  · rename_i target htarget
    have hpath := (resolve_write_target_some_iff.mp htarget).2
    rw [if_pos (by rw [hpath]; exact (comps_eq_iff hplain).mpr hspelled)]

theorem guard_misses (htext : parse_destination req.headers = some text)
    (hsrc : w.resolve_existing cwd req.uri_path = some src)
    (hdest : (w.resolve_and_guard cwd text).1 = .ok dest)
    (hspelled : ¬ Spelled w.app.root_dir text src) :
    do_move_or_copy os cwd fuel req is_move w =
      transfer os fuel req is_move src dest (w.resolve_and_guard cwd text).2 := by
  have hplain := (resolve_and_guard_ok_iff.mp hdest).1
  unfold do_move_or_copy
  rw [htext]
  dsimp only
  rw [hsrc]
  dsimp only
  cases htarget : resolve_write_target w.app.root_dir text with
  | none =>
    -- the guard has resolved it, so the segment checks passed
    unfold World.resolve_and_guard Resolve.resolve_and_guard at hdest
    rw [htarget] at hdest
    cases hdest
  | some target =>
    have hpath := (resolve_write_target_some_iff.mp htarget).2
    dsimp only
    rw [if_neg (by rw [hpath, comps_eq_iff hplain]; exact hspelled)]
    rcases hr : w.resolve_and_guard cwd text with ⟨r, w'⟩
    rw [hr] at hdest
    dsimp only at hdest
    rw [hdest]

/-- A request is answered from its texts and the resolution of its paths alone, or
it gets past the guard and to `transfer`. -/
theorem do_move_or_copy_cases (os : Os) (cwd : Path) (fuel : ℕ) (req : Request) (is_move : Bool)
    (w : World) :
    w.Same (do_move_or_copy os cwd fuel req is_move w).2 ∨
      ∃ text src dest, parse_destination req.headers = some text ∧
        w.resolve_existing cwd req.uri_path = some src ∧
        ¬ Spelled w.app.root_dir text src ∧
        (w.resolve_and_guard cwd text).1 = .ok dest ∧
        do_move_or_copy os cwd fuel req is_move w =
          transfer os fuel req is_move src dest (w.resolve_and_guard cwd text).2 := by
  -- the ways in which a request is over before its transfer
  cases htext : parse_destination req.headers with
  | none =>
    left
    unfold do_move_or_copy
    rw [htext]
    exact World.Same.refl w
  | some text =>
    cases hsrc : w.resolve_existing cwd req.uri_path with
    | none =>
      left
      unfold do_move_or_copy
      rw [htext]
      dsimp only
      rw [hsrc]
      exact World.Same.refl w
    | some src =>
      cases hdest : (w.resolve_and_guard cwd text).1 with
      | ok dest =>
        by_cases hspelled : Spelled w.app.root_dir text src
        · left
          rw [guard_hits htext hsrc (resolve_and_guard_ok_iff.mp hdest).1 hspelled]
          exact World.Same.refl w
        · exact Or.inr ⟨text, src, dest, rfl, rfl, hspelled, hdest,
            guard_misses htext hsrc hdest hspelled⟩
      | error e =>
        left
        unfold do_move_or_copy
        rw [htext]
        dsimp only
        rw [hsrc]
        dsimp only
        split
        · exact World.Same.refl w
        · split
          · exact World.Same.refl w
          · rcases hr : w.resolve_and_guard cwd text with ⟨r, w'⟩
            have hw := World.guard_same cwd w text
            rw [hr] at hdest hw
            dsimp only at hdest hw
            subst hdest
            exact hw

end Guard

end Rshs.CopyMove
