/-
Which requests stay inside the root.

`resolve_existing` follows every link and then looks whether the result lies under
the root: what GET serves and what DELETE removes is inside. `resolve_and_guard`
looks at the parent only. `Stays` says for every method what is left to the tree: for
PUT, that the target does not lead out of the root by a link at its last name; for
MKCOL and LOCK, that the directory found for the parent (the cache may remember it
from before) is still inside; for COPY and MOVE, that the destination paths of what
is copied lead inside, for a recursive copy on each of its walks.

`confined_iff` is the result: a request that stays inside touches nothing outside, whatever
the system calls do, and every other request does, in some system.
-/
import Rshs.Server
import Rshs.CopyBegun

set_option autoImplicit false

namespace Rshs.Confinement

open StdPath Posix Rshs.Webdav Rshs.Locks Rshs.Resolve Rshs.App Rshs.Http Rshs.CopyMove
  Rshs.Server Rshs.CopyRun Rshs.Transfer Rshs.LockMw Rshs.CopyWalk Rshs.CopyBegun

/-- The real location of an access. -/
def Access.loc : Access → Path
  | .read loc => loc
  | .change loc => loc

/-- The path lies under the root. -/
def Inside (root_canonical : PathBuf) (p : Path) : Prop := p.starts_with root_canonical = true

theorem inside_append {root : PathBuf} {p : Path} (h : Inside root p) (r : List Name) :
    Inside root (p ++ r) :=
  Path.starts_with_of_prefix h (List.prefix_append p r)

/-! ## What the handlers of one path touch -/

section Handlers

variable {os : Os} {cwd : Path} {req : Request} {w : World} {a : Access}

/-- GET reads the file it was asked for. -/
theorem handle_get_head_log (hcwd : w.machine.fs.Real cwd)
    (ha : a ∈ (handle_get_head os cwd req w).2.machine.log) :
    a ∈ w.machine.log ∨ Inside w.app.root_canonical (Access.loc a) := by
  unfold handle_get_head at ha
  split at ha
  · exact Or.inl ha
  · rename_i p hp
    obtain ⟨-, hreal, hinside⟩ := resolve_existing_some hcwd hp
    split at ha
    · exact Or.inl ha
    · split at ha
      · exact Or.inl ha
      · rcases open_file_cases os p w.machine with ⟨e, ho⟩ | ⟨loc, c, hl, -, ho⟩
        · rw [ho] at ha
          exact Or.inl ha
        · rw [follow_self hreal] at hl
          cases hl
          rw [ho] at ha
          rcases List.mem_append.mp ha with ha | ha
          · exact Or.inl ha
          · rw [List.mem_singleton.mp ha]
            exact Or.inr hinside

/-- DELETE removes the entry it was asked for. -/
theorem handle_delete_log (hcwd : w.machine.fs.Real cwd)
    (ha : a ∈ (handle_delete os cwd req w).2.machine.log) :
    a ∈ w.machine.log ∨ Inside w.app.root_canonical (Access.loc a) := by
  unfold handle_delete at ha
  split at ha
  · exact Or.inl ha
  · rename_i p hp
    obtain ⟨-, hreal, hinside⟩ := resolve_existing_some hcwd hp
    -- a removal of the real path `p` acts at `p`
    have hat : ∀ place, locate_entry w.machine.fs p = .ok place →
        a ∈ w.machine.log ++ [.change place] →
        a ∈ w.machine.log ∨ Inside w.app.root_canonical (Access.loc a) := by
      intro place he hmem
      rcases List.mem_append.mp hmem with hmem | hmem
      · exact Or.inl hmem
      · rw [List.mem_singleton.mp hmem]
        right
        show Inside w.app.root_canonical place
        rw [locate_entry_real hreal he]
        exact hinside
    split at ha
    · exact Or.inl ha
    · split at ha
      · split at ha
        · exact Or.inl ha
        · dsimp only at ha
          rw [aim_machine] at ha
          rcases remove_dir_all_cases os p w.machine with
            ⟨e, hr⟩ | ⟨place, he, ⟨chosen, -, hr⟩ | ⟨-, -, hr⟩⟩
          · rw [hr] at ha
            exact Or.inl ha
          · rw [hr] at ha
            exact hat place he ha
          · rw [hr] at ha
            exact hat place he ha
      · dsimp only at ha
        rw [aim_machine] at ha
        rcases remove_file_cases os p w.machine with ⟨e, hr⟩ | ⟨place, he, -, -, hr⟩
        · rw [hr] at ha
          exact Or.inl ha
        · rw [hr] at ha
          exact hat place he ha

theorem handle_put_log (ha : a ∈ (handle_put os cwd req w).2.machine.log) :
    a ∈ w.machine.log ∨ ∃ m loc, (w.resolve_and_guard cwd req.uri_path).1 = .ok m ∧
      locate w.machine.fs m = .ok loc ∧ w.machine.fs.node loc ≠ some .dir ∧ a = .change loc := by
  unfold handle_put at ha
  have hw := guard_machine w cwd req.uri_path
  rcases hr : w.resolve_and_guard cwd req.uri_path with ⟨r, w'⟩
  rw [hr] at ha hw
  cases r with
  | error e =>
    dsimp only at ha hw
    rw [hw] at ha
    exact Or.inl ha
  | ok target =>
    dsimp only at ha hw
    rw [aim_machine, hw] at ha
    rcases create_cases os target w.machine with ⟨e, hc⟩ | ⟨loc, hl, hslot, hc⟩
    · rw [hc] at ha
      exact Or.inl ha
    · rw [hc] at ha
      dsimp only at ha
      -- the file is truncated when it is opened, and then written
      have hmem : a ∈ (w.machine.log ++ [.change loc]) ++ [.change loc] := by
        rcases write_cases os loc req.body (w.machine.tick.set loc (.file [])) with ⟨k, hwr⟩ | hwr
        · rw [hwr] at ha
          exact ha
        · rw [hwr] at ha
          exact ha
      rcases List.mem_append.mp hmem with hmem | hmem
      · rcases List.mem_append.mp hmem with hmem | hmem
        · exact Or.inl hmem
        · exact Or.inr ⟨target, loc, rfl, hl, hslot.2.2, List.mem_singleton.mp hmem⟩
      · exact Or.inr ⟨target, loc, rfl, hl, hslot.2.2, List.mem_singleton.mp hmem⟩

/-- What a call that makes an entry touches. -/
theorem make_log {x : Node} {p : Path} {m : Machine} (ha : a ∈ (make os x p m).2.log) :
    a ∈ m.log ∨ ∃ loc, locate_entry m.fs p = .ok loc ∧ m.fs.node loc = none ∧ a = .change loc := by
  rcases make_cases os x p m with ⟨e, hm⟩ | ⟨loc, hl, hnone, -, hm⟩
  · rw [hm] at ha
    exact Or.inl ha
  · rw [hm] at ha
    rcases List.mem_append.mp ha with ha | ha
    · exact Or.inl ha
    · exact Or.inr ⟨loc, hl, hnone, List.mem_singleton.mp ha⟩

theorem handle_mkcol_log (ha : a ∈ (handle_mkcol os cwd req w).2.machine.log) :
    a ∈ w.machine.log ∨ ∃ m loc, has_body req.headers = false ∧
      (w.resolve_and_guard cwd (trim_end_matches '/' req.uri_path)).1 = .ok m ∧
      (metadata w.machine.fs m).isOk = false ∧
      locate_entry w.machine.fs m = .ok loc ∧ w.machine.fs.node loc = none ∧ a = .change loc := by
  unfold handle_mkcol at ha
  split at ha
  · exact Or.inl ha
  · rename_i hbody
    dsimp only at ha
    have hw := guard_machine w cwd (trim_end_matches '/' req.uri_path)
    rcases hr : w.resolve_and_guard cwd (trim_end_matches '/' req.uri_path) with ⟨r, w'⟩
    rw [hr] at ha hw
    cases r with
    | error e =>
      dsimp only at ha hw
      rw [hw] at ha
      exact Or.inl ha
    | ok target =>
      dsimp only at ha hw
      rw [hw] at ha
      split at ha
      · rw [hw] at ha
        exact Or.inl ha
      · rename_i e hmeta
        rw [aim_machine, hw] at ha
        -- whatever the call answers, its log is the same
        have hmem : a ∈ (create_dir os target w.machine).2.log := by
          rcases hc : create_dir os target w.machine with ⟨_ | _, m⟩
          · rw [hc] at ha
            exact ha
          · rw [hc] at ha
            exact ha
        rcases make_log hmem with h | ⟨loc, hl, hnone, rfl⟩
        · exact Or.inl h
        · exact Or.inr ⟨target, loc, by simpa using hbody, rfl, by rw [hmeta]; rfl, hl, hnone, rfl⟩

/-- LOCK creates a file at a target without any lock, when no lock of an ancestor is
refreshed instead. -/
theorem handle_lock_log {clock : Clock} {default_hasher : ℕ → UInt64}
    (ha : a ∈ (Server.handle_lock os cwd clock default_hasher req w).2.machine.log) :
    a ∈ w.machine.log ∨ ∃ m loc events,
      (w.resolve_and_guard cwd (trim_end_matches '/' req.uri_path)).1 = .ok m ∧
      req.lock_body = some events ∧
      ¬ OwnsAncestor clock.first (lock_request req w.app events m) w.app.locks ∧
      w.app.locks.at m = [] ∧
      locate_entry w.machine.fs m = .ok loc ∧ w.machine.fs.node loc = none ∧ a = .change loc := by
  unfold Server.handle_lock at ha
  dsimp only at ha
  rcases hr : w.resolve_and_guard cwd (trim_end_matches '/' req.uri_path) with ⟨r, w'⟩
  obtain ⟨⟨hw, -, hlocks⟩, hreq⟩ := guard_leaves hr
  dsimp only at hw hlocks hreq
  rw [hr] at ha
  cases r with
  | error e =>
    dsimp only at ha
    rw [hw] at ha
    exact Or.inl ha
  | ok target =>
    dsimp only at ha
    split at ha
    · rw [hw] at ha
      exact Or.inl ha
    · rename_i events hevents
      rw [hreq, hlocks] at ha
      -- only a LOCK that comes to the second section creates the file
      rcases first_section_cases default_hasher clock.first (lock_request req w.app events target)
          w.app.locks with
        ⟨lock, locks', -, hfs⟩ | ⟨hnone, ⟨s, -, hfs⟩ | ⟨token, entry, -, hfs⟩ | ⟨hat, hfs⟩⟩
      · rw [hfs] at ha
        dsimp only at ha
        rw [with_locks_machine, hw] at ha
        exact Or.inl ha
      · rw [hfs] at ha
        dsimp only at ha
        rw [with_locks_machine, hw] at ha
        exact Or.inl ha
      · rw [hfs] at ha
        dsimp only at ha
        rw [with_locks_machine, hw] at ha
        exact Or.inl ha
      · rw [hfs] at ha
        dsimp only at ha
        rw [with_locks_machine, hw] at ha
        have hmem : a ∈ (create_new os target w.machine).2.log := by
          split at ha
          · exact ha
          · exact ha
        rcases make_log hmem with h | ⟨loc, hl, hfree, rfl⟩
        · exact Or.inl h
        · exact Or.inr ⟨target, loc, events, rfl, hevents,
            fun hown => owns_ancestor_iff.mp hown hnone, hat, hl, hfree, rfl⟩

end Handlers

/-! ## When nothing fails -/

section Calm

variable {cwd : Path} {req : Request} {w : World}

theorem handle_put_calm {target loc : Path}
    (hg : (w.resolve_and_guard cwd req.uri_path).1 = .ok target)
    (hl : locate w.machine.fs target = .ok loc) (hdir : w.machine.fs.node loc ≠ some .dir) :
    Access.change loc ∈ (handle_put Os.calm cwd req w).2.machine.log := by
  unfold handle_put
  have hw := guard_machine w cwd req.uri_path
  rcases hr : w.resolve_and_guard cwd req.uri_path with ⟨r, w'⟩
  rw [hr] at hg hw
  dsimp only at hg hw
  subst hg
  dsimp only
  rw [aim_machine, hw, create_ok rfl hl hdir]
  dsimp only
  have hmem : Access.change loc ∈
      (write Os.calm loc req.body (w.machine.tick.set loc (.file []))).2.log := by
    rcases write_cases Os.calm loc req.body (w.machine.tick.set loc (.file [])) with ⟨k, hwr⟩ | hwr
    · rw [hwr]
      exact List.mem_append_right _ List.mem_cons_self
    · rw [hwr]
      exact List.mem_append_right _ List.mem_cons_self
  split
  · rename_i heq
    rw [heq] at hmem
    exact hmem
  · rename_i heq
    rw [heq] at hmem
    exact hmem

theorem handle_mkcol_calm {target loc : Path} (hbody : has_body req.headers = false)
    (hg : (w.resolve_and_guard cwd (trim_end_matches '/' req.uri_path)).1 = .ok target)
    (hmeta : (metadata w.machine.fs target).isOk = false)
    (hl : locate_entry w.machine.fs target = .ok loc) (hnone : w.machine.fs.node loc = none) :
    Access.change loc ∈ (handle_mkcol Os.calm cwd req w).2.machine.log := by
  unfold handle_mkcol
  rw [hbody, if_neg Bool.false_ne_true]
  dsimp only
  have hw := guard_machine w cwd (trim_end_matches '/' req.uri_path)
  rcases hr : w.resolve_and_guard cwd (trim_end_matches '/' req.uri_path) with ⟨r, w'⟩
  rw [hr] at hg hw
  dsimp only at hg hw
  subst hg
  dsimp only
  rw [hw]
  cases hm : metadata w.machine.fs target with
  | ok t =>
    rw [hm] at hmeta
    cases hmeta
  | error e =>
    dsimp only
    rw [aim_machine, hw, create_dir, make_ok rfl hl hnone]
    exact List.mem_append_right _ List.mem_cons_self

theorem handle_lock_calm {clock : Clock} {default_hasher : ℕ → UInt64} {target loc : Path}
    {events : List XmlEvent}
    (hg : (w.resolve_and_guard cwd (trim_end_matches '/' req.uri_path)).1 = .ok target)
    (hevents : req.lock_body = some events)
    (hown : ¬ OwnsAncestor clock.first (lock_request req w.app events target) w.app.locks)
    (hat : w.app.locks.at target = [])
    (hl : locate_entry w.machine.fs target = .ok loc) (hnone : w.machine.fs.node loc = none) :
    Access.change loc ∈
      (Server.handle_lock Os.calm cwd clock default_hasher req w).2.machine.log := by
  unfold Server.handle_lock
  dsimp only
  rcases hr : w.resolve_and_guard cwd (trim_end_matches '/' req.uri_path) with ⟨r, w'⟩
  obtain ⟨⟨hw, -, hlocks⟩, hreq⟩ := guard_leaves hr
  dsimp only at hw hlocks hreq
  rw [hr] at hg
  dsimp only at hg
  subst hg
  dsimp only
  rw [hevents]
  dsimp only
  rw [hreq, hlocks]
  rw [owns_ancestor_iff, not_not] at hown
  rcases first_section_cases default_hasher clock.first (lock_request req w.app events target)
      w.app.locks with ⟨lock, locks', hsome, -⟩ | ⟨-, ⟨s, hdec, -⟩ | ⟨token, entry, hdec, -⟩ | ⟨-, hfs⟩⟩
  · -- a lock above would have been refreshed instead, which is excluded
    rw [hown] at hsome
    cases hsome
  · -- an empty entry decides nothing in the first section
    have hnil : w.app.locks.at (lock_request req w.app events target).target = [] := hat
    rw [hnil, decision_nil] at hdec
    cases hdec
  · have hnil : w.app.locks.at (lock_request req w.app events target).target = [] := hat
    rw [hnil, decision_nil] at hdec
    cases hdec
  · rw [hfs]
    dsimp only
    rw [with_locks_machine, hw, create_new, make_ok rfl hl hnone]
    exact List.mem_append_right _ List.mem_cons_self

end Calm

/-! ## What COPY and MOVE need -/

/-- Whatever may be created as the entry `p` is created inside. -/
def EntryStays (fs : Fs) (root : PathBuf) (p : Path) : Prop :=
  ∀ loc, locate_entry fs p = .ok loc → fs.node loc = none → Inside root loc

/-- A file: where the destination leads, and for a MOVE the destination's entry,
which is renamed to. `tree` is `fs` with a destination of the wrong type removed. -/
def FileStays (fs tree : Fs) (root : PathBuf) (is_move : Bool) (src dest : Path) : Prop :=
  ∀ loc, tree.node src ≠ none → locate tree dest = .ok loc → tree.node loc ≠ some .dir →
    Inside root loc ∧ (is_move = true → locate_entry fs src = .ok src →
      ∀ place, locate_entry fs dest = .ok place → Inside root place)

/-- A rename moves the directory `src` to the entry of `dest`, which is free or an empty
directory. -/
structure Renames (fs : Fs) (src dest place : Path) : Prop where
  source : locate_entry fs src = .ok src
  entry : locate_entry fs dest = .ok place
  apart : ¬ src <+: place
  free : fs.node place = none ∨ (fs.node place = some .dir ∧ fs.children place = [])

/-- A directory and what is below it: where the directory of the destination is made, what
the copy touches on its walks, and for a MOVE where the source is renamed to after a walk. -/
structure DeepStays (fs : Fs) (root : PathBuf) (is_move : Bool) (src dest : Path) : Prop where
  made : ∀ place, Makes fs dest place → Inside root place
  walks : ∀ tree tr M, begun fs dest = some tree → Walk (.between tree [(src, dest)]) tr M →
    ∀ as ∈ tr, ∀ a ∈ as, Inside root (Access.loc a)
  moved : is_move = true → ∀ tree tr fs' place, begun fs dest = some tree →
    Walk (.between tree [(src, dest)]) tr (.between fs' []) → Renames fs' src dest place →
    Inside root place

def TransferStays (fs : Fs) (root : PathBuf) (is_move : Bool) (depth : Depth)
    (src_type : FileType) (src dest : Path) : Prop :=
  let tree := cleared fs src_type dest
  (Clears fs src_type dest → ∀ place, locate_entry fs dest = .ok place → Inside root place) ∧
    if src_type = .dir then
      if is_move = false ∧ depth = .Zero then EntryStays tree root dest
      else DeepStays fs root is_move src dest
    else FileStays fs tree root is_move src dest

section Transfers

variable {os : Os} {fuel : ℕ} {root : PathBuf} {is_move overwrite : Bool} {depth : Depth}
  {src_type : FileType} {src dest : Path} {may existed existed' : Bool} {m m₁ m₂ : Machine}
  {res : Option (Except StatusCode Unit)} {a : Access}

/-- What is removed to make room is inside. -/
theorem clear_log (hclear : ClearOutcome src_type dest may existed m (existed', m₁))
    (hstays : Clears m.fs src_type dest → ∀ place, locate_entry m.fs dest = .ok place →
      Inside root place) (ha : a ∈ m₁.log) : a ∈ m.log ∨ Inside root (Access.loc a) := by
  have hat : ∀ place, Clears m.fs src_type dest → locate_entry m.fs dest = .ok place →
      a ∈ m.log ++ [.change place] → a ∈ m.log ∨ Inside root (Access.loc a) := by
    intro place hclears he hmem
    rcases List.mem_append.mp hmem with hmem | hmem
    · exact Or.inl hmem
    · rw [List.mem_singleton.mp hmem]
      exact Or.inr (hstays hclears place he)
  cases hclear with
  | kept _ => exact Or.inl ha
  | removed place _ _ hclears he _ _ hlog =>
    rw [hlog] at ha
    exact hat place hclears he ha
  | failed _ _ hclears _ _ _ hlog =>
    rcases hlog with hlog | ⟨place, he, hlog⟩
    · rw [hlog] at ha
      exact Or.inl ha
    · rw [hlog] at ha
      exact hat place hclears he ha

/-- What the last phase of a MOVE can touch in a tree is inside. -/
def MoveInside (fs : Fs) (root : PathBuf) (src dest : Path) : Prop :=
  ∀ loc, locate_entry fs src = .ok loc ∨
    (locate_entry fs dest = .ok loc ∧ ∃ s, locate_entry fs src = .ok s) → Inside root loc

/-- What copying a file touches, and what a MOVE that follows it will touch. -/
theorem copy_file_stays {n : Name} {d : Path} (hdest : dest = d ++ [n])
    (hreal : m.fs.Real src) (hinside : Inside root src) (htype : src_type ≠ .dir)
    (hclear : ClearOutcome src_type dest may existed m (existed', m₁))
    (hmay : Clears m.fs src_type dest → may = true)
    (hstays : FileStays m.fs (cleared m.fs src_type dest) root is_move src dest)
    (h : copy_source os fuel is_move depth src_type src dest existed' m₁ = (res, m₂)) :
    (∀ a ∈ m₂.log, a ∈ m₁.log ∨ Inside root (Access.loc a)) ∧
      (res = some (.ok ()) → is_move = true → MoveInside m₂.fs root src dest) := by
  have hk := clear_keeps hclear
  -- what the source path leads to is the source itself
  have hself : ∀ s, follow m₁.fs src = .ok s → s = src := by
    intro s hs
    have hs' := follow_keeps hk hs
    rw [follow_self hreal] at hs'
    cases hs'
    rfl
  unfold copy_source copy_file at h
  rw [if_neg htype] at h
  rcases copy_cases os src dest m₁ with
    ⟨e, m', hc, hfs, hlog⟩ | ⟨s, c, loc, hs, hn, hl, hslot, r, m', bytes, hc, hfs, hlog, -⟩
  · rw [hc] at h
    cases h
    refine ⟨fun a ha => ?_, fun hres => by cases hres⟩
    rcases hlog with hlog | ⟨s, c, hs, -, hlog⟩
    · rw [hlog] at ha
      exact Or.inl ha
    · rw [hlog] at ha
      rcases List.mem_append.mp ha with ha | ha
      · exact Or.inl ha
      · rw [List.mem_singleton.mp ha, hself s hs]
        exact Or.inr hinside
  · have hm₂ : m₂ = m' := by
      rw [hc] at h
      cases r with
      | error e =>
        cases h
        rfl
      | ok u =>
        cases h
        rfl
    subst hm₂
    have hsrc := hself s hs
    subst hsrc
    -- the removal has not failed, for then the destination would be a directory
    have htree := tree_for_file hclear hmay htype hl hslot.2.2
    rw [← htree] at hstays
    obtain ⟨hloc, hmove⟩ := hstays loc (by rw [hn]; simp) hl hslot.2.2
    have hext : m₁.fs.Extends m₂.fs := by
      rw [hfs]
      exact extends_fill hl hslot bytes
    refine ⟨fun a ha => ?_, fun _ hm place hplace => ?_⟩
    · rw [hlog] at ha
      simp only [List.mem_append, List.mem_cons, List.not_mem_nil, or_false] at ha
      rcases ha with ha | rfl | rfl | rfl
      · exact Or.inl ha
      · exact Or.inr hinside
      · exact Or.inr hloc
      · exact Or.inr hloc
    · obtain ⟨y, hy⟩ := hext.keeps.file hn
      rcases hplace with hplace | ⟨hplace, s', hs'⟩
      · rw [entry_of_source hy (by simp) hplace]
        exact hinside
      · -- both entries are where they were before the copy
        obtain ⟨q, hq⟩ := follow_dropLast (by rw [hdest]; simp) hl
        have hsrc_entry : locate_entry m.fs s = .ok s := by
          have heq := entry_of_source hy (by simp) hs'
          subst heq
          exact entry_before (parent_of_real hn) hk hext.keeps hs'
        exact hmove hm hsrc_entry place (entry_before hq hk hext.keeps hplace)

/-- What the last phase touches that moves a directory: the source, and the entry it is
renamed to. -/
theorem move_dir_log (hsrc : m.fs.node src = some .dir)
    (ha : a ∈ (move_source os .dir src dest m).log) :
    a ∈ m.log ∨ ∃ loc, a = .change loc ∧ (loc = src ∨ Renames m.fs src dest loc) := by
  have hself : ∀ s, locate_entry m.fs src = .ok s → s = src :=
    fun s hs => entry_of_source hsrc (by simp) hs
  rcases hren : rename os src dest m with ⟨e | u, m'⟩
  · -- the rename has failed, and the source is removed
    have hm' : m' = m.tick := by
      rcases rename_cases os src dest m with ⟨r, hr⟩ | ⟨s, d, -, -, -, -, -, hr⟩
      · rw [hren] at hr
        cases hr
        rfl
      · rw [hren] at hr
        cases hr
    unfold move_source at ha
    rw [hren] at ha
    dsimp only at ha
    rw [if_pos rfl, hm'] at ha
    rcases remove_dir_all_cases os src m.tick with
      ⟨e, hrm⟩ | ⟨place, he, ⟨chosen, -, hrm⟩ | ⟨-, -, hrm⟩⟩
    · rw [hrm] at ha
      exact Or.inl ha
    · rw [hrm] at ha
      rcases List.mem_append.mp ha with ha | ha
      · exact Or.inl ha
      · exact Or.inr ⟨place, List.mem_singleton.mp ha, Or.inl (hself place he)⟩
    · rw [hrm] at ha
      rcases List.mem_append.mp ha with ha | ha
      · exact Or.inl ha
      · exact Or.inr ⟨place, List.mem_singleton.mp ha, Or.inl (hself place he)⟩
  · unfold move_source at ha
    rw [hren] at ha
    rcases rename_cases os src dest m with ⟨r, hr⟩ | ⟨s, d, hs, hd, hmov, -, hbelow, hr⟩
    · rw [hren] at hr
      cases hr
      exact Or.inl ha
    · rw [hren] at hr
      cases hr
      -- the rename has moved the tree: its source and its target
      have hss := hself s hs
      subst hss
      obtain ⟨-, -, hpre, -⟩ := hmov
      rcases List.mem_append.mp ha with ha | ha
      · exact Or.inl ha
      · simp only [List.mem_cons, List.not_mem_nil, or_false] at ha
        rcases ha with rfl | rfl
        · exact Or.inr ⟨s, rfl, Or.inl rfl⟩
        · refine Or.inr ⟨d, rfl, Or.inr ⟨hs, hd, hpre, ?_⟩⟩
          have hne : s ≠ d := fun heq => hpre (by rw [heq])
          rcases (rename_kinds hs hd hne hren).1 hsrc with hnone | hdir
          · exact Or.inl hnone
          · refine Or.inr ⟨hdir, List.eq_nil_iff_forall_not_mem.mpr fun n hn => ?_⟩
            exact Fs.mem_children.mp hn (hbelow _ (List.prefix_append d [n]) (by simp))

/-- What a copy that has walked has touched. -/
theorem over_stays {tree : Fs} {log : List Access} (hsrc : tree.node src = some .dir)
    (hinside : Inside root src)
    (hwalks : ∀ tr M, Walk (.between tree [(src, dest)]) tr M →
      ∀ as ∈ tr, ∀ a ∈ as, Inside root (Access.loc a))
    (h : Over (.between tree [(src, dest)]) log res m₂) (ha : a ∈ m₂.log) :
    a ∈ log ∨ Inside root (Access.loc a) := by
  have hflat : ∀ tr M, Walk (.between tree [(src, dest)]) tr M → a ∈ log ++ tr.flatten →
      a ∈ log ∨ Inside root (Access.loc a) := by
    intro tr M hwalk hmem
    rcases List.mem_append.mp hmem with hmem | hmem
    · exact Or.inl hmem
    · obtain ⟨as, has, ha⟩ := List.mem_flatten.mp hmem
      exact Or.inr (hwalks tr M hwalk as has a ha)
  cases h with
  | done tr _ hwalk hlog =>
    rw [hlog] at ha
    exact hflat tr _ hwalk ha
  | spent tr _ stack _ hwalk hlog =>
    rw [hlog] at ha
    exact hflat tr _ hwalk ha
  | failed tr M' as _ hwalk hfails hlog =>
    rw [hlog] at ha
    rcases List.mem_append.mp ha with ha | ha
    · exact hflat tr _ hwalk ha
    · -- what the failing call has touched
      have halong := walk_along hwalk (along_start hsrc)
      generalize m₂.fs = fs₂ at hfails
      right
      cases hfails with
      | idle => cases ha
      | unread q c hq hc =>
        obtain ⟨-, r, rfl, -, -, hok⟩ := halong
        obtain ⟨x, hx, ht⟩ := hok _ _ List.mem_cons_self
        obtain ⟨c', hc'⟩ := node_of_file hx ht
        rw [follow_self ⟨_, hc', by simp⟩] at hq
        cases hq
        rw [List.mem_singleton.mp ha]
        rw [List.append_assoc]
        exact inside_append hinside _
      | partly q loc bytes hcopied _ =>
        have hlonger := hwalk.append (Lts.Run.single (Step.copied q loc hcopied))
        exact hwalks _ _ hlonger _ (List.mem_append_right _ List.mem_cons_self) a ha

/-- What copying a directory with all that is below it touches, and a MOVE that follows. -/
theorem copy_deep_stays (hsrc : m.fs.node src = some .dir) (hinside : Inside root src)
    (hdeep : ¬ (is_move = false ∧ depth = .Zero))
    (hmay : Clears m.fs .dir dest → (overwrite && (metadata m.fs dest).isOk) = true)
    (hclear : clear_dest os overwrite (metadata m.fs dest).isOk .dir dest m = (existed, m₁))
    (hstays : DeepStays m.fs root is_move src dest)
    (h : copy_source os fuel is_move depth .dir src dest existed m₁ = (res, m₂)) :
    (∀ a ∈ m₂.log, a ∈ m₁.log ∨ Inside root (Access.loc a)) ∧
      (res = some (.ok ()) → is_move = true → ∀ a ∈ (move_source os .dir src dest m₂).log,
        a ∈ m₂.log ∨ Inside root (Access.loc a)) := by
  have houtcome := clear_dest_cases os overwrite (metadata m.fs dest).isOk .dir dest m
  rw [hclear] at houtcome
  have hsrc₁ := clear_keeps_dir houtcome hsrc
  rcases copy_over hdeep hmay hclear h with ⟨hres, -, hlog⟩ | ⟨tree, log, hbegun, hover, htree, hlog⟩
  · refine ⟨fun a ha => Or.inl (by rw [← hlog]; exact ha), fun hok => ?_⟩
    rw [hres] at hok
    cases hok
  · have hext := begun_extends hbegun
    rw [← htree] at hext
    have hsrc_tree := hext.keeps.dir hsrc₁
    constructor
    · intro a ha
      rcases over_stays hsrc_tree hinside (fun tr M => hstays.walks tree tr M hbegun) hover ha with
        hmem | hin
      · rcases hlog with rfl | ⟨place, hmakes, rfl⟩
        · exact Or.inl hmem
        · rcases List.mem_append.mp hmem with hmem | hmem
          · exact Or.inl hmem
          · rw [List.mem_singleton.mp hmem]
            exact Or.inr (hstays.made place hmakes)
      · exact Or.inr hin
    · rintro rfl hm a ha
      cases hover with
      | done tr _ hwalk _ =>
        have hsrc₂ := (walk_extends hwalk).keeps.dir hsrc_tree
        rcases move_dir_log hsrc₂ ha with ha | ⟨loc, rfl, rfl | hren⟩
        · exact Or.inl ha
        · exact Or.inr hinside
        · exact Or.inr (hstays.moved hm tree tr m₂.fs loc hbegun hwalk hren)

/-- A shallow copy creates at most the destination's entry. -/
theorem copy_shallow_stays (hmove : is_move = false) (hdepth : depth = .Zero)
    (hclear : ClearOutcome .dir dest may existed m (existed', m₁))
    (hmay : Clears m.fs .dir dest → may = true)
    (hstays : EntryStays (cleared m.fs .dir dest) root dest)
    (h : copy_source os fuel is_move depth .dir src dest existed' m₁ = (res, m₂)) :
    ∀ a ∈ m₂.log, a ∈ m₁.log ∨ Inside root (Access.loc a) := by
  intro a ha
  have hlog : a ∈ m₁.log ∨ a ∈ (create_dir os dest m₁).2.log := by
    unfold copy_source at h
    rw [if_pos rfl, if_pos ⟨hmove, hdepth⟩] at h
    split at h
    · cases h
      exact Or.inl ha
    · rcases hc : create_dir os dest m₁ with ⟨_ | _, m₃⟩
      · rw [hc] at h
        cases h
        exact Or.inr ha
      · rw [hc] at h
        cases h
        exact Or.inr ha
  rcases hlog with hlog | hlog
  · exact Or.inl hlog
  · rcases make_log hlog with hlog | ⟨loc, hl, hnone, rfl⟩
    · exact Or.inl hlog
    · rcases tree_of_clear hclear hmay with htree | ⟨hclears, -, -, -, hsame⟩
      · rw [htree] at hl hnone
        exact Or.inr (hstays loc hl hnone)
      · rw [hsame rfl] at hl hnone
        exact absurd hnone (clears_blocks_dir hclears hl)

/-- **A COPY or MOVE that stays inside.** -/
theorem transfer_stays {req : Request} {w : World} {n : Name} {d : Path} (hdest : dest = d ++ [n])
    (hreal : w.machine.fs.Real src) (hinside : Inside root src)
    (hstays : ∀ src_type, metadata w.machine.fs src = .ok src_type →
      ((metadata w.machine.fs dest).isOk = true → parse_overwrite req.headers = true) →
      TransferStays w.machine.fs root is_move (parse_depth req.headers) src_type src dest)
    (ha : a ∈ (transfer os fuel req is_move src dest w).2.machine.log) :
    a ∈ w.machine.log ∨ Inside root (Access.loc a) := by
  rcases transfer_cases os fuel req is_move src dest w with
    ⟨hnone, -⟩ | ⟨src_type, hmeta, hover, existed, m₁, res, m₂, hclear, hcopy, -, hmachine, -⟩
  · rw [hnone.machine] at ha
    exact Or.inl ha
  · obtain ⟨hclears, hkind⟩ := hstays src_type hmeta hover
    have houtcome := clear_dest_cases os (parse_overwrite req.headers)
      (metadata w.machine.fs dest).isOk src_type dest w.machine
    rw [hclear] at houtcome
    have hmay : Clears w.machine.fs src_type dest →
        (parse_overwrite req.headers && (metadata w.machine.fs dest).isOk) = true :=
      clears_may hover
    -- the copy and the move, by the kind of the source
    have hphases : (∀ a ∈ m₂.log, a ∈ m₁.log ∨ Inside root (Access.loc a)) ∧
        (res = some (.ok ()) → is_move = true → ∀ a ∈ (move_source os src_type src dest m₂).log,
          a ∈ m₂.log ∨ Inside root (Access.loc a)) := by
      by_cases htype : src_type = .dir
      · subst htype
        rw [if_pos rfl] at hkind
        have hsrc := real_dir hreal hmeta
        by_cases hshallow : is_move = false ∧ parse_depth req.headers = .Zero
        · rw [if_pos hshallow] at hkind
          refine ⟨copy_shallow_stays hshallow.1 hshallow.2 houtcome hmay hkind hcopy,
            fun _ hm => ?_⟩
          rw [hshallow.1] at hm
          cases hm
        · rw [if_neg hshallow] at hkind
          exact copy_deep_stays hsrc hinside hshallow hmay hclear hkind hcopy
      · rw [if_neg htype] at hkind
        obtain ⟨hcopied, hmoved⟩ :=
          copy_file_stays hdest hreal hinside htype houtcome hmay hkind hcopy
        refine ⟨hcopied, fun hok hm a ha => ?_⟩
        rcases move_source_log ha with ha | ⟨loc, rfl, hloc⟩
        · exact Or.inl ha
        · exact Or.inr (hmoved hok hm loc hloc)
    have hm₂ : ∀ a ∈ m₂.log, a ∈ w.machine.log ∨ Inside root (Access.loc a) := by
      intro a ha
      rcases hphases.1 a ha with ha | ha
      · exact clear_log houtcome hclears ha
      · exact Or.inr ha
    rw [hmachine] at ha
    split at ha
    · rename_i hmoved
      rcases hphases.2 hmoved.1 hmoved.2 a ha with ha | hin
      · exact hm₂ a ha
      · exact Or.inr hin
    · exact hm₂ a ha

end Transfers

/-! ## A COPY or MOVE in which nothing fails -/

section TransferCalm

variable {fuel : ℕ} {root : PathBuf} {is_move : Bool} {src dest : Path} {m m₁ : Machine}

/-- A file that is copied and moved, when nothing fails, touches the place its
destination leads to and the destination's entry. -/
theorem file_calm {n : Name} {d loc : Path} {c : List UInt8} (hdest : dest = d ++ [n])
    (hk : m₁.fs.Keeps m.fs) (hn : m₁.fs.node src = some (.file c))
    (hl : locate m₁.fs dest = .ok loc) (hdir : m₁.fs.node loc ≠ some .dir)
    (hinside : Inside root src)
    (hlog : ∀ a ∈ (move_source Os.calm .file src dest (copy Os.calm src dest m₁).2).log,
      Inside root (Access.loc a))
    (hsrc : locate_entry m.fs src = .ok src) :
    ∀ place, locate_entry m.fs dest = .ok place → Inside root place := by
  intro place hplace
  have hself : follow m₁.fs src = .ok src := follow_self ⟨_, hn, by simp⟩
  have hslot := slot_of_locate hl hdir
  rcases hc : copy Os.calm src dest m₁ with ⟨r, m₂⟩
  have hcopy := copy_ok (calm_fault m₁.calls) (calm_fault _) (calm_fault _) hself hn hl hdir
  rw [hc] at hcopy hlog
  cases hcopy
  generalize hm₂ : ((m₁.tick.read src).tick.set loc (.file [])).tick.set loc
    (.file ((m₁.fs.set loc (.file [])).content src)) = m₂ at hlog
  have hfs : m₂.fs = (m₁.fs.set loc (.file [])).set loc
      (.file ((m₁.fs.set loc (.file [])).content src)) := by
    rw [← hm₂]
    rfl
  have hext : m₁.fs.Extends m₂.fs := by
    rw [hfs]
    exact extends_fill hl hslot _
  -- both entries are found again, and the source is still a file
  have hsrc₂ := locate_entry_keeps hext.keeps (locate_entry_back hk (parent_of_real hn) hsrc)
  obtain ⟨q, hq⟩ := follow_dropLast (by rw [hdest]; simp) hl
  have hdest₂ := locate_entry_keeps hext.keeps (locate_entry_back hk hq hplace)
  obtain ⟨c₂, hn₂⟩ := hext.keeps.file hn
  by_cases heq : src = place
  · rw [← heq]
    exact hinside
  · have hpre : ¬ src <+: place := by
      intro hpre
      obtain ⟨d', n', -, -, hd', -, hplace'⟩ := locate_entry_ok hdest₂
      rw [hplace'] at hpre heq
      rcases List.prefix_concat_iff.mp hpre with h | h
      · exact heq h
      · by_cases hsd : src = d'
        · rw [← hsd, hn₂] at hd'
          cases hd'
        · have hsdir := m₂.fs.dir_above (by rw [hd']; simp) h hsd
          rw [hn₂] at hsdir
          cases hsdir
    have hnd : m₂.fs.node place ≠ some .dir := by
      intro hpd
      have hl₂ := locate_extends hext hl
      have hpl : loc = place := locate_of_entry hdest₂ (by rw [hpd]; simp) hl₂
      rw [← hpl, hfs, node_fill hslot, if_pos rfl] at hpd
      cases hpd
    have hren := rename_ok (calm_fault m₂.calls) hsrc₂ hdest₂ hn₂ (by simp) heq hpre hnd
    have hmem : Access.change place ∈ (move_source Os.calm .file src dest m₂).log := by
      unfold move_source
      rw [hren]
      exact List.mem_append_right _ (List.mem_cons_of_mem _ List.mem_cons_self)
    exact hlog _ hmem

/-- **When nothing fails, staying inside is needed**, for a file and for a shallow copy. -/
theorem transfer_needs {req : Request} {w : World} {n : Name} {d : Path} (hdest : dest = d ++ [n])
    (hreal : w.machine.fs.Real src) (hinside : Inside root src) {src_type : FileType}
    (hmeta : metadata w.machine.fs src = .ok src_type)
    (hover : (metadata w.machine.fs dest).isOk = true → parse_overwrite req.headers = true)
    (hflat : src_type = .dir → is_move = false ∧ parse_depth req.headers = .Zero)
    (hlog : ∀ a ∈ (transfer Os.calm fuel req is_move src dest w).2.machine.log,
      Inside root (Access.loc a)) :
    TransferStays w.machine.fs root is_move (parse_depth req.headers) src_type src dest := by
  have hmay : Clears w.machine.fs src_type dest →
      (parse_overwrite req.headers && (metadata w.machine.fs dest).isOk) = true :=
    clears_may hover
  rcases transfer_cases Os.calm fuel req is_move src dest w with
    ⟨-, ⟨hex, hno⟩ | ⟨e, he⟩⟩ |
    ⟨src_type', hmeta', -, existed, m₁, res, m₂, hclear, hcopy, -, hmachine, -⟩
  · rw [hover hex] at hno
    cases hno
  · rw [hmeta] at he
    cases he
  · rw [hmeta] at hmeta'
    cases hmeta'
    obtain ⟨hfs, hremoved, hgone, hkept⟩ := clear_dest_ok rfl hmay hclear
    have hk : m₁.fs.Keeps w.machine.fs := by
      rw [hfs]
      exact cleared_keeps _ _ _
    -- the log of the copy is part of the whole one
    have hm₂ : ∀ a ∈ m₂.log, Inside root (Access.loc a) := by
      intro a ha
      refine hlog a ?_
      rw [hmachine]
      split
      · exact move_source_log_mono ha
      · exact ha
    unfold TransferStays
    by_cases htype : src_type = .dir
    · -- a shallow copy
      obtain ⟨hmove, hdepth⟩ := hflat htype
      subst htype
      dsimp only
      rw [if_pos rfl, if_pos ⟨hmove, hdepth⟩, ← hfs]
      unfold copy_source at hcopy
      rw [if_pos rfl, if_pos ⟨hmove, hdepth⟩] at hcopy
      have hmono : ∀ a ∈ m₁.log, a ∈ m₂.log := by
        intro a ha
        split at hcopy
        · cases hcopy
          exact ha
        · have hmk : a ∈ (make Os.calm .dir dest m₁).2.log := make_log_mono ha
          rcases hc : make Os.calm .dir dest m₁ with ⟨_ | _, m₃⟩
          · rw [create_dir, hc] at hcopy
            rw [hc] at hmk
            cases hcopy
            exact hmk
          · rw [create_dir, hc] at hcopy
            rw [hc] at hmk
            cases hcopy
            exact hmk
      refine ⟨fun hc place hp => hm₂ _ (hmono _ (hremoved place hc hp)), fun loc hl hnone => ?_⟩
      -- nothing stands at the entry, so nothing was there to begin with
      have hex : existed = false := by
        by_cases hc : Clears w.machine.fs .dir dest
        · exact (hgone hc).1
        · obtain ⟨hex, hsame⟩ := hkept hc
          rw [hsame] at hl hnone
          rw [hex]
          cases hmd : metadata w.machine.fs dest with
          | error e => rfl
          | ok t =>
            obtain ⟨q, -, hq, -, -⟩ := metadata_ok hmd
            exact absurd hnone (entry_exists hq hl)
      rw [hex, if_neg Bool.false_ne_true, create_dir, make_ok rfl hl hnone] at hcopy
      cases hcopy
      exact hm₂ _ (List.mem_append_right _ List.mem_cons_self)
    · -- a file
      obtain ⟨hft, c₀, hfile⟩ := real_file hreal hmeta htype
      dsimp only
      rw [if_neg htype, ← hfs]
      unfold copy_source copy_file at hcopy
      rw [if_neg htype] at hcopy
      -- the reply of `fs::copy` is that of the copy
      have hm₂_eq : m₂ = (copy Os.calm src dest m₁).2 ∧
          ((copy Os.calm src dest m₁).1 = .ok () → res = some (.ok ())) := by
        rcases hc : copy Os.calm src dest m₁ with ⟨_ | _, m₃⟩
        · rw [hc] at hcopy
          cases hcopy
          exact ⟨rfl, fun h => by cases h⟩
        · rw [hc] at hcopy
          cases hcopy
          exact ⟨rfl, fun _ => rfl⟩
      refine ⟨fun hc place hp => hm₂ (.change place) ?_, fun loc hsome hl hdir => ?_⟩
      · rw [hm₂_eq.1]
        exact copy_file_log_mono (hremoved place hc hp)
      · -- the source is still there, and the copy goes through
        obtain ⟨c, hn⟩ := hk.file_back hsome hfile
        have hok := copy_ok (calm_fault m₁.calls) (calm_fault _) (calm_fault _)
          (follow_self ⟨_, hn, by simp⟩) hn hl hdir
        refine ⟨hm₂ (.change loc) ?_, fun hmove hsrc => ?_⟩
        · rw [hm₂_eq.1, hok]
          exact List.mem_append_right _ List.mem_cons_self
        · refine file_calm hdest hk hn hl hdir hinside (fun a ha => hlog a ?_) hsrc
          rw [hmachine, if_pos ⟨hm₂_eq.2 (by rw [hok]), hmove⟩, hm₂_eq.1, hft]
          exact ha

end TransferCalm

/-! ## A recursive COPY or MOVE on one of its walks -/

section TransferWalk

variable {os : Os} {fuel : ℕ} {root : PathBuf} {is_move existed : Bool} {src dest : Path}
  {m m₁ m₂ : Machine} {req : Request} {w : World} {res : Option (Except StatusCode Unit)}

/-- A directory is renamed onto nothing, or an empty directory. -/
theorem rename_dir_ok {place : Path} (hf : os.fault m.calls = false) (hsrc : m.fs.node src = some .dir)
    (h : Renames m.fs src dest place) : rename os src dest m = (.ok (), m.tick.move src place) := by
  obtain ⟨hs, hd, hpre, hfree⟩ := h
  have hne : src ≠ place := fun heq => hpre (by rw [heq])
  unfold rename
  rw [syscall_ok hf, tick_fs, hs, hd]
  dsimp only
  rw [hsrc]
  dsimp only
  rw [if_neg hne, if_neg hpre]
  rcases hfree with hnone | ⟨hdir, hempty⟩
  · rw [hnone, if_neg (by simp), if_neg (by simp), if_neg (by simp)]
  · rw [hdir, hempty, if_neg (by simp), if_neg (by simp), if_neg (by simp)]

/-- The machine a transfer leaves whose copy is known. -/
theorem transfer_machine (hmeta : metadata w.machine.fs src = .ok .dir)
    (hover : (metadata w.machine.fs dest).isOk = true → parse_overwrite req.headers = true)
    (hclear : clear_dest os (parse_overwrite req.headers) (metadata w.machine.fs dest).isOk .dir dest
      w.machine = (existed, m₁))
    (hcopy : copy_source os fuel is_move (parse_depth req.headers) .dir src dest existed m₁
      = (res, m₂)) :
    (transfer os fuel req is_move src dest w).2.machine =
      if res = some (.ok ()) ∧ is_move = true then move_source os .dir src dest m₂ else m₂ := by
  rcases transfer_cases os fuel req is_move src dest w with
    ⟨-, ⟨hex, hno⟩ | ⟨e, he⟩⟩ |
    ⟨src_type, hmeta', -, existed', m₁', res', m₂', hclear', hcopy', -, hmachine, -⟩
  · rw [hover hex] at hno
    cases hno
  · rw [hmeta] at he
    cases he
  · rw [hmeta] at hmeta'
    cases hmeta'
    rw [hclear] at hclear'
    cases hclear'
    rw [hcopy] at hcopy'
    cases hcopy'
    exact hmachine

/-- The log of a transfer has that of its copy. -/
theorem transfer_log_mono {a : Access} (hmeta : metadata w.machine.fs src = .ok .dir)
    (hover : (metadata w.machine.fs dest).isOk = true → parse_overwrite req.headers = true)
    (hclear : clear_dest os (parse_overwrite req.headers) (metadata w.machine.fs dest).isOk .dir dest
      w.machine = (existed, m₁))
    (hcopy : copy_source os fuel is_move (parse_depth req.headers) .dir src dest existed m₁
      = (res, m₂)) (ha : a ∈ m₂.log) : a ∈ (transfer os fuel req is_move src dest w).2.machine.log := by
  rw [transfer_machine hmeta hover hclear hcopy]
  split
  · exact move_source_log_mono ha
  · exact ha

/-- **A recursive transfer that is inside in every system stays inside on every walk.** -/
theorem transfer_deep_needs (hreal : w.machine.fs.Real src)
    (hmeta : metadata w.machine.fs src = .ok .dir)
    (hover : (metadata w.machine.fs dest).isOk = true → parse_overwrite req.headers = true)
    (hdeep : ¬ (is_move = false ∧ parse_depth req.headers = .Zero))
    (hlog : ∀ os fuel, ∀ a ∈ (transfer os fuel req is_move src dest w).2.machine.log,
      Inside root (Access.loc a)) :
    TransferStays w.machine.fs root is_move (parse_depth req.headers) .dir src dest := by
  have hmay : Clears w.machine.fs .dir dest →
      (parse_overwrite req.headers && (metadata w.machine.fs dest).isOk) = true := clears_may hover
  have hsrc := real_dir hreal hmeta
  unfold TransferStays
  dsimp only
  rw [if_pos rfl, if_neg hdeep]
  refine ⟨fun hclears place hplace => ?_, fun place hmakes => ?_,
    fun tree tr M hbegun hwalk as has a ha => ?_,
    fun hmove tree tr fs' place hbegun hwalk hren => ?_⟩
  · -- what is removed, in a system in which nothing fails
    rcases hclear : clear_dest Os.calm (parse_overwrite req.headers)
      (metadata w.machine.fs dest).isOk .dir dest w.machine with ⟨existed, m₁⟩
    rcases hcopy : copy_source Os.calm 0 is_move (parse_depth req.headers) .dir src dest existed m₁
      with ⟨res, m₂⟩
    obtain ⟨-, hremoved, -⟩ := clear_dest_ok (calm_fault _) hmay hclear
    have hkept : Access.change place ∈ m₂.log := by
      rcases copy_over hdeep hmay hclear hcopy with ⟨-, -, heq⟩ | ⟨tree, log, -, hover', -, hlog'⟩
      · rw [heq]
        exact hremoved place hclears hplace
      · apply hover'.log
        rcases hlog' with rfl | ⟨place', -, rfl⟩
        · exact hremoved place hclears hplace
        · exact List.mem_append_left _ (hremoved place hclears hplace)
    exact hlog Os.calm 0 _ (transfer_log_mono hmeta hover hclear hcopy hkept)
  · obtain ⟨m₀, -, -, hmade, hgo⟩ := copy_begins src hdeep hmay (begun_of_makes hmakes)
    obtain ⟨existed, m₁, hclear, -, hloop⟩ := hgo Os.calm (fun _ _ _ => rfl)
    rcases hcopy : copy_loop Os.calm 0 [(src, dest)] m₀ with ⟨res, m₂⟩
    have hkept := (loop_walks hcopy).log (hmade place hmakes)
    rw [← hloop] at hcopy
    exact hlog Os.calm 0 _ (transfer_log_mono hmeta hover hclear hcopy hkept)
  · obtain ⟨m₀, hfs, -, -, hgo⟩ := copy_begins src hdeep hmay hbegun
    obtain ⟨order, hperm, fuel, htouched⟩ := walk_touches hwalk hfs
    obtain ⟨existed, m₁, hclear, -, hloop⟩ :=
      hgo (listing order hperm (fun _ => false) 0) (fun _ _ _ => rfl)
    have htouch := htouched as has a ha
    rcases hcopy : copy_loop (listing order hperm (fun _ => false) 0) fuel [(src, dest)] m₀ with
      ⟨res, m₂⟩
    have hmem : a ∈ m₂.log := by
      have hgo' : (Moment.between tree [(src, dest)]).go (listing order hperm (fun _ => false) 0) fuel m₀
          = (res, m₂) := hcopy
      rw [hgo'] at htouch
      exact htouch
    rw [← hloop] at hcopy
    exact hlog _ fuel _ (transfer_log_mono hmeta hover hclear hcopy hmem)
  · obtain ⟨m₀, hfs, -, -, hgo⟩ := copy_begins src hdeep hmay hbegun
    obtain ⟨order, hperm, fuel, m', hfs', -, hdone⟩ := walk_done hwalk hfs
    obtain ⟨existed, m₁, hclear, -, hloop⟩ :=
      hgo (listing order hperm (fun _ => false) 0) (fun _ _ _ => rfl)
    have hcopy : copy_source (listing order hperm (fun _ => false) 0) fuel is_move
        (parse_depth req.headers) .dir src dest existed m₁ = (some (.ok ()), m') := by
      rw [hloop]
      exact hdone
    -- the source is still a directory, and it is renamed
    have htree : (cleared w.machine.fs .dir dest).node src = some .dir := by
      rcases hcalm : clear_dest Os.calm (parse_overwrite req.headers)
        (metadata w.machine.fs dest).isOk .dir dest w.machine with ⟨e, m⟩
      have houtcome := clear_dest_cases Os.calm (parse_overwrite req.headers)
        (metadata w.machine.fs dest).isOk .dir dest w.machine
      rw [hcalm] at houtcome
      rw [← (clear_dest_ok (calm_fault _) hmay hcalm).1]
      exact clear_keeps_dir houtcome hsrc
    have hsrc' : m'.fs.node src = some .dir := by
      rw [hfs']
      exact (walk_extends hwalk).keeps.dir ((begun_extends hbegun).keeps.dir htree)
    rw [← hfs'] at hren
    refine hlog (listing order hperm (fun _ => false) 0) fuel (.change place) ?_
    rw [transfer_machine hmeta hover hclear hcopy, if_pos ⟨rfl, hmove⟩, move_source,
      rename_dir_ok rfl hsrc' hren]
    exact List.mem_append_right _ (List.mem_cons_of_mem _ List.mem_cons_self)

end TransferWalk

/-! ## Every request -/

section Requests

variable (cwd : Path) (clock : Clock) (default_hasher : ℕ → UInt64) (req : Request)
  (app : AppState) (fs : Fs)

/-- The path the guard finds for a text. -/
def Guarded (text : List Char) (target : Path) : Prop :=
  (Resolve.resolve_and_guard fs cwd app.root_dir app.root_canonical text app.canonical_cache).1
    = .ok target

def CopyMoveStays (is_move : Bool) : Prop :=
  ∀ text src dest src_type, parse_destination req.headers = some text →
    Resolve.resolve_existing fs cwd app.root_dir app.root_canonical req.uri_path = some src →
    ¬ Spelled app.root_dir text src → Guarded cwd app fs text dest →
    metadata fs src = .ok src_type →
    ((metadata fs dest).isOk = true → parse_overwrite req.headers = true) →
    TransferStays fs app.root_canonical is_move (parse_depth req.headers) src_type src dest

/-- What the tree must be like for a request to stay inside the root. -/
def Stays : Prop :=
  match req.method with
  | .PUT => ∀ target loc, Guarded cwd app fs req.uri_path target → locate fs target = .ok loc →
      fs.node loc ≠ some .dir → Inside app.root_canonical loc
  | .MKCOL => has_body req.headers = false →
      ∀ target, Guarded cwd app fs (trim_end_matches '/' req.uri_path) target →
        EntryStays fs app.root_canonical target
  | .LOCK => ∀ target events, Guarded cwd app fs (trim_end_matches '/' req.uri_path) target →
      req.lock_body = some events →
      ¬ OwnsAncestor clock.first (lock_request req app events target) app.locks →
      app.locks.at target = [] → EntryStays fs app.root_canonical target
  | .COPY => CopyMoveStays cwd req app fs false
  | .MOVE => CopyMoveStays cwd req app fs true
  | _ => True

/-- Whatever the system calls do, all the handler reads of a file and all it changes
lies under the root. -/
def Confined : Prop :=
  ∀ os fuel, ∀ a ∈ (dispatch os cwd clock default_hasher fuel req
    (World.start app fs)).2.machine.log, Inside app.root_canonical (Access.loc a)

theorem guarded_concat {text : List Char} {target : Path} (h : Guarded cwd app fs text target) :
    ∃ d n, target = d ++ [n] := by
  obtain ⟨-, init, n, pc, -, -, -, rfl⟩ := resolve_and_guard_ok_iff.mp h
  exact ⟨pc, n, rfl⟩

/-- A COPY or MOVE that stays inside touches nothing outside. -/
theorem copy_move_confined (hcwd : fs.Real cwd) {is_move : Bool} {os : Os} {fuel : ℕ}
    (hstays : CopyMoveStays cwd req app fs is_move) {a : Access}
    (ha : a ∈ (do_move_or_copy os cwd fuel req is_move (World.start app fs)).2.machine.log) :
    Inside app.root_canonical (Access.loc a) := by
  rcases do_move_or_copy_cases os cwd fuel req is_move (World.start app fs) with
    hnone | ⟨text, src, dest, htext, hsrc, hspelled, hdest, hgo⟩
  · rw [hnone.machine] at ha
    cases ha
  · obtain ⟨-, hreal, hinside⟩ := resolve_existing_some hcwd hsrc
    obtain ⟨d, n, hconcat⟩ := guarded_concat cwd app fs (show Guarded cwd app fs text dest from hdest)
    rw [hgo] at ha
    have hout := transfer_stays hconcat hreal hinside
      (fun src_type hmeta hover => hstays text src dest src_type htext hsrc hspelled hdest hmeta hover)
      ha
    rcases hout with h | h
    · cases h
    · exact h

theorem copy_move_needs (hcwd : fs.Real cwd) {is_move : Bool}
    (hlog : ∀ os fuel, ∀ a ∈ (do_move_or_copy os cwd fuel req is_move (World.start app fs)).2.machine.log,
      Inside app.root_canonical (Access.loc a)) : CopyMoveStays cwd req app fs is_move := by
  intro text src dest src_type htext hsrc hspelled hdest hmeta hover
  obtain ⟨-, hreal, hinside⟩ := resolve_existing_some hcwd hsrc
  obtain ⟨d, n, hconcat⟩ := guarded_concat cwd app fs hdest
  have hgo : ∀ os fuel, do_move_or_copy os cwd fuel req is_move (World.start app fs) =
      transfer os fuel req is_move src dest ((World.start app fs).resolve_and_guard cwd text).2 :=
    fun os fuel => guard_misses htext hsrc hdest hspelled
  have hlog' : ∀ os fuel, ∀ a ∈ (transfer os fuel req is_move src dest
      ((World.start app fs).resolve_and_guard cwd text).2).2.machine.log,
      Inside app.root_canonical (Access.loc a) := by
    intro os fuel a ha
    rw [← hgo] at ha
    exact hlog os fuel a ha
  by_cases hdeep : src_type = .dir ∧ ¬ (is_move = false ∧ parse_depth req.headers = .Zero)
  · obtain ⟨rfl, hdeep⟩ := hdeep
    exact transfer_deep_needs (w := ((World.start app fs).resolve_and_guard cwd text).2) hreal hmeta
      hover hdeep hlog'
  · refine transfer_needs (w := ((World.start app fs).resolve_and_guard cwd text).2) hconcat hreal
      hinside hmeta hover (fun ht => ?_) (hlog' Os.calm 0)
    by_contra hno
    exact hdeep ⟨ht, hno⟩

/-- **Which requests stay under the root.** For every tree, every server state and
every request: a request is confined, whatever the system calls do, if and only if it
`Stays`. -/
theorem confined_iff (hcwd : fs.Real cwd) :
    Confined cwd clock default_hasher req app fs ↔ Stays cwd clock req app fs := by
  unfold Stays Confined dispatch
  cases hreq : req.method with
  | PUT =>
    dsimp only
    -- a confined run needs the place it would write to, since the calls may all succeed
    refine ⟨fun hlog target loc hg hl hdir => ?_, fun hstays os fuel a ha => ?_⟩
    · exact hlog Os.calm 0 (.change loc) (handle_put_calm hg hl hdir)
    · rcases handle_put_log ha with h | ⟨target, loc, hg, hl, hdir, rfl⟩
      · cases h
      · exact hstays target loc hg hl hdir
  | MKCOL =>
    dsimp only
    refine ⟨fun hlog hbody target hg loc hl hnone => ?_, fun hstays os fuel a ha => ?_⟩
    · have hmeta : (metadata fs target).isOk = false := by
        cases hm : metadata fs target with
        | error e => rfl
        | ok t =>
          obtain ⟨q, -, hq, -, -⟩ := metadata_ok hm
          exact absurd hnone (entry_exists hq hl)
      exact hlog Os.calm 0 (.change loc) (handle_mkcol_calm hbody hg hmeta hl hnone)
    · rcases handle_mkcol_log ha with h | ⟨target, loc, hbody, hg, -, hl, hnone, rfl⟩
      · cases h
      · exact hstays hbody target hg loc hl hnone
  | LOCK =>
    dsimp only
    refine ⟨fun hlog target events hg hevents hown hat loc hl hnone => ?_,
      fun hstays os fuel a ha => ?_⟩
    · exact hlog Os.calm 0 (.change loc) (handle_lock_calm hg hevents hown hat hl hnone)
    · rcases handle_lock_log ha with h | ⟨target, loc, events, hg, hevents, hown, hat, hl, hnone, rfl⟩
      · cases h
      · exact hstays target events hg hevents hown hat loc hl hnone
  | COPY =>
    dsimp only
    -- MOVE and COPY share their handler, and both directions with it
    exact ⟨copy_move_needs cwd req app fs hcwd,
      fun hstays os fuel a ha => copy_move_confined cwd req app fs hcwd hstays ha⟩
  | MOVE =>
    dsimp only
    exact ⟨copy_move_needs cwd req app fs hcwd,
      fun hstays os fuel a ha => copy_move_confined cwd req app fs hcwd hstays ha⟩
  | GET =>
    dsimp only
    -- what a GET opens has been resolved, and so stands under the root
    refine ⟨fun _ => trivial, fun _ os fuel a ha => ?_⟩
    rcases handle_get_head_log hcwd ha with h | h
    · cases h
    · exact h
  | HEAD =>
    dsimp only
    refine ⟨fun _ => trivial, fun _ os fuel a ha => ?_⟩
    rcases handle_get_head_log hcwd ha with h | h
    · cases h
    · exact h
  | DELETE =>
    dsimp only
    refine ⟨fun _ => trivial, fun _ os fuel a ha => ?_⟩
    rcases handle_delete_log hcwd ha with h | h
    · cases h
    · exact h
  | PROPPATCH =>
    dsimp only
    refine ⟨fun _ => trivial, fun _ os fuel a ha => ?_⟩
    -- properties are kept in memory: no call is made
    have hmachine : (handle_proppatch cwd req (World.start app fs)).2.machine
        = (World.start app fs).machine := by
      unfold handle_proppatch
      split
      · rfl
      · split
        · rfl
        · rfl
    unfold replies at ha
    rw [hmachine] at ha
    cases ha
  | PROPFIND =>
    dsimp only
    refine ⟨fun _ => trivial, fun _ os fuel a ha => ?_⟩
    unfold replies Server.handle_propfind at ha
    split at ha
    · cases ha
    · split at ha
      · cases ha
      · cases ha
  | UNLOCK =>
    dsimp only
    exact ⟨fun _ => trivial, fun _ os fuel a ha => (by cases ha)⟩
  | OPTIONS =>
    dsimp only
    exact ⟨fun _ => trivial, fun _ os fuel a ha => (by cases ha)⟩
  | PATCH =>
    dsimp only
    exact ⟨fun _ => trivial, fun _ os fuel a ha => (by cases ha)⟩
  | REPORT =>
    dsimp only
    exact ⟨fun _ => trivial, fun _ os fuel a ha => (by cases ha)⟩

end Requests

/-! ## A link at the last name -/

def site : Path := [r_name]

def site_link : Path := [r_name, x_name]

def outside : Path := [o_name]

/-- A directory `/r` with a dangling link `x` to `/o`. -/
def disk_link : Fs :=
  (Fs.empty.set site .dir).set site_link (.symlink (PathBuf.of_text "/o".toList))

def served : AppState := AppState.new disk_link site (PathBuf.of_text "/r".toList) 0

def put_link : Request where
  method := .PUT
  uri_path := "/x".toList
  headers := {}
  body := [1]
  lock_body := none
  proppatch_body := none
  propfind_body := none

/-- A PUT of `/f`, beside the link. -/
def put_beside : Request := { put_link with uri_path := "/f".toList }

theorem confined_iff_beside :
    Confined site ⟨0, 0, 0⟩ (fun _ => 0) put_beside served disk_link := by
  refine (confined_iff site ⟨0, 0, 0⟩ (fun _ => 0) put_beside served disk_link
    ⟨.dir, by decide, fun t => by simp⟩).mpr ?_
  intro target loc hg hl _
  have hguarded : Guarded site served disk_link put_beside.uri_path [r_name, f_name] := by
    unfold Guarded
    decide
  have htarget := hg.symm.trans hguarded
  cases htarget
  have hplace : locate disk_link [r_name, f_name] = .ok [r_name, f_name] := by decide
  rw [hplace] at hl
  cases hl
  show Path.starts_with [r_name, f_name] served.root_canonical = true
  decide

/-- A PUT of `/x` served from `/r` creates `/o`. -/
theorem put_through_link :
    ¬ Confined site ⟨0, 0, 0⟩ (fun _ => 0) put_link served disk_link := by
  intro h
  have hcreated : Access.change outside ∈
      (dispatch Os.calm site ⟨0, 0, 0⟩ (fun _ => 0) 0 put_link
        (World.start served disk_link)).2.machine.log := by decide
  have hinside : Path.starts_with outside served.root_canonical = true :=
    h Os.calm 0 _ hcreated
  revert hinside
  decide

end Rshs.Confinement
