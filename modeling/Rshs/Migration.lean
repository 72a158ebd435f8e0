/-
What becomes of the dead properties when a resource is copied or moved.

The store is keyed by path, and a COPY or MOVE touches two of its keys only, the
source and the destination themselves: nothing is migrated below them, and what the
destination had stays when the source has no entry. `props_follow_iff` is the exact
condition on the store beforehand under which the properties follow every resource
of the source tree all the same.
-/
import Rshs.CopyMove

set_option autoImplicit false

namespace Rshs.Migration

open StdPath Posix FinMap Rshs.Webdav Rshs.Resolve Rshs.App Rshs.CopyMove

/-! ## What is recorded -/

/-- The properties recorded for a path. -/
def recorded (dead_props : DeadPropertyStore) (p : Path) (name : String) : Option String :=
  (get_or ∅ p dead_props).lookup name

theorem recorded_insert (dead_props : DeadPropertyStore) (p q : Path) (m : Map String String) :
    recorded (dead_props.insert p m) q = if q = p then m.lookup else recorded dead_props q := by
  funext name
  unfold recorded
  by_cases hq : q = p
  · rw [if_pos hq, hq, get_or_insert]
  · rw [if_neg hq, get_or_insert_ne ∅ hq]

theorem recorded_erase (dead_props : DeadPropertyStore) (p q : Path) :
    recorded (dead_props.erase p) q = if q = p then fun _ => none else recorded dead_props q := by
  funext name
  unfold recorded get_or
  by_cases hq : q = p
  · rw [if_pos hq, hq, AList.lookup_erase]
    rfl
  · rw [if_neg hq, AList.lookup_erase_ne hq]

theorem recorded_of_lookup {dead_props : DeadPropertyStore} {p : Path} {m : Map String String}
    (h : dead_props.lookup p = some m) : recorded dead_props p = m.lookup := by
  funext name
  unfold recorded get_or
  rw [h]
  rfl

theorem recorded_of_none {dead_props : DeadPropertyStore} {p : Path}
    (h : dead_props.lookup p = none) : recorded dead_props p = fun _ => none := by
  funext name
  unfold recorded get_or
  rw [h]
  rfl

/-! ## What the migration records -/

section Migrate

variable {is_move : Bool} {src dest : Path} {dead_props : DeadPropertyStore}

/-- Other paths keep what they had. -/
theorem recorded_migrate_other {p : Path} (hsrc : p ≠ src) (hdest : p ≠ dest) :
    recorded (migrate_props is_move src dest dead_props) p = recorded dead_props p := by
  unfold migrate_props
  split
  · rfl
  · dsimp only
    rw [recorded_insert, if_neg hdest]
    split
    · rw [recorded_erase, if_neg hsrc]
    · rw [recorded_insert, if_neg hsrc, recorded_erase, if_neg hsrc]

/-- The destination gets what the source had, if the source had an entry. -/
theorem recorded_migrate_dest :
    recorded (migrate_props is_move src dest dead_props) dest =
      if dead_props.lookup src = none then recorded dead_props dest else recorded dead_props src := by
  unfold migrate_props
  split
  · rename_i hnone
    rw [if_pos hnone]
  · rename_i props hprops
    dsimp only
    rw [recorded_insert, if_pos rfl, if_neg (by rw [hprops]; simp), recorded_of_lookup hprops]

/-- After a MOVE nothing is recorded for the source. -/
theorem recorded_migrate_src (hne : src ≠ dest) :
    recorded (migrate_props true src dest dead_props) src = fun _ => none := by
  unfold migrate_props
  split
  · rename_i hnone
    exact recorded_of_none hnone
  · dsimp only
    rw [recorded_insert, if_neg hne, if_pos rfl, recorded_erase, if_pos rfl]

end Migrate

/-! ## When the properties follow -/

/-- For every path `r` of the source tree: what is recorded for `dest/r` is what was
recorded for `src/r`, and after a MOVE nothing is recorded for `src/r`. -/
def Follow (fs : Fs) (is_move : Bool) (src dest : Path) (before after : DeadPropertyStore) : Prop :=
  ∀ r : Path, fs.node (src ++ r) ≠ none →
    (∀ name, recorded after (dest ++ r) name = recorded before (src ++ r) name) ∧
      (is_move = true → ∀ name, recorded after (src ++ r) name = none)

/-- The store beforehand, so that the migration of the two roots is enough. -/
structure Settled (fs : Fs) (is_move : Bool) (src dest : Path) (dead_props : DeadPropertyStore) :
    Prop where
  /-- The source has an entry, or the destination has no properties. -/
  root : dead_props.lookup src ≠ none ∨ ∀ name, recorded dead_props dest name = none
  /-- What is in the source tree has the properties already that its copy would get. -/
  below : ∀ r : Path, r ≠ [] → fs.node (src ++ r) ≠ none → ∀ name,
    recorded dead_props (dest ++ r) name = recorded dead_props (src ++ r) name
  /-- A MOVE leaves no properties behind, if there are none. -/
  moved : is_move = true → ∀ r : Path, r ≠ [] → fs.node (src ++ r) ≠ none → ∀ name,
    recorded dead_props (src ++ r) name = none

theorem migrate_follow_iff {fs : Fs} {is_move : Bool} {src dest : Path}
    {dead_props : DeadPropertyStore} (hsrc : fs.node src ≠ none) (hbelow : ¬ src <+: dest)
    (habove : ¬ dest <+: src) :
    Follow fs is_move src dest dead_props (migrate_props is_move src dest dead_props) ↔
      Settled fs is_move src dest dead_props := by
  have hne : src ≠ dest := fun heq => hbelow (by rw [heq])
  have hmember : ∀ r : Path, r ≠ [] →
      recorded (migrate_props is_move src dest dead_props) (dest ++ r)
          = recorded dead_props (dest ++ r) ∧
        recorded (migrate_props is_move src dest dead_props) (src ++ r)
          = recorded dead_props (src ++ r) := by
    intro r hr
    have hds : dest ++ r ≠ src := fun heq => habove ⟨r, heq⟩
    have hsd : src ++ r ≠ dest := fun heq => hbelow ⟨r, heq⟩
    exact ⟨recorded_migrate_other hds (by simpa using hr),
      recorded_migrate_other (by simpa using hr) hsd⟩
  constructor
  · intro hfollow
    refine ⟨?_, ?_, ?_⟩
    · by_contra hroot
      rw [not_or, not_not] at hroot
      -- the source has no entry, so the destination keeps what it had
      apply hroot.2
      intro name
      have hname := (hfollow [] (by rw [List.append_nil]; exact hsrc)).1 name
      rw [List.append_nil, List.append_nil, recorded_migrate_dest, if_pos hroot.1,
        recorded_of_none hroot.1] at hname
      exact hname
    · intro r hr hnode name
      rw [← (hmember r hr).1]
      exact (hfollow r hnode).1 name
    · intro hmove r hr hnode name
      rw [← (hmember r hr).2]
      exact (hfollow r hnode).2 hmove name
  · intro hsettled r hnode
    by_cases hr : r = []
    · rw [hr, List.append_nil, List.append_nil]
      constructor
      · intro name
        rw [recorded_migrate_dest]
        by_cases hnone : dead_props.lookup src = none
        · rw [if_pos hnone, recorded_of_none hnone]
          exact hsettled.root.resolve_left (not_not.mpr hnone) name
        · rw [if_neg hnone]
      · intro hmove name
        rw [hmove, recorded_migrate_src hne]
    · rw [(hmember r hr).1, (hmember r hr).2]
      exact ⟨hsettled.below r hr hnode, fun hmove => hsettled.moved hmove r hr hnode⟩

/-! ## The request -/

section Request

variable {os : Os} {cwd : Path} {fuel : ℕ} {req : Request} {is_move : Bool} {w w' : World}
  {src dest : Path} {text : List Char} {status : StatusCode}

/-- A COPY or MOVE that succeeds has migrated the two roots, and nothing else. -/
theorem transfer_props (h : transfer os fuel req is_move src dest w = (some (.ok status), w')) :
    w'.app.dead_props = migrate_props is_move src dest w.app.dead_props := by
  unfold transfer at h
  dsimp only at h
  split at h
  · cases h
  · split at h
    · cases h
    · split at h
      · cases h
      · cases h
      · cases h
        cases is_move with
        | true => rfl
        | false => rfl

theorem guard_dead_props (cwd : Path) (w : World) (text : List Char) :
    (w.resolve_and_guard cwd text).2.app.dead_props = w.app.dead_props := rfl

/-- **When dead properties follow the resource.** For every tree, every store and
every successful COPY or MOVE between paths of which neither is above the other: the
properties follow if and only if the store was settled. -/
theorem props_follow_iff (hcwd : w.machine.fs.Real cwd)
    (h : do_move_or_copy os cwd fuel req is_move w = (some (.ok status), w'))
    (htext : parse_destination req.headers = some text)
    (hsrc : w.resolve_existing cwd req.uri_path = some src)
    (hdest : (w.resolve_and_guard cwd text).1 = .ok dest)
    (hbelow : ¬ src <+: dest) (habove : ¬ dest <+: src) :
    Follow w.machine.fs is_move src dest w.app.dead_props w'.app.dead_props ↔
      Settled w.machine.fs is_move src dest w.app.dead_props := by
  have hthere : w.machine.fs.node src ≠ none := by
    obtain ⟨-, ⟨x, hx, -⟩, -⟩ := resolve_existing_some hcwd hsrc
    rw [hx]
    simp
  by_cases hspelled : Spelled w.app.root_dir text src
  · -- the guard against copying onto itself refuses
    rw [guard_hits htext hsrc (resolve_and_guard_ok_iff.mp hdest).1 hspelled] at h
    cases h
  · rw [guard_misses htext hsrc hdest hspelled] at h
    rw [transfer_props h, guard_dead_props]
    exact migrate_follow_iff hthere hbelow habove

end Request

/-! ## A member whose properties stay behind -/

/-- A server of `/` that has recorded the property `{}p` for `/d/f`. -/
def server_d : World :=
  World.start
    { AppState.new disk_df [] (PathBuf.of_text "/".toList) 0 with
      dead_props := AList.insert [d_name, f_name] (AList.insert "{}p" "v" ∅) ∅ } disk_df

/-- MOVE of `/d` to `/e`. -/
def move_d : Request where
  method := .MOVE
  uri_path := "/d".toList
  headers := { destination := some (IfHeader.header_value "/e") }
  body := []
  lock_body := none
  proppatch_body := none
  propfind_body := none

def moved_d : Option AppResult × World := do_move_or_copy Os.calm [] 3 move_d true server_d

/-- MOVE of `/d/f` itself to `/e`. -/
def moved_f : Option AppResult × World :=
  do_move_or_copy Os.calm [] 0 { move_d with uri_path := "/d/f".toList } true server_d

theorem moved_f_succeeds : moved_f = (some (.ok .CREATED), moved_f.2) :=
  Prod.ext (show moved_f.1 = some (.ok .CREATED) by decide) rfl

/-- A file is settled where nothing is recorded for the destination. -/
theorem settled_f : Settled disk_df true [d_name, f_name] [e_name] server_d.app.dead_props := by
  have hbelow : ∀ r : Path, r ≠ [] → disk_df.node ([d_name, f_name] ++ r) = none := by
    intro r hr
    by_contra hnode
    have hknown : [d_name, f_name] ++ r ∈ disk_df.known := disk_df.mem_known _ hnode
    have hlength : ∀ q ∈ disk_df.known, q.length ≤ 2 := by decide
    have hle := hlength _ hknown
    have hpos := List.length_pos_iff.mpr hr
    rw [List.length_append] at hle
    exact absurd hle (by simp; omega)
  exact ⟨Or.inl (by decide), fun r hr hnode => absurd (hbelow r hr) hnode,
    fun _ r hr hnode => absurd (hbelow r hr) hnode⟩

theorem props_follow_f :
    recorded server_d.app.dead_props [d_name, f_name] "{}p" = some "v" ∧
      Follow disk_df true [d_name, f_name] [e_name] server_d.app.dead_props
        moved_f.2.app.dead_props :=
  ⟨by decide, (props_follow_iff real_root moved_f_succeeds (show _ = some "/e".toList by decide)
    (by decide) (by decide) (by decide) (by decide)).mpr settled_f⟩

/-- The property of `/d/f` is neither at `/e/f` afterwards nor gone from `/d/f`. -/
theorem member_props_lost :
    ¬ Follow disk_df true [d_name] [e_name] server_d.app.dead_props moved_d.2.app.dead_props := by
  intro hfollow
  have hmember := hfollow [f_name] (by decide)
  have hkept : recorded moved_d.2.app.dead_props ([d_name] ++ [f_name]) "{}p" = some "v" := by decide
  rw [hmember.2 rfl "{}p"] at hkept
  cases hkept

end Rshs.Migration
