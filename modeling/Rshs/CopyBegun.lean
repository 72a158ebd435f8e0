/-
The walk of a recursive COPY or MOVE, from the tree its request finds.

Before the loop a file that is in the way of the destination is removed, and a directory is
made there unless there is one. `begun` is the tree this leaves when no call fails, and
nothing where the directory cannot be made. The phases of the copy come to the loop with that
tree and no other (`copy_enters`), and they do come to it in every system in which their own
calls do not fail (`copy_begins`).

`CanCopy` says that a copy can succeed: some walk ends, or the file can be opened at both
its places. A copy that succeeds can (`can_copy_of_ok`), and one that can does in some system in
which no call fails (`ok_of_can_copy`).
-/
import Rshs.CopyWalk
import Rshs.Transfer

set_option autoImplicit false

namespace Rshs.CopyBegun

open StdPath Posix Rshs.Webdav Rshs.CopyMove Rshs.CopyRun Rshs.CopyWalk Rshs.Transfer

/-- The destination stands, and is not of the wrong type for a directory. -/
def Stands (fs : Fs) (dest : Path) : Prop :=
  (metadata fs dest).isOk = true ∧ ¬ Clears fs .dir dest

instance (fs : Fs) (dest : Path) : Decidable (Stands fs dest) :=
  inferInstanceAs (Decidable (_ ∧ _))

/-- The tree in which the loop of a recursive copy begins. -/
def begun (fs : Fs) (dest : Path) : Option Fs :=
  if Stands fs dest then some fs
  else
    match locate_entry (cleared fs .dir dest) dest with
    | .error _ => none
    | .ok place =>
      if (cleared fs .dir dest).node place = none then some ((cleared fs .dir dest).set place .dir)
      else none

/-- Where the directory of the destination is made, if it is. -/
def Makes (fs : Fs) (dest place : Path) : Prop :=
  ¬ Stands fs dest ∧ locate_entry (cleared fs .dir dest) dest = .ok place ∧
    (cleared fs .dir dest).node place = none

section Begun

variable {fs tree : Fs} {dest place : Path}

theorem begun_of_stands (h : Stands fs dest) : begun fs dest = some fs := if_pos h

theorem begun_of_makes (h : Makes fs dest place) :
    begun fs dest = some ((cleared fs .dir dest).set place .dir) := by
  obtain ⟨hnot, hl, hnone⟩ := h
  unfold begun
  rw [if_neg hnot, hl]
  dsimp only
  rw [if_pos hnone]

theorem begun_cases (h : begun fs dest = some tree) :
    (Stands fs dest ∧ tree = fs) ∨
      ∃ place, Makes fs dest place ∧ tree = (cleared fs .dir dest).set place .dir := by
  unfold begun at h
  split at h
  · rename_i hstands
    cases h
    exact Or.inl ⟨hstands, rfl⟩
  · rename_i hnot
    split at h
    · cases h
    · rename_i place hl
      split at h
      · rename_i hnone
        cases h
        exact Or.inr ⟨place, ⟨hnot, hl, hnone⟩, rfl⟩
      · cases h

/-- The tree that is begun with has all of the cleared one. -/
theorem begun_extends (h : begun fs dest = some tree) :
    (cleared fs .dir dest).Extends tree := by
  rcases begun_cases h with ⟨hstands, rfl⟩ | ⟨place, ⟨-, hl, hnone⟩, rfl⟩
  · rw [cleared_of_not hstands.2]
    exact Fs.Extends.refl _
  · exact Fs.extends_set_dir (slot_of_free hl hnone) hnone

end Begun

/-! ## The phases before the loop -/

section Phases

variable {os : Os} {fuel : ℕ} {overwrite is_move existed : Bool} {depth : Depth}
  {src dest : Path} {m m₁ m₂ : Machine} {res : Option (Except StatusCode Unit)}

theorem copy_source_deep (hdeep : ¬ (is_move = false ∧ depth = .Zero)) (existed : Bool) (m : Machine) :
    copy_source os fuel is_move depth .dir src dest existed m = copy_dir os fuel src dest existed m := by
  unfold copy_source
  rw [if_pos rfl, if_neg hdeep]

/-- **A recursive copy fails before its loop, or comes to it** with the tree that is begun
with. -/
theorem copy_enters (src : Path) (hdeep : ¬ (is_move = false ∧ depth = .Zero))
    (hmay : Clears m.fs .dir dest → (overwrite && (metadata m.fs dest).isOk) = true)
    (hclear : clear_dest os overwrite (metadata m.fs dest).isOk .dir dest m = (existed, m₁)) :
    (∃ m₂, (∀ fuel, copy_source os fuel is_move depth .dir src dest existed m₁
        = (some (.error .INTERNAL_SERVER_ERROR), m₂)) ∧ m₂.fs = m₁.fs ∧ m₂.log = m₁.log) ∨
      ∃ tree m₀, begun m.fs dest = some tree ∧ m₀.fs = tree ∧ m₁.fs = cleared m.fs .dir dest ∧
        (m₀.log = m₁.log ∨ ∃ place, Makes m.fs dest place ∧ m₀.log = m₁.log ++ [.change place]) ∧
        ∀ fuel, copy_source os fuel is_move depth .dir src dest existed m₁
          = copy_loop os fuel [(src, dest)] m₀ := by
  have houtcome := clear_dest_cases os overwrite (metadata m.fs dest).isOk .dir dest m
  rw [hclear] at houtcome
  simp only [copy_source_deep hdeep]
  -- where the directory is made
  have hmake : ¬ Stands m.fs dest → m₁.fs = cleared m.fs .dir dest →
      (∃ m₂, (∀ fuel, copy_dir os fuel src dest false m₁
          = (some (.error .INTERNAL_SERVER_ERROR), m₂)) ∧ m₂.fs = m₁.fs ∧ m₂.log = m₁.log) ∨
        ∃ tree m₀, begun m.fs dest = some tree ∧ m₀.fs = tree ∧ m₁.fs = cleared m.fs .dir dest ∧
          (m₀.log = m₁.log ∨ ∃ place, Makes m.fs dest place ∧ m₀.log = m₁.log ++ [.change place]) ∧
          ∀ fuel, copy_dir os fuel src dest false m₁ = copy_loop os fuel [(src, dest)] m₀ := by
    intro hnot htree
    rcases make_cases os .dir dest m₁ with ⟨e, he⟩ | ⟨place, hl, hnone, -, he⟩
    · refine Or.inl ⟨m₁.tick, fun fuel => ?_, rfl, rfl⟩
      rw [copy_dir, if_neg Bool.false_ne_true, create_dir, he]
    · rw [htree] at hl hnone
      have hmakes : Makes m.fs dest place := ⟨hnot, hl, hnone⟩
      refine Or.inr ⟨_, m₁.tick.set place .dir, begun_of_makes hmakes, ?_, htree,
        Or.inr ⟨place, hmakes, rfl⟩, fun fuel => ?_⟩
      · rw [set_fs, tick_fs, htree]
      · rw [copy_dir, if_neg Bool.false_ne_true, create_dir, he]
  cases houtcome with
  | kept hnot =>
    have hno : ¬ Clears m.fs .dir dest := fun hc => hnot ⟨hmay hc, hc⟩
    by_cases hex : (metadata m.fs dest).isOk = true
    · refine Or.inr ⟨_, m, begun_of_stands ⟨hex, hno⟩, rfl, (cleared_of_not hno).symm, Or.inl rfl,
        fun fuel => ?_⟩
      rw [copy_dir, if_pos hex]
    · rw [Bool.not_eq_true] at hex
      rw [hex]
      exact hmake (fun hs => Bool.false_ne_true (hex.symm.trans hs.1)) (cleared_of_not hno).symm
  | removed place _ _ hclears he _ hfs _ =>
    refine hmake (fun hs => hs.2 hclears) ?_
    rw [hfs, cleared_of_entry hclears he]
  | failed _ _ hclears _ _ hsame _ =>
    -- the file that is still there is in the way
    rcases make_cases os .dir dest m₁ with ⟨e, he⟩ | ⟨place, hl, hnone, -, -⟩
    · refine Or.inl ⟨m₁.tick, fun fuel => ?_, rfl, rfl⟩
      rw [copy_dir, if_neg Bool.false_ne_true, create_dir, he]
    · rw [hsame rfl] at hl hnone
      exact absurd hnone (clears_blocks_dir hclears hl)

/-- **A recursive copy is over before its loop, or its loop has walked** from the tree that is
begun with. -/
theorem copy_over (hdeep : ¬ (is_move = false ∧ depth = .Zero))
    (hmay : Clears m.fs .dir dest → (overwrite && (metadata m.fs dest).isOk) = true)
    (hclear : clear_dest os overwrite (metadata m.fs dest).isOk .dir dest m = (existed, m₁))
    (hcopy : copy_source os fuel is_move depth .dir src dest existed m₁ = (res, m₂)) :
    (res = some (.error .INTERNAL_SERVER_ERROR) ∧ m₂.fs = m₁.fs ∧ m₂.log = m₁.log) ∨
      ∃ tree log, begun m.fs dest = some tree ∧ Over (.between tree [(src, dest)]) log res m₂ ∧
        (m₁.fs = cleared m.fs .dir dest) ∧
        (log = m₁.log ∨ ∃ place, Makes m.fs dest place ∧ log = m₁.log ++ [.change place]) := by
  rcases copy_enters src hdeep hmay hclear with
    ⟨m', hgo, hfs, hlog⟩ | ⟨tree, m₀, hbegun, hfs, htree, hlog, hgo⟩
  · rw [hgo fuel] at hcopy
    cases hcopy
    exact Or.inl ⟨rfl, hfs, hlog⟩
  · rw [hgo fuel] at hcopy
    have hover := loop_walks hcopy
    rw [hfs] at hover
    exact Or.inr ⟨tree, m₀.log, hbegun, hover, htree, hlog⟩

/-- The first phase depends on its one call only. -/
theorem clear_dest_calm {src_type : FileType} (hf : os.fault m.calls = false) (existed : Bool) :
    clear_dest os overwrite existed src_type dest m
      = clear_dest Os.calm overwrite existed src_type dest m := by
  have hdir : remove_dir_all os dest m = remove_dir_all Os.calm dest m := by
    unfold remove_dir_all
    rw [hf]
    rfl
  have hfile : remove_file os dest m = remove_file Os.calm dest m := by
    unfold remove_file
    rw [syscall_ok hf, syscall_ok (calm_fault m.calls)]
  unfold clear_dest
  rw [hdir, hfile]

/-- **The loop is come to**, with the tree that is begun with, in every system in which the
calls before it do not fail. -/
theorem copy_begins (src : Path) {tree : Fs} (hdeep : ¬ (is_move = false ∧ depth = .Zero))
    (hmay : Clears m.fs .dir dest → (overwrite && (metadata m.fs dest).isOk) = true)
    (hbegun : begun m.fs dest = some tree) :
    ∃ m₀, m₀.fs = tree ∧ m.calls ≤ m₀.calls ∧
      (∀ place, Makes m.fs dest place → Access.change place ∈ m₀.log) ∧
      ∀ os, (∀ n, m.calls ≤ n → n < m₀.calls → os.fault n = false) → ∃ existed m₁,
        clear_dest os overwrite (metadata m.fs dest).isOk .dir dest m = (existed, m₁) ∧
        (∀ a ∈ m₁.log, a ∈ m₀.log) ∧
        ∀ fuel, copy_source os fuel is_move depth .dir src dest existed m₁
          = copy_loop os fuel [(src, dest)] m₀ := by
  rcases hclear : clear_dest Os.calm overwrite (metadata m.fs dest).isOk .dir dest m with ⟨existed, m₁⟩
  obtain ⟨hfs, -, hgone, hkept⟩ := clear_dest_ok (calm_fault m.calls) hmay hclear
  rcases begun_cases hbegun with ⟨hstands, rfl⟩ | ⟨place, ⟨hnot, hl, hnone⟩, rfl⟩
  · -- nothing is done before the loop
    refine ⟨m, rfl, le_rfl, fun place hp => absurd hstands hp.1, fun os _ => ?_⟩
    have houtcome := clear_dest_cases os overwrite (metadata m.fs dest).isOk .dir dest m
    rcases hclear' : clear_dest os overwrite (metadata m.fs dest).isOk .dir dest m with ⟨existed', m₁'⟩
    rw [hclear'] at houtcome
    cases houtcome with
    | kept _ =>
      refine ⟨_, _, rfl, fun a ha => ha, fun fuel => ?_⟩
      rw [copy_source_deep hdeep, copy_dir, if_pos hstands.1]
    | removed _ _ _ hc _ _ _ _ => exact absurd hc hstands.2
    | failed _ _ hc _ _ _ _ => exact absurd hc hstands.2
  · -- the directory is made by the call that follows the removal, if there is one
    rw [← hfs] at hl hnone
    have hgo : ∀ os : Os, os.fault m₁.calls = false → ∀ fuel,
        copy_source os fuel is_move depth .dir src dest false m₁
          = copy_loop os fuel [(src, dest)] (m₁.tick.set place .dir) := by
      intro os hf fuel
      have hmk : create_dir os dest m₁ = (.ok (), m₁.tick.set place .dir) := make_ok hf hl hnone
      rw [copy_source_deep hdeep, copy_dir, if_neg Bool.false_ne_true, hmk]
    have hcalls : (m₁.tick.set place .dir).calls = m₁.calls + 1 := rfl
    have hle : m.calls ≤ m₁.calls ∧ existed = false := by
      by_cases hc : Clears m.fs .dir dest
      · obtain ⟨hex, hcount⟩ := hgone hc
        exact ⟨by omega, hex⟩
      · obtain ⟨hex, rfl⟩ := hkept hc
        refine ⟨le_rfl, ?_⟩
        rw [hex]
        by_contra hno
        exact hnot ⟨by simpa using hno, hc⟩
    refine ⟨m₁.tick.set place .dir, by rw [set_fs, tick_fs, hfs], by rw [hcalls]; omega,
      fun place' hp => ?_, fun os hf => ⟨existed, m₁, ?_, fun a ha => List.mem_append_left _ ha, ?_⟩⟩
    · have hsame : place' = place := by
        obtain ⟨-, hl', -⟩ := hp
        rw [← hfs, hl] at hl'
        exact (Except.ok.inj hl').symm
      rw [hsame]
      exact List.mem_append_right _ List.mem_cons_self
    · rw [hcalls] at hf
      rw [clear_dest_calm (hf m.calls le_rfl (by omega)), hclear]
    · rw [hcalls] at hf
      rw [hle.2]
      exact hgo os (hf m₁.calls hle.1 (Nat.lt_succ_self _))

end Phases

/-! ## Copies that can succeed -/

/-- A copy of what stands at `src` to `dest` can succeed, with everything below it if it is a
directory. -/
def CanCopy (fs : Fs) (src_type : FileType) (src dest : Path) : Prop :=
  if src_type = .dir then
    ∃ tree tr fs', begun fs dest = some tree ∧ Walk (.between tree [(src, dest)]) tr (.between fs' [])
  else ∃ q loc, Copied (cleared fs src_type dest) src dest q loc

section CanCopy

variable {os : Os} {fuel : ℕ} {overwrite is_move existed : Bool} {depth : Depth}
  {src_type : FileType} {src dest : Path} {m m₁ m₂ : Machine}

/-- Then there is a directory for the destination. -/
theorem parent_of_can_copy {fs : Fs} (hne : dest ≠ []) (h : CanCopy fs src_type src dest) :
    ∃ d, follow (cleared fs src_type dest) dest.dropLast = .ok d := by
  unfold CanCopy at h
  split at h
  · rename_i ht
    subst ht
    obtain ⟨tree, tr, fs', hbegun, -⟩ := h
    rcases begun_cases hbegun with ⟨⟨hfound, hno⟩, -⟩ | ⟨place, ⟨-, hl, -⟩, -⟩
    · -- what is found is found in its directory
      rw [cleared_of_not hno]
      cases hm : metadata fs dest with
      | error e =>
        rw [hm] at hfound
        cases hfound
      | ok t =>
        obtain ⟨q, -, hq, -, -⟩ := metadata_ok hm
        exact follow_dropLast hne (locate_of_follow hq)
    · obtain ⟨d, -, -, hd, -, -, -⟩ := locate_entry_ok hl
      exact ⟨d, hd⟩
  · obtain ⟨q, loc, hcopied⟩ := h
    exact follow_dropLast hne hcopied.dest

/-- A copy that succeeds can. -/
theorem can_copy_of_ok (hdeep : ¬ (is_move = false ∧ depth = .Zero))
    (hmay : Clears m.fs src_type dest → (overwrite && (metadata m.fs dest).isOk) = true)
    (hclear : clear_dest os overwrite (metadata m.fs dest).isOk src_type dest m = (existed, m₁))
    (hcopy : copy_source os fuel is_move depth src_type src dest existed m₁ = (some (.ok ()), m₂)) :
    CanCopy m.fs src_type src dest := by
  unfold CanCopy
  split
  · rename_i ht
    subst ht
    rcases copy_over hdeep hmay hclear hcopy with ⟨hres, -, -⟩ | ⟨tree, log, hbegun, hover, -, -⟩
    · cases hres
    · cases hover with
      | done tr _ hwalk _ => exact ⟨tree, tr, m₂.fs, hbegun, hwalk⟩
  · rename_i ht
    have houtcome := clear_dest_cases os overwrite (metadata m.fs dest).isOk src_type dest m
    rw [hclear] at houtcome
    unfold copy_source copy_file at hcopy
    rw [if_neg ht] at hcopy
    rcases copy_cases os src dest m₁ with
      ⟨e, m', hc, -, -⟩ | ⟨q, c, loc, hq, hn, hl, hslot, r, m', bytes, hc, -, -, -⟩
    · rw [hc] at hcopy
      cases hcopy
    · rw [← tree_for_file houtcome hmay ht hl hslot.2.2]
      exact ⟨q, loc, hq, ⟨c, hn⟩, hl, hslot.2.2⟩

/-- **A copy that can succeed does**, in a system in which no call fails. -/
theorem ok_of_can_copy (is_move : Bool) {depth : Depth} (hdeep : ¬ (is_move = false ∧ depth = .Zero))
    (hmay : Clears m.fs src_type dest → (overwrite && (metadata m.fs dest).isOk) = true)
    (hcan : CanCopy m.fs src_type src dest) :
    ∃ order hperm fuel existed m₁ m₂,
      clear_dest (listing order hperm (fun _ => false) 0) overwrite (metadata m.fs dest).isOk src_type
        dest m = (existed, m₁) ∧
      copy_source (listing order hperm (fun _ => false) 0) fuel is_move depth src_type src dest existed
        m₁ = (some (.ok ()), m₂) := by
  unfold CanCopy at hcan
  split at hcan
  · rename_i ht
    subst ht
    obtain ⟨tree, tr, fs', hbegun, hwalk⟩ := hcan
    obtain ⟨m₀, hfs, -, -, hgo⟩ := copy_begins src hdeep hmay hbegun
    obtain ⟨order, hperm, fuel, m', -, -, hdone⟩ := walk_done hwalk hfs
    obtain ⟨existed, m₁, hclear, -, hloop⟩ :=
      hgo (listing order hperm (fun _ => false) 0) (fun _ _ _ => rfl)
    refine ⟨order, hperm, fuel, existed, m₁, m', hclear, ?_⟩
    rw [hloop]
    exact hdone
  · rename_i ht
    obtain ⟨q, loc, hq, ⟨c, hc⟩, hl, hdir⟩ := hcan
    rcases hclear : clear_dest (listing (fun _ l => l) (fun _ _ => List.Perm.refl _) (fun _ => false) 0)
      overwrite (metadata m.fs dest).isOk src_type dest m with ⟨existed, m₁⟩
    obtain ⟨hfs, -⟩ := clear_dest_ok rfl hmay hclear
    rw [← hfs] at hq hc hl hdir
    have hcopy : copy (listing (fun _ l => l) (fun _ _ => List.Perm.refl _) (fun _ => false) 0)
        src dest m₁ = _ := copy_ok rfl rfl rfl hq hc hl hdir
    refine ⟨_, _, 0, existed, m₁, ((m₁.tick.read q).tick.set loc (.file [])).tick.set loc
      (.file ((m₁.fs.set loc (.file [])).content q)), hclear, ?_⟩
    unfold copy_source copy_file
    rw [if_neg ht, hcopy]

end CanCopy

end Rshs.CopyBegun
