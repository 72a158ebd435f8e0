/-
What a handler leaves of the tree.

A path is `Present` if it leads somewhere, and stays so in a tree that keeps what there was
(`Present.keeps`). The system calls that only add keep all of it. What the others may take
away is said by a tree of which they keep all: a removal keeps the one without what is at or
below its path, a COPY or MOVE the one in which the destination is cleared (`copied_keeps`),
and the last phase of a MOVE that one without its source, and without a link that a file is
renamed onto (`move_source_keeps`). And the destination of a copy that has succeeded is
present (`dest_present`).
-/
import Rshs.CopyBegun

set_option autoImplicit false

namespace Rshs.Losses

open StdPath Posix Rshs.Webdav Rshs.App Rshs.CopyMove Rshs.CopyRun Rshs.Transfer Rshs.CopyBegun

/-! ## Paths that lead somewhere -/

/-- What `metadata` finds exists: the path leads somewhere. -/
def Present (fs : Fs) (p : Path) : Prop := (metadata fs p).isOk = true

instance (fs : Fs) (p : Path) : Decidable (Present fs p) := inferInstanceAs (Decidable (_ = true))

section Present

variable {fs fs' : Fs} {p place : Path}

theorem present_iff : Present fs p ↔ ∃ q, follow fs p = .ok q := by
  unfold Present metadata
  cases hq : follow fs p with
  | error e => simp [Except.isOk, Except.toBool]
  | ok q =>
    obtain ⟨x, hx, -⟩ := follow_real hq
    simp [hx, Except.isOk, Except.toBool]

theorem Present.keeps (h : Present fs p) (hk : fs.Keeps fs') : Present fs' p := by
  obtain ⟨q, hq⟩ := present_iff.mp h
  exact present_iff.mpr ⟨q, follow_keeps hk hq⟩

theorem present_real (h : fs.Real p) : Present fs p := present_iff.mpr ⟨p, follow_self h⟩

/-- An entry that is no link is led to. -/
theorem present_entry (he : locate_entry fs p = .ok place) (hreal : fs.Real place) :
    Present fs p := by
  have hfollow := @follow_below fs p place [] he (by rw [List.append_nil]; exact hreal)
  rw [List.append_nil, List.append_nil] at hfollow
  exact present_iff.mpr ⟨place, hfollow⟩

end Present

/-! ## Calls that only add -/

section Phases

variable {src_type : FileType} {src dest : Path} {existed : Bool} {m m₁ : Machine}

/-- A copy only adds to the tree. -/
theorem copy_extends (os : Os) (src dest : Path) (m : Machine) :
    m.fs.Extends (copy os src dest m).2.fs := by
  rcases copy_cases os src dest m with
    ⟨e, m', hc, hfs, -⟩ | ⟨s, c, loc, -, -, hl, hslot, r, m', bytes, hc, hfs, -, -⟩
  · rw [hc]
    dsimp only
    rw [hfs]
    exact Fs.Extends.refl _
  · rw [hc]
    dsimp only
    rw [hfs]
    exact extends_fill hl hslot bytes

/-- So does making something other than a link. -/
theorem make_extends (os : Os) {x : Node} (hx : ∀ t, x ≠ .symlink t) (p : Path) (m : Machine) :
    m.fs.Extends (make os x p m).2.fs := by
  rcases make_cases os x p m with ⟨e, h⟩ | ⟨loc, -, hnone, hslot, h⟩
  · rw [h]
    exact Fs.Extends.refl _
  · rw [h]
    cases x with
    | dir => exact Fs.extends_set_dir hslot hnone
    | file c => exact Fs.extends_set_file hslot (fun t => by rw [hnone]; simp) c
    | symlink t => exact absurd rfl (hx t)

theorem make_dir_extends (os : Os) (p : Path) (m : Machine) :
    m.fs.Extends (create_dir os p m).2.fs := make_extends os (by simp) p m

theorem create_extends (os : Os) (p : Path) (m : Machine) :
    m.fs.Extends (create os p m).2.fs := by
  rcases create_cases os p m with ⟨e, h⟩ | ⟨loc, hl, hslot, h⟩
  · rw [h]
    exact Fs.Extends.refl _
  · rw [h]
    exact Fs.extends_set_file hslot (locate_no_link hl) []

/-- And a file that is opened anew and written. -/
theorem write_extends {os : Os} {p loc : Path} {m m' : Machine}
    (h : create os p m = (.ok loc, m')) (bytes : List UInt8) :
    m.fs.Extends (write os loc bytes m').2.fs := by
  rcases create_cases os p m with ⟨e, hc⟩ | ⟨loc', hl, hslot, hc⟩
  · rw [h] at hc
    cases hc
  · rw [h] at hc
    cases hc
    rcases write_cases os loc bytes (m.tick.set loc (.file [])) with ⟨k, hw⟩ | hw
    · rw [hw]
      exact extends_fill hl hslot _
    · rw [hw]
      exact extends_fill hl hslot _

variable {os : Os} {fuel : ℕ} {is_move : Bool} {depth : Depth} {m₂ : Machine}
  {res : Option (Except StatusCode Unit)}

theorem copy_loop_extends (hsrc : m₁.fs.node src = some .dir)
    (h : copy_loop os fuel [(src, dest)] m₁ = (res, m₂)) : m₁.fs.Extends m₂.fs := by
  have hdir : copy_dir os fuel src dest true m₁ = (res, m₂) := by
    unfold copy_dir
    rw [if_pos rfl]
    exact h
  exact copy_run_extends (copy_dir_run hsrc hdir)

theorem copy_source_extends (hsrc : src_type = .dir → m₁.fs.node src = some .dir)
    (h : copy_source os fuel is_move depth src_type src dest existed m₁ = (res, m₂)) :
    m₁.fs.Extends m₂.fs := by
  unfold copy_source at h
  split at h
  · rename_i ht
    split at h
    · split at h
      · cases h
        exact Fs.Extends.refl _
      · -- a shallow copy makes a directory at most
        have hmk := make_dir_extends os dest m₁
        split at h
        · rename_i hc
          cases h
          rw [hc] at hmk
          exact hmk
        · rename_i hc
          cases h
          rw [hc] at hmk
          exact hmk
    · -- the recursive copy is a run of steps that only add
      exact copy_run_extends (copy_dir_run (hsrc ht) h)
  · have hcp := copy_extends os src dest m₁
    unfold copy_file at h
    rcases hc : copy os src dest m₁ with ⟨_ | _, m'⟩
    · rw [hc] at h hcp
      cases h
      exact hcp
    · rw [hc] at h hcp
      cases h
      exact hcp

end Phases

/-! ## What a removal leaves -/

section Left

variable {p : Path} {m : Machine}

/-- Removing a real path takes away what is at or below it, and nothing else. -/
theorem remove_file_leaves (os : Os) (hreal : m.fs.Real p) :
    (m.fs.prune p).Keeps (remove_file os p m).2.fs := by
  rcases remove_file_cases os p m with ⟨e, h⟩ | ⟨loc, hl, -, -, h⟩
  · rw [h]
    exact Fs.keeps_prune p
  · rw [h, locate_entry_real hreal hl]
    exact (Fs.Extends.refl _).keeps

theorem remove_dir_all_leaves (os : Os) (hreal : m.fs.Real p) :
    (m.fs.prune p).Keeps (remove_dir_all os p m).2.fs := by
  rcases remove_dir_all_cases os p m with ⟨e, h⟩ | ⟨loc, hl, ⟨chosen, -, h⟩ | ⟨-, -, h⟩⟩
  · rw [h]
    exact Fs.keeps_prune p
  · -- a removal that failed on the way has only been below the path
    have hne := entry_ne_nil hl
    rw [h]
    rw [locate_entry_real hreal hl] at hne ⊢
    exact Fs.prune_keeps_of_same hne fun q hq => sweep_node q (fun hbelow => hq hbelow.1)
  · rw [h, locate_entry_real hreal hl]
    exact (Fs.Extends.refl _).keeps

end Left

/-! ## What a COPY or MOVE leaves -/

/-- The directory above a path, if it is there, is where the path says. -/
def InPlace (fs : Fs) (p : Path) : Prop := ∀ d, follow fs p.dropLast = .ok d → d = p.dropLast

section InPlace

variable {fs : Fs} {p loc : Path}

theorem entry_in_place (h : InPlace fs p) (hl : locate_entry fs p = .ok loc) : loc = p := by
  obtain ⟨d, n, hp, hd, -, -, rfl⟩ := locate_entry_ok hl
  rw [h d hd]
  exact hp.symm

/-- What leads somewhere stands. -/
theorem stands_of_follow (h : InPlace fs p) {q : Path} (hq : follow fs p = .ok q) :
    fs.node p ≠ none := by
  by_cases hnil : p = []
  · rw [hnil, fs.root_dir]
    simp
  · have hp := (List.dropLast_append_getLast hnil).symm
    rw [hp] at hq
    obtain ⟨d, hd, l, hl⟩ := follow_parent hq
    rw [h d hd, walk_level, walk_with_cons] at hl
    intro hnone
    rw [hp] at hnone
    split at hl
    · cases hl
    · simp [hnone] at hl

/-- A path whose directory is where it says is in place. -/
theorem in_place_of_real (h : fs.Real p.dropLast) : InPlace fs p := by
  intro d hd
  rw [follow_self h] at hd
  cases hd
  rfl

end InPlace

/-- What a copy makes at a free destination. -/
def made (src_type : FileType) : Node := if src_type = .dir then .dir else .file []

theorem made_kind {x : Node} (hlink : ∀ t, x ≠ .symlink t) : (made x.file_type).same_kind x := by
  cases x with
  | file c => exact trivial
  | dir => exact trivial
  | symlink t => exact absurd rfl (hlink t)

/-- The tree without a link that a file is renamed onto. -/
def unlinked (fs : Fs) (src_type : FileType) (dest : Path) : Fs :=
  match locate_entry fs dest with
  | .error _ => fs
  | .ok place =>
    match fs.node place with
    | some (.symlink _) => if src_type = .dir then fs else fs.prune place
    | _ => fs

theorem unlinked_keeps (fs : Fs) (src_type : FileType) (dest : Path) :
    (unlinked fs src_type dest).Keeps fs := by
  unfold unlinked
  split
  · exact (Fs.Extends.refl fs).keeps
  · split
    · split
      · exact (Fs.Extends.refl fs).keeps
      · exact Fs.keeps_prune _
    · exact (Fs.Extends.refl fs).keeps

theorem unlinked_no_link {fs : Fs} {src_type : FileType} {dest place : Path}
    (he : locate_entry fs dest = .ok place) (ht : src_type ≠ .dir) (t : PathBuf) :
    (unlinked fs src_type dest).node place ≠ some (.symlink t) := by
  unfold unlinked
  rw [he]
  dsimp only
  split
  · rw [if_neg ht, node_prune_entry he, if_pos List.prefix_rfl]
    exact nofun
  · rename_i hlink
    exact fun h => hlink t h

section Copied

variable {os : Os} {fuel : ℕ} {overwrite existed existed' is_move may : Bool} {depth : Depth}
  {src_type : FileType} {src dest : Path} {m m₁ m₂ : Machine} {base : Fs}
  {res : Option (Except StatusCode Unit)}

/-- **Clearing and copying** take away what is cleared, and nothing else. -/
theorem copied_keeps (hsrc : m.fs.Real src) (hmeta : metadata m.fs src = .ok src_type)
    (hmay : Clears m.fs src_type dest → (overwrite && (metadata m.fs dest).isOk) = true)
    (hclear : clear_dest os overwrite (metadata m.fs dest).isOk src_type dest m = (existed, m₁))
    (hcopy : copy_source os fuel is_move depth src_type src dest existed m₁ = (res, m₂)) :
    (cleared m.fs src_type dest).Keeps m₂.fs := by
  have houtcome := clear_dest_cases os overwrite (metadata m.fs dest).isOk src_type dest m
  rw [hclear] at houtcome
  refine Fs.Keeps.trans ?_ (copy_source_extends (clear_finds_dir houtcome hsrc hmeta) hcopy).keeps
  rcases tree_of_clear houtcome hmay with htree | ⟨hclears, -, -, hpart, -⟩
  · rw [htree]
    exact (Fs.Extends.refl _).keeps
  · -- a removal that failed has only been below the destination
    rcases hpart with hsame | ⟨place, he, -, -, hother⟩
    · rw [hsame]
      exact cleared_keeps _ _ _
    · rw [cleared_of_entry hclears he]
      exact Fs.prune_keeps_of_same (entry_ne_nil he) hother

/-- The source of a copy that succeeds is still there. -/
theorem source_stays (hsrc : m.fs.Real src) (hmeta : metadata m.fs src = .ok src_type)
    (houtcome : ClearOutcome src_type dest may existed m (existed', m₁))
    (hcopy : copy_source os fuel is_move depth src_type src dest existed' m₁
      = (some (.ok ()), m₂)) : m₁.fs.Real src := by
  by_cases ht : src_type = .dir
  · exact ⟨.dir, clear_finds_dir houtcome hsrc hmeta ht, by simp⟩
  · -- a file that was copied was found, where it always was
    unfold copy_source copy_file at hcopy
    rw [if_neg ht] at hcopy
    rcases copy_cases os src dest m₁ with
      ⟨e, m', hc, -, -⟩ | ⟨s, c, -, hs, hnode, -⟩
    · rw [hc] at hcopy
      cases hcopy
    · have hsame := follow_keeps (clear_keeps houtcome) hs
      rw [follow_self hsrc] at hsame
      cases hsame
      exact ⟨.file c, hnode, by simp⟩

/-- The source of a copy that succeeds stands, and is what it was. -/
theorem source_kind (hsrc : m.fs.Real src) (hmeta : metadata m.fs src = .ok src_type)
    (hclear : clear_dest os overwrite (metadata m.fs dest).isOk src_type dest m = (existed, m₁))
    (hcopy : copy_source os fuel is_move depth src_type src dest existed m₁
      = (some (.ok ()), m₂)) : ∃ z, m₂.fs.node src = some z ∧ (made src_type).same_kind z := by
  have houtcome := clear_dest_cases os overwrite (metadata m.fs dest).isOk src_type dest m
  rw [hclear] at houtcome
  have hcopied := (copy_source_extends (clear_finds_dir houtcome hsrc hmeta) hcopy).keeps
  obtain ⟨x, hx, hlink, rfl⟩ := real_node hsrc hmeta
  obtain ⟨x₁, hx₁, -⟩ := source_stays hsrc hmeta houtcome hcopy
  -- from what stood there first to what stands there after the clearing and the copy
  obtain ⟨y, hy, hback⟩ := clear_keeps houtcome src x₁ hx₁
  rw [hx] at hy
  cases hy
  obtain ⟨z, hz, hon⟩ := hcopied src x₁ hx₁
  have hfirst : (made x.file_type).same_kind x₁ :=
    Node.same_kind_trans (made_kind hlink) (Node.same_kind_symm hback)
  exact ⟨z, hz, Node.same_kind_trans hfirst hon⟩

theorem made_real {fs : Fs} {p : Path} {z : Node} (hz : fs.node p = some z)
    (hkind : (made src_type).same_kind z) : fs.Real p := by
  refine ⟨z, hz, fun t ht => ?_⟩
  rw [ht] at hkind
  unfold made at hkind
  split at hkind
  · exact hkind
  · exact hkind

/-- **The last phase of a MOVE** takes away the source, and a link that a file is put
in the place of. -/
theorem move_source_keeps (os : Os) (hk : base.Keeps m.fs) {parent : Path}
    (hpar : follow base dest.dropLast = .ok parent) {z : Node} (hz : m.fs.node src = some z)
    (hkind : (made src_type).same_kind z) :
    ((unlinked base src_type dest).prune src).Keeps (move_source os src_type src dest m).fs := by
  have hunlinked := (unlinked_keeps base src_type dest).trans hk
  have hleft := hunlinked.prune src
  -- the source is what its type says
  have hsource : (src_type = .dir → z = .dir) ∧ (src_type ≠ .dir → ∃ c, z = .file c) := by
    unfold made at hkind
    constructor
    · intro ht
      rw [if_pos ht] at hkind
      cases z with
      | dir => rfl
      | file c => exact hkind.elim
      | symlink t => exact hkind.elim
    · intro ht
      rw [if_neg ht] at hkind
      cases z with
      | dir => exact hkind.elim
      | file c => exact ⟨c, rfl⟩
      | symlink t => exact hkind.elim
  have hreal := made_real hz hkind
  unfold move_source
  rcases rename_cases os src dest m with ⟨r, hr⟩ | ⟨s, d, hs, hd, hmov, -, hbelow, hr⟩
  · rw [hr]
    cases r with
    | ok u => exact hleft.trans (Fs.keeps_prune src)
    | error e =>
      dsimp only
      split
      · exact hleft.trans (remove_dir_all_leaves os (m := m.tick) hreal)
      · exact hleft.trans (remove_file_leaves os (m := m.tick) hreal)
  · obtain rfl : src = s := (locate_entry_real hreal hs).symm
    have he := locate_entry_back hk hpar hd
    have hne : src ≠ d := fun heq => hmov.2.2.1 (by rw [heq])
    obtain ⟨hon_dir, hon_file⟩ := rename_kinds hs hd hne hr
    rw [hr]
    have hfs : (m.tick.move src d).fs = m.fs.graft src d hmov := dif_pos hmov
    dsimp only
    rw [hfs]
    intro q x hx
    rw [Fs.node_prune hmov.1] at hx
    split at hx
    · cases hx
    · rename_i hapart
      obtain ⟨y, hy, hxy⟩ := hunlinked q x hx
      have hnode : (m.fs.graft src d hmov).node q
          = if d <+: q then m.fs.node (src ++ q.drop d.length)
            else if src <+: q then none else m.fs.node q := rfl
      rw [hnode]
      by_cases hpre : d <+: q
      · by_cases hq : q = d
        · -- the source stands at the destination, where something of its type stood
          subst hq
          rw [if_pos hpre, List.drop_length, List.append_nil]
          refine ⟨z, hz, ?_⟩
          rw [hz] at hon_dir hon_file
          cases x with
          | dir =>
            cases y with
            | dir =>
              rw [Option.some.inj (hon_file hy)]
              exact trivial
            | file c => exact hxy.elim
            | symlink t => exact hxy.elim
          | file c =>
            by_cases hdir : src_type = .dir
            · rcases hon_dir (by rw [hsource.1 hdir]) with hnone | hd
              · rw [hy] at hnone
                cases hnone
              · rw [hy] at hd
                cases hd
                exact hxy.elim
            · obtain ⟨c', hc'⟩ := hsource.2 hdir
              rw [hc']
              exact trivial
          | symlink t =>
            by_cases hdir : src_type = .dir
            · rcases hon_dir (by rw [hsource.1 hdir]) with hnone | hd
              · rw [hy] at hnone
                cases hnone
              · rw [hy] at hd
                cases hd
                exact hxy.elim
            · exact absurd hx (unlinked_no_link he hdir t)
        · -- nothing stood below the destination
          rw [hbelow q hpre hq] at hy
          cases hy
      · rw [if_neg hpre, if_neg hapart]
        exact ⟨y, hy, hxy⟩

end Copied

/-! ## The destination of a copy that succeeds -/

section Destination

variable {os : Os} {fuel : ℕ} {overwrite existed is_move : Bool} {depth : Depth}
  {src_type : FileType} {src dest : Path} {m m₁ m₂ : Machine}

theorem make_present {x : Node} (hx : ∀ t, x ≠ .symlink t) {p : Path} {u : Unit} {m' : Machine}
    (h : make os x p m = (.ok u, m')) : Present m'.fs p := by
  have hext := make_extends os hx p m
  rw [h] at hext
  rcases make_cases os x p m with ⟨e, hmk⟩ | ⟨loc, hl, -, hslot, hmk⟩
  · rw [h] at hmk
    cases hmk
  · rw [h] at hmk
    cases hmk
    refine present_entry (locate_entry_keeps hext.keeps hl) ⟨x, ?_, hx⟩
    rw [set_fs, tick_fs, Fs.node_set hslot, if_pos rfl]

theorem copy_present {u : Unit} {m' : Machine} (h : copy os src dest m = (.ok u, m')) :
    Present m'.fs dest := by
  rcases copy_cases os src dest m with
    ⟨e, m₀, hc, -, -⟩ | ⟨s, c, loc, -, -, hl, hslot, r, m₀, bytes, hc, hfs, -, -⟩
  · rw [h] at hc
    cases hc
  · rw [h] at hc
    cases hc
    have hthere : m'.fs.node loc ≠ none := by
      rw [hfs, node_fill hslot, if_pos rfl]
      exact Option.some_ne_none _
    have hlocate : locate m'.fs dest = .ok loc := by
      rw [hfs]
      exact locate_extends (extends_fill hl hslot bytes) hl
    exact present_iff.mpr ⟨loc, follow_of_locate hlocate hthere⟩

/-- **The destination of a copy that succeeds is present afterwards.** -/
theorem dest_present (hsrc : m.fs.Real src) (hmeta : metadata m.fs src = .ok src_type)
    (hclear : clear_dest os overwrite (metadata m.fs dest).isOk src_type dest m = (existed, m₁))
    (hcopy : copy_source os fuel is_move depth src_type src dest existed m₁
      = (some (.ok ()), m₂)) : Present m₂.fs dest := by
  have houtcome := clear_dest_cases os overwrite (metadata m.fs dest).isOk src_type dest m
  rw [hclear] at houtcome
  have hdir := clear_finds_dir houtcome hsrc hmeta
  -- a destination that is still counted as existing has been left alone
  have hexisted : existed = true → Present m₁.fs dest := by
    intro hex
    cases houtcome with
    | kept _ => exact hex
    | removed _ _ _ _ _ _ _ _ => cases hex
    | failed _ _ _ _ _ _ _ => cases hex
  unfold copy_source at hcopy
  split at hcopy
  · rename_i ht
    split at hcopy
    · split at hcopy
      · rename_i hex
        cases hcopy
        exact hexisted hex
      · split at hcopy
        · cases hcopy
        · rename_i hmk
          cases hcopy
          exact make_present (by simp) hmk
    · -- the recursive copy starts from the directory, which stays
      unfold copy_dir at hcopy
      split at hcopy
      · rename_i hex
        exact (hexisted hex).keeps (copy_loop_extends (hdir ht) hcopy).keeps
      · split at hcopy
        · cases hcopy
        · rename_i m' hmk
          have hdir' : m'.fs.node src = some .dir := by
            have hext := make_dir_extends os dest m₁
            rw [hmk] at hext
            exact hext.keeps.dir (hdir ht)
          exact (make_present (by simp) hmk).keeps (copy_loop_extends hdir' hcopy).keeps
  · unfold copy_file at hcopy
    split at hcopy
    rename_i r m' hfile
    cases hcopy
    split at hfile
    · cases hfile
    · rename_i hc
      cases hfile
      exact copy_present hc

/-- The directory of the destination is still there, and it is one. -/
theorem dest_dir (hpar : m.fs.Real dest.dropLast) (hne : dest ≠ [])
    (hk : (cleared m.fs src_type dest).Keeps m₂.fs) (hpresent : Present m₂.fs dest) :
    m₂.fs.node dest.dropLast = some .dir := by
  obtain ⟨x, hx, hlink⟩ := hpar
  have hplace : InPlace m.fs dest := in_place_of_real ⟨x, hx, hlink⟩
  have hstays : (cleared m.fs src_type dest).node dest.dropLast = some x := by
    unfold cleared
    split
    · split
      · rename_i place he
        rw [node_prune_entry he, if_neg]
        · exact hx
        · -- the parent is not below the entry
          intro hpre
          rw [entry_in_place hplace he] at hpre
          have hle := hpre.length_le
          have hpos := List.length_pos_iff.mpr hne
          rw [List.length_dropLast] at hle
          omega
      · exact hx
    · exact hx
  obtain ⟨y, hy, hkind⟩ := hk _ _ hstays
  have hreal : m₂.fs.Real dest.dropLast := by
    refine ⟨y, hy, fun t ht => ?_⟩
    rw [ht] at hkind
    cases x with
    | file c => exact hkind
    | dir => exact hkind
    | symlink u => exact hlink u rfl
  -- something was looked up in it
  obtain ⟨q, hq⟩ := present_iff.mp hpresent
  rw [← List.dropLast_append_getLast hne] at hq
  obtain ⟨d, hd, l, hwalk⟩ := follow_parent hq
  rw [follow_self hreal] at hd
  cases hd
  exact walk_dir hwalk

/-- It is present without the source too, if a link at the destination was no link into it. -/
theorem dest_apart (hpar : m.fs.Real dest.dropLast) (hne : dest ≠ []) (hapart : ¬ src <+: dest)
    (hlink : ∀ t, m.fs.node dest = some (.symlink t) → Present (m.fs.prune src) dest)
    (hsrc : m.fs.Real src) (hmeta : metadata m.fs src = .ok src_type)
    (hmay : Clears m.fs src_type dest → (overwrite && (metadata m.fs dest).isOk) = true)
    (hclear : clear_dest os overwrite (metadata m.fs dest).isOk src_type dest m = (existed, m₁))
    (hcopy : copy_source os fuel is_move depth src_type src dest existed m₁
      = (some (.ok ()), m₂)) : Present (m₂.fs.prune src) dest := by
  have houtcome := clear_dest_cases os overwrite (metadata m.fs dest).isOk src_type dest m
  rw [hclear] at houtcome
  have hext := copy_source_extends (clear_finds_dir houtcome hsrc hmeta) hcopy
  have hpresent := dest_present hsrc hmeta hclear hcopy
  have hdir := dest_dir hpar hne (copied_keeps hsrc hmeta hmay hclear hcopy) hpresent
  have hroot : src ≠ [] := fun h => hapart (by rw [h]; exact List.nil_prefix)
  have hnode : (m₂.fs.prune src).node dest = m₂.fs.node dest := by
    rw [Fs.node_prune hroot, if_neg hapart]
  obtain ⟨x, hx⟩ := Option.ne_none_iff_exists'.mp
    (stands_of_follow (in_place_of_real ⟨_, hdir, by simp⟩) (present_iff.mp hpresent).choose_spec)
  by_cases hreal : ∀ t, x ≠ .symlink t
  · exact present_real ⟨x, by rw [hnode, hx], hreal⟩
  · -- a link that stands there stood there before, and nothing was cleared
    simp only [not_forall, not_not] at hreal
    obtain ⟨t, rfl⟩ := hreal
    have hx₁ := hext.no_link _ _ hx
    have hplace : InPlace m.fs dest := in_place_of_real hpar
    have hsame : m₁.fs = m.fs := by
      cases houtcome with
      | kept _ => rfl
      | removed place _ _ _ he _ hfs _ =>
        rw [hfs, ← entry_in_place hplace he, node_prune_entry he, if_pos List.prefix_rfl] at hx₁
        cases hx₁
      | failed _ _ _ _ hpart _ _ =>
        rcases hpart with hsame | ⟨place, he, -, hstill, -⟩
        · exact hsame
        · rw [← entry_in_place hplace he, hstill] at hx₁
          cases hx₁
    rw [hsame] at hx₁
    have hkeeps := hext.keeps
    rw [hsame] at hkeeps
    exact (hlink t hx₁).keeps (hkeeps.prune src)

/-- **The destination of a MOVE** is present when the source is gone. -/
theorem moved_present (os : Os) (hpar : m.fs.Real dest.dropLast) (hne : dest ≠ [])
    (hapart : ¬ src <+: dest)
    (hlink : ∀ t, m.fs.node dest = some (.symlink t) → Present (m.fs.prune src) dest)
    (hsrc : m.fs.Real src) (hmeta : metadata m.fs src = .ok src_type)
    (hmay : Clears m.fs src_type dest → (overwrite && (metadata m.fs dest).isOk) = true)
    (hclear : clear_dest os overwrite (metadata m.fs dest).isOk src_type dest m = (existed, m₁))
    (hcopy : copy_source os fuel is_move depth src_type src dest existed m₁
      = (some (.ok ()), m₂)) : Present (move_source os src_type src dest m₂).fs dest := by
  have hpresent := dest_present hsrc hmeta hclear hcopy
  have hdir := dest_dir hpar hne (copied_keeps hsrc hmeta hmay hclear hcopy) hpresent
  have hleft := dest_apart hpar hne hapart hlink hsrc hmeta hmay hclear hcopy
  obtain ⟨z, hz, hkind⟩ := source_kind hsrc hmeta hclear hcopy
  have hreal := made_real hz hkind
  unfold move_source
  rcases rename_cases os src dest m₂ with ⟨r, hr⟩ | ⟨s, d, hs, hd, hmov, -, -, hr⟩
  · rw [hr]
    cases r with
    | ok u => exact hpresent
    | error e =>
      dsimp only
      split
      · exact hleft.keeps (remove_dir_all_leaves os (m := m₂.tick) hreal)
      · exact hleft.keeps (remove_file_leaves os (m := m₂.tick) hreal)
  · -- the source stands there now
    obtain rfl : src = s := (locate_entry_real hreal hs).symm
    obtain rfl : dest = d := (entry_in_place (in_place_of_real ⟨_, hdir, by simp⟩) hd).symm
    rw [hr]
    have hfs : (m₂.tick.move src dest).fs = m₂.fs.graft src dest hmov := dif_pos hmov
    dsimp only
    rw [hfs]
    obtain ⟨y, hy, hnolink⟩ := hreal
    refine present_real ⟨y, ?_, hnolink⟩
    have hnode : (m₂.fs.graft src dest hmov).node dest
        = if dest <+: dest then m₂.fs.node (src ++ dest.drop dest.length)
          else if src <+: dest then none else m₂.fs.node dest := rfl
    rw [hnode, if_pos List.prefix_rfl, List.drop_length, List.append_nil]
    exact hy

end Destination

end Rshs.Losses
