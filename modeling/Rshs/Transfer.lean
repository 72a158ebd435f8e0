/-
The three phases of a COPY or MOVE, each by all it can do to the machine.

`ClearOutcome` is the inversion of `clear_dest`: nothing was to be removed, the
destination's entry has been removed, or the removal failed, and then what comes
next fails too, because the destination is still there (`failed_blocks_file`,
`clears_blocks_dir`). `move_source_log` says what the last phase touches, and
`transfer_cases` puts the phases together.
-/
import Rshs.CopyRun

set_option autoImplicit false

namespace Rshs.Transfer

open StdPath Posix Rshs.Webdav Rshs.App Rshs.CopyMove Rshs.CopyRun

/-! ## Clearing the destination -/

/-- The destination is of the wrong type for the source. -/
def Clears (fs : Fs) (src_type : FileType) (dest : Path) : Prop :=
  (src_type ≠ .dir ∧ metadata fs dest = .ok .dir) ∨
    (src_type = .dir ∧ metadata fs dest = .ok .file)

instance (fs : Fs) (src_type : FileType) (dest : Path) : Decidable (Clears fs src_type dest) :=
  inferInstanceAs (Decidable (_ ∨ _))

/-- The tree without a destination of the wrong type. -/
def cleared (fs : Fs) (src_type : FileType) (dest : Path) : Fs :=
  if Clears fs src_type dest then
    match locate_entry fs dest with
    | .ok place => fs.prune place
    | .error _ => fs
  else fs

theorem cleared_of_not {fs : Fs} {src_type : FileType} {dest : Path}
    (h : ¬ Clears fs src_type dest) : cleared fs src_type dest = fs := if_neg h

theorem cleared_of_entry {fs : Fs} {src_type : FileType} {dest place : Path}
    (h : Clears fs src_type dest) (he : locate_entry fs dest = .ok place) :
    cleared fs src_type dest = fs.prune place := by
  unfold cleared
  rw [if_pos h, he]

theorem cleared_keeps (fs : Fs) (src_type : FileType) (dest : Path) :
    (cleared fs src_type dest).Keeps fs := by
  unfold cleared
  split
  · split
    · exact Fs.keeps_prune _
    · exact (Fs.Extends.refl fs).keeps
  · exact (Fs.Extends.refl fs).keeps

theorem metadata_ok {fs : Fs} {p : Path} {t : FileType} (h : metadata fs p = .ok t) :
    ∃ q x, follow fs p = .ok q ∧ fs.node q = some x ∧ x.file_type = t := by
  unfold metadata at h
  split at h
  · cases h
  · rename_i q hq
    split at h
    · cases h
    · rename_i x hx
      cases h
      exact ⟨q, x, hq, hx, rfl⟩

theorem metadata_real {fs : Fs} {p : Path} {x : Node} (hx : fs.node p = some x)
    (hlink : ∀ t, x ≠ .symlink t) : metadata fs p = .ok x.file_type := by
  unfold metadata
  rw [follow_self ⟨x, hx, hlink⟩]
  dsimp only
  rw [hx]

section Real

variable {fs : Fs} {p : Path} {t : FileType}

/-- At a real path `metadata` tells what stands there. -/
theorem real_node (hreal : fs.Real p) (hm : metadata fs p = .ok t) :
    ∃ x, fs.node p = some x ∧ (∀ u, x ≠ .symlink u) ∧ x.file_type = t := by
  obtain ⟨x, hx, hlink⟩ := hreal
  have hself := metadata_real hx hlink
  rw [hm] at hself
  exact ⟨x, hx, hlink, (Except.ok.inj hself).symm⟩

theorem real_dir (hreal : fs.Real p) (hm : metadata fs p = .ok .dir) : fs.node p = some .dir := by
  obtain ⟨x, hx, -, ht⟩ := real_node hreal hm
  exact node_of_dir hx ht

/-- What is real and no directory is a file. -/
theorem real_file (hreal : fs.Real p) (hm : metadata fs p = .ok t) (ht : t ≠ .dir) :
    t = .file ∧ ∃ c, fs.node p = some (.file c) := by
  obtain ⟨x, hx, hlink, rfl⟩ := real_node hreal hm
  cases x with
  | file c => exact ⟨rfl, c, hx⟩
  | dir => exact absurd rfl ht
  | symlink u => exact absurd rfl (hlink u)

end Real

/-- What a failed removal leaves: the same tree, or one where a directory has lost
some of what is below it. -/
def Partly (fs fs' : Fs) (dest : Path) : Prop :=
  fs' = fs ∨ ∃ place, locate_entry fs dest = .ok place ∧ fs.node place = some .dir ∧
    fs'.node place = some .dir ∧ ∀ q, ¬ place <+: q → fs'.node q = fs.node q

inductive ClearOutcome (src_type : FileType) (dest : Path) (may existed : Bool) (m : Machine) :
    Bool × Machine → Prop
  | kept (h : ¬ (may = true ∧ Clears m.fs src_type dest)) :
      ClearOutcome src_type dest may existed m (existed, m)
  | removed (place : Path) (m₁ : Machine) (hmay : may = true) (hclears : Clears m.fs src_type dest)
      (he : locate_entry m.fs dest = .ok place)
      (hdir : src_type = .dir → m.fs.node place ≠ some .dir)
      (hfs : m₁.fs = m.fs.prune place) (hlog : m₁.log = m.log ++ [.change place]) :
      ClearOutcome src_type dest may existed m (false, m₁)
  | failed (m₁ : Machine) (hmay : may = true) (hclears : Clears m.fs src_type dest)
      (hkeeps : m₁.fs.Keeps m.fs)
      (hpart : Partly m.fs m₁.fs dest) (hsame : src_type = .dir → m₁.fs = m.fs)
      (hlog : m₁.log = m.log ∨
        ∃ place, locate_entry m.fs dest = .ok place ∧ m₁.log = m.log ++ [.change place]) :
      ClearOutcome src_type dest may existed m (false, m₁)

theorem sweep_node {m : Machine} {place : Path} {chosen : Path → Bool} (q : Path)
    (hq : ¬ (place <+: q ∧ place ≠ q)) : (m.sweep place chosen).fs.node q = m.fs.node q := by
  show (m.fs.without _).node q = _
  rw [Fs.node_without, if_neg]
  intro h
  obtain ⟨a, ha, -, hg⟩ := swept_iff.mp h
  simp only [Bool.and_eq_true, decide_eq_true_eq, List.isPrefixOf_iff_prefix] at hg
  obtain ⟨⟨hpre, hne⟩, -⟩ := hg
  refine hq ⟨hpre.trans ha, fun heq => ?_⟩
  -- a prefix of `q` that `q` is a prefix of is `q`
  rw [heq] at hpre hne
  exact hne (ha.eq_of_length (Nat.le_antisymm ha.length_le hpre.length_le))

theorem clear_dest_cases (os : Os) (overwrite existed : Bool) (src_type : FileType) (dest : Path)
    (m : Machine) :
    ClearOutcome src_type dest (overwrite && existed) existed m
      (clear_dest os overwrite existed src_type dest m) := by
  have hrefl : m.fs.Keeps m.fs := (Fs.Extends.refl m.fs).keeps
  unfold clear_dest
  by_cases hmay : (overwrite && existed) = true
  · rw [if_pos hmay]
    -- what is at the destination decides
    cases hmeta : metadata m.fs dest with
    | error e =>
      refine ClearOutcome.kept (fun h => ?_)
      rcases h.2 with ⟨-, h⟩ | ⟨-, h⟩
      all_goals
        rw [hmeta] at h
        cases h
    | ok dest_type =>
      dsimp only
      split
      · -- a directory where a file is to go
        rename_i hc
        have hclears : Clears m.fs src_type dest := Or.inl ⟨hc.1, by rw [hmeta, hc.2]⟩
        have hnot : src_type = .dir → m.fs = m.fs := fun _ => rfl
        rcases remove_dir_all_cases os dest m with
          ⟨e, hr⟩ | ⟨place, he, ⟨chosen, hdir, hr⟩ | ⟨-, -, hr⟩⟩
        · rw [hr]
          exact ClearOutcome.failed m.tick hmay hclears hrefl (Or.inl rfl) hnot (Or.inl rfl)
        · rw [hr]
          refine ClearOutcome.failed _ hmay hclears (Fs.keeps_without _)
            (Or.inr ⟨place, he, hdir, ?_, fun q hq => ?_⟩) (fun h => absurd h hc.1)
            (Or.inr ⟨place, he, rfl⟩)
          · rw [sweep_node place (fun h => h.2 rfl)]
            exact hdir
          · rw [sweep_node q (fun h => hq h.1)]
            rfl
        · rw [hr]
          exact ClearOutcome.removed place _ hmay hclears he (fun h => absurd h hc.1) rfl rfl
      · rename_i hc
        split
        · -- a file where a directory is to go
          rename_i hc'
          have hclears : Clears m.fs src_type dest := Or.inr ⟨hc'.1, by rw [hmeta, hc'.2]⟩
          rcases remove_file_cases os dest m with ⟨e, hr⟩ | ⟨place, he, -, hdir, hr⟩
          · rw [hr]
            exact ClearOutcome.failed m.tick hmay hclears hrefl (Or.inl rfl) (fun _ => rfl)
              (Or.inl rfl)
          · rw [hr]
            exact ClearOutcome.removed place _ hmay hclears he (fun _ => hdir) rfl rfl
        · rename_i hc'
          refine ClearOutcome.kept (fun h => ?_)
          rcases h.2 with ⟨ht, h⟩ | ⟨ht, h⟩
          all_goals
            rw [hmeta] at h
            cases h
          · exact hc ⟨ht, rfl⟩
          · exact hc' ⟨ht, rfl⟩
  · rw [if_neg hmay]
    exact ClearOutcome.kept (fun h => hmay h.1)

/-- Clearing only takes away. -/
theorem clear_keeps {src_type : FileType} {dest : Path} {may existed existed' : Bool}
    {m m₁ : Machine} (h : ClearOutcome src_type dest may existed m (existed', m₁)) :
    m₁.fs.Keeps m.fs := by
  cases h with
  | kept _ => exact (Fs.Extends.refl _).keeps
  | removed place _ _ _ _ _ hfs _ =>
    rw [hfs]
    exact Fs.keeps_prune _
  | failed _ _ _ hkeeps _ _ _ => exact hkeeps

/-- The tree the copy starts on is the cleared one, or the removal has failed. -/
theorem tree_of_clear {src_type : FileType} {dest : Path} {may existed existed' : Bool}
    {m m₁ : Machine} (hclear : ClearOutcome src_type dest may existed m (existed', m₁))
    (hmay : Clears m.fs src_type dest → may = true) :
    m₁.fs = cleared m.fs src_type dest ∨
      (Clears m.fs src_type dest ∧ existed' = false ∧ m₁.fs.Keeps m.fs ∧
        Partly m.fs m₁.fs dest ∧ (src_type = .dir → m₁.fs = m.fs)) := by
  cases hclear with
  | kept h =>
    left
    rw [cleared_of_not (fun hc => h ⟨hmay hc, hc⟩)]
  | removed place _ _ hclears he _ hfs _ =>
    left
    rw [hfs, cleared_of_entry hclears he]
  | failed _ _ hclears hkeeps hpart hsame _ => exact Or.inr ⟨hclears, rfl, hkeeps, hpart, hsame⟩

/-- A directory that could not be removed is still in the way of a file. -/
theorem failed_blocks_file {fs fs' : Fs} {src_type : FileType} {dest loc : Path}
    (hclears : Clears fs src_type dest) (htype : src_type ≠ .dir) (hkeeps : fs'.Keeps fs)
    (hpart : Partly fs fs' dest) (hloc : locate fs' dest = .ok loc) :
    fs'.node loc = some .dir := by
  rcases hpart with hsame | ⟨place, he, -, hstill, -⟩
  · rw [hsame] at hloc ⊢
    rcases hclears with ⟨-, hmeta⟩ | ⟨ht, -⟩
    · obtain ⟨q, x, hq, hx, ht⟩ := metadata_ok hmeta
      rw [locate_of_follow hq] at hloc
      cases hloc
      exact node_of_dir hx ht
    · exact absurd ht htype
  · -- the entry is a directory, in both trees at the same place
    rw [locate_of_entry_before hkeeps he (by rw [hstill]; simp) hloc]
    exact hstill

/-- So where a file can be created, the tree is the cleared one. -/
theorem tree_for_file {src_type : FileType} {dest loc : Path} {may existed existed' : Bool}
    {m m₁ : Machine} (hclear : ClearOutcome src_type dest may existed m (existed', m₁))
    (hmay : Clears m.fs src_type dest → may = true) (htype : src_type ≠ .dir)
    (hl : locate m₁.fs dest = .ok loc) (hdir : m₁.fs.node loc ≠ some .dir) :
    m₁.fs = cleared m.fs src_type dest := by
  rcases tree_of_clear hclear hmay with htree | ⟨hclears, -, hkeeps, hpart, -⟩
  · exact htree
  · exact absurd (failed_blocks_file hclears htype hkeeps hpart hl) hdir

/-- A file that could not be removed is still in the way of a directory. -/
theorem clears_blocks_dir {fs : Fs} {dest loc : Path} (hclears : Clears fs .dir dest)
    (hloc : locate_entry fs dest = .ok loc) : fs.node loc ≠ none := by
  rcases hclears with ⟨ht, -⟩ | ⟨-, hmeta⟩
  · exact absurd rfl ht
  · obtain ⟨q, x, hq, -, -⟩ := metadata_ok hmeta
    exact entry_exists hq hloc

/-! ## A directory source -/

/-- Clearing leaves a directory source where it is: what is removed then is no
directory. -/
theorem clear_keeps_dir {src dest : Path} {may existed existed' : Bool} {m m₁ : Machine}
    (h : ClearOutcome .dir dest may existed m (existed', m₁))
    (hsrc : m.fs.node src = some .dir) : m₁.fs.node src = some .dir := by
  cases h with
  | kept _ => exact hsrc
  | removed place _ _ _ he hdir hfs _ =>
    rw [hfs, node_prune_entry he, if_neg]
    · exact hsrc
    · intro hpre
      by_cases heq : place = src
      · rw [heq] at hdir
        exact hdir rfl hsrc
      · exact hdir rfl (m.fs.dir_above (by rw [hsrc]; simp) hpre heq)
  | failed _ _ _ _ _ hsame _ =>
    rw [hsame rfl]
    exact hsrc

theorem clear_finds_dir {src_type : FileType} {src dest : Path} {may existed existed' : Bool}
    {m m₁ : Machine} (h : ClearOutcome src_type dest may existed m (existed', m₁))
    (hreal : m.fs.Real src) (hmeta : metadata m.fs src = .ok src_type) (ht : src_type = .dir) :
    m₁.fs.node src = some .dir := by
  rw [ht] at h hmeta
  exact clear_keeps_dir h (real_dir hreal hmeta)

section Deep

variable {os : Os} {fuel : ℕ} {src dest : Path} {existed : Bool} {m m' : Machine}
  {res : Option (Except StatusCode Unit)}

/-- A whole recursive copy is a run of steps. -/
theorem copy_dir_run (hsrc : m.fs.node src = some .dir)
    (h : copy_dir os fuel src dest existed m = (res, m')) : Copies src dest m m' := by
  have hstack : ∀ fs : Fs, fs.node src = some .dir → StackOk src dest fs [(src, dest)] := by
    intro fs hfs pair hpair
    rw [List.mem_singleton] at hpair
    exact ⟨[], by rw [hpair, List.append_nil, List.append_nil], by rw [List.append_nil]; exact hfs⟩
  unfold copy_dir at h
  split at h
  · exact copy_loop_run (hstack _ hsrc) h
  · have hstep : CopyStep src dest m (create_dir os dest m).2 := by
      have hroot : m.fs.node (src ++ []) = some .dir := by
        rw [List.append_nil]
        exact hsrc
      have hmk : CopyStep src dest m (create_dir os (dest ++ []) m).2 := create_dir_step hroot
      rw [List.append_nil] at hmk
      exact hmk
    rcases hc : create_dir os dest m with ⟨_ | _, m₁⟩
    · rw [hc] at h hstep
      cases h
      exact Relation.ReflTransGen.single hstep
    · rw [hc] at h hstep
      have hdir : m₁.fs.node src = some .dir := (copy_step_extends hstep).keeps.dir hsrc
      exact (Relation.ReflTransGen.single hstep).trans (copy_loop_run (hstack _ hdir) h)

/-- A directory is created at the destination unless there is one. -/
theorem copy_dir_entry (h : copy_dir os fuel src dest existed m = (res, m'))
    (hres : res = some (.ok ())) :
    existed = true ∨ ∃ loc, locate_entry m.fs dest = .ok loc ∧ m.fs.node loc = none := by
  unfold copy_dir at h
  split at h
  · rename_i hex
    exact Or.inl hex
  · rcases make_cases os .dir dest m with ⟨e, hc⟩ | ⟨loc, hl, hnone, -, -⟩
    · rw [create_dir, hc] at h
      cases h
      cases hres
    · exact Or.inr ⟨loc, hl, hnone⟩

/-- Where the destination's entry cannot be created nothing is copied. -/
theorem copy_dir_blocked (hblock : ∀ loc, locate_entry m.fs dest = .ok loc → m.fs.node loc ≠ none)
    (h : copy_dir os fuel src dest false m = (res, m')) :
    m'.fs = m.fs ∧ m'.log = m.log ∧ res = some (.error .INTERNAL_SERVER_ERROR) := by
  unfold copy_dir at h
  rw [if_neg Bool.false_ne_true] at h
  rcases make_cases os .dir dest m with ⟨e, hc⟩ | ⟨loc, hl, hnone, -, -⟩
  · rw [create_dir, hc] at h
    cases h
    exact ⟨rfl, rfl, rfl⟩
  · exact absurd hnone (hblock loc hl)

end Deep

/-! ## The destination's entry, before and after -/

/-- The directory the last name is looked up in stays the same place. -/
theorem entry_before {fs fs₁ fs₂ : Fs} {dest d place : Path} (hd : follow fs₁ dest.dropLast = .ok d)
    (hk : fs₁.Keeps fs) (hext : fs₁.Keeps fs₂) (h : locate_entry fs₂ dest = .ok place) :
    locate_entry fs dest = .ok place :=
  locate_entry_keeps hk (locate_entry_back hext hd h)

/-- The parent of what exists is a directory, which leads to itself. -/
theorem parent_of_real {fs : Fs} {p : Path} {x : Node} (hx : fs.node p = some x) :
    follow fs p.dropLast = .ok p.dropLast := by
  refine follow_self ⟨.dir, ?_, by simp⟩
  by_cases hnil : p = []
  · rw [hnil]
    exact fs.root_dir
  · exact fs.dir_above (by rw [hx]; simp) (List.dropLast_prefix p) (dropLast_ne hnil)

/-- Likewise the entry of a real source. -/
theorem entry_of_source {fs : Fs} {src place : Path} {x : Node} (hx : fs.node src = some x)
    (hlink : ∀ t, x ≠ .symlink t) (h : locate_entry fs src = .ok place) : place = src :=
  locate_entry_real ⟨x, hx, hlink⟩ h

/-! ## The last phase of a MOVE -/

/-- It touches the entry of the source, and that of the destination when the source
has one. -/
theorem move_source_log {os : Os} {src_type : FileType} {src dest : Path} {m : Machine}
    {a : Access} (ha : a ∈ (move_source os src_type src dest m).log) :
    a ∈ m.log ∨ ∃ loc, a = .change loc ∧
      (locate_entry m.fs src = .ok loc ∨
        (locate_entry m.fs dest = .ok loc ∧ ∃ s, locate_entry m.fs src = .ok s)) := by
  unfold move_source at ha
  rcases rename_cases os src dest m with ⟨r, hr⟩ | ⟨s, d, hs, hd, -, -, -, hr⟩
  · rw [hr] at ha
    cases r with
    | ok u => exact Or.inl ha
    | error e =>
      -- the source is removed after a copy that could not be renamed
      dsimp only at ha
      split at ha
      · rcases remove_dir_all_cases os src m.tick with
          ⟨e, hrm⟩ | ⟨place, he, ⟨chosen, -, hrm⟩ | ⟨-, -, hrm⟩⟩
        · rw [hrm] at ha
          exact Or.inl ha
        · rw [hrm] at ha
          rcases List.mem_append.mp ha with ha | ha
          · exact Or.inl ha
          · exact Or.inr ⟨place, List.mem_singleton.mp ha, Or.inl he⟩
        · rw [hrm] at ha
          rcases List.mem_append.mp ha with ha | ha
          · exact Or.inl ha
          · exact Or.inr ⟨place, List.mem_singleton.mp ha, Or.inl he⟩
      · rcases remove_file_cases os src m.tick with ⟨e, hrm⟩ | ⟨place, he, -, -, hrm⟩
        · rw [hrm] at ha
          exact Or.inl ha
        · rw [hrm] at ha
          rcases List.mem_append.mp ha with ha | ha
          · exact Or.inl ha
          · exact Or.inr ⟨place, List.mem_singleton.mp ha, Or.inl he⟩
  · rw [hr] at ha
    rcases List.mem_append.mp ha with ha | ha
    · exact Or.inl ha
    · simp only [List.mem_cons, List.not_mem_nil, or_false] at ha
      rcases ha with rfl | rfl
      · exact Or.inr ⟨s, rfl, Or.inl hs⟩
      · exact Or.inr ⟨d, rfl, Or.inr ⟨hd, s, hs⟩⟩

/-! ## The log only grows -/

theorem copy_file_log_mono {os : Os} {src dest : Path} {m : Machine} {a : Access} (ha : a ∈ m.log) :
    a ∈ (copy os src dest m).2.log := by
  rcases copy_cases os src dest m with
    ⟨e, m', hc, -, hlog | ⟨s, c, -, -, hlog⟩⟩ | ⟨s, c, loc, -, -, -, -, r, m', bytes, hc, -, hlog, -⟩
  all_goals rw [hc]
  · rw [hlog]
    exact ha
  · rw [hlog]
    exact List.mem_append_left _ ha
  · rw [hlog]
    exact List.mem_append_left _ ha

theorem make_log_mono {os : Os} {x : Node} {p : Path} {m : Machine} {a : Access} (ha : a ∈ m.log) :
    a ∈ (make os x p m).2.log := by
  rcases make_cases os x p m with ⟨e, hm⟩ | ⟨loc, -, -, -, hm⟩
  all_goals rw [hm]
  · exact ha
  · exact List.mem_append_left _ ha

theorem move_source_log_mono {os : Os} {src_type : FileType} {src dest : Path} {m : Machine}
    {a : Access} (ha : a ∈ m.log) : a ∈ (move_source os src_type src dest m).log := by
  unfold move_source
  rcases rename_cases os src dest m with ⟨r, hr⟩ | ⟨s, d, -, -, -, -, -, hr⟩
  · rw [hr]
    cases r with
    | ok u => exact ha
    | error e =>
      dsimp only
      split
      · rcases remove_dir_all_cases os src m.tick with
          ⟨e, hrm⟩ | ⟨place, -, ⟨chosen, -, hrm⟩ | ⟨-, -, hrm⟩⟩
        all_goals rw [hrm]
        · exact ha
        · exact List.mem_append_left _ ha
        · exact List.mem_append_left _ ha
      · rcases remove_file_cases os src m.tick with ⟨e, hrm⟩ | ⟨place, -, -, -, hrm⟩
        all_goals rw [hrm]
        · exact ha
        · exact List.mem_append_left _ ha
  · rw [hr]
    exact List.mem_append_left _ ha

/-! ## Clearing when nothing fails -/

theorem clear_dest_ok {os : Os} {overwrite existed existed' : Bool} {src_type : FileType}
    {dest : Path} {m m₁ : Machine} (hf : os.fault m.calls = false)
    (hmay : Clears m.fs src_type dest → (overwrite && existed) = true)
    (h : clear_dest os overwrite existed src_type dest m = (existed', m₁)) :
    m₁.fs = cleared m.fs src_type dest ∧
      (∀ place, Clears m.fs src_type dest → locate_entry m.fs dest = .ok place →
        Access.change place ∈ m₁.log) ∧
      (Clears m.fs src_type dest → existed' = false ∧ m₁.calls = m.calls + 1) ∧
      (¬ Clears m.fs src_type dest → existed' = existed ∧ m₁ = m) := by
  have houtcome := clear_dest_cases os overwrite existed src_type dest m
  by_cases hclears : Clears m.fs src_type dest
  · -- the removal is tried; it can only fail for want of an entry
    have hgo : (clear_dest os overwrite existed src_type dest m).1 = false ∧
        ((∃ e, locate_entry m.fs dest = .error e ∧
            (clear_dest os overwrite existed src_type dest m).2 = m.tick) ∨
          ∃ place, locate_entry m.fs dest = .ok place ∧
            (clear_dest os overwrite existed src_type dest m).2 = m.tick.prune place) := by
      unfold clear_dest
      rw [if_pos (hmay hclears)]
      rcases hclears with ⟨ht, hmeta⟩ | ⟨ht, hmeta⟩
      · rw [hmeta]
        dsimp only
        rw [if_pos ⟨ht, rfl⟩]
        refine ⟨rfl, ?_⟩
        cases he : locate_entry m.fs dest with
        | error e =>
          refine Or.inl ⟨e, rfl, ?_⟩
          unfold remove_dir_all
          rw [he]
        | ok place =>
          refine Or.inr ⟨place, rfl, ?_⟩
          -- the entry is there, and of the type that is removed
          obtain ⟨q, x, hq, hx, hxt⟩ := metadata_ok hmeta
          obtain ⟨y, hy⟩ := Option.ne_none_iff_exists'.mp (entry_exists hq he)
          rw [remove_dir_all_ok hf he hy]
          intro c hc
          rw [hc] at hy
          have hqp := locate_of_entry he (by rw [hy]; simp) (locate_of_follow hq)
          rw [hqp, hy] at hx
          cases hx
          cases hxt
      · rw [hmeta]
        dsimp only
        rw [if_neg (fun h => h.1 ht), if_pos ⟨ht, rfl⟩]
        refine ⟨rfl, ?_⟩
        cases he : locate_entry m.fs dest with
        | error e =>
          refine Or.inl ⟨e, rfl, ?_⟩
          unfold remove_file
          rw [syscall_ok hf]
          dsimp only
          rw [tick_fs, he]
        | ok place =>
          refine Or.inr ⟨place, rfl, ?_⟩
          obtain ⟨q, x, hq, hx, hxt⟩ := metadata_ok hmeta
          obtain ⟨y, hy⟩ := Option.ne_none_iff_exists'.mp (entry_exists hq he)
          rw [remove_file_ok hf he hy]
          intro hc
          rw [hc] at hy
          have hqp := locate_of_entry he (by rw [hy]; simp) (locate_of_follow hq)
          rw [hqp, hy] at hx
          cases hx
          cases hxt
    rw [h] at hgo
    dsimp only at hgo
    obtain ⟨hex, ⟨e, he, hm₁⟩ | ⟨place, he, hm₁⟩⟩ := hgo
    · rw [hm₁]
      refine ⟨?_, fun place _ hp => ?_, fun _ => ⟨hex, rfl⟩, fun hn => absurd hclears hn⟩
      · unfold cleared
        rw [if_pos hclears, he]
        rfl
      · rw [he] at hp
        cases hp
    · rw [hm₁]
      refine ⟨(cleared_of_entry hclears he).symm, fun place' _ hp => ?_, fun _ => ⟨hex, rfl⟩,
        fun hn => absurd hclears hn⟩
      rw [he] at hp
      cases hp
      exact List.mem_append_right _ List.mem_cons_self
  · rw [h] at houtcome
    have hkept : existed' = existed ∧ m₁ = m := by
      cases houtcome with
      | kept _ => exact ⟨rfl, rfl⟩
      | removed _ _ _ hc _ _ _ _ => exact absurd hc hclears
      | failed _ _ hc _ _ _ _ => exact absurd hc hclears
    rw [hkept.2]
    exact ⟨(cleared_of_not hclears).symm, fun _ hc _ => absurd hc hclears,
      fun hc => absurd hc hclears, fun _ => ⟨hkept.1, rfl⟩⟩

/-! ## The phases together -/

/-- A removal that is called for is allowed. -/
theorem clears_may {req : Request} {w : World} {src_type : FileType} {dest : Path}
    (hover : (metadata w.machine.fs dest).isOk = true → parse_overwrite req.headers = true)
    (h : Clears w.machine.fs src_type dest) :
    (parse_overwrite req.headers && (metadata w.machine.fs dest).isOk) = true := by
  have hex : (metadata w.machine.fs dest).isOk = true := by
    rcases h with ⟨-, hm⟩ | ⟨-, hm⟩
    all_goals
      rw [hm]
      rfl
  rw [hover hex, hex]
  rfl

/-- A COPY or MOVE that has resolved its paths is refused, or runs its phases. -/
theorem transfer_cases (os : Os) (fuel : ℕ) (req : Request) (is_move : Bool) (src dest : Path)
    (w : World) :
    (w.Same (transfer os fuel req is_move src dest w).2 ∧
        (((metadata w.machine.fs dest).isOk = true ∧ parse_overwrite req.headers = false) ∨
          ∃ e, metadata w.machine.fs src = .error e)) ∨
      ∃ src_type, metadata w.machine.fs src = .ok src_type ∧
        ((metadata w.machine.fs dest).isOk = true → parse_overwrite req.headers = true) ∧
        ∃ existed m₁ res m₂,
          clear_dest os (parse_overwrite req.headers) (metadata w.machine.fs dest).isOk src_type dest
            w.machine = (existed, m₁) ∧
          copy_source os fuel is_move (parse_depth req.headers) src_type src dest existed m₁
            = (res, m₂) ∧
          ((∃ status, (transfer os fuel req is_move src dest w).1 = some (.error status)) ↔
            ∃ status, res = some (.error status)) ∧
          (transfer os fuel req is_move src dest w).2.machine =
            (if res = some (.ok ()) ∧ is_move = true then move_source os src_type src dest m₂
            else m₂) ∧
          (transfer os fuel req is_move src dest w).2.app.locks = w.app.locks ∧
          (transfer os fuel req is_move src dest w).2.app.dead_props =
            if res = some (.ok ()) then migrate_props is_move src dest w.app.dead_props
            else w.app.dead_props := by
  unfold transfer
  dsimp only
  -- the precondition failed: nothing has happened
  by_cases hover : ((metadata w.machine.fs dest).isOk && !parse_overwrite req.headers) = true
  · rw [if_pos hover]
    exact Or.inl ⟨World.Same.refl w, Or.inl (by simpa using hover)⟩
  · rw [if_neg hover]
    cases hmeta : metadata w.machine.fs src with
    | error e => exact Or.inl ⟨World.Same.refl w, Or.inr ⟨e, rfl⟩⟩
    | ok src_type =>
      dsimp only
      refine Or.inr ⟨src_type, rfl, fun hex => ?_, ?_⟩
      · rw [hex, Bool.true_and] at hover
        simpa using hover
      · rcases hclear : clear_dest os (parse_overwrite req.headers)
          (metadata w.machine.fs dest).isOk src_type dest w.machine with ⟨existed, m₁⟩
        rcases hcopy : copy_source os fuel is_move (parse_depth req.headers) src_type src dest
          existed m₁ with ⟨res, m₂⟩
        refine ⟨existed, m₁, res, m₂, rfl, hcopy, ?_⟩
        rw [aim_machine, hclear]
        dsimp only
        rw [hcopy]
        rcases res with _ | status | u
        · simp
        · simp
        · dsimp only
          cases is_move with
          | true => simp [World.on, World.aim, World.with_props]
          | false => simp [World.on, World.aim, World.with_props]

end Rshs.Transfer
