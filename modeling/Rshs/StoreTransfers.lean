/-
COPY and MOVE as commands on the hierarchy that is served.

Phase by phase, whatever the system calls do, nothing changes outside the destination, and
for a MOVE the source (`transfer_within`). A transfer that succeeds, between paths of which
neither is above the other, has laid the source over the destination (`laid_shows`); a MOVE
whose source could not be removed is the one exception, so for a MOVE the calls are those of
a system that does not fail by itself.
-/
import Rshs.StoreSteps
import Rshs.IntoItself

set_option autoImplicit false

namespace Rshs.StoreTransfers

open StdPath Posix Hierarchy Rshs.Webdav Rshs.Resolve Rshs.App Rshs.CopyMove Rshs.CopyRun
open Rshs.Transfer Rshs.CopyExact Rshs.Replace Rshs.Grounds Rshs.ServedRoot Rshs.StoreSteps

/-! ## Where the phases act -/

section Phases

variable {os : Os} {fuel : ℕ} {R src : Path} {is_move may existed existed' : Bool} {depth : Depth}
  {src_type : FileType} {p q : List Name} {m m₁ m₂ : Machine}
  {res : Option (Except StatusCode Unit)}

theorem clear_within (hg : Ground R m.fs) (hq : q ≠ [])
    (h : ClearOutcome src_type (R ++ q) may existed m (existed', m₁)) :
    Within R (fun s => q <+: s) (fun _ => False) m.fs m₁.fs := by
  have hplace : ∀ place, locate_entry m.fs (R ++ q) = .ok place → place = R ++ q :=
    fun place he => ((hg.locate_entry_iff hq).mp he).1
  cases h with
  | kept _ => exact Within.refl hg
  | removed place _ _ _ he _ hfs _ =>
    obtain rfl := hplace place he
    rw [hfs]
    refine Within.less hg (Fs.keeps_prune _) hq (fun a ha => ?_) (fun _ hs => hs)
    rw [Fs.node_prune (by simp [hq]), if_neg ha]
  | failed _ _ _ hkeeps hpart _ _ =>
    rcases hpart with hsame | ⟨place, he, -, -, hother⟩
    · exact Within.of_eq hg hsame
    · obtain rfl := hplace place he
      exact Within.less hg hkeeps hq hother (fun _ hs => hs)

theorem copy_step_within (hg : Ground R m.fs) (hq : q ≠ []) (h : CopyStep src (R ++ q) m m₁) :
    Within R (fun s => q <+: s) (fun s => q <+: s) m.fs m₁.fs := by
  have hlocate : ∀ r loc, locate m.fs (R ++ q ++ r) = .ok loc →
      loc = R ++ (q ++ r) ∧ Room R m.fs (q ++ r) := by
    intro r loc hl
    rw [List.append_assoc] at hl
    exact (hg.locate_iff (by simp [hq])).mp hl
  cases h with
  | idle hfs _ => exact Within.of_eq hg hfs
  | opened r c _ hfs _ => exact Within.of_eq hg hfs
  | made r loc _ hl _ hslot hfs _ =>
    obtain ⟨rfl, hroom⟩ := hlocate r loc hl
    rw [hfs]
    exact Within.made (e := .folder) hg hroom (List.prefix_append q r) (List.prefix_append q r)
      (Fs.node_set hslot)
  | filled r c loc bytes _ hl hslot hfs _ =>
    obtain ⟨rfl, hroom⟩ := hlocate r loc hl
    rw [hfs]
    exact Within.made (e := .file bytes) hg hroom (List.prefix_append q r) (List.prefix_append q r)
      (node_fill hslot)

theorem copies_within (hg : Ground R m.fs) (hq : q ≠ []) (h : Copies src (R ++ q) m m₁) :
    Within R (fun s => q <+: s) (fun s => q <+: s) m.fs m₁.fs := by
  induction h with
  | refl => exact Within.refl hg
  | tail _ hstep ih => exact ih.trans (copy_step_within ih.ground hq hstep)

theorem make_within (hg : Ground R m.fs) (hq : q ≠ []) :
    Within R (fun s => q <+: s) (fun s => q <+: s) m.fs (create_dir os (R ++ q) m).2.fs := by
  have hmade := @make_acted os R hg.tree q .folder m hg hg.shows hq
  refine hmade.within.mono (fun s hs => ?_) (fun s hs => ?_)
  · rw [hs.1]
  · rw [show s = q from hs]

theorem copy_source_within (hg : Ground R m.fs) (hq : q ≠ [])
    (hsrc : src_type = .dir → m.fs.node src = some .dir)
    (h : copy_source os fuel is_move depth src_type src (R ++ q) existed m = (res, m₁)) :
    Within R (fun s => q <+: s) (fun s => q <+: s) m.fs m₁.fs := by
  unfold copy_source at h
  split at h
  · rename_i ht
    split at h
    · split at h
      · cases h
        exact Within.refl hg
      · -- a shallow copy makes the directory at most
        have hmade := @make_within os R q m hg hq
        rcases hc : create_dir os (R ++ q) m with ⟨e | u, m'⟩
        all_goals
          rw [hc] at h hmade
          cases h
          exact hmade
    · exact copies_within hg hq (copy_dir_run (hsrc ht) h)
  · unfold copy_file at h
    rcases copy_cases os src (R ++ q) m with
      ⟨e, m', hc, hfs, -⟩ | ⟨s, c, loc, -, -, hl, hslot, r, m', bytes, hc, hfs, -, -⟩
    · rw [hc] at h
      cases h
      exact Within.of_eq hg hfs
    · obtain ⟨rfl, hroom⟩ := (hg.locate_iff hq).mp hl
      have hm : m₁ = m' := by
        rw [hc] at h
        rcases r with e | u
        all_goals
          cases h
          rfl
      rw [hm, hfs]
      exact Within.made (e := .file bytes) hg hroom List.prefix_rfl List.prefix_rfl (node_fill hslot)

/-- A removal of the source, whatever becomes of it. -/
theorem remove_within (hg : Ground R m.fs) (hp : p ≠ []) :
    Within R (fun s => p <+: s) (fun _ => False) m.fs
      (if src_type = .dir then (remove_dir_all os (R ++ p) m).2
        else (remove_file os (R ++ p) m).2).fs := by
  have hpruned : ∀ loc, locate_entry m.fs (R ++ p) = .ok loc →
      Within R (fun s => p <+: s) (fun _ => False) m.fs (m.fs.prune loc) := by
    intro loc hl
    obtain ⟨rfl, -⟩ := (hg.locate_entry_iff hp).mp hl
    refine Within.less hg (Fs.keeps_prune _) hp (fun a ha => ?_) (fun _ hs => hs)
    rw [Fs.node_prune (by simp [hp]), if_neg ha]
  split
  · rcases remove_dir_all_cases os (R ++ p) m with
      ⟨e, hr⟩ | ⟨loc, hl, ⟨chosen, -, hr⟩ | ⟨-, -, hr⟩⟩
    · rw [hr]
      exact Within.refl hg
    · rw [hr]
      obtain ⟨rfl, -⟩ := (hg.locate_entry_iff hp).mp hl
      exact Within.less hg (Fs.keeps_without _) hp
        (fun a ha => sweep_node (m := m.tick) a fun hb => ha hb.1) (fun _ hs => hs)
    · rw [hr]
      exact hpruned loc hl
  · rcases remove_file_cases os (R ++ p) m with ⟨e, hr⟩ | ⟨loc, hl, -, -, hr⟩
    · rw [hr]
      exact Within.refl hg
    · rw [hr]
      exact hpruned loc hl

theorem move_source_within (hg : Ground R m.fs) (hp : p ≠ []) (hq : q ≠ []) :
    Within R (fun s => p <+: s ∨ q <+: s) (fun s => q <+: s) m.fs
      (move_source os src_type (R ++ p) (R ++ q) m).fs := by
  have hremove : Within R (fun s => p <+: s ∨ q <+: s) (fun s => q <+: s) m.fs
      (if src_type = .dir then (remove_dir_all os (R ++ p) m.tick).2
        else (remove_file os (R ++ p) m.tick).2).fs :=
    (remove_within (m := m.tick) hg hp).mono (fun _ => Or.inl) (fun _ => False.elim)
  unfold move_source
  rcases rename_cases os (R ++ p) (R ++ q) m with
    ⟨r, hr⟩ | ⟨s, d, hs, hd, hmovable, -, -, hr⟩
  · rw [hr]
    rcases r with e | u
    · exact hremove
    · exact Within.refl hg
  · rw [hr]
    obtain ⟨rfl, -⟩ := (hg.locate_entry_iff hp).mp hs
    obtain ⟨rfl, hroom⟩ := (hg.locate_entry_iff hq).mp hd
    show Within R _ _ m.fs (if h : m.fs.Movable (R ++ p) (R ++ q)
      then m.fs.graft (R ++ p) (R ++ q) h else m.fs)
    rw [dif_pos hmovable]
    exact Within.moved hg hroom hp hmovable (fun _ hr => hr) (fun _ hr => hr)

end Phases

/-! ## The phases together -/

section Transfer

variable {os : Os} {cwd R : Path} {fuel : ℕ} {req : Request} {is_move : Bool} {w : World}
  {p q : List Name} {t : Files}

/-- What a COPY or MOVE may change, and where it may make something. -/
def command_of (is_move : Bool) (deep : Bool) (p q : List Name) : Command Name (List UInt8) :=
  if is_move then .move p q else .copy deep p q

/-- **A transfer stays within its command**; a MOVE of the root must not get as far as
removing it. -/
theorem transfer_within (hg : Ground R w.machine.fs) (hq : q ≠ [])
    (hreal : w.machine.fs.Real (R ++ p)) (deep : Bool)
    (hroot : is_move = true → p = [] →
      ((metadata w.machine.fs (R ++ q)).isOk = true → parse_overwrite req.headers = true) →
      ∀ existed m₁ res m₂, clear_dest os (parse_overwrite req.headers)
        (metadata w.machine.fs (R ++ q)).isOk .dir (R ++ q) w.machine = (existed, m₁) →
      copy_source os fuel is_move (parse_depth req.headers) .dir (R ++ p) (R ++ q) existed m₁
        = (res, m₂) → res ≠ some (.ok ())) :
    Within R ((command_of is_move deep p q).Scope t) (command_of is_move deep p q).Fills w.machine.fs
      (transfer os fuel req is_move (R ++ p) (R ++ q) w).2.machine.fs := by
  rcases transfer_cases os fuel req is_move (R ++ p) (R ++ q) w with
    ⟨hsame, -⟩ | ⟨src_type, hmeta, hover, existed, m₁, res, m₂, hclear, hcopy, -, hmachine, -⟩
  · rw [hsame.machine]
    exact Within.refl hg
  · have houtcome := clear_dest_cases os (parse_overwrite req.headers)
      (metadata w.machine.fs (R ++ q)).isOk src_type (R ++ q) w.machine
    rw [hclear] at houtcome
    have hcleared := clear_within hg hq houtcome
    have hcopied := copy_source_within hcleared.ground hq (clear_finds_dir houtcome hreal hmeta) hcopy
    have hboth := (hcleared.mono (fun _ => id) (fun _ => False.elim)).trans hcopied
    rw [hmachine]
    split
    · rename_i hlast
      obtain ⟨rfl, hmove⟩ := hlast
      subst hmove
      have hp : p ≠ [] := by
        intro hp
        -- the root is a directory
        have hdir : src_type = .dir := by
          obtain ⟨x, hx, hxt⟩ := hg.metadata_iff.mp hmeta
          rw [hp, List.append_nil, hg.root] at hx
          cases hx
          exact hxt.symm
        rw [hdir] at hclear hcopy
        exact hroot rfl hp hover _ _ _ _ hclear hcopy rfl
      exact (hboth.mono (fun _ => Or.inr) (fun _ => id)).trans
        (move_source_within hcopied.ground hp hq)
    · refine hboth.mono (fun s hs => ?_) (fun s hs => ?_)
      · cases is_move with
        | true => exact Or.inr hs
        | false => exact hs
      · cases is_move with
        | true => exact hs
        | false => exact hs

end Transfer

/-! ## What a copy has laid -/

section Laid

variable {os : Os} {fuel : ℕ} {R : Path} {src_type : FileType} {p q r : List Name} {fs fs' : Fs}
  {t : Files} {deep : Bool} {m m₁ m₂ : Machine}

theorem overlay_node_of (x y : Option (Entry (List UInt8))) :
    overlay (x.map node_of) (y.map node_of) = (lay x y).map node_of := by
  rcases x with _ | c | _
  · rfl
  · rfl
  · rcases y with _ | c | _
    all_goals rfl

/-- What is in the way of a copy is of the other kind. -/
theorem clears_iff (hg : Ground R fs) (ht : Shows R fs t) (hq : q ≠ []) (hroom : Room R fs q)
    (hmeta : metadata fs (R ++ p) = .ok src_type) :
    Clears fs src_type (R ++ q) ↔ differ (t.entry p) (t.entry q) := by
  have he := (hg.locate_entry_iff hq).mpr ⟨rfl, hroom⟩
  have hfree : fs.LinkFree (R ++ q) := by
    intro r u
    rw [List.append_assoc]
    exact hg.link_free _ u
  rw [clears_entry he hfree, ht q]
  obtain ⟨x, hx, rfl⟩ := hg.metadata_iff.mp hmeta
  rw [ht p] at hx
  obtain ⟨e, hp, rfl⟩ := Option.map_eq_some_iff.mp hx
  rw [hp]
  rcases e with c | _
  all_goals
    rcases t.entry q with _ | c' | _
    all_goals simp [differ, node_of, Node.file_type]

theorem cleared_shows (hg : Ground R fs) (ht : Shows R fs t) (hq : q ≠ []) (hroom : Room R fs q)
    (hmeta : metadata fs (R ++ p) = .ok src_type) (r : List Name) :
    (cleared fs src_type (R ++ q)).node (R ++ q ++ r) = (t.ground p q r).map node_of := by
  have he := (hg.locate_entry_iff hq).mpr ⟨rfl, hroom⟩
  have hiff := clears_iff hg ht hq hroom hmeta
  rw [cleared_below he]
  unfold Tree.ground
  by_cases hd : differ (t.entry p) (t.entry q)
  · rw [if_pos (hiff.mpr hd), if_pos hd]
    rfl
  · rw [if_neg (fun hc => hd (hiff.mp hc)), if_neg hd, List.append_assoc]
    exact ht _

/-- **A copy that is laid over its destination** fits there. -/
theorem laid_shows (ht : Shows R fs t) (hsrc : t.entry p ≠ none) (hplace : t.Place q)
    (hpq : ¬ p <+: q) (hqp : ¬ q <+: p) (hframe : ∀ a, ¬ R ++ q <+: a → fs'.node a = fs.node a)
    (hlaid : ∀ r, fs'.node (R ++ q ++ r) = (lay (t.branch deep p r) (t.ground p q r)).map node_of)
    (hkeeps : ∀ r, t.ground p q r = some .folder → fs'.node (R ++ q ++ r) = some .dir) :
    ∃ hf : t.Fits deep p q, Shows R fs' (t.laid deep p q hf) := by
  have hf : t.Fits deep p q := by
    refine ⟨hsrc, hplace, hpq, hqp, fun r c hb hfolder => ?_, fun r n c hb hfile => ?_⟩
    · -- directories stay directories
      have hdir := hkeeps r hfolder
      rw [hlaid, hb] at hdir
      cases hdir
    · -- and below a file nothing is made
      have hnode := hlaid r
      rw [t.branch_above hb, hfile] at hnode
      have hbelow : fs'.node (R ++ q ++ r ++ [n]) ≠ none := by
        rw [List.append_assoc, hlaid]
        intro hnone
        exact hb (lay_eq_none (Option.map_eq_none_iff.mp hnone))
      rw [fs'.parent_dir _ n hbelow] at hnode
      cases hnode
  refine ⟨hf, fun s => ?_⟩
  by_cases hs : q <+: s
  · obtain ⟨r, rfl⟩ := hs
    rw [laid_at, ← List.append_assoc]
    exact hlaid r
  · rw [laid_frame hf hs, hframe]
    · exact ht s
    · exact fun hpre => hs ((List.prefix_append_right_inj R).mp hpre)

/-- **A MOVE whose calls do not fail** leaves the copy without its source. -/
theorem moved_shows (hcalm : ∀ n, os.fault n = false) (hf : t.Fits true p q)
    (hl : Shows R m₂.fs (t.laid true p q hf)) (hm : Moved os (R ++ p) (R ++ q) m₂ fs') :
    Shows R fs' ((t.laid true p q hf).prune p hf.source_ne_nil) := by
  intro s
  show fs'.node (R ++ s) = (if p <+: s then none else (t.laid true p q hf).entry s).map node_of
  cases hm with
  | renamed _ hempty hnode =>
    rw [hnode]
    by_cases hq : q <+: s
    · obtain ⟨r, rfl⟩ := hq
      rw [← List.append_assoc, if_pos (List.prefix_append _ _), List.drop_left, if_neg hf.apart.2,
        List.append_assoc, hl, laid_frame hf hf.apart.1]
      -- what is at the source is what was laid: the place itself, and nothing below it
      congr 1
      by_cases hr : r = []
      · rw [hr, List.append_nil, List.append_nil, laid_root]
      · obtain ⟨n, r', rfl⟩ := List.exists_cons_of_ne_nil hr
        have hn := hempty n
        rw [List.append_assoc, hl.none_iff] at hn
        have hnone := (t.laid true p q hf).none_below hn
          (show q ++ [n] <+: q ++ n :: r' from ⟨r', by simp⟩)
        rw [hnone]
        rw [laid_at] at hnone
        have hb := lay_eq_none hnone
        unfold Tree.branch at hb
        rw [if_pos (Or.inl rfl)] at hb
        exact hb
    · rw [if_neg (fun hpre => hq ((List.prefix_append_right_inj R).mp hpre))]
      by_cases hp : p <+: s
      · rw [if_pos ((List.prefix_append_right_inj R).mpr hp), if_pos hp]
        rfl
      · rw [if_neg (fun hpre => hp ((List.prefix_append_right_inj R).mp hpre)), if_neg hp]
        exact hl s
  | removed _ _ hnode =>
    rw [hnode]
    by_cases hp : p <+: s
    · rw [if_pos ((List.prefix_append_right_inj R).mpr hp), if_pos hp]
      rfl
    · rw [if_neg (fun hpre => hp ((List.prefix_append_right_inj R).mp hpre)), if_neg hp]
      exact hl s
  | stuck _ hcall _ _ =>
    rw [hcalm] at hcall
    cases hcall

end Laid

/-! ## What a transfer that succeeds has done -/

section Effect

variable {os : Os} {cwd R src : Path} {fuel : ℕ} {req : Request} {is_move may existed existed' : Bool}
  {depth : Depth} {w : World} {src_type : FileType} {p q : List Name} {t : Files}
  {m m₁ m₂ : Machine} {status : StatusCode}

/-- What is taken to exist after the clearing does. -/
theorem existed_stands (hg : Ground R m.fs) (hexisted : existed = (metadata m.fs (R ++ q)).isOk)
    (h : ClearOutcome src_type (R ++ q) may existed m (existed', m₁)) (htrue : existed' = true) :
    m₁.fs = m.fs ∧ m₁.fs.node (R ++ q) ≠ none := by
  cases h with
  | kept _ =>
    rw [hexisted] at htrue
    exact ⟨rfl, hg.metadata_isOk.mp htrue⟩
  | removed _ _ _ _ _ _ _ _ => cases htrue
  | failed _ _ _ _ _ _ _ => cases htrue

/-- Where a transfer has succeeded there was room for it. -/
theorem room_of_copied (hg : Ground R m.fs) (hq : q ≠ []) (hreal : m.fs.Real (R ++ p))
    {overwrite : Bool} (hmeta : metadata m.fs (R ++ p) = .ok src_type)
    (hclear : clear_dest os overwrite (metadata m.fs (R ++ q)).isOk src_type (R ++ q) m
      = (existed', m₁))
    (hcopy : copy_source os fuel is_move depth src_type (R ++ p) (R ++ q) existed' m₁
      = (some (.ok ()), m₂)) : Room R m.fs q := by
  have houtcome := clear_dest_cases os overwrite (metadata m.fs (R ++ q)).isOk src_type (R ++ q) m
  rw [hclear] at houtcome
  have hcleared := clear_within hg hq houtcome
  have hcopied := copy_source_within hcleared.ground hq (clear_finds_dir houtcome hreal hmeta) hcopy
  -- the destination stands, so its parent is a directory, and was one
  have hpresent := Losses.dest_present hreal hmeta hclear hcopy
  have hstands := hcopied.ground.metadata_isOk.mp hpresent
  obtain ⟨-, hdir, hnul⟩ := hcopied.ground.room_of_some hq hstands
  have hout : ¬ q <+: q.dropLast := by
    intro hpre
    have hlen := hpre.length_le
    have hpos := List.length_pos_iff.mpr hq
    rw [List.length_dropLast] at hlen
    omega
  rw [hcopied.frame _ hout, hcleared.frame _ hout] at hdir
  exact ⟨hq, hdir, hnul⟩

/-- A copy without its entries: the directory is there, or is made. -/
theorem shallow_laid (hg : Ground R m.fs) (ht : Shows R m.fs t) (hq : q ≠ [])
    (hroom : Room R m.fs q) (hdir : m.fs.node (R ++ p) = some .dir)
    (hmay : Clears m.fs .dir (R ++ q) → may = true)
    (hexisted : existed = (metadata m.fs (R ++ q)).isOk)
    (hclear : ClearOutcome .dir (R ++ q) may existed m (existed', m₁))
    (hcopy : copy_source os fuel false .Zero .dir (R ++ p) (R ++ q) existed' m₁
      = (some (.ok ()), m₂)) :
    (∀ a, ¬ R ++ q <+: a → m₂.fs.node a = m.fs.node a) ∧
      ∀ r, m₂.fs.node (R ++ q ++ r) =
        (lay (t.branch false p r) (t.ground p q r)).map node_of := by
  have hentry : t.entry p = some .folder := ht.folder_iff.mp hdir
  have hmeta : metadata m.fs (R ++ p) = .ok .dir := hg.metadata_iff.mpr ⟨.dir, hdir, rfl⟩
  have hcleared := cleared_shows hg ht hq hroom hmeta
  have he := (hg.locate_entry_iff hq).mpr ⟨rfl, hroom⟩
  -- without its entries, the source is the directory alone
  have hbranch : ∀ r, r ≠ [] → t.branch false p r = none := by
    intro r hr
    unfold Tree.branch
    rw [if_neg (by simp [hr])]
  have hroot : t.branch false p [] = some .folder := by
    unfold Tree.branch
    rw [if_pos (Or.inr rfl), List.append_nil, hentry]
  unfold copy_source at hcopy
  rw [if_pos rfl, if_pos ⟨rfl, rfl⟩] at hcopy
  -- the destination has been cleared, or stands because removing it failed
  rcases tree_of_clear hclear hmay with hfs | ⟨hclears, hfalse, -, -, hsame⟩
  · have hframe : ∀ a, ¬ R ++ q <+: a → m₁.fs.node a = m.fs.node a := by
      intro a ha
      rw [hfs, cleared_frame he ha]
    split at hcopy
    · rename_i htrue
      cases hcopy
      obtain ⟨-, hstands⟩ := existed_stands hg hexisted hclear htrue
      refine ⟨hframe, fun r => ?_⟩
      rw [hfs, hcleared]
      by_cases hr : r = []
      · -- what is there stays
        subst hr
        have hsome : t.ground p q [] ≠ none := by
          intro hnone
          have hnode := hcleared []
          rw [hnone, List.append_nil, ← hfs] at hnode
          exact hstands hnode
        obtain ⟨y, hy⟩ := Option.ne_none_iff_exists'.mp hsome
        rw [hroot, hy]
        rfl
      · rw [hbranch r hr]
        rfl
    -- nothing stands there: the directory is made
    · rcases make_cases os .dir (R ++ q) m₁ with ⟨e, hc⟩ | ⟨loc, hl, hnone, hslot, hc⟩
      · rw [create_dir, hc] at hcopy
        cases hcopy
      · rw [create_dir, hc] at hcopy
        cases hcopy
        have hkeeps := clear_keeps hclear
        have hloc : loc = R ++ q := (locate_entry_unique hkeeps hl he).symm
        subst hloc
        have hnode : ∀ a, (m₁.fs.set (R ++ q) .dir).node a =
            if a = R ++ q then some .dir else m₁.fs.node a := Fs.node_set hslot
        refine ⟨fun a ha => ?_, fun r => ?_⟩
        · show (m₁.fs.set (R ++ q) .dir).node a = _
          rw [hnode, if_neg (fun heq => ha (by rw [heq])), hframe a ha]
        · show (m₁.fs.set (R ++ q) .dir).node _ = _
          rw [hnode]
          by_cases hr : r = []
          · subst hr
            have hground : t.ground p q [] = none := by
              have hold := hcleared []
              rw [List.append_nil, ← hfs, hnone] at hold
              exact Option.map_eq_none_iff.mp hold.symm
            rw [List.append_nil, if_pos rfl, hroot, hground]
            rfl
          · rw [if_neg (by simpa using hr), hbranch r hr, hfs, hcleared]
            rfl
  · -- a file could not be removed
    exfalso
    rw [hfalse, if_neg Bool.false_ne_true] at hcopy
    rcases make_cases os .dir (R ++ q) m₁ with ⟨e, hc⟩ | ⟨loc, hl, hnone, -, -⟩
    · rw [create_dir, hc] at hcopy
      cases hcopy
    · rw [hsame rfl] at hl hnone
      exact clears_blocks_dir hclears hl hnone

/-- How deep a transfer goes. -/
def deep_of (is_move : Bool) (depth : Depth) : Bool := is_move || decide (depth ≠ .Zero)

/-- A file has nothing below it to be copied. -/
theorem branch_file {c : List UInt8} (h : t.entry p = some (.file c)) (deep : Bool)
    (r : List Name) : t.branch deep p r = t.branch true p r := by
  unfold Tree.branch
  by_cases hr : r = []
  · rw [if_pos (Or.inr hr), if_pos (Or.inr hr)]
  · rw [if_pos (Or.inl rfl)]
    split
    · rfl
    · by_contra hne
      have hfolder := t.folder_above (Ne.symm hne) (List.prefix_append p r)
        (fun heq => hr (by simpa using heq))
      rw [h] at hfolder
      cases hfolder

/-- **The copy of a transfer that succeeds** is laid over the destination. -/
theorem transfer_laid (hg : Ground R w.machine.fs) (ht : Shows R w.machine.fs t) (hq : q ≠ [])
    (hreal : w.machine.fs.Real (R ++ p)) (hpq : ¬ p <+: q) (hqp : ¬ q <+: p)
    (hok : (transfer os fuel req is_move (R ++ p) (R ++ q) w).1 = some (.ok status)) :
    ∃ (m₂ : Machine) (hf : t.Fits (deep_of is_move (parse_depth req.headers)) p q),
      Shows R m₂.fs (t.laid _ p q hf) ∧
      (is_move = false →
        (transfer os fuel req is_move (R ++ p) (R ++ q) w).2.machine.fs = m₂.fs) ∧
      (is_move = true → Moved os (R ++ p) (R ++ q) m₂
        (transfer os fuel req is_move (R ++ p) (R ++ q) w).2.machine.fs) := by
  obtain ⟨src_type, existed, m₁, m₂, hmeta, hover, hclear, hcopy, hmachine⟩ := transfer_ok hok
  have hroom := room_of_copied hg hq hreal hmeta hclear hcopy
  have hset : Setting w.machine.fs (R ++ p) (R ++ q) (R ++ q) := by
    refine ⟨(hg.locate_entry_iff hq).mpr ⟨rfl, hroom⟩, fun r u => ?_, fun h => ?_, fun h => ?_⟩
    · rw [List.append_assoc]
      exact hg.link_free _ u
    · exact hpq ((List.prefix_append_right_inj R).mp h)
    · exact hqp ((List.prefix_append_right_inj R).mp h)
  have hsrc : t.entry p ≠ none := fun hnone => hreal.ne_none (ht.none_iff.mpr hnone)
  by_cases hshallow : src_type = .dir ∧ is_move = false ∧ parse_depth req.headers = .Zero
  · -- a directory alone
    obtain ⟨rfl, rfl, hdepth⟩ := hshallow
    have houtcome := clear_dest_cases os (parse_overwrite req.headers)
      (metadata w.machine.fs (R ++ q)).isOk .dir (R ++ q) w.machine
    rw [hclear] at houtcome
    rw [hdepth] at hcopy
    obtain ⟨hframe, hlaid⟩ := shallow_laid hg ht hq hroom (real_dir hreal hmeta) (clears_may hover)
      rfl houtcome hcopy
    rw [hdepth]
    obtain ⟨hf, hshows⟩ := laid_shows ht hsrc (ht.place hroom) hpq hqp hframe hlaid
      (fun r hr => by
        rw [hlaid, hr]
        rcases hb : t.branch false p r with _ | c | _
        · rfl
        · exfalso
          -- only the directory itself is copied
          have hentry := ht.folder_iff.mp (real_dir hreal hmeta)
          unfold Tree.branch at hb
          split at hb
          · rename_i hnil
            rw [hnil.resolve_left Bool.false_ne_true, List.append_nil, hentry] at hb
            cases hb
          · cases hb
        · rfl)
    refine ⟨m₂, hf, hshows, fun _ => ?_, nofun⟩
    rw [hmachine]
    rfl
  · -- a file, or a directory with what is in it
    have hcopied : ∃ m₂, Copied w.machine src_type (R ++ p) (R ++ q) (R ++ q) m₂ ∧
        (is_move = false →
          (transfer os fuel req is_move (R ++ p) (R ++ q) w).2.machine.fs = m₂.fs) ∧
        (is_move = true → Moved os (R ++ p) (R ++ q) m₂
          (transfer os fuel req is_move (R ++ p) (R ++ q) w).2.machine.fs) := by
      by_cases hzero : is_move = false ∧ parse_depth req.headers = .Zero
      · have hfile : src_type ≠ .dir := fun h => hshallow ⟨h, hzero⟩
        obtain ⟨-, c, hc⟩ := real_file hreal hmeta hfile
        have houtcome := clear_dest_cases os (parse_overwrite req.headers)
          (metadata w.machine.fs (R ++ q)).isOk src_type (R ++ q) w.machine
        rw [hclear] at houtcome
        have hcalls := clear_dest_calls (clears_may hover) hclear
        refine ⟨m₂, copied_file hset hc hfile (clears_may hover) hcalls houtcome hcopy, ?_, ?_⟩
        · intro hm
          rw [hmachine, hm]
          rfl
        · intro hm
          rw [hzero.1] at hm
          cases hm
      · exact transfer_exact hset hreal (names_nul_free hg.nul_free hreal.ne_none) hmeta
          (fun hm hz => hzero ⟨hm, hz⟩) hok
    obtain ⟨m₂, hc, hcopy, hmove⟩ := hcopied
    have hcleared := cleared_shows hg ht hq hroom hmeta
    have hbranch : ∀ r, t.branch (deep_of is_move (parse_depth req.headers)) p r = t.entry (p ++ r) := by
      intro r
      have htrue : t.branch true p r = t.entry (p ++ r) := if_pos (Or.inl rfl)
      by_cases hdeep : deep_of is_move (parse_depth req.headers) = true
      · rw [hdeep, htrue]
      · -- then it is a file
        have hfile : src_type ≠ .dir := by
          intro h
          apply hshallow
          unfold deep_of at hdeep
          rw [Bool.or_eq_true, not_or] at hdeep
          exact ⟨h, by simpa using hdeep.1, by simpa using hdeep.2⟩
        obtain ⟨-, c, hfc⟩ := real_file hreal hmeta hfile
        rw [branch_file (ht.file_iff.mp hfc), htrue]
    have hlaid : ∀ r, m₂.fs.node (R ++ q ++ r) =
        (lay (t.branch (deep_of is_move (parse_depth req.headers)) p r)
          (t.ground p q r)).map node_of := by
      intro r
      rw [hc.laid, hcleared, List.append_assoc, ht, overlay_node_of, hbranch]
    obtain ⟨hf, hshows⟩ := laid_shows ht hsrc (ht.place hroom) hpq hqp hc.frame hlaid (fun r hr => by
      apply hc.keeps.dir
      rw [hcleared, hr]
      rfl)
    exact ⟨m₂, hf, hshows, hcopy, hmove⟩

/-- The command of a COPY or MOVE was performed: it succeeded, neither path is above the
other, and no call of a MOVE has failed by itself. -/
structure Transferred (os : Os) (is_move : Bool) (p q : List Name) (reply : Option AppResult) :
    Prop where
  success : ∃ status, reply = some (.ok status)
  src_apart : ¬ p <+: q
  dst_apart : ¬ q <+: p
  calm : is_move = true → ∀ n, os.fault n = false

/-- A request that succeeds has got to its transfer. -/
theorem transfer_of_success (hok : (do_move_or_copy os cwd fuel req is_move w).1 = some (.ok status)) :
    ∃ text src dest, parse_destination req.headers = some text ∧
      w.resolve_existing cwd req.uri_path = some src ∧
      (w.resolve_and_guard cwd text).1 = .ok dest ∧
      do_move_or_copy os cwd fuel req is_move w =
        transfer os fuel req is_move src dest (w.resolve_and_guard cwd text).2 := by
  -- whoever is refused while its paths are resolved has not succeeded
  have hpath := hok
  unfold do_move_or_copy at hpath
  split at hpath
  · cases hpath
  rename_i text htext
  split at hpath
  · cases hpath
  rename_i src hsrc
  split at hpath
  · cases hpath
  split at hpath
  · cases hpath
  rcases hr : w.resolve_and_guard cwd text with ⟨e | dest, w'⟩
  · rw [hr] at hpath
    cases hpath
  have hguard : (w.resolve_and_guard cwd text).1 = .ok dest := by rw [hr]
  refine ⟨text, src, dest, htext, hsrc, hguard, guard_misses htext hsrc hguard ?_⟩
  intro hspelled
  rw [guard_hits htext hsrc (resolve_and_guard_ok_iff.mp hguard).1 hspelled] at hok
  cases hok

/-- A MOVE of the root, into itself, does not get as far as removing it. -/
theorem root_stays (h : Serving cwd R w.app w.machine.fs) {text : List Char} (hq : q ≠ [])
    (htext : parse_destination req.headers = some text)
    (hsrc : w.resolve_existing cwd req.uri_path = some R)
    (hspelled : ¬ Spelled w.app.root_dir text R)
    (hdest : (w.resolve_and_guard cwd text).1 = .ok (R ++ q))
    (hover : (metadata w.machine.fs (R ++ q)).isOk = true → parse_overwrite req.headers = true)
    {res : Option (Except StatusCode Unit)}
    (hclear : clear_dest os (parse_overwrite req.headers) (metadata w.machine.fs (R ++ q)).isOk .dir
      (R ++ q) w.machine = (existed, m₁))
    (hcopy : copy_source os fuel true (parse_depth req.headers) .dir R (R ++ q) existed m₁
      = (res, m₂)) : res ≠ some (.ok ()) := by
  rintro rfl
  have hg := h.ground
  have hmeta : metadata w.machine.fs R = .ok .dir := by
    have hiff := @Ground.metadata_iff R w.machine.fs [] hg .dir
    rw [List.append_nil] at hiff
    exact hiff.mpr ⟨.dir, hg.root, rfl⟩
  have hcopying : Answered.Copying cwd req true w R (R ++ q) :=
    ⟨⟨text, htext, hsrc, hspelled, hdest, hmeta, hover⟩, by simp⟩
  have hroom : Room R w.machine.fs q := by
    have hroot := @room_of_copied os R fuel true existed (parse_depth req.headers) .dir [] q
      w.machine m₁ m₂ hg hq
    rw [List.append_nil] at hroot
    exact hroot h.root_real hmeta hclear hcopy
  have hfree : w.machine.fs.LinkFree (R ++ q) := by
    intro r u
    rw [List.append_assoc]
    exact hg.link_free _ u
  exact (IntoItself.inside_phases hcopying hq ((hg.locate_entry_iff hq).mpr ⟨rfl, hroom⟩) hfree hclear
    hcopy).1 rfl

/-- **COPY and MOVE** lay their source over their destination. -/
theorem do_move_or_copy_acted (h : Serving cwd R w.app w.machine.fs)
    (ht : Shows R w.machine.fs t)
    (hs : ∀ src, w.resolve_existing cwd req.uri_path = some src → src = R ++ p)
    (hd : ∀ text, parse_destination req.headers = some text → target_names text = q) :
    Acted R t (command_of is_move (deep_of is_move (parse_depth req.headers)) p q)
      (Transferred os is_move p q (do_move_or_copy os cwd fuel req is_move w).1) w.machine.fs
      (do_move_or_copy os cwd fuel req is_move w).2.machine.fs := by
  constructor
  · rcases do_move_or_copy_cases os cwd fuel req is_move w with
      hsame | ⟨text, src, dest, htext, hsrc, hspelled, hdest, hgo⟩
    · exact Within.of_eq h.ground (by rw [hsame.machine])
    · obtain rfl := hs src hsrc
      obtain ⟨-, hq, rfl⟩ := h.guard hdest
      obtain rfl := hd text htext
      rw [hgo]
      refine transfer_within (w := (w.resolve_and_guard cwd text).2) h.ground hq
        (resolve_existing_real hsrc) _ ?_
      intro hmove hp hover existed m₁ res m₂ hclear hcopy
      subst hmove hp
      rw [List.append_nil] at hsrc hspelled hcopy
      exact root_stays h hq htext hsrc hspelled hdest hover hclear hcopy
  · rintro ⟨⟨status, hok⟩, hpq, hqp, hcalm⟩
    obtain ⟨text, src, dest, htext, hsrc, hdest, hgo⟩ := transfer_of_success hok
    obtain rfl := hs src hsrc
    obtain ⟨-, hq, rfl⟩ := h.guard hdest
    obtain rfl := hd text htext
    rw [hgo] at hok ⊢
    obtain ⟨m₂, hf, hshows, hcopy, hmove⟩ := transfer_laid (w := (w.resolve_and_guard cwd text).2)
      h.ground ht hq (resolve_existing_real hsrc) hpq hqp hok
    cases is_move with
    | false =>
      refine ⟨hf, ?_⟩
      rw [hcopy rfl]
      exact hshows
    | true => exact ⟨hf, moved_shows (hcalm rfl) hf hshows (hmove rfl)⟩

end Effect

end Rshs.StoreTransfers
