/-
A recursive copy computes the overlay of the source on its destination.

`copy_dir_exact` says what a copy that succeeds has made. Here the copy is shown to
succeed: while no call fails by itself, and nothing in the destination has the wrong type,
every step of the loops goes well, and the loop ends, since neither tree lies in the other.

`Ready` is the invariant of the outer loop. Beside the progress of the copy it holds that
the destination of each directory on the stack is there.
-/
import Rshs.CopySpins

set_option autoImplicit false

namespace Rshs.Overlay

open StdPath Posix Rshs.Webdav Rshs.CopyMove Rshs.CopyRun Rshs.CopyExact Rshs.CopyEnds
open Rshs.CopySpins

/-- Nothing in the destination has the wrong type for what is copied there. -/
structure Compatible (fs : Fs) (src place : Path) : Prop where
  files : ∀ r c, fs.node (src ++ r) = some (.file c) → fs.node (place ++ r) ≠ some .dir
  dirs : ∀ r, fs.node (src ++ r) = some .dir → ∀ c, fs.node (place ++ r) ≠ some (.file c)

section Loop

variable {os : Os} {fs₀ fs : Fs} {src dst place : Path} {m : Machine}
  {pending : List Name → Prop} {p : List Name} {ps : List (List Name)}

/-- The copy keeps the types right. -/
theorem Compatible.now (hc : Compatible fs₀ src place) (h : Progress fs₀ fs src place pending)
    (r : List Name) :
    (∀ c, fs₀.node (src ++ r) = some (.file c) → fs.node (place ++ r) ≠ some .dir) ∧
      (fs₀.node (src ++ r) = some .dir → ∀ c, fs.node (place ++ r) ≠ some (.file c)) := by
  constructor
  · intro c hfile
    rcases h.each r with heq | heq
    · rw [heq]
      exact hc.files r c hfile
    · rw [heq, hfile]
      simp [overlay]
  · intro hdir c
    rcases h.each r with heq | heq
    · rw [heq]
      exact hc.dirs r hdir c
    · rw [heq, hdir]
      intro hfile
      rcases overlay_eq_file hfile with ⟨c', hnew⟩ | hold
      · cases hnew
      · exact hc.dirs r hdir c hold

/-- The state of the outer loop. -/
structure Ready (fs₀ fs : Fs) (src dst place : Path) (ps : List (List Name)) : Prop where
  progress : Progress fs₀ fs src place (Pending src dst (pairs src dst ps))
  source : ∀ p ∈ ps, fs₀.node (src ++ p) = some .dir
  made : ∀ p ∈ ps, fs.node (place ++ p) = some .dir

theorem Ready.stack (h : Ready fs₀ fs src dst place ps) :
    StackOk src dst fs₀ (pairs src dst ps) := by
  intro pair hpair
  obtain ⟨p, hp, rfl⟩ := List.mem_map.mp hpair
  exact ⟨p, rfl, h.source p hp⟩

/-- A directory can be read while nothing fails. -/
theorem read_dir_calm (hcalm : ∀ i, os.fault i = false) {d : Path}
    (hdir : m.fs.node d = some .dir) : ∃ entries, read_dir os d m = (.ok entries, m.tick) := by
  unfold read_dir
  rw [syscall_ok (hcalm _), tick_fs, follow_self ⟨.dir, hdir, by simp⟩]
  dsimp only
  rw [if_neg (not_not.mpr hdir)]
  exact ⟨_, rfl⟩

variable (hcalm : ∀ i, os.fault i = false) (hset : Setting fs₀ src dst place)
  (hcompat : Compatible fs₀ src place) (hnul : NulFree fs₀)

include hcalm hset hcompat hnul

/-- **One round goes well**: a directory of the source is read, and all its entries are
copied. -/
theorem ready_step (h : Ready fs₀ m.fs src dst place (p :: ps)) :
    ∃ entries ps' m', read_dir os (src ++ p) m = (.ok entries, m.tick) ∧
      copy_entries os (src ++ p) (dst ++ p) entries (pairs src dst ps) m.tick
        = (.ok (pairs src dst ps'), m') ∧
      Ready fs₀ m'.fs src dst place ps' := by
  -- nothing has been written below the source, so that it is read as it was
  have hframe : ∀ r, m.fs.node (src ++ p ++ r) = fs₀.node (src ++ p ++ r) := by
    intro r
    rw [List.append_assoc]
    exact h.progress.frame _ (hset.not_prefix _)
  have hdir : m.fs.node (src ++ p) = some .dir := by
    rw [h.progress.frame _ (hset.not_prefix _)]
    exact h.source p List.mem_cons_self
  obtain ⟨entries, hread⟩ := read_dir_calm hcalm hdir
  obtain ⟨-, hmem, hperm⟩ := read_dir_real hdir hread
  have hentries : ∀ n t, (n, t) ∈ entries →
      ∃ x, fs₀.node (src ++ (p ++ [n])) = some x ∧ x.file_type = t := by
    intro n t hn
    obtain ⟨x, hx, ht⟩ := (hmem n t).mp hn
    rw [hframe, List.append_assoc] at hx
    exact ⟨x, hx, ht⟩
  -- each entry can be copied: its name is one, and its place is free or of its kind
  have hcopyable : Copyable m.tick.fs src dst place p entries := by
    refine ⟨locate_entry_keeps h.progress.extends_start.keeps hset.entry,
      h.progress.link_free hset.link_free, h.made p List.mem_cons_self, ?_,
      hperm.nodup_iff.mpr (Fs.children_nodup _), ?_⟩
    · intro n n' heq
      exact hset.not_prefix (p ++ [n]) (by rw [heq]; exact List.prefix_append _ _)
    · intro n t hn
      obtain ⟨x, hx, ht⟩ := hentries n t hn
      refine ⟨?_, ?_, ?_⟩
      · refine hnul (src ++ p) n ?_
        rw [List.append_assoc, hx]
        exact Option.some_ne_none x
      · refine ⟨x, ?_, ht⟩
        rw [tick_fs, h.progress.frame _ (hset.not_prefix _)]
        exact hx
      · intro hfile
        obtain ⟨c, hc⟩ := node_of_file hx (ht.trans hfile)
        exact (hcompat.now h.progress (p ++ [n])).1 c hc
  obtain ⟨stack', m', hgo, -, hext, -, hlaid⟩ :=
    @copy_entries_calm m.tick src dst place p entries (pairs src dst ps) hcopyable
  rw [← copy_entries_calm_eq hcalm] at hgo
  have hstack := copy_entries_stack hgo
  subst hstack
  refine ⟨entries, pushed p entries ++ ps, m', hread, hgo, ?_, ?_, ?_⟩
  · -- the progress, with the entries that were read in the place of their directory
    have hlisted : Progress fs₀ m.tick.fs src place
        fun r => Pending src dst (pairs src dst ps) r ∨ Listed p entries r :=
      h.progress.listed hframe hmem
    have hrest : StackOk src dst fs₀ (pairs src dst ps) :=
      fun pair hpair => h.stack pair (List.mem_cons_of_mem _ hpair)
    exact (copy_entries_exact hset hentries hlisted hrest hgo).1
  · intro q hq
    rcases List.mem_append.mp hq with hq | hq
    · obtain ⟨n, hn, rfl⟩ := mem_pushed.mp hq
      obtain ⟨x, hx, ht⟩ := hentries n _ hn
      exact node_of_dir hx ht
    · exact h.source q (List.mem_cons_of_mem p hq)
  · intro q hq
    rcases List.mem_append.mp hq with hq | hq
    · -- a directory that was made, or was there
      obtain ⟨n, hn, rfl⟩ := mem_pushed.mp hq
      obtain ⟨x, hx, ht⟩ := hentries n _ hn
      have hsrc := node_of_dir hx ht
      have hold := (hcompat.now h.progress (p ++ [n])).2 hsrc
      have hlink := h.progress.link_free hset.link_free (p ++ [n])
      rw [hlaid n _ hn, tick_fs, h.progress.frame _ (hset.not_prefix _), hsrc]
      cases hy : m.fs.node (place ++ (p ++ [n])) with
      | none => rfl
      | some y =>
        cases y with
        | dir => rfl
        | file c => exact absurd hy (hold c)
        | symlink t => exact absurd hy (hlink t)
    · exact hext.keeps.dir (h.made q (List.mem_cons_of_mem p hq))

/-- **So the loop never fails.** -/
theorem ready_run {fuel : ℕ} (h : Ready fs₀ m.fs src dst place ps) {status : StatusCode}
    {m' : Machine} :
    copy_loop os fuel (pairs src dst ps) m ≠ (some (.error status), m') := by
  induction fuel generalizing m ps with
  | zero =>
    intro hloop
    cases ps with
    | nil => cases hloop
    | cons p ps => cases hloop
  | succ fuel ih =>
    intro hloop
    cases ps with
    | nil => cases hloop
    | cons p ps =>
      obtain ⟨entries, ps', m₁, hread, hgo, hready⟩ := ready_step hcalm hset hcompat hnul h
      have hloop' : copy_loop os (fuel + 1) ((src ++ p, dst ++ p) :: pairs src dst ps) m
          = (some (.error status), m') := hloop
      unfold copy_loop at hloop'
      rw [hread] at hloop'
      dsimp only at hloop'
      rw [hgo] at hloop'
      exact ih hready hloop'

end Loop

/-! ## The whole copy -/

section Whole

variable {os : Os} {m : Machine} {src dst place : Path} {dest_existed : Bool}

/-- Into a directory that is there, the loop comes to its end. -/
theorem copy_loop_ok (hcalm : ∀ i, os.fault i = false) (hsrc : m.fs.node src = some .dir)
    (hset : Setting m.fs src dst place) (hplace : m.fs.node place = some .dir)
    (hcompat : Compatible m.fs src place) (hnul : NulFree m.fs) :
    ∃ N, ∀ fuel, N ≤ fuel → ∃ m', copy_loop os fuel [(src, dst)] m = (some (.ok ()), m') := by
  have hsrc' : m.fs.node (src ++ []) = some .dir := by
    rw [List.append_nil]
    exact hsrc
  have hplace' : m.fs.node (place ++ []) = some .dir := by
    rw [List.append_nil]
    exact hplace
  have hstack : pairs src dst [[]] = [(src, dst)] := by simp [pairs]
  have hready : Ready m.fs m.fs src dst place [[]] := by
    refine ⟨?_, ?_, ?_⟩
    · rw [hstack]
      apply progress_start hsrc
      rw [hplace]
      exact Option.some_ne_none _
    · intro p hp
      rw [List.mem_singleton.mp hp]
      exact hsrc'
    · intro p hp
      rw [List.mem_singleton.mp hp]
      exact hplace'
  -- the destination is not inside the source, so only its own directories are met
  have hout : ∀ e, e ≠ [] → place ≠ src ++ e := by
    intro e _ heq
    apply hset.src_apart
    rw [heq]
    exact List.prefix_append src e
  have hfinite := outside_finite hset.entry hset.link_free hout
  have hvisit : Visit src dst m m [[]] {[]} := by
    refine ⟨seen_start, Relation.ReflTransGen.refl, ?_⟩
    intro p hp
    rw [Finset.mem_singleton.mp hp]
    exact hsrc'
  refine ⟨hfinite.toFinset.card, fun fuel hfuel => ?_⟩
  have hends : (copy_loop os fuel (pairs src dst [[]]) m).1 ≠ none := by
    refine @copy_loop_ends os src dst m m [[]] {[]} hfinite.toFinset (fun _ _ _ => True)
      (fun m ps seen hv _ p hp => hfinite.mem_toFinset.mpr (hv.meets hp))
      (fun _ _ _ _ _ _ _ _ _ _ _ => trivial) _ hvisit trivial ?_
    rw [Finset.card_singleton, List.length_singleton]
    omega
  rw [hstack] at hends
  rcases hrun : copy_loop os fuel [(src, dst)] m with ⟨res, m'⟩
  rw [hrun] at hends
  rcases res with _ | status | u
  · exact absurd rfl hends
  · rw [← hstack] at hrun
    exact absurd hrun (ready_run hcalm hset hcompat hnul hready)
  · exact ⟨m', rfl⟩

/-- With the directory at the destination the rest is as it was. -/
theorem compatible_with_dir (hset : Setting m.fs src dst place) (hslot : m.fs.Slot place)
    (hsrc : m.fs.node src = some .dir) (hnone : m.fs.node place = none)
    (hcompat : Compatible m.fs src place) : Compatible (m.fs.set place .dir) src place := by
  obtain ⟨-, hsource⟩ := hset.with_dir hslot hnone
  constructor
  · intro r c hfile hdir
    rw [hsource] at hfile
    rw [Fs.node_set hslot] at hdir
    split at hdir
    · rename_i heq
      have hnil : r = [] := by simpa using heq
      rw [hnil, List.append_nil, hsrc] at hfile
      cases hfile
    · exact hcompat.files r c hfile hdir
  · intro r hdir c hfile
    rw [hsource] at hdir
    rw [Fs.node_set hslot] at hfile
    split at hfile
    · cases hfile
    · exact hcompat.dirs r hdir c hfile

theorem nul_free_with_dir {fs : Fs} (hslot : fs.Slot place)
    (hentry : locate_entry fs dst = .ok place)
    (hnul : NulFree fs) : NulFree (fs.set place .dir) := by
  intro q n hn
  rw [Fs.node_set hslot] at hn
  split at hn
  · -- a path with a NUL byte is no entry
    rename_i heq
    obtain ⟨d, n', -, -, -, hnul', rfl⟩ := locate_entry_ok hentry
    obtain ⟨-, hlast⟩ := List.append_inj' heq rfl
    rw [List.cons.inj hlast |>.1]
    exact hnul'
  · exact hnul q n hn

theorem copy_dir_ok (hcalm : ∀ i, os.fault i = false) (hsrc : m.fs.node src = some .dir)
    (hset : Setting m.fs src dst place) (hexisted : dest_existed = true ↔ m.fs.node place ≠ none)
    (hcompat : Compatible m.fs src place) (hnul : NulFree m.fs) :
    ∃ N, ∀ fuel, N ≤ fuel →
      ∃ m', copy_dir os fuel src dst dest_existed m = (some (.ok ()), m') := by
  cases dest_existed with
  | true =>
    -- what is there is no link and no file
    have hplace : m.fs.node place = some .dir := by
      obtain ⟨x, hx⟩ := Option.ne_none_iff_exists'.mp (hexisted.mp rfl)
      have hlink := hset.link_free []
      have hfile := hcompat.dirs []
      rw [List.append_nil] at hlink hfile
      rw [List.append_nil] at hfile
      cases x with
      | dir => exact hx
      | file c => exact absurd hx (hfile hsrc c)
      | symlink t => exact absurd hx (hlink t)
    exact copy_loop_ok hcalm hsrc hset hplace hcompat hnul
  | false =>
    have hnone : m.fs.node place = none := by
      by_contra hsome
      cases hexisted.mpr hsome
    have hslot := slot_of_locate_entry hset.entry (by rw [hnone]; simp)
    have hmake : create_dir os dst m = (.ok (), m.tick.set place .dir) :=
      make_ok (hcalm _) hset.entry hnone
    obtain ⟨hset₁, hsource⟩ := hset.with_dir hslot hnone
    have hrun : ∀ fuel, copy_dir os fuel src dst false m
        = copy_loop os fuel [(src, dst)] (m.tick.set place .dir) := by
      intro fuel
      unfold copy_dir
      rw [if_neg Bool.false_ne_true, hmake]
    simp only [hrun]
    apply copy_loop_ok hcalm
    · have hroot := hsource []
      rw [List.append_nil] at hroot
      exact hroot.trans hsrc
    · exact hset₁
    · exact (Fs.node_set hslot place).trans (if_pos rfl)
    · exact compatible_with_dir hset hslot hsrc hnone hcompat
    · exact nul_free_with_dir hslot hset.entry hnul

/-- **A recursive copy computes the overlay**, in whatever order directories are read:
when no call fails and no type is in the way, it returns, the destination holds every
entry of the source and what it held beside them, and all else is unchanged. -/
theorem copy_dir_overlays (hcalm : ∀ i, os.fault i = false)
    (hsrc : m.fs.node src = some .dir) (hsrc_free : m.fs.LinkFree src)
    (hset : Setting m.fs src dst place) (hexisted : dest_existed = true ↔ m.fs.node place ≠ none)
    (hcompat : Compatible m.fs src place) (hnul : NulFree m.fs) :
    ∃ N, ∀ fuel, N ≤ fuel →
      ∃ m', copy_dir os fuel src dst dest_existed m = (some (.ok ()), m') ∧
        (∀ r, m.fs.node (src ++ r) ≠ none →
          m'.fs.node (place ++ r) = m.fs.node (src ++ r)) ∧
        (∀ r, m.fs.node (src ++ r) = none →
          m'.fs.node (place ++ r) = m.fs.node (place ++ r)) ∧
        ∀ q, ¬ place <+: q → m'.fs.node q = m.fs.node q := by
  obtain ⟨N, hok⟩ := copy_dir_ok hcalm hsrc hset hexisted hcompat hnul
  refine ⟨N, fun fuel hfuel => ?_⟩
  obtain ⟨m', hrun⟩ := hok fuel hfuel
  obtain ⟨hframe, hover, -, -⟩ := copy_dir_exact hset hsrc hexisted.mp hrun
  refine ⟨m', hrun, fun r hr => ?_, fun r hr => ?_, hframe⟩
  · rw [hover]
    obtain ⟨x, hx⟩ := Option.ne_none_iff_exists'.mp hr
    rw [hx]
    cases x with
    | file c => rfl
    | symlink t => exact absurd hx (hsrc_free r t)
    | dir =>
      -- a directory that was there is one still
      cases hold : m.fs.node (place ++ r) with
      | none => rfl
      | some y =>
        cases y with
        | dir => rfl
        | file c => exact absurd hold (hcompat.dirs r hx c)
        | symlink t => exact absurd hold (hset.link_free r t)
  · rw [hover, hr, overlay_none]

end Whole

/-- The types of two trees are compared entry by entry. -/
theorem compatible_of_known {fs : Fs} {src place : Path}
    (hfiles : ∀ q ∈ fs.known, src <+: q → (fs.node q).map Node.file_type = some .file →
      fs.node (place ++ q.drop src.length) ≠ some .dir)
    (hdirs : ∀ q ∈ fs.known, src <+: q → fs.node q = some .dir →
      (fs.node (place ++ q.drop src.length)).map Node.file_type ≠ some .file) :
    Compatible fs src place where
  files := by
    intro r c hfile
    have hknown := fs.mem_known (src ++ r) (by rw [hfile]; exact Option.some_ne_none _)
    have hnot := hfiles _ hknown (List.prefix_append src r) (by rw [hfile]; rfl)
    rwa [List.drop_left] at hnot
  dirs := by
    intro r hdir c hfile
    have hknown := fs.mem_known (src ++ r) (by rw [hdir]; exact Option.some_ne_none _)
    have hnot := hdirs _ hknown (List.prefix_append src r) hdir
    rw [List.drop_left, hfile] at hnot
    exact hnot rfl

/-- Beside `/d` with the files `f` and `e/g`, a directory `/a` with other files `f` and `e/a`. -/
def disk_two : Fs :=
  (((disk_deep.set [a_name] .dir).set [a_name, f_name] (.file [9])).set [a_name, e_name] .dir).set
    [a_name, e_name, a_name] (.file [7])

/-- Copying `/d` onto `/a`: `f` is replaced, `e/g` is new, and `e/a` stays. -/
theorem copy_dir_overlays_two :
    disk_two.node [a_name, f_name] = some (.file [9]) ∧
      disk_two.node [a_name, e_name, a_name] = some (.file [7]) ∧
      ∃ N, ∀ fuel, N ≤ fuel →
        ∃ m', copy_dir Os.calm fuel [d_name] [a_name] true { fs := disk_two, calls := 0, log := [] }
            = (some (.ok ()), m') ∧
          (∀ r, disk_two.node ([d_name] ++ r) ≠ none →
            m'.fs.node ([a_name] ++ r) = disk_two.node ([d_name] ++ r)) ∧
          (∀ r, disk_two.node ([d_name] ++ r) = none →
            m'.fs.node ([a_name] ++ r) = disk_two.node ([a_name] ++ r)) ∧
          ∀ q, ¬ [a_name] <+: q → m'.fs.node q = disk_two.node q := by
  have hset : Setting disk_two [d_name] [a_name] [a_name] :=
    ⟨by decide, Replace.link_free_of_known (by decide) _, by decide, by decide⟩
  have hcompat : Compatible disk_two [d_name] [a_name] :=
    compatible_of_known (by decide) (by decide)
  exact ⟨by decide, by decide, @copy_dir_overlays Os.calm { fs := disk_two, calls := 0, log := [] }
    [d_name] [a_name] [a_name] true (fun _ => rfl) (by decide)
    (Replace.link_free_of_known (by decide) _) hset (by decide) hcompat
    (nul_free_of_known (by decide))⟩

end Rshs.Overlay
