/-
Which COPY and MOVE requests are answered.

Only the recursive copy can fail to end, so the question is about requests that get to
copy a directory with what is in it (`Copying`), and about the tree that copy begins with.
`Bounded` is the condition there: the directories that come to stand in the source are
finitely many.

Bounded requests are answered whatever the system does; and the others are not, in some
system in which no call fails (`copy_ends`). For a destination without links the tree tells
which they are: those whose copy descends into itself for ever (`Spins`).
-/
import Rshs.CopyFinite
import Rshs.CopySpins

set_option autoImplicit false

namespace Rshs.Answered

open StdPath Posix Endless Rshs.Webdav Rshs.Resolve Rshs.App Rshs.CopyMove Rshs.CopyRun
open Rshs.Transfer Rshs.CopyExact Rshs.CopyEnds Rshs.CopySpins Rshs.Replace Rshs.SourceKept
open Rshs.CopyWalk Rshs.CopyBegun Rshs.CopyFinite

/-! ## The condition -/

/-- The destination is inside the source, and the copy descends into it without end. -/
def Spins (fs : Fs) (src place : Path) : Prop := ∃ e, e ≠ [] ∧ place = src ++ e ∧ Descends fs src e

section Conditions

variable (cwd : Path) (req : Request) (is_move : Bool) (w : World)

/-- The request gets to copy the directory `src` to `dest`, with what is in it. -/
def Copying (src dest : Path) : Prop :=
  (∃ text, Reaches cwd req w src dest .dir text) ∧
    ¬ (is_move = false ∧ parse_depth req.headers = .Zero)

/-- Whatever the system does, the request is answered. -/
def Ends : Prop := ∀ os, ∃ fuel, (do_move_or_copy os cwd fuel req is_move w).1 ≠ none

/-- No link stands in the destination. -/
def Plain : Prop :=
  ∀ src dest place, Copying cwd req is_move w src dest →
    locate_entry (cleared w.machine.fs .dir dest) dest = .ok place →
    (cleared w.machine.fs .dir dest).LinkFree place

/-- The directories that come to stand in the source are finitely many. -/
def Bounded : Prop :=
  ∀ src dest tree, Copying cwd req is_move w src dest → begun w.machine.fs dest = some tree →
    {r | Grows tree src dest r}.Finite

/-- The destination is not one that spins. -/
def Still : Prop :=
  ∀ src dest place, Copying cwd req is_move w src dest →
    locate_entry (cleared w.machine.fs .dir dest) dest = .ok place →
    ¬ Spins (cleared w.machine.fs .dir dest) src place

end Conditions

/-! ## A request without an answer -/

section Silent

variable {os : Os} {cwd : Path} {fuel : ℕ} {req : Request} {is_move : Bool} {w : World}
  {src dest : Path}

theorem copy_source_none {depth : Depth} {src_type : FileType} {existed : Bool} {m : Machine}
    (h : (copy_source os fuel is_move depth src_type src dest existed m).1 = none) :
    src_type = .dir ∧ ¬ (is_move = false ∧ depth = .Zero) := by
  unfold copy_source at h
  split at h
  · rename_i ht
    refine ⟨ht, fun hz => ?_⟩
    rw [if_pos hz] at h
    split at h
    · cases h
    · split at h
      all_goals cases h
  · split at h
    cases h

/-- Only a request that copies a directory can be left without an answer. -/
theorem copying_of_none (h : (do_move_or_copy os cwd fuel req is_move w).1 = none) :
    ∃ src dest, Copying cwd req is_move w src dest := by
  -- whoever is refused while its paths are resolved has its answer
  have hpath := h
  unfold do_move_or_copy at hpath
  split at hpath
  · cases hpath
  rename_i text htext
  split at hpath
  · cases hpath
  rename_i src hsrc
  split at hpath
  · cases hpath
  split at hpath
  · cases hpath
  rcases hr : w.resolve_and_guard cwd text with ⟨e | dest, w'⟩
  · rw [hr] at hpath
    cases hpath
  have hguard : (w.resolve_and_guard cwd text).1 = .ok dest := by rw [hr]
  have hspelled : ¬ Spelled w.app.root_dir text src := by
    intro hs
    rw [guard_hits htext hsrc (resolve_and_guard_ok_iff.mp hguard).1 hs] at h
    cases h
  rw [guard_misses htext hsrc hguard hspelled] at h
  -- the precondition and the source are looked at before the copy
  unfold transfer at h
  dsimp only at h
  split at h
  · cases h
  rename_i hover
  split at h
  · cases h
  rename_i src_type hmeta
  -- so it is the copy that has not come back, and that of a directory
  have hnone : ∃ existed m, (copy_source os fuel is_move (parse_depth req.headers) src_type src dest
      existed m).1 = none := by
    split at h
    · rename_i hcopy
      exact ⟨_, _, congrArg Prod.fst hcopy⟩
    · cases h
    · cases h
  obtain ⟨existed, m, hnone⟩ := hnone
  obtain ⟨ht, hdeep⟩ := copy_source_none hnone
  rw [ht] at hmeta
  refine ⟨src, dest, ⟨text, htext, hsrc, hspelled, hguard, hmeta, fun hex => ?_⟩, hdeep⟩
  rw [guard_machine, hex, Bool.true_and] at hover
  simpa using hover

/-- Such a request waits for its copy. -/
theorem copying_none (hc : Copying cwd req is_move w src dest) {existed : Bool} {m₁ : Machine}
    (hclear : clear_dest os (parse_overwrite req.headers) (metadata w.machine.fs dest).isOk .dir dest
      w.machine = (existed, m₁)) :
    (do_move_or_copy os cwd fuel req is_move w).1 = none ↔
      (copy_dir os fuel src dest existed m₁).1 = none := by
  obtain ⟨⟨text, hreach⟩, hdeep⟩ := hc
  have hgo : ¬ ((metadata w.machine.fs dest).isOk && !parse_overwrite req.headers) = true := by
    intro h
    rw [Bool.and_eq_true, Bool.not_eq_true'] at h
    rw [hreach.overwrite h.1] at h
    cases h.2
  rw [guard_misses hreach.destination hreach.source hreach.guarded hreach.not_spelled]
  unfold transfer
  dsimp only
  rw [guard_machine, if_neg hgo, hreach.type]
  dsimp only
  rw [aim_machine, guard_machine, hclear]
  dsimp only
  unfold copy_source
  rw [if_pos rfl, if_neg hdeep]
  rcases copy_dir os fuel src dest existed m₁ with ⟨_ | status | u, m₂⟩
  · simp
  · simp
  · simp

end Silent

/-! ## The tree that the copy finds -/

theorem nul_free_of_keeps {fs fs' : Fs} (h : NulFree fs) (hk : fs'.Keeps fs) : NulFree fs' :=
  fun q n hn => h q n (hk.ne_none hn)

/-- A path that leads somewhere has an entry. -/
theorem entry_of_follow {fs : Fs} {d q : Path} {n : Name} (hnul : NulFree fs)
    (h : follow fs (d ++ [n]) = .ok q) : ∃ place, locate_entry fs (d ++ [n]) = .ok place := by
  obtain ⟨d', hd', l, hwalk⟩ := follow_parent h
  have hdir := walk_dir hwalk
  have hname : n.has_nul = false := by
    apply hnul d'
    intro hnone
    rw [walk_level, walk_with_cons, if_neg (not_not.mpr hdir)] at hwalk
    simp [hnone] at hwalk
  refine ⟨d' ++ [n], ?_⟩
  unfold locate_entry
  rw [List.getLast?_concat, List.dropLast_concat, hd']
  dsimp only
  rw [if_neg (not_not.mpr hdir), hname, if_neg Bool.false_ne_true]

section Found

variable {os : Os} {cwd : Path} {fuel : ℕ} {req : Request} {is_move : Bool} {w : World}
  {src dest : Path} {existed : Bool} {m₁ : Machine}

theorem copying_source (hc : Copying cwd req is_move w src dest) :
    w.machine.fs.node src = some .dir := by
  obtain ⟨⟨text, hreach⟩, -⟩ := hc
  exact real_dir (resolve_existing_real hreach.source) hreach.type

/-- **A copy that is begun finds the destination cleared.** A directory is still to be
made exactly where nothing was found, and then there is an entry for it. -/
theorem copy_finds (hnul : NulFree w.machine.fs) (hc : Copying cwd req is_move w src dest)
    (hclear : clear_dest os (parse_overwrite req.headers) (metadata w.machine.fs dest).isOk .dir dest
      w.machine = (existed, m₁))
    (hnone : (copy_dir os fuel src dest existed m₁).1 = none) :
    m₁.fs = cleared w.machine.fs .dir dest ∧
      ∃ place, locate_entry (cleared w.machine.fs .dir dest) dest = .ok place := by
  have hreach := hc.1.choose_spec
  have houtcome := clear_dest_cases os (parse_overwrite req.headers)
    (metadata w.machine.fs dest).isOk .dir dest w.machine
  rw [hclear] at houtcome
  -- what is made has an entry
  have hmade : existed = false → ∃ place, locate_entry m₁.fs dest = .ok place := by
    intro hex
    unfold copy_dir at hnone
    rw [hex, if_neg Bool.false_ne_true] at hnone
    rcases make_cases os .dir dest m₁ with ⟨e, he⟩ | ⟨loc, hl, -, -, -⟩
    · rw [create_dir, he] at hnone
      cases hnone
    · exact ⟨loc, hl⟩
  cases houtcome with
  | kept hnot =>
    have hfs : cleared w.machine.fs .dir dest = w.machine.fs := by
      apply cleared_of_not
      intro hclears
      exact hnot ⟨clears_may hreach.overwrite hclears, hclears⟩
    rw [hfs]
    refine ⟨rfl, ?_⟩
    cases hex : (metadata w.machine.fs dest).isOk with
    | false => exact hmade hex
    | true =>
      obtain ⟨-, init, n, pc, -, -, -, hdest⟩ := resolve_and_guard_ok_iff.mp hreach.guarded
      cases hm : metadata w.machine.fs dest with
      | error e =>
        rw [hm] at hex
        cases hex
      | ok t =>
        obtain ⟨q, -, hq, -, -⟩ := metadata_ok hm
        rw [hdest] at hq ⊢
        exact entry_of_follow hnul hq
  | removed place _ _ hclears he _ hfs _ =>
    rw [cleared_of_entry hclears he, ← hfs]
    exact ⟨rfl, hmade rfl⟩
  | failed _ _ hclears _ _ hsame _ =>
    -- the file that could not be removed is in the way
    exfalso
    rcases hcopy : copy_dir os fuel src dest false m₁ with ⟨res, m'⟩
    have hblocked := copy_dir_blocked (fun loc hl => ?_) hcopy
    · rw [hcopy, hblocked.2.2] at hnone
      cases hnone
    · rw [hsame rfl] at hl ⊢
      exact clears_blocks_dir hclears hl

/-- The loop that a copy without end is in. -/
theorem copy_loop_of_none (hsrc : m₁.fs.node src = some .dir)
    (hall : ∀ fuel, (copy_dir os fuel src dest existed m₁).1 = none) :
    ∃ m₂, Visit src dest m₁ m₂ [[]] {[]} ∧
      ∀ fuel, (copy_loop os fuel (pairs src dest [[]]) m₂).1 = none := by
  have hpairs : pairs src dest [[]] = [(src, dest)] := by simp [pairs]
  have hroot : m₁.fs.node (src ++ []) = some .dir := by
    rw [List.append_nil]
    exact hsrc
  rw [hpairs]
  cases existed with
  | true =>
    -- the destination is there, so the loop starts at once
    refine ⟨m₁, ⟨seen_start, Relation.ReflTransGen.refl, fun p hp => ?_⟩, fun fuel => ?_⟩
    · rw [Finset.mem_singleton.mp hp]
      exact hroot
    · have hnone := hall fuel
      unfold copy_dir at hnone
      rw [if_pos rfl] at hnone
      exact hnone
  | false =>
    -- the destination is made first; a failure would be an answer
    have hstep : CopyStep src dest m₁ (create_dir os (dest ++ []) m₁).2 := create_dir_step hroot
    rw [List.append_nil] at hstep
    rcases hmake : create_dir os dest m₁ with ⟨e | u, m₂⟩
    · have hnone := hall 0
      unfold copy_dir at hnone
      rw [if_neg Bool.false_ne_true, hmake] at hnone
      cases hnone
    · rw [hmake] at hstep
      have hext : m₁.fs.Extends m₂.fs := copy_step_extends hstep
      refine ⟨m₂, ⟨seen_start, Relation.ReflTransGen.single hstep, fun p hp => ?_⟩, fun fuel => ?_⟩
      · rw [Finset.mem_singleton.mp hp]
        exact hext.keeps.dir hroot
      · have hnone := hall fuel
        unfold copy_dir at hnone
        rw [if_neg Bool.false_ne_true, hmake] at hnone
        exact hnone

end Found

/-! ## Bounded requests are answered, and no others -/

section Answered

variable {cwd : Path} {req : Request} {is_move : Bool} {w : World}

theorem ends_of_bounded (hb : Bounded cwd req is_move w) : Ends cwd req is_move w := by
  intro os
  by_contra hno
  simp only [not_exists, not_not] at hno
  -- a request without an answer, on whatever fuel, is in its copy
  obtain ⟨src, dest, hc⟩ := copying_of_none (hno 0)
  rcases hclear : clear_dest os (parse_overwrite req.headers) (metadata w.machine.fs dest).isOk .dir
    dest w.machine with ⟨existed, m₁⟩
  have hall : ∀ fuel, (copy_source os fuel is_move (parse_depth req.headers) .dir src dest existed
      m₁).1 = none := by
    intro fuel
    rw [copy_source_deep hc.2]
    exact (copying_none hc hclear).mp (hno fuel)
  rcases copy_enters src hc.2 (clears_may hc.1.choose_spec.overwrite) hclear with
    ⟨m₂, hfails, -, -⟩ | ⟨tree, m₀, hbegun, hfs, htree, -, hgo⟩
  · have hnone := hall 0
    rw [hfails] at hnone
    cases hnone
  · -- the copy is in its loop, which ends
    have houtcome := clear_dest_cases os (parse_overwrite req.headers)
      (metadata w.machine.fs dest).isOk .dir dest w.machine
    rw [hclear] at houtcome
    have hsrc₁ := clear_keeps_dir houtcome (copying_source hc)
    rw [htree] at hsrc₁
    have hsrc : m₀.fs.node src = some .dir := by
      rw [hfs]
      exact (begun_extends hbegun).keeps.dir hsrc₁
    have hfinite := hb src dest tree hc hbegun
    rw [← hfs] at hfinite
    obtain ⟨fuel, hfuel⟩ := loop_ends hsrc hfinite os
    rw [← hgo] at hfuel
    exact hfuel (hall fuel)

theorem bounded_of_ends (h : Ends cwd req is_move w) : Bounded cwd req is_move w := by
  intro src dest tree hc hbegun
  by_contra hinfinite
  obtain ⟨m₀, hfs, -, -, hgo⟩ :=
    copy_begins src hc.2 (clears_may hc.1.choose_spec.overwrite) hbegun
  rw [← hfs] at hinfinite
  obtain ⟨order, hperm, hnever⟩ := loop_goes_on hinfinite
  obtain ⟨existed, m₁, hclear, -, hloop⟩ :=
    hgo (listing order hperm (fun _ => false) 0) (fun _ _ _ => rfl)
  obtain ⟨fuel, hfuel⟩ := h (listing order hperm (fun _ => false) 0)
  apply hfuel
  rw [copying_none hc hclear, ← copy_source_deep hc.2, hloop]
  exact hnever fuel

/-- Without links in the destination it is enough that it does not spin. -/
theorem ends_of_still (hnul : NulFree w.machine.fs) (hplain : Plain cwd req is_move w)
    (hs : Still cwd req is_move w) : Ends cwd req is_move w := by
  intro os
  by_contra hno
  simp only [not_exists, not_not] at hno
  obtain ⟨src, dest, hc⟩ := copying_of_none (hno 0)
  rcases hclear : clear_dest os (parse_overwrite req.headers) (metadata w.machine.fs dest).isOk .dir
    dest w.machine with ⟨existed, m₁⟩
  have hall : ∀ fuel, (copy_dir os fuel src dest existed m₁).1 = none :=
    fun fuel => (copying_none hc hclear).mp (hno fuel)
  obtain ⟨hfs, place, hplace⟩ := copy_finds hnul hc hclear (hall 0)
  have hfree := hplain src dest place hc hplace
  have hspins := hs src dest place hc hplace
  have houtcome := clear_dest_cases os (parse_overwrite req.headers)
    (metadata w.machine.fs dest).isOk .dir dest w.machine
  rw [hclear] at houtcome
  have hsrc₁ := clear_keeps_dir houtcome (copying_source hc)
  -- the copy is in its loop, which ends: a contradiction
  obtain ⟨m₂, hvisit, hloop⟩ := copy_loop_of_none hsrc₁ hall
  have hends : ∃ fuel, (copy_loop os fuel (pairs src dest [[]]) m₂).1 ≠ none := by
    rw [← hfs] at hplace hfree hspins
    by_cases hinside : ∃ e, e ≠ [] ∧ place = src ++ e
    · obtain ⟨e, hne, rfl⟩ := hinside
      apply blocked_ends hne hplace hfree _ hvisit
      intro hdescends
      exact hspins ⟨e, hne, rfl, hdescends⟩
    · apply finite_ends _ hvisit
      apply outside_finite hplace hfree
      intro e hne heq
      exact hinside ⟨e, hne, heq⟩
  obtain ⟨fuel, hfuel⟩ := hends
  exact hfuel (hloop fuel)

end Answered

/-! ## Requests that are not -/

section Unanswered

variable {cwd : Path} {req : Request} {is_move : Bool} {w : World} {fs : Fs} {src dest place : Path}
  {e : List Name}

/-- Into a directory that has just been made the descent is free. -/
theorem descends_made (he : locate_entry fs dest = .ok (src ++ e)) (hne : e ≠ [])
    (hnone : fs.node (src ++ e) = none) : Descends (fs.set (src ++ e) .dir) src e := by
  have hslot := slot_of_locate_entry he (by rw [hnone]; simp)
  have hplace : (fs.set (src ++ e) .dir).node (src ++ e) = some .dir := by
    rw [Fs.node_set hslot, if_pos rfl]
  -- nothing is further down
  have hdeep : ∀ r, r ≠ [] → (fs.set (src ++ e) .dir).node (src ++ e ++ r) = none := by
    intro r hr
    rw [Fs.node_set hslot, if_neg (by simpa using hr)]
    exact none_below hnone (List.prefix_append _ _)
  constructor
  · intro i c
    rcases Nat.lt_or_ge e.length i with hlt | hle
    · obtain ⟨k, rfl⟩ := Nat.exists_eq_add_of_lt hlt
      have hround : src ++ endless e (e.length + k + 1) = src ++ e ++ endless e (k + 1) := by
        have hsum : e.length + k + 1 = k + 1 + e.length := by omega
        rw [hsum, endless_add hne, List.append_assoc]
      rw [hround, hdeep]
      · simp
      · intro hnil
        have hlen := length_endless hne (k + 1)
        rw [hnil] at hlen
        simp at hlen
    · rw [first_round hne hplace hle]
      simp
  · intro i k n c _
    have hround : src ++ (endless e (i + (k + 1) * e.length) ++ [n]) =
        src ++ e ++ (endless e (i + k * e.length) ++ [n]) := by
      rw [Nat.succ_mul, ← Nat.add_assoc, one_round hne]
    rw [hround, hdeep _ (by simp)]
    simp

/-- A descent into a directory that has just been made is caught. -/
theorem caught_made (hplace : locate_entry fs dest = .ok (src ++ e)) (hne : e ≠ [])
    (hfree : fs.LinkFree (src ++ e)) (hnames : NulFree fs) (hnone : fs.node (src ++ e) = none) :
    Caught (fs.set (src ++ e) .dir) src dest e := by
  have hslot := slot_of_locate_entry hplace (by rw [hnone]; simp)
  have hext := Fs.extends_set_dir hslot hnone
  refine ⟨hne, locate_entry_keeps hext.keeps hplace, hfree.grow hext, ?_,
    descends_made hplace hne hnone, fun q n hn => ?_⟩
  · rw [Fs.node_set hslot, if_pos rfl]
  · rw [Fs.node_set hslot] at hn
    split at hn
    · -- the new directory's name is that of an entry
      rename_i hq
      obtain ⟨d, n', -, -, -, hnul', hloc⟩ := locate_entry_ok hplace
      rw [← hq] at hloc
      obtain ⟨-, hname⟩ := List.append_inj' hloc rfl
      rw [(List.cons.inj hname).1]
      exact hnul'
    · exact hnames q n hn

/-- With nothing in the way of the descent, the copy of the directory does not end. -/
theorem copy_dir_spins {existed : Bool} {m₁ : Machine}
    (hplace : locate_entry m₁.fs dest = .ok (src ++ e)) (hne : e ≠ [])
    (hfree : m₁.fs.LinkFree (src ++ e)) (hdescends : Descends m₁.fs src e)
    (hnames : NulFree m₁.fs)
    (hstands : (existed = true ∧ m₁.fs.node (src ++ e) = some .dir) ∨
      (existed = false ∧ m₁.fs.node (src ++ e) = none)) :
    ∃ order h, ∀ fuel, (copy_dir (ordered order h) fuel src dest existed m₁).1 = none := by
  have hpairs : pairs src dest [[]] = [(src, dest)] := by simp [pairs]
  rcases hstands with ⟨rfl, hdir⟩ | ⟨rfl, hnone⟩
  · have hcaught : Caught m₁.fs src dest e := ⟨hne, hplace, hfree, hdir, hdescends, hnames⟩
    obtain ⟨order, h, hspin⟩ := caught_spins hcaught rfl
    refine ⟨order, h, fun fuel => ?_⟩
    unfold copy_dir
    rw [if_pos rfl, ← hpairs]
    exact hspin fuel
  · -- the directory is made first
    have hcaught : Caught (m₁.tick.set (src ++ e) .dir).fs src dest e :=
      caught_made hplace hne hfree hnames hnone
    obtain ⟨order, h, hspin⟩ := caught_spins hcaught rfl
    refine ⟨order, h, fun fuel => ?_⟩
    have hmake : create_dir (ordered order h) dest m₁ = (.ok (), m₁.tick.set (src ++ e) .dir) :=
      make_ok rfl hplace hnone
    unfold copy_dir
    rw [if_neg Bool.false_ne_true, hmake]
    dsimp only
    rw [← hpairs]
    exact hspin fuel

/-- What stands at the destination of a directory once it is cleared: a directory, or
nothing. -/
theorem cleared_stands {existed : Bool} {m₁ : Machine} (hc : Copying cwd req is_move w src dest)
    (hclear : clear_dest Os.calm (parse_overwrite req.headers) (metadata w.machine.fs dest).isOk .dir
      dest w.machine = (existed, m₁))
    (hplace : locate_entry (cleared w.machine.fs .dir dest) dest = .ok place)
    (hfree : (cleared w.machine.fs .dir dest).LinkFree place) :
    m₁.fs = cleared w.machine.fs .dir dest ∧
      ((existed = true ∧ m₁.fs.node place = some .dir) ∨
        (existed = false ∧ m₁.fs.node place = none)) := by
  obtain ⟨hfs, -, hgone, hkept⟩ :=
    clear_dest_ok rfl (clears_may hc.1.choose_spec.overwrite) hclear
  refine ⟨hfs, ?_⟩
  -- either the destination goes, or what stands there is a directory or nothing
  by_cases hclears : Clears w.machine.fs .dir dest
  · right
    refine ⟨(hgone hclears).1, ?_⟩
    cases he : locate_entry w.machine.fs dest with
    | error err =>
      exfalso
      have hsame : cleared w.machine.fs .dir dest = w.machine.fs := by
        unfold cleared
        rw [if_pos hclears, he]
      rw [hsame, he] at hplace
      cases hplace
    | ok place' =>
      have hunique := locate_entry_unique (cleared_keeps w.machine.fs .dir dest) hplace he
      rw [hfs, cleared_of_entry hclears he, hunique, Fs.node_prune (entry_ne_nil hplace),
        if_pos List.prefix_rfl]
  · obtain ⟨hex, -⟩ := hkept hclears
    rw [cleared_of_not hclears] at hfs hplace hfree
    rw [hfs]
    cases hx : w.machine.fs.node place with
    | none =>
      right
      rw [hex, metadata_no_entry hplace hx]
      exact ⟨rfl, rfl⟩
    | some x =>
      cases x with
      | dir =>
        left
        rw [hex, metadata_entry hplace hx (by simp)]
        exact ⟨rfl, rfl⟩
      -- a file would have been cleared
      | file c =>
        exfalso
        apply hclears
        rw [clears_entry hplace hfree]
        exact Or.inr ⟨rfl, c, hx⟩
      | symlink t => exact absurd (by simpa using hx) (hfree [] t)

/-- **A destination that spins leaves the request without an answer**, in some system in
which no call fails. -/
theorem unanswered (hnul : NulFree w.machine.fs) (hc : Copying cwd req is_move w src dest)
    (hplace : locate_entry (cleared w.machine.fs .dir dest) dest = .ok place)
    (hfree : (cleared w.machine.fs .dir dest).LinkFree place)
    (hspins : Spins (cleared w.machine.fs .dir dest) src place) : ¬ Ends cwd req is_move w := by
  intro hends
  obtain ⟨e, hne, rfl, hdescends⟩ := hspins
  rcases hclear : clear_dest Os.calm (parse_overwrite req.headers)
    (metadata w.machine.fs dest).isOk .dir dest w.machine with ⟨existed, m₁⟩
  obtain ⟨hfs, hstands⟩ := cleared_stands hc hclear hplace hfree
  rw [← hfs] at hplace hfree hdescends
  have hnames : NulFree m₁.fs := by
    apply nul_free_of_keeps hnul
    rw [hfs]
    exact cleared_keeps _ _ _
  obtain ⟨order, h, hnever⟩ := copy_dir_spins hplace hne hfree hdescends hnames hstands
  obtain ⟨fuel, hfuel⟩ := hends (ordered order h)
  apply hfuel
  -- no call of the first phase depends on the order of entries
  have hclear' : clear_dest (ordered order h) (parse_overwrite req.headers)
      (metadata w.machine.fs dest).isOk .dir dest w.machine = (existed, m₁) := hclear
  exact (copying_none hc hclear').mpr (hnever fuel)

/-- **When the recursive copy ends.** Whatever the system does, if and only if the request is
bounded; and without links in the destination, if and only if that does not spin. -/
theorem copy_ends (hnul : NulFree w.machine.fs) :
    (Ends cwd req is_move w ↔ Bounded cwd req is_move w) ∧
      (Plain cwd req is_move w → (Ends cwd req is_move w ↔ Still cwd req is_move w)) := by
  refine ⟨⟨bounded_of_ends, ends_of_bounded⟩, fun hplain => ⟨fun hends => ?_, ends_of_still hnul hplain⟩⟩
  intro src dest place hc hplace hspins
  exact unanswered hnul hc hplace (hplain src dest place hc hplace) hspins hends

end Unanswered

/-! ## A directory copied into itself -/

def served_d : World := World.start (AppState.new disk_d [] (PathBuf.of_text "/".toList) 0) disk_d

/-- COPY of `/d` to `/d/x`. -/
def copy_in : Request where
  method := .COPY
  uri_path := "/d".toList
  headers := { destination := some (Text.utf8_encode "/d/x".toList) }
  body := []
  lock_body := none
  proppatch_body := none
  propfind_body := none

/-- COPY of `/d` to `/x`. -/
def copy_out : Request :=
  { copy_in with headers := { destination := some (Text.utf8_encode "/x".toList) } }

/-- Its destination is beside its source, and nothing stands there. -/
theorem copying_out {src dest : Path} (h : Copying [] copy_out false served_d src dest) :
    src = [d_name] ∧ dest = [x_name] := by
  obtain ⟨⟨text, hreach⟩, -⟩ := h
  have htext : parse_destination copy_out.headers = some "/x".toList := by decide
  rw [hreach.destination] at htext
  cases htext
  have hsrc : served_d.resolve_existing [] copy_out.uri_path = some [d_name] := by decide
  rw [hreach.source] at hsrc
  have hdest : (served_d.resolve_and_guard [] "/x".toList).1 = .ok [x_name] := by decide
  rw [hreach.guarded] at hdest
  exact ⟨Option.some.inj hsrc, Except.ok.inj hdest⟩

theorem cleared_out : cleared disk_d .dir [x_name] = disk_d := cleared_of_not (by decide)

theorem copy_ends_out : Ends [] copy_out false served_d := by
  refine ((copy_ends (nul_free_of_known (by decide))).2 (fun src dest place hc hplace => ?_)).mpr
    (fun src dest place hc hplace => ?_)
  · obtain ⟨rfl, rfl⟩ := copying_out hc
    show (cleared disk_d .dir [x_name]).LinkFree place
    rw [cleared_out]
    exact link_free_of_known (by decide) _
  · obtain ⟨rfl, rfl⟩ := copying_out hc
    rintro ⟨e, -, rfl, -⟩
    have hentry : locate_entry (cleared disk_d .dir [x_name]) [x_name] = .ok [x_name] := by
      rw [cleared_out]
      decide
    rw [show locate_entry (cleared disk_d .dir [x_name]) [x_name] = .ok ([d_name] ++ e) from hplace]
      at hentry
    have hhead := (List.cons.inj (Except.ok.inj hentry)).1
    revert hhead
    decide

theorem copying_d : Copying [] copy_in false served_d [d_name] [d_name, x_name] := by
  refine ⟨⟨"/d/x".toList, by decide, by decide, ?_, by decide, by decide, by decide⟩, by decide⟩
  rintro ⟨R, hR, hsrc⟩
  -- the root is `/`, so the destination spells `/d/x`
  have hroot : (PathBuf.of_text "/".toList).comps = [.rootDir] := by decide
  have hnil : R = [] := by
    have hcomps : [Component.rootDir] = Component.rootDir :: R.map .normal := by
      rw [← hroot]
      exact hR
    simpa using hcomps
  rw [hnil] at hsrc
  revert hsrc
  decide

/-- A COPY of the empty `/d` to `/d/x` is left without an answer. -/
theorem copy_in_spins : ¬ Ends [] copy_in false served_d := by
  have hfiles : ∀ q c, disk_d.node q ≠ some (.file c) := by
    intro q c hq
    have hknown : q ∈ disk_d.known := disk_d.mem_known q (by rw [hq]; simp)
    have hall : ∀ q ∈ disk_d.known, (disk_d.node q).map Node.file_type ≠ some .file := by decide
    apply hall q hknown
    rw [hq]
    rfl
  have hcleared : cleared disk_d .dir [d_name, x_name] = disk_d := cleared_of_not (by decide)
  apply @unanswered _ _ _ _ _ _ [d_name, x_name] (nul_free_of_known (by decide)) copying_d
  · show locate_entry (cleared disk_d .dir [d_name, x_name]) [d_name, x_name] = _
    rw [hcleared]
    decide
  · show (cleared disk_d .dir [d_name, x_name]).LinkFree _
    rw [hcleared]
    exact link_free_of_known (by decide) _
  · show Spins (cleared disk_d .dir [d_name, x_name]) [d_name] [d_name, x_name]
    rw [hcleared]
    exact ⟨[x_name], by simp, rfl, fun _ c => hfiles _ c, fun _ _ _ c hc => absurd hc (hfiles _ c)⟩

end Rshs.Answered
