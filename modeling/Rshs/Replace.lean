/-
What a COPY or MOVE that succeeds has made of its destination, and of its source.

The phases are followed one by one, for a destination that is apart from the source
and has no link in it. `Copied` is the state after the copy: the source laid over what
the first phase has left of the destination, and everything else as it was.
`Moved` lists the three ends of a MOVE. The rename goes through only onto a destination
without entries, so a directory is renamed when nothing of it was copied; otherwise the
source is removed, unless the removal fails too.

`replaced_iff` and `links_kept_iff` are the results: when the destination is exactly the
source as it was, and when a MOVE keeps the links of its source. The calls that can fail
without a trace in the reply are those of the last phase; `rename_call` is the number of
the first of them.
-/
import Rshs.CopyExact
import Rshs.SourceKept

set_option autoImplicit false

namespace Rshs.Replace

open StdPath Posix Rshs.Webdav Rshs.Resolve Rshs.App Rshs.CopyMove Rshs.CopyRun Rshs.Transfer
open Rshs.CopyExact

/-! ## The entry of the destination -/

section Entry

variable {fs : Fs} {src_type : FileType} {dest place : Path}

theorem metadata_entry {x : Node} (he : locate_entry fs dest = .ok place)
    (hx : fs.node place = some x) (hlink : ∀ t, x ≠ .symlink t) :
    metadata fs dest = .ok x.file_type := by
  have hfollow : follow fs (dest ++ []) = .ok (place ++ []) :=
    follow_below he ⟨x, by simpa using hx, hlink⟩
  rw [List.append_nil, List.append_nil] at hfollow
  unfold metadata
  rw [hfollow]
  dsimp only
  rw [hx]

theorem metadata_no_entry (he : locate_entry fs dest = .ok place) (hnone : fs.node place = none) :
    (metadata fs dest).isOk = false := by
  cases hm : metadata fs dest with
  | error e => rfl
  | ok t =>
    obtain ⟨q, -, hq, -, -⟩ := metadata_ok hm
    exact absurd hnone (entry_exists hq he)

theorem metadata_entry_isOk (he : locate_entry fs dest = .ok place) (hfree : fs.LinkFree place) :
    (metadata fs dest).isOk = true ↔ fs.node place ≠ none := by
  constructor
  · intro hok hnone
    rw [metadata_no_entry he hnone] at hok
    cases hok
  · intro hsome
    obtain ⟨x, hx⟩ := Option.ne_none_iff_exists'.mp hsome
    have hlink : ∀ t, x ≠ .symlink t := by
      intro t ht
      apply hfree [] t
      rw [List.append_nil, hx, ht]
    rw [metadata_entry he hx hlink]
    rfl

/-- What is removed first is a directory in the way of a file, or a file in the way of a
directory. -/
theorem clears_entry (he : locate_entry fs dest = .ok place) (hfree : fs.LinkFree place) :
    Clears fs src_type dest ↔
      (src_type ≠ .dir ∧ fs.node place = some .dir) ∨
        (src_type = .dir ∧ ∃ c, fs.node place = some (.file c)) := by
  cases hx : fs.node place with
  | none =>
    -- nothing stands there, so nothing is removed
    have hmeta := metadata_no_entry he hx
    constructor
    · rintro (⟨-, hm⟩ | ⟨-, hm⟩)
      all_goals
        rw [hm] at hmeta
        cases hmeta
    · rintro (⟨-, hm⟩ | ⟨-, c, hm⟩)
      all_goals cases hm
  | some x =>
    have hlink : ∀ t, x ≠ .symlink t := by
      intro t ht
      apply hfree [] t
      rw [List.append_nil, hx, ht]
    unfold Clears
    rw [metadata_entry he hx hlink]
    cases x with
    | file c => simp [Node.file_type]
    | dir => simp [Node.file_type]
    | symlink t => exact absurd rfl (hlink t)

/-- The tree that the copy finds, below the destination and elsewhere. -/
theorem cleared_below (he : locate_entry fs dest = .ok place) (r : List Name) :
    (cleared fs src_type dest).node (place ++ r) =
      if Clears fs src_type dest then none else fs.node (place ++ r) := by
  split
  · rename_i hc
    rw [cleared_of_entry hc he, node_prune_entry he, if_pos (List.prefix_append _ _)]
  · rename_i hc
    rw [cleared_of_not hc]

theorem cleared_frame (he : locate_entry fs dest = .ok place) {q : Path} (hq : ¬ place <+: q) :
    (cleared fs src_type dest).node q = fs.node q := by
  by_cases hc : Clears fs src_type dest
  · rw [cleared_of_entry hc he, node_prune_entry he, if_neg hq]
  · rw [cleared_of_not hc]

/-- Where the entry of the destination is found again, the copy is set up as it was. -/
theorem setting_cleared {src : Path} (hset : Setting fs src dest place)
    (he : locate_entry (cleared fs src_type dest) dest = .ok place) :
    Setting (cleared fs src_type dest) src dest place where
  entry := he
  link_free := by
    intro r t
    rw [cleared_below hset.entry]
    split
    · simp
    · exact hset.link_free r t
  src_apart := hset.src_apart
  place_apart := hset.place_apart

end Entry

/-! ## The calls of the first phase -/

section Ticks

variable {os : Os} {p : Path} {m : Machine}

theorem remove_file_ticks (os : Os) (p : Path) (m : Machine) :
    (remove_file os p m).2.calls = m.calls + 1 := by
  rcases remove_file_cases os p m with ⟨e, hr⟩ | ⟨loc, -, -, -, hr⟩
  all_goals
    rw [hr]
    rfl

theorem remove_dir_all_ticks (os : Os) (p : Path) (m : Machine) :
    (remove_dir_all os p m).2.calls = m.calls + 1 := by
  rcases remove_dir_all_cases os p m with ⟨e, hr⟩ | ⟨loc, -, ⟨chosen, -, hr⟩ | ⟨-, -, hr⟩⟩
  all_goals
    rw [hr]
    rfl

theorem clear_dest_calls {overwrite existed existed' : Bool} {src_type : FileType} {dest : Path}
    {m₁ : Machine} (hmay : Clears m.fs src_type dest → (overwrite && existed) = true)
    (h : clear_dest os overwrite existed src_type dest m = (existed', m₁)) :
    m₁.calls = m.calls + if Clears m.fs src_type dest then 1 else 0 := by
  by_cases hclears : Clears m.fs src_type dest
  · rw [if_pos hclears]
    unfold clear_dest at h
    rw [if_pos (hmay hclears)] at h
    rcases hclears with ⟨ht, hm⟩ | ⟨ht, hm⟩
    · rw [hm] at h
      dsimp only at h
      -- a directory in the way of a file is removed in one call
      rw [if_pos ⟨ht, rfl⟩] at h
      cases h
      exact remove_dir_all_ticks os dest m
    · rw [hm] at h
      dsimp only at h
      -- and so is a file in the way of a directory
      rw [if_neg (fun h => h.1 ht), if_pos ⟨ht, rfl⟩] at h
      cases h
      exact remove_file_ticks os dest m
  · have houtcome := clear_dest_cases os overwrite existed src_type dest m
    rw [h] at houtcome
    rw [if_neg hclears]
    cases houtcome with
    | kept _ => rfl
    | removed _ _ _ hc _ _ _ _ => exact absurd hc hclears
    | failed _ _ hc _ _ _ _ => exact absurd hc hclears

end Ticks

/-! ## After the copy -/

/-- The number of the system call that renames the source of a MOVE. -/
def rename_call (m : Machine) (src_type : FileType) (src dest place : Path) : ℕ :=
  m.calls + (if Clears m.fs src_type dest then 1 else 0) +
    if src_type = .dir then (if m.fs.node place = some .dir then 0 else 1) + copy_calls m.fs src
    else 3

/-- The state after a copy that has succeeded. -/
structure Copied (m : Machine) (src_type : FileType) (src dest place : Path) (m₂ : Machine) :
    Prop where
  frame : ∀ q, ¬ place <+: q → m₂.fs.node q = m.fs.node q
  laid : ∀ r, m₂.fs.node (place ++ r) =
    overlay (m.fs.node (src ++ r)) ((cleared m.fs src_type dest).node (place ++ r))
  keeps : (cleared m.fs src_type dest).Keeps m₂.fs
  entry : locate_entry m₂.fs dest = .ok place
  calls : m₂.calls = rename_call m src_type src dest place

section Copy

variable {os : Os} {fuel : ℕ} {is_move may existed existed' : Bool} {depth : Depth}
  {src dest place : Path} {m m₁ m₂ : Machine}

/-- The tree that the copy of a directory finds, and whether it has to make one. -/
theorem dir_finds (hset : Setting m.fs src dest place) (hmay : Clears m.fs .dir dest → may = true)
    (hexisted : existed = (metadata m.fs dest).isOk)
    (hclear : ClearOutcome .dir dest may existed m (existed', m₁))
    (hcopy : copy_dir os fuel src dest existed' m₁ = (some (.ok ()), m₂)) :
    m₁.fs = cleared m.fs .dir dest ∧ Setting m₁.fs src dest place ∧
      (existed' = true ↔ m.fs.node place = some .dir) := by
  cases hclear with
  | kept hnot =>
    have hnot' : ¬ Clears m.fs .dir dest := fun hc => hnot ⟨hmay hc, hc⟩
    refine ⟨(cleared_of_not hnot').symm, hset, ?_⟩
    rw [hexisted, metadata_entry_isOk hset.entry hset.link_free]
    rw [clears_entry hset.entry hset.link_free] at hnot'
    constructor
    · intro hsome
      obtain ⟨x, hx⟩ := Option.ne_none_iff_exists'.mp hsome
      cases x with
      | dir => exact hx
      | file c => exact absurd (Or.inr ⟨rfl, c, hx⟩) hnot'
      | symlink t => exact absurd (by simpa using hx) (hset.link_free [] t)
    · intro hdir
      rw [hdir]
      exact Option.some_ne_none _
  | removed place' _ _ hclears he hdir hfs _ =>
    rw [hset.entry] at he
    cases he
    have hfound : m₁.fs = cleared m.fs .dir dest := by
      rw [hfs, cleared_of_entry hclears hset.entry]
    have hentry : locate_entry m₁.fs dest = .ok place := by
      rcases copy_dir_entry hcopy rfl with hex | ⟨loc, hl, -⟩
      · cases hex
      · have hkeeps : m₁.fs.Keeps m.fs := by
          rw [hfs]
          exact Fs.keeps_prune _
        rw [locate_entry_unique hkeeps hl hset.entry]
        exact hl
    rw [hfound] at hentry ⊢
    refine ⟨rfl, setting_cleared hset hentry, ?_⟩
    constructor
    · intro hex
      cases hex
    · intro hd
      exact absurd hd (hdir rfl)
  | failed _ _ hclears _ _ hsame _ =>
    -- the file that could not be removed is in the way
    exfalso
    have hblocked := copy_dir_blocked (fun loc hl => ?_) hcopy
    · cases hblocked.2.2
    · rw [hsame rfl] at hl ⊢
      exact clears_blocks_dir hclears hl

/-- A directory that is copied with what is in it. -/
theorem copied_dir (hset : Setting m.fs src dest place) (hsrc : m.fs.node src = some .dir)
    (hdeep : ¬ (is_move = false ∧ depth = .Zero))
    (hmay : Clears m.fs .dir dest → may = true)
    (hexisted : existed = (metadata m.fs dest).isOk)
    (hcalls : m₁.calls = m.calls + if Clears m.fs .dir dest then 1 else 0)
    (hclear : ClearOutcome .dir dest may existed m (existed', m₁))
    (hcopy : copy_source os fuel is_move depth .dir src dest existed' m₁ = (some (.ok ()), m₂)) :
    Copied m .dir src dest place m₂ := by
  unfold copy_source at hcopy
  rw [if_pos rfl, if_neg hdeep] at hcopy
  -- the copy is set up as before the removal
  obtain ⟨hfs, hset₁, hex⟩ := dir_finds hset hmay hexisted hclear hcopy
  have hsource : ∀ r, m₁.fs.node (src ++ r) = m.fs.node (src ++ r) := by
    intro r
    rw [hfs, cleared_frame hset.entry (hset.not_prefix r)]
  have hsrc₁ : m₁.fs.node src = some .dir := by
    have hroot := hsource []
    rw [List.append_nil] at hroot
    rw [hroot]
    exact hsrc
  -- what counts as existing has not been removed
  have hthere : existed' = true → m₁.fs.node place ≠ none := by
    intro h
    have hdir := hex.mp h
    have hnot : ¬ Clears m.fs .dir dest := by
      rw [clears_entry hset.entry hset.link_free]
      simp [hdir]
    rw [hfs, cleared_of_not hnot, hdir]
    exact Option.some_ne_none _
  obtain ⟨hframe, hlaid, hext, hticks⟩ := copy_dir_exact hset₁ hsrc₁ hthere hcopy
  refine ⟨fun q hq => ?_, fun r => ?_, ?_, locate_entry_keeps hext.keeps hset₁.entry, ?_⟩
  · rw [hframe q hq, hfs, cleared_frame hset.entry hq]
  · rw [hlaid, hsource, hfs]
  · rw [← hfs]
    exact hext.keeps
  · rw [hticks, hcalls, copy_calls_congr hsource]
    unfold rename_call
    rw [if_pos rfl]
    simp only [hex]
    omega

/-- The tree that the copy of a file finds: where the destination leads is its entry. -/
theorem file_finds {src_type : FileType} {loc : Path} (hset : Setting m.fs src dest place)
    (htype : src_type ≠ .dir) (hmay : Clears m.fs src_type dest → may = true)
    (hclear : ClearOutcome src_type dest may existed m (existed', m₁))
    (hl : locate m₁.fs dest = .ok loc) (hslot : m₁.fs.Slot loc) :
    m₁.fs = cleared m.fs src_type dest ∧ Setting m₁.fs src dest place ∧ loc = place := by
  have hfound := tree_for_file hclear hmay htype hl hslot.2.2
  -- the directory of the destination is led to still
  obtain ⟨d, hd⟩ := follow_dropLast (path_ne_nil hset.entry) hl
  rw [hfound] at hl hd ⊢
  have hentry := locate_entry_back (cleared_keeps m.fs src_type dest) hd hset.entry
  have hset₁ := setting_cleared hset hentry
  refine ⟨rfl, hset₁, ?_⟩
  have hbelow := @locate_below _ _ _ _ [] hentry hset₁.link_free (by rw [List.append_nil]; exact hl)
  rw [List.append_nil] at hbelow
  exact hbelow

/-- A file. -/
theorem copied_file {src_type : FileType} {c : List UInt8} (hset : Setting m.fs src dest place)
    (hsrc : m.fs.node src = some (.file c)) (htype : src_type ≠ .dir)
    (hmay : Clears m.fs src_type dest → may = true)
    (hcalls : m₁.calls = m.calls + if Clears m.fs src_type dest then 1 else 0)
    (hclear : ClearOutcome src_type dest may existed m (existed', m₁))
    (hcopy : copy_source os fuel is_move depth src_type src dest existed' m₁
      = (some (.ok ()), m₂)) : Copied m src_type src dest place m₂ := by
  unfold copy_source copy_file at hcopy
  rw [if_neg htype] at hcopy
  rcases hres : copy os src dest m₁ with ⟨e | u, m'⟩
  · rw [hres] at hcopy
    cases hcopy
  rw [hres] at hcopy
  cases hcopy
  have hticks := copy_ticks hres
  rcases copy_cases os src dest m₁ with
    ⟨e, m₀, hc, -, -⟩ | ⟨s, c', loc, hs, -, hl, hslot, r, m₀, bytes, hc, hfs₂, -, -, hall⟩
  · rw [hres] at hc
    cases hc
  rw [hres] at hc
  cases hc
  -- the file is made at the entry of the destination
  obtain ⟨hfound, hset₁, rfl⟩ := file_finds hset htype hmay hclear hl hslot
  have hsrc₁ : m₁.fs.node src = some (.file c) := by
    rw [hfound, cleared_frame hset.entry hset.place_apart]
    exact hsrc
  have hself : s = src := by
    rw [follow_self ⟨_, hsrc₁, by simp⟩] at hs
    cases hs
    rfl
  have hne : src ≠ loc := by
    intro heq
    exact hset.place_apart (by rw [heq])
  -- the source is another file, so truncating the destination has left it
  have hbytes : bytes = c := by
    rw [hall rfl, hself]
    unfold Fs.content
    rw [Fs.node_set hslot, if_neg hne, hsrc₁]
  have hext : m₁.fs.Extends m₂.fs := by
    rw [hfs₂]
    exact extends_fill hl hslot bytes
  refine ⟨fun q hq => ?_, fun r => ?_, ?_, locate_entry_keeps hext.keeps hset₁.entry, ?_⟩
  · rw [hfs₂, node_fill hslot, if_neg (fun heq => hq (by rw [heq])), hfound,
      cleared_frame hset.entry hq]
  · rw [hfs₂, node_fill hslot, hbytes, ← hfound]
    by_cases hr : r = []
    · subst hr
      rw [List.append_nil, List.append_nil, if_pos rfl, hsrc]
      rfl
    · -- below a file there is nothing
      have hbelow : m.fs.node (src ++ r) = none := by
        apply nothing_below (fun hdir => ?_) _ (List.prefix_append _ _) (by simpa using hr)
        rw [hsrc] at hdir
        cases hdir.1
      rw [if_neg (by simpa using hr), hbelow]
      rfl
  · rw [← hfound]
    exact hext.keeps
  · rw [hticks, hcalls]
    unfold rename_call
    rw [if_neg htype]

end Copy

/-! ## The last phase of a MOVE -/

/-- A rename onto something of the same kind: it fails for a destination with entries. -/
theorem rename_over {os : Os} {m : Machine} {src dest place : Path} {x y : Node}
    (hs : locate_entry m.fs src = .ok src) (hd : locate_entry m.fs dest = .ok place)
    (hx : m.fs.node src = some x) (hy : m.fs.node place = some y) (hkind : x = .dir ↔ y = .dir)
    (hapart : ¬ src <+: place) :
    rename os src dest m =
      if os.fault m.calls = true then (.error .Other, m.tick)
      else if m.fs.children place = [] then (.ok (), m.tick.move src place)
      else (.error .DirectoryNotEmpty, m.tick) := by
  have hne : src ≠ place := fun heq => hapart (by rw [heq])
  unfold rename
  split
  · rename_i hf
    rw [syscall_fault hf]
  · rename_i hf
    rw [syscall_ok (by simpa using hf)]
    rw [tick_fs, hs, hd]
    dsimp only
    rw [hx, hy]
    dsimp only
    rw [if_neg hne, if_neg hapart, if_neg (fun h => h.2.2 (by rw [hkind.mp h.1])),
      if_neg (fun h => h.1 (hkind.mpr (Option.some.inj h.2)))]
    split
    · rename_i hfull
      rw [if_neg hfull.2]
    · rename_i hfull
      rw [if_pos]
      by_contra hsome
      apply hfull
      refine ⟨?_, hsome⟩
      -- what has entries is a directory
      obtain ⟨n, hn⟩ := List.exists_mem_of_ne_nil _ hsome
      rw [← hy]
      exact m.fs.parent_dir place n (Fs.mem_children.mp hn)

/-- How a MOVE ends, once the copy is made. -/
inductive Moved (os : Os) (src place : Path) (m₂ : Machine) (fs : Fs) : Prop
  /-- The source itself takes the place of the copy. -/
  | renamed (hcall : os.fault m₂.calls = false)
      (hempty : ∀ n, m₂.fs.node (place ++ [n]) = none)
      (hnode : ∀ q, fs.node q = if place <+: q then m₂.fs.node (src ++ q.drop place.length)
        else if src <+: q then none else m₂.fs.node q)
  /-- The copy stays and the source goes. -/
  | removed (hno : ¬ (os.fault m₂.calls = false ∧ ∀ n, m₂.fs.node (place ++ [n]) = none))
      (hcall : os.fault (m₂.calls + 1) = false)
      (hnode : ∀ q, fs.node q = if src <+: q then none else m₂.fs.node q)
  /-- The copy stays, and so does some of the source. -/
  | stuck (hno : ¬ (os.fault m₂.calls = false ∧ ∀ n, m₂.fs.node (place ++ [n]) = none))
      (hcall : os.fault (m₂.calls + 1) = true) (hstays : fs.node src ≠ none)
      (hnode : ∀ q, ¬ src <+: q → fs.node q = m₂.fs.node q)

section Move

variable {os : Os} {src_type : FileType} {src dest place : Path} {m : Machine}

/-- The removal of the source, after a rename that failed. -/
theorem remove_source {x : Node} (hs : locate_entry m.fs src = .ok src)
    (hx : m.fs.node src = some x) (ht : x.file_type = src_type) :
    (os.fault m.calls = false ∧
        (if src_type = .dir then (remove_dir_all os src m).2 else (remove_file os src m).2)
          = m.tick.prune src) ∨
      (os.fault m.calls = true ∧
        ((if src_type = .dir then (remove_dir_all os src m).2
          else (remove_file os src m).2).fs.node src ≠ none ∧
        ∀ q, ¬ src <+: q →
          (if src_type = .dir then (remove_dir_all os src m).2
            else (remove_file os src m).2).fs.node q = m.fs.node q)) := by
  cases hf : os.fault m.calls with
  | false =>
    left
    refine ⟨rfl, ?_⟩
    split
    · rename_i hdir
      -- the call goes through, and the source is of the type it is removed as
      rw [remove_dir_all_ok hf hs hx]
      intro c hc
      rw [hc] at ht
      rw [← ht] at hdir
      cases hdir
    · rename_i hdir
      rw [remove_file_ok hf hs hx]
      intro hc
      rw [hc] at ht
      exact hdir ht.symm
  | true =>
    right
    refine ⟨rfl, ?_⟩
    split
    · rename_i hdir
      rw [hdir] at ht
      have hnode := node_of_dir hx ht
      -- the call fails: some of what is below may be gone, the directory is not
      unfold remove_dir_all
      rw [hs]
      dsimp only
      rw [hnode]
      dsimp only
      rw [if_pos hf]
      constructor
      · rw [sweep_node src (fun h => h.2 rfl), tick_fs, hnode]
        exact Option.some_ne_none _
      · intro q hq
        rw [sweep_node q (fun h => hq h.1), tick_fs]
    · unfold remove_file
      rw [syscall_fault hf]
      refine ⟨?_, fun q _ => rfl⟩
      rw [tick_fs, hx]
      exact Option.some_ne_none x

theorem moved_source {x y : Node} (hs : locate_entry m.fs src = .ok src)
    (hd : locate_entry m.fs dest = .ok place) (hx : m.fs.node src = some x)
    (ht : x.file_type = src_type) (hy : m.fs.node place = some y) (hkind : x = .dir ↔ y = .dir)
    (hapart : ¬ src <+: place) :
    Moved os src place m (move_source os src_type src dest m).fs := by
  have hrename := @rename_over os m src dest place x y hs hd hx hy hkind hapart
  have hempty : m.fs.children place = [] ↔ ∀ n, m.fs.node (place ++ [n]) = none := by
    rw [List.eq_nil_iff_forall_not_mem]
    apply forall_congr'
    intro n
    rw [Fs.mem_children, not_not]
  -- after a failed rename the source is removed, or not
  have hrest : ∀ e, rename os src dest m = (.error e, m.tick) →
      ¬ (os.fault m.calls = false ∧ ∀ n, m.fs.node (place ++ [n]) = none) →
      Moved os src place m (move_source os src_type src dest m).fs := by
    intro e he hno
    unfold move_source
    rw [he]
    dsimp only
    rcases @remove_source os src_type src m.tick x hs hx ht with
      ⟨hf, hgone⟩ | ⟨hf, hstays, hframe⟩
    · rw [hgone]
      exact Moved.removed hno hf (node_prune_entry hs)
    · exact Moved.stuck hno hf hstays hframe
  by_cases hf : os.fault m.calls = true
  · rw [if_pos hf] at hrename
    apply hrest _ hrename
    rintro ⟨hf', -⟩
    rw [hf] at hf'
    cases hf'
  · rw [if_neg hf] at hrename
    by_cases hch : m.fs.children place = []
    · rw [if_pos hch] at hrename
      unfold move_source
      rw [hrename]
      apply Moved.renamed (by simpa using hf) (hempty.mp hch)
      intro q
      have hmovable : m.fs.Movable src place :=
        ⟨entry_ne_nil hs, entry_ne_nil hd, hapart, entry_parent hd⟩
      show (if h : m.fs.Movable src place then m.fs.graft src place h else m.fs).node q = _
      rw [dif_pos hmovable]
      rfl
    · rw [if_neg hch] at hrename
      apply hrest _ hrename
      rintro ⟨-, hnone⟩
      exact hch (hempty.mpr hnone)

end Move

/-! ## When the destination is the source -/

/-- The destination is exactly the source as it was, a MOVE has left nothing there, and
nothing else has changed. -/
def Replaced (fs fs' : Fs) (is_move : Bool) (src place : Path) : Prop :=
  (∀ r, fs'.node (place ++ r) = fs.node (src ++ r)) ∧
    (is_move = true → ∀ r, fs'.node (src ++ r) = none) ∧
    ∀ q, ¬ place <+: q → ¬ src <+: q → fs'.node q = fs.node q

/-- A directory that is merged into has nothing that the source has not, and of the same
kind. -/
def Covered (fs : Fs) (src place : Path) : Prop :=
  fs.node src = some .dir → fs.node place = some .dir → ∀ r x, fs.node (place ++ r) = some x →
    ∃ y, fs.node (src ++ r) = some y ∧ y.file_type = x.file_type

/-- The source can be removed, or it has no entries and can be renamed. -/
def Goes (os : Os) (call : ℕ) (fs : Fs) (src : Path) : Prop :=
  os.fault (call + 1) = false ∨ (os.fault call = false ∧ ∀ n, fs.node (src ++ [n]) = none)

section Trees

variable {os : Os} {src_type : FileType} {src dest place : Path} {m m₂ : Machine} {fs' : Fs}
  {x : Node}

/-- What the copy was laid over, where a directory is merged into a directory. -/
theorem laid_merge (hset : Setting m.fs src dest place) (hc : Copied m src_type src dest place m₂)
    (ht : src_type = .dir) (hdir : m.fs.node place = some .dir) (r : List Name) :
    (cleared m.fs src_type dest).node (place ++ r) = m.fs.node (place ++ r) ∧
      m₂.fs.node (place ++ r) = overlay (m.fs.node (src ++ r)) (m.fs.node (place ++ r)) := by
  have hnot : ¬ Clears m.fs src_type dest := by
    rw [clears_entry hset.entry hset.link_free]
    simp [ht, hdir]
  have hold : (cleared m.fs src_type dest).node (place ++ r) = m.fs.node (place ++ r) := by
    rw [cleared_of_not hnot]
  refine ⟨hold, ?_⟩
  rw [hc.laid, hold]

/-- And where it is not, there is nothing. -/
theorem laid_fresh (hset : Setting m.fs src dest place) (hx : m.fs.node src = some x)
    (ht : x.file_type = src_type) (hlink : ∀ t, x ≠ .symlink t)
    (hno : ¬ (m.fs.node src = some .dir ∧ m.fs.node place = some .dir)) {r : List Name}
    (hr : r ≠ [] ∨ x = .dir) : (cleared m.fs src_type dest).node (place ++ r) = none := by
  rw [cleared_below hset.entry]
  split
  · rfl
  · rename_i hnot
    rw [clears_entry hset.entry hset.link_free, ← ht] at hnot
    -- what is left there is no directory, so nothing is below it
    have hplace : m.fs.node place ≠ some .dir := by
      intro hdir
      cases x with
      | dir => exact hno ⟨hx, hdir⟩
      | file c => exact hnot (Or.inl ⟨by simp [Node.file_type], hdir⟩)
      | symlink t => exact hlink t rfl
    by_cases hnil : r = []
    · rw [hnil, List.append_nil]
      have hxd := hr.resolve_left (fun h => h hnil)
      cases hp : m.fs.node place with
      | none => rfl
      | some z =>
        cases z with
        | dir => exact absurd hp hplace
        | file c => exact absurd (Or.inr ⟨by rw [hxd]; rfl, c, hp⟩) hnot
        | symlink t => exact absurd (by simpa using hp) (hset.link_free [] t)
    · exact nothing_below (fun h => hplace h.1) _ (List.prefix_append _ _) (by simpa using hnil)

/-- **The copy is the source** exactly when the destination is covered. -/
theorem laid_iff (hset : Setting m.fs src dest place) (hc : Copied m src_type src dest place m₂)
    (hx : m.fs.node src = some x) (ht : x.file_type = src_type)
    (hfree : m.fs.LinkFree src) :
    (∀ r, m₂.fs.node (place ++ r) = m.fs.node (src ++ r)) ↔ Covered m.fs src place := by
  have hlink : ∀ t, x ≠ .symlink t := by
    intro t hxt
    apply hfree [] t
    rw [List.append_nil, hx, hxt]
  constructor
  · intro hsame hsd hpd r z hz
    have htype : src_type = .dir := by
      rw [hx] at hsd
      cases hsd
      exact ht.symm
    obtain ⟨hold, hlaid⟩ := laid_merge hset hc htype hpd r
    have hequal := hsame r
    rw [hlaid, hz] at hequal
    cases hs : m.fs.node (src ++ r) with
    | none =>
      rw [hs] at hequal
      cases hequal
    | some y =>
      refine ⟨y, rfl, ?_⟩
      rw [hs] at hequal
      cases y with
      | file c =>
        -- what stood there was no directory, since directories stay
        cases z with
        | file c' => rfl
        | symlink t => exact absurd hz (hset.link_free r t)
        | dir =>
          have hstays := hc.keeps.dir (hold.trans hz)
          rw [hsame r, hs] at hstays
          cases hstays
      | dir =>
        cases hequal
        rfl
      | symlink t => exact absurd hs (hfree r t)
  · intro hcov r
    by_cases hboth : m.fs.node src = some .dir ∧ m.fs.node place = some .dir
    · have htype : src_type = .dir := by
        rw [hx] at hboth
        cases hboth.1
        exact ht.symm
      obtain ⟨-, hlaid⟩ := laid_merge hset hc htype hboth.2 r
      rw [hlaid]
      cases hp : m.fs.node (place ++ r) with
      | none => exact overlay_fresh (hfree r)
      | some z =>
        obtain ⟨y, hy, hyz⟩ := hcov hboth.1 hboth.2 r z hp
        rw [hy]
        cases y with
        | file c => rfl
        | symlink t => exact absurd hy (hfree r t)
        | dir =>
          have hz := node_of_dir hp hyz.symm
          rw [hp] at hz
          exact hz
    · rw [hc.laid]
      by_cases hr : r ≠ [] ∨ x = .dir
      · rw [laid_fresh hset hx ht hlink hboth hr]
        exact overlay_fresh (hfree r)
      · -- the file itself
        simp only [not_or, not_not] at hr
        rw [hr.1, List.append_nil, hx]
        cases x with
        | file c => rfl
        | dir => exact absurd rfl hr.2
        | symlink t => exact absurd rfl (hlink t)

/-- A copy without entries: its source has none but links, and it covers nothing. -/
theorem laid_empty (hset : Setting m.fs src dest place) (hc : Copied m src_type src dest place m₂)
    (hx : m.fs.node src = some x) (ht : x.file_type = src_type)
    (hempty : ∀ n, m₂.fs.node (place ++ [n]) = none) : Covered m.fs src place := by
  intro hsd hpd r z hz
  have htype : src_type = .dir := by
    rw [hx] at hsd
    cases hsd
    exact ht.symm
  cases r with
  | nil =>
    rw [List.append_nil, hpd] at hz
    cases hz
    exact ⟨.dir, by rw [List.append_nil]; exact hsd, rfl⟩
  | cons n r =>
    exfalso
    obtain ⟨-, hlaid⟩ := laid_merge hset hc htype hpd (n :: r)
    have hnone : m₂.fs.node (place ++ n :: r) = none := none_below (hempty n) ⟨r, by simp⟩
    rw [hlaid] at hnone
    have hold := (overlay_eq_none hnone).1
    rw [hz] at hold
    cases hold

/-- **When a MOVE leaves the source at the destination.** -/
theorem moved_replaced (hset : Setting m.fs src dest place)
    (hc : Copied m src_type src dest place m₂) (hx : m.fs.node src = some x)
    (ht : x.file_type = src_type) (hfree : m.fs.LinkFree src) (hm : Moved os src place m₂ fs') :
    Replaced m.fs fs' true src place ↔ Covered m.fs src place ∧ Goes os m₂.calls m.fs src := by
  have hsource : ∀ r, m₂.fs.node (src ++ r) = m.fs.node (src ++ r) :=
    fun r => hc.frame _ (hset.not_prefix r)
  have hplace : ∀ r, ¬ src <+: place ++ r := apart_append hset.src_apart hset.place_apart
  cases hm with
  | renamed hcall hempty hnode =>
    constructor
    · intro _
      -- the copy had no entries, so the source has none but links, and no links
      refine ⟨laid_empty hset hc hx ht hempty, Or.inr ⟨hcall, fun n => ?_⟩⟩
      have hnone := hempty n
      rw [hc.laid] at hnone
      rcases (overlay_eq_none hnone).2 with h | ⟨t, h⟩
      · exact h
      · exact absurd h (hfree [n] t)
    · intro _
      refine ⟨fun r => ?_, fun _ r => ?_, fun q hp hs => ?_⟩
      · rw [hnode, if_pos (List.prefix_append _ _), List.drop_left, hsource]
      · rw [hnode, if_neg (hset.not_prefix r), if_pos (List.prefix_append _ _)]
      · rw [hnode, if_neg hp, if_neg hs, hc.frame q hp]
  | removed _ hcall hnode =>
    have hcopy : ∀ r, fs'.node (place ++ r) = m₂.fs.node (place ++ r) := by
      intro r
      rw [hnode, if_neg (hplace r)]
    constructor
    · rintro ⟨hsame, -⟩
      -- the source is removed: what is left is the copy
      refine ⟨(laid_iff hset hc hx ht hfree).mp (fun r => ?_), Or.inl hcall⟩
      rw [← hcopy]
      exact hsame r
    · rintro ⟨hcov, -⟩
      refine ⟨fun r => ?_, fun _ r => ?_, fun q hp hs => ?_⟩
      · rw [hcopy]
        exact (laid_iff hset hc hx ht hfree).mpr hcov r
      · rw [hnode, if_pos (List.prefix_append _ _)]
      · rw [hnode, if_neg hs, hc.frame q hp]
  | stuck hno hcall hstays _ =>
    constructor
    · rintro ⟨-, hgone, -⟩
      -- the source is still there
      have hnone := hgone rfl []
      rw [List.append_nil] at hnone
      exact absurd hnone hstays
    · rintro ⟨hcov, hgoes | ⟨hrename, hbare⟩⟩
      · rw [hcall] at hgoes
        cases hgoes
      · -- a copy without entries would have been renamed onto
        exfalso
        apply hno
        refine ⟨hrename, fun n => ?_⟩
        rw [(laid_iff hset hc hx ht hfree).mpr hcov]
        exact hbare n

/-! ## When a MOVE keeps the links -/

/-- Every entry of the source is there, below the destination. -/
def AllKept (fs fs' : Fs) (src place : Path) : Prop :=
  ∀ r x, fs.node (src ++ r) = some x → fs'.node (place ++ r) = some x

/-- A fresh copy has everything but the links. -/
theorem moved_kept (hset : Setting m.fs src dest place) (hc : Copied m src_type src dest place m₂)
    (hnone : m.fs.node place = none) (hm : Moved os src place m₂ fs') :
    AllKept m.fs fs' src place ↔
      m.fs.LinkFree src ∨ (os.fault m₂.calls = false ∧
        ∀ n x, m.fs.node (src ++ [n]) = some x → ∃ t, x = .symlink t) := by
  have hsource : ∀ r, m₂.fs.node (src ++ r) = m.fs.node (src ++ r) :=
    fun r => hc.frame _ (hset.not_prefix r)
  have hplace : ∀ r, ¬ src <+: place ++ r := apart_append hset.src_apart hset.place_apart
  have hlaid : ∀ r, m₂.fs.node (place ++ r) = overlay (m.fs.node (src ++ r)) none := by
    intro r
    rw [hc.laid, cleared_below hset.entry, none_below hnone (List.prefix_append _ _), ite_self]
  -- the copy that stays has what it has, and could not be renamed onto
  have hcopy : (∀ r, fs'.node (place ++ r) = m₂.fs.node (place ++ r)) →
      ¬ (os.fault m₂.calls = false ∧ ∀ n, m₂.fs.node (place ++ [n]) = none) →
      (AllKept m.fs fs' src place ↔
        m.fs.LinkFree src ∨ (os.fault m₂.calls = false ∧
          ∀ n x, m.fs.node (src ++ [n]) = some x → ∃ t, x = .symlink t)) := by
    intro hstays hno
    constructor
    · intro hkept
      left
      intro r t hlink
      have hthere := hkept r _ hlink
      rw [hstays, hlaid, hlink] at hthere
      cases hthere
    · rintro (hfree | ⟨hcall, hlinks⟩)
      · intro r x hx
        rw [hstays, hlaid, overlay_fresh (hfree r)]
        exact hx
      · exfalso
        apply hno
        refine ⟨hcall, fun n => ?_⟩
        rw [hlaid]
        cases hx : m.fs.node (src ++ [n]) with
        | none => rfl
        | some x =>
          obtain ⟨t, rfl⟩ := hlinks n x hx
          rfl
  cases hm with
  | renamed hcall hempty hnode =>
    constructor
    · intro _
      refine Or.inr ⟨hcall, fun n x hx => ?_⟩
      have hgap := hempty n
      rw [hlaid] at hgap
      rcases (overlay_eq_none hgap).2 with h | ⟨t, h⟩
      · rw [hx] at h
        cases h
      · rw [hx] at h
        exact ⟨t, Option.some.inj h⟩
    · intro _ r x hx
      rw [hnode, if_pos (List.prefix_append _ _), List.drop_left, hsource]
      exact hx
  | removed hno _ hnode =>
    apply hcopy _ hno
    intro r
    rw [hnode, if_neg (hplace r)]
  | stuck hno _ _ hnode =>
    apply hcopy _ hno
    intro r
    exact hnode _ (hplace r)

end Trees

/-! ## The request -/

section Request

variable {os : Os} {cwd : Path} {fuel : ℕ} {req : Request} {is_move : Bool} {w : World}
  {src dest place : Path} {src_type : FileType} {text : List Char} {status : StatusCode}

/-- A transfer that succeeds has run all its phases. -/
theorem transfer_ok (h : (transfer os fuel req is_move src dest w).1 = some (.ok status)) :
    ∃ src_type existed m₁ m₂, metadata w.machine.fs src = .ok src_type ∧
      ((metadata w.machine.fs dest).isOk = true → parse_overwrite req.headers = true) ∧
      clear_dest os (parse_overwrite req.headers) (metadata w.machine.fs dest).isOk src_type dest
        w.machine = (existed, m₁) ∧
      copy_source os fuel is_move (parse_depth req.headers) src_type src dest existed m₁
        = (some (.ok ()), m₂) ∧
      (transfer os fuel req is_move src dest w).2.machine =
        if is_move = true then move_source os src_type src dest m₂ else m₂ := by
  rcases transfer_cases os fuel req is_move src dest w with
    ⟨-, hrefused⟩ | ⟨src_type, hmeta, hover, existed, m₁, res, m₂, hclear, hcopy, -, hmachine, -⟩
  · exfalso
    -- a request that was refused has not succeeded
    unfold transfer at h
    dsimp only at h
    rcases hrefused with ⟨hex, hno⟩ | ⟨e, he⟩
    · rw [hex, hno] at h
      cases h
    · rw [he] at h
      dsimp only at h
      split at h
      all_goals cases h
  · -- the reply is a success only after a copy that was one
    have hres : res = some (.ok ()) := by
      unfold transfer at h
      dsimp only at h
      split at h
      · cases h
      · rw [hmeta] at h
        dsimp only at h
        rw [aim_machine, hclear] at h
        dsimp only at h
        rw [hcopy] at h
        rcases res with _ | e | u
        · cases h
        · cases h
        · rfl
    rw [hres] at hcopy hmachine
    refine ⟨src_type, existed, m₁, m₂, hmeta, hover, hclear, hcopy, ?_⟩
    rw [hmachine]
    simp only [true_and]

/-- **What a transfer that succeeds does**: the copy as a whole, and for a MOVE one of the
three ends. -/
theorem transfer_exact (hset : Setting w.machine.fs src dest place)
    (hreal : w.machine.fs.Real src) (hnames : ∀ n ∈ src, n.has_nul = false)
    (htype : metadata w.machine.fs src = .ok src_type)
    (hdepth : is_move = false → parse_depth req.headers ≠ .Zero)
    (h : (transfer os fuel req is_move src dest w).1 = some (.ok status)) :
    ∃ m₂, Copied w.machine src_type src dest place m₂ ∧
      (is_move = false → (transfer os fuel req is_move src dest w).2.machine.fs = m₂.fs) ∧
      (is_move = true →
        Moved os src place m₂ (transfer os fuel req is_move src dest w).2.machine.fs) := by
  obtain ⟨src_type', existed, m₁, m₂, hmeta, hover, hclear, hcopy, hmachine⟩ := transfer_ok h
  rw [htype] at hmeta
  cases hmeta
  obtain ⟨x, hx, hlink, hxt⟩ := real_node hreal htype
  have hmay : Clears w.machine.fs src_type dest →
      (parse_overwrite req.headers && (metadata w.machine.fs dest).isOk) = true :=
    clears_may hover
  have houtcome := clear_dest_cases os (parse_overwrite req.headers)
    (metadata w.machine.fs dest).isOk src_type dest w.machine
  rw [hclear] at houtcome
  have hcalls := clear_dest_calls hmay hclear
  have hcopied : Copied w.machine src_type src dest place m₂ := by
    by_cases ht : src_type = .dir
    · rw [ht] at hcopy houtcome hcalls hmay htype ⊢
      exact copied_dir hset (real_dir hreal htype) (fun hz => hdepth hz.1 hz.2) hmay rfl hcalls
        houtcome hcopy
    · obtain ⟨-, c, hc⟩ := real_file hreal htype ht
      exact copied_file hset hc ht hmay hcalls houtcome hcopy
  refine ⟨m₂, hcopied, fun hno => ?_, fun hmove => ?_⟩
  · rw [hmachine, hno, if_neg Bool.false_ne_true]
  · rw [hmachine, if_pos hmove]
    have hx₂ : m₂.fs.node src = some x := by
      rw [hcopied.frame src hset.place_apart, hx]
    -- the source is found as an entry of its directory
    have hs : locate_entry m₂.fs src = .ok src := by
      have hne : src ≠ [] := by
        intro hnil
        exact hset.src_apart (by rw [hnil]; exact List.nil_prefix)
      obtain ⟨init, n, hsplit⟩ : ∃ init n, src = init ++ [n] :=
        ⟨_, _, (List.dropLast_append_getLast hne).symm⟩
      rw [hsplit] at hx₂ hnames ⊢
      apply locate_entry_self
      · apply m₂.fs.parent_dir init n
        rw [hx₂]
        exact Option.some_ne_none x
      · exact hnames n (by simp)
    have hroot := hcopied.laid []
    rw [List.append_nil, List.append_nil, hx] at hroot
    -- the destination is of the same kind as the source
    have hy : ∃ y, m₂.fs.node place = some y ∧ (x = .dir ↔ y = .dir) := by
      rw [hroot]
      cases x with
      | file c => exact ⟨_, rfl, by simp⟩
      | symlink t => exact absurd rfl (hlink t)
      | dir =>
        have hold := @cleared_below _ src_type _ _ hset.entry []
        rw [List.append_nil] at hold
        refine ⟨_, rfl, ?_⟩
        rw [hold]
        split
        · simp
        · -- what was not cleared is no file
          rename_i hnot
          rw [clears_entry hset.entry hset.link_free, ← hxt] at hnot
          cases hp : w.machine.fs.node place with
          | none => simp
          | some z =>
            cases z with
            | dir => simp
            | file c => exact absurd (Or.inr ⟨rfl, c, hp⟩) hnot
            | symlink t => exact absurd (by simpa using hp) (hset.link_free [] t)
    obtain ⟨y, hy, hkind⟩ := hy
    exact moved_source hs hcopied.entry hx₂ hxt hy hkind hset.src_apart

/-- The same for a request: one that succeeds has got past the guard. -/
theorem request_exact (htext : parse_destination req.headers = some text)
    (hsrc : w.resolve_existing cwd req.uri_path = some src)
    (hdest : (w.resolve_and_guard cwd text).1 = .ok dest)
    (hset : Setting w.machine.fs src dest place) (hnames : ∀ n ∈ src, n.has_nul = false)
    (htype : metadata w.machine.fs src = .ok src_type)
    (hdepth : is_move = false → parse_depth req.headers ≠ .Zero)
    (hok : (do_move_or_copy os cwd fuel req is_move w).1 = some (.ok status)) :
    ∃ m₂, Copied w.machine src_type src dest place m₂ ∧
      (is_move = false → (do_move_or_copy os cwd fuel req is_move w).2.machine.fs = m₂.fs) ∧
      (is_move = true →
        Moved os src place m₂ (do_move_or_copy os cwd fuel req is_move w).2.machine.fs) := by
  have hreal : w.machine.fs.Real src := resolve_existing_real hsrc
  by_cases hspelled : Spelled w.app.root_dir text src
  · rw [guard_hits htext hsrc (resolve_and_guard_ok_iff.mp hdest).1 hspelled] at hok
    cases hok
  · rw [guard_misses htext hsrc hdest hspelled] at hok ⊢
    exact transfer_exact (w := (w.resolve_and_guard cwd text).2) hset hreal hnames htype hdepth hok

/-- **When a COPY or MOVE replaces its destination.** For a source and a destination,
there or not, without links and neither above the other, and every reply of success: the
destination is exactly the source as it was, a MOVE has left nothing of the source and
nothing else has changed, if and only if the destination was covered and, for a MOVE, the
source goes. -/
theorem replaced_iff (htext : parse_destination req.headers = some text)
    (hsrc : w.resolve_existing cwd req.uri_path = some src)
    (hdest : (w.resolve_and_guard cwd text).1 = .ok dest)
    (hentry : locate_entry w.machine.fs dest = .ok place)
    (hsrc_free : w.machine.fs.LinkFree src) (hplace_free : w.machine.fs.LinkFree place)
    (hsrc_apart : ¬ src <+: place) (hplace_apart : ¬ place <+: src)
    (hnames : ∀ n ∈ src, n.has_nul = false)
    (htype : metadata w.machine.fs src = .ok src_type)
    (hdepth : is_move = false → parse_depth req.headers ≠ .Zero)
    (hok : (do_move_or_copy os cwd fuel req is_move w).1 = some (.ok status)) :
    Replaced w.machine.fs (do_move_or_copy os cwd fuel req is_move w).2.machine.fs is_move src place ↔
      Covered w.machine.fs src place ∧
        (is_move = true →
          Goes os (rename_call w.machine src_type src dest place) w.machine.fs src) := by
  have hset : Setting w.machine.fs src dest place := ⟨hentry, hplace_free, hsrc_apart, hplace_apart⟩
  obtain ⟨m₂, hc, hcopy, hmove⟩ := request_exact htext hsrc hdest hset hnames htype hdepth hok
  obtain ⟨x, hx, -, hxt⟩ := real_node (resolve_existing_real hsrc) htype
  cases hm : is_move with
  | true =>
    rw [hm] at hmove
    rw [← hc.calls]
    -- a MOVE: the copy, and one of the three ends
    have hiff := moved_replaced hset hc hx hxt hsrc_free (hmove rfl)
    simpa using hiff
  | false =>
    rw [hm] at hcopy
    -- a COPY is over with its copy
    have hfs := hcopy rfl
    have hiff := laid_iff hset hc hx hxt hsrc_free
    constructor
    · rintro ⟨hsame, -⟩
      refine ⟨hiff.mp (fun r => ?_), fun h => by cases h⟩
      rw [← hfs]
      exact hsame r
    · rintro ⟨hcov, -⟩
      refine ⟨fun r => ?_, fun h => (by cases h), fun q hq _ => ?_⟩
      · rw [hfs]
        exact hiff.mpr hcov r
      · rw [hfs]
        exact hc.frame q hq

/-- **When a MOVE loses nothing.** For every source, links in it or not, and a destination
that does not exist and is not in the source: a MOVE that succeeds has every entry of the
source at the destination, if and only if there is no link in the source, or the rename
does not fail by itself and the source has no entries but links. -/
theorem links_kept_iff (htext : parse_destination req.headers = some text)
    (hsrc : w.resolve_existing cwd req.uri_path = some src)
    (hdest : (w.resolve_and_guard cwd text).1 = .ok dest)
    (hentry : locate_entry w.machine.fs dest = .ok place)
    (hnone : w.machine.fs.node place = none) (hapart : ¬ src <+: place)
    (hnames : ∀ n ∈ src, n.has_nul = false)
    (htype : metadata w.machine.fs src = .ok src_type)
    (hok : (do_move_or_copy os cwd fuel req true w).1 = some (.ok status)) :
    AllKept w.machine.fs (do_move_or_copy os cwd fuel req true w).2.machine.fs src place ↔
      w.machine.fs.LinkFree src ∨
        (os.fault (rename_call w.machine src_type src dest place) = false ∧
          ∀ n x, w.machine.fs.node (src ++ [n]) = some x → ∃ t, x = .symlink t) := by
  have hreal : w.machine.fs.Real src := resolve_existing_real hsrc
  have hset : Setting w.machine.fs src dest place := by
    -- where nothing stands there is no link, and nothing below
    refine ⟨hentry, fun r t hlink => ?_, hapart, fun hpre => ?_⟩
    · rw [none_below hnone (List.prefix_append _ _)] at hlink
      cases hlink
    · obtain ⟨x, hx, -⟩ := hreal
      rw [none_below hnone hpre] at hx
      cases hx
  obtain ⟨m₂, hc, -, hmove⟩ :=
    request_exact htext hsrc hdest hset hnames htype (fun h => absurd h (by simp)) hok
  rw [← hc.calls]
  exact moved_kept hset hc hnone (hmove rfl)

end Request

/-! ## A merge, and a link that is left behind -/

theorem link_free_of_known {fs : Fs}
    (h : ∀ q ∈ fs.known, (fs.node q).map Node.file_type ≠ some .symlink) (p : Path) :
    fs.LinkFree p := by
  intro r t hlink
  have hknown : p ++ r ∈ fs.known := fs.mem_known _ (by rw [hlink]; exact Option.some_ne_none _)
  apply h _ hknown
  rw [hlink]
  rfl

/-- The directories `/a` and `/b`, with the file `f` in the second. -/
def disk_ab : Fs :=
  ((Fs.empty.set [a_name] .dir).set [b_name] .dir).set [b_name, f_name] (.file [1])

/-- The directory `/a`, with the file `f` and the link `l` in it. -/
def disk_l : Fs :=
  ((Fs.empty.set [a_name] .dir).set [a_name, f_name] (.file [1])).set [a_name, l_name]
    (.symlink (PathBuf.of_text "f".toList))

def served (fs : Fs) : World := World.start (AppState.new fs [] (PathBuf.of_text "/".toList) 0) fs

/-- `/a` to `/b`. -/
def a_to_b (method : Method) : Request where
  method := method
  uri_path := "/a".toList
  headers := { destination := some (Text.utf8_encode "/b".toList) }
  body := []
  lock_body := none
  proppatch_body := none
  propfind_body := none

def copied_ab : Option AppResult × World :=
  do_move_or_copy Os.calm [] 1 (a_to_b .COPY) false (served disk_ab)

theorem replaced_iff_ab :
    Replaced disk_ab copied_ab.2.machine.fs false [a_name] [b_name] ↔
      Covered disk_ab [a_name] [b_name] ∧
        (false = true → Goes Os.calm
          (rename_call (served disk_ab).machine .dir [a_name] [b_name] [b_name]) disk_ab [a_name]) :=
  replaced_iff (by decide) (by decide)
    (show ((served disk_ab).resolve_and_guard [] "/b".toList).1 = .ok [b_name] by decide) (by decide)
    (link_free_of_known (by decide) _) (link_free_of_known (by decide) _) (by decide) (by decide)
    (by decide) (by decide) (fun _ => by decide) (show copied_ab.1 = some (.ok .NO_CONTENT) by decide)

/-- A COPY of the empty `/a` onto `/b` succeeds, and `/b/f` is still there. -/
theorem merge_leaves_more :
    copied_ab.1 = some (.ok .NO_CONTENT) ∧
      ¬ Replaced disk_ab copied_ab.2.machine.fs false [a_name] [b_name] := by
  refine ⟨by decide, ?_⟩
  rintro ⟨hsame, -⟩
  have hleft : copied_ab.2.machine.fs.node ([b_name] ++ [f_name]) = some (.file [1]) := by decide
  have hnone : disk_ab.node ([a_name] ++ [f_name]) = none := by decide
  rw [hsame [f_name], hnone] at hleft
  cases hleft

def moved_l : Option AppResult × World :=
  do_move_or_copy Os.calm [] 1 (a_to_b .MOVE) true (served disk_l)

theorem links_kept_iff_l :
    AllKept disk_l moved_l.2.machine.fs [a_name] [b_name] ↔
      disk_l.LinkFree [a_name] ∨
        (Os.calm.fault (rename_call (served disk_l).machine .dir [a_name] [b_name] [b_name]) = false ∧
          ∀ n x, disk_l.node ([a_name] ++ [n]) = some x → ∃ t, x = .symlink t) :=
  links_kept_iff (by decide) (by decide)
    (show ((served disk_l).resolve_and_guard [] "/b".toList).1 = .ok [b_name] by decide) (by decide)
    (by decide) (by decide) (by decide) (by decide) (show moved_l.1 = some (.ok .CREATED) by decide)

/-- A MOVE of `/a` to `/b` succeeds, and the link is nowhere any more. -/
theorem link_is_lost :
    moved_l.1 = some (.ok .CREATED) ∧
      ¬ AllKept disk_l moved_l.2.machine.fs [a_name] [b_name] ∧
      moved_l.2.machine.fs.node [a_name] = none := by
  refine ⟨by decide, fun hkept => ?_, by decide⟩
  have hlink := hkept [l_name] (.symlink (PathBuf.of_text "f".toList)) (by decide)
  have hnone : moved_l.2.machine.fs.node ([b_name] ++ [l_name]) = none := by decide
  rw [hnone] at hlink
  cases hlink

end Rshs.Replace
