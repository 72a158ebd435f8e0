/-
What a COPY or MOVE that fails leaves of its source.

The destination may overlap the source, and it is removed or opened before anything
is known to succeed. `Danger` lists the four ways this costs a file of the source: a
file copied over a directory it lies in; a file copied onto itself; a directory
copied over one of its own files; and a recursive copy that comes, on one of its walks, to a
file whose destination leads back to a file of the source.

`source_kept_iff` is the result: without danger the source survives every failure, and with
danger some failure destroys a part of it.
-/
import Rshs.CopyBegun

set_option autoImplicit false

namespace Rshs.SourceKept

open StdPath Posix Rshs.Webdav Rshs.Resolve Rshs.App Rshs.CopyMove Rshs.CopyRun Rshs.Transfer
open Rshs.CopyWalk Rshs.CopyBegun

/-! ## The ways to lose a file of the source -/

/-- The copy comes to a file whose destination leads to the file `src/r`, which was there
before; and one of the two is not empty, so that it shows if the transfer breaks off. -/
structure Meeting (fs tree : Fs) (src dest : Path) (r : List Name) : Prop where
  meets : ∃ tr fs' src_dir dest_dir n entries stack q c,
    Walk (.between tree [(src, dest)]) tr
      (.inside fs' src_dir dest_dir ((n, .file) :: entries) stack) ∧
    Copied fs' (src_dir ++ [n]) (dest_dir ++ [n]) q (src ++ r) ∧
    fs.node (src ++ r) = some (.file c) ∧ (c ≠ [] ∨ to_write fs' q (src ++ r) ≠ [])

inductive Danger (fs : Fs) (is_move : Bool) (depth : Depth) (src_type : FileType)
    (src dest : Path) : Prop
  | over_ancestor (place : Path) (ht : src_type ≠ .dir) (hm : metadata fs dest = .ok .dir)
      (he : locate_entry fs dest = .ok place) (hdir : fs.node place = some .dir)
      (hpre : place <+: src)
  | onto_itself (b : UInt8) (bs : List UInt8) (ht : src_type ≠ .dir)
      (hm : metadata fs dest ≠ .ok .dir) (hl : locate fs dest = .ok src)
      (hc : fs.node src = some (.file (b :: bs)))
  | over_own_file (place : Path) (c : List UInt8) (ht : src_type = .dir)
      (hm : metadata fs dest = .ok .file) (he : locate_entry fs dest = .ok place)
      (hfile : fs.node place = some (.file c)) (hpre : src <+: place)
  | walked (tree : Fs) (r : List Name) (ht : src_type = .dir)
      (hdeep : ¬ (is_move = false ∧ depth = .Zero)) (hbegun : begun fs dest = some tree)
      (hmeets : Meeting fs tree src dest r)

theorem Intact.refl (fs : Fs) (src : Path) : Intact fs fs src := fun _ _ h _ => h

theorem Intact.trans {fs fs₁ fs₂ : Fs} {src : Path} (h : Intact fs fs₁ src)
    (h' : Intact fs₁ fs₂ src) : Intact fs fs₂ src :=
  fun r x hx ht => h' r x (h r x hx ht) ht

/-- A file's subtree is the file. -/
theorem intact_file {fs fs' : Fs} {src : Path} {c : List UInt8}
    (hsrc : fs.node src = some (.file c)) (h : fs'.node src = some (.file c)) :
    Intact fs fs' src := by
  intro r x hx _
  by_cases hr : r = []
  · rw [hr, List.append_nil] at hx ⊢
    rw [hsrc] at hx
    rw [← hx]
    exact h
  · -- below a file there is nothing
    have hdir := fs.dir_above (p := src) (by rw [hx]; simp) (List.prefix_append src r)
      (fun heq => hr (by simpa using heq.symm))
    rw [hsrc] at hdir
    cases hdir

/-- A directory or file made at a free place costs nothing. -/
theorem intact_set {fs : Fs} {src loc : Path} {x : Node} (hslot : fs.Slot loc)
    (hnone : fs.node loc = none) : Intact fs (fs.set loc x) src := by
  intro r y hy _
  rw [Fs.node_set hslot, if_neg]
  · exact hy
  · intro heq
    rw [heq, hnone] at hy
    cases hy

/-! ## Without danger -/

section Safe

variable {os : Os} {fuel : ℕ} {is_move : Bool} {depth : Depth} {src_type : FileType}
  {src dest : Path} {may overwrite existed existed' : Bool} {m m₁ m₂ : Machine}
  {res : Option (Except StatusCode Unit)}

/-- What is removed for a directory source is no file of it. -/
theorem clear_intact_dir (hclear : ClearOutcome .dir dest may existed m (existed', m₁))
    (hsafe : ¬ Danger m.fs is_move depth .dir src dest) : Intact m.fs m₁.fs src := by
  cases hclear with
  | kept _ => exact Intact.refl _ _
  | failed _ _ _ _ _ hsame _ =>
    rw [hsame rfl]
    exact Intact.refl _ _
  | removed place _ _ hclears he hdir hfs _ =>
    intro r x hx ht
    rw [hfs, node_prune_entry he, if_neg]
    · exact hx
    · intro hpre
      have heq : place = src ++ r := by
        by_contra hneq
        exact hdir rfl (m.fs.dir_above (by rw [hx]; simp) hpre hneq)
      rw [← heq] at hx
      cases x with
      | dir => exact hdir rfl hx
      | symlink t => exact ht rfl
      | file c =>
        rcases hclears with ⟨ht', -⟩ | ⟨-, hm⟩
        · exact ht' rfl
        · exact hsafe (Danger.over_own_file place c rfl hm he hx ⟨r, heq.symm⟩)

/-- A file that is filled costs nothing where the copy meets no file of the source. -/
theorem filled_intact {fs tree fs' : Fs} {tr : List (List Access)} {src_dir dest_dir q loc : Path}
    {n : Name} {entries : List (Name × FileType)} {stack : Stack} {bytes : List UInt8}
    (hsafe : ∀ r, ¬ Meeting fs tree src dest r)
    (hwalk : Walk (.between tree [(src, dest)]) tr
      (.inside fs' src_dir dest_dir ((n, .file) :: entries) stack))
    (hcopied : Copied fs' (src_dir ++ [n]) (dest_dir ++ [n]) q loc) (hintact : Intact fs fs' src)
    (hbytes : bytes <+: to_write fs' q loc) : Intact fs (filled fs' loc bytes) src := by
  have hslot := slot_of_locate hcopied.dest hcopied.no_dir
  intro r x hx ht
  have hkept := hintact r x hx ht
  unfold filled
  rw [node_fill hslot]
  split
  · -- the place is a file of the source, which was empty and stays so
    rename_i heq
    subst heq
    cases x with
    | dir => exact absurd hkept hcopied.no_dir
    | symlink t => exact absurd rfl ht
    | file c =>
      have hnot : ¬ (c ≠ [] ∨ to_write fs' q (src ++ r) ≠ []) := fun hloss =>
        hsafe r ⟨tr, fs', src_dir, dest_dir, n, entries, stack, q, c, hwalk, hcopied, hx, hloss⟩
      rw [not_or, not_not, not_not] at hnot
      rw [hnot.2, List.prefix_nil] at hbytes
      rw [hbytes, hnot.1]
  · exact hkept

/-- So a walk that meets none leaves the source intact. -/
theorem walk_intact {fs tree : Fs} (hsafe : ∀ r, ¬ Meeting fs tree src dest r)
    (hintact : Intact fs tree src) {tr : List (List Access)} {M : Moment}
    (h : Walk (.between tree [(src, dest)]) tr M) : Intact fs M.fs src := by
  refine (h.keeps (I := fun M => (∃ tr, Walk (.between tree [(src, dest)]) tr M) ∧
    Intact fs M.fs src) (fun M as M' hM hstep => ?_) ⟨⟨[], Lts.Run.nil _⟩, hintact⟩).2
  obtain ⟨⟨tr, hwalk⟩, hkept⟩ := hM
  refine ⟨⟨tr ++ [as], hwalk.append (Lts.Run.single hstep)⟩, ?_⟩
  cases hstep with
  | opened d names _ _ _ => exact hkept
  | closed => exact hkept
  | made loc hl hnone =>
    exact Intact.trans hkept (intact_set (slot_of_free hl hnone) hnone)
  | found loc _ _ => exact hkept
  | passed => exact hkept
  | copied q loc hcopied => exact filled_intact hsafe hwalk hcopied hkept List.prefix_rfl

/-- Nor does a copy that is over. -/
theorem over_intact {fs tree : Fs} {log : List Access} (hsafe : ∀ r, ¬ Meeting fs tree src dest r)
    (hintact : Intact fs tree src) (h : Over (.between tree [(src, dest)]) log res m₂) :
    Intact fs m₂.fs src := by
  cases h with
  | done tr _ hwalk _ => exact walk_intact hsafe hintact hwalk
  | spent tr _ stack _ hwalk _ => exact walk_intact hsafe hintact hwalk
  | failed tr M' as _ hwalk hfails _ =>
    have hkept := walk_intact hsafe hintact hwalk
    generalize m₂.fs = fs₂ at hfails ⊢
    cases hfails with
    | idle => exact hkept
    | unread q c _ _ => exact hkept
    | partly q loc bytes hcopied hbytes => exact filled_intact hsafe hwalk hcopied hkept hbytes

/-- A directory source survives. -/
theorem dir_intact (hmay : Clears m.fs .dir dest → (overwrite && (metadata m.fs dest).isOk) = true)
    (hclear : clear_dest os overwrite (metadata m.fs dest).isOk .dir dest m = (existed, m₁))
    (hsafe : ¬ Danger m.fs is_move depth .dir src dest)
    (h : copy_source os fuel is_move depth .dir src dest existed m₁ = (res, m₂)) :
    Intact m.fs m₂.fs src := by
  have houtcome := clear_dest_cases os overwrite (metadata m.fs dest).isOk .dir dest m
  rw [hclear] at houtcome
  have hcleared := clear_intact_dir houtcome hsafe
  by_cases hdeep : is_move = false ∧ depth = .Zero
  · -- a shallow copy makes at most one directory
    refine Intact.trans hcleared ?_
    unfold copy_source at h
    rw [if_pos rfl, if_pos hdeep] at h
    split at h
    · cases h
      exact Intact.refl _ _
    · have hmk : Intact m₁.fs (create_dir os dest m₁).2.fs src := by
        rcases make_cases os .dir dest m₁ with ⟨e, hc⟩ | ⟨loc, -, hnone, hslot, hc⟩
        · rw [create_dir, hc]
          exact Intact.refl _ _
        · rw [create_dir, hc]
          exact intact_set hslot hnone
      rcases hc : create_dir os dest m₁ with ⟨_ | _, m₃⟩
      · rw [hc] at h hmk
        cases h
        exact hmk
      · rw [hc] at h hmk
        cases h
        exact hmk
  · rcases copy_over hdeep hmay hclear h with ⟨-, hfs, -⟩ | ⟨tree, log, hbegun, hover, htree, -⟩
    · rw [hfs]
      exact hcleared
    · refine over_intact (fun r hmeets => hsafe (Danger.walked tree r rfl hdeep hbegun hmeets)) ?_ hover
      rcases begun_cases hbegun with ⟨-, rfl⟩ | ⟨place, ⟨-, hl, hnone⟩, rfl⟩
      · exact Intact.refl _ _
      · rw [← htree] at hl hnone ⊢
        exact Intact.trans hcleared (intact_set (slot_of_free hl hnone) hnone)

/-- A file source is not below what is removed for it. -/
theorem not_below_cleared {c : List UInt8} {place : Path} (hsrc : m.fs.node src = some (.file c))
    (htype : src_type ≠ .dir) (hsafe : ¬ Danger m.fs is_move depth src_type src dest)
    (hclears : Clears m.fs src_type dest) (he : locate_entry m.fs dest = .ok place) :
    ¬ place <+: src := by
  intro hpre
  rcases hclears with ⟨-, hm⟩ | ⟨ht, -⟩
  · by_cases heq : place = src
    · rw [heq] at he
      obtain ⟨q, x, hq, hx, ht⟩ := metadata_ok hm
      have hqs := locate_of_entry he (by rw [hsrc]; simp) (locate_of_follow hq)
      rw [hqs, hsrc] at hx
      cases hx
      cases ht
    · have hdir := m.fs.dir_above (by rw [hsrc]; simp) hpre heq
      exact hsafe (Danger.over_ancestor place htype hm he hdir hpre)
  · exact htype ht

/-- So it is still there when the copy begins. -/
theorem file_before_copy {c : List UInt8} (hsrc : m.fs.node src = some (.file c))
    (htype : src_type ≠ .dir) (hclear : ClearOutcome src_type dest may existed m (existed', m₁))
    (hsafe : ¬ Danger m.fs is_move depth src_type src dest) :
    m₁.fs.node src = some (.file c) := by
  cases hclear with
  | kept _ => exact hsrc
  | removed place _ _ hclears he _ hfs _ =>
    rw [hfs, node_prune_entry he, if_neg (not_below_cleared hsrc htype hsafe hclears he)]
    exact hsrc
  | failed _ _ hclears _ hpart _ _ =>
    rcases hpart with hsame | ⟨place, he, -, -, hrest⟩
    · rw [hsame]
      exact hsrc
    · rw [hrest src (not_below_cleared hsrc htype hsafe hclears he)]
      exact hsrc

/-- A file source survives. -/
theorem file_intact {c : List UInt8} (hsrc : m.fs.node src = some (.file c))
    (htype : src_type ≠ .dir) (hmay : Clears m.fs src_type dest → may = true)
    (hclear : ClearOutcome src_type dest may existed m (existed', m₁))
    (hsafe : ¬ Danger m.fs is_move depth src_type src dest)
    (h : copy_source os fuel is_move depth src_type src dest existed' m₁ = (res, m₂)) :
    Intact m.fs m₂.fs src := by
  have hk := clear_keeps hclear
  have hsrc₁ := file_before_copy hsrc htype hclear hsafe
  refine intact_file hsrc ?_
  unfold copy_source copy_file at h
  rw [if_neg htype] at h
  rcases copy_cases os src dest m₁ with
    ⟨e, m', hc, hfs, -⟩ | ⟨s, c', loc, hs, -, hl, hslot, r, m', bytes, hc, hfs, -, hbytes, -⟩
  · rw [hc] at h
    cases h
    rw [hfs]
    exact hsrc₁
  · have hm₂ : m₂ = m' := by
      rw [hc] at h
      cases r with
      | error e =>
        cases h
        rfl
      | ok u =>
        cases h
        rfl
    rw [hm₂, hfs, node_fill hslot]
    split
    · -- the destination leads to the source
      rename_i heq
      subst heq
      rw [follow_self ⟨_, hsrc₁, by simp⟩] at hs
      cases hs
      cases hclear with
      | kept hnot =>
        have hm : metadata m.fs dest ≠ .ok .dir := by
          intro hm
          have hclears : Clears m.fs src_type dest := Or.inl ⟨htype, hm⟩
          exact hnot ⟨hmay hclears, hclears⟩
        cases c with
        | cons b bs => exact absurd (Danger.onto_itself b bs htype hm hl hsrc) hsafe
        | nil =>
          -- an empty file copied onto itself is still empty
          have hempty : (m.fs.set src (.file [])).content src = [] := by
            unfold Fs.content
            rw [Fs.node_set hslot, if_pos rfl]
          rw [hempty] at hbytes
          rw [List.prefix_nil.mp hbytes]
      | removed place _ _ hclears he _ hfs₁ _ =>
        -- the destination leads to the place that was cleared
        have hnl : ∀ t, m₁.fs.node place ≠ some (.symlink t) := by
          intro t
          rw [hfs₁, node_prune_entry he, if_pos List.prefix_rfl]
          simp
        have hlast := locate_of_entry_before hk he hnl hl
        exact absurd (by rw [hlast]) (not_below_cleared hsrc htype hsafe hclears he)
      | failed _ _ hclears hkeeps hpart _ _ =>
        exact absurd (failed_blocks_file hclears htype hkeeps hpart hl) hslot.2.2
    · exact hsrc₁

end Safe

/-! ## With danger -/

/-- Only the call of number `k` fails, before it has had an effect. -/
def failing (k : ℕ) : Os where
  fault n := decide (n = k)
  order _ names := names
  order_perm _ _ := List.Perm.refl _
  cut _ := 0
  chosen _ _ := false

theorem failing_here (k : ℕ) : (failing k).fault k = true := decide_eq_true rfl

theorem failing_before {k n : ℕ} (h : n < k) : (failing k).fault n = false :=
  decide_eq_false (by omega)

section Lost

variable {req : Request} {is_move : Bool} {src dest : Path} {src_type : FileType} {w : World}

/-- The phases of a `transfer` that gets as far as the copy. -/
theorem transfer_copy {os : Os} {fuel : ℕ} {existed : Bool} {m₁ m₂ : Machine} {status : StatusCode}
    (hmeta : metadata w.machine.fs src = .ok src_type)
    (hover : (metadata w.machine.fs dest).isOk = true → parse_overwrite req.headers = true)
    (hclear : clear_dest os (parse_overwrite req.headers) (metadata w.machine.fs dest).isOk
      src_type dest w.machine = (existed, m₁))
    (hcopy : copy_source os fuel is_move (parse_depth req.headers) src_type src dest existed m₁
      = (some (.error status), m₂)) :
    (transfer os fuel req is_move src dest w).1 = some (.error status) ∧
      (transfer os fuel req is_move src dest w).2.machine = m₂ := by
  have hgo : ¬ ((metadata w.machine.fs dest).isOk && !parse_overwrite req.headers) = true := by
    intro h
    rw [Bool.and_eq_true, Bool.not_eq_true'] at h
    rw [hover h.1] at h
    cases h.2
  unfold transfer
  dsimp only
  rw [if_neg hgo, hmeta]
  dsimp only
  rw [aim_machine, hclear]
  dsimp only
  rw [hcopy]
  exact ⟨rfl, rfl⟩

/-- A failed transfer loses a file of its source. -/
def Loses (req : Request) (is_move : Bool) (src dest : Path) (w : World) : Prop :=
  ∃ os fuel status, (transfer os fuel req is_move src dest w).1 = some (.error status) ∧
    ¬ Intact w.machine.fs (transfer os fuel req is_move src dest w).2.machine.fs src

/-- A file is gone once a directory it lies in was removed. -/
theorem over_ancestor_loses {place : Path} (hsrc : w.machine.fs.Real src)
    (hmeta : metadata w.machine.fs src = .ok src_type)
    (hover : (metadata w.machine.fs dest).isOk = true → parse_overwrite req.headers = true)
    (ht : src_type ≠ .dir) (hm : metadata w.machine.fs dest = .ok .dir)
    (he : locate_entry w.machine.fs dest = .ok place) (hpre : place <+: src) :
    Loses req is_move src dest w := by
  have hclears : Clears w.machine.fs src_type dest := Or.inl ⟨ht, hm⟩
  rcases hclear : clear_dest Os.calm (parse_overwrite req.headers)
    (metadata w.machine.fs dest).isOk src_type dest w.machine with ⟨existed, m₁⟩
  obtain ⟨hfs, -, -, -⟩ := clear_dest_ok rfl (clears_may hover) hclear
  rw [cleared_of_entry hclears he] at hfs
  have hgone : m₁.fs.node src = none := by
    rw [hfs, node_prune_entry he, if_pos hpre]
  -- so the source can no longer be opened
  have hopen : ∀ q, follow m₁.fs src ≠ .ok q := by
    intro q hq
    have hq' := follow_keeps (by rw [hfs]; exact Fs.keeps_prune _) hq
    rw [follow_self hsrc] at hq'
    cases hq'
    obtain ⟨x, hx, -⟩ := follow_real hq
    rw [hgone] at hx
    cases hx
  obtain ⟨m₂, hcopy, hsame⟩ : ∃ m₂, copy_source Os.calm 0 is_move (parse_depth req.headers)
      src_type src dest existed m₁ = (some (.error .INTERNAL_SERVER_ERROR), m₂) ∧
        m₂.fs = m₁.fs := by
    unfold copy_source copy_file
    rw [if_neg ht]
    rcases copy_cases Os.calm src dest m₁ with ⟨e, m', hc, hfs', -⟩ | ⟨s, c, loc, hs, -⟩
    · rw [hc]
      exact ⟨m', rfl, hfs'⟩
    · exact absurd hs (hopen s)
  obtain ⟨hreply, hmachine⟩ := transfer_copy hmeta hover hclear hcopy
  refine ⟨Os.calm, 0, _, hreply, fun hintact => ?_⟩
  obtain ⟨x, hx, hlink⟩ := hsrc
  have hkept := hintact [] x (by rw [List.append_nil]; exact hx) (fun hxt => by
    cases x with
    | symlink t => exact hlink t rfl
    | file c => cases hxt
    | dir => cases hxt)
  rw [hmachine, hsame, List.append_nil, hgone] at hkept
  cases hkept

/-- A file that is copied onto itself is empty if the transfer fails, and after it. -/
theorem onto_itself_loses {b : UInt8} {bs : List UInt8}
    (hmeta : metadata w.machine.fs src = .ok src_type)
    (hover : (metadata w.machine.fs dest).isOk = true → parse_overwrite req.headers = true)
    (ht : src_type ≠ .dir) (hm : metadata w.machine.fs dest ≠ .ok .dir)
    (hl : locate w.machine.fs dest = .ok src)
    (hc : w.machine.fs.node src = some (.file (b :: bs))) : Loses req is_move src dest w := by
  have hclears : ¬ Clears w.machine.fs src_type dest := by
    rintro (⟨-, h⟩ | ⟨h, -⟩)
    · exact hm h
    · exact ht h
  -- the transfer, which is the third call, fails
  let os := failing (w.machine.calls + 2)
  have hf₀ : os.fault w.machine.calls = false := failing_before (by omega)
  have hf₁ : os.fault (w.machine.calls + 1) = false := failing_before (by omega)
  have hf₂ : os.fault (w.machine.calls + 2) = true := failing_here _
  have hdir : w.machine.fs.node src ≠ some .dir := by
    rw [hc]
    simp
  have hslot := slot_of_locate hl hdir
  rcases hclear : clear_dest os (parse_overwrite req.headers)
    (metadata w.machine.fs dest).isOk src_type dest w.machine with ⟨existed, m₁⟩
  obtain ⟨-, -, -, hkept⟩ := clear_dest_ok hf₀ (clears_may hover) hclear
  obtain ⟨-, rfl⟩ := hkept hclears
  have hself : follow w.machine.fs src = .ok src := follow_self ⟨_, hc, by simp⟩
  obtain ⟨m₂, hcopy, hempty⟩ : ∃ m₂, copy_source os 0 is_move (parse_depth req.headers)
      src_type src dest existed w.machine = (some (.error .INTERNAL_SERVER_ERROR), m₂) ∧
        m₂.fs.node src = some (.file []) := by
    unfold copy_source copy_file copy
    rw [if_neg ht, open_file_ok hf₀ hself hc]
    dsimp only
    rw [create_ok (m := w.machine.tick.read src) hf₁ hl hdir]
    dsimp only
    rw [write_fault (m := (w.machine.tick.read src).tick.set src (.file [])) hf₂]
    refine ⟨_, rfl, ?_⟩
    show ((w.machine.fs.set src (.file [])).set src (.file _)).node src = _
    rw [node_fill hslot, if_pos rfl]
    rfl
  obtain ⟨hreply, hmachine⟩ := transfer_copy hmeta hover hclear hcopy
  refine ⟨os, 0, _, hreply, fun hintact => ?_⟩
  have hkept := hintact [] _ (by rw [List.append_nil]; exact hc) (by simp [Node.file_type])
  rw [hmachine, List.append_nil, hempty] at hkept
  cases hkept

/-- A file of the source that was removed to make room is not put back. -/
theorem over_own_file_loses {place : Path} {c : List UInt8}
    (hmeta : metadata w.machine.fs src = .ok src_type)
    (hover : (metadata w.machine.fs dest).isOk = true → parse_overwrite req.headers = true)
    (ht : src_type = .dir) (hm : metadata w.machine.fs dest = .ok .file)
    (he : locate_entry w.machine.fs dest = .ok place)
    (hfile : w.machine.fs.node place = some (.file c)) (hpre : src <+: place) :
    Loses req is_move src dest w := by
  have hclears : Clears w.machine.fs src_type dest := Or.inr ⟨ht, hm⟩
  -- the directory that should take the place, made by the second call, is not made
  let os := failing (w.machine.calls + 1)
  have hf₀ : os.fault w.machine.calls = false := failing_before (by omega)
  have hf₁ : os.fault (w.machine.calls + 1) = true := failing_here _
  rcases hclear : clear_dest os (parse_overwrite req.headers)
    (metadata w.machine.fs dest).isOk src_type dest w.machine with ⟨existed, m₁⟩
  obtain ⟨hfs, -, hremoved, -⟩ := clear_dest_ok hf₀ (clears_may hover) hclear
  obtain ⟨rfl, hcalls⟩ := hremoved hclears
  rw [cleared_of_entry hclears he] at hfs
  have hmake : create_dir os dest m₁ = (.error .Other, m₁.tick) := by
    unfold create_dir make
    exact syscall_fault (by rw [hcalls]; exact hf₁)
  have hcopy : copy_source os 0 is_move (parse_depth req.headers) src_type src dest false m₁
      = (some (.error .INTERNAL_SERVER_ERROR), m₁.tick) := by
    unfold copy_source copy_dir
    rw [if_pos ht, if_neg Bool.false_ne_true, if_neg Bool.false_ne_true, hmake]
    split
    · rfl
    · rfl
  obtain ⟨hreply, hmachine⟩ := transfer_copy hmeta hover hclear hcopy
  refine ⟨os, 0, _, hreply, fun hintact => ?_⟩
  obtain ⟨r, rfl⟩ := hpre
  have hkept := hintact r _ hfile (by simp [Node.file_type])
  rw [hmachine, tick_fs, hfs, node_prune_entry he, if_pos List.prefix_rfl] at hkept
  cases hkept

/-- A file of the source that a walk meets is not what it was when its copy breaks off. -/
theorem walked_loses {tree : Fs} {r : List Name}
    (hmeta : metadata w.machine.fs src = .ok .dir)
    (hover : (metadata w.machine.fs dest).isOk = true → parse_overwrite req.headers = true)
    (hdeep : ¬ (is_move = false ∧ parse_depth req.headers = .Zero))
    (hbegun : begun w.machine.fs dest = some tree)
    (hmeets : Meeting w.machine.fs tree src dest r) : Loses req is_move src dest w := by
  obtain ⟨tr, fs', src_dir, dest_dir, n, entries, stack, q, c, hwalk, hcopied, hfile, hloss⟩ := hmeets
  obtain ⟨m₀, hfs, hle, -, hgo⟩ := copy_begins src hdeep (clears_may hover) hbegun
  -- the part that is written is nothing, or all where nothing was there
  obtain ⟨k, hk⟩ : ∃ k, (to_write fs' q (src ++ r)).take k ≠ c := by
    by_cases hc : c = []
    · refine ⟨(to_write fs' q (src ++ r)).length, ?_⟩
      rw [List.take_length, hc]
      exact hloss.resolve_left (not_not.mpr hc)
    · exact ⟨0, fun heq => hc (by rw [← heq, List.take_zero])⟩
  obtain ⟨order, hperm, broken, fuel, m', hbroken, hfail, hleft⟩ := walk_breaks hwalk hfs hcopied k
  obtain ⟨existed, m₁, hclear, -, hloop⟩ := hgo
    (listing order hperm (fun i => decide (i = broken)) k)
    (fun n _ hlt => decide_eq_false (by omega))
  have hcopy : copy_source (listing order hperm (fun i => decide (i = broken)) k) fuel is_move
      (parse_depth req.headers) .dir src dest existed m₁
        = (some (.error .INTERNAL_SERVER_ERROR), m') := by
    rw [hloop]
    exact hfail
  obtain ⟨hreply, hmachine⟩ := transfer_copy hmeta hover hclear hcopy
  refine ⟨_, fuel, _, hreply, fun hintact => ?_⟩
  have hkept := hintact r _ hfile (by simp [Node.file_type])
  have hslot := slot_of_locate hcopied.dest hcopied.no_dir
  rw [hmachine, hleft, filled, node_fill hslot, if_pos rfl, Option.some.injEq, Node.file.injEq] at hkept
  exact hk hkept

end Lost

/-! ## Every request -/

section Requests

variable (cwd : Path) (req : Request) (is_move : Bool) (w : World)

/-- The request gets past the guards, with the paths and the type it found. -/
structure Reaches (src dest : Path) (src_type : FileType) (text : List Char) : Prop where
  destination : parse_destination req.headers = some text
  source : w.resolve_existing cwd req.uri_path = some src
  not_spelled : ¬ Spelled w.app.root_dir text src
  guarded : (w.resolve_and_guard cwd text).1 = .ok dest
  type : metadata w.machine.fs src = .ok src_type
  overwrite : (metadata w.machine.fs dest).isOk = true → parse_overwrite req.headers = true

/-- No file of the source is at risk. -/
def NoDanger : Prop :=
  ∀ src dest src_type text, Reaches cwd req w src dest src_type text →
    ¬ Danger w.machine.fs is_move (parse_depth req.headers) src_type src dest

/-- Whatever the system calls do, a failed COPY or MOVE leaves its source intact. -/
def KeepsSource : Prop :=
  ∀ os fuel status src, w.resolve_existing cwd req.uri_path = some src →
    (do_move_or_copy os cwd fuel req is_move w).1 = some (.error status) →
    Intact w.machine.fs (do_move_or_copy os cwd fuel req is_move w).2.machine.fs src

variable {cwd req is_move w}

theorem keeps_of_no_danger (hcwd : w.machine.fs.Real cwd) (hsafe : NoDanger cwd req is_move w) :
    KeepsSource cwd req is_move w := by
  intro os fuel status src hsrc herror
  rcases do_move_or_copy_cases os cwd fuel req is_move w with
    hnone | ⟨text, src', dest, htext, hsrc', hspelled, hdest, hgo⟩
  · rw [hnone.machine]
    exact Intact.refl _ _
  rw [hsrc] at hsrc'
  cases hsrc'
  rw [hgo] at herror ⊢
  rcases transfer_cases os fuel req is_move src dest (w.resolve_and_guard cwd text).2 with
    ⟨hsame, -⟩ | ⟨src_type, hmeta, hover, existed, m₁, res, m₂, hclear, hcopy, hstatus, hmachine, -⟩
  · rw [hsame.machine]
    exact Intact.refl _ _
  have hdanger := hsafe src dest src_type text ⟨htext, hsrc, hspelled, hdest, hmeta, hover⟩
  obtain ⟨status', hres⟩ := hstatus.mp ⟨status, herror⟩
  rw [hmachine, if_neg (by rw [hres]; simp)]
  -- the source is a directory or a file
  obtain ⟨-, hreal, -⟩ := resolve_existing_some hcwd hsrc
  obtain ⟨x, hx, hlink⟩ := hreal
  have htype : src_type = x.file_type := by
    have hself := metadata_real hx hlink
    rw [guard_machine] at hmeta
    rw [hmeta] at hself
    cases hself
    rfl
  have houtcome := clear_dest_cases os (parse_overwrite req.headers)
    (metadata w.machine.fs dest).isOk src_type dest w.machine
  rw [guard_machine] at hclear
  rw [hclear] at houtcome
  have hmay : Clears w.machine.fs src_type dest →
      (parse_overwrite req.headers && (metadata w.machine.fs dest).isOk) = true := clears_may hover
  cases x with
  | dir =>
    rw [htype] at hmay hclear hdanger hcopy
    exact dir_intact hmay hclear hdanger hcopy
  | file c => exact file_intact hx (by rw [htype]; simp [Node.file_type]) hmay houtcome hdanger hcopy
  | symlink t => exact absurd rfl (hlink t)

theorem no_danger_of_keeps (hcwd : w.machine.fs.Real cwd)
    (hkeeps : KeepsSource cwd req is_move w) : NoDanger cwd req is_move w := by
  intro src dest src_type text hreach hdanger
  obtain ⟨-, hreal, -⟩ := resolve_existing_some hcwd hreach.source
  have hmeta := hreach.type
  have hover := hreach.overwrite
  -- each danger loses a file
  have hloses : Loses req is_move src dest (w.resolve_and_guard cwd text).2 := by
    cases hdanger with
    | over_ancestor place ht hm he _ hpre =>
      exact over_ancestor_loses (by exact hreal) hmeta hover ht hm he hpre
    | onto_itself b bs ht hm hl hc => exact onto_itself_loses hmeta hover ht hm hl hc
    | over_own_file place c ht hm he hfile hpre =>
      exact over_own_file_loses hmeta hover ht hm he hfile hpre
    | walked tree r ht hdeep hbegun hmeets =>
      rw [ht] at hmeta
      exact walked_loses hmeta hover hdeep hbegun hmeets
  obtain ⟨os, fuel, status, herror, hlost⟩ := hloses
  have hgo : do_move_or_copy os cwd fuel req is_move w =
      transfer os fuel req is_move src dest (w.resolve_and_guard cwd text).2 :=
    guard_misses hreach.destination hreach.source hreach.guarded hreach.not_spelled
  refine hlost ?_
  rw [← hgo]
  exact hkeeps os fuel status src hreach.source (by rw [hgo]; exact herror)

/-- **When a failing COPY or MOVE keeps its source.** Whatever the system calls do, if and
only if there is no danger. -/
theorem source_kept_iff (hcwd : w.machine.fs.Real cwd) :
    KeepsSource cwd req is_move w ↔ NoDanger cwd req is_move w :=
  ⟨no_danger_of_keeps hcwd, keeps_of_no_danger hcwd⟩

end Requests

/-! ## A file copied over its own directory -/

def copy_up : Request where
  method := .COPY
  uri_path := "/d/f".toList
  headers := { destination := some (Text.utf8_encode "/d".toList) }
  body := []
  lock_body := none
  proppatch_body := none
  propfind_body := none

def dir_d : Path := [d_name]

def file_f : Path := [d_name, f_name]

/-- A directory `/d` with one file `f`, served from `/`. -/
def served_d : World :=
  let fs := (Fs.empty.set dir_d .dir).set file_f (.file [1])
  World.start (AppState.new fs [] (PathBuf.of_text "/".toList) 0) fs

/-- COPY of `/d/f` to `/x`. -/
def copy_out : Request :=
  { copy_up with headers := { destination := some (Text.utf8_encode "/x".toList) } }

theorem copy_out_safe : NoDanger [] copy_out false served_d := by
  intro src dest src_type text hreach hdanger
  have htext : parse_destination copy_out.headers = some "/x".toList := by decide
  rw [hreach.destination] at htext
  cases htext
  have hsrc : served_d.resolve_existing [] copy_out.uri_path = some file_f := by decide
  rw [hreach.source] at hsrc
  cases hsrc
  have hdest : (served_d.resolve_and_guard [] "/x".toList).1 = .ok [x_name] := by decide
  rw [hreach.guarded] at hdest
  cases hdest
  have htype : metadata served_d.machine.fs file_f = .ok .file := by decide
  rw [hreach.type] at htype
  cases htype
  -- nothing stands at the destination
  cases hdanger with
  | over_ancestor place _ hm _ _ _ => exact absurd hm (by decide)
  | onto_itself b bs _ _ hl _ => exact absurd hl (by decide)
  | over_own_file place c ht _ _ _ _ => cases ht
  | walked tree r ht _ _ _ => cases ht

theorem source_kept_iff_out : KeepsSource [] copy_out false served_d :=
  (source_kept_iff ⟨.dir, by decide, fun t => by simp⟩).mpr copy_out_safe

/-- A COPY of `/d/f` onto `/d` removes `/d`, answers 500 and leaves no `f`. -/
theorem copy_up_loses : ¬ KeepsSource [] copy_up false served_d := by
  intro h
  have hkept := h Os.calm 0 .INTERNAL_SERVER_ERROR file_f (by decide) (by decide)
  have hbefore : served_d.machine.fs.node (file_f ++ []) = some (.file [1]) := by decide
  have hafter : (do_move_or_copy Os.calm [] 0 copy_up false served_d).2.machine.fs.node
      (file_f ++ []) = none := by decide
  have hfile := hkept [] (.file [1]) hbefore (by decide)
  rw [hafter] at hfile
  cases hfile

end Rshs.SourceKept
