/-
A directory is never copied into itself with success.

When the destination is inside the source, at `src/e`, it is one of the directories to
be copied, and so is everything that has been copied there. Whether the loop ends depends
on what stands in its way (`CopyEnds`), but it does not end well: the directories
`src/e/e/…` are pushed one after another (`Deeper`), for each has been made, or was there,
by the time the one above it is read, and a file in the place of one would have had to be
copied to below itself. A loop that succeeds has emptied its stack, and then it would have
pushed them all.

So a COPY or MOVE of a directory into itself is answered with an error or not at all, and
the last phase of the MOVE, which removes the source, is not reached.
-/
import Rshs.Answered

set_option autoImplicit false

namespace Rshs.IntoItself

open StdPath Posix Endless Rshs.Webdav Rshs.Resolve Rshs.App Rshs.CopyMove Rshs.CopyRun
open Rshs.Transfer Rshs.CopyEnds Rshs.Replace Rshs.SourceKept Rshs.Answered

/-! ## The turn of a listed entry -/

section Turn

variable {os : Os} {src dst : Path} {m m' : Machine} {p : List Name}
  {entries : List (Name × FileType)} {stack stack' : Stack} {n : Name} {t : FileType}

/-- Every entry that was listed has had its turn in a loop that succeeded. -/
theorem entry_turn (hok : EntriesOk m.fs (src ++ p) entries) (hstack : StackOk src dst m.fs stack)
    (hn : (n, t) ∈ entries)
    (h : copy_entries os (src ++ p) (dst ++ p) entries stack m = (.ok stack', m')) :
    ∃ m₁ m₂, Copies src dst m m₁ ∧
      EntryDone os t (src ++ p ++ [n]) (dst ++ p ++ [n]) m₁.tick.tick m₂ ∧
      Copies src dst m₂ m' := by
  induction entries generalizing stack m with
  | nil => cases hn
  | cons entry entries ih =>
    obtain ⟨n', t'⟩ := entry
    obtain ⟨m₁, hdone, hgo⟩ := copy_entries_cons h
    have hentry := hok n' t' List.mem_cons_self
    have hrun := entry_done_run hentry hdone
    have hext := copy_run_extends hrun
    have hrest : EntriesOk m₁.fs (src ++ p) entries :=
      fun k u hk => hok.mono hext k u (List.mem_cons_of_mem _ hk)
    have hpush := hstack.push hext hentry
    rcases List.mem_cons.mp hn with heq | hn
    · -- its own turn, and the loop over the rest
      cases heq
      exact ⟨m, m₁, Relation.ReflTransGen.refl, hdone, (copy_entries_run hrest hpush hgo).1⟩
    · obtain ⟨m₂, m₃, hbefore, hturn, hafter⟩ := ih hrest hpush hn hgo
      exact ⟨m₂, m₃, hrun.trans hbefore, hturn, hafter⟩

/-- A directory that was listed has its counterpart, if only a file of that name. -/
theorem listed_dir_made {place : Path} (hplace : locate_entry m.fs dst = .ok place)
    (hfree : m.fs.LinkFree place) (hok : EntriesOk m.fs (src ++ p) entries)
    (hstack : StackOk src dst m.fs stack) (hn : (n, .dir) ∈ entries)
    (h : copy_entries os (src ++ p) (dst ++ p) entries stack m = (.ok stack', m')) :
    m'.fs.node (place ++ (p ++ [n])) ≠ none := by
  obtain ⟨m₁, m₂, hbefore, ⟨res, hmake, hres⟩, hafter⟩ := entry_turn hok hstack hn h
  have hext := copy_run_extends hbefore
  have hplace₁ : locate_entry m₁.tick.tick.fs dst = .ok place := locate_entry_keeps hext.keeps hplace
  have hfree₁ : m₁.tick.tick.fs.LinkFree place := hfree.grow hext
  apply (copy_run_extends hafter).keeps.ne_none
  rw [List.append_assoc] at hmake
  rcases hres with rfl | rfl
  · -- it has been made
    rcases make_cases os .dir (dst ++ (p ++ [n])) m₁.tick.tick with ⟨e, hm⟩ | ⟨loc, hl, -, hslot, hm⟩
    · rw [create_dir, hm] at hmake
      cases hmake
    · rw [create_dir, hm] at hmake
      cases hmake
      rw [← locate_entry_below hplace₁ hfree₁ hl]
      show (m₁.tick.tick.fs.set loc .dir).node loc ≠ none
      rw [Fs.node_set hslot, if_pos rfl]
      exact Option.some_ne_none _
  · -- or something was in its place
    obtain ⟨rfl, loc, y, hl, hy⟩ := make_exists hmake
    rw [← locate_entry_below hplace₁ hfree₁ hl]
    show m₁.tick.tick.fs.node loc ≠ none
    rw [hy]
    exact Option.some_ne_none y

end Turn

/-! ## The descent -/

/-- How far the loop has descended through `src/e/e/…`: from every directory there that
has left the stack, one step further; and what was pushed has its counterpart. -/
structure Deeper (src e : Path) (ps : List (List Name)) (seen : Finset (List Name)) (fs : Fs) :
    Prop where
  root : [] ∈ seen
  goes : ∀ i, endless e i ∈ seen → endless e i ∉ ps → endless e (i + 1) ∈ seen
  made : ∀ r n, r ++ [n] ∈ seen → fs.node (src ++ e ++ (r ++ [n])) ≠ none

section Descent

variable {os : Os} {src dst e : Path} {m₀ m m' : Machine} {p : List Name} {ps : List (List Name)}
  {seen : Finset (List Name)} {entries : List (Name × FileType)} {stack' : Stack}

/-- A list that is repeated never fits into a finite set of lists. -/
theorem endless_not_all (hne : e ≠ []) (hall : ∀ i, endless e i ∈ seen) : False := by
  have hinj : Set.InjOn (endless e) (Finset.range (seen.card + 1)) := by
    intro i _ j _ hij
    have hlen := congrArg List.length hij
    rw [length_endless hne, length_endless hne] at hlen
    exact hlen
  have hsub : (Finset.range (seen.card + 1)).image (endless e) ⊆ seen := by
    intro q hq
    obtain ⟨i, -, rfl⟩ := Finset.mem_image.mp hq
    exact hall i
  have hcard := Finset.card_le_card hsub
  rw [Finset.card_image_of_injOn hinj, Finset.card_range] at hcard
  omega

/-- **The next directory of the descent is there**, or a file in its place, when the one
above it is read. -/
theorem next_stands (hne : e ≠ []) (hplace : m.fs.node (src ++ e) = some .dir)
    (hseen : Seen ps seen) (hd : Deeper src e ps seen m.fs) {i : ℕ} (hi : endless e i ∈ seen) :
    m.fs.node (src ++ endless e (i + 1)) ≠ none := by
  by_cases hround : i + 1 ≤ e.length
  · -- in the first round it is the destination, or above it
    have hpre : src ++ endless e (i + 1) <+: src ++ e := by
      have hgrow := endless_grows hne hround
      rw [endless_self hne] at hgrow
      exact (List.prefix_append_right_inj src).mpr hgrow
    intro hnone
    rw [none_below hnone hpre] at hplace
    cases hplace
  · -- afterwards it is the counterpart of a directory that was pushed before
    obtain ⟨j, hj⟩ : ∃ j, i + 1 = (j + 1) + e.length := ⟨i - e.length, by omega⟩
    obtain ⟨x, hx⟩ := endless_succ hne j
    have hpos : 0 < e.length := List.length_pos_iff.mpr hne
    have hbefore : endless e (j + 1) ∈ seen := hseen.above hi (endless_grows hne (by omega))
    rw [hj, endless_add hne, ← List.append_assoc, hx]
    rw [hx] at hbefore
    exact hd.made _ _ hbefore

/-- A file of the source cannot be copied to below itself. -/
theorem file_not_below {q : List Name} (hfile : ∃ c, m.fs.node (src ++ q) = some (.file c))
    (hne : e ≠ []) (hpre : q <+: e ++ q) : m.fs.node (src ++ e ++ q) = none := by
  by_contra hsome
  obtain ⟨c, hc⟩ := hfile
  have hbelow : src ++ q <+: src ++ e ++ q := by
    rw [List.append_assoc]
    exact (List.prefix_append_right_inj src).mpr hpre
  have hdir := m.fs.dir_above hsome hbelow (fun heq => by
    have hlen := congrArg List.length heq
    have hpos := List.length_pos_iff.mpr hne
    simp only [List.length_append] at hlen
    omega)
  rw [hc] at hdir
  cases hdir

/-- **One round takes the descent one step further.** -/
theorem deeper_step (hne : e ≠ []) (hentry : locate_entry m₀.fs dst = .ok (src ++ e))
    (hfree : m₀.fs.LinkFree (src ++ e)) (hplace : m₀.fs.node (src ++ e) = some .dir)
    (hv : Visit src dst m₀ m (p :: ps) seen) (hd : Deeper src e (p :: ps) seen m.fs)
    (hread : read_dir os (src ++ p) m = (.ok entries, m.tick))
    (hentries : copy_entries os (src ++ p) (dst ++ p) entries (pairs src dst ps) m.tick
      = (.ok stack', m')) :
    Deeper src e (pushed p entries ++ ps) (seen ∪ (pushed p entries).toFinset) m'.fs := by
  have hext₀ := copy_run_extends hv.run
  have hentry' : locate_entry m.tick.fs dst = .ok (src ++ e) := locate_entry_keeps hext₀.keeps hentry
  have hfree' : m.tick.fs.LinkFree (src ++ e) := hfree.grow hext₀
  obtain ⟨-, hok, -, hlists⟩ := hv.reads hread
  have hkeeps := (copy_run_extends (hv.step hread hentries).1).keeps
  refine ⟨Finset.mem_union_left _ hd.root, fun i hi hout => ?_, fun r n hrn => ?_⟩
  · rw [List.mem_append, not_or] at hout
    have hseen : endless e i ∈ seen :=
      (Finset.mem_union.mp hi).resolve_right fun h => hout.1 (List.mem_toFinset.mp h)
    by_cases hp : endless e i = p
    · -- the directory that has just been read
      obtain ⟨x, hx⟩ := endless_succ hne i
      have hnext := next_stands hne (hext₀.keeps.dir hplace) hv.pushes hd hseen
      obtain ⟨y, hy⟩ := Option.ne_none_iff_exists'.mp hnext
      have hlisted : (x, y.file_type) ∈ entries := by
        apply hlists
        rw [List.append_assoc, ← hp, ← hx]
        exact hy
      rw [hx, hp]
      cases y with
      | dir =>
        apply Finset.mem_union_right
        rw [List.mem_toFinset]
        exact mem_pushed.mpr ⟨x, hlisted, rfl⟩
      | file c =>
        -- its copy would stand below it
        exfalso
        obtain ⟨c', hcopied⟩ := @copied_file os src dst m.tick m' p x (src ++ e) entries _ stack'
          hentry' hfree' hok hv.stack hlisted hentries
        have hfile : ∃ c, m'.fs.node (src ++ (p ++ [x])) = some (.file c) := by
          rw [← hp, ← hx]
          exact hkeeps.file hy
        have hpre : p ++ [x] <+: e ++ (p ++ [x]) := by
          rw [← hp, ← hx, ← endless_add hne]
          exact endless_grows hne (Nat.le_add_right _ _)
        rw [file_not_below hfile hne hpre] at hcopied
        cases hcopied
      | symlink t =>
        -- a link stands neither above the destination nor in it
        exfalso
        by_cases hround : i + 1 < e.length
        · have hpre : src ++ endless e (i + 1) <+: src ++ e := by
            have hgrow := endless_grows hne (Nat.le_of_lt hround)
            rw [endless_self hne] at hgrow
            exact (List.prefix_append_right_inj src).mpr hgrow
          have hdir := m.fs.dir_above (by rw [hext₀.keeps.dir hplace]; simp) hpre (fun heq => by
            have hlen := congrArg List.length (List.append_cancel_left heq)
            rw [length_endless hne] at hlen
            omega)
          rw [hy] at hdir
          cases hdir
        · obtain ⟨j, hj⟩ : ∃ j, i + 1 = j + e.length := ⟨i + 1 - e.length, by omega⟩
          rw [hj, endless_add hne, ← List.append_assoc] at hy
          exact hfree' _ t hy
    · -- one that had left the stack before
      apply Finset.mem_union_left
      apply hd.goes i hseen
      intro hmem
      rcases List.mem_cons.mp hmem with heq | hmem
      · exact hp heq
      · exact hout.2 hmem
  · rcases Finset.mem_union.mp hrn with hrn | hrn
    · exact hkeeps.ne_none (hd.made r n hrn)
    · obtain ⟨n', hn', heq⟩ := mem_pushed.mp (List.mem_toFinset.mp hrn)
      rw [heq]
      exact listed_dir_made hentry' hfree' hok hv.stack hn' hentries

/-- **The loop does not succeed.** -/
theorem loop_inside (hne : e ≠ []) (hentry : locate_entry m₀.fs dst = .ok (src ++ e))
    (hfree : m₀.fs.LinkFree (src ++ e)) (hplace : m₀.fs.node (src ++ e) = some .dir) {fuel : ℕ}
    (hv : Visit src dst m₀ m ps seen) (hd : Deeper src e ps seen m.fs) :
    (copy_loop os fuel (pairs src dst ps) m).1 ≠ some (.ok ()) := by
  -- an empty stack would mean that the whole descent has been pushed
  have hempty : ps ≠ [] := by
    rintro rfl
    have hall : ∀ i, endless e i ∈ seen := by
      intro i
      induction i with
      | zero => exact hd.root
      | succ i ih => exact hd.goes i ih List.not_mem_nil
    exact endless_not_all hne hall
  obtain ⟨p, ps', rfl⟩ := List.exists_cons_of_ne_nil hempty
  clear hempty
  induction fuel generalizing m p ps' seen with
  | zero => simp [pairs, copy_loop]
  | succ fuel ih =>
    show (copy_loop os (fuel + 1) ((src ++ p, dst ++ p) :: pairs src dst ps') m).1 ≠ some (.ok ())
    unfold copy_loop
    rcases hread : read_dir os (src ++ p) m with ⟨err | entries, m₁⟩
    · simp
    obtain ⟨rfl, -⟩ := hv.reads hread
    dsimp only
    rcases hentries : copy_entries os (src ++ p) (dst ++ p) entries (pairs src dst ps') m.tick
      with ⟨status | stack', m'⟩
    · simp
    dsimp only
    rw [copy_entries_stack hentries]
    have hv' := (hv.step hread hentries).2
    have hd' := deeper_step hne hentry hfree hplace hv hd hread hentries
    cases hnext : pushed p entries ++ ps' with
    | nil =>
      rw [hnext] at hd'
      exfalso
      have hall : ∀ i, endless e i ∈ seen ∪ (pushed p entries).toFinset := by
        intro i
        induction i with
        | zero => exact hd'.root
        | succ i ih' => exact hd'.goes i ih' List.not_mem_nil
      exact endless_not_all hne hall
    | cons q qs =>
      rw [hnext] at hv' hd'
      exact ih q qs hv' hd'

end Descent

/-! ## The copy, and the request -/

section Copy

variable {os : Os} {fuel : ℕ} {src dest e : Path} {existed : Bool} {m : Machine}

/-- Nothing has been descended to before the loop. -/
theorem deeper_start (fs : Fs) : Deeper src e [[]] {[]} fs where
  root := Finset.mem_singleton_self _
  goes := by
    intro i hi hout
    exact absurd (List.mem_singleton.mpr (Finset.mem_singleton.mp hi)) hout
  made := by
    intro r n hrn
    simp at hrn

theorem loop_from_start (hne : e ≠ []) (hsrc : m.fs.node src = some .dir)
    (hentry : locate_entry m.fs dest = .ok (src ++ e)) (hfree : m.fs.LinkFree (src ++ e))
    (hplace : m.fs.node (src ++ e) = some .dir) :
    (copy_loop os fuel [(src, dest)] m).1 ≠ some (.ok ()) := by
  have hvisit : Visit src dest m m [[]] {[]} := by
    refine ⟨seen_start, Relation.ReflTransGen.refl, fun p hp => ?_⟩
    rw [Finset.mem_singleton.mp hp, List.append_nil]
    exact hsrc
  have hloop := @loop_inside os src dest e m m [[]] {[]} hne hentry hfree hplace fuel hvisit
    (deeper_start m.fs)
  have hpairs : pairs src dest [[]] = [(src, dest)] := by simp [pairs]
  rw [hpairs] at hloop
  exact hloop

/-- Whether the destination is there or made first, the copy into it does not succeed. -/
theorem copy_dir_inside (hne : e ≠ []) (hsrc : m.fs.node src = some .dir)
    (hentry : ∀ loc, locate_entry m.fs dest = .ok loc → loc = src ++ e)
    (hfree : m.fs.LinkFree (src ++ e))
    (hexisted : existed = true →
      locate_entry m.fs dest = .ok (src ++ e) ∧ m.fs.node (src ++ e) = some .dir) :
    (copy_dir os fuel src dest existed m).1 ≠ some (.ok ()) := by
  unfold copy_dir
  cases existed with
  | true =>
    rw [if_pos rfl]
    obtain ⟨hl, hdir⟩ := hexisted rfl
    exact loop_from_start hne hsrc hl hfree hdir
  | false =>
    rw [if_neg Bool.false_ne_true]
    rcases make_cases os .dir dest m with ⟨err, hmake⟩ | ⟨loc, hl, hnone, hslot, hmake⟩
    · rw [create_dir, hmake]
      simp
    · rw [create_dir, hmake]
      dsimp only
      -- it is made where the loop is to descend
      obtain rfl := hentry loc hl
      have hext : m.fs.Extends (m.fs.set (src ++ e) .dir) := Fs.extends_set_dir hslot hnone
      apply loop_from_start hne
      · exact hext.keeps.dir hsrc
      · exact locate_entry_keeps hext.keeps hl
      · exact hfree.grow hext
      · show (m.fs.set (src ++ e) .dir).node (src ++ e) = some .dir
        rw [Fs.node_set hslot, if_pos rfl]

end Copy

section Request

variable {os : Os} {cwd : Path} {fuel : ℕ} {req : Request} {is_move : Bool} {w : World}
  {src dest e : Path} {existed : Bool} {m₁ : Machine}

/-- The tree that such a copy finds is link-free at the destination, and a destination
that is taken to exist is a directory. -/
theorem inside_finds (hc : Copying cwd req is_move w src dest)
    (hplace : locate_entry w.machine.fs dest = .ok (src ++ e))
    (hfree : w.machine.fs.LinkFree (src ++ e))
    (hclear : clear_dest os (parse_overwrite req.headers) (metadata w.machine.fs dest).isOk .dir
      dest w.machine = (existed, m₁)) :
    (∀ loc, locate_entry m₁.fs dest = .ok loc → loc = src ++ e) ∧ m₁.fs.LinkFree (src ++ e) ∧
      (existed = true →
        locate_entry m₁.fs dest = .ok (src ++ e) ∧ m₁.fs.node (src ++ e) = some .dir) := by
  have hreach := hc.1.choose_spec
  have houtcome := clear_dest_cases os (parse_overwrite req.headers)
    (metadata w.machine.fs dest).isOk .dir dest w.machine
  rw [hclear] at houtcome
  have hkeeps := clear_keeps houtcome
  refine ⟨fun loc hl => (locate_entry_unique hkeeps hl hplace).symm, ?_, ?_⟩
  · -- what is left of the tree was there
    intro r t hlink
    obtain ⟨y, hy, hkind⟩ := hkeeps _ _ hlink
    cases y with
    | symlink u => exact hfree r u hy
    | dir => cases hkind
    | file c => cases hkind
  · cases houtcome with
    | kept hnot =>
      intro hex
      refine ⟨hplace, ?_⟩
      have hthere := (metadata_entry_isOk hplace hfree).mp hex
      obtain ⟨x, hx⟩ := Option.ne_none_iff_exists'.mp hthere
      cases x with
      | dir => exact hx
      | file c =>
        have hclears := (clears_entry hplace hfree).mpr (Or.inr ⟨rfl, c, hx⟩)
        exact absurd ⟨clears_may hreach.overwrite hclears, hclears⟩ hnot
      | symlink t => exact absurd (by simpa using hx) (hfree [] t)
    | removed _ _ _ _ _ _ _ _ =>
      intro hex
      cases hex
    | failed _ _ _ _ _ _ _ =>
      intro hex
      cases hex

/-- The phases of such a request, up to the copy, which does not succeed. -/
theorem inside_phases {res : Option (Except StatusCode Unit)} {m₂ : Machine}
    (hc : Copying cwd req is_move w src dest) (hne : e ≠ [])
    (hplace : locate_entry w.machine.fs dest = .ok (src ++ e))
    (hfree : w.machine.fs.LinkFree (src ++ e))
    (hclear : clear_dest os (parse_overwrite req.headers) (metadata w.machine.fs dest).isOk .dir
      dest w.machine = (existed, m₁))
    (hcopy : copy_source os fuel is_move (parse_depth req.headers) .dir src dest existed m₁
      = (res, m₂)) :
    res ≠ some (.ok ()) ∧ (cleared w.machine.fs .dir dest).Keeps m₂.fs := by
  unfold copy_source at hcopy
  rw [if_pos rfl, if_neg hc.2] at hcopy
  obtain ⟨hloc, hfree₁, hexisted⟩ := inside_finds hc hplace hfree hclear
  have houtcome := clear_dest_cases os (parse_overwrite req.headers)
    (metadata w.machine.fs dest).isOk .dir dest w.machine
  rw [hclear] at houtcome
  have hsrc₁ := clear_keeps_dir houtcome (copying_source hc)
  constructor
  · have hinside := @copy_dir_inside os fuel src dest e existed m₁ hne hsrc₁ hloc hfree₁ hexisted
    rw [hcopy] at hinside
    exact hinside
  · refine Fs.Keeps.trans ?_ (copy_run_extends (copy_dir_run hsrc₁ hcopy)).keeps
    rcases tree_of_clear houtcome (clears_may hc.1.choose_spec.overwrite) with
      hfs | ⟨-, -, -, -, hsame⟩
    · rw [hfs]
      exact (Fs.Extends.refl _).keeps
    · rw [hsame rfl]
      exact cleared_keeps _ _ _

/-- **A directory is not copied or moved into itself**: such a request is answered with
an error, if at all; and nothing has been removed but a file at the destination, nor any
dead property moved. -/
theorem into_itself_fails (hc : Copying cwd req is_move w src dest) (hne : e ≠ [])
    (hplace : locate_entry w.machine.fs dest = .ok (src ++ e))
    (hfree : w.machine.fs.LinkFree (src ++ e)) :
    (∀ status, (do_move_or_copy os cwd fuel req is_move w).1 ≠ some (.ok status)) ∧
      (cleared w.machine.fs .dir dest).Keeps
        (do_move_or_copy os cwd fuel req is_move w).2.machine.fs ∧
      (do_move_or_copy os cwd fuel req is_move w).2.app.dead_props = w.app.dead_props := by
  obtain ⟨⟨text, hreach⟩, -⟩ := id hc
  rw [guard_misses hreach.destination hreach.source hreach.guarded hreach.not_spelled]
  rcases transfer_cases os fuel req is_move src dest (w.resolve_and_guard cwd text).2 with
    ⟨-, ⟨hex, hno⟩ | ⟨err, herr⟩⟩ |
    ⟨src_type, hmeta, -, existed, m₁, res, m₂, hclear, hcopy, -, hmachine, -, hprops⟩
  · -- it was not refused
    rw [hreach.overwrite hex] at hno
    cases hno
  · rw [guard_machine, hreach.type] at herr
    cases herr
  · rw [guard_machine, hreach.type] at hmeta
    cases hmeta
    rw [guard_machine] at hclear
    obtain ⟨hres, hkept⟩ := inside_phases hc hne hplace hfree hclear hcopy
    refine ⟨fun status hok => ?_, ?_, ?_⟩
    · -- a transfer that succeeds has had a copy that did
      obtain ⟨src_type, existed', m₁', m₂', hmeta', -, hclear', hcopy', -⟩ := transfer_ok hok
      rw [guard_machine, hreach.type] at hmeta'
      cases hmeta'
      rw [guard_machine] at hclear'
      exact (inside_phases hc hne hplace hfree hclear' hcopy').1 rfl
    · rw [hmachine, if_neg (fun h => hres h.1)]
      exact hkept
    · rw [hprops, if_neg hres]
      exact (World.guard_same cwd w text).dead_props

/-- The empty directory `/d` is not moved to `/d/x`. -/
theorem into_itself_fails_d :
    (∀ status, (do_move_or_copy Os.calm [] 9 copy_in false Answered.served_d).1
        ≠ some (.ok status)) ∧
      (cleared Answered.served_d.machine.fs .dir [d_name, x_name]).Keeps
        (do_move_or_copy Os.calm [] 9 copy_in false Answered.served_d).2.machine.fs ∧
      (do_move_or_copy Os.calm [] 9 copy_in false Answered.served_d).2.app.dead_props =
        Answered.served_d.app.dead_props :=
  into_itself_fails (e := [x_name]) copying_d (by simp) (by decide)
    (link_free_of_known (by decide) _)

end Request

end Rshs.IntoItself
