/-
Where the nodes of the served file system come from.

A server writes nothing of its own: every file holds a beginning of a file that was there
when it started or of a body that was put, and every link is one that was there
(`nodes_traced`). That holds in any run, whatever the tree, its links, the URLs and the
failures are, so it needs no hypothesis on the root.

The invariant is over all nodes of the file system (`Holds`). One lemma for each system
call says what the call asks of the predicate (`Closed`); the handlers only compose calls.
-/
import Rshs.StoreLaws

set_option autoImplicit false

namespace Rshs.Origins

open StdPath Posix Rshs.Webdav Rshs.Resolve Rshs.App Rshs.Http Rshs.CopyMove Rshs.Server
open Rshs.Lifetime (Call Site Event Step served found enforced)
open Rshs.StoreRuns (reply_eq)
open Rshs.CachedParents (request_for after step_after)
open Rshs.StoreLaws (home)

/-! ## The invariant -/

/-- A predicate of nodes that the server's own nodes have, and a file with what is in front
of a cut. -/
structure Closed (Q : Node → Prop) : Prop where
  dir : Q .dir
  empty : Q (.file [])
  part : ∀ {b c : List UInt8}, b <+: c → Q (.file c) → Q (.file b)

/-- Every node of the tree has it. -/
def Holds (Q : Node → Prop) (fs : Fs) : Prop := ∀ p x, fs.node p = some x → Q x

section Calls

variable {Q : Node → Prop} {fs : Fs} {os : Os} {m : Machine}

/-- A node that has the property may be put anywhere, -/
theorem Holds.set (h : Holds Q fs) {loc : Path} {x : Node} (hx : Q x) : Holds Q (fs.set loc x) := by
  intro p y hy
  by_cases hslot : fs.Slot loc
  · rw [Fs.node_set hslot] at hy
    split at hy
    · cases hy
      exact hx
    · exact h p y hy
  · rw [Fs.set, dif_neg hslot] at hy
    exact h p y hy

/-- any nodes may be taken away, -/
theorem Holds.without (h : Holds Q fs) (gone : Path → Bool) : Holds Q (fs.without gone) := by
  intro p x hx
  rw [Fs.node_without] at hx
  split at hx
  · cases hx
  · exact h p x hx

/-- and a part of the tree may be moved to another place. -/
theorem Holds.graft (h : Holds Q fs) {src dst : Path} (hm : fs.Movable src dst) :
    Holds Q (fs.graft src dst hm) := by
  intro p x hx
  unfold Fs.graft at hx
  dsimp only at hx
  split at hx
  · exact h _ x hx
  · split at hx
    · cases hx
    · exact h p x hx

/-- A file is opened empty. -/
theorem create_holds (hQ : Closed Q) (h : Holds Q m.fs) (p : Path) :
    Holds Q (create os p m).2.fs := by
  rcases create_cases os p m with ⟨e, hc⟩ | ⟨loc, -, -, hc⟩
  · rw [hc]
    exact h
  · rw [hc]
    exact h.set hQ.empty

/-- What is written is a beginning of what was to be. -/
theorem write_holds (hQ : Closed Q) (h : Holds Q m.fs) (loc : Path) {bytes : List UInt8}
    (hbytes : Q (.file bytes)) : Holds Q (write os loc bytes m).2.fs := by
  rcases write_cases os loc bytes m with ⟨k, hw⟩ | hw
  · rw [hw]
    exact h.set (hQ.part (List.take_prefix k bytes) hbytes)
  · rw [hw]
    exact h.set hbytes

/-- What a file is read as, also one that is not there. -/
theorem Holds.content (hQ : Closed Q) (h : Holds Q fs) (loc : Path) : Q (.file (fs.content loc)) := by
  unfold Fs.content
  split
  · rename_i c hc
    exact h loc _ hc
  · exact hQ.empty

/-- A copy takes the content of the source, or what is in front of it. -/
theorem copy_holds (hQ : Closed Q) (h : Holds Q m.fs) (src dst : Path) :
    Holds Q (copy os src dst m).2.fs := by
  rcases copy_cases os src dst m with ⟨e, m', hc, hfs, -⟩ |
    ⟨s, c, loc, -, -, -, -, r, m', bytes, hc, hfs, -, hpart, -⟩
  · rw [hc, hfs]
    exact h
  · rw [hc, hfs]
    have hmade : Holds Q (m.fs.set loc (.file [])) := h.set hQ.empty
    exact hmade.set (hQ.part hpart (hmade.content hQ s))

/-- A directory or a file is made. -/
theorem make_holds {x : Node} (hx : Q x) (h : Holds Q m.fs) (p : Path) :
    Holds Q (make os x p m).2.fs := by
  rcases make_cases os x p m with ⟨e, hm⟩ | ⟨loc, -, -, -, hm⟩
  · rw [hm]
    exact h
  · rw [hm]
    exact h.set hx

/-- A file is removed, -/
theorem remove_file_holds (h : Holds Q m.fs) (p : Path) : Holds Q (remove_file os p m).2.fs := by
  rcases remove_file_cases os p m with ⟨e, hm⟩ | ⟨loc, -, -, -, hm⟩
  · rw [hm]
    exact h
  · rw [hm]
    exact h.without _

/-- or a directory with a part of what is in it. -/
theorem remove_dir_all_holds (h : Holds Q m.fs) (p : Path) :
    Holds Q (remove_dir_all os p m).2.fs := by
  rcases remove_dir_all_cases os p m with
    ⟨e, hm⟩ | ⟨loc, -, ⟨chosen, -, hm⟩ | ⟨-, -, hm⟩⟩
  · rw [hm]
    exact h
  · rw [hm]
    exact h.without _
  · rw [hm]
    exact h.without _

/-- What is renamed stays what it is. -/
theorem rename_holds (h : Holds Q m.fs) (from_path to_path : Path) :
    Holds Q (rename os from_path to_path m).2.fs := by
  rcases rename_cases os from_path to_path m with ⟨r, hm⟩ | ⟨src, dst, -, -, hmov, -, -, hm⟩
  · rw [hm]
    exact h
  · rw [hm]
    show Holds Q (if hm : m.fs.Movable src dst then m.fs.graft src dst hm else m.fs)
    rw [dif_pos hmov]
    exact h.graft hmov

/-- A read of a directory changes nothing, -/
theorem next_entry_holds (h : Holds Q m.fs) : Holds Q (next_entry os m).2.fs := by
  obtain ⟨r, hm⟩ := next_entry_cases os m
  rw [hm]
  exact h

/-- nor does opening one, -/
theorem read_dir_holds (h : Holds Q m.fs) (p : Path) : Holds Q (read_dir os p m).2.fs := by
  rcases read_dir_cases os p m with ⟨e, hm⟩ | ⟨d, entries, -, -, -, hm⟩
  · rw [hm]
    exact h
  · rw [hm]
    exact h

/-- nor opening a file. -/
theorem open_file_holds (h : Holds Q m.fs) (p : Path) : Holds Q (open_file os p m).2.fs := by
  rcases open_file_cases os p m with ⟨e, hm⟩ | ⟨loc, c, -, -, hm⟩
  · rw [hm]
    exact h
  · rw [hm]
    exact h

/-- The machine that a call has left. -/
theorem Holds.left {α : Type} {a : α × Machine} {r : α} {m' : Machine} (heq : a = (r, m'))
    (h : Holds Q a.2.fs) : Holds Q m'.fs := by
  rw [heq] at h
  exact h

end Calls

/-! ## The handlers -/

section Handlers

variable {Q : Node → Prop} {os : Os} {m : Machine} {cwd : Path} {req : Request} {w : World}

/-- By induction on the entries: a directory is made, or a file is copied from one that has the
property. -/
theorem copy_entries_holds (hQ : Closed Q) (src_dir dest_dir : Path)
    (entries : List (Name × FileType)) (stack : Stack) (h : Holds Q m.fs) :
    Holds Q (copy_entries os src_dir dest_dir entries stack m).2.fs := by
  induction entries generalizing stack m with
  | nil =>
    unfold copy_entries
    split
    all_goals
      rename_i hnext
      exact (next_entry_holds h).left hnext
  | cons entry entries ih =>
    obtain ⟨name, file_type⟩ := entry
    unfold copy_entries
    split
    · rename_i hnext
      exact (next_entry_holds h).left hnext
    · rename_i m₁ hnext
      have h₁ : Holds Q m₁.fs := (next_entry_holds h).left hnext
      split
      · rename_i htype
        exact (next_entry_holds h₁).left htype
      · rename_i m₂ htype
        have h₂ : Holds Q m₂.fs := (next_entry_holds h₁).left htype
        dsimp only
        -- a directory has no content, a link is passed over, a file takes that of its source
        cases file_type with
        | dir =>
          dsimp only
          split
          · rename_i hmake
            have h₃ := (make_holds hQ.dir h₂ _).left hmake
            split
            · exact h₃
            · exact ih _ h₃
          · rename_i hmake
            exact ih _ ((make_holds hQ.dir h₂ _).left hmake)
        | symlink => exact ih _ h₂
        | file =>
          dsimp only
          split
          · rename_i hcopy
            exact (copy_holds hQ h₂ _ _).left hcopy
          · rename_i hcopy
            exact ih _ ((copy_holds hQ h₂ _ _).left hcopy)

/-- By induction on the rounds. -/
theorem copy_loop_holds (hQ : Closed Q) (fuel : ℕ) (stack : Stack) (h : Holds Q m.fs) :
    Holds Q (copy_loop os fuel stack m).2.fs := by
  induction fuel generalizing stack m with
  | zero =>
    cases stack with
    | nil => exact h
    | cons pair stack => exact h
  | succ fuel ih =>
    cases stack with
    | nil => exact h
    | cons pair stack =>
      obtain ⟨src_dir, dest_dir⟩ := pair
      unfold copy_loop
      split
      · rename_i hread
        exact (read_dir_holds h _).left hread
      · rename_i entries m₁ hread
        have h₁ : Holds Q m₁.fs := (read_dir_holds h _).left hread
        split
        · rename_i hentries
          exact (copy_entries_holds hQ _ _ _ _ h₁).left hentries
        · rename_i hentries
          exact ih _ ((copy_entries_holds hQ _ _ _ _ h₁).left hentries)

/-- A file is copied, or a directory with all that the loop reaches. -/
theorem copy_source_holds (hQ : Closed Q) {fuel : ℕ} {is_move : Bool} {depth : Depth}
    {src_type : FileType} {src dest : Path} {dest_existed : Bool} (h : Holds Q m.fs) :
    Holds Q (copy_source os fuel is_move depth src_type src dest dest_existed m).2.fs := by
  unfold copy_source copy_dir copy_file
  split
  · split
    · split
      · exact h
      · split
        all_goals
          rename_i hmake
          exact (make_holds hQ.dir h _).left hmake
    · split
      · exact copy_loop_holds hQ _ _ h
      · split
        · rename_i hmake
          exact (make_holds hQ.dir h _).left hmake
        · rename_i hmake
          exact copy_loop_holds hQ _ _ ((make_holds hQ.dir h _).left hmake)
  · split
    rename_i hfile
    split at hfile
    all_goals
      rename_i hcopy
      cases hfile
      exact (copy_holds hQ h _ _).left hcopy

/-- The clearing takes away. -/
theorem clear_dest_holds {overwrite dest_existed : Bool} {src_type : FileType} {dest : Path}
    (h : Holds Q m.fs) : Holds Q (clear_dest os overwrite dest_existed src_type dest m).2.fs := by
  unfold clear_dest
  split
  · split
    · exact h
    · split
      · exact remove_dir_all_holds h dest
      · split
        · exact remove_file_holds h dest
        · exact h
  · exact h

/-- The source is renamed, or taken away. -/
theorem move_source_holds {src_type : FileType} {src dest : Path} (h : Holds Q m.fs) :
    Holds Q (move_source os src_type src dest m).fs := by
  unfold move_source
  split
  · rename_i hrename
    exact (rename_holds h _ _).left hrename
  · rename_i hrename
    have h₁ := (rename_holds h _ _).left hrename
    split
    · exact remove_dir_all_holds h₁ _
    · exact remove_file_holds h₁ _

/-- The three phases, one after the other. -/
theorem transfer_holds (hQ : Closed Q) {fuel : ℕ} {is_move : Bool} {src dest : Path}
    (h : Holds Q w.machine.fs) :
    Holds Q (transfer os fuel req is_move src dest w).2.machine.fs := by
  unfold transfer
  dsimp only
  split
  · exact h
  · split
    · exact h
    · rename_i src_type _
      rcases hclear : clear_dest os (parse_overwrite req.headers)
        (metadata w.machine.fs dest).isOk src_type dest w.machine with ⟨dest_existed, m₁⟩
      have h₁ : Holds Q m₁.fs := (clear_dest_holds h).left hclear
      rw [aim_machine, hclear]
      dsimp only
      split
      · rename_i hcopy
        exact (copy_source_holds hQ h₁).left hcopy
      · rename_i hcopy
        exact (copy_source_holds hQ h₁).left hcopy
      · rename_i m₂ hcopy
        have h₂ : Holds Q m₂.fs := (copy_source_holds hQ h₁).left hcopy
        cases is_move with
        | true => exact move_source_holds h₂
        | false => exact h₂

/-- And the handler, which may refuse before them. -/
theorem do_move_or_copy_holds (hQ : Closed Q) {fuel : ℕ} {is_move : Bool}
    (h : Holds Q w.machine.fs) :
    Holds Q (do_move_or_copy os cwd fuel req is_move w).2.machine.fs := by
  unfold do_move_or_copy
  split
  · exact h
  · rename_i dest_str _
    split
    · exact h
    · split
      · exact h
      · split
        · exact h
        · rcases hguard : w.resolve_and_guard cwd dest_str with ⟨e | dest, w'⟩
          all_goals
            have hw : w'.machine = w.machine := by
              rw [← (w.guard_same cwd dest_str).machine, hguard]
            rw [← hw] at h
          · exact h
          · exact transfer_holds hQ h

/-- A GET reads. -/
theorem get_head_holds (h : Holds Q w.machine.fs) :
    Holds Q (handle_get_head os cwd req w).2.machine.fs := by
  unfold handle_get_head
  split
  · exact h
  · split
    · exact h
    · split
      · exact h
      · split
        all_goals
          rename_i hopen
          exact (open_file_holds h _).left hopen

/-- A PUT leaves a beginning of its body. -/
theorem put_holds (hQ : Closed Q) (hbody : Q (.file req.body)) (h : Holds Q w.machine.fs) :
    Holds Q (handle_put os cwd req w).2.machine.fs := by
  unfold handle_put
  rcases hguard : w.resolve_and_guard cwd req.uri_path with ⟨e | target, w'⟩
  all_goals
    have hw : w'.machine = w.machine := by
      rw [← (w.guard_same cwd req.uri_path).machine, hguard]
    rw [← hw] at h
  · exact h
  · dsimp only
    split
    · rename_i hcreate
      exact (create_holds hQ h _).left hcreate
    · rename_i file m₁ hcreate
      have h₁ : Holds Q m₁.fs := (create_holds hQ h _).left hcreate
      split
      all_goals
        rename_i hwrite
        exact (write_holds hQ h₁ _ hbody).left hwrite

/-- A DELETE takes away. -/
theorem delete_holds (h : Holds Q w.machine.fs) :
    Holds Q (handle_delete os cwd req w).2.machine.fs := by
  unfold handle_delete
  split
  · exact h
  · split
    · exact h
    · split
      · split
        · exact h
        · dsimp only
          split
          all_goals
            rename_i hremove
            exact (remove_dir_all_holds h _).left hremove
      · dsimp only
        split
        all_goals
          rename_i hremove
          exact (remove_file_holds h _).left hremove

/-- A MKCOL makes a directory. -/
theorem mkcol_holds (hQ : Closed Q) (h : Holds Q w.machine.fs) :
    Holds Q (handle_mkcol os cwd req w).2.machine.fs := by
  unfold handle_mkcol
  split
  · exact h
  · dsimp only
    rcases hguard : w.resolve_and_guard cwd (trim_end_matches '/' req.uri_path) with
      ⟨e | target, w'⟩
    all_goals
      have hw : w'.machine = w.machine := by
        rw [← (w.guard_same cwd (trim_end_matches '/' req.uri_path)).machine, hguard]
      rw [← hw] at h
    · exact h
    · dsimp only
      split
      · exact h
      · split
        all_goals
          rename_i hmake
          exact (make_holds hQ.dir h _).left hmake

/-- A LOCK may make an empty file. -/
theorem lock_holds (hQ : Closed Q) {clock : Clock} {default_hasher : ℕ → UInt64}
    (h : Holds Q w.machine.fs) :
    Holds Q (handle_lock os cwd clock default_hasher req w).2.machine.fs := by
  unfold handle_lock
  dsimp only
  rcases hguard : w.resolve_and_guard cwd (trim_end_matches '/' req.uri_path) with ⟨e | target, w'⟩
  all_goals
    have hw : w'.machine = w.machine := by
      rw [← (w.guard_same cwd (trim_end_matches '/' req.uri_path)).machine, hguard]
    rw [← hw] at h
  · exact h
  · dsimp only
    split
    · exact h
    · split
      · exact h
      · have h₁ : Holds Q (make os (.file []) target w'.machine).2.fs := make_holds hQ.empty h target
        split
        · exact h₁
        · exact h₁

end Handlers

/-! ## Runs -/

section Runs

variable {Q : Node → Prop} {c : Call} {s t : Site} {e : Event} {tr : List Event}

/-- Whatever the method: only the body of a PUT has to have the property. -/
theorem dispatch_holds (hQ : Closed Q) {os : Os} {cwd : Path} {clock : Clock}
    {default_hasher : ℕ → UInt64} {fuel : ℕ} {req : Request} {w : World}
    (hbody : req.method = .PUT → Q (.file req.body)) (h : Holds Q w.machine.fs) :
    Holds Q (dispatch os cwd clock default_hasher fuel req w).2.machine.fs := by
  unfold dispatch replies
  cases hm : req.method with
  | GET | HEAD => exact get_head_holds h
  | PUT => exact put_holds hQ (hbody hm) h
  | DELETE => exact delete_holds h
  | MKCOL => exact mkcol_holds hQ h
  | COPY | MOVE => exact do_move_or_copy_holds hQ h
  | LOCK => exact lock_holds hQ h
  | PROPFIND =>
    dsimp only
    unfold handle_propfind
    split
    · exact h
    · split
      all_goals exact h
  | PROPPATCH =>
    dsimp only
    unfold handle_proppatch
    split
    · exact h
    · split
      all_goals exact h
  | UNLOCK | OPTIONS | PATCH | REPORT => exact h

/-- The body of a PUT that the lock check lets through. -/
def put_bodies (s : Site) : Event → List (List UInt8)
  | .request c =>
    if c.req.method = .PUT ∧ (enforced c s).1.reply.isOk = true then [c.req.body] else []
  | .cleanup _ => []

/-- The bodies that are put in a run. -/
def bodies : Site → List Event → List (List UInt8)
  | _, [] => []
  | s, e :: tr => put_bodies s e ++ bodies (StoreRuns.next s e) tr

/-- A node that was there, a part of a file that was there, or a part of a body. -/
def Traced (fs : Fs) (bs : List (List UInt8)) : Node → Prop
  | .dir => True
  | .symlink target => ∃ p, fs.node p = some (.symlink target)
  | .file content => content = [] ∨ (∃ p whole, fs.node p = some (.file whole) ∧ content <+: whole) ∨
      ∃ b ∈ bs, content <+: b

/-- What can be traced back is such a property: the beginning of a beginning is one. -/
theorem traced_closed (fs : Fs) (bs : List (List UInt8)) : Closed (Traced fs bs) where
  dir := trivial
  empty := Or.inl rfl
  part := by
    intro b c hpre hc
    rcases hc with rfl | ⟨p, whole, hp, hwhole⟩ | ⟨body, hbody, hwhole⟩
    · exact Or.inl (List.prefix_nil.mp hpre)
    · exact Or.inr (Or.inl ⟨p, whole, hp, hpre.trans hwhole⟩)
    · exact Or.inr (Or.inr ⟨body, hbody, hpre.trans hwhole⟩)

/-- A step of the server, in which only a PUT that is let through brings something. -/
theorem step_holds (hQ : Closed Q) (hbody : ∀ b ∈ put_bodies s e, Q (.file b))
    (hstep : Step s e t) (h : Holds Q s.fs) : Holds Q t.fs := by
  cases hstep with
  | cleanup now hnow => exact h
  | request c henforce hfirst hsecond =>
    rcases reply_eq c s with ⟨hok, -, hserved⟩ | ⟨-, hserved⟩
    · show Holds Q (served c s).machine.fs
      rw [hserved]
      refine dispatch_holds hQ (fun hm => hbody _ ?_) h
      unfold put_bodies
      dsimp only
      rw [if_pos ⟨hm, by rw [hok]; rfl⟩]
      exact List.mem_cons_self
    · show Holds Q (served c s).machine.fs
      rw [hserved]
      exact h

/-- By induction on the run. -/
theorem run_holds (hQ : Closed Q) (hbody : ∀ b ∈ bodies s tr, Q (.file b))
    (hrun : Lts.Run Step s tr t) (h : Holds Q s.fs) : Holds Q t.fs := by
  induction hrun with
  | nil s => exact h
  | @cons s u t e tr hstep _ ih =>
    unfold bodies at hbody
    rw [← StoreRuns.step_next hstep] at hbody
    have hu := step_holds hQ (fun b hb => hbody b (List.mem_append_left _ hb)) hstep h
    exact ih (fun b hb => hbody b (List.mem_append_right _ hb)) hu

/-- **The server makes nothing up.** In any run from any tree, whatever its links, the URLs
and the failures are: a file holds the beginning of a file that was there at the start or of
the body of a PUT that was let through, and a link is one that was there. -/
theorem nodes_traced (hrun : Lts.Run Step s tr t) :
    ∀ p x, t.fs.node p = some x → Traced s.fs (bodies s tr) x := by
  have hstart : Holds (Traced s.fs (bodies s tr)) s.fs := by
    intro p x hx
    cases x with
    | dir => trivial
    | symlink target => exact ⟨p, hx⟩
    | file content => exact Or.inr (Or.inl ⟨p, content, hx, List.prefix_rfl⟩)
  refine run_holds (traced_closed s.fs _) (fun b hb => ?_) hrun hstart
  exact Or.inr (Or.inr ⟨b, hb, List.prefix_rfl⟩)

/-- A PUT of two bytes to `/f`. -/
def put_two : Call :=
  { request_for .PUT "/f" with req := { (request_for .PUT "/f").req with body := [104, 105] } }

/-- A PUT of two bytes. -/
theorem nodes_traced_f : (after put_two home).fs.node [d_name, f_name] = some (.file [104, 105]) ∧
    Traced home.fs (bodies home [.request put_two]) (.file [104, 105]) :=
  have hnode : (after put_two home).fs.node [d_name, f_name] = some (.file [104, 105]) := by decide
  ⟨hnode, nodes_traced (Lts.Run.single (step_after rfl rfl rfl).1) _ _ hnode⟩

end Runs

end Rshs.Origins
