/-
The state a server keeps for a resource, and the lifetime of that resource.

Dead properties and locks are stored under paths, and no handler that removes a path
looks at either store; a COPY or MOVE migrates the properties of its two roots, and a
LOCK may be granted at a path that does not exist while old locks are stored there.
`Spares` is what a request must not do, stated on the state it finds; along a run
whose requests all spare the stored state, every path with a property or an unexpired
lock exists (`stored_paths_exist`).
-/
import Rshs.Losses
import Rshs.Migration
import Rshs.Removal

set_option autoImplicit false

namespace Rshs.Lifetime

open StdPath Posix FinMap Rshs.Webdav Rshs.IfHeader Rshs.Ls Rshs.Locks Rshs.Resolve Rshs.App
  Rshs.Http Rshs.CopyMove Rshs.LockMw Rshs.Server Rshs.CheckedPath Rshs.Transfer Rshs.Losses
  Rshs.CopyBegun Rshs.Migration Rshs.Removal

/-! ## Bare paths -/

/-- No property and no unexpired lock is stored for the path. -/
structure Bare (now : ℕ) (app : AppState) (k : Path) : Prop where
  props : ∀ name, recorded app.dead_props k name = none
  locks : active_slice now (app.locks.at k) = []

/-- Whatever has a property or an unexpired lock exists. -/
def Tidy (now : ℕ) (w : World) : Prop := ∀ k, ¬ Present w.machine.fs k → Bare now w.app k

theorem active_later {now later : ℕ} {infos : List LockInfo} (hle : now ≤ later)
    (h : active_slice now infos = []) : active_slice later infos = [] := by
  have hsub : List.Sublist (active_slice later infos) (active_slice now infos) :=
    Lease.live_sublist expired_perishable hle
  rw [h] at hsub
  exact List.sublist_nil.mp hsub

theorem Bare.later {now later : ℕ} {app : AppState} {k : Path} (h : Bare now app k)
    (hle : now ≤ later) : Bare later app k :=
  ⟨h.props, active_later hle h.locks⟩

/-- A handler that leaves the stores alone, and a tree of which it keeps all: what is not
present there was bare. -/
theorem tidy_of_keeps {now later : ℕ} {w w' : World} {base : Fs} (h : Tidy now w)
    (hle : now ≤ later) (hprops : w'.app.dead_props = w.app.dead_props)
    (hlocks : w'.app.locks = w.app.locks) (hk : base.Keeps w'.machine.fs)
    (hgone : ∀ k, Present w.machine.fs k → ¬ Present base k → Bare later w.app k) :
    Tidy later w' := by
  intro k hnot
  have hbare : Bare later w.app k := by
    by_cases hpresent : Present w.machine.fs k
    · exact hgone k hpresent fun hbase => hnot (hbase.keeps hk)
    · exact (h k hpresent).later hle
  refine ⟨?_, ?_⟩
  · rw [hprops]
    exact hbare.props
  · rw [hlocks]
    exact hbare.locks

/-- One that takes nothing away. -/
theorem Tidy.grow {now : ℕ} {w w' : World} (h : Tidy now w)
    (hprops : w'.app.dead_props = w.app.dead_props) (hlocks : w'.app.locks = w.app.locks)
    (hext : w.machine.fs.Extends w'.machine.fs) : Tidy now w' :=
  tidy_of_keeps h le_rfl hprops hlocks hext.keeps fun _ hp hnot => absurd hp hnot

theorem Tidy.same {now : ℕ} {w w' : World} (h : Tidy now w) (hs : w.Same w') : Tidy now w' := by
  refine h.grow hs.dead_props hs.locks ?_
  rw [hs.machine]
  exact Fs.Extends.refl _

theorem Tidy.later {now later : ℕ} {w : World} (h : Tidy now w) (hle : now ≤ later) :
    Tidy later w := fun k hk => (h k hk).later hle

/-! ## Handlers that only add to the tree -/

section Adding

variable {os : Os} {cwd : Path} {req : Request} {w : World} {now : ℕ}

theorem handle_get_head_tidy (h : Tidy now w) : Tidy now (handle_get_head os cwd req w).2 := by
  unfold handle_get_head
  split
  · exact h
  · rename_i fs_path _
    split
    · exact h
    · split
      · exact h
      · have hopen : w.machine.fs.Extends (open_file os fs_path w.machine).2.fs := by
          rcases open_file_cases os fs_path w.machine with ⟨e, ho⟩ | ⟨loc, c, -, -, ho⟩
          · rw [ho]
            exact Fs.Extends.refl _
          · rw [ho]
            exact Fs.Extends.refl _
        split
        · rename_i m ho
          rw [ho] at hopen
          exact h.grow rfl rfl hopen
        · rename_i m ho
          rw [ho] at hopen
          exact h.grow rfl rfl hopen

theorem handle_put_tidy (h : Tidy now w) : Tidy now (handle_put os cwd req w).2 := by
  have hguard := h.same (World.guard_same cwd w req.uri_path)
  unfold handle_put
  rcases hr : w.resolve_and_guard cwd req.uri_path with ⟨r, w₁⟩
  rw [hr] at hguard
  dsimp only at hguard
  cases r with
  | error e => exact hguard
  | ok target =>
    dsimp only
    rw [aim_machine]
    rcases hc : create os target w₁.machine with ⟨e | file, m⟩
    · have hcreate := create_extends os target w₁.machine
      rw [hc] at hcreate
      exact hguard.grow rfl rfl hcreate
    · have hwrite := write_extends hc req.body
      dsimp only
      rcases hw : write os file req.body m with ⟨e | u, m'⟩
      · rw [hw] at hwrite
        exact hguard.grow rfl rfl hwrite
      · rw [hw] at hwrite
        exact hguard.grow rfl rfl hwrite

theorem handle_mkcol_tidy (h : Tidy now w) : Tidy now (handle_mkcol os cwd req w).2 := by
  unfold handle_mkcol
  split
  · exact h
  · dsimp only
    have hguard := h.same (World.guard_same cwd w (trim_end_matches '/' req.uri_path))
    rcases hr : w.resolve_and_guard cwd (trim_end_matches '/' req.uri_path) with ⟨r, w₁⟩
    rw [hr] at hguard
    dsimp only at hguard
    cases r with
    | error e => exact hguard
    | ok target =>
      dsimp only
      split
      · exact hguard
      · have hmake := make_dir_extends os target w₁.machine
        rw [aim_machine]
        rcases hc : create_dir os target w₁.machine with ⟨e | u, m⟩
        · rw [hc] at hmake
          exact hguard.grow rfl rfl hmake
        · rw [hc] at hmake
          exact hguard.grow rfl rfl hmake

theorem handle_put_stores (os : Os) (cwd : Path) (req : Request) (w : World) :
    (handle_put os cwd req w).2.app.dead_props = w.app.dead_props ∧
      (handle_put os cwd req w).2.app.locks = w.app.locks := by
  have hsame := World.guard_same cwd w req.uri_path
  unfold handle_put
  rcases hr : w.resolve_and_guard cwd req.uri_path with ⟨r, w₁⟩
  rw [hr] at hsame
  cases r with
  | error e => exact ⟨hsame.dead_props, hsame.locks⟩
  | ok target =>
    dsimp only
    split
    · exact ⟨hsame.dead_props, hsame.locks⟩
    · split <;> exact ⟨hsame.dead_props, hsame.locks⟩

theorem handle_mkcol_stores (os : Os) (cwd : Path) (req : Request) (w : World) :
    (handle_mkcol os cwd req w).2.app.dead_props = w.app.dead_props ∧
      (handle_mkcol os cwd req w).2.app.locks = w.app.locks := by
  have hsame := World.guard_same cwd w (trim_end_matches '/' req.uri_path)
  unfold handle_mkcol
  split
  · exact ⟨rfl, rfl⟩
  · dsimp only
    rcases hr : w.resolve_and_guard cwd (trim_end_matches '/' req.uri_path) with ⟨r, w₁⟩
    rw [hr] at hsame
    cases r with
    | error e => exact ⟨hsame.dead_props, hsame.locks⟩
    | ok target =>
      dsimp only
      split
      · exact ⟨hsame.dead_props, hsame.locks⟩
      · split <;> exact ⟨hsame.dead_props, hsame.locks⟩

/-- A PROPPATCH stores at a path that exists. -/
theorem handle_proppatch_tidy (h : Tidy now w) :
    Tidy now (handle_proppatch cwd req w).2 := by
  unfold handle_proppatch
  split
  · exact h
  · rename_i fs_path hresolved
    split
    · exact h
    · rename_i op _
      have hpresent := present_real (resolve_existing_real hresolved)
      intro k hk
      have hbare := h k hk
      refine ⟨?_, hbare.locks⟩
      intro name
      have hne : k ≠ fs_path := by
        rintro rfl
        exact hk hpresent
      dsimp only
      show recorded (w.app.dead_props.insert fs_path _) k name = none
      rw [recorded_insert, if_neg hne]
      exact hbare.props name

/-- An UNLOCK only takes locks away. -/
theorem handle_unlock_tidy (h : Tidy now w) : Tidy now (Server.handle_unlock cwd req w).2 := by
  unfold Server.handle_unlock
  intro k hk
  have hbare := h k hk
  refine ⟨hbare.props, ?_⟩
  dsimp only
  rw [with_locks_locks]
  unfold Locks.handle_unlock
  split
  · exact hbare.locks
  · split
    · exact hbare.locks
    · rw [at_unlock_section]
      split
      · unfold active_slice
        rw [Lease.live_filter, show Lease.live expired now _ = [] from hbare.locks]
        rfl
      · exact hbare.locks

end Adding

/-! ## DELETE -/

section Delete

variable {os : Os} {cwd : Path} {req : Request} {w : World} {now later : ℕ}

/-- A DELETE of the root directory is refused. -/
def IsRoot (w : World) (p : Path) : Prop :=
  w.machine.fs.node p = some .dir ∧ p.comps = w.app.root_canonical.comps

theorem handle_delete_tidy (h : Tidy now w) (hle : now ≤ later)
    (hspares : ∀ p, w.resolve_existing cwd req.uri_path = some p → ¬ IsRoot w p →
      ∀ k, Present w.machine.fs k → ¬ Present (w.machine.fs.prune p) k → Bare later w.app k) :
    Tidy later (handle_delete os cwd req w).2 := by
  unfold handle_delete
  split
  · exact h.later hle
  · rename_i p hresolved
    have hreal := resolve_existing_real hresolved
    split
    · exact h.later hle
    · rename_i file_type hmeta
      -- a directory goes with all below it, a file alone
      split
      · split
        · exact h.later hle
        · rename_i hroot
          have hleaves := remove_dir_all_leaves os hreal
          have hspared := hspares p hresolved fun hr => hroot hr.2
          dsimp only
          rw [aim_machine]
          rcases hc : remove_dir_all os p w.machine with ⟨e | u, m⟩
          · rw [hc] at hleaves
            exact tidy_of_keeps h hle rfl rfl hleaves hspared
          · rw [hc] at hleaves
            exact tidy_of_keeps h hle rfl rfl hleaves hspared
      · rename_i hdir
        -- the root is a directory
        have hnotroot : ¬ IsRoot w p := by
          intro hr
          obtain ⟨x, hx, -, ht⟩ := real_node hreal hmeta
          rw [hr.1] at hx
          cases hx
          exact hdir ht.symm
        have hleaves := remove_file_leaves os hreal
        have hspared := hspares p hresolved hnotroot
        dsimp only
        rw [aim_machine]
        rcases hc : remove_file os p w.machine with ⟨e | u, m⟩
        · rw [hc] at hleaves
          exact tidy_of_keeps h hle rfl rfl hleaves hspared
        · rw [hc] at hleaves
          exact tidy_of_keeps h hle rfl rfl hleaves hspared

end Delete

/-! ## COPY and MOVE -/

section Transfer

variable {os : Os} {fuel : ℕ} {req : Request} {is_move : Bool} {src dest : Path} {w : World}
  {now later : ℕ}

/-- Some property is recorded for the path. -/
def HasProps (app : AppState) (p : Path) : Prop := ∃ name, recorded app.dead_props p name ≠ none

/-- A COPY or MOVE that gets past its checks leaves no state behind. -/
structure TransferSpares (later : ℕ) (is_move : Bool) (src dest : Path) (w : World)
    (src_type : FileType) : Prop where
  /-- Nothing is stored for what is not found without a destination of the other type. -/
  cleared : ∀ k, Present w.machine.fs k → ¬ Present (cleared w.machine.fs src_type dest) k →
    Bare later w.app k
  /-- Nor, for a MOVE, for what is not found without its source and a link in the place of
  a file, except the properties of the source. -/
  moved : is_move = true → CanCopy w.machine.fs src_type src dest → ∀ k, Present w.machine.fs k →
    ¬ Present ((unlinked (Transfer.cleared w.machine.fs src_type dest) src_type dest).prune src) k →
    active_slice later (w.app.locks.at k) = [] ∧
      (k ≠ src → ∀ name, recorded w.app.dead_props k name = none)
  /-- The properties of the source of a MOVE go to a path that will exist: its directory is
  where it says, it is not below the source, and if it is a link it is none into that. -/
  migrated : is_move = true → CanCopy w.machine.fs src_type src dest → HasProps w.app src →
    w.machine.fs.Real dest.dropLast ∧ ¬ src <+: dest ∧
      ∀ t, w.machine.fs.node dest = some (.symlink t) → Present (w.machine.fs.prune src) dest

theorem recorded_migrate_cases (is_move : Bool) (src dest : Path) (props : DeadPropertyStore)
    (k : Path) :
    recorded (migrate_props is_move src dest props) k = recorded props k ∨
      (k = dest ∧ recorded (migrate_props is_move src dest props) k = recorded props src) ∨
      (k = src ∧ ∀ name, recorded (migrate_props is_move src dest props) k name = none) := by
  -- the destination, the source, and any other path
  by_cases hd : k = dest
  · rw [hd, recorded_migrate_dest]
    split
    · exact Or.inl rfl
    · exact Or.inr (Or.inl ⟨rfl, rfl⟩)
  · by_cases hs : k = src
    · rw [hs] at hd ⊢
      unfold migrate_props
      split
      · exact Or.inl rfl
      · rename_i props' hprops
        dsimp only
        rw [recorded_insert, if_neg hd]
        split
        · refine Or.inr (Or.inr ⟨rfl, fun name => ?_⟩)
          rw [recorded_erase, if_pos rfl]
        · left
          rw [recorded_insert, if_pos rfl, recorded_of_lookup hprops]
    · exact Or.inl (recorded_migrate_other hs hd)

/-- A path stays without properties, unless it is the destination of some. -/
theorem migrate_none {props : DeadPropertyStore} {k : Path}
    (hk : ∀ name, recorded props k name = none)
    (hdest : k = dest → ∀ name, recorded props src name = none) :
    ∀ name, recorded (migrate_props is_move src dest props) k name = none := by
  intro name
  rcases recorded_migrate_cases is_move src dest props k with heq | ⟨hkd, heq⟩ | ⟨-, hnone⟩
  · rw [heq]
    exact hk name
  · rw [heq]
    exact hdest hkd name
  · exact hnone name

/-- Where no property is recorded for the source, none migrates. -/
theorem no_props {app : AppState} (h : ¬ HasProps app src) (name : String) :
    recorded app.dead_props src name = none := by
  by_contra hne
  exact h ⟨name, hne⟩

theorem transfer_tidy (h : Tidy now w) (hle : now ≤ later) (hsrc : w.machine.fs.Real src)
    (hne : dest ≠ [])
    (hspares : ((metadata w.machine.fs dest).isOk = true → parse_overwrite req.headers = true) →
      ∀ src_type, metadata w.machine.fs src = .ok src_type →
        TransferSpares later is_move src dest w src_type) :
    Tidy later (transfer os fuel req is_move src dest w).2 := by
  rcases transfer_cases os fuel req is_move src dest w with
    ⟨hsame, -⟩ | ⟨src_type, hmeta, hover, existed, m₁, res, m₂, hclear, hcopy, -, hmachine,
      hlocks, hprops⟩
  · exact (h.same hsame).later hle
  have hs := hspares hover src_type hmeta
  have hmay := @clears_may req w src_type dest hover
  have hkeeps := copied_keeps hsrc hmeta hmay hclear hcopy
  -- what is not there after the copy was bare
  have hcopied : ∀ k, ¬ Present m₂.fs k → Bare later w.app k := by
    intro k hk
    by_cases hpresent : Present w.machine.fs k
    · exact hs.cleared k hpresent fun hbase => hk (hbase.keeps hkeeps)
    · exact (h k hpresent).later hle
  by_cases hres : res = some (.ok ())
  · subst hres
    rw [if_pos rfl] at hprops
    by_cases hmove : is_move = true
    · -- the source is gone: its properties have moved, and its locks may not be left
      rw [if_pos ⟨rfl, hmove⟩] at hmachine
      have hdeep : ¬ (is_move = false ∧ parse_depth req.headers = .Zero) := by
        rintro ⟨hno, -⟩
        rw [hmove] at hno
        cases hno
      have hcan := can_copy_of_ok hdeep hmay hclear hcopy
      obtain ⟨parent, hpar⟩ := parent_of_can_copy hne hcan
      obtain ⟨z, hz, hkind⟩ := source_kind hsrc hmeta hclear hcopy
      have hleft := move_source_keeps os hkeeps hpar hz hkind
      intro k hk
      rw [hmachine] at hk
      have hbare : active_slice later (w.app.locks.at k) = [] ∧
          (k ≠ src → ∀ name, recorded w.app.dead_props k name = none) := by
        by_cases hpresent : Present w.machine.fs k
        · exact hs.moved hmove hcan k hpresent fun hbase => hk (hbase.keeps hleft)
        · have hbare := (h k hpresent).later hle
          exact ⟨hbare.locks, fun _ => hbare.props⟩
      refine ⟨?_, ?_⟩
      · rw [hprops]
        by_cases hp : HasProps w.app src
        · obtain ⟨hdir, hapart, hlink⟩ := hs.migrated hmove hcan hp
          have hdest := moved_present os hdir hne hapart hlink hsrc hmeta hmay hclear hcopy
          have hkd : k ≠ dest := by
            rintro rfl
            exact hk hdest
          by_cases hks : k = src
          · intro name
            rw [hks, hmove, recorded_migrate_src fun heq => hapart (by rw [heq])]
          · exact migrate_none (hbare.2 hks) fun heq => absurd heq hkd
        · by_cases hks : k = src
          · rw [hks]
            exact migrate_none (no_props hp) fun _ => no_props hp
          · exact migrate_none (hbare.2 hks) fun _ => no_props hp
      · rw [hlocks]
        exact hbare.1
    · rw [if_neg fun hand => hmove hand.2] at hmachine
      intro k hk
      rw [hmachine] at hk
      have hbare := hcopied k hk
      refine ⟨?_, ?_⟩
      · rw [hprops]
        refine migrate_none hbare.props fun hkd => ?_
        rw [hkd] at hk
        exact absurd (dest_present hsrc hmeta hclear hcopy) hk
      · rw [hlocks]
        exact hbare.locks
  · rw [if_neg fun hand => hres hand.1] at hmachine
    rw [if_neg hres] at hprops
    intro k hk
    rw [hmachine] at hk
    have hbare := hcopied k hk
    refine ⟨?_, ?_⟩
    · rw [hprops]
      exact hbare.props
    · rw [hlocks]
      exact hbare.locks

end Transfer

/-! ## LOCK -/

section Lock

variable {os : Os} {cwd : Path} {clock : Clock} {default_hasher : ℕ → UInt64} {req : Request}
  {w : World} {now : ℕ}

/-- A LOCK whose lock will be stored at a path that exists: its target exists already,
or no lock at all and no entry is there and the target will be created; or a LOCK that stores
none at its target, because it refreshes a lock above it, or because it is exclusive
and some lock stored there, expired or not, is not the client's. -/
def LockSpares (now : ℕ) (lreq : LockRequest) (w : World) : Prop :=
  Present w.machine.fs lreq.target ∨
    (w.app.locks.at lreq.target = [] ∧
      ∀ place, locate_entry w.machine.fs lreq.target = .ok place → w.machine.fs.node place = none) ∨
    OwnsAncestor now lreq w.app.locks ∨
    (lreq.lock_scope = .Exclusive ∧ ∃ l ∈ w.app.locks.at lreq.target, l.token ∉ lreq.if_tokens)

/-- What was created where nothing stood is there. -/
theorem create_new_present {p : Path} {m m' : Machine} {r : IoResult Unit} {created : Bool}
    (hfree : ∀ place, locate_entry m.fs p = .ok place → m.fs.node place = none)
    (h : create_new os p m = (r, m'))
    (hr : ensure_lock_null_resource (create_new_outcome r) = .ok created) : Present m'.fs p := by
  cases r with
  | ok u => exact make_present (by simp) h
  | error e =>
    have he : e = .AlreadyExists := by
      by_contra hne
      have hfailed : create_new_outcome (.error e) = .Failed := by
        -- the call has gone through, or has found the file there
        unfold create_new_outcome
        split
        · rename_i heq
          cases heq
        · rename_i heq
          cases heq
          exact absurd rfl hne
        · rfl
      rw [hfailed] at hr
      cases hr
    rw [he] at h
    obtain ⟨-, loc, x, hl, hx⟩ := make_exists h
    rw [hfree loc hl] at hx
    cases hx

/-- A path without unexpired locks gets none in the first section, unless it is the
target of a request that takes old locks over. -/
theorem first_section_at {lreq : LockRequest} {locks : LockStore} {k : Path}
    (hk : active_slice now (locks.at k) = [])
    (hspare : k = lreq.target → locks.at k = [] ∨ OwnsAncestor now lreq locks ∨
      (lreq.lock_scope = .Exclusive ∧ ∃ l ∈ locks.at k, l.token ∉ lreq.if_tokens)) :
    (first_section default_hasher now lreq locks).2.at k = locks.at k ∨
      (first_section default_hasher now lreq locks).2.at k = [] := by
  rcases first_section_cases default_hasher now lreq locks with
    ⟨lock, locks', hfind, heq⟩ | ⟨hfind, ⟨status, -, heq⟩ | ⟨token, entry, hd, heq⟩ | ⟨hnil, heq⟩⟩
  · left
    -- a lock above was refreshed, and it is unexpired, so its path is another one
    obtain ⟨q, pre, l, post, -, -, hl, -, hexp, -, -, rfl⟩ := find_and_refresh_some hfind
    rw [heq, at_insert]
    split
    · -- the lock that is refreshed is not expired, so this is another path
      rename_i hkq
      rw [hkq, at_of_lookup hl] at hk
      have hmem : l ∈ active_slice now (pre ++ l :: post) := Lease.mem_live.mpr ⟨by simp, hexp⟩
      rw [hk] at hmem
      cases hmem
    · rfl
  · rw [heq]
    exact Or.inl (at_or_default _ _ _)
  · left
    rw [heq, at_insert, at_or_default]
    split
    · -- with no unexpired lock there, only old locks can be taken over
      rename_i hkt
      exfalso
      rcases hspare hkt with hnil | howns | ⟨hscope, l, hl, hunowned⟩
      · rw [← hkt, hnil, decision_nil] at hd
        cases hd
      · exact owns_ancestor_iff.mp howns hfind
      · have hcases := decision_cases default_hasher now lreq (locks.at lreq.target)
        rw [hd, ← hkt] at hcases
        cases hcases with
        | refresh x hx _ _ _ =>
          rw [hk] at hx
          cases hx
        | downgrade x hx _ _ _ =>
          rw [hk] at hx
          cases hx
        | upgrade _ _ _ hown => exact hunowned (hown l hl)
        | reshare _ hs _ _ =>
          rw [hscope] at hs
          cases hs
        | join _ hs _ _ =>
          rw [hscope] at hs
          cases hs
    · rfl
  · rw [heq, at_insert, at_or_default]
    split
    · exact Or.inr rfl
    · exact Or.inl rfl

/-- A LOCK goes on to its second section when nothing is stored at its target. -/
theorem first_section_none {lreq : LockRequest} {locks : LockStore}
    (h : (first_section default_hasher now lreq locks).1 = none) :
    ¬ OwnsAncestor now lreq locks ∧ locks.at lreq.target = [] := by
  rcases first_section_cases default_hasher now lreq locks with
    ⟨lock, locks', hfind, heq⟩ | ⟨hfind, ⟨status, -, heq⟩ | ⟨token, entry, hd, heq⟩ | ⟨hnil, heq⟩⟩
  · rw [heq] at h
    cases h
  · rw [heq] at h
    cases h
  · rw [heq] at h
    cases h
  · exact ⟨fun howns => owns_ancestor_iff.mp howns hfind, hnil⟩

theorem second_section_at {lreq : LockRequest} {locks : LockStore} {created : Bool} (k : Path) :
    (second_section default_hasher now lreq created locks).2.at k = locks.at k ∨
      k = lreq.target := by
  rcases second_section_cases default_hasher now lreq created locks with ⟨-, heq⟩ | ⟨-, heq⟩
  · rw [heq, at_or_default]
    exact Or.inl rfl
  · rw [heq, at_insert, at_or_default]
    split
    · rename_i hk
      exact Or.inr hk
    · exact Or.inl rfl

/-- A store that differs from that of a tidy world at paths that exist, and at entries
that are empty, is tidy. -/
theorem Tidy.with_store {later : ℕ} {w' : World} (h : Tidy now w) (hle : now ≤ later)
    (hp : w'.app.dead_props = w.app.dead_props)
    (hfs : w.machine.fs.Keeps w'.machine.fs)
    (hat : ∀ k, ¬ Present w'.machine.fs k →
      w'.app.locks.at k = w.app.locks.at k ∨ w'.app.locks.at k = []) : Tidy later w' := by
  intro k hk
  have hbare := (h k fun hpresent => hk (hpresent.keeps hfs)).later hle
  refine ⟨by rw [hp]; exact hbare.props, ?_⟩
  rcases hat k hk with heq | heq
  · rw [heq]
    exact hbare.locks
  · rw [heq]
    rfl

/-- The first section of a LOCK that is spared does so. -/
theorem first_section_spared {lreq : LockRequest} (h : Tidy now w) (hspare : LockSpares now lreq w)
    {k : Path} (hnot : ¬ Present w.machine.fs k) :
    (first_section default_hasher now lreq w.app.locks).2.at k = w.app.locks.at k ∨
      (first_section default_hasher now lreq w.app.locks).2.at k = [] := by
  refine first_section_at (h k hnot).locks (fun hkt => ?_)
  rcases hspare with hex | ⟨hnil, -⟩ | howns | hunowned
  · rw [hkt] at hnot
    exact absurd hex hnot
  · rw [hkt]
    exact Or.inl hnil
  · exact Or.inr (Or.inl howns)
  · rw [hkt]
    exact Or.inr (Or.inr hunowned)

/-- When the second section is reached, the target of a LOCK that is spared has been
made or was there. -/
theorem target_present {lreq : LockRequest} {m : Machine} {r : IoResult Unit} {created : Bool}
    (hspare : LockSpares now lreq w) (hanc : ¬ OwnsAncestor now lreq w.app.locks)
    (hempty : w.app.locks.at lreq.target = [])
    (hc : create_new os lreq.target w.machine = (r, m))
    (hr : ensure_lock_null_resource (create_new_outcome r) = .ok created) :
    Present m.fs lreq.target := by
  rcases hspare with hex | ⟨-, hfree⟩ | howns | ⟨-, l, hl, -⟩
  · have hmake := make_extends os (x := .file []) (by simp) lreq.target w.machine
    rw [show make os (.file []) lreq.target w.machine = (r, m) from hc] at hmake
    exact hex.keeps hmake.keeps
  · exact create_new_present hfree hc hr
  · exact absurd howns hanc
  · rw [hempty] at hl
    cases hl

theorem handle_lock_tidy (h : Tidy now w) (hfirst : now ≤ clock.first)
    (hsecond : clock.first ≤ clock.second)
    (hspares : ∀ target events,
      (w.resolve_and_guard cwd (trim_end_matches '/' req.uri_path)).1 = .ok target →
      req.lock_body = some events →
      LockSpares clock.first (lock_request req w.app events target) w) :
    Tidy clock.second (Server.handle_lock os cwd clock default_hasher req w).2 := by
  have hlater : now ≤ clock.second := le_trans hfirst hsecond
  unfold Server.handle_lock
  dsimp only
  rcases hr : w.resolve_and_guard cwd (trim_end_matches '/' req.uri_path) with ⟨r, w₁⟩
  obtain ⟨⟨hmachine, hprops, hlocks⟩, hreq⟩ := Server.guard_leaves hr
  rw [hr] at hspares
  dsimp only at hmachine hprops hlocks hreq
  cases r with
  | error e => exact (h.same ⟨hmachine, hprops, hlocks⟩).later hlater
  | ok target =>
    dsimp only
    cases hbody : req.lock_body with
    | none => exact (h.same ⟨hmachine, hprops, hlocks⟩).later hlater
    | some events =>
      dsimp only
      have hspare := hspares target events rfl hbody
      rw [hreq, hlocks]
      have htarget : (lock_request req w.app events target).target = target := rfl
      -- from here on only the request and its target count
      generalize lock_request req w.app events target = lreq at hspare htarget ⊢
      subst htarget
      have hat := fun k => @first_section_spared default_hasher w clock.first lreq
        (h.later hfirst) hspare k
      rcases hsection : first_section default_hasher clock.first lreq w.app.locks with ⟨reply, locks⟩
      have hnone := @first_section_none default_hasher clock.first lreq w.app.locks
      rw [hsection] at hat hnone
      dsimp only at hat hnone
      cases reply with
      | some reply =>
        refine h.with_store hlater hprops ?_ (fun k hk => ?_)
        · rw [with_locks_machine, hmachine]
          exact (Fs.Extends.refl _).keeps
        · apply hat
          rw [← hmachine]
          exact hk
      | none =>
        obtain ⟨howns, hempty⟩ := hnone rfl
        have hmake := make_extends os (x := .file []) (by simp) lreq.target w.machine
        dsimp only
        rw [with_locks_machine, hmachine]
        rcases hc : create_new os lreq.target w.machine with ⟨rc, m⟩
        rw [show make os (.file []) lreq.target w.machine = (rc, m) from hc] at hmake
        -- creating the file takes nothing away
        have hold : ∀ k, ¬ Present m.fs k → ¬ Present w.machine.fs k := fun k hk hpresent =>
          hk (hpresent.keeps hmake.keeps)
        dsimp only
        cases hensure : ensure_lock_null_resource (create_new_outcome rc) with
        | error status =>
          exact h.with_store hlater hprops hmake.keeps (fun k hk => hat k (hold k hk))
        | ok created =>
          refine h.with_store hlater hprops hmake.keeps (fun k hk => ?_)
          have hkn : ¬ Present m.fs k := hk
          dsimp only
          rw [with_locks_locks]
          rcases @second_section_at default_hasher clock.second lreq locks created k with heq | hkt
          · show (second_section default_hasher clock.second lreq created locks).2.at k = _ ∨
              (second_section default_hasher clock.second lreq created locks).2.at k = _
            rw [heq]
            exact hat k (hold k hkn)
          · rw [hkt] at hkn
            exact absurd (target_present hspare howns hempty hc hensure) hkn

end Lock

/-! ## One request -/

/-- A request with everything it meets. -/
structure Call where
  os : Os
  cwd : Path
  clock : Clock
  default_hasher : ℕ → UInt64
  fuel : ℕ
  req : Request

/-- The COPY or MOVE of the request gets past its checks, from `src` to `dest`. -/
structure Transfers (c : Call) (w : World) (is_move : Bool) (src dest : Path) : Prop where
  method : c.req.method = if is_move then .MOVE else .COPY
  source : w.resolve_existing c.cwd c.req.uri_path = some src
  destination : ∃ text, parse_destination c.req.headers = some text ∧
    ¬ Spelled w.app.root_dir text src ∧ (w.resolve_and_guard c.cwd text).1 = .ok dest
  overwrite : (metadata w.machine.fs dest).isOk = true → parse_overwrite c.req.headers = true

/-- The request leaves no state behind for what it removes, and stores none for what
does not exist. Stated on the world its handler finds. -/
structure Spares (c : Call) (w : World) : Prop where
  /-- Nothing is stored for what is not found without the path of a DELETE, or that is the
  root. -/
  delete : c.req.method = .DELETE → ∀ p, w.resolve_existing c.cwd c.req.uri_path = some p →
    ¬ IsRoot w p → ∀ k, Present w.machine.fs k → ¬ Present (w.machine.fs.prune p) k →
      Bare c.clock.second w.app k
  transfer : ∀ is_move src dest, Transfers c w is_move src dest →
    ∀ src_type, metadata w.machine.fs src = .ok src_type →
      TransferSpares c.clock.second is_move src dest w src_type
  lock : c.req.method = .LOCK → ∀ target events,
    (w.resolve_and_guard c.cwd (trim_end_matches '/' c.req.uri_path)).1 = .ok target →
    c.req.lock_body = some events →
    LockSpares c.clock.first (lock_request c.req w.app events target) w

section Dispatch

variable {c : Call} {w : World} {now : ℕ}

theorem do_move_or_copy_tidy {is_move : Bool}
    (hmethod : c.req.method = if is_move then .MOVE else .COPY) (h : Tidy now w)
    (hle : now ≤ c.clock.second) (hs : Spares c w) :
    Tidy c.clock.second (do_move_or_copy c.os c.cwd c.fuel c.req is_move w).2 := by
  rcases do_move_or_copy_cases c.os c.cwd c.fuel c.req is_move w with
    hsame | ⟨text, src, dest, htext, hsrc, hspelled, hdest, hgo⟩
  · exact (h.same hsame).later hle
  · rw [hgo]
    have hguard := World.guard_same c.cwd w text
    have hne : dest ≠ [] := by
      obtain ⟨-, init, n, pc, -, -, -, rfl⟩ := resolve_and_guard_ok_iff.mp hdest
      simp
    refine transfer_tidy (h.same hguard) hle ?_ hne ?_
    · rw [hguard.machine]
      exact resolve_existing_real hsrc
    · intro hover src_type hmeta
      rw [hguard.machine] at hover hmeta
      have hspares := hs.transfer is_move src dest ⟨hmethod, hsrc, ⟨text, htext, hspelled, hdest⟩,
        hover⟩ src_type hmeta
      have hbare : ∀ k, Bare c.clock.second w.app k →
          Bare c.clock.second (w.resolve_and_guard c.cwd text).2.app k := fun k hk =>
        ⟨hk.props, hk.locks⟩
      exact ⟨fun k hk hgone => hbare k (hspares.cleared k hk hgone), hspares.moved, hspares.migrated⟩

theorem dispatch_tidy (h : Tidy now w) (hfirst : now ≤ c.clock.first)
    (hsecond : c.clock.first ≤ c.clock.second) (hs : Spares c w) :
    Tidy c.clock.second (dispatch c.os c.cwd c.clock c.default_hasher c.fuel c.req w).2 := by
  have hle := le_trans hfirst hsecond
  have hl := h.later hle
  unfold dispatch
  cases hmethod : c.req.method with
  | GET => exact handle_get_head_tidy hl
  | HEAD => exact handle_get_head_tidy hl
  | PUT => exact handle_put_tidy hl
  | DELETE => exact handle_delete_tidy h hle (hs.delete hmethod)
  | OPTIONS => exact hl
  | PROPFIND =>
    unfold replies Server.handle_propfind
    dsimp only
    split
    · exact hl
    · split
      · exact hl
      · exact hl
  | MKCOL => exact handle_mkcol_tidy hl
  | COPY =>
    exact do_move_or_copy_tidy (show c.req.method = if false then .MOVE else .COPY from hmethod)
      h hle hs
  | MOVE =>
    exact do_move_or_copy_tidy (show c.req.method = if true then .MOVE else .COPY from hmethod)
      h hle hs
  | PROPPATCH => exact handle_proppatch_tidy hl
  | LOCK => exact handle_lock_tidy h hfirst hsecond (hs.lock hmethod)
  | UNLOCK => exact handle_unlock_tidy hl
  | PATCH => exact hl
  | REPORT => exact hl

end Dispatch

/-! ## Runs of the server -/

/-- The state between requests: what the server keeps, the tree, and the last reading
of the clock. -/
structure Site where
  app : AppState
  fs : Fs
  clock : ℕ

inductive Event
  | request (c : Call)
  | cleanup (now : ℕ)

section Runs

/-- What the middleware says, and the cache it leaves. -/
def enforced (c : Call) (s : Site) : Enforced × Cache :=
  lock_enforce (resolver c.cwd s.fs s.app) c.clock.enforce s.app.locks s.app.root_canonical
    c.req.method c.req.uri_path c.req.headers s.app.canonical_cache

/-- The world the handler finds. -/
def found (c : Call) (s : Site) : World :=
  World.start { s.app with canonical_cache := (enforced c s).2 } s.fs

def served (c : Call) (s : Site) : World :=
  (serve c.os c.cwd c.clock c.default_hasher c.fuel c.req s.app s.fs).world

/-- One request, or one pass of the cleanup. -/
inductive Step : Site → Event → Site → Prop
  | request (s : Site) (c : Call) (henforce : s.clock ≤ c.clock.enforce)
      (hfirst : c.clock.enforce ≤ c.clock.first) (hsecond : c.clock.first ≤ c.clock.second) :
      Step s (.request c)
        { app := (served c s).app, fs := (served c s).machine.fs, clock := c.clock.second }
  | cleanup (s : Site) (now : ℕ) (hnow : s.clock ≤ now) :
      Step s (.cleanup now)
        { app := { s.app with locks := Locks.cleanup now s.app.locks }, fs := s.fs, clock := now }

/-- A server that has just started, on any tree. -/
def Initial (s : Site) : Prop := s.app.dead_props = ∅ ∧ s.app.locks = ∅

/-- A step whose request, if it gets to its handler, spares the stored state. -/
def SparingStep (s : Site) (e : Event) (t : Site) : Prop :=
  Step s e t ∧ ∀ c, e = .request c → (enforced c s).1.reply = .ok () → Spares c (found c s)

/-- Whatever has a property or an unexpired lock exists. -/
def StoredExist (s : Site) : Prop := ∀ k, ¬ Present s.fs k → Bare s.clock s.app k

theorem served_eq (c : Call) (s : Site) :
    served c s = found c s ∨ ((enforced c s).1.reply = .ok () ∧
      served c s = (dispatch c.os c.cwd c.clock c.default_hasher c.fuel c.req (found c s)).2) := by
  unfold served serve found
  rcases he : enforced c s with ⟨e, cache⟩
  rw [show lock_enforce (resolver c.cwd s.fs s.app) c.clock.enforce s.app.locks s.app.root_canonical
    c.req.method c.req.uri_path c.req.headers s.app.canonical_cache = (e, cache) from he]
  dsimp only
  cases hreply : e.reply with
  | error status => exact Or.inl rfl
  | ok u => exact Or.inr ⟨rfl, rfl⟩

theorem step_stored {s t : Site} {e : Event} (h : StoredExist s) (hs : SparingStep s e t) :
    StoredExist t := by
  obtain ⟨hstep, hspares⟩ := hs
  cases hstep with
  | request c henforce hfirst hsecond =>
    have hfound : Tidy s.clock (found c s) := fun k hk => ⟨(h k hk).props, (h k hk).locks⟩
    have htidy : Tidy c.clock.second (served c s) := by
      rcases served_eq c s with heq | ⟨hok, heq⟩
      · rw [heq]
        exact hfound.later (by omega)
      · rw [heq]
        exact dispatch_tidy hfound (by omega) hsecond (hspares c rfl hok)
    exact htidy
  | cleanup now hnow =>
    intro k hk
    have hbare := (h k hk).later hnow
    refine ⟨hbare.props, ?_⟩
    dsimp only
    rw [at_cleanup, hbare.locks]
    rfl

/-- A PUT or a MKCOL stores nothing. -/
theorem creates_stored {s t : Site} {c : Call} (h : StoredExist s) (hs : Step s (.request c) t)
    (hmethod : c.req.method = .PUT ∨ c.req.method = .MKCOL) :
    ∀ k, ¬ Present s.fs k → Bare t.clock t.app k := by
  cases hs with
  | request _ henforce hfirst hsecond =>
    have hstores : (served c s).app.dead_props = s.app.dead_props ∧
        (served c s).app.locks = s.app.locks := by
      rcases served_eq c s with heq | ⟨-, heq⟩
      · rw [heq]
        exact ⟨rfl, rfl⟩
      · rw [heq]
        unfold dispatch
        rcases hmethod with hm | hm
        · rw [hm]
          exact handle_put_stores c.os c.cwd c.req (found c s)
        · rw [hm]
          exact handle_mkcol_stores c.os c.cwd c.req (found c s)
    intro k hk
    have hbare := (h k hk).later (show s.clock ≤ c.clock.second by omega)
    refine ⟨?_, ?_⟩
    · dsimp only
      rw [hstores.1]
      exact hbare.props
    · dsimp only
      rw [hstores.2]
      exact hbare.locks

/-- **Stored state belongs to what exists.** In every run whose requests all spare the
stored state, every path with a property or an unexpired lock exists, in every state
that is reached; and what a PUT or MKCOL makes at a free path has neither. -/
theorem stored_paths_exist {s t : Site} {tr : List Event} (hs : Initial s)
    (hrun : Lts.Run SparingStep s tr t) :
    StoredExist t ∧ ∀ c u, Step t (.request c) u →
      (c.req.method = .PUT ∨ c.req.method = .MKCOL) →
      ∀ k, ¬ Present t.fs k → Bare u.clock u.app k := by
  have hstored : StoredExist t := by
    refine hrun.keeps (fun _ _ _ h hstep => step_stored h hstep) ?_
    intro k _
    refine ⟨?_, ?_⟩
    · intro name
      rw [hs.1]
      rfl
    · rw [hs.2]
      rfl
  exact ⟨hstored, fun c u hstep hmethod => creates_stored hstored hstep hmethod⟩

end Runs

/-! ## A property that outlives its file -/

def site_f : Site where
  app := AppState.new disk_f [] (PathBuf.of_text "/".toList) 0
  fs := disk_f
  clock := 0

/-- A request for `/f` that no call fails for. -/
def on_f (method : Method) (proppatch_body : Option PropPatchOp) : Call where
  os := Os.calm
  cwd := []
  clock := ⟨0, 0, 0⟩
  default_hasher := fun _ => 0
  fuel := 0
  req :=
    { method := method
      uri_path := "/f".toList
      headers := {}
      body := []
      lock_body := none
      proppatch_body := proppatch_body
      propfind_body := none }

/-- PROPPATCH of `/f`, setting a property. -/
def set_f : Call := on_f .PROPPATCH (some ⟨[⟨"{}p", some "v"⟩]⟩)

def delete_f : Call := on_f .DELETE none

def patched : Site where
  app := (served set_f site_f).app
  fs := (served set_f site_f).machine.fs
  clock := 0

def deleted : Site where
  app := (served delete_f patched).app
  fs := (served delete_f patched).machine.fs
  clock := 0

theorem patched_spares : Spares set_f (found set_f site_f) where
  delete := fun h => by cases h
  transfer := fun is_move src dest h => by
    have hmethod := h.method
    cases is_move <;> cases hmethod
  lock := fun h => by cases h

theorem stored_paths_exist_f :
    StoredExist patched ∧ ∀ c u, Step patched (.request c) u →
      (c.req.method = .PUT ∨ c.req.method = .MKCOL) →
      ∀ k, ¬ Present patched.fs k → Bare u.clock u.app k := by
  have hstep : Step site_f (.request set_f) patched := Step.request site_f set_f le_rfl le_rfl le_rfl
  have hsparing : SparingStep site_f (.request set_f) patched := by
    refine ⟨hstep, ?_⟩
    intro c heq _
    cases heq
    exact patched_spares
  exact stored_paths_exist ⟨rfl, rfl⟩ (Lts.Run.single hsparing)

/-- After the DELETE of `/f` its property is still stored. -/
theorem property_outlives_file :
    ¬ ∀ s tr t, Initial s → Lts.Run Step s tr t → StoredExist t := by
  intro hall
  have hrun : Lts.Run Step site_f [.request set_f, .request delete_f] deleted :=
    Lts.Run.cons (Step.request site_f set_f le_rfl le_rfl le_rfl)
      (Lts.Run.single (Step.request patched delete_f le_rfl le_rfl le_rfl))
  have hgone : ¬ Present deleted.fs [f_name] := by decide
  have hbare := hall site_f _ deleted ⟨rfl, rfl⟩ hrun [f_name] hgone
  have hkept : recorded deleted.app.dead_props [f_name] "{}p" = some "v" := by decide
  rw [hbare.props "{}p"] at hkept
  cases hkept

end Rshs.Lifetime
