/-
Whether the cache of canonical parents can be told from none.

`resolve_and_guard` keeps what a parent was found to be and never drops it. In a world
where everything cached is what canonicalisation still finds (`Truthful`) it answers
as with an empty cache, and a handler that only adds to the tree leaves such a world
behind. What a DELETE, COPY or MOVE takes away may be an entry that a cached parent is
resolved through. `Spares` is what such a request must not do, stated on the state it
finds; along a run whose requests all spare the cached parents, no request path tells
the cache from none (`cache_transparent`).
-/
import Rshs.Lifetime

set_option autoImplicit false

namespace Rshs.CachedParents

open StdPath Posix FinMap Rshs.Webdav Rshs.IfHeader Rshs.Locks Rshs.Resolve Rshs.App Rshs.Http
  Rshs.CopyMove Rshs.CopyRun Rshs.LockMw Rshs.Server Rshs.CheckedPath Rshs.Transfer Rshs.Losses
  Rshs.CopyBegun Rshs.Lifetime

/-! ## A fresh cache -/

section Fresh

variable {fs : Fs} {cwd : Path} {root_dir root_canonical : PathBuf} {cache : Cache}

/-- **A fresh cache cannot be told from an empty one.** -/
theorem guard_transparent (h : Memo.Fresh (parents fs cwd) cache) (t : List Char) :
    (Resolve.resolve_and_guard fs cwd root_dir root_canonical t cache).1
      = (Resolve.resolve_and_guard fs cwd root_dir root_canonical t ∅).1 := by
  refine resolve_and_guard_congr fun parent hp => ?_
  have hempty : Memo.Fresh (parents fs cwd) ∅ := Memo.fresh_empty _
  rw [canonical_parent_eq_ask hp, canonical_parent_eq_ask hp, h.ask_fst, hempty.ask_fst]

/-- A path that is resolved and guarded is remembered with the parent it has now. -/
theorem guard_fresh (h : Memo.Fresh (parents fs cwd) cache) (t : List Char) :
    Memo.Fresh (parents fs cwd)
      (Resolve.resolve_and_guard fs cwd root_dir root_canonical t cache).2 := by
  have hcases : (Resolve.resolve_and_guard fs cwd root_dir root_canonical t cache).2 = cache ∨
      ∃ parent : PathBuf, parent.slash = false ∧ ParentOf root_dir t parent.comps ∧
        (Resolve.resolve_and_guard fs cwd root_dir root_canonical t cache).2
          = (canonical_parent fs cwd parent cache).2 := resolve_and_guard_cache
  rcases hcases with hsame | ⟨parent, hp, -, hnew⟩
  · rw [hsame]
    exact h
  · rw [hnew, canonical_parent_eq_ask hp]
    exact h.ask_snd _

/-- What is cached after a resolution was cached before, or is the parent of the text. -/
theorem lookup_guard {t : List Char} {k : List Component} {pc : Path}
    (h : (Resolve.resolve_and_guard fs cwd root_dir root_canonical t cache).2.lookup k = some pc) :
    cache.lookup k = some pc ∨ ParentOf root_dir t k := by
  have hcases : (Resolve.resolve_and_guard fs cwd root_dir root_canonical t cache).2 = cache ∨
      ∃ parent : PathBuf, parent.slash = false ∧ ParentOf root_dir t parent.comps ∧
        (Resolve.resolve_and_guard fs cwd root_dir root_canonical t cache).2
          = (canonical_parent fs cwd parent cache).2 := resolve_and_guard_cache
  rcases hcases with hsame | ⟨parent, hp, hparent, hnew⟩
  · rw [hsame] at h
    exact Or.inl h
  · rw [hnew, canonical_parent_eq_ask hp] at h
    rcases Memo.lookup_ask h with hold | ⟨rfl, -⟩
    · exact Or.inl hold
    · exact Or.inr hparent

end Fresh

/-- Everything cached is what canonicalisation finds. -/
def Truthful (cwd : Path) (w : World) : Prop :=
  Memo.Fresh (parents w.machine.fs cwd) w.app.canonical_cache

section Truthful

variable {os : Os} {cwd : Path} {req : Request} {w w' : World}

theorem Truthful.guard (h : Truthful cwd w) (t : List Char) :
    Truthful cwd (w.resolve_and_guard cwd t).2 := guard_fresh h t

/-- A tree that keeps what is found keeps the cache truthful. -/
theorem Truthful.keeps (h : Truthful cwd w)
    (hcache : w'.app.canonical_cache = w.app.canonical_cache)
    (hk : w.machine.fs.Keeps w'.machine.fs) : Truthful cwd w' := by
  unfold Truthful
  rw [hcache]
  exact h.change fun k pc _ hf => canonicalize_keeps hk hf

/-- A disk that only gains nodes leaves the remembered parents right. -/
theorem Truthful.grow (h : Truthful cwd w)
    (hcache : w'.app.canonical_cache = w.app.canonical_cache)
    (hext : w.machine.fs.Extends w'.machine.fs) : Truthful cwd w' :=
  h.keeps hcache hext.keeps

/-! ## Handlers that only add to the tree -/

/-- GET and HEAD leave the cache right. -/
theorem handle_get_head_truthful (h : Truthful cwd w) :
    Truthful cwd (handle_get_head os cwd req w).2 := by
  unfold handle_get_head
  split
  · exact h
  · rename_i fs_path _
    split
    · exact h
    · split
      · exact h
      · have hopen : w.machine.fs.Extends (open_file os fs_path w.machine).2.fs := by
          rcases open_file_cases os fs_path w.machine with ⟨e, ho⟩ | ⟨loc, c, -, -, ho⟩
          all_goals
            rw [ho]
            exact Fs.Extends.refl _
        split
        · rename_i m ho
          rw [ho] at hopen
          exact h.grow rfl hopen
        · rename_i m ho
          rw [ho] at hopen
          exact h.grow rfl hopen

/-- PUT leaves the cache right: it writes a file, and no directory goes. -/
theorem handle_put_truthful (h : Truthful cwd w) :
    Truthful cwd (handle_put os cwd req w).2 := by
  have hguard := h.guard req.uri_path
  unfold handle_put
  rcases hr : w.resolve_and_guard cwd req.uri_path with ⟨r, w₁⟩
  rw [hr] at hguard
  dsimp only at hguard
  cases r with
  | error e => exact hguard
  | ok target =>
    dsimp only
    rw [aim_machine]
    rcases hc : create os target w₁.machine with ⟨e | file, m⟩
    · have hcreate := create_extends os target w₁.machine
      rw [hc] at hcreate
      exact hguard.grow rfl hcreate
    · have hwrite := write_extends hc req.body
      dsimp only
      rcases hw : write os file req.body m with ⟨e | u, m'⟩
      all_goals
        rw [hw] at hwrite
        exact hguard.grow rfl hwrite

/-- MKCOL leaves the cache right: it makes a directory at most. -/
theorem handle_mkcol_truthful (h : Truthful cwd w) :
    Truthful cwd (handle_mkcol os cwd req w).2 := by
  unfold handle_mkcol
  split
  · exact h
  · dsimp only
    have hguard := h.guard (trim_end_matches '/' req.uri_path)
    rcases hr : w.resolve_and_guard cwd (trim_end_matches '/' req.uri_path) with ⟨r, w₁⟩
    rw [hr] at hguard
    dsimp only at hguard
    cases r with
    | error e => exact hguard
    | ok target =>
      dsimp only
      split
      · exact hguard
      · have hmake := make_dir_extends os target w₁.machine
        rw [aim_machine]
        rcases hc : create_dir os target w₁.machine with ⟨e | u, m⟩
        all_goals
          rw [hc] at hmake
          exact hguard.grow rfl hmake

theorem handle_proppatch_truthful (h : Truthful cwd w) :
    Truthful cwd (handle_proppatch cwd req w).2 := by
  unfold handle_proppatch
  split
  · exact h
  · split
    · exact h
    · exact h

/-- LOCK leaves the cache right: it makes an empty file at most. -/
theorem handle_lock_truthful {clock : Clock} {default_hasher : ℕ → UInt64} (h : Truthful cwd w) :
    Truthful cwd (Server.handle_lock os cwd clock default_hasher req w).2 := by
  unfold Server.handle_lock
  dsimp only
  have hguard := h.guard (trim_end_matches '/' req.uri_path)
  rcases hr : w.resolve_and_guard cwd (trim_end_matches '/' req.uri_path) with ⟨r, w₁⟩
  rw [hr] at hguard
  dsimp only at hguard
  cases r with
  | error e => exact hguard
  | ok target =>
    dsimp only
    split
    · exact hguard
    · split
      · exact hguard
      · rename_i locks _
        have hmake := make_extends os (x := .file []) (by simp) target w₁.machine
        rw [with_locks_machine]
        rcases hc : create_new os target w₁.machine with ⟨rc, m⟩
        rw [show make os (.file []) target w₁.machine = (rc, m) from hc] at hmake
        dsimp only
        split
        · exact hguard.grow rfl hmake
        · exact hguard.grow rfl hmake

theorem handle_propfind_truthful (h : Truthful cwd w) :
    Truthful cwd (Server.handle_propfind cwd req w).2 := by
  unfold Server.handle_propfind
  split
  · exact h
  · split
    · exact h
    · exact h

end Truthful

/-! ## Parents that a removal spares -/

/-- Every parent of a kind that is found in `fs` is found in `fs'` at the same place. -/
def Survive (cwd : Path) (known : List Component → Prop) (fs fs' : Fs) : Prop :=
  ∀ k pc, known k → parents fs cwd k = .ok pc → parents fs' cwd k = .ok pc

/-- Every parent that is cached is of the kind. -/
def Within (known : List Component → Prop) (w : World) : Prop :=
  ∀ k pc, w.app.canonical_cache.lookup k = some pc → known k

section Delete

variable {os : Os} {cwd : Path} {req : Request} {w w' : World} {known : List Component → Prop}

/-- A disk that keeps what the known parents lead through leaves the cache right. -/
theorem Truthful.survive (h : Truthful cwd w) (hw : Within known w) {fs : Fs}
    (hs : Survive cwd known w.machine.fs fs) (hk : fs.Keeps w'.machine.fs)
    (hcache : w'.app.canonical_cache = w.app.canonical_cache) : Truthful cwd w' := by
  unfold Truthful
  rw [hcache]
  exact h.change fun k pc hl hf => canonicalize_keeps hk (hs k pc (hw k pc hl) hf)

/-- DELETE leaves the cache right if the known parents survive the removal. -/
theorem handle_delete_truthful (h : Truthful cwd w) (hw : Within known w)
    (hs : ∀ p, w.resolve_existing cwd req.uri_path = some p → ¬ IsRoot w p →
      Survive cwd known w.machine.fs (w.machine.fs.prune p)) :
    Truthful cwd (handle_delete os cwd req w).2 := by
  unfold handle_delete
  split
  · exact h
  · rename_i p hresolved
    have hreal := resolve_existing_real hresolved
    split
    · exact h
    · rename_i file_type hmeta
      split
      · split
        · exact h
        · rename_i hroot
          have hleaves := remove_dir_all_leaves os hreal
          have hspared := hs p hresolved fun hr => hroot hr.2
          dsimp only
          rw [aim_machine]
          rcases hc : remove_dir_all os p w.machine with ⟨e | u, m⟩
          all_goals
            rw [hc] at hleaves
            exact h.survive hw hspared hleaves rfl
      · rename_i hdir
        have hnotroot : ¬ IsRoot w p := by
          intro hr
          obtain ⟨x, hx, -, ht⟩ := real_node hreal hmeta
          rw [hr.1] at hx
          cases hx
          exact hdir ht.symm
        have hleaves := remove_file_leaves os hreal
        have hspared := hs p hresolved hnotroot
        dsimp only
        rw [aim_machine]
        rcases hc : remove_file os p w.machine with ⟨e | u, m⟩
        all_goals
          rw [hc] at hleaves
          exact h.survive hw hspared hleaves rfl

end Delete

/-! ## COPY and MOVE -/

section Transfer

variable {os : Os} {cwd : Path} {fuel : ℕ} {req : Request} {is_move : Bool} {src dest : Path}
  {w : World} {known : List Component → Prop}

/-- A COPY or MOVE that spares the parents of a kind, stated on the tree before it. -/
structure TransferSpares (cwd : Path) (known : List Component → Prop) (is_move : Bool)
    (src dest : Path) (fs : Fs) (src_type : FileType) : Prop where
  cleared : Survive cwd known fs (cleared fs src_type dest)
  /-- A MOVE whose copy can succeed takes the source away too, and a link that a file takes
  the place of. -/
  moved : is_move = true → CanCopy fs src_type src dest →
    Survive cwd known fs ((unlinked (Transfer.cleared fs src_type dest) src_type dest).prune src)

/-- Moving and copying leaves the cache alone. -/
theorem transfer_cache (os : Os) (fuel : ℕ) (req : Request) (is_move : Bool) (src dest : Path)
    (w : World) :
    (transfer os fuel req is_move src dest w).2.app.canonical_cache = w.app.canonical_cache := by
  unfold transfer
  dsimp only
  split
  · rfl
  · split
    · rfl
    · split
      · rfl
      · rfl
      · cases is_move <;> rfl

/-- A transfer leaves the cache right if the known parents survive it. -/
theorem transfer_truthful (h : Truthful cwd w) (hw : Within known w)
    (hsrc : w.machine.fs.Real src) (hne : dest ≠ [])
    (hs : ((metadata w.machine.fs dest).isOk = true → parse_overwrite req.headers = true) →
      ∀ src_type, metadata w.machine.fs src = .ok src_type →
        TransferSpares cwd known is_move src dest w.machine.fs src_type) :
    Truthful cwd (transfer os fuel req is_move src dest w).2 := by
  have hcache := transfer_cache os fuel req is_move src dest w
  rcases transfer_cases os fuel req is_move src dest w with
    ⟨hsame, -⟩ | ⟨src_type, hmeta, hover, existed, m₁, res, m₂, hclear, hcopy, -, hmachine, -, -⟩
  · refine h.keeps hcache ?_
    rw [hsame.machine]
    exact (Fs.Extends.refl _).keeps
  · have hspares := hs hover src_type hmeta
    have hmay := @clears_may req w src_type dest hover
    have hkeeps := copied_keeps hsrc hmeta hmay hclear hcopy
    by_cases hlast : res = some (.ok ()) ∧ is_move = true
    · rw [if_pos hlast] at hmachine
      obtain ⟨rfl, hmove⟩ := hlast
      have hdeep : ¬ (is_move = false ∧ parse_depth req.headers = .Zero) := by
        rintro ⟨hno, -⟩
        rw [hmove] at hno
        cases hno
      have hcan := can_copy_of_ok hdeep hmay hclear hcopy
      obtain ⟨parent, hpar⟩ := parent_of_can_copy hne hcan
      obtain ⟨z, hz, hkind⟩ := source_kind hsrc hmeta hclear hcopy
      refine h.survive hw (hspares.moved hmove hcan) ?_ hcache
      rw [hmachine]
      exact move_source_keeps _ hkeeps hpar hz hkind
    · rw [if_neg hlast] at hmachine
      refine h.survive hw hspares.cleared ?_ hcache
      rw [hmachine]
      exact hkeeps

/-- The path that a text names for a write: its last name, in what its parent is. -/
def Names (fs : Fs) (cwd : Path) (app : AppState) (text : List Char) (p : Path) : Prop :=
  Plain (request_text text) ∧ ∃ init n pc, names_of_text (request_text text) = init ++ [n] ∧
    canonicalize fs cwd (below app.root_dir init) = .ok pc ∧
    pc.starts_with app.root_canonical = true ∧ p = pc ++ [n]

/-- In a truthful world that is what the guard finds. -/
theorem Truthful.names (h : Truthful cwd w) {text : List Char}
    (hdest : (w.resolve_and_guard cwd text).1 = .ok dest) :
    Names w.machine.fs cwd w.app text dest := by
  obtain ⟨hplain, init, n, pc, hnames, hheld, hstart, hd⟩ := resolve_and_guard_ok_iff.mp hdest
  refine ⟨hplain, init, n, pc, hnames, ?_, hstart, hd⟩
  rcases hheld with hcached | ⟨-, hfound⟩
  · exact h _ pc hcached
  · exact hfound

/-- MOVE and COPY leave the cache right, the parent of the destination remembered first. -/
theorem do_move_or_copy_truthful (h : Truthful cwd w) (hw : Within known w)
    (hknown : ∀ text k, parse_destination req.headers = some text →
      ParentOf w.app.root_dir text k → known k)
    (hs : ∀ text src dest, parse_destination req.headers = some text →
      w.resolve_existing cwd req.uri_path = some src → ¬ Spelled w.app.root_dir text src →
      Names w.machine.fs cwd w.app text dest →
      ((metadata w.machine.fs dest).isOk = true → parse_overwrite req.headers = true) →
      ∀ src_type, metadata w.machine.fs src = .ok src_type →
        TransferSpares cwd known is_move src dest w.machine.fs src_type) :
    Truthful cwd (do_move_or_copy os cwd fuel req is_move w).2 := by
  unfold do_move_or_copy
  -- until the destination is resolved nothing is remembered
  split
  · exact h
  · rename_i text htext
    split
    · exact h
    · rename_i src hsrc
      split
      · exact h
      · rename_i target htarget
        split
        · exact h
        · rename_i hself
          have hguard := h.guard text
          -- the one parent that is remembered on the way is the one that the destination names
          have hcached : Within known (w.resolve_and_guard cwd text).2 := by
            intro k pc hl
            rcases lookup_guard hl with hold | hparent
            · exact hw k pc hold
            · exact hknown text k htext hparent
          have hdest := fun dest => @Truthful.names cwd dest w h text
          rcases hr : w.resolve_and_guard cwd text with ⟨r, w₁⟩
          have hsame := World.guard_same cwd w text
          rw [hr] at hguard hcached hdest hsame
          dsimp only at hguard hcached hdest hsame
          cases r with
          | error e => exact hguard
          | ok dest =>
            dsimp only
            obtain ⟨hplain, hpath⟩ := resolve_write_target_some_iff.mp htarget
            have hspelled : ¬ Spelled w.app.root_dir text src := by
              rw [hpath] at hself
              exact fun hsp => hself ((comps_eq_iff hplain).mpr hsp)
            have hnames := hdest dest rfl
            obtain ⟨-, init, n, pc, -, -, -, rfl⟩ := id hnames
            refine transfer_truthful hguard hcached ?_ (by simp) ?_
            · rw [hsame.machine]
              exact resolve_existing_real hsrc
            · rw [hsame.machine]
              exact hs text src _ htext hsrc hspelled hnames

end Transfer

/-! ## One request -/

/-- The keys of the cache when a request has been through the middleware: those it
finds there, and the parents of the paths that it resolves. -/
def Known (c : Call) (s : Site) (k : List Component) : Prop :=
  (∃ pc, s.app.canonical_cache.lookup k = some pc) ∨
    ∃ t, Resolves c.req.method c.req.uri_path c.req.headers t ∧ ParentOf s.app.root_dir t k

/-- The request takes away no entry that a known parent is resolved through. Stated on
the state before it. -/
structure SparesParents (c : Call) (s : Site) : Prop where
  delete : c.req.method = .DELETE → ∀ p,
    Resolve.resolve_existing s.fs c.cwd s.app.root_dir s.app.root_canonical c.req.uri_path = some p →
    ¬ (s.fs.node p = some .dir ∧ p.comps = s.app.root_canonical.comps) →
    Survive c.cwd (Known c s) s.fs (s.fs.prune p)
  transfer : ∀ is_move text src dest, c.req.method = (if is_move then .MOVE else .COPY) →
    parse_destination c.req.headers = some text →
    Resolve.resolve_existing s.fs c.cwd s.app.root_dir s.app.root_canonical c.req.uri_path
      = some src →
    ¬ Spelled s.app.root_dir text src → Names s.fs c.cwd s.app text dest →
    ((metadata s.fs dest).isOk = true → parse_overwrite c.req.headers = true) →
    ∀ src_type, metadata s.fs src = .ok src_type →
      TransferSpares c.cwd (Known c s) is_move src dest s.fs src_type

section Dispatch

variable {c : Call} {s : Site}

/-- The world a handler finds is truthful, if the cache was. -/
theorem found_truthful (h : Memo.Fresh (parents s.fs c.cwd) s.app.canonical_cache) :
    Truthful c.cwd (found c s) ∧ Within (Known c s) (found c s) := by
  have hcache : Memo.Fresh (parents s.fs c.cwd) (enforced c s).2 ∧
      ∀ k pc, (enforced c s).2.lookup k = some pc → Known c s k := by
    unfold enforced
    refine lock_enforce_cache (I := fun cache : Cache => Memo.Fresh (parents s.fs c.cwd) cache ∧
      ∀ k pc, cache.lookup k = some pc → Known c s k) (fun t cache ht hI => ⟨?_, ?_⟩)
      ⟨h, fun k pc hl => Or.inl ⟨pc, hl⟩⟩
    · exact guard_fresh hI.1 t
    · intro k pc hl
      rcases lookup_guard hl with hold | hparent
      · exact hI.2 k pc hold
      · exact Or.inr ⟨t, ht, hparent⟩
  exact hcache

/-- The parent that a Destination names is one of the known. -/
theorem destination_known {text : List Char} {k : List Component} {is_move : Bool}
    (hmethod : c.req.method = (if is_move then .MOVE else .COPY))
    (htext : parse_destination c.req.headers = some text) (hk : ParentOf s.app.root_dir text k) :
    Known c s k := by
  refine Or.inr ⟨text, Or.inr ⟨?_, text, htext, (trim_end_of_destination htext).symm⟩, hk⟩
  cases is_move with
  | true => exact Or.inr hmethod
  | false => exact Or.inl hmethod

/-- A request that spares the known parents leaves the cache right. -/
theorem dispatch_truthful (h : Truthful c.cwd (found c s)) (hw : Within (Known c s) (found c s))
    (hs : SparesParents c s) :
    Truthful c.cwd
      (dispatch c.os c.cwd c.clock c.default_hasher c.fuel c.req (found c s)).2 := by
  have htransfer : ∀ is_move, c.req.method = (if is_move then .MOVE else .COPY) →
      Truthful c.cwd (do_move_or_copy c.os c.cwd c.fuel c.req is_move (found c s)).2 :=
    fun is_move hmethod => do_move_or_copy_truthful h hw
      (fun _ _ htext hk => destination_known hmethod htext hk)
      (fun text src dest => hs.transfer is_move text src dest hmethod)
  unfold dispatch
  cases hmethod : c.req.method with
  | GET => exact handle_get_head_truthful h
  | HEAD => exact handle_get_head_truthful h
  | PUT => exact handle_put_truthful h
  | DELETE => exact handle_delete_truthful h hw (hs.delete hmethod)
  | OPTIONS => exact h
  | PROPFIND => exact handle_propfind_truthful h
  | MKCOL => exact handle_mkcol_truthful h
  | COPY => exact htransfer false hmethod
  | MOVE => exact htransfer true hmethod
  | PROPPATCH => exact handle_proppatch_truthful h
  | LOCK => exact handle_lock_truthful h
  | UNLOCK => exact h
  | PATCH => exact h
  | REPORT => exact h

end Dispatch

/-! ## Runs of the server -/

section Runs

/-- A step of a process whose working directory is `cwd`. -/
def StepIn (cwd : Path) (s : Site) (e : Event) (t : Site) : Prop :=
  Step s e t ∧ ∀ c, e = .request c → c.cwd = cwd

/-- One whose request, if it gets to its handler, spares the known parents. -/
def SparingIn (cwd : Path) (s : Site) (e : Event) (t : Site) : Prop :=
  StepIn cwd s e t ∧ ∀ c, e = .request c → (enforced c s).1.reply = .ok () → SparesParents c s

/-- Every request path is resolved as with an empty cache. -/
def Transparent (cwd : Path) (s : Site) : Prop :=
  ∀ t, (Resolve.resolve_and_guard s.fs cwd s.app.root_dir s.app.root_canonical t
      s.app.canonical_cache).1
    = (Resolve.resolve_and_guard s.fs cwd s.app.root_dir s.app.root_canonical t ∅).1

/-- An event that spares them leaves the cache right. -/
theorem step_fresh {cwd : Path} {s t : Site} {e : Event}
    (h : Memo.Fresh (parents s.fs cwd) s.app.canonical_cache) (hs : SparingIn cwd s e t) :
    Memo.Fresh (parents t.fs cwd) t.app.canonical_cache := by
  obtain ⟨⟨hstep, hcwd⟩, hspares⟩ := hs
  cases hstep with
  | request c _ _ _ =>
    obtain rfl := hcwd c rfl
    obtain ⟨hfound, hw⟩ := found_truthful h
    have hserved : Truthful c.cwd (served c s) := by
      rcases served_eq c s with heq | ⟨hok, heq⟩
      · rw [heq]
        exact hfound
      · rw [heq]
        exact dispatch_truthful hfound hw (hspares c rfl hok)
    exact hserved
  | cleanup now _ => exact h

/-- **The cache cannot be told from none**, in any state that is reached by requests that
take away no entry a known parent is resolved through. -/
theorem cache_transparent {cwd : Path} {s t : Site} {tr : List Event}
    (hs : s.app.canonical_cache = ∅) (hrun : Lts.Run (SparingIn cwd) s tr t) :
    Transparent cwd t := by
  intro text
  apply guard_transparent
  refine hrun.keeps (I := fun s => Memo.Fresh (parents s.fs cwd) s.app.canonical_cache)
    (fun _ _ _ h hstep => step_fresh h hstep) ?_
  rw [hs]
  exact Memo.fresh_empty _

end Runs

/-! ## A directory that is cached and removed -/

/-- The server before its first request. -/
def site_d : Site where
  app := AppState.new disk_d [] (PathBuf.of_text "/".toList) 0
  fs := disk_d
  clock := 0

/-- A request that no call fails for. -/
def request_for (method : Method) (uri_path : String) : Call where
  os := Os.calm
  cwd := []
  clock := ⟨0, 0, 0⟩
  default_hasher := fun _ => 0
  fuel := 0
  req :=
    { method := method
      uri_path := uri_path.toList
      headers := {}
      body := []
      lock_body := none
      proppatch_body := none
      propfind_body := none }

/-- The server after a request. -/
def after (c : Call) (s : Site) : Site where
  app := (served c s).app
  fs := (served c s).machine.fs
  clock := 0

/-- After a PUT of `/d/f` the parent `/d` is cached. -/
def written : Site := after (request_for .PUT "/d/f") site_d

theorem step_after {c : Call} {s : Site} (hs : s.clock = 0) (hcwd : c.cwd = [])
    (hclock : c.clock = ⟨0, 0, 0⟩) : StepIn [] s (.request c) (after c s) := by
  refine ⟨?_, fun c' heq => ?_⟩
  · have hstep := Step.request s c (by rw [hs]; exact Nat.zero_le _) (by rw [hclock])
      (by rw [hclock])
    rw [hclock] at hstep
    exact hstep
  · cases heq
    exact hcwd

/-- Only `/d` is known to a DELETE of `/d/f` then. -/
theorem written_known {k : List Component} (h : Known (request_for .DELETE "/d/f") written k) :
    k = [.rootDir, .normal d_name] := by
  rcases h with ⟨pc, hl⟩ | ⟨t, ht, -, init, n, hnames, rfl⟩
  · have hentries : written.app.canonical_cache.entries
        = [⟨[.rootDir, .normal d_name], [d_name]⟩] := by decide
    have hmem := AList.mem_lookup_iff.mp (Option.mem_def.mpr hl)
    rw [hentries, List.mem_singleton] at hmem
    exact congrArg Sigma.fst hmem
  · have htext : t = "/d/f".toList := by
      rcases ht with ⟨-, rfl⟩ | ⟨hcm, -⟩
      · decide
      · rcases hcm with hcm | hcm <;> cases hcm
    rw [htext, show names_of_text (request_text "/d/f".toList) = [d_name] ++ [f_name] by decide]
      at hnames
    obtain ⟨rfl, -⟩ := List.append_inj' hnames rfl
    decide

theorem written_spares : SparesParents (request_for .DELETE "/d/f") written where
  delete := by
    intro _ p hp _ k pc hk hfound
    have hresolved : Resolve.resolve_existing written.fs [] written.app.root_dir
        written.app.root_canonical "/d/f".toList = some [d_name, f_name] := by decide
    rw [show Resolve.resolve_existing written.fs [] written.app.root_dir
      written.app.root_canonical "/d/f".toList = some p from hp] at hresolved
    cases hresolved
    rw [written_known hk] at hfound ⊢
    have hd : parents written.fs [] [.rootDir, .normal d_name] = .ok [d_name] := by decide
    rw [show parents written.fs [] [.rootDir, .normal d_name] = .ok pc from hfound] at hd
    cases hd
    decide
  transfer := by
    intro is_move text src dest hmethod
    cases is_move <;> cases hmethod

theorem cache_transparent_d :
    Transparent [] (after (request_for .DELETE "/d/f") written) := by
  have hput : SparingIn [] site_d (.request (request_for .PUT "/d/f")) written := by
    refine ⟨step_after rfl rfl rfl, fun c heq _ => ?_⟩
    cases heq
    refine ⟨nofun, fun is_move text src dest hmethod => ?_⟩
    cases is_move <;> cases hmethod
  have hdelete : SparingIn [] written (.request (request_for .DELETE "/d/f"))
      (after (request_for .DELETE "/d/f") written) := by
    refine ⟨step_after rfl rfl rfl, fun c heq _ => ?_⟩
    cases heq
    exact written_spares
  exact cache_transparent (s := site_d) rfl (Lts.Run.cons hput (Lts.Run.single hdelete))

/-- After a PUT of `/d/f` and a DELETE of `/d`, the path `/d/g` has a target all the same. -/
theorem removed_parent_found :
    ¬ ∀ (cwd : Path) (s t : Site) (tr : List Event), s.app.canonical_cache = ∅ →
      Lts.Run (StepIn cwd) s tr t → Transparent cwd t := by
  intro hall
  have hrun : Lts.Run (StepIn []) site_d
      [.request (request_for .PUT "/d/f"), .request (request_for .DELETE "/d")]
      (after (request_for .DELETE "/d") written) :=
    Lts.Run.cons (step_after rfl rfl rfl) (Lts.Run.single (step_after rfl rfl rfl))
  have hsame := hall [] site_d _ _ rfl hrun "/d/g".toList
  revert hsame
  decide

end Rshs.CachedParents
