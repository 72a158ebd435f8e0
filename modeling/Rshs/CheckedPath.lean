/-
Whether the path that is lock-checked is the path that is changed.

The middleware resolves the request path by `resolve_and_guard`; PUT, MKCOL and the
destination of a COPY or MOVE are resolved that way by their handlers too, so the
two agree. DELETE, PROPPATCH and the source of a MOVE are resolved by
`resolve_existing`. `SourceSeen` says when the guard finds that same path: its text
is plain, and the parent it finds has the path as its entry of the last name.

`Aims` lists every path a handler hands to a mutating call with the resolver it
came from; `dispatch_aims` is the inversion of all handlers in its terms. Which of the
existing paths a request can get to change is told by the request, the tree, the cache and
the locks (`Changes`, `serve_changes`), and so is when all that is changed was checked
(`changed_checked_iff`).
-/
import Rshs.Enforcement
import Rshs.Server
import Rshs.SourceKept

set_option autoImplicit false

namespace Rshs.CheckedPath

open StdPath Posix FinMap Rshs.Webdav Rshs.Resolve Rshs.App Rshs.Http Rshs.CopyMove Rshs.LockMw
  Rshs.Server Rshs.IfHeader Rshs.Enforcement Rshs.Transfer Rshs.CopyWalk Rshs.CopyBegun
  Rshs.SourceKept

/-! ## What the handlers aim at -/

/-- The path of an aim. -/
def Aim.path : Aim → Path
  | .existing p => p
  | .guarded p => p

inductive Aims (cwd : Path) (req : Request) (w : World) : Aim → Prop
  | put (m : Path) (hreq : req.method = .PUT)
      (hm : (w.resolve_and_guard cwd req.uri_path).1 = .ok m) : Aims cwd req w (.guarded m)
  | mkcol (m : Path) (hreq : req.method = .MKCOL)
      (hm : (w.resolve_and_guard cwd (trim_end_matches '/' req.uri_path)).1 = .ok m) :
      Aims cwd req w (.guarded m)
  | dest (m : Path) (text : List Char) (hreq : req.method = .COPY ∨ req.method = .MOVE)
      (htext : parse_destination req.headers = some text)
      (hm : (w.resolve_and_guard cwd text).1 = .ok m) : Aims cwd req w (.guarded m)
  | source (m : Path)
      (hreq : req.method = .DELETE ∨ req.method = .PROPPATCH ∨ req.method = .MOVE)
      (hm : w.resolve_existing cwd req.uri_path = some m) : Aims cwd req w (.existing m)

section Handlers

variable {os : Os} {cwd : Path} {req : Request} {w : World} {a : Aim}

theorem handle_get_head_aimed (os : Os) (cwd : Path) (req : Request) (w : World) :
    (handle_get_head os cwd req w).2.aimed = w.aimed := by
  unfold handle_get_head
  split
  · rfl
  · split
    · rfl
    · split
      · rfl
      · split <;> rfl

theorem handle_put_aimed (ha : a ∈ (handle_put os cwd req w).2.aimed) :
    a ∈ w.aimed ∨ ∃ m, a = .guarded m ∧ (w.resolve_and_guard cwd req.uri_path).1 = .ok m := by
  unfold handle_put at ha
  have hw := guard_aimed w cwd req.uri_path
  rcases hr : w.resolve_and_guard cwd req.uri_path with ⟨r, w'⟩
  rw [hr] at ha hw
  cases r with
  | error e =>
    dsimp only at ha hw
    rw [hw] at ha
    exact Or.inl ha
  | ok target =>
    dsimp only at ha hw
    have hmem : a ∈ (w'.aim (.guarded target)).aimed := by
      split at ha
      · exact ha
      · split at ha
        · exact ha
        · exact ha
    rw [aim_aimed, hw, List.mem_append, List.mem_singleton] at hmem
    rcases hmem with hmem | hmem
    · exact Or.inl hmem
    · exact Or.inr ⟨target, hmem, rfl⟩

theorem handle_mkcol_aimed (ha : a ∈ (handle_mkcol os cwd req w).2.aimed) :
    a ∈ w.aimed ∨ ∃ m, a = .guarded m ∧
      (w.resolve_and_guard cwd (trim_end_matches '/' req.uri_path)).1 = .ok m := by
  unfold handle_mkcol at ha
  split at ha
  · exact Or.inl ha
  · dsimp only at ha
    have hw := guard_aimed w cwd (trim_end_matches '/' req.uri_path)
    rcases hr : w.resolve_and_guard cwd (trim_end_matches '/' req.uri_path) with ⟨r, w'⟩
    rw [hr] at ha hw
    cases r with
    | error e =>
      dsimp only at ha hw
      rw [hw] at ha
      exact Or.inl ha
    | ok target =>
      dsimp only at ha hw
      split at ha
      · rw [hw] at ha
        exact Or.inl ha
      · have hmem : a ∈ (w'.aim (.guarded target)).aimed := by
          split at ha
          · exact ha
          · exact ha
        rw [aim_aimed, hw, List.mem_append, List.mem_singleton] at hmem
        rcases hmem with hmem | hmem
        · exact Or.inl hmem
        · exact Or.inr ⟨target, hmem, rfl⟩

theorem handle_delete_aimed (ha : a ∈ (handle_delete os cwd req w).2.aimed) :
    a ∈ w.aimed ∨ ∃ m, a = .existing m ∧ w.resolve_existing cwd req.uri_path = some m := by
  unfold handle_delete at ha
  split at ha
  · exact Or.inl ha
  · rename_i fs_path hr
    have hmem : a ∈ w.aimed ∨ a ∈ (w.aim (.existing fs_path)).aimed := by
      split at ha
      · exact Or.inl ha
      · split at ha
        · split at ha
          · exact Or.inl ha
          · dsimp only at ha
            split at ha
            · exact Or.inr ha
            · exact Or.inr ha
        · dsimp only at ha
          split at ha
          · exact Or.inr ha
          · exact Or.inr ha
    rw [aim_aimed, List.mem_append, List.mem_singleton] at hmem
    rcases hmem with hmem | hmem | hmem
    · exact Or.inl hmem
    · exact Or.inl hmem
    · exact Or.inr ⟨fs_path, hmem, hr⟩

theorem handle_proppatch_aimed (ha : a ∈ (handle_proppatch cwd req w).2.aimed) :
    a ∈ w.aimed ∨ ∃ m, a = .existing m ∧ w.resolve_existing cwd req.uri_path = some m := by
  unfold handle_proppatch at ha
  split at ha
  · exact Or.inl ha
  · rename_i fs_path hr
    split at ha
    · exact Or.inl ha
    · dsimp only at ha
      rw [with_props_aimed, aim_aimed, List.mem_append, List.mem_singleton] at ha
      rcases ha with ha | ha
      · exact Or.inl ha
      · exact Or.inr ⟨fs_path, ha, hr⟩

theorem transfer_aimed {fuel : ℕ} {is_move : Bool} {fs_src dest : Path}
    (ha : a ∈ (transfer os fuel req is_move fs_src dest w).2.aimed) :
    a ∈ w.aimed ∨ a = .guarded dest ∨ (is_move = true ∧ a = .existing fs_src ∧
      ∃ src_type, metadata w.machine.fs fs_src = .ok src_type ∧
        ((metadata w.machine.fs dest).isOk = true → parse_overwrite req.headers = true) ∧
        CanCopy w.machine.fs src_type fs_src dest) := by
  unfold transfer at ha
  dsimp only at ha
  split at ha
  · exact Or.inl ha
  · rename_i hgo
    split at ha
    · exact Or.inl ha
    · rename_i src_type hmeta
      have hover : (metadata w.machine.fs dest).isOk = true → parse_overwrite req.headers = true := by
        intro hex
        rw [hex, Bool.true_and] at hgo
        simpa using hgo
      have hmem : a ∈ (w.aim (.guarded dest)).aimed ∨ (is_move = true ∧ a = .existing fs_src ∧
          ∃ src_type, metadata w.machine.fs fs_src = .ok src_type ∧
            ((metadata w.machine.fs dest).isOk = true → parse_overwrite req.headers = true) ∧
            CanCopy w.machine.fs src_type fs_src dest) := by
        split at ha
        · exact Or.inl ha
        · exact Or.inl ha
        · rename_i m hcopy
          rw [with_props_aimed] at ha
          split at ha
          · rename_i hmove
            rw [on_aimed, aim_aimed, List.mem_append, List.mem_singleton] at ha
            rcases ha with ha | ha
            · exact Or.inl ha
            · -- the copy has succeeded, so it can
              have hdeep : ¬ (is_move = false ∧ parse_depth req.headers = .Zero) := by
                rintro ⟨hno, -⟩
                rw [hmove] at hno
                cases hno
              exact Or.inr ⟨hmove, ha, src_type, hmeta, hover,
                can_copy_of_ok hdeep (clears_may hover) rfl hcopy⟩
          · exact Or.inl ha
      rw [aim_aimed, List.mem_append, List.mem_singleton] at hmem
      rcases hmem with (hmem | hmem) | hmem
      · exact Or.inl hmem
      · exact Or.inr (Or.inl hmem)
      · exact Or.inr (Or.inr hmem)

theorem do_move_or_copy_aimed {fuel : ℕ} {is_move : Bool}
    (ha : a ∈ (do_move_or_copy os cwd fuel req is_move w).2.aimed) :
    a ∈ w.aimed ∨
      (∃ text m, parse_destination req.headers = some text ∧ a = .guarded m ∧
        (w.resolve_and_guard cwd text).1 = .ok m) ∨
      (is_move = true ∧ ∃ m dest src_type text, a = .existing m ∧
        Reaches cwd req w m dest src_type text ∧ CanCopy w.machine.fs src_type m dest) := by
  unfold do_move_or_copy at ha
  -- the handler gives up in turn: no destination, no source, no target, the source itself
  split at ha
  · exact Or.inl ha
  · rename_i text htext
    split at ha
    · exact Or.inl ha
    · rename_i fs_src hsrc
      split at ha
      · exact Or.inl ha
      · rename_i target htarget
        split at ha
        · exact Or.inl ha
        · rename_i hself
          have hspelled : ¬ Spelled w.app.root_dir text fs_src := by
            obtain ⟨hplain, hpath⟩ := resolve_write_target_some_iff.mp htarget
            rw [hpath] at hself
            exact fun hsp => hself ((comps_eq_iff hplain).mpr hsp)
          have hw := guard_aimed w cwd text
          have hmachine := guard_machine w cwd text
          rcases hr : w.resolve_and_guard cwd text with ⟨r, w'⟩
          rw [hr] at ha hw hmachine
          cases r with
          | error e =>
            dsimp only at ha hw
            rw [hw] at ha
            exact Or.inl ha
          | ok dest =>
            dsimp only at ha hw hmachine
            rcases transfer_aimed ha with h | h | ⟨hmove, h, src_type, hmeta, hover, hcan⟩
            · rw [hw] at h
              exact Or.inl h
            · exact Or.inr (Or.inl ⟨text, dest, htext, h, by rw [hr]⟩)
            · rw [hmachine] at hmeta hover hcan
              exact Or.inr (Or.inr ⟨hmove, fs_src, dest, src_type, text, h,
                ⟨htext, hsrc, hspelled, by rw [hr], hmeta, hover⟩, hcan⟩)

theorem handle_lock_aimed (os : Os) (cwd : Path) (clock : Clock) (default_hasher : ℕ → UInt64)
    (req : Request) (w : World) :
    (handle_lock os cwd clock default_hasher req w).2.aimed = w.aimed := by
  unfold handle_lock
  dsimp only
  have hw := guard_aimed w cwd (trim_end_matches '/' req.uri_path)
  rcases hr : w.resolve_and_guard cwd (trim_end_matches '/' req.uri_path) with ⟨r, w'⟩
  rw [hr] at hw
  dsimp only at hw
  rw [← hw]
  split
  · rename_i heq
    cases heq
    rfl
  · rename_i heq
    cases heq
    split
    · rfl
    · split
      · rfl
      · split
        · rfl
        · rfl

/-- **Every path a handler hands to a mutating call**, by the resolver it came from. -/
theorem dispatch_aims {clock : Clock} {default_hasher : ℕ → UInt64} {fuel : ℕ}
    (ha : a ∈ (dispatch os cwd clock default_hasher fuel req w).2.aimed) :
    a ∈ w.aimed ∨ Aims cwd req w a := by
  unfold dispatch at ha
  -- GET, HEAD, LOCK, UNLOCK, PROPFIND and the methods without a handler aim at nothing
  cases hreq : req.method with
  | GET =>
    rw [hreq] at ha
    exact Or.inl (by rw [← handle_get_head_aimed os cwd req w]; exact ha)
  | HEAD =>
    rw [hreq] at ha
    exact Or.inl (by rw [← handle_get_head_aimed os cwd req w]; exact ha)
  | PUT =>
    rw [hreq] at ha
    rcases handle_put_aimed ha with h | ⟨m, rfl, hm⟩
    · exact Or.inl h
    · exact Or.inr (Aims.put m hreq hm)
  | DELETE =>
    rw [hreq] at ha
    rcases handle_delete_aimed ha with h | ⟨m, rfl, hm⟩
    · exact Or.inl h
    · exact Or.inr (Aims.source m (Or.inl hreq) hm)
  | MKCOL =>
    rw [hreq] at ha
    rcases handle_mkcol_aimed ha with h | ⟨m, rfl, hm⟩
    · exact Or.inl h
    · exact Or.inr (Aims.mkcol m hreq hm)
  | COPY =>
    rw [hreq] at ha
    rcases do_move_or_copy_aimed ha with h | ⟨text, m, htext, rfl, hm⟩ | ⟨hmove, -⟩
    · exact Or.inl h
    · exact Or.inr (Aims.dest m text (Or.inl hreq) htext hm)
    · cases hmove
  | MOVE =>
    rw [hreq] at ha
    rcases do_move_or_copy_aimed ha with
      h | ⟨text, m, htext, rfl, hm⟩ | ⟨-, m, dest, src_type, text, rfl, hreach, -⟩
    · exact Or.inl h
    · exact Or.inr (Aims.dest m text (Or.inr hreq) htext hm)
    · exact Or.inr (Aims.source m (Or.inr (Or.inr hreq)) hreach.source)
  | PROPPATCH =>
    rw [hreq] at ha
    rcases handle_proppatch_aimed ha with h | ⟨m, rfl, hm⟩
    · exact Or.inl h
    · exact Or.inr (Aims.source m (Or.inr (Or.inl hreq)) hm)
  | LOCK =>
    rw [hreq] at ha
    exact Or.inl (by
      rw [← handle_lock_aimed os cwd clock default_hasher req w]
      exact ha)
  | UNLOCK =>
    rw [hreq] at ha
    exact Or.inl ha
  | PROPFIND =>
    rw [hreq] at ha
    refine Or.inl ?_
    dsimp only at ha
    unfold replies Server.handle_propfind at ha
    split at ha
    · exact ha
    · split at ha
      · exact ha
      · exact ha
  | OPTIONS =>
    rw [hreq] at ha
    exact Or.inl ha
  | PATCH =>
    rw [hreq] at ha
    exact Or.inl ha
  | REPORT =>
    rw [hreq] at ha
    exact Or.inl ha

end Handlers

/-! ## Checked and changed -/

/-- The guard finds the path `m` for a request: the text, its outer separators off,
is plain, and the directory held for its parent lies under the root and has `m` as
its entry of the last name. -/
def SourceSeen (fs : Fs) (cwd : Path) (app : AppState) (uri_path : List Char) (m : Path) : Prop :=
  Plain (request_text (trim_end_matches '/' uri_path)) ∧
    ∃ init n pc, names_of_text (request_text (trim_end_matches '/' uri_path)) = init ++ [n] ∧
      Held fs cwd app.canonical_cache (below app.root_dir init) pc ∧
      pc.starts_with app.root_canonical = true ∧ m = pc ++ [n]

/-- The destination of a MOVE is `m` itself. -/
def DestSame (fs : Fs) (cwd : Path) (app : AppState) (req : Request) (m : Path) : Prop :=
  req.method = .MOVE ∧ ∃ text, parse_destination req.headers = some text ∧
    (Resolve.resolve_and_guard fs cwd app.root_dir app.root_canonical text
      app.canonical_cache).1 = .ok m

/-- A text the guard accepts ends in no separator. -/
theorem trim_end_of_plain {t : List Char} (h : Plain (request_text t)) :
    trim_end_matches '/' t = t := by
  refine List.rdropWhile_eq_self_iff.mpr (fun hne hlast => ?_)
  have hend : t.getLast hne = '/' := by simpa using hlast
  have ht : t = t.dropLast ++ '/' :: [] := by
    conv => lhs; rw [← List.dropLast_append_getLast hne, hend]
  have hdec : Text.decode t = Text.decode t.dropLast ++ ['/'] := by
    conv => lhs; rw [ht, Text.decode_slash]
    rfl
  -- what is left after the leading separators is a suffix, so it ends the same way
  obtain ⟨pre, hpre⟩ := List.dropWhile_suffix (l := Text.decode t) (fun c => decide (c = '/'))
  have hnot := h.not_nil
  have hdir := h.not_dir
  have hsame : (request_text t).getLast? = (Text.decode t).getLast? := by
    rw [← hpre, List.getLast?_append]
    show (request_text t).getLast? = Option.or (request_text t).getLast? pre.getLast?
    rw [List.getLast?_eq_some_getLast hnot]
    rfl
  rw [hsame, hdec, List.getLast?_concat] at hdir
  exact hdir rfl

/-- The destination text is already trimmed. -/
theorem trim_end_of_destination {headers : HeaderMap} {text : List Char}
    (h : parse_destination headers = some text) : trim_end_matches '/' text = text := by
  unfold parse_destination at h
  obtain ⟨v, -, h⟩ := Option.bind_eq_some_iff.mp h
  obtain ⟨value, -, h⟩ := Option.bind_eq_some_iff.mp h
  obtain ⟨path, -, h⟩ := Option.map_eq_some_iff.mp h
  rw [← h]
  exact List.rdropWhile_idempotent _ _

theorem resolver_some {fs : Fs} {cwd : Path} {app : AppState} {t : List Char} {cache : Cache}
    {m : Path} : (resolver cwd fs app t cache).1 = some m ↔
      (Resolve.resolve_and_guard fs cwd app.root_dir app.root_canonical t cache).1 = .ok m := by
  unfold resolver
  dsimp only
  cases (Resolve.resolve_and_guard fs cwd app.root_dir app.root_canonical t cache).1 with
  | error e => simp [Except.toOption]
  | ok p => simp [Except.toOption]

theorem resolver_stable (fs : Fs) (cwd : Path) (app : AppState) : Stable (resolver cwd fs app) := by
  intro s t cache
  unfold resolver
  dsimp only
  rw [resolve_and_guard_stable]

section Main

variable (os : Os) (cwd : Path) (clock : Clock) (default_hasher : ℕ → UInt64) (fuel : ℕ)
  (req : Request) (app : AppState) (fs : Fs)

/-- In one run every path that is changed has been lock-checked, if and only if the guard
finds every one that comes from `resolve_existing` too, for the request path or for the
destination. -/
theorem serve_checked_iff :
    (∀ a ∈ (serve os cwd clock default_hasher fuel req app fs).world.aimed,
        Aim.path a ∈ (serve os cwd clock default_hasher fuel req app fs).checked) ↔
      ∀ m, .existing m ∈ (serve os cwd clock default_hasher fuel req app fs).world.aimed →
        SourceSeen fs cwd app req.uri_path m ∨ DestSame fs cwd app req m := by
  unfold serve
  rcases he : lock_enforce (resolver cwd fs app) clock.enforce app.locks app.root_canonical
    req.method req.uri_path req.headers app.canonical_cache with ⟨e, cache⟩
  dsimp only
  cases hreply : e.reply with
  | error status => simp [World.start]
  | ok u =>
    dsimp only
    generalize hw : World.start { app with canonical_cache := cache } fs = w
    have haimed : ∀ a ∈ (dispatch os cwd clock default_hasher fuel req w).2.aimed,
        Aims cwd req w a := by
      intro a ha
      rcases dispatch_aims ha with h | h
      · rw [← hw] at h
        cases h
      · exact h
    by_cases hwrite : is_write req.method = true
    · obtain ⟨hchecked, hcache⟩ := lock_enforce_checked (resolver_stable fs cwd app) he hreply hwrite
      -- the handler's guard finds what the middleware's finds
      have hguard : ∀ t m, (w.resolve_and_guard cwd t).1 = .ok m ↔
          (resolver cwd fs app t app.canonical_cache).1 = some m := by
        intro t m
        rw [← hcache t, resolver_some, ← hw]
        rfl
      have hguarded : ∀ m, .guarded m ∈ (dispatch os cwd clock default_hasher fuel req w).2.aimed →
          m ∈ e.checked := by
        intro m hm
        rw [hchecked]
        cases haimed _ hm with
        | put _ hreq hg =>
          have hplain := (resolve_and_guard_ok_iff.mp (resolver_some.mp ((hguard _ _).mp hg))).1
          refine Or.inl ⟨by rw [hreq]; decide, ?_⟩
          rw [trim_end_of_plain hplain]
          exact (hguard _ _).mp hg
        | mkcol _ hreq hg => exact Or.inl ⟨by rw [hreq]; decide, (hguard _ _).mp hg⟩
        | dest _ text hreq htext hg =>
          refine Or.inr ⟨hreq, text, htext, ?_⟩
          rw [trim_end_of_destination htext]
          exact (hguard _ _).mp hg
      have hexisting : ∀ m,
          .existing m ∈ (dispatch os cwd clock default_hasher fuel req w).2.aimed →
          (m ∈ e.checked ↔ SourceSeen fs cwd app req.uri_path m ∨ DestSame fs cwd app req m) := by
        intro m hm
        have hreq : req.method = .DELETE ∨ req.method = .PROPPATCH ∨ req.method = .MOVE := by
          cases haimed _ hm with
          | source _ hreq _ => exact hreq
        have hnc : req.method ≠ .COPY := by
          rcases hreq with h | h | h <;> rw [h] <;> decide
        have hseen : (resolver cwd fs app (trim_end_matches '/' req.uri_path)
            app.canonical_cache).1 = some m ↔ SourceSeen fs cwd app req.uri_path m := by
          rw [resolver_some, resolve_and_guard_ok_iff]
          rfl
        rw [hchecked, hseen]
        refine or_congr (and_iff_right hnc) ?_
        unfold DestSame
        constructor
        · rintro ⟨hcm, text, htext, hg⟩
          rw [trim_end_of_destination htext, resolver_some] at hg
          exact ⟨hcm.resolve_left hnc, text, htext, hg⟩
        · rintro ⟨hmove, text, htext, hg⟩
          refine ⟨Or.inr hmove, text, htext, ?_⟩
          rw [trim_end_of_destination htext, resolver_some]
          exact hg
      constructor
      · intro h m hm
        exact (hexisting m hm).mp (h _ hm)
      · intro h a ha
        cases a with
        | existing m => exact (hexisting m ha).mpr (h m ha)
        | guarded m => exact hguarded m ha
    · -- nothing is changed by a method the middleware does not look at
      have hnone : ∀ a, a ∉ (dispatch os cwd clock default_hasher fuel req w).2.aimed := by
        intro a ha
        apply hwrite
        cases haimed a ha with
        | put _ hreq _ => rw [hreq]; decide
        | mkcol _ hreq _ => rw [hreq]; decide
        | dest _ _ hreq _ _ => rcases hreq with h | h <;> rw [h] <;> decide
        | source _ hreq _ => rcases hreq with h | h | h <;> rw [h] <;> decide
      constructor
      · intro _ m hm
        exact absurd hm (hnone _)
      · intro _ a ha
        exact absurd ha (hnone _)

end Main

/-! ## The paths a request can get to change -/

section Changes

variable (cwd : Path) (clock : Clock) (req : Request) (app : AppState) (fs : Fs)

/-- The header stops a write to the path `p`, which is found for the text `t`. -/
def Stopped (t : List Char) (p : Path) : Prop :=
  ∃ q, Evaluated clock.enforce app.locks app.root_canonical p q ∧
    Stops clock.enforce app.locks (parse_if_header req.headers) (trim_end_matches '/' t) q

/-- The write is let in: its header is none that is answered with 412, and does not stop it
at the path the guard finds for the request, nor at the one for its destination. -/
structure LetIn : Prop where
  header : ¬ NoTokenAtAll req.headers
  source : req.method ≠ .COPY → ∀ p, SourceSeen fs cwd app req.uri_path p →
    ¬ Stopped clock req app req.uri_path p
  destination : req.method = .COPY ∨ req.method = .MOVE → ∀ text p,
    parse_destination req.headers = some text →
    (Resolve.resolve_and_guard fs cwd app.root_dir app.root_canonical text app.canonical_cache).1
      = .ok p → ¬ Stopped clock req app text p

/-- The handler goes on to change the existing path `m`. -/
def Goes (m : Path) : Prop :=
  match req.method with
  | .DELETE => ¬ (fs.node m = some .dir ∧ m.comps = app.root_canonical.comps)
  | .PROPPATCH => req.proppatch_body ≠ none
  | .MOVE => ∃ dest src_type text, Reaches cwd req (World.start app fs) m dest src_type text ∧
      CanCopy fs src_type m dest
  | _ => False

/-- The request can get to change the existing path `m`: stated on the request, the tree, the
cache and the locks. -/
structure Changes (m : Path) : Prop where
  found : Resolve.resolve_existing fs cwd app.root_dir app.root_canonical req.uri_path = some m
  let_in : LetIn cwd clock req app fs
  goes : Goes cwd req app fs m

/-- Whatever the system calls do, every path that is changed has been lock-checked. -/
def Checked (default_hasher : ℕ → UInt64) : Prop :=
  ∀ os fuel, ∀ a ∈ (serve os cwd clock default_hasher fuel req app fs).world.aimed,
    Aim.path a ∈ (serve os cwd clock default_hasher fuel req app fs).checked

variable {cwd clock req app fs} {w : World} {m : Path}

/-- A DELETE goes on unless it is for the root directory. -/
theorem handle_delete_changes (os : Os) (hw : w.aimed = []) :
    .existing m ∈ (handle_delete os cwd req w).2.aimed ↔
      w.resolve_existing cwd req.uri_path = some m ∧
        ¬ (w.machine.fs.node m = some .dir ∧ m.comps = w.app.root_canonical.comps) := by
  unfold handle_delete
  cases hr : w.resolve_existing cwd req.uri_path with
  | none => simp [hw]
  | some p =>
    dsimp only
    obtain ⟨x, hx, hlink⟩ := resolve_existing_real hr
    rw [metadata_real hx hlink]
    dsimp only
    have hmem : ∀ m', .existing m ∈ ((w.aim (.existing p)).on m').aimed ↔ p = m := by
      intro m'
      rw [on_aimed, aim_aimed, hw, List.nil_append, List.mem_singleton, Aim.existing.injEq, eq_comm]
    -- what stands there is a directory, the root or another one, or a file
    by_cases hdir : x.file_type = .dir
    · have hnode : w.machine.fs.node p = some .dir := by
        rw [hx, Option.some.injEq]
        cases x with
        | dir => rfl
        | file c => cases hdir
        | symlink t => cases hdir
      rw [if_pos hdir]
      by_cases hroot : p.comps = w.app.root_canonical.comps
      · rw [if_pos hroot, hw]
        constructor
        · exact fun h => nomatch h
        · rintro ⟨heq, hnot⟩
          cases heq
          exact absurd ⟨hnode, hroot⟩ hnot
      · rw [if_neg hroot]
        have hgoes : p = m ↔ some p = some m ∧
            ¬ (w.machine.fs.node m = some .dir ∧ m.comps = w.app.root_canonical.comps) := by
          rw [Option.some.injEq]
          refine ⟨fun h => ⟨h, fun hand => hroot (by rw [h]; exact hand.2)⟩, fun h => h.1⟩
        rw [← hgoes]
        rcases remove_dir_all os p (w.aim (.existing p)).machine with ⟨e | u, m'⟩
        · exact hmem m'
        · exact hmem m'
    · rw [if_neg hdir]
      have hgoes : p = m ↔ some p = some m ∧
          ¬ (w.machine.fs.node m = some .dir ∧ m.comps = w.app.root_canonical.comps) := by
        rw [Option.some.injEq]
        refine ⟨fun h => ⟨h, fun hand => hdir ?_⟩, fun h => h.1⟩
        rw [← h, hx] at hand
        rw [Option.some.inj hand.1]
        rfl
      rw [← hgoes]
      rcases remove_file os p (w.aim (.existing p)).machine with ⟨e | u, m'⟩
      · exact hmem m'
      · exact hmem m'

theorem handle_proppatch_changes (hw : w.aimed = []) :
    .existing m ∈ (handle_proppatch cwd req w).2.aimed ↔
      w.resolve_existing cwd req.uri_path = some m ∧ req.proppatch_body ≠ none := by
  unfold handle_proppatch
  cases hr : w.resolve_existing cwd req.uri_path with
  | none => simp [hw]
  | some p =>
    dsimp only
    cases hbody : req.proppatch_body with
    | none => simp [hw]
    | some op =>
      dsimp only
      rw [with_props_aimed, aim_aimed, hw]
      simp [eq_comm]

/-- **A MOVE goes on** to its source in some system, exactly if its copy can succeed. -/
theorem handle_move_changes (hw : w.aimed = []) :
    (∃ os fuel, .existing m ∈ (do_move_or_copy os cwd fuel req true w).2.aimed) ↔
      ∃ dest src_type text, Reaches cwd req w m dest src_type text ∧
        CanCopy w.machine.fs src_type m dest := by
  constructor
  · rintro ⟨os, fuel, ha⟩
    rcases do_move_or_copy_aimed ha with h | ⟨text, p, -, h, -⟩ | ⟨-, p, dest, src_type, text, h, hgoes⟩
    · rw [hw] at h
      cases h
    · cases h
    · cases h
      exact ⟨dest, src_type, text, hgoes⟩
  · rintro ⟨dest, src_type, text, hreach, hcan⟩
    have hdeep : ¬ (true = false ∧ parse_depth req.headers = .Zero) := fun h => nomatch h.1
    obtain ⟨order, hperm, fuel, existed, m₁, m₂, hclear, hcopy⟩ :=
      ok_of_can_copy (m := w.machine) true hdeep (clears_may hreach.overwrite) hcan
    refine ⟨listing order hperm (fun _ => false) 0, fuel, ?_⟩
    have hgo : ¬ ((metadata w.machine.fs dest).isOk && !parse_overwrite req.headers) = true := by
      intro h
      rw [Bool.and_eq_true, Bool.not_eq_true'] at h
      rw [hreach.overwrite h.1] at h
      cases h.2
    rw [guard_misses hreach.destination hreach.source hreach.guarded hreach.not_spelled]
    unfold transfer
    dsimp only
    rw [guard_machine, if_neg hgo, hreach.type]
    dsimp only
    rw [aim_machine, guard_machine, hclear]
    dsimp only
    rw [hcopy]
    dsimp only
    rw [if_pos rfl, with_props_aimed, on_aimed, aim_aimed]
    exact List.mem_append_right _ List.mem_cons_self

/-- Nothing but these three changes an existing path. -/
theorem dispatch_changes (default_hasher : ℕ → UInt64) (hw : w.aimed = []) :
    (∃ os fuel, .existing m ∈ (dispatch os cwd clock default_hasher fuel req w).2.aimed) ↔
      match req.method with
      | .DELETE => w.resolve_existing cwd req.uri_path = some m ∧
          ¬ (w.machine.fs.node m = some .dir ∧ m.comps = w.app.root_canonical.comps)
      | .PROPPATCH => w.resolve_existing cwd req.uri_path = some m ∧ req.proppatch_body ≠ none
      | .MOVE => ∃ dest src_type text, Reaches cwd req w m dest src_type text ∧
          CanCopy w.machine.fs src_type m dest
      | _ => False := by
  -- no other method hands an existing path to a call
  have hother : req.method ≠ .DELETE → req.method ≠ .PROPPATCH → req.method ≠ .MOVE →
      ¬ ∃ os fuel, .existing m ∈ (dispatch os cwd clock default_hasher fuel req w).2.aimed := by
    rintro hd hp hm ⟨os, fuel, ha⟩
    rcases dispatch_aims ha with h | h
    · rw [hw] at h
      cases h
    · cases h with
      | source _ hreq _ => rcases hreq with h | h | h <;> contradiction
  cases hreq : req.method with
  | DELETE =>
    dsimp only
    constructor
    · rintro ⟨os, fuel, ha⟩
      unfold dispatch at ha
      rw [hreq] at ha
      exact (handle_delete_changes os hw).mp ha
    · intro h
      -- one system is enough: in the calm one the call is reached
      refine ⟨Os.calm, 0, ?_⟩
      unfold dispatch
      rw [hreq]
      exact (handle_delete_changes Os.calm hw).mpr h
  | PROPPATCH =>
    dsimp only
    constructor
    · rintro ⟨os, fuel, ha⟩
      unfold dispatch at ha
      rw [hreq] at ha
      exact (handle_proppatch_changes hw).mp ha
    · intro h
      refine ⟨Os.calm, 0, ?_⟩
      unfold dispatch
      rw [hreq]
      exact (handle_proppatch_changes hw).mpr h
  | MOVE =>
    dsimp only
    rw [← handle_move_changes hw]
    unfold dispatch
    rw [hreq]
    exact Iff.rfl
  | GET | HEAD | PUT | OPTIONS | PROPFIND | MKCOL | COPY | LOCK | UNLOCK | PATCH | REPORT =>
    have hnone := hother (by rw [hreq]; decide) (by rw [hreq]; decide) (by rw [hreq]; decide)
    exact iff_of_false hnone not_false

/-- The middleware lets a write through when its header and the locks do. -/
theorem let_in_iff (hwrite : is_write req.method = true) :
    (lock_enforce (resolver cwd fs app) clock.enforce app.locks app.root_canonical req.method
        req.uri_path req.headers app.canonical_cache).1.reply = .ok () ↔
      LetIn cwd clock req app fs := by
  have hstops : ∀ t p, is_path_locked clock.enforce app.locks p (parse_if_header req.headers)
      app.root_canonical (trim_end_matches '/' t) = false ↔ ¬ Stopped clock req app t p := by
    intro t p
    rw [← Bool.not_eq_true, is_path_locked_stops]
    exact Iff.rfl
  have hheader : precondition_failed req.headers = false ↔ ¬ NoTokenAtAll req.headers := by
    rw [← Bool.not_eq_true, precondition_failed_iff]
  have hseen : ∀ p, (resolver cwd fs app (trim_end_matches '/' req.uri_path)
      app.canonical_cache).1 = some p ↔ SourceSeen fs cwd app req.uri_path p := by
    intro p
    rw [resolver_some, resolve_and_guard_ok_iff]
    exact Iff.rfl
  rw [lock_enforce_reply (resolver_stable fs cwd app) hwrite, hheader]
  simp only [hseen, hstops]
  constructor
  · rintro ⟨h, hsource, hdest⟩
    refine ⟨h, hsource, fun hcm text p htext hp => ?_⟩
    have hgo := hdest hcm text p htext
    rw [trim_end_of_destination htext, resolver_some] at hgo
    exact hgo hp
  · rintro ⟨h, hsource, hdest⟩
    refine ⟨h, hsource, fun hcm text p htext hp => ?_⟩
    rw [trim_end_of_destination htext, resolver_some] at hp
    exact hdest hcm text p htext hp

/-- **What a request can get to change** of the existing paths. -/
theorem serve_changes (default_hasher : ℕ → UInt64) :
    (∃ os fuel, .existing m ∈ (serve os cwd clock default_hasher fuel req app fs).world.aimed) ↔
      Changes cwd clock req app fs m := by
  by_cases hwrite : is_write req.method = true
  · rcases he : lock_enforce (resolver cwd fs app) clock.enforce app.locks app.root_canonical
      req.method req.uri_path req.headers app.canonical_cache with ⟨e, cache⟩
    have hlet := @let_in_iff cwd clock req app fs hwrite
    rw [he] at hlet
    dsimp only at hlet
    cases hreply : e.reply with
    | error status =>
      rw [hreply] at hlet
      refine iff_of_false ?_ fun h => nomatch hlet.mpr h.let_in
      rintro ⟨os, fuel, ha⟩
      unfold serve at ha
      rw [he] at ha
      dsimp only at ha
      rw [hreply] at ha
      cases ha
    | ok u =>
      have hin := hlet.mp hreply
      obtain ⟨-, hcache⟩ := lock_enforce_checked (resolver_stable fs cwd app) he hreply hwrite
      have hworld : ∀ os fuel, (serve os cwd clock default_hasher fuel req app fs).world =
          (dispatch os cwd clock default_hasher fuel req
            (World.start { app with canonical_cache := cache } fs)).2 := by
        intro os fuel
        unfold serve
        rw [he]
        dsimp only
        rw [hreply]
      simp only [hworld]
      rw [dispatch_changes default_hasher rfl]
      -- the handler's guard finds what the middleware's finds
      have hguard : ∀ t p,
          ((World.start { app with canonical_cache := cache } fs).resolve_and_guard cwd t).1 = .ok p ↔
            ((World.start app fs).resolve_and_guard cwd t).1 = .ok p := by
        intro t p
        have hsame := hcache t
        have hleft := @resolver_some fs cwd app t cache p
        rw [hsame, resolver_some] at hleft
        exact hleft.symm
      have hreach : ∀ dest src_type text,
          Reaches cwd req (World.start { app with canonical_cache := cache } fs) m dest src_type text ↔
            Reaches cwd req (World.start app fs) m dest src_type text := fun dest src_type text =>
        ⟨fun h => ⟨h.destination, h.source, h.not_spelled, (hguard _ _).mp h.guarded, h.type,
            h.overwrite⟩,
          fun h => ⟨h.destination, h.source, h.not_spelled, (hguard _ _).mpr h.guarded, h.type,
            h.overwrite⟩⟩
      constructor
      · intro h
        cases hreq : req.method with
        | DELETE =>
          rw [hreq] at h
          exact ⟨h.1, hin, by unfold Goes; rw [hreq]; exact h.2⟩
        | PROPPATCH =>
          rw [hreq] at h
          exact ⟨h.1, hin, by unfold Goes; rw [hreq]; exact h.2⟩
        | MOVE =>
          rw [hreq] at h
          obtain ⟨dest, src_type, text, hr, hcan⟩ := h
          refine ⟨hr.source, hin, ?_⟩
          unfold Goes
          rw [hreq]
          exact ⟨dest, src_type, text, (hreach _ _ _).mp hr, hcan⟩
        | GET | HEAD | PUT | OPTIONS | PROPFIND | MKCOL | COPY | LOCK | UNLOCK | PATCH | REPORT =>
          rw [hreq] at h
          exact h.elim
      · rintro ⟨hfound, -, hgoes⟩
        unfold Goes at hgoes
        cases hreq : req.method with
        | DELETE =>
          rw [hreq] at hgoes
          exact ⟨hfound, hgoes⟩
        | PROPPATCH =>
          rw [hreq] at hgoes
          exact ⟨hfound, hgoes⟩
        | MOVE =>
          rw [hreq] at hgoes
          obtain ⟨dest, src_type, text, hr, hcan⟩ := hgoes
          exact ⟨dest, src_type, text, (hreach _ _ _).mpr hr, hcan⟩
        | GET | HEAD | PUT | OPTIONS | PROPFIND | MKCOL | COPY | LOCK | UNLOCK | PATCH | REPORT =>
          rw [hreq] at hgoes
          exact hgoes.elim
  · -- a request that is no write changes nothing that exists
    have hnot : ∀ method : Method, is_write req.method = false → req.method = method →
        is_write method = false := fun method h heq => by rw [← heq]; exact h
    rw [Bool.not_eq_true] at hwrite
    refine iff_of_false ?_ ?_
    · rintro ⟨os, fuel, ha⟩
      unfold serve at ha
      rcases he : lock_enforce (resolver cwd fs app) clock.enforce app.locks app.root_canonical
        req.method req.uri_path req.headers app.canonical_cache with ⟨e, cache⟩
      rw [he] at ha
      dsimp only at ha
      cases hreply : e.reply with
      | error status =>
        rw [hreply] at ha
        cases ha
      | ok u =>
        rw [hreply] at ha
        rcases dispatch_aims ha with h | h
        · cases h
        · cases h with
          | source _ hreq _ =>
            rcases hreq with h | h | h
            · exact absurd (hnot _ hwrite h) (by decide)
            · exact absurd (hnot _ hwrite h) (by decide)
            · exact absurd (hnot _ hwrite h) (by decide)
    · rintro ⟨-, -, hgoes⟩
      unfold Goes at hgoes
      split at hgoes
      · rename_i h
        exact absurd (hnot _ hwrite h) (by decide)
      · rename_i h
        exact absurd (hnot _ hwrite h) (by decide)
      · rename_i h
        exact absurd (hnot _ hwrite h) (by decide)
      · exact hgoes

/-- **The path that is checked is the path that is changed, exactly when the guard
finds the source.** Whatever the system calls do, every path the request's handler hands to a
mutating call has been lock-checked, if and only if the guard finds every existing path that
the request can get to change, for the request path or for the destination. -/
theorem changed_checked_iff (default_hasher : ℕ → UInt64) :
    Checked cwd clock req app fs default_hasher ↔
      ∀ m, Changes cwd clock req app fs m →
        SourceSeen fs cwd app req.uri_path m ∨ DestSame fs cwd app req m := by
  constructor
  · intro h m hm
    obtain ⟨os, fuel, ha⟩ := (serve_changes default_hasher).mpr hm
    exact (serve_checked_iff os cwd clock default_hasher fuel req app fs).mp (h os fuel) m ha
  · intro h os fuel
    rw [serve_checked_iff]
    exact fun m hm => h m ((serve_changes default_hasher).mp ⟨os, fuel, hm⟩)

end Changes

/-- A DELETE of `/./a` on a disk with one file `/a` that is locked. -/
def dot_request : Request where
  method := .DELETE
  uri_path := "/./a".toList
  headers := {}
  body := []
  lock_body := none
  proppatch_body := none
  propfind_body := none

def file_a : Path := [a_name]

def disk_a : Fs := Fs.empty.set file_a (.file [1])

def locked_a : AppState :=
  { AppState.new disk_a [] (PathBuf.of_text "/".toList) 0 with
    locks := AList.insert file_a
      [{ scope := .Exclusive, token := "t", owner := none, created := 0, timeout := none,
         depth := .Zero }] ∅ }

/-- The file is removed although its lock was never looked at. -/
theorem dot_segment_unchecked :
    ¬ ∀ a ∈ (serve Os.calm [] ⟨0, 0, 0⟩ (fun _ => 0) 0 dot_request locked_a disk_a).world.aimed,
        Aim.path a ∈
          (serve Os.calm [] ⟨0, 0, 0⟩ (fun _ => 0) 0 dot_request locked_a disk_a).checked := by
  decide

end Rshs.CheckedPath
