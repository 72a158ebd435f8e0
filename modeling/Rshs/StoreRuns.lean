/-
The server as a store: every run of requests is a run of commands.

`command` is what a request amounts to in the tree that is served, and `label` says of a
served request whether its command was performed. A step of a serving server is a step of
the hierarchy with that label, whatever the system calls do, and leaves a serving server
behind (`step_refines`). So a run of requests and cleanups is a run of the hierarchy with
their labels (`run_refines`), and the laws of the hierarchy are laws of the server.
-/
import Rshs.StoreTransfers

set_option autoImplicit false

namespace Rshs.StoreRuns

open StdPath Posix Hierarchy Rshs.Webdav Rshs.IfHeader Rshs.Ls Rshs.Locks Rshs.Resolve Rshs.App
open Rshs.Http Rshs.CopyMove Rshs.LockMw Rshs.Server Rshs.Transfer Rshs.Lifetime
open Rshs.CachedParents (StepIn)
open Rshs.Grounds Rshs.ServedRoot Rshs.StoreSteps Rshs.StoreTransfers

/-! ## What a handler leaves of the server's paths -/

/-- At most one path was resolved for a write, in the tree that was found. -/
structure Asked (cwd : Path) (w w' : World) : Prop where
  root_dir : w'.app.root_dir = w.app.root_dir
  root_canonical : w'.app.root_canonical = w.app.root_canonical
  cache : w'.app.canonical_cache = w.app.canonical_cache ∨
    ∃ t, w'.app.canonical_cache = (w.resolve_and_guard cwd t).2.app.canonical_cache

section Asked

variable {os : Os} {cwd : Path} {req : Request} {w w' : World}

theorem Asked.of_app (h : w'.app = w.app) : Asked cwd w w' := by
  refine ⟨?_, ?_, Or.inl ?_⟩
  all_goals rw [h]

theorem Asked.of_guard {t : List Char} (h : w'.app = (w.resolve_and_guard cwd t).2.app) :
    Asked cwd w w' := by
  refine ⟨?_, ?_, Or.inr ⟨t, ?_⟩⟩
  all_goals rw [h]
  all_goals rfl

/-- GET and HEAD leave what the server keeps alone. -/
theorem handle_get_head_app : (handle_get_head os cwd req w).2.app = w.app := by
  unfold handle_get_head
  split
  · rfl
  · split
    · rfl
    · split
      · rfl
      · split
        · rfl
        · rfl

theorem handle_get_head_asked : Asked cwd w (handle_get_head os cwd req w).2 :=
  Asked.of_app handle_get_head_app

theorem handle_put_asked : Asked cwd w (handle_put os cwd req w).2 := by
  apply Asked.of_guard (t := req.uri_path)
  unfold handle_put
  rcases w.resolve_and_guard cwd req.uri_path with ⟨e | target, w'⟩
  · rfl
  · dsimp only
    split
    · rfl
    · split
      · rfl
      · rfl

/-- And so does DELETE. -/
theorem handle_delete_app : (handle_delete os cwd req w).2.app = w.app := by
  unfold handle_delete
  split
  · rfl
  · split
    · rfl
    · split
      · split
        · rfl
        · dsimp only
          split
          · rfl
          · rfl
      · dsimp only
        split
        · rfl
        · rfl

theorem handle_delete_asked : Asked cwd w (handle_delete os cwd req w).2 :=
  Asked.of_app handle_delete_app

theorem handle_mkcol_asked : Asked cwd w (handle_mkcol os cwd req w).2 := by
  unfold handle_mkcol
  split
  · exact Asked.of_app rfl
  · apply Asked.of_guard (t := trim_end_matches '/' req.uri_path)
    dsimp only
    rcases w.resolve_and_guard cwd (trim_end_matches '/' req.uri_path) with ⟨e | target, w'⟩
    · rfl
    · dsimp only
      split
      · rfl
      · split
        · rfl
        · rfl

theorem handle_lock_asked {clock : Clock} {default_hasher : ℕ → UInt64} :
    Asked cwd w (Server.handle_lock os cwd clock default_hasher req w).2 := by
  have hguard : Asked cwd w (w.resolve_and_guard cwd (trim_end_matches '/' req.uri_path)).2 :=
    Asked.of_guard rfl
  unfold Server.handle_lock
  dsimp only
  rcases hr : w.resolve_and_guard cwd (trim_end_matches '/' req.uri_path) with ⟨e | target, w'⟩
  all_goals rw [hr] at hguard
  · exact hguard
  · dsimp only
    split
    · exact hguard
    · split
      · exact ⟨hguard.root_dir, hguard.root_canonical, hguard.cache⟩
      · split
        · exact ⟨hguard.root_dir, hguard.root_canonical, hguard.cache⟩
        · exact ⟨hguard.root_dir, hguard.root_canonical, hguard.cache⟩

theorem handle_proppatch_asked : Asked cwd w (handle_proppatch cwd req w).2 := by
  unfold handle_proppatch
  split
  · exact Asked.of_app rfl
  · split
    · exact Asked.of_app rfl
    · exact ⟨rfl, rfl, Or.inl rfl⟩

theorem handle_propfind_asked : Asked cwd w (Server.handle_propfind cwd req w).2 := by
  unfold Server.handle_propfind
  split
  · exact Asked.of_app rfl
  · split
    · exact Asked.of_app rfl
    · exact Asked.of_app rfl

/-- A transfer moves properties, and nothing else of what the server keeps. -/
theorem transfer_app (os : Os) (fuel : ℕ) (req : Request) (is_move : Bool) (src dest : Path)
    (w : World) :
    ∃ props, (transfer os fuel req is_move src dest w).2.app = { w.app with dead_props := props } := by
  unfold transfer
  dsimp only
  split
  · exact ⟨_, rfl⟩
  · split
    · exact ⟨_, rfl⟩
    · split
      · exact ⟨_, rfl⟩
      · exact ⟨_, rfl⟩
      · cases is_move with
        | true => exact ⟨_, rfl⟩
        | false => exact ⟨_, rfl⟩

theorem do_move_or_copy_asked {fuel : ℕ} {is_move : Bool} :
    Asked cwd w (do_move_or_copy os cwd fuel req is_move w).2 := by
  unfold do_move_or_copy
  split
  · exact Asked.of_app rfl
  · rename_i text _
    have hguard : Asked cwd w (w.resolve_and_guard cwd text).2 := Asked.of_guard rfl
    split
    · exact Asked.of_app rfl
    · rename_i src _
      split
      · exact Asked.of_app rfl
      · split
        · exact Asked.of_app rfl
        · rcases hr : w.resolve_and_guard cwd text with ⟨e | dest, w'⟩
          all_goals rw [hr] at hguard
          · exact hguard
          · obtain ⟨props, happ⟩ := transfer_app os fuel req is_move src dest w'
            dsimp only
            refine ⟨?_, ?_, ?_⟩
            · rw [happ]
              exact hguard.root_dir
            · rw [happ]
              exact hguard.root_canonical
            · rw [happ]
              exact hguard.cache

theorem dispatch_asked {clock : Clock} {default_hasher : ℕ → UInt64} {fuel : ℕ} :
    Asked cwd w (dispatch os cwd clock default_hasher fuel req w).2 := by
  unfold dispatch
  cases req.method with
  | GET => exact handle_get_head_asked
  | HEAD => exact handle_get_head_asked
  | PUT => exact handle_put_asked
  | DELETE => exact handle_delete_asked
  | OPTIONS => exact Asked.of_app rfl
  | PROPFIND => exact handle_propfind_asked
  | MKCOL => exact handle_mkcol_asked
  | COPY => exact do_move_or_copy_asked
  | MOVE => exact do_move_or_copy_asked
  | PROPPATCH => exact handle_proppatch_asked
  | LOCK => exact handle_lock_asked
  | UNLOCK => exact ⟨rfl, rfl, Or.inl rfl⟩
  | PATCH => exact Asked.of_app rfl
  | REPORT => exact Asked.of_app rfl

end Asked

/-! ## The command of a request -/

section Commands

variable (cwd R : Path) (req : Request) (w : World)

/-- The names below the root of what is found for a URL. -/
def found_names (t : List Char) : Option (List Name) :=
  (w.resolve_existing cwd t).map fun p => p.drop R.length

/-- The command of a COPY or MOVE that has a source and a destination. -/
def transfer_command (is_move : Bool) : Option (Command Name (List UInt8)) :=
  match parse_destination req.headers, found_names cwd R w req.uri_path with
  | some text, some p =>
    some (command_of is_move (deep_of is_move (parse_depth req.headers)) p (target_names text))
  | _, _ => none

/-- What a request amounts to in the tree that is served. -/
def command : Option (Command Name (List UInt8)) :=
  match req.method with
  | .PUT => some (.store (target_names req.uri_path) req.body)
  | .MKCOL => some (.make (target_names (trim_end_matches '/' req.uri_path)) .folder)
  | .LOCK => some (.make (target_names (trim_end_matches '/' req.uri_path)) (.file []))
  | .DELETE => (found_names cwd R w req.uri_path).map .remove
  | .COPY => transfer_command cwd R req w false
  | .MOVE => transfer_command cwd R req w true
  | _ => none

/-- The command of a request that is served was performed. A LOCK says by its status only
what became of the lock. -/
def Performed (os : Os) (reply : Option AppResult) (fs fs' : Fs) : Command Name (List UInt8) → Prop
  | .copy _ p q => Transferred os false p q reply
  | .move p q => Transferred os true p q reply
  | .make _ (.file _) => fs' ≠ fs
  | _ => ∃ status, reply = some (.ok status)

end Commands

section Commands

variable {os : Os} {cwd R : Path} {clock : Clock} {default_hasher : ℕ → UInt64} {fuel : ℕ}
  {req : Request} {w : World} {t : Files} {cmd : Command Name (List UInt8)} {s : List Name}

/-- What is found stands where its names say. -/
theorem found_names_eq (h : Serving cwd R w.app w.machine.fs) {text : List Char} {p : Path}
    (hp : w.resolve_existing cwd text = some p) :
    ∃ s, found_names cwd R w text = some s ∧ p = R ++ s := by
  obtain ⟨s, rfl, -⟩ := h.existing hp
  refine ⟨s, ?_, rfl⟩
  unfold found_names
  rw [hp, Option.map_some, List.drop_left]

theorem of_found_names (h : Serving cwd R w.app w.machine.fs) {text : List Char}
    (hs : found_names cwd R w text = some s) (p : Path)
    (hp : w.resolve_existing cwd text = some p) : p = R ++ s := by
  obtain ⟨s', hs', rfl⟩ := found_names_eq h hp
  rw [hs] at hs'
  cases hs'
  rfl

/-- A COPY or MOVE without a source or a destination changes nothing. -/
theorem transfer_nothing {is_move : Bool} (h : transfer_command cwd R req w is_move = none) :
    (do_move_or_copy os cwd fuel req is_move w).2.machine.fs = w.machine.fs := by
  rcases do_move_or_copy_cases os cwd fuel req is_move w with
    hsame | ⟨text, src, dest, htext, hsrc, -⟩
  · rw [hsame.machine]
  · unfold transfer_command found_names at h
    rw [htext, hsrc] at h
    cases h

theorem transfer_acted {is_move : Bool} (h : Serving cwd R w.app w.machine.fs)
    (ht : Shows R w.machine.fs t) (hcmd : transfer_command cwd R req w is_move = some cmd) :
    Acted R t cmd
      (Performed os (do_move_or_copy os cwd fuel req is_move w).1 w.machine.fs
        (do_move_or_copy os cwd fuel req is_move w).2.machine.fs cmd)
      w.machine.fs (do_move_or_copy os cwd fuel req is_move w).2.machine.fs := by
  unfold transfer_command at hcmd
  split at hcmd
  · rename_i text p htext hp
    cases hcmd
    have hdest : ∀ text', parse_destination req.headers = some text' →
        target_names text' = target_names text := by
      intro text' htext'
      rw [htext] at htext'
      cases htext'
      rfl
    have hacted := @do_move_or_copy_acted os cwd R fuel req is_move w p (target_names text) t h ht
      (of_found_names h hp) hdest
    cases is_move with
    | true => exact hacted
    | false => exact hacted
  · cases hcmd

theorem handle_get_head_fs : (handle_get_head os cwd req w).2.machine.fs = w.machine.fs := by
  unfold handle_get_head
  split
  · rfl
  · rename_i p _
    split
    · rfl
    · split
      · rfl
      · rcases open_file_cases os p w.machine with ⟨e, ho⟩ | ⟨loc, c, -, -, ho⟩
        all_goals
          rw [ho]
          rfl

/-- A request without a command leaves the tree alone. -/
theorem dispatch_nothing (hno : command cwd R req w = none) :
    (dispatch os cwd clock default_hasher fuel req w).2.machine.fs = w.machine.fs := by
  unfold command at hno
  unfold dispatch
  -- a DELETE or a transfer without a command names no file; the rest has none at all
  cases hmethod : req.method with
  | GET => exact handle_get_head_fs
  | HEAD => exact handle_get_head_fs
  | DELETE =>
    rw [hmethod] at hno
    unfold found_names at hno
    dsimp only at hno
    rw [Option.map_eq_none_iff, Option.map_eq_none_iff] at hno
    unfold handle_delete
    rw [hno]
    rfl
  | COPY =>
    rw [hmethod] at hno
    exact transfer_nothing hno
  | MOVE =>
    rw [hmethod] at hno
    exact transfer_nothing hno
  | PROPFIND =>
    show (Server.handle_propfind cwd req w).2.machine.fs = w.machine.fs
    unfold Server.handle_propfind
    split
    · rfl
    · split
      · rfl
      · rfl
  | PROPPATCH =>
    show (handle_proppatch cwd req w).2.machine.fs = w.machine.fs
    unfold handle_proppatch
    split
    · rfl
    · split
      · rfl
      · rfl
  | PUT | MKCOL | LOCK =>
    rw [hmethod] at hno
    cases hno
  | OPTIONS => rfl
  | UNLOCK => rfl
  | PATCH => rfl
  | REPORT => rfl

/-- **A request acts as its command**, whatever the system calls do. -/
theorem dispatch_acted (h : Serving cwd R w.app w.machine.fs) (ht : Shows R w.machine.fs t)
    (hcmd : command cwd R req w = some cmd) :
    Acted R t cmd
      (Performed os (dispatch os cwd clock default_hasher fuel req w).1 w.machine.fs
        (dispatch os cwd clock default_hasher fuel req w).2.machine.fs cmd)
      w.machine.fs (dispatch os cwd clock default_hasher fuel req w).2.machine.fs := by
  -- a reply that is always there is a success when its status is one
  have hreply : ∀ (r : AppResult), (∃ status, some r = some (.ok status)) ↔ ∃ status, r = .ok status := by
    intro r
    simp only [Option.some.injEq]
  unfold command at hcmd
  unfold dispatch
  cases hmethod : req.method with
  | PUT =>
    rw [hmethod] at hcmd
    cases hcmd
    have hacted := @handle_put_acted os cwd R req w t h ht
    rw [← hreply] at hacted
    exact hacted
  | MKCOL =>
    rw [hmethod] at hcmd
    cases hcmd
    have hacted := @handle_mkcol_acted os cwd R req w t h ht
    rw [← hreply] at hacted
    exact hacted
  | LOCK =>
    rw [hmethod] at hcmd
    cases hcmd
    exact handle_lock_acted h ht
  | DELETE =>
    rw [hmethod] at hcmd
    dsimp only at hcmd
    rw [Option.map_eq_some_iff] at hcmd
    obtain ⟨s, hs, rfl⟩ := hcmd
    have hacted := @handle_delete_acted os cwd R req w t s h ht (of_found_names h hs)
    rw [← hreply] at hacted
    exact hacted
  | COPY =>
    rw [hmethod] at hcmd
    exact transfer_acted h ht hcmd
  | MOVE =>
    rw [hmethod] at hcmd
    exact transfer_acted h ht hcmd
  | GET | HEAD | OPTIONS | PROPFIND | PROPPATCH | UNLOCK | PATCH | REPORT =>
    rw [hmethod] at hcmd
    cases hcmd

end Commands

/-! ## Served requests -/

section Requests

variable {cwd R : Path} {s : Site} {c : Call} {t : Files} {cmd : Command Name (List UInt8)}

/-- What a handler finds is served as the state between two requests is. -/
theorem found_serving (h : Serving cwd R s.app s.fs) (hcwd : c.cwd = cwd) :
    Serving cwd R (found c s).app (found c s).machine.fs := by
  apply h.with_cache
  unfold enforced
  subst hcwd
  exact lock_enforce_cache (I := Lexical R s.app.root_dir)
    (fun t cache _ hc => h.guard_cache hc t) h.cache

theorem Serving.asked {w w' : World} {P Q : List Name → Prop} (h : Serving cwd R w.app w.machine.fs)
    (ha : Asked cwd w w') (hw : Within R P Q w.machine.fs w'.machine.fs) :
    Serving cwd R w'.app w'.machine.fs where
  ground := hw.ground
  canonical := by
    rw [ha.root_canonical]
    exact h.canonical
  rooted := by
    rw [ha.root_dir]
    exact h.rooted.within h.ground hw
  cache := by
    rw [ha.root_dir]
    rcases ha.cache with hsame | ⟨t, hguard⟩
    · rw [hsame]
      exact h.cache
    · rw [hguard]
      exact h.guard_cache h.cache t

/-- The reply to a request. -/
def reply (c : Call) (s : Site) : Option AppResult :=
  (serve c.os c.cwd c.clock c.default_hasher c.fuel c.req s.app s.fs).reply

/-- What the handler replies and leaves, or the refusal of the middleware. -/
theorem reply_eq (c : Call) (s : Site) :
    ((enforced c s).1.reply = .ok () ∧
        reply c s = (dispatch c.os c.cwd c.clock c.default_hasher c.fuel c.req (found c s)).1 ∧
        served c s = (dispatch c.os c.cwd c.clock c.default_hasher c.fuel c.req (found c s)).2) ∨
      ((∃ status, (enforced c s).1.reply = .error status ∧ reply c s = some (.error status)) ∧
        served c s = found c s) := by
  unfold reply served serve found
  rcases he : enforced c s with ⟨e, cache⟩
  rw [show lock_enforce (resolver c.cwd s.fs s.app) c.clock.enforce s.app.locks s.app.root_canonical
    c.req.method c.req.uri_path c.req.headers s.app.canonical_cache = (e, cache) from he]
  dsimp only
  cases hreply : e.reply with
  | error status => exact Or.inr ⟨⟨status, rfl, rfl⟩, rfl⟩
  | ok u => exact Or.inl ⟨rfl, rfl, rfl⟩

/-- What is refused was not performed. -/
theorem refused {os : Os} {status : StatusCode} {fs : Fs} :
    ¬ Performed os (some (.error status)) fs fs cmd := by
  intro h
  rcases cmd with ⟨p, b⟩ | ⟨p, b | _⟩ | p | ⟨deep, p, q⟩ | ⟨p, q⟩
  · obtain ⟨_, hok⟩ := h
    cases hok
  · exact h rfl
  · obtain ⟨_, hok⟩ := h
    cases hok
  · obtain ⟨_, hok⟩ := h
    cases hok
  · obtain ⟨_, hok⟩ := h.success
    cases hok
  · obtain ⟨_, hok⟩ := h.success
    cases hok

theorem served_nothing (hcwd : c.cwd = cwd) (hno : command cwd R c.req (found c s) = none) :
    (served c s).machine.fs = s.fs := by
  subst hcwd
  rcases reply_eq c s with ⟨-, -, heq⟩ | ⟨-, heq⟩
  · rw [heq]
    exact dispatch_nothing hno
  · rw [heq]
    rfl

theorem served_acted (h : Serving cwd R s.app s.fs) (hcwd : c.cwd = cwd) (ht : Shows R s.fs t)
    (hcmd : command cwd R c.req (found c s) = some cmd) :
    Acted R t cmd (Performed c.os (reply c s) s.fs (served c s).machine.fs cmd) s.fs
      (served c s).machine.fs := by
  subst hcwd
  rcases reply_eq c s with ⟨-, hreply, heq⟩ | ⟨⟨status, -, hreply⟩, heq⟩
  · rw [hreply, heq]
    exact dispatch_acted (found_serving h rfl) ht hcmd
  · rw [hreply, heq]
    exact Acted.nothing h.ground refused

/-- The scope of the command of a request, if it has one. -/
theorem served_within (h : Serving cwd R s.app s.fs) (hcwd : c.cwd = cwd) :
    ∃ P Q : List Name → Prop, Within R P Q s.fs (served c s).machine.fs := by
  cases hcmd : command cwd R c.req (found c s) with
  | none =>
    refine ⟨fun _ => False, fun _ => False, ?_⟩
    exact Within.of_eq h.ground (served_nothing hcwd hcmd)
  | some cmd => exact ⟨_, _, (served_acted h hcwd h.ground.shows hcmd).within⟩

theorem served_serving (h : Serving cwd R s.app s.fs) (hcwd : c.cwd = cwd) :
    Serving cwd R (served c s).app (served c s).machine.fs := by
  have hfound := found_serving h hcwd
  obtain ⟨P, Q, hw⟩ := served_within h hcwd
  subst hcwd
  rcases reply_eq c s with ⟨-, -, heq⟩ | ⟨-, heq⟩
  · rw [heq] at hw ⊢
    exact Serving.asked hfound dispatch_asked hw
  · rw [heq]
    exact hfound

end Requests

/-! ## Runs -/

section Runs

variable {cwd R : Path} {s s' : Site} {e : Event} {tr : List Event} {t : Files}

open Classical in
/-- The command of a request, and whether it was performed. -/
noncomputable def label (cwd R : Path) (c : Call) (s : Site) :
    Option (Command Name (List UInt8) × Bool) :=
  (command cwd R c.req (found c s)).map fun cmd =>
    (cmd, decide (Performed c.os (reply c s) s.fs (served c s).machine.fs cmd))

/-- The state after an event. -/
def next (s : Site) : Event → Site
  | .request c => { app := (served c s).app, fs := (served c s).machine.fs, clock := c.clock.second }
  | .cleanup now =>
    { app := { s.app with locks := Locks.cleanup now s.app.locks }, fs := s.fs, clock := now }

theorem step_next (h : Step s e s') : s' = next s e := by
  cases h
  all_goals rfl

noncomputable def labels_of (cwd R : Path) (s : Site) : Event → List (Command Name (List UInt8) × Bool)
  | .request c => (label cwd R c s).toList
  | .cleanup _ => []

/-- The commands that the events of a run amount to. -/
noncomputable def labels (cwd R : Path) : Site → List Event → List (Command Name (List UInt8) × Bool)
  | _, [] => []
  | s, e :: tr => labels_of cwd R s e ++ labels cwd R (next s e) tr

/-- **A step of the server is a step of the hierarchy**, or none. -/
theorem step_refines (h : Serving cwd R s.app s.fs) (ht : Shows R s.fs t) (hs : StepIn cwd s e s') :
    Serving cwd R s'.app s'.fs ∧ (∀ q, ¬ R <+: q → s'.fs.node q = s.fs.node q) ∧
      ∃ t', Lts.Run Hierarchy.Step t (labels_of cwd R s e) t' ∧ Shows R s'.fs t' := by
  obtain ⟨hstep, hcwd⟩ := hs
  cases hstep with
  | cleanup now hnow => exact ⟨⟨h.ground, h.canonical, h.rooted, h.cache⟩, fun _ _ => rfl, t,
      Lts.Run.nil t, ht⟩
  | request c henforce hfirst hsecond =>
    have hin : c.cwd = cwd := hcwd c rfl
    obtain ⟨P, Q, hw⟩ := served_within h hin
    refine ⟨served_serving h hin, hw.outside, ?_⟩
    classical
    unfold labels_of label
    dsimp only
    cases hcmd : command cwd R c.req (found c s) with
    | none =>
      refine ⟨t, Lts.Run.nil t, ?_⟩
      rw [served_nothing hin hcmd]
      exact ht
    | some cmd =>
      obtain ⟨t', hshows, hdone⟩ := (served_acted h hin ht hcmd).step ht
      exact ⟨t', Lts.Run.single hdone, hshows⟩

/-- **A run of the server is a run of the hierarchy.** In any run of requests and cleanups,
whatever URLs they have and whatever fails, the served tree takes the steps that the
requests amount to, and nothing else has changed. -/
theorem run_refines (h : Serving cwd R s.app s.fs) (ht : Shows R s.fs t)
    (hrun : Lts.Run (StepIn cwd) s tr s') :
    Serving cwd R s'.app s'.fs ∧ (∀ q, ¬ R <+: q → s'.fs.node q = s.fs.node q) ∧
      ∃ t', Lts.Run Hierarchy.Step t (labels cwd R s tr) t' ∧ Shows R s'.fs t' := by
  induction hrun generalizing t with
  | nil s => exact ⟨h, fun _ _ => rfl, t, Lts.Run.nil t, ht⟩
  | @cons s u s' e tr hstep _ ih =>
    obtain ⟨hu, hout, t₁, hrun₁, ht₁⟩ := step_refines h ht hstep
    obtain ⟨hs', hout', t₂, hrun₂, ht₂⟩ := ih hu ht₁
    refine ⟨hs', fun q hq => (hout' q hq).trans (hout q hq), t₂, ?_, ht₂⟩
    unfold labels
    rw [← step_next hstep.1]
    exact hrun₁.append hrun₂

end Runs

end Rshs.StoreRuns
