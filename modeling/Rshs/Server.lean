/-
`server/mod.rs`, with `handle_lock` and `handle_unlock`: the dispatch of a request
to its handler, and the lock middleware in front of it.

`serve` is one request from the middleware to the reply. It keeps the paths the
middleware has lock-checked beside the world the handler leaves, so that what was
checked and what was changed can be compared.
-/
import Rshs.Http
import Rshs.CopyMove
import Rshs.LockMw

set_option autoImplicit false

namespace Rshs.Server

open StdPath Posix Rshs.Webdav Rshs.IfHeader Rshs.Locks Rshs.Resolve Rshs.App Rshs.Http
  Rshs.CopyMove Rshs.LockMw

/-- The clock readings of one request: of the middleware, and of the two critical
sections of a LOCK. -/
structure Clock where
  enforce : ℕ
  first : ℕ
  second : ℕ

section Handlers

variable (os : Os) (cwd : Path) (clock : Clock) (default_hasher : ℕ → UInt64) (fuel : ℕ)
  (req : Request)

/-- The lock timeout of a request: its header's, or the server's, which is none
when it is zero. -/
def lock_timeout (app : AppState) : Option ℕ :=
  match parse_timeout req.headers with
  | some t => some t
  | none => if app.lock_timeout = 0 then none else some app.lock_timeout

/-- What `handle_lock` reads off its request. -/
def lock_request (app : AppState) (events : List XmlEvent) (target : Path) : LockRequest where
  target := target
  timeout := lock_timeout req app
  depth := parse_depth req.headers
  if_tokens := (parse_if_header req.headers).flatMap IfList.positive_tokens
  owner := (parse_lock_body events).1
  lock_scope := (parse_lock_body events).2

/-- `File::create_new`, by what its caller tells apart. -/
def create_new_outcome : IoResult Unit → CreateNew
  | .ok () => .Created
  | .error .AlreadyExists => .AlreadyExists
  | .error _ => .Failed

/-- LOCK, with no other request between its two critical sections. -/
def handle_lock (w : World) : AppResult × World :=
  let request_path := trim_end_matches '/' req.uri_path
  match w.resolve_and_guard cwd request_path with
  | (.error e, w) => (.error (e.status .FORBIDDEN), w)
  | (.ok target, w) =>
    match req.lock_body with
    | none => (.error .BAD_REQUEST, w)
    | some events =>
      let lreq := lock_request req w.app events target
      match first_section default_hasher clock.first lreq w.app.locks with
      | (some reply, locks) => (reply.map Prod.fst, w.with_locks locks)
      | (none, locks) =>
        let w := w.with_locks locks
        match create_new os target w.machine with
        | (r, m) =>
          let w := w.on m
          match ensure_lock_null_resource (create_new_outcome r) with
          | .error status => (.error status, w)
          | .ok created =>
            match second_section default_hasher clock.second lreq created w.app.locks with
            | (reply, locks) => (reply.map Prod.fst, w.with_locks locks)

def handle_unlock (w : World) : AppResult × World :=
  match Locks.handle_unlock req.headers (w.resolve_existing cwd req.uri_path) w.app.locks with
  | (reply, locks) => (reply, w.with_locks locks)

/-- PROPFIND, as far as its status goes. -/
def handle_propfind (w : World) : AppResult × World :=
  match w.resolve_existing cwd req.uri_path with
  | none => (.error .NOT_FOUND, w)
  | some _ =>
    match req.propfind_body with
    | none => (.error .BAD_REQUEST, w)
    | some () => (.ok .MULTI_STATUS, w)

/-- A handler that always replies. -/
def replies (r : AppResult × World) : Option AppResult × World := (some r.1, r.2)

def dispatch (w : World) : Option AppResult × World :=
  match req.method with
  | .GET | .HEAD => replies (handle_get_head os cwd req w)
  | .PUT => replies (handle_put os cwd req w)
  | .DELETE => replies (handle_delete os cwd req w)
  | .OPTIONS => (some (.ok .OK), w)
  | .PROPFIND => replies (handle_propfind cwd req w)
  | .MKCOL => replies (handle_mkcol os cwd req w)
  | .COPY => handle_copy os cwd fuel req w
  | .MOVE => handle_move os cwd fuel req w
  | .PROPPATCH => replies (handle_proppatch cwd req w)
  | .LOCK => replies (handle_lock os cwd clock default_hasher req w)
  | .UNLOCK => replies (handle_unlock cwd req w)
  | .PATCH | .REPORT => (some (.error .NOT_IMPLEMENTED), w)

/-- The resolver the middleware asks, on the cache the server shares. -/
def resolver (fs : Fs) (app : AppState) (request_path : List Char) (cache : Cache) :
    Option Path × Cache :=
  let r := Resolve.resolve_and_guard fs cwd app.root_dir app.root_canonical request_path cache
  (r.1.toOption, r.2)

/-- What is left of a served request: the paths that were lock-checked, the reply,
and the world. -/
structure Served where
  checked : List Path
  reply : Option AppResult
  world : World

/-- One request: `lock_enforce`, and the handler when it lets the request through. -/
def serve (app : AppState) (fs : Fs) : Served :=
  match lock_enforce (resolver cwd fs app) clock.enforce app.locks app.root_canonical req.method
      req.uri_path req.headers app.canonical_cache with
  | (e, cache) =>
    let w := World.start { app with canonical_cache := cache } fs
    match e.reply with
    | .error status => { checked := e.checked, reply := some (.error status), world := w }
    | .ok () =>
      match dispatch os cwd clock default_hasher fuel req w with
      | (reply, w) => { checked := e.checked, reply := reply, world := w }

end Handlers

/-- What the guard leaves is the same for the handler, and for the lock it is asked for. -/
theorem guard_leaves {cwd : Path} {w : World} {t : List Char}
    {p : Except Resolve.ResolveTargetError Path × World} (hr : w.resolve_and_guard cwd t = p) :
    w.Same p.2 ∧ ∀ req events m, lock_request req p.2.app events m = lock_request req w.app events m := by
  rw [← hr]
  exact ⟨World.guard_same cwd w t, fun _ _ _ => rfl⟩

/-- The LOCK of the server is the one of the lock store, whose second section finds what the
first one has left. -/
theorem handle_lock_eq (os : Os) (clock : Clock) (default_hasher : ℕ → UInt64) {cwd : Path}
    {req : Request} {w w' : World} {target : Path} {events : List XmlEvent}
    (hresolve : w.resolve_and_guard cwd (trim_end_matches '/' req.uri_path) = (.ok target, w'))
    (hbody : req.lock_body = some events) :
    let lreq := lock_request req w'.app events target
    let r := Locks.handle_lock default_hasher clock.first clock.second lreq
      (create_new_outcome (create_new os target w'.machine).1) w'.app.locks
      (first_section default_hasher clock.first lreq w'.app.locks).2
    (handle_lock os cwd clock default_hasher req w).1 = r.1.map Prod.fst ∧
      (handle_lock os cwd clock default_hasher req w).2.app.locks = r.2 := by
  intro lreq r
  have hr : r = Locks.handle_lock default_hasher clock.first clock.second lreq
      (create_new_outcome (create_new os target w'.machine).1) w'.app.locks
      (first_section default_hasher clock.first lreq w'.app.locks).2 := rfl
  rw [hr]
  unfold handle_lock Locks.handle_lock
  dsimp only
  rw [hresolve]
  dsimp only
  rw [hbody]
  dsimp only
  rcases first_section default_hasher clock.first lreq w'.app.locks with ⟨_ | reply, left⟩
  · dsimp only [with_locks_machine]
    generalize create_new os target w'.machine = made
    obtain ⟨r, m⟩ := made
    dsimp only
    cases ensure_lock_null_resource (create_new_outcome r) with
    | error status => exact ⟨rfl, rfl⟩
    | ok created => exact ⟨rfl, rfl⟩
  · exact ⟨rfl, rfl⟩

end Rshs.Server
