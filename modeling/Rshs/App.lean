/-
`server/mod.rs`: the state every handler shares, and the request a handler reads.

`AppState` is what the server keeps between requests. While a request is served the
handler runs in a `World`: the shared state, the machine its system calls run on,
and the paths it has handed to a mutating call so far (`aimed`), each with the
resolver it came from.
-/
import Rshs.Locks
import Rshs.Resolve
import Rshs.Syscalls

set_option autoImplicit false

namespace Rshs.App

open StdPath Posix Rshs.Webdav Rshs.Resolve

/-! ## The shared state -/

/-- What the handlers share: the root as it is given and as it is resolved, the stores, and the
lock timeout of the server. -/
structure AppState where
  root_dir : PathBuf
  root_canonical : PathBuf
  dead_props : DeadPropertyStore
  locks : LockStore
  canonical_cache : Cache
  lock_timeout : ℕ

/-- `AppState::with_tailscale_auth`, for a process in the directory `cwd`. -/
def AppState.new (fs : Fs) (cwd : Path) (root : PathBuf) (lock_timeout : ℕ) : AppState where
  root_dir := root
  root_canonical :=
    match canonicalize fs cwd root with
    | .ok p => p.to_buf
    | .error _ => root
  dead_props := ∅
  locks := ∅
  canonical_cache := ∅
  lock_timeout := lock_timeout

/-- A request, with its body as the handler of its method reads it: the bytes of a
PUT, the reader's events of a LOCK, the parsed actions of a PROPPATCH, and whether
the body of a PROPFIND parses. -/
structure Request where
  method : Method
  uri_path : List Char
  headers : HeaderMap
  body : List UInt8
  lock_body : Option (List Locks.XmlEvent)
  proppatch_body : Option PropPatchOp
  propfind_body : Option Unit

/-- What a handler returns: a response or an error, by its status. -/
abbrev AppResult := Except StatusCode StatusCode

/-- The status a response carries, whichever side of `AppResult` it is on. -/
def response_status : AppResult → StatusCode
  | .ok status => status
  | .error status => status

/-! ## The world of a request -/

/-- A path handed to a mutating call: from `resolve_existing` or from
`resolve_and_guard`. -/
inductive Aim
  | existing (p : Path)
  | guarded (p : Path)
deriving DecidableEq

/-- The shared state, the machine, and the paths that mutating calls were aimed at. -/
structure World where
  app : AppState
  machine : Machine
  aimed : List Aim

/-- The world a request finds. -/
def World.start (app : AppState) (fs : Fs) : World where
  app := app
  machine := { fs := fs, calls := 0, log := [] }
  aimed := []

/-- A path is handed to a mutating call. -/
def World.aim (w : World) (a : Aim) : World := { w with aimed := w.aimed ++ [a] }

/-- The machine after some calls. -/
def World.on (w : World) (m : Machine) : World := { w with machine := m }

/-- The lock store is replaced, -/
def World.with_locks (w : World) (locks : LockStore) : World :=
  { w with app := { w.app with locks := locks } }

/-- or that of the dead properties. -/
def World.with_props (w : World) (dead_props : DeadPropertyStore) : World :=
  { w with app := { w.app with dead_props := dead_props } }

/-- Resolution of a path that has to exist. -/
def World.resolve_existing (cwd : Path) (w : World) (request_path : List Char) : Option Path :=
  Resolve.resolve_existing w.machine.fs cwd w.app.root_dir w.app.root_canonical request_path

/-- Resolution of a path that may be made. The cache may grow. -/
def World.resolve_and_guard (cwd : Path) (w : World) (request_path : List Char) :
    Except ResolveTargetError Path × World :=
  let r := Resolve.resolve_and_guard w.machine.fs cwd w.app.root_dir w.app.root_canonical
    request_path w.app.canonical_cache
  (r.1, { w with app := { w.app with canonical_cache := r.2 } })

/-- The world with nothing but its cache and its aims changed. -/
structure World.Same (w w' : World) : Prop where
  machine : w'.machine = w.machine
  dead_props : w'.app.dead_props = w.app.dead_props
  locks : w'.app.locks = w.app.locks

/-- Nothing has changed. -/
theorem World.Same.refl (w : World) : w.Same w := ⟨rfl, rfl, rfl⟩

/-- The guard changes the cache only. -/
theorem World.guard_same (cwd : Path) (w : World) (t : List Char) :
    w.Same (w.resolve_and_guard cwd t).2 := ⟨rfl, rfl, rfl⟩

/-! ## What an operation leaves alone -/

section Simp

variable (w : World)

@[simp] theorem aim_app (a : Aim) : (w.aim a).app = w.app := rfl
@[simp] theorem aim_machine (a : Aim) : (w.aim a).machine = w.machine := rfl
@[simp] theorem aim_aimed (a : Aim) : (w.aim a).aimed = w.aimed ++ [a] := rfl
@[simp] theorem on_app (m : Machine) : (w.on m).app = w.app := rfl
@[simp] theorem on_machine (m : Machine) : (w.on m).machine = m := rfl
@[simp] theorem on_aimed (m : Machine) : (w.on m).aimed = w.aimed := rfl
@[simp] theorem with_locks_machine (l : LockStore) : (w.with_locks l).machine = w.machine := rfl
@[simp] theorem with_locks_aimed (l : LockStore) : (w.with_locks l).aimed = w.aimed := rfl
@[simp] theorem with_locks_locks (l : LockStore) : (w.with_locks l).app.locks = l := rfl
@[simp] theorem with_props_machine (d : DeadPropertyStore) :
    (w.with_props d).machine = w.machine := rfl
@[simp] theorem with_props_aimed (d : DeadPropertyStore) :
    (w.with_props d).aimed = w.aimed := rfl
@[simp] theorem guard_machine (cwd : Path) (t : List Char) :
    (w.resolve_and_guard cwd t).2.machine = w.machine := rfl
@[simp] theorem guard_aimed (cwd : Path) (t : List Char) :
    (w.resolve_and_guard cwd t).2.aimed = w.aimed := rfl

end Simp

end Rshs.App
