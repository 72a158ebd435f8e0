/-
`handlers/http.rs` and the handlers of `handlers/webdav.rs` that touch one path:
GET and HEAD, PUT, DELETE, MKCOL, PROPPATCH.

The directory listing of a GET and the property texts of a PROPPATCH answer are not
built here: a handler's reply is its status.
-/
import Rshs.App

set_option autoImplicit false

namespace Rshs.Http

open StdPath Posix FinMap Rshs.Webdav Rshs.Resolve Rshs.App

section Handlers

variable (os : Os) (cwd : Path) (req : Request)

/-- `handle_get_head`, up to the status of its answer. -/
def handle_get_head (w : World) : AppResult × World :=
  match w.resolve_existing cwd req.uri_path with
  | none => (.error .NOT_FOUND, w)
  | some fs_path =>
    match metadata w.machine.fs fs_path with
    | .error _ => (.error .NOT_FOUND, w)
    | .ok file_type =>
      if file_type = .dir ∨ req.method = .HEAD then (.ok .OK, w)
      else
        match open_file os fs_path w.machine with
        | (.ok _, m) => (.ok .OK, w.on m)
        | (.error _, m) => (.error .INTERNAL_SERVER_ERROR, w.on m)

/-- The body is streamed into the opened file; a transfer that fails leaves a part
of it there. -/
def handle_put (w : World) : AppResult × World :=
  match w.resolve_and_guard cwd req.uri_path with
  | (.error e, w) => (.error (e.status .BAD_REQUEST), w)
  | (.ok target, w) =>
    let existed := (metadata w.machine.fs target).isOk
    let w := w.aim (.guarded target)
    match create os target w.machine with
    | (.error _, m) => (.error .INTERNAL_SERVER_ERROR, w.on m)
    | (.ok file, m) =>
      match write os file req.body m with
      | (.error _, m) => (.error .INTERNAL_SERVER_ERROR, w.on m)
      | (.ok (), m) => (.ok (if existed then .OK else .CREATED), w.on m)

/-- `handle_delete`. -/
def handle_delete (w : World) : AppResult × World :=
  match w.resolve_existing cwd req.uri_path with
  | none => (.error .NOT_FOUND, w)
  | some fs_path =>
    match metadata w.machine.fs fs_path with
    | .error _ => (.error .NOT_FOUND, w)
    | .ok file_type =>
      if file_type = .dir then
        if fs_path.comps = w.app.root_canonical.comps then (.error .BAD_REQUEST, w)
        else
          let w := w.aim (.existing fs_path)
          match remove_dir_all os fs_path w.machine with
          | (.ok (), m) => (.ok .NO_CONTENT, w.on m)
          | (.error _, m) => (.error .INTERNAL_SERVER_ERROR, w.on m)
      else
        let w := w.aim (.existing fs_path)
        match remove_file os fs_path w.machine with
        | (.ok (), m) => (.ok .NO_CONTENT, w.on m)
        | (.error _, m) => (.error .INTERNAL_SERVER_ERROR, w.on m)

/-- Whether a `Content-Length` header announces a body. -/
def has_body (headers : HeaderMap) : Bool :=
  match headers.content_length.bind HeaderValue.to_str with
  | none => false
  | some v => v ≠ ['0']

/-- `handle_mkcol`. -/
def handle_mkcol (w : World) : AppResult × World :=
  if has_body req.headers then (.error .UNSUPPORTED_MEDIA_TYPE, w)
  else
    let request_path := trim_end_matches '/' req.uri_path
    match w.resolve_and_guard cwd request_path with
    | (.error e, w) => (.error (e.status .FORBIDDEN), w)
    | (.ok target, w) =>
      match metadata w.machine.fs target with
      | .ok _ => (.error .METHOD_NOT_ALLOWED, w)
      | .error _ =>
        let w := w.aim (.guarded target)
        match create_dir os target w.machine with
        | (.ok (), m) => (.ok .CREATED, w.on m)
        | (.error _, m) => (.error .INTERNAL_SERVER_ERROR, w.on m)

/-- One action on the properties of a resource. -/
def PropPatchAction.apply (entry : Map String String) (action : PropPatchAction) :
    Map String String :=
  match action.value with
  | some value => entry.insert action.name value
  | none => entry.erase action.name

/-- `handle_proppatch`. -/
def handle_proppatch (w : World) : AppResult × World :=
  match w.resolve_existing cwd req.uri_path with
  | none => (.error .NOT_FOUND, w)
  | some fs_path =>
    match req.proppatch_body with
    | none => (.error .BAD_REQUEST, w)
    | some op =>
      let w := w.aim (.existing fs_path)
      let entry := op.actions.foldl PropPatchAction.apply (get_or ∅ fs_path w.app.dead_props)
      (.ok .MULTI_STATUS, w.with_props (w.app.dead_props.insert fs_path entry))

end Handlers

end Rshs.Http
