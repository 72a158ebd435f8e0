/-
`handle_get_head` with all that it answers: the headers and the body.

`Http.handle_get_head` gives the status alone, which is all that locks and trees depend on
(`get_head_status`). Here are the header fields and the bytes: HEAD answers what GET would,
without the body and with its length (`head_like_get`), and what a PUT has stored is what a
GET of any URL for it answers, after any run of requests that spare the resource
(`put_reads_back`). MIME types are a table that sees the file extension only; a listing is
nothing where the date of an entry makes the formatter panic.
-/
import Rshs.StoreReplies
import Rshs.Enumerate
import Rshs.Listing

set_option autoImplicit false

namespace Rshs.Responses

open StdPath Posix Text Hierarchy Rshs.Webdav Rshs.Resolve Rshs.App Rshs.StoreRuns
open Rshs.Xml (PropEntry)
open Rshs.Propfind (Attr Scan Disk extension metadata_at metadata_real noon collect_entries
  collect_loop base_entry)
open Rshs.Href (normalize_href)
open Rshs.Enumerate (EntryOf Lists PlainTree Complete base_listed children_listed
  descendants_listed collect_loop_mono)
open Rshs.StoreLaws Rshs.Grounds Rshs.ServedRoot
open Rshs.Lifetime (Call Site Event found)
open Rshs.CachedParents (StepIn request_for after step_after)

structure Response where
  status : StatusCode
  headers : List (String × String)
  body : List UInt8
deriving DecidableEq

/-- What a GET reads beside the tree: the attributes of what stands in it, what a directory
scan meets, and the table of MIME types. -/
structure Surroundings where
  attr : Path → Attr
  scan : Scan
  mimes : Option (List UInt8) → Option String

/-- `mime_guess::from_path(p).first_or_octet_stream()`. -/
def content_type (sur : Surroundings) (p : Path) : String :=
  (sur.mimes (p.getLast?.bind extension)).getD "application/octet-stream"

def html_headers (html : List Char) : List (String × String) :=
  [("content-type", "text/html; charset=utf-8"),
    ("content-length", toString (utf8_encode html).length)]

def file_headers (sur : Surroundings) (p : Path) (file_size : ℕ) : List (String × String) :=
  [("content-type", content_type sur p), ("content-length", toString file_size)]

/-- The file is read when it has been opened. -/
def handle_get_head (os : Os) (cwd : Path) (sur : Surroundings) (req : Request) (w : World) :
    Option (Except StatusCode Response × World) :=
  match w.resolve_existing cwd req.uri_path with
  | none => some (.error .NOT_FOUND, w)
  | some fs_path =>
    let disk : Disk := { fs := w.machine.fs, attr := sur.attr }
    match disk.metadata fs_path with
    | none => some (.error .NOT_FOUND, w)
    | some m =>
      if m.is_dir then
        (Listing.generate_dir_listing disk sur.scan fs_path req.uri_path).map fun listing =>
          let resp : Response :=
            { status := .OK, headers := html_headers listing.1, body := utf8_encode listing.1 }
          if req.method = .HEAD then (.ok { resp with body := [] }, w) else (.ok resp, w)
      else
        let resp : Response :=
          { status := .OK, headers := file_headers sur fs_path m.len, body := [] }
        if req.method = .HEAD then some (.ok resp, w)
        else
          match open_file os fs_path w.machine with
          | (.ok file, m) => some (.ok { resp with body := m.fs.content file }, w.on m)
          | (.error _, m) => some (.error .INTERNAL_SERVER_ERROR, w.on m)

section Handlers

variable {os : Os} {cwd : Path} {sur : Surroundings} {req : Request} {w w' : World}
  {r : Except StatusCode Response}

/-- The two readings of metadata agree. -/
theorem metadata_disk (fs : Fs) (attr : Path → Attr) (p : Path) :
    (∃ e, metadata fs p = .error e ∧ (Disk.mk fs attr).metadata p = none) ∨
      ∃ q x, follow fs p = .ok q ∧ fs.node q = some x ∧ metadata fs p = .ok x.file_type ∧
        (Disk.mk fs attr).metadata p = some (metadata_at ⟨fs, attr⟩ q x) := by
  unfold metadata Disk.metadata
  dsimp only
  cases hf : follow fs p with
  | error e => exact Or.inl ⟨e, rfl, rfl⟩
  | ok q =>
    dsimp only
    cases hx : fs.node q with
    | none => exact Or.inl ⟨_, rfl, rfl⟩
    | some x => exact Or.inr ⟨q, x, rfl, hx, rfl, rfl⟩

theorem is_dir_iff (disk : Disk) (q : Path) (x : Node) :
    (metadata_at disk q x).is_dir = true ↔ x.file_type = .dir := by
  unfold metadata_at
  cases x
  all_goals simp [Node.file_type]

/-- **The status alone** is what `Http.handle_get_head` answers. -/
theorem get_head_status (h : handle_get_head os cwd sur req w = some (r, w')) :
    Http.handle_get_head os cwd req w = (r.map Response.status, w') := by
  unfold handle_get_head at h
  unfold Http.handle_get_head
  cases hp : w.resolve_existing cwd req.uri_path with
  | none =>
    rw [hp] at h
    cases h
    rfl
  | some fs_path =>
    rw [hp] at h
    dsimp only at h ⊢
    rcases metadata_disk w.machine.fs sur.attr fs_path with
      ⟨e, hmeta, hdisk⟩ | ⟨q, x, -, -, hmeta, hdisk⟩
    · rw [hdisk] at h
      rw [hmeta]
      cases h
      rfl
    · rw [hdisk] at h
      rw [hmeta]
      dsimp only at h ⊢
      -- a directory is listed for both methods; of a file, only a GET opens it
      by_cases hdir : x.file_type = .dir
      · rw [if_pos ((is_dir_iff _ q x).mpr hdir), Option.map_eq_some_iff] at h
        rw [if_pos (Or.inl hdir)]
        obtain ⟨listing, -, h⟩ := h
        split at h
        · cases h
          rfl
        · cases h
          rfl
      · rw [if_neg (fun hd => hdir ((is_dir_iff _ q x).mp hd))] at h
        by_cases hhead : req.method = .HEAD
        · rw [if_pos hhead] at h
          rw [if_pos (Or.inr hhead)]
          cases h
          rfl
        · rw [if_neg hhead] at h
          rw [if_neg (by rw [not_or]; exact ⟨hdir, hhead⟩)]
          rcases hopen : open_file os fs_path w.machine with ⟨e | file, m⟩
          · rw [hopen] at h
            cases h
            rfl
          · rw [hopen] at h
            cases h
            rfl

/-- What a file is served with: its headers, and the bytes it has when it is opened. -/
theorem open_serves (attr : Path → Attr) {fs_path q file : Path} {x : Node} {m : Machine}
    (hq : follow w.machine.fs fs_path = .ok q) (hx : w.machine.fs.node q = some x)
    (ho : open_file os fs_path w.machine = (.ok file, m)) :
    (metadata_at ⟨w.machine.fs, attr⟩ q x).len = (m.fs.content file).length := by
  rcases open_file_cases os fs_path w.machine with ⟨e, he⟩ | ⟨loc, c, hl, hc, hok⟩
  · rw [he] at ho
    cases ho
  · rw [hok] at ho
    cases ho
    rw [hq] at hl
    cases hl
    rw [hx] at hc
    cases hc
    show c.length = (w.machine.fs.content q).length
    unfold Fs.content
    rw [hx]

/-- A file that is served answers a GET with its content. -/
theorem get_file (sur : Surroundings) {R : Path} {s : Site} {d : Call} {content : List UInt8}
    (h : Serving cwd R s.app s.fs) (hcwd : d.cwd = cwd) (hget : d.req.method = .GET)
    (hdots : NoDots d.req.uri_path)
    (hslash : (PathBuf.of_text (request_text d.req.uri_path)).slash = false)
    (hopen : d.os.fault 0 = false)
    (hfile : s.fs.node (R ++ target_names d.req.uri_path) = some (.file content)) :
    ∃ w, handle_get_head d.os d.cwd sur d.req (found d s) = some (.ok
      { status := .OK
        headers := file_headers sur (R ++ target_names d.req.uri_path) content.length
        body := content }, w) := by
  subst hcwd
  have hserving := found_serving h rfl
  have hnot : ¬ Method.GET = Method.HEAD := by decide
  have hnode : (found d s).machine.fs.node (R ++ target_names d.req.uri_path) = some (.file content) :=
    hfile
  have hresolved : (found d s).resolve_existing d.cwd d.req.uri_path =
      some (R ++ target_names d.req.uri_path) := by
    refine (hserving.existing_iff hdots).mpr ⟨rfl, ?_, fun hs => ?_⟩
    · rw [hnode]
      exact Option.some_ne_none _
    · rw [hslash] at hs
      cases hs
  have hreal := resolve_existing_real hresolved
  have hfollow : follow (found d s).machine.fs (R ++ target_names d.req.uri_path) =
      .ok (R ++ target_names d.req.uri_path) := follow_self hreal
  unfold handle_get_head
  rw [hresolved]
  dsimp only
  rw [metadata_real hnode (by simp)]
  dsimp only
  rw [if_neg (by simp [metadata_at]), hget, if_neg hnot, open_file_ok hopen hfollow hnode]
  refine ⟨(found d s).on ((found d s).machine.tick.read (R ++ target_names d.req.uri_path)), ?_⟩
  dsimp only
  have hcontent : ((found d s).machine.tick.read (R ++ target_names d.req.uri_path)).fs.content
      (R ++ target_names d.req.uri_path) = content := by
    show (found d s).machine.fs.content _ = content
    unfold Fs.content
    rw [hnode]
  rw [hcontent]
  rfl

/-- Nothing is special about the surroundings. -/
def plain : Surroundings where
  attr := fun _ => { dir_size := 0, mtime := noon, btime := none }
  scan := Propfind.server_d.scan
  mimes := fun _ => none

theorem no_dots_f : NoDots "/f".toList := by
  have hsplit : (request_text "/f".toList).splitOn '/' = [['f']] := by decide
  intro seg hseg
  rw [hsplit, List.mem_singleton] at hseg
  rw [hseg]
  decide

/-- A PUT of two bytes to `/f`. -/
def put_hi : Call :=
  { request_for .PUT "/f" with req := { (request_for .PUT "/f").req with body := [104, 105] } }

theorem step_hi : StepIn [] home (.request put_hi) (after put_hi home) := step_after rfl rfl rfl

theorem put_hi_reply : reply put_hi home = some (.ok .CREATED) := by decide

theorem hi_serving : Serving [] [d_name] (after put_hi home).app (after put_hi home).fs := by
  have hlabel : label [] [d_name] put_hi home
      = some (.store (target_names "/f".toList) [104, 105], true) :=
    label_performed rfl ⟨_, put_hi_reply⟩
  exact (performed_shows home_serving home_ground.shows step_hi hlabel).1

/-- **HEAD answers what GET would**, without the body; and the length that both announce is
that of the body a GET sends. Only when the file cannot be opened does a GET fail where a
HEAD does not. -/
theorem head_like_get (hget : req.method = .GET)
    (h : handle_get_head os cwd sur req w = some (r, w')) :
    let head := handle_get_head os cwd sur { req with method := .HEAD } w
    (∀ resp, r = .ok resp → head = some (.ok { resp with body := [] }, w) ∧
      ("content-length", toString resp.body.length) ∈ resp.headers) ∧
    (∀ status, r = .error status →
      (status = .NOT_FOUND ∧ head = some (.error .NOT_FOUND, w)) ∨
        (status = .INTERNAL_SERVER_ERROR ∧ ∃ resp, head = some (.ok resp, w))) := by
  have hnot : ¬ Method.GET = Method.HEAD := by decide
  unfold handle_get_head at h ⊢
  dsimp only
  cases hp : w.resolve_existing cwd req.uri_path with
  | none =>
    rw [hp] at h
    cases h
    exact ⟨nofun, fun status hs => by cases hs; exact Or.inl ⟨rfl, rfl⟩⟩
  | some fs_path =>
    rw [hp] at h
    dsimp only at h ⊢
    rcases metadata_disk w.machine.fs sur.attr fs_path with
      ⟨e, -, hdisk⟩ | ⟨q, x, hq, hx, -, hdisk⟩
    · rw [hdisk] at h ⊢
      cases h
      exact ⟨nofun, fun status hs => by cases hs; exact Or.inl ⟨rfl, rfl⟩⟩
    · rw [hdisk] at h ⊢
      dsimp only at h ⊢
      -- a directory is listed for both methods
      by_cases hdir : (metadata_at ⟨w.machine.fs, sur.attr⟩ q x).is_dir = true
      · rw [if_pos hdir] at h ⊢
        rw [Option.map_eq_some_iff] at h
        obtain ⟨listing, hlisting, h⟩ := h
        rw [hget, if_neg hnot] at h
        cases h
        refine ⟨fun resp hr => ?_, nofun⟩
        cases hr
        rw [hlisting, Option.map_some, if_pos rfl]
        exact ⟨rfl, by simp [html_headers]⟩
      -- a file is opened by GET only, which can fail there
      · rw [if_neg hdir] at h ⊢
        rw [if_pos rfl]
        rw [hget, if_neg hnot] at h
        split at h
        · rename_i file m ho
          cases h
          refine ⟨fun resp hr => ?_, nofun⟩
          cases hr
          refine ⟨rfl, ?_⟩
          rw [← open_serves sur.attr hq hx ho]
          simp [file_headers]
        · cases h
          exact ⟨nofun, fun status hs => by cases hs; exact Or.inr ⟨rfl, _, rfl⟩⟩

theorem head_like_get_f :
    let headers := file_headers plain ([d_name] ++ target_names "/f".toList) 2
    handle_get_head Os.calm [] plain { (request_for .GET "/f").req with method := .HEAD }
        (found (request_for .GET "/f") (after put_hi home))
      = some (.ok { status := .OK, headers := headers, body := [] },
          found (request_for .GET "/f") (after put_hi home)) ∧
      ("content-length", toString 2) ∈ headers := by
  have hfile : (after put_hi home).fs.node ([d_name] ++ target_names "/f".toList)
      = some (.file [104, 105]) := by decide
  obtain ⟨w', h⟩ := @get_file [] plain [d_name] (after put_hi home) (request_for .GET "/f")
    [104, 105] hi_serving rfl rfl no_dots_f (by decide) rfl hfile
  exact (head_like_get rfl h).1 _ rfl

end Handlers

/-! ## What a PROPFIND lists can be fetched -/

section Fetched

variable {os : Os} {cwd p : Path} {sur : Surroundings} {req : Request} {w : World} {disk : Disk}
  {types : Option (List UInt8) → Option String} {root_dir root_canonical : PathBuf}
  {request_path : List Char} {fuel : ℕ} {depth : Depth} {es : List PropEntry} {e : PropEntry}

/-- An entry says of a node what stands there, and its href leads to it. -/
def LeadsTo (disk : Disk) (cwd : Path) (root_dir root_canonical : PathBuf) (e : PropEntry) : Prop :=
  ∃ q, EntryOf disk q e ∧ resolve_existing disk.fs cwd root_dir root_canonical e.href = some q

theorem leads_of_lists {nodes : List Path} (h : Lists disk cwd root_dir root_canonical nodes es) :
    ∀ e ∈ es, LeadsTo disk cwd root_dir root_canonical e := by
  induction h with
  | nil => exact nofun
  | cons hq _ ih =>
    intro e he
    rcases List.mem_cons.mp he with rfl | he
    · exact ⟨_, hq⟩
    · exact ih e he

theorem entries_lead (htree : PlainTree disk.fs p) (hscan : Complete sur.scan p)
    (hp : resolve_existing disk.fs cwd root_dir root_canonical request_path = some p)
    (hes : collect_entries types disk sur.scan fuel p request_path depth = some es) :
    ∀ e ∈ es, LeadsTo disk cwd root_dir root_canonical e := by
  obtain ⟨x, hx, hlink⟩ := resolve_existing_real hp
  have hbase : LeadsTo disk cwd root_dir root_canonical
      (base_entry types p request_path (metadata_at disk p x)) := ⟨p, base_listed types hp hx⟩
  unfold collect_entries at hes
  rw [metadata_real hx hlink] at hes
  dsimp only at hes
  split at hes
  · rename_i hdeep
    have hdir : disk.fs.node p = some .dir := by
      rw [hx, of_decide_eq_true hdeep.1]
    -- the children of the directory, or all that is below it
    split at hes
    · cases hes
      obtain ⟨nodes, -, -, hlists⟩ := children_listed types htree hscan hp hdir
      intro e he
      rcases List.mem_cons.mp he with rfl | he
      · exact hbase
      · exact leads_of_lists hlists e he
    · obtain ⟨below, hbelow, rfl⟩ := Option.map_eq_some_iff.mp hes
      obtain ⟨nodes, es', -, -, hlists, enough, hends⟩ := descendants_listed types htree hscan hp hdir
      have hsame : below = es' := by
        have hmore := hends (max enough fuel) (le_max_left _ _)
        have hmono := collect_loop_mono (le_max_right enough fuel) hbelow
        rw [show collect_loop types disk sur.scan (max enough fuel)
          [(p, normalize_href request_path true)] [] = some es' from hmore] at hmono
        exact (Option.some.inj hmono).symm
      intro e he
      rcases List.mem_cons.mp he with rfl | he
      · exact hbase
      · rw [hsame] at he
        exact leads_of_lists hlists e he
  · cases hes
    intro e he
    rw [List.mem_singleton.mp he]
    exact hbase

/-- **What a PROPFIND lists, a GET serves.** The href of every entry leads to the node that
the entry is for. A GET of it answers the bytes of a file, as many as the entry says, and of
a collection the listing of that directory. -/
theorem entries_fetched (htree : PlainTree w.machine.fs p) (hscan : Complete sur.scan p)
    (hp : w.resolve_existing cwd request_path = some p)
    (hes : collect_entries types ⟨w.machine.fs, sur.attr⟩ sur.scan fuel p request_path depth = some es)
    (he : e ∈ es) (hget : req.method = .GET) (hopen : os.fault w.machine.calls = false) :
    let disk : Disk := ⟨w.machine.fs, sur.attr⟩
    let got := handle_get_head os cwd sur { req with uri_path := e.href } w
    ∃ q w', EntryOf disk q e ∧ w.resolve_existing cwd e.href = some q ∧
      (e.is_dir = false → ∃ content, disk.fs.node q = some (.file content) ∧ content.length = e.size ∧
        got = some (.ok
          { status := .OK, headers := file_headers sur q e.size, body := content }, w')) ∧
      (e.is_dir = true → ∃ html count,
        Listing.generate_dir_listing disk sur.scan q e.href = some (html, count) ∧
          got = some (.ok
            { status := .OK, headers := html_headers html, body := utf8_encode html }, w')) := by
  have hlead : ∀ e ∈ es, LeadsTo ⟨w.machine.fs, sur.attr⟩ cwd w.app.root_dir w.app.root_canonical e :=
    entries_lead htree hscan hp hes
  -- the href leads back to the node of its entry
  obtain ⟨q, hentry, hq⟩ := hlead e he
  obtain ⟨x, hx, hkind, hsize⟩ := hentry
  have hresolved : w.resolve_existing cwd e.href = some q := hq
  obtain ⟨y, hy, hlink⟩ := resolve_existing_real hresolved
  have hxy : x = y := Option.some.inj (hx.symm.trans hy)
  subst hxy
  have hnot : ¬ Method.GET = Method.HEAD := by decide
  have hmeta : (Disk.mk w.machine.fs sur.attr).metadata q
      = some (metadata_at ⟨w.machine.fs, sur.attr⟩ q x) := metadata_real hx hlink
  unfold handle_get_head
  dsimp only
  rw [hresolved]
  dsimp only
  rw [hmeta]
  dsimp only
  rw [hget, if_neg hnot]
  cases x with
  | symlink l => exact absurd rfl (hlink l)
  | dir =>
    -- a directory: its listing is answered
    rw [if_pos (show (metadata_at ⟨w.machine.fs, sur.attr⟩ q .dir).is_dir = true from rfl)]
    obtain ⟨html, count, hlisting⟩ := Listing.listing_written ⟨w.machine.fs, sur.attr⟩ sur.scan q e.href
    refine ⟨q, w, ⟨_, hx, hkind, hsize⟩, rfl, fun hf => ?_, fun _ => ⟨html, count, hlisting, ?_⟩⟩
    · rw [hkind] at hf
      cases hf
    · rw [hlisting, Option.map_some, if_neg hnot]
  | file content =>
    -- a file: it is opened, and read whole
    rw [if_neg (by simp [metadata_at]), open_file_ok hopen (follow_self ⟨_, hx, hlink⟩) hx]
    refine ⟨q, w.on (w.machine.tick.read q), ⟨_, hx, hkind, hsize⟩, rfl,
      fun _ => ⟨content, hx, hsize.symm, ?_⟩, fun hd => ?_⟩
    · have hcontent : (w.machine.tick.read q).fs.content q = content := by
        show w.machine.fs.content q = content
        unfold Fs.content
        rw [hx]
      dsimp only
      rw [hcontent, hsize]
      rfl
    · rw [hkind] at hd
      cases hd

/-- Every entry of a PROPFIND of the directories `/d` and `/d/e` and their files. -/
theorem entries_fetched_deep :
    let disk : Disk := ⟨disk_deep, plain.attr⟩
    let w := World.start Propfind.server_d.app disk_deep
    ∃ es, collect_entries plain.mimes disk plain.scan 9 [d_name] "/d".toList .Infinity = some es ∧
      es.length = 4 ∧ ∀ e ∈ es,
        let got := handle_get_head Os.calm [] plain
          { (request_for .GET "/").req with uri_path := e.href } w
        ∃ q w', EntryOf disk q e ∧ w.resolve_existing [] e.href = some q ∧
          (e.is_dir = false → ∃ content, disk.fs.node q = some (.file content) ∧
            content.length = e.size ∧ got = some (.ok
              { status := .OK, headers := file_headers plain q e.size, body := content }, w')) ∧
          (e.is_dir = true → ∃ html count,
            Listing.generate_dir_listing disk plain.scan q e.href = some (html, count) ∧
              got = some (.ok
                { status := .OK, headers := html_headers html, body := utf8_encode html }, w')) := by
  have hfound : (World.start Propfind.server_d.app disk_deep).resolve_existing [] "/d".toList
      = some [d_name] := by decide
  have hes : ∃ es, collect_entries plain.mimes ⟨disk_deep, plain.attr⟩ plain.scan 9 [d_name]
      "/d".toList .Infinity = some es ∧ es.length = 4 := ⟨_, rfl, rfl⟩
  obtain ⟨es, hes, hlength⟩ := hes
  exact ⟨es, hes, hlength, fun e he =>
    entries_fetched (w := World.start Propfind.server_d.app disk_deep) Enumerate.plain_deep
      ⟨fun _ _ => rfl, fun _ _ => rfl⟩ hfound hes he rfl rfl⟩

end Fetched

/-! ## What was put is read back -/

section Runs

variable {cwd R : Path} {s u v : Site} {c d : Call} {tr : List Event} {sur : Surroundings}
  {status : StatusCode} {content : List UInt8}

/-- **What was put is read back.** After a PUT that succeeded, and any run of requests whose
commands spare its resource, a GET of any URL with the same names answers the body, and
replies 200. -/
theorem put_reads_back (h : Serving cwd R s.app s.fs) (hc : StepIn cwd s (.request c) u)
    (hput : c.req.method = .PUT) (hok : reply c s = some (.ok status))
    (hrun : Lts.Run (StepIn cwd) u tr v)
    (hspares : ∀ a ∈ labels cwd R u tr, a.1.Spares (target_names c.req.uri_path))
    (hcwd : d.cwd = cwd) (hget : d.req.method = .GET) (hdots : NoDots d.req.uri_path)
    (hslash : (PathBuf.of_text (request_text d.req.uri_path)).slash = false)
    (hnames : target_names d.req.uri_path = target_names c.req.uri_path)
    (hopen : d.os.fault 0 = false) :
    (∃ w, handle_get_head d.os d.cwd sur d.req (found d v) = some (.ok
      { status := .OK
        headers := file_headers sur (R ++ target_names d.req.uri_path) c.req.body.length
        body := c.req.body }, w)) ∧ reply d v = some (.ok .OK) := by
  have hlabel : label cwd R c s = some (.store (target_names c.req.uri_path) c.req.body, true) := by
    apply label_performed
    · unfold command
      rw [hput]
    · exact ⟨status, hok⟩
  obtain ⟨hu, -, ha, hushows⟩ := performed_shows h h.ground.shows hc hlabel
  obtain ⟨hv, -, t, hsteps, hvshows⟩ := run_refines hu hushows hrun
  have hstored : (h.ground.tree.perform (.store (target_names c.req.uri_path) c.req.body) ha).entry
      (target_names c.req.uri_path) = some (.file c.req.body) := if_pos rfl
  have hkept := run_spares hsteps (by rw [hstored]; exact Option.some_ne_none _) hspares
  rw [hstored] at hkept
  have hfile : v.fs.node (R ++ target_names d.req.uri_path) = some (.file c.req.body) := by
    rw [hnames]
    exact hvshows.file_iff.mpr hkept
  obtain ⟨w, hw⟩ := get_file sur hv hcwd hget hdots hslash hopen hfile
  refine ⟨⟨w, hw⟩, ?_⟩
  rw [read_reply (by rw [hget]; rfl)]
  unfold Server.dispatch
  rw [hget]
  show (Server.replies (Http.handle_get_head d.os d.cwd d.req (found d v))).1 = _
  rw [get_head_status hw]
  rfl

theorem put_reads_back_f :
    let left := after (request_for .MKCOL "/x") (after put_hi home)
    (∃ w, handle_get_head Os.calm [] plain (request_for .GET "/f").req
        (found (request_for .GET "/f") left) = some (.ok
      { status := .OK
        headers := file_headers plain ([d_name] ++ target_names "/f".toList) 2
        body := [104, 105] }, w)) ∧ reply (request_for .GET "/f") left = some (.ok .OK) := by
  refine put_reads_back (d := request_for .GET "/f")
    home_serving step_hi rfl put_hi_reply
    (Lts.Run.single (step_after rfl rfl rfl)) ?_ rfl rfl no_dots_f (by decide) rfl rfl
  intro a ha
  unfold labels labels_of at ha
  dsimp only at ha
  rw [mkcol_x_label (by decide)] at ha
  have heq : a = (.make [x_name] .folder, true) := by simpa [labels] using ha
  rw [heq]
  trivial

end Runs

end Rshs.Responses
