/-
What a client may count on, over any run of requests.

The laws of the hierarchy, for the server: its run is a run of commands from its start
(`server_refines`), and its paths stay what their names spell (`resolution_lexical`).
Requests that do not touch each other can be served in either order, a copy that is made
again changes nothing, a resource that is moved away and back is as it was, and what was
deleted is not found until something is put there.
-/
import Rshs.StoreRuns

set_option autoImplicit false

namespace Rshs.StoreLaws

open StdPath Posix Hierarchy Rshs.Webdav Rshs.IfHeader Rshs.Ls Rshs.Locks Rshs.Resolve Rshs.App
open Rshs.Http Rshs.CopyMove Rshs.LockMw Rshs.Server Rshs.StoreRuns
open Rshs.Lifetime (Call Site Event served found enforced)
open Rshs.CachedParents (StepIn request_for after step_after)
open Rshs.CopySpins (nul_free_of_known)
open Rshs.Replace (link_free_of_known)
open Rshs.Grounds Rshs.ServedRoot Rshs.StoreSteps Rshs.StoreTransfers

/-! ## From the start of a server -/

section Started

variable {fs : Fs} {cwd R : Path} {root_dir : PathBuf} {lock_timeout : ℕ} {s : Site}
  {tr : List Event}

/-- A server that starts on a directory serves it. -/
theorem started (hg : Ground R fs) (hroot : Rooted cwd R root_dir fs) (lock_timeout : ℕ) :
    Serving cwd R (AppState.new fs cwd root_dir lock_timeout) fs where
  ground := hg
  canonical := by
    have hfound : canonicalize fs cwd root_dir = .ok R :=
      Href.canonicalize_of_walk hroot.spelled hroot.walk fun _ => hg.root
    unfold AppState.new
    dsimp only
    rw [hfound]
    rfl
  rooted := hroot
  cache := by
    intro init pc hl
    cases hl

/-- The state of a server that has just started. -/
def launched (fs : Fs) (cwd : Path) (root_dir : PathBuf) (lock_timeout : ℕ) : Site where
  app := AppState.new fs cwd root_dir lock_timeout
  fs := fs
  clock := 0

/-- A server of the directory `/d`. -/
def home : Site := launched disk_d [] (PathBuf.of_text "/d".toList) 0

theorem home_ground : Ground [d_name] disk_d where
  root := by decide
  link_free := link_free_of_known (by decide) _
  nul_free := nul_free_of_known (by decide)

theorem home_rooted : Rooted [] [d_name] (PathBuf.of_text "/d".toList) disk_d :=
  rooted_self home_ground.root (by decide) (by decide) (by decide)

theorem home_serving : Serving [] [d_name] home.app home.fs := started home_ground home_rooted 0

/-- After a PUT of `/f`. -/
def home_f : Site := after (request_for .PUT "/f") home

theorem step_home_f : StepIn [] home (.request (request_for .PUT "/f")) home_f :=
  step_after rfl rfl rfl

/-- **The server refines the hierarchy.** -/
theorem server_refines (hg : Ground R fs) (hroot : Rooted cwd R root_dir fs)
    (hrun : Lts.Run (StepIn cwd) (launched fs cwd root_dir lock_timeout) tr s) :
    ∃ t, Lts.Run Hierarchy.Step hg.tree (labels cwd R (launched fs cwd root_dir lock_timeout) tr) t ∧
      Shows R s.fs t ∧ ∀ q, ¬ R <+: q → s.fs.node q = fs.node q := by
  obtain ⟨-, hout, t, hsteps, hshows⟩ := run_refines (started hg hroot lock_timeout) hg.shows hrun
  exact ⟨t, hsteps, hshows, hout⟩

theorem server_refines_f :
    ∃ t, Lts.Run Hierarchy.Step home_ground.tree
        (labels [] [d_name] home [.request (request_for .PUT "/f")]) t ∧
      Shows [d_name] home_f.fs t ∧ ∀ q, ¬ [d_name] <+: q → home_f.fs.node q = disk_d.node q :=
  server_refines home_ground home_rooted (Lts.Run.single step_home_f)

/-- **Paths stay what their names spell.** In every state that is reached the root is a
directory without links below it; the target of a write is the root with the names of its
URL, and there is one where the parent is; and a URL without `..` is found to be the root
with its names exactly when that is there, as a directory if the URL says so. -/
theorem resolution_lexical (hg : Ground R fs) (hroot : Rooted cwd R root_dir fs)
    (hrun : Lts.Run (StepIn cwd) (launched fs cwd root_dir lock_timeout) tr s) :
    s.fs.node R = some .dir ∧ s.fs.LinkFree R ∧ ∀ text p,
      let guarded := (Resolve.resolve_and_guard s.fs cwd s.app.root_dir s.app.root_canonical text
        s.app.canonical_cache).1
      (guarded = .ok p → Plain (request_text text) ∧ p = R ++ target_names text) ∧
      (Plain (request_text text) → s.fs.node (R ++ (target_names text).dropLast) ≠ none →
        guarded = .ok (R ++ target_names text)) ∧
      (NoDots text →
        (Resolve.resolve_existing s.fs cwd s.app.root_dir s.app.root_canonical text = some p ↔
          p = R ++ target_names text ∧ s.fs.node p ≠ none ∧
            ((PathBuf.of_text (request_text text)).slash = true → s.fs.node p = some .dir))) := by
  obtain ⟨h, -, -⟩ := run_refines (started hg hroot lock_timeout) hg.shows hrun
  refine ⟨h.ground.root, h.ground.link_free, fun text p => ⟨fun hok => ?_, h.guard_ok, h.existing_iff⟩⟩
  obtain ⟨hplain, -, hp⟩ := h.guard hok
  exact ⟨hplain, hp⟩

theorem resolution_lexical_f :
    home_f.fs.node [d_name] = some .dir ∧ home_f.fs.LinkFree [d_name] ∧ ∀ text p,
      let guarded := (Resolve.resolve_and_guard home_f.fs [] home_f.app.root_dir
        home_f.app.root_canonical text home_f.app.canonical_cache).1
      (guarded = .ok p → Plain (request_text text) ∧ p = [d_name] ++ target_names text) ∧
      (Plain (request_text text) →
        home_f.fs.node ([d_name] ++ (target_names text).dropLast) ≠ none →
        guarded = .ok ([d_name] ++ target_names text)) ∧
      (NoDots text →
        (Resolve.resolve_existing home_f.fs [] home_f.app.root_dir home_f.app.root_canonical text
            = some p ↔
          p = [d_name] ++ target_names text ∧ home_f.fs.node p ≠ none ∧
            ((PathBuf.of_text (request_text text)).slash = true → home_f.fs.node p = some .dir))) :=
  resolution_lexical home_ground home_rooted (Lts.Run.single step_home_f)

end Started

/-! ## Requests that do what they say -/

section Laws

variable {cwd R : Path} {s u v u' v' : Site} {c d : Call} {x y : Command Name (List UInt8)}
  {t : Files} {tr : List Event} {p q r : List Name}

/-- A request whose command was performed leaves the tree of its command, and everything
outside of the root as it was. -/
theorem performed_shows (h : Serving cwd R s.app s.fs) (ht : Shows R s.fs t)
    (hs : StepIn cwd s (.request c) u) (hlabel : label cwd R c s = some (x, true)) :
    Serving cwd R u.app u.fs ∧ (∀ q, ¬ R <+: q → u.fs.node q = s.fs.node q) ∧
      ∃ ha : x.Allowed t, Shows R u.fs (t.perform x ha) := by
  obtain ⟨hu, hout, t', hrun, hshows⟩ := step_refines h ht hs
  refine ⟨hu, hout, ?_⟩
  unfold labels_of at hrun
  dsimp only at hrun
  rw [hlabel, Option.toList_some] at hrun
  cases hrun with
  | cons hstep hnil =>
    cases hnil
    obtain ⟨ha, rfl⟩ := hstep
    exact ⟨ha, hshows⟩

/-- Two file systems that show the same tree, and are the same outside of it. -/
theorem fs_eq_of_shows {fs fs' : Fs} (h : Shows R fs t) (h' : Shows R fs' t)
    (hout : ∀ q, ¬ R <+: q → fs'.node q = fs.node q) (q : Path) : fs'.node q = fs.node q := by
  by_cases hq : R <+: q
  · obtain ⟨r, rfl⟩ := hq
    rw [h r, h' r]
  · exact hout q hq

theorem label_performed (hx : command cwd R c.req (found c s) = some x)
    (hp : Performed c.os (reply c s) s.fs (served c s).machine.fs x) :
    label cwd R c s = some (x, true) := by
  classical
  unfold label
  rw [hx, Option.map_some, decide_eq_true hp]

/-- **Separate requests can be served in either order.** -/
theorem separate_requests (h : Serving cwd R s.app s.fs) (ht : Shows R s.fs t)
    (hsep : Separate t x y)
    (hc : StepIn cwd s (.request c) u) (hcx : label cwd R c s = some (x, true))
    (hd : StepIn cwd u (.request d) v) (hdy : label cwd R d u = some (y, true))
    (hd' : StepIn cwd s (.request d) u') (hdy' : label cwd R d s = some (y, true))
    (hc' : StepIn cwd u' (.request c) v') (hcx' : label cwd R c u' = some (x, true)) (q : Path) :
    v'.fs.node q = v.fs.node q := by
  obtain ⟨hu, hout, hx, hushows⟩ := performed_shows h ht hc hcx
  obtain ⟨hu', hout', hy, hushows'⟩ := performed_shows h ht hd' hdy'
  obtain ⟨-, hvout, hxy, hvshows⟩ := performed_shows hu hushows hd hdy
  obtain ⟨-, hvout', hyx, hvshows'⟩ := performed_shows hu' hushows' hc' hcx'
  rw [perform_comm hsep hx hy hxy hyx] at hvshows
  refine fs_eq_of_shows hvshows hvshows' (fun q hq => ?_) q
  rw [hvout' q hq, hout' q hq, hvout q hq, hout q hq]

theorem put_f_label (h : reply (request_for .PUT "/f") s = some (.ok .CREATED)) :
    label [] [d_name] (request_for .PUT "/f") s = some (.store [f_name] [], true) := by
  have hnames : target_names "/f".toList = [f_name] := by decide
  rw [← hnames]
  exact label_performed rfl ⟨_, h⟩

theorem mkcol_x_label (h : reply (request_for .MKCOL "/x") s = some (.ok .CREATED)) :
    label [] [d_name] (request_for .MKCOL "/x") s = some (.make [x_name] .folder, true) := by
  have hnames : target_names (trim_end_matches '/' "/x".toList) = [x_name] := by decide
  rw [← hnames]
  exact label_performed rfl ⟨_, h⟩

/-- `/f` is stored and `/x` is made, in either order. -/
theorem separate_requests_f :
    (after (request_for .PUT "/f") (after (request_for .MKCOL "/x") home)).fs.node [d_name, x_name] =
      (after (request_for .MKCOL "/x") home_f).fs.node [d_name, x_name] := by
  have hsep : Separate home_ground.tree (.store [f_name] []) (.make [x_name] .folder) := by
    constructor
    · rintro r rfl
      show ¬ ([f_name] = [x_name] ∨ [f_name] = [])
      decide
    · rintro r ⟨rfl, -⟩
      show ¬ ([x_name] = [f_name] ∨ [x_name] = [])
      decide
  exact separate_requests home_serving home_ground.shows hsep step_home_f
    (put_f_label (by decide)) (step_after rfl rfl rfl) (mkcol_x_label (by decide))
    (step_after rfl rfl rfl) (mkcol_x_label (by decide)) (step_after rfl rfl rfl)
    (put_f_label (by decide)) [d_name, x_name]

/-- **A store or a copy that is made again changes nothing.** -/
theorem request_again (h : Serving cwd R s.app s.fs)
    (hx : (∃ p b, x = .store p b) ∨ ∃ deep p q, x = .copy deep p q)
    (hc : StepIn cwd s (.request c) u) (hcx : label cwd R c s = some (x, true))
    (hd : StepIn cwd u (.request d) v) (hdx : label cwd R d u = some (x, true)) (q : Path) :
    v.fs.node q = u.fs.node q := by
  obtain ⟨hu, -, ha, hushows⟩ := performed_shows h h.ground.shows hc hcx
  obtain ⟨-, hout, ha', hvshows⟩ := performed_shows hu hushows hd hdx
  refine fs_eq_of_shows hushows ?_ hout q
  rcases hx with ⟨p, b, rfl⟩ | ⟨deep, p, q, rfl⟩
  · rw [store_twice ha ha'] at hvshows
    exact hvshows
  · obtain ⟨_, hsame⟩ := copy_twice ha
    rw [hsame] at hvshows
    exact hvshows

/-- A COPY or MOVE with a `Destination`. -/
def transfer_for (method : Method) (uri_path destination : String) : Call :=
  { request_for method uri_path with
    fuel := 9
    req :=
      { (request_for method uri_path).req with
        headers := { destination := some (Text.utf8_encode destination.toList) } } }

theorem transfer_label (is_move : Bool) (text : List Char) (p q : List Name)
    (hm : c.req.method = if is_move then .MOVE else .COPY)
    (htext : parse_destination c.req.headers = some text)
    (hsrc : found_names cwd R (found c s) c.req.uri_path = some p) (hdest : target_names text = q)
    (hx : command_of is_move (deep_of is_move (parse_depth c.req.headers)) p q = x)
    (hdone : Transferred c.os is_move p q (reply c s)) : label cwd R c s = some (x, true) := by
  subst hdest hx
  apply label_performed
  · unfold command
    rw [hm]
    cases is_move with
    | true =>
      show transfer_command cwd R c.req (found c s) true = _
      unfold transfer_command
      rw [htext, hsrc]
    | false =>
      show transfer_command cwd R c.req (found c s) false = _
      unfold transfer_command
      rw [htext, hsrc]
  · cases is_move with
    | true => exact hdone
    | false => exact hdone

/-- After a COPY of `/f` to `/x`. -/
def home_x : Site := after (transfer_for .COPY "/f" "/x") home_f

theorem request_again_f :
    (after (transfer_for .COPY "/f" "/x") home_x).fs.node [d_name, x_name] =
      home_x.fs.node [d_name, x_name] := by
  have hserving := (performed_shows home_serving home_ground.shows step_home_f
    (put_f_label (by decide))).1
  have hlabel : ∀ s, found_names [] [d_name] (found (transfer_for .COPY "/f" "/x") s) "/f".toList
        = some [f_name] →
      (∃ status, reply (transfer_for .COPY "/f" "/x") s = some (.ok status)) →
      label [] [d_name] (transfer_for .COPY "/f" "/x") s =
        some (.copy true [f_name] [x_name], true) := fun s hsrc hok =>
    transfer_label false "/x".toList [f_name] [x_name] rfl (by decide) hsrc (by decide) rfl
      ⟨hok, by decide, by decide, nofun⟩
  exact request_again hserving (Or.inr ⟨true, [f_name], [x_name], rfl⟩) (step_after rfl rfl rfl)
    (hlabel home_f (by decide) ⟨.CREATED, by decide⟩) (step_after rfl rfl rfl)
    (hlabel home_x (by decide) ⟨.NO_CONTENT, by decide⟩) [d_name, x_name]

/-- **What is moved to a free place and moved back** is as it was, and so is everything else. -/
theorem moved_back (h : Serving cwd R s.app s.fs) (hfree : s.fs.node (R ++ q) = none)
    (hc : StepIn cwd s (.request c) u) (hcx : label cwd R c s = some (.move p q, true))
    (hd : StepIn cwd u (.request d) v) (hdx : label cwd R d u = some (.move q p, true)) (r : Path) :
    v.fs.node r = s.fs.node r := by
  have ht := h.ground.shows
  obtain ⟨hu, hout, ha, hushows⟩ := performed_shows h ht hc hcx
  obtain ⟨-, hvout, ha', hvshows⟩ := performed_shows hu hushows hd hdx
  obtain ⟨_, hback⟩ := move_back ha (ht.none_iff.mp hfree)
  rw [hback] at hvshows
  exact fs_eq_of_shows ht hvshows (fun q hq => (hvout q hq).trans (hout q hq)) r

theorem moved_back_f :
    (after (transfer_for .MOVE "/x" "/f") (after (transfer_for .MOVE "/f" "/x") home_f)).fs.node
        [d_name, f_name] = home_f.fs.node [d_name, f_name] := by
  have hserving := (performed_shows home_serving home_ground.shows step_home_f
    (put_f_label (by decide))).1
  have hthere : label [] [d_name] (transfer_for .MOVE "/f" "/x") home_f =
      some (.move [f_name] [x_name], true) :=
    transfer_label true "/x".toList [f_name] [x_name] rfl (by decide) (by decide) (by decide) rfl
      ⟨⟨.CREATED, by decide⟩, by decide, by decide, fun _ _ => rfl⟩
  have hback : label [] [d_name] (transfer_for .MOVE "/x" "/f")
      (after (transfer_for .MOVE "/f" "/x") home_f) = some (.move [x_name] [f_name], true) :=
    transfer_label true "/f".toList [x_name] [f_name] rfl (by decide) (by decide) (by decide) rfl
      ⟨⟨.CREATED, by decide⟩, by decide, by decide, fun _ _ => rfl⟩
  exact moved_back hserving (by decide) (step_after rfl rfl rfl) hthere (step_after rfl rfl rfl)
    hback [d_name, f_name]

/-- A request that only reads is not refused by the middleware. -/
theorem read_reply (hread : is_write c.req.method = false) :
    reply c s = (dispatch c.os c.cwd c.clock c.default_hasher c.fuel c.req (found c s)).1 := by
  have hok : (enforced c s).1.reply = .ok () := by
    unfold enforced lock_enforce
    rw [hread]
    rfl
  rcases reply_eq c s with ⟨-, hreply, -⟩ | ⟨⟨status, herror, -⟩, -⟩
  · exact hreply
  · rw [hok] at herror
    cases herror

/-- What is not there is not found. -/
theorem absent_not_found (h : Serving cwd R s.app s.fs) (hcwd : d.cwd = cwd)
    (hmethod : d.req.method = .GET ∨ d.req.method = .HEAD ∨ d.req.method = .PROPFIND)
    (hdots : NoDots d.req.uri_path)
    (hnone : s.fs.node (R ++ target_names d.req.uri_path) = none) :
    reply d s = some (.error .NOT_FOUND) := by
  subst hcwd
  have hfound := found_serving h rfl
  have hmissing : (found d s).resolve_existing d.cwd d.req.uri_path = none := by
    cases hr : (found d s).resolve_existing d.cwd d.req.uri_path with
    | none => rfl
    | some p =>
      obtain ⟨rfl, hsome, -⟩ := (hfound.existing_iff hdots).mp hr
      exact absurd hnone hsome
  have hread : is_write d.req.method = false := by
    rcases hmethod with hm | hm | hm
    all_goals
      rw [hm]
      rfl
  rw [read_reply hread]
  unfold dispatch
  rcases hmethod with hm | hm | hm
  · rw [hm]
    show (replies (handle_get_head d.os d.cwd d.req (found d s))).1 = _
    unfold handle_get_head
    rw [hmissing]
    rfl
  · rw [hm]
    show (replies (handle_get_head d.os d.cwd d.req (found d s))).1 = _
    unfold handle_get_head
    rw [hmissing]
    rfl
  · rw [hm]
    show (replies (Server.handle_propfind d.cwd d.req (found d s))).1 = _
    unfold Server.handle_propfind
    rw [hmissing]
    rfl

/-- **What was deleted is not found**, and neither is what was below it, until a request
puts something there. -/
theorem deleted_missing (h : Serving cwd R s.app s.fs)
    (hc : StepIn cwd s (.request c) u) (hcx : label cwd R c s = some (.remove p, true))
    (hrun : Lts.Run (StepIn cwd) u tr v)
    (hfills : ∀ a ∈ labels cwd R u tr, ¬ a.1.Fills (p ++ r)) :
    v.fs.node (R ++ (p ++ r)) = none ∧ ∀ d : Call, d.cwd = cwd →
      (d.req.method = .GET ∨ d.req.method = .HEAD ∨ d.req.method = .PROPFIND) →
      NoDots d.req.uri_path → target_names d.req.uri_path = p ++ r →
      reply d v = some (.error .NOT_FOUND) := by
  obtain ⟨hu, -, ha, hushows⟩ := performed_shows h h.ground.shows hc hcx
  obtain ⟨hv, -, t, hsteps, hvshows⟩ := run_refines hu hushows hrun
  have hgone : (h.ground.tree.perform (.remove p) ha).entry (p ++ r) = none :=
    if_pos (List.prefix_append p r)
  have hnone := hvshows.none_iff.mpr (run_absent hsteps hgone hfills)
  refine ⟨hnone, fun d hcwd hmethod hdots hnames => absent_not_found hv hcwd hmethod hdots ?_⟩
  rw [hnames]
  exact hnone

theorem deleted_missing_f :
    let deleted := after (request_for .DELETE "/f") home_f
    (after (request_for .MKCOL "/x") deleted).fs.node [d_name, f_name] = none ∧
      ∀ d : Call, d.cwd = [] →
        (d.req.method = .GET ∨ d.req.method = .HEAD ∨ d.req.method = .PROPFIND) →
        NoDots d.req.uri_path → target_names d.req.uri_path = [f_name] →
        reply d (after (request_for .MKCOL "/x") deleted) = some (.error .NOT_FOUND) := by
  have hserving := (performed_shows home_serving home_ground.shows step_home_f
    (put_f_label (by decide))).1
  have hdelete : label [] [d_name] (request_for .DELETE "/f") home_f =
      some (.remove [f_name], true) := by
    have hsrc : found_names [] [d_name] (found (request_for .DELETE "/f") home_f) "/f".toList =
        some [f_name] := by decide
    refine label_performed ?_ ⟨.NO_CONTENT, by decide⟩
    show (found_names [] [d_name] (found (request_for .DELETE "/f") home_f) "/f".toList).map
      Command.remove = _
    rw [hsrc]
    rfl
  refine deleted_missing (r := []) hserving (step_after rfl rfl rfl) hdelete
    (Lts.Run.single (step_after rfl rfl rfl)) ?_
  intro a ha
  unfold labels labels_of at ha
  dsimp only at ha
  rw [mkcol_x_label (by decide)] at ha
  have heq : a = (.make [x_name] .folder, true) := by simpa [labels] using ha
  rw [heq]
  show ¬ [f_name] = [x_name]
  decide

end Laws

end Rshs.StoreLaws
