/-
The dead properties over a run.

What a run does to the property store is a list of edits, one for each PROPPATCH and each
COPY or MOVE that succeeds (`run_props`); nothing else changes it. So a property that was set
is reported, with its value, until it is set or removed again or its resource is moved or
overwritten (`property_endures`); and whatever is recorded was set by a PROPPATCH of the run
(`property_traced`).
-/
import Rshs.StoreLaws
import Rshs.RoundTrip

set_option autoImplicit false

namespace Rshs.PropHistory

open StdPath Posix FinMap Rshs.Webdav Rshs.Resolve Rshs.App Rshs.Http Rshs.CopyMove Rshs.Server
open Rshs.Migration
open Rshs.Lifetime
open Rshs.CachedParents (request_for after step_after)
open Rshs.StoreLaws (home_f)
open Rshs.StoreRuns (reply reply_eq next step_next handle_get_head_app handle_delete_app)
open Rshs.StoreTransfers (transfer_of_success)

/-! ## Edits -/

/-- What a request does to the properties. -/
inductive PropEdit
  | patch (p : Path) (op : PropPatchOp)
  | carry (is_move : Bool) (src dest : Path)

/-- What an edit makes of the store. -/
def PropEdit.apply (props : DeadPropertyStore) : PropEdit → DeadPropertyStore
  | .patch p op => props.insert p (op.actions.foldl PropPatchAction.apply (get_or ∅ p props))
  | .carry is_move src dest => migrate_props is_move src dest props

/-- The edit leaves the property `name` of `p` alone. -/
def PropEdit.Spares (p : Path) (name : String) : PropEdit → Prop
  | .patch q op => q = p → ∀ a ∈ op.actions, a.name ≠ name
  | .carry is_move src dest => dest ≠ p ∧ (is_move = true → src ≠ p)

section Edits

variable {props : DeadPropertyStore} {p : Path} {name v : String} {e : PropEdit}

/-- Actions on other names leave a property alone. -/
theorem patch_other {actions : List PropPatchAction} (h : ∀ a ∈ actions, a.name ≠ name)
    (old : Map String String) :
    (actions.foldl PropPatchAction.apply old).lookup name = old.lookup name := by
  induction actions generalizing old with
  | nil => rfl
  | cons a actions ih =>
    rw [List.forall_mem_cons] at h
    rw [List.foldl_cons, ih h.2]
    unfold PropPatchAction.apply
    split
    · exact AList.lookup_insert_ne h.1.symm
    · exact AList.lookup_erase_ne h.1.symm

/-- The last action with a name decides. -/
theorem patch_last {before after : List PropPatchAction} {a : PropPatchAction}
    (hv : a.value = some v) (h : ∀ b ∈ after, b.name ≠ a.name) (old : Map String String) :
    ((before ++ a :: after).foldl PropPatchAction.apply old).lookup a.name = some v := by
  rw [List.foldl_append, List.foldl_cons, patch_other h]
  unfold PropPatchAction.apply
  rw [hv]
  exact AList.lookup_insert _

theorem apply_spares (h : e.Spares p name) :
    recorded (e.apply props) p name = recorded props p name := by
  cases e with
  | patch q op =>
    unfold PropEdit.apply
    dsimp only
    rw [recorded_insert]
    by_cases hq : p = q
    · rw [if_pos hq, patch_other (h hq.symm), hq]
      rfl
    · rw [if_neg hq]
  | carry is_move src dest =>
    obtain ⟨hdest, hsrc⟩ := h
    unfold PropEdit.apply
    dsimp only
    by_cases hp : p = src
    · -- the source of a COPY keeps what it has
      subst hp
      cases is_move with
      | true => exact absurd rfl (hsrc rfl)
      | false =>
        unfold migrate_props
        split
        · rfl
        · rename_i found hfound
          dsimp only
          rw [recorded_insert, if_neg (Ne.symm hdest), if_neg Bool.false_ne_true, recorded_insert,
            if_pos rfl, recorded_of_lookup hfound]
    · rw [recorded_migrate_other hp (Ne.symm hdest)]

/-- Whatever is recorded after an edit it has set, or it was recorded before. -/
theorem apply_traced (h : recorded (e.apply props) p name = some v) :
    (∃ q op a, e = .patch q op ∧ a ∈ op.actions ∧ a.name = name ∧ a.value = some v) ∨
      ∃ q, recorded props q name = some v := by
  cases e with
  | patch q op =>
    unfold PropEdit.apply at h
    dsimp only at h
    rw [recorded_insert] at h
    split at h
    · rcases RoundTrip.lookup_patched h with ⟨a, ha, hname, hvalue⟩ | hold
      · exact Or.inl ⟨q, op, a, rfl, ha, hname, hvalue⟩
      · exact Or.inr ⟨q, hold⟩
    · exact Or.inr ⟨p, h⟩
  | carry is_move src dest =>
    refine Or.inr ?_
    unfold PropEdit.apply at h
    dsimp only at h
    by_cases hdest : p = dest
    · rw [hdest, recorded_migrate_dest] at h
      split at h
      · exact ⟨dest, h⟩
      · exact ⟨src, h⟩
    · by_cases hsrc : p = src
      · refine ⟨src, ?_⟩
        unfold migrate_props at h
        split at h
        · rw [← hsrc]
          exact h
        · rename_i found hfound
          dsimp only at h
          rw [recorded_insert, if_neg hdest] at h
          split at h
          · rw [recorded_erase, if_pos hsrc] at h
            cases h
          · rw [recorded_insert, if_pos hsrc] at h
            rw [recorded_of_lookup hfound]
            exact h
      · rw [recorded_migrate_other hsrc hdest] at h
        exact ⟨p, h⟩

end Edits

/-! ## The edit of a request -/

/-- Whether a reply reports success. -/
def is_success : Option AppResult → Bool
  | some (.ok _) => true
  | _ => false

/-- The paths of a COPY or MOVE. -/
def carried (is_move : Bool) (cwd : Path) (req : Request) (w : World) : Option PropEdit :=
  (w.resolve_existing cwd req.uri_path).bind fun src =>
    (parse_destination req.headers).bind fun text =>
      (w.resolve_and_guard cwd text).1.toOption.map fun dest => .carry is_move src dest

/-- The edit that a request makes, if any. -/
def edit (c : Call) (s : Site) : Option PropEdit :=
  if is_success (reply c s) then
    match c.req.method with
    | .PROPPATCH => ((found c s).resolve_existing c.cwd c.req.uri_path).bind fun p =>
      c.req.proppatch_body.map fun op => .patch p op
    | .COPY => carried false c.cwd c.req (found c s)
    | .MOVE => carried true c.cwd c.req (found c s)
    | _ => none
  else none

section Handlers

variable {os : Os} {cwd : Path} {fuel : ℕ} {req : Request} {w : World} {is_move : Bool}

theorem lock_props {clock : Clock} {default_hasher : ℕ → UInt64} :
    (handle_lock os cwd clock default_hasher req w).2.app.dead_props = w.app.dead_props := by
  have hsame := World.guard_same cwd w (trim_end_matches '/' req.uri_path)
  unfold handle_lock
  dsimp only
  rcases hguard : w.resolve_and_guard cwd (trim_end_matches '/' req.uri_path) with ⟨e | target, w'⟩
  all_goals rw [hguard] at hsame
  · exact hsame.dead_props
  · dsimp only
    split
    · exact hsame.dead_props
    · split
      · exact hsame.dead_props
      · split
        all_goals exact hsame.dead_props

/-- A transfer that does not succeed leaves the properties alone. -/
theorem failed_props
    (hno : ∀ status, (do_move_or_copy os cwd fuel req is_move w).1 ≠ some (.ok status)) :
    (do_move_or_copy os cwd fuel req is_move w).2.app.dead_props = w.app.dead_props := by
  unfold do_move_or_copy at hno ⊢
  -- in order: the header, the source, the target, the source itself, the guard
  split
  · rfl
  · rename_i text htext
    rw [htext] at hno
    dsimp only at hno
    split
    · rfl
    · rename_i src hsrc
      rw [hsrc] at hno
      dsimp only at hno
      split
      · rfl
      · rename_i target htarget
        rw [htarget] at hno
        dsimp only at hno
        split
        · rfl
        · rename_i hcomps
          rw [if_neg hcomps] at hno
          have hprops := guard_dead_props cwd w text
          rcases hguard : w.resolve_and_guard cwd text with ⟨e | dest, w'⟩
          · rw [hguard] at hprops
            exact hprops
          · rw [hguard] at hprops hno
            dsimp only at hprops hno ⊢
            rw [← hprops]
            unfold transfer at hno ⊢
            dsimp only at hno ⊢
            -- only a transfer that ends with 201 or 204 migrates the properties
            split
            · rfl
            · rename_i hover
              rw [if_neg hover] at hno
              split
              · rfl
              · rename_i src_type hmeta
                rw [hmeta] at hno
                dsimp only at hno
                split
                · rfl
                · rfl
                · rename_i hcopy
                  rw [hcopy] at hno
                  exact absurd rfl (hno _)

end Handlers

/-! ## Runs -/

section Runs

variable {c : Call} {s t u : Site} {e : Event} {tr : List Event} {p : Path} {name v : String}

/-- MOVE and COPY make exactly the edit that they carry. -/
theorem transfer_edit {is_move : Bool} {w : World} :
    (do_move_or_copy c.os c.cwd c.fuel c.req is_move w).2.app.dead_props =
      (if is_success (do_move_or_copy c.os c.cwd c.fuel c.req is_move w).1 then
        carried is_move c.cwd c.req w else none).elim w.app.dead_props
          (PropEdit.apply w.app.dead_props) := by
  rcases hr : (do_move_or_copy c.os c.cwd c.fuel c.req is_move w).1 with _ | code | status
  · exact failed_props fun status h => by
      rw [hr] at h
      cases h
  · exact failed_props fun status h => by
      rw [hr] at h
      cases h
  · obtain ⟨text, src, dest, htext, hsrc, hdest, heq⟩ := transfer_of_success hr
    have hcarried : carried is_move c.cwd c.req w = some (.carry is_move src dest) := by
      unfold carried
      rw [hsrc, htext, Option.bind_some, Option.bind_some, hdest]
      rfl
    rw [heq] at hr ⊢
    rw [hcarried]
    have hdone : transfer c.os c.fuel c.req is_move src dest (w.resolve_and_guard c.cwd text).2 =
        (some (.ok status), (transfer c.os c.fuel c.req is_move src dest
          (w.resolve_and_guard c.cwd text).2).2) := Prod.ext hr rfl
    have hprops := transfer_props hdone
    rw [guard_dead_props] at hprops
    exact hprops

/-- **A request edits the properties, or leaves them.** -/
theorem served_props :
    (served c s).app.dead_props =
      (edit c s).elim s.app.dead_props (PropEdit.apply s.app.dead_props) := by
  have hfound : (found c s).app.dead_props = s.app.dead_props := rfl
  -- the lock check lets the request through to its handler, or refuses it
  rcases reply_eq c s with ⟨-, hreply, hserved⟩ | ⟨⟨status, -, hreply⟩, hserved⟩
  · rw [hserved]
    unfold edit
    rw [hreply]
    unfold dispatch replies
    cases hm : c.req.method with
    | PROPPATCH =>
      dsimp only
      unfold handle_proppatch
      rcases (found c s).resolve_existing c.cwd c.req.uri_path with _ | q
      · rfl
      · rcases c.req.proppatch_body with _ | op
        · rfl
        · rfl
    | COPY =>
      dsimp only
      exact transfer_edit
    | MOVE =>
      dsimp only
      exact transfer_edit
    -- no other handler writes to the store of properties
    | PUT =>
      dsimp only
      rw [ite_self]
      exact (handle_put_stores c.os c.cwd c.req (found c s)).1
    | MKCOL =>
      dsimp only
      rw [ite_self]
      exact (handle_mkcol_stores c.os c.cwd c.req (found c s)).1
    | GET | HEAD =>
      dsimp only
      rw [ite_self]
      rw [handle_get_head_app]
      rfl
    | DELETE =>
      dsimp only
      rw [ite_self]
      rw [handle_delete_app]
      rfl
    | LOCK =>
      dsimp only
      rw [ite_self]
      exact lock_props
    | PROPFIND =>
      dsimp only
      rw [ite_self]
      unfold handle_propfind
      split
      · rfl
      · split
        all_goals rfl
    | UNLOCK | OPTIONS | PATCH | REPORT =>
      dsimp only
      rw [ite_self]
      rfl
  · rw [hserved]
    unfold edit
    rw [hreply]
    rfl

def edits_of (s : Site) : Event → List PropEdit
  | .request c => (edit c s).toList
  | .cleanup _ => []

/-- The edits of a run, in order. -/
def edits : Site → List Event → List PropEdit
  | _, [] => []
  | s, e :: tr => edits_of s e ++ edits (next s e) tr

/-- An event's edits are all that happens to the properties. -/
theorem step_props (hstep : Step s e t) :
    t.app.dead_props = (edits_of s e).foldl PropEdit.apply s.app.dead_props := by
  cases hstep with
  | cleanup now hnow => rfl
  | request c henforce hfirst hsecond =>
    show (served c s).app.dead_props = ((edit c s).toList).foldl PropEdit.apply s.app.dead_props
    rw [served_props]
    cases edit c s
    all_goals rfl

/-- **The properties after a run** are those before, edited. -/
theorem run_props (hrun : Lts.Run Step s tr t) :
    t.app.dead_props = (edits s tr).foldl PropEdit.apply s.app.dead_props := by
  induction hrun with
  | nil s => rfl
  | @cons s u t e tr hstep _ ih =>
    unfold edits
    rw [List.foldl_append, ← step_props hstep, ← step_next hstep]
    exact ih

/-- Edits that spare a property leave it as it is. -/
theorem edits_spare {es : List PropEdit} (h : ∀ e ∈ es, e.Spares p name)
    (props : DeadPropertyStore) :
    recorded (es.foldl PropEdit.apply props) p name = recorded props p name := by
  induction es generalizing props with
  | nil => rfl
  | cons e es ih =>
    rw [List.forall_mem_cons] at h
    rw [List.foldl_cons, ih h.2, apply_spares h.1]

/-- A property was set by one of the edits, or was there before. -/
theorem edits_traced {es : List PropEdit} {props : DeadPropertyStore}
    (h : recorded (es.foldl PropEdit.apply props) p name = some v) :
    (∃ q op a, .patch q op ∈ es ∧ a ∈ op.actions ∧ a.name = name ∧ a.value = some v) ∨
      ∃ q, recorded props q name = some v := by
  induction es generalizing props with
  | nil => exact Or.inr ⟨p, h⟩
  | cons e es ih =>
    rw [List.foldl_cons] at h
    rcases ih h with ⟨q, op, a, hmem, hset⟩ | ⟨q, hq⟩
    · exact Or.inl ⟨q, op, a, List.mem_cons_of_mem _ hmem, hset⟩
    · rcases apply_traced hq with ⟨q', op, a, rfl, hset⟩ | hbefore
      · exact Or.inl ⟨q', op, a, List.mem_cons_self, hset⟩
      · exact Or.inr hbefore

/-- An edit of a run is that of one of its requests. -/
theorem mem_edits {edit' : PropEdit} (hrun : Lts.Run Step s tr t) (h : edit' ∈ edits s tr) :
    ∃ tr₁ c tr₂ u, tr = tr₁ ++ .request c :: tr₂ ∧ Lts.Run Step s tr₁ u ∧ edit c u = some edit' := by
  induction hrun with
  | nil s => cases h
  | @cons s s' t e tr hstep _ ih =>
    unfold edits at h
    rw [← step_next hstep, List.mem_append] at h
    rcases h with hown | hlater
    · cases e with
      | cleanup now => cases hown
      | request c => exact ⟨[], c, tr, s, rfl, Lts.Run.nil s, Option.mem_toList.mp hown⟩
    · obtain ⟨tr₁, c, tr₂, u, rfl, hbefore, hedit⟩ := ih hlater
      exact ⟨e :: tr₁, c, tr₂, u, rfl, Lts.Run.cons hstep hbefore, hedit⟩

theorem edit_patch {op : PropPatchOp} :
    edit c s = some (.patch p op) ↔ is_success (reply c s) = true ∧ c.req.method = .PROPPATCH ∧
      (found c s).resolve_existing c.cwd c.req.uri_path = some p ∧ c.req.proppatch_body = some op := by
  unfold edit
  by_cases hok : is_success (reply c s) = true
  · rw [if_pos hok]
    cases hm : c.req.method with
    | PROPPATCH =>
      simp [hok, Option.bind_eq_some_iff, Option.map_eq_some_iff]
    | COPY | MOVE =>
      dsimp only
      unfold carried
      simp [Option.bind_eq_some_iff, Option.map_eq_some_iff]
    | _ => simp
  · rw [if_neg hok]
    simp [hok]

/-- A property that is recorded is reported. -/
theorem recorded_reported {n : RoundTrip.PropName} {srv : Propfind.Server} {path : List Char}
    (hpath : srv.resolve_existing path = some p)
    (hrec : recorded srv.app.dead_props p n.key = some v) (names : List String) :
    ∃ r, srv.handle_propfind 0 .Zero path (some (.Named names)) = some (.ok [r]) ∧
      RoundTrip.Reports r n (CharData.eol v.toList) := by
  obtain ⟨x, hx, hlink⟩ := resolve_existing_real hpath
  obtain ⟨r, hanswer, hwritten⟩ := Propfind.propfind_zero 0 (.Named names) hpath hx hlink
  refine ⟨r, hanswer, ?_⟩
  have hdead : ∃ dead, srv.app.dead_props.lookup p = some dead := by
    cases hl : srv.app.dead_props.lookup p with
    | some dead => exact ⟨dead, rfl⟩
    | none =>
      rw [recorded_of_none hl] at hrec
      cases hrec
  obtain ⟨dead, hl⟩ := hdead
  rw [recorded_of_lookup hl] at hrec
  have hown : (srv.own_entry p path x).dead_props = some dead := hl
  exact (RoundTrip.reports_iff hwritten hown).mpr ⟨v, hrec, CharData.value_escape v.toList⟩

/-- A PROPFIND is replied to with the status of its answer. -/
theorem propfind_replied {srv : Propfind.Server} {fuel : ℕ} {depth : Depth} {d : Call}
    {body : Option Xml.PropRequest} {r : Except StatusCode (List Xml.Response)}
    (happ : srv.app = t.app) (hfs : srv.disk.fs = t.fs) (hcwd : srv.cwd = d.cwd)
    (hmethod : d.req.method = .PROPFIND) (hbody : d.req.propfind_body = body.map fun _ => ())
    (h : srv.handle_propfind fuel depth d.req.uri_path body = some r) :
    reply d t = some (r.map fun _ => .MULTI_STATUS) := by
  have hread : LockMw.is_write d.req.method = false := by
    rw [hmethod]
    rfl
  have hresolved : (found d t).resolve_existing d.cwd d.req.uri_path
      = srv.resolve_existing d.req.uri_path := by
    unfold Propfind.Server.resolve_existing
    rw [hfs, happ, hcwd]
    rfl
  rw [StoreLaws.read_reply hread]
  unfold dispatch
  rw [hmethod]
  show (replies (Server.handle_propfind d.cwd d.req (found d t))).1 = _
  unfold Server.handle_propfind
  unfold Propfind.Server.handle_propfind at h
  rw [hresolved, hbody]
  cases hp : srv.resolve_existing d.req.uri_path with
  | none =>
    rw [hp] at h
    cases h
    rfl
  | some p =>
    rw [hp] at h
    cases body with
    | none =>
      cases h
      rfl
    | some prop_request =>
      obtain ⟨entries, -, h⟩ := Option.bind_eq_some_iff.mp h
      obtain ⟨responses, -, h⟩ := Option.bind_eq_some_iff.mp h
      cases h
      rfl

/-- **A property stays until it is touched.** After a PROPPATCH that succeeded, whose last
action on a name sets a value, and any run of requests none of which sets or removes that
property, moves its resource away or puts another one in its place, a PROPFIND that finds
the resource reports the property once, with this value; and the reply to it is 207. -/
theorem property_endures {n : RoundTrip.PropName} {op : PropPatchOp}
    {before after : List PropPatchAction} {a : PropPatchAction} (hc : Step s (.request c) u)
    (hmethod : c.req.method = .PROPPATCH) (hok : is_success (reply c s) = true)
    (hfound : (found c s).resolve_existing c.cwd c.req.uri_path = some p)
    (hbody : c.req.proppatch_body = some op) (hop : op.actions = before ++ a :: after)
    (hname : a.name = n.key) (hvalue : a.value = some v) (hlast : ∀ b ∈ after, b.name ≠ a.name)
    (hrun : Lts.Run Step u tr t) (hspares : ∀ e ∈ edits u tr, e.Spares p n.key)
    {srv : Propfind.Server} {path : List Char} (happ : srv.app = t.app)
    (hpath : srv.resolve_existing path = some p) (names : List String) :
    ∃ r, srv.handle_propfind 0 .Zero path (some (.Named names)) = some (.ok [r]) ∧
      RoundTrip.Reports r n (CharData.eol v.toList) ∧
      ∀ d : Call, srv.disk.fs = t.fs → srv.cwd = d.cwd → d.req.method = .PROPFIND →
        d.req.uri_path = path → d.req.propfind_body = some () →
          reply d t = some (.ok .MULTI_STATUS) := by
  have hedit := edit_patch.mpr ⟨hok, hmethod, hfound, hbody⟩
  have hset : recorded u.app.dead_props p n.key = some v := by
    rw [step_props hc]
    unfold edits_of
    dsimp only
    rw [hedit]
    show recorded (s.app.dead_props.insert p (op.actions.foldl PropPatchAction.apply
      (get_or ∅ p s.app.dead_props))) p n.key = some v
    rw [recorded_insert, if_pos rfl, hop, ← hname]
    exact patch_last hvalue hlast _
  have hkept : recorded srv.app.dead_props p n.key = some v := by
    rw [happ, run_props hrun, edits_spare hspares]
    exact hset
  obtain ⟨r, hanswer, hreports⟩ := recorded_reported hpath hkept names
  refine ⟨r, hanswer, hreports, fun d hfs hcwd hpropfind huri hread => ?_⟩
  subst huri
  have hbody : d.req.propfind_body = (some (Xml.PropRequest.Named names)).map fun _ => () := hread
  exact propfind_replied happ hfs hcwd hpropfind hbody hanswer

/-- A PROPPATCH of `/f` that sets `X:p` to `v`. -/
def patch_f : Call :=
  { request_for .PROPPATCH "/f" with
    req := { (request_for .PROPPATCH "/f").req with
      proppatch_body := some ⟨[⟨RoundTrip.p_name.key, some "v"⟩]⟩ } }

/-- The server after the PROPPATCH, and after a PUT of `/f` that follows it. -/
def patched_f : Site := after patch_f home_f

def put_again : Site := after (request_for .PUT "/f") patched_f

def server_f : Propfind.Server :=
  { Propfind.server_d with
    disk := { Propfind.server_d.disk with fs := put_again.fs }
    app := put_again.app }

theorem property_endures_f :
    ∃ r, server_f.handle_propfind 0 .Zero "/f".toList (some (.Named [])) = some (.ok [r]) ∧
      RoundTrip.Reports r RoundTrip.p_name (CharData.eol "v".toList) ∧
      ∀ d : Call, server_f.disk.fs = put_again.fs → server_f.cwd = d.cwd →
        d.req.method = .PROPFIND → d.req.uri_path = "/f".toList →
          d.req.propfind_body = some () → reply d put_again = some (.ok .MULTI_STATUS) := by
  have hput : edit (request_for .PUT "/f") patched_f = none := ite_self none
  have hpatched : Step home_f (.request patch_f) patched_f := (step_after rfl rfl rfl).1
  have hagain : Step patched_f (.request (request_for .PUT "/f")) put_again :=
    (step_after rfl rfl rfl).1
  have hactions : ([⟨RoundTrip.p_name.key, some "v"⟩] : List PropPatchAction) =
      [] ++ ⟨RoundTrip.p_name.key, some "v"⟩ :: [] := rfl
  refine property_endures (p := [d_name, f_name]) hpatched rfl (by decide) (by decide) rfl
    hactions rfl rfl nofun (Lts.Run.single hagain) ?_ rfl (by decide) []
  intro e he
  unfold edits edits_of at he
  dsimp only at he
  rw [hput] at he
  cases he

/-- **Nothing is recorded that was not set.** In any run from an empty store, a property
that is recorded for a resource was set to its value by a PROPPATCH of the run that
succeeded. -/
theorem property_traced (hinit : s.app.dead_props = ∅) (hrun : Lts.Run Step s tr t)
    (h : recorded t.app.dead_props p name = some v) :
    ∃ tr₁ c tr₂ u op a, tr = tr₁ ++ .request c :: tr₂ ∧ Lts.Run Step s tr₁ u ∧
      c.req.method = .PROPPATCH ∧ is_success (reply c u) = true ∧
      c.req.proppatch_body = some op ∧ a ∈ op.actions ∧ a.name = name ∧ a.value = some v := by
  rw [run_props hrun, hinit] at h
  rcases edits_traced h with ⟨q, op, a, hmem, ha, hname, hvalue⟩ | ⟨q, hq⟩
  · obtain ⟨tr₁, c, tr₂, u, heq, hbefore, hedit⟩ := mem_edits hrun hmem
    obtain ⟨hok, hmethod, -, hbody⟩ := edit_patch.mp hedit
    exact ⟨tr₁, c, tr₂, u, op, a, heq, hbefore, hmethod, hok, hbody, ha, hname, hvalue⟩
  · cases hq

theorem property_traced_f :
    ∃ tr₁ c tr₂ u op a, [.request patch_f, .request (request_for .PUT "/f")] =
        tr₁ ++ Event.request c :: tr₂ ∧ Lts.Run Step home_f tr₁ u ∧ c.req.method = .PROPPATCH ∧
      is_success (reply c u) = true ∧ c.req.proppatch_body = some op ∧ a ∈ op.actions ∧
      a.name = RoundTrip.p_name.key ∧ a.value = some "v" :=
  property_traced (p := [d_name, f_name]) rfl
    (Lts.Run.cons (step_after rfl rfl rfl).1 (Lts.Run.single (step_after rfl rfl rfl).1))
    (show recorded put_again.app.dead_props [d_name, f_name] RoundTrip.p_name.key = some "v" by
      decide)

end Runs

end Rshs.PropHistory
