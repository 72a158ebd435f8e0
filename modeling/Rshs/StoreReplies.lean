/-
When PUT, MKCOL and DELETE succeed.

A success is a command that was performed; here is the converse. When no system call fails
by itself, a request that the middleware lets through succeeds exactly when its URL names
something and its command is allowed on the served tree, and the status tells what stood
there before (`success_exact`). No stale entry of the cache of parents, and nothing outside
the root, has a part in it.
-/
import Rshs.StoreLaws

set_option autoImplicit false

namespace Rshs.StoreReplies

open StdPath Posix Hierarchy Rshs.Webdav Rshs.IfHeader Rshs.Locks Rshs.Resolve Rshs.App
open Rshs.Http Rshs.LockMw Rshs.Server Rshs.StoreRuns Rshs.StoreLaws
open Rshs.Lifetime (Call Site Event served found enforced)
open Rshs.CachedParents (request_for)
open Rshs.Grounds Rshs.ServedRoot Rshs.StoreSteps

/-- The last name can be given to a file: it has no NUL in it. -/
def Nameable (s : List Name) : Prop := ∀ n, s.getLast? = some n → n.has_nul = false

section Handlers

variable {os : Os} {cwd R : Path} {req : Request} {w : World} {t : Files} {s : List Name}
  {status : StatusCode}

theorem room_iff {fs : Fs} (ht : Shows R fs t) : Room R fs s ↔ t.Place s ∧ Nameable s := by
  unfold Room Tree.Place Nameable
  rw [ht.folder_iff, and_assoc]

/-- Where there is a place, a plain text has a target. -/
theorem guarded_of_place (h : Serving cwd R w.app w.machine.fs) (ht : Shows R w.machine.fs t)
    {text : List Char} (hplain : Plain (request_text text)) (hplace : t.Place (target_names text)) :
    (w.resolve_and_guard cwd text).1 = .ok (R ++ target_names text) := by
  apply h.guard_ok hplain
  rw [ht.folder_iff.mpr hplace.2]
  simp

/-- The status of a PUT that succeeds. -/
def put_status (t : Files) (s : List Name) : StatusCode :=
  if t.entry s = none then .CREATED else .OK

theorem handle_put_ok_iff (h : Serving cwd R w.app w.machine.fs) (ht : Shows R w.machine.fs t)
    (hcalm : ∀ n, os.fault n = false) :
    (handle_put os cwd req w).1 = .ok status ↔
      Plain (request_text req.uri_path) ∧ Nameable (target_names req.uri_path) ∧
        (Command.store (target_names req.uri_path) req.body).Allowed t ∧
        status = put_status t (target_names req.uri_path) := by
  -- whether something is there, for the file system and for the tree
  have hexisted : (metadata w.machine.fs (R ++ target_names req.uri_path)).isOk = true ↔
      t.entry (target_names req.uri_path) ≠ none := by
    rw [h.ground.metadata_isOk, ne_eq, ht.none_iff]
  have hstatus : (if (metadata w.machine.fs (R ++ target_names req.uri_path)).isOk = true then
      StatusCode.OK else .CREATED) = put_status t (target_names req.uri_path) := by
    unfold put_status
    by_cases hnone : t.entry (target_names req.uri_path) = none
    · rw [if_neg (fun he => hexisted.mp he hnone), if_pos hnone]
    · rw [if_pos (hexisted.mpr hnone), if_neg hnone]
  have hw := guard_machine w cwd req.uri_path
  unfold handle_put
  rcases hr : w.resolve_and_guard cwd req.uri_path with ⟨e | target, w'⟩
  all_goals
    rw [hr] at hw
    dsimp only at hw ⊢
  · -- what has no target has no parent, or is no plain text
    constructor
    · intro hok
      cases hok
    · rintro ⟨hplain, -, ⟨hplace, -⟩, -⟩
      have hguard := guarded_of_place h ht hplain hplace
      rw [hr] at hguard
      cases hguard
  · have hguard : (w.resolve_and_guard cwd req.uri_path).1 = .ok target := by rw [hr]
    obtain ⟨hplain, hne, rfl⟩ := h.guard hguard
    rw [aim_machine, hw, hstatus]
    by_cases hcan : Nameable (target_names req.uri_path) ∧
        (Command.store (target_names req.uri_path) req.body).Allowed t
    · obtain ⟨hname, hplace, hleaf⟩ := hcan
      have hroom := (room_iff ht).mpr ⟨hplace, hname⟩
      rw [create_ok (hcalm _) ((h.ground.locate_iff hne).mpr ⟨rfl, hroom⟩)
        (fun hdir => hleaf (ht.folder_iff.mp hdir))]
      dsimp only
      rw [write_ok (hcalm _)]
      dsimp only
      rw [Except.ok.injEq]
      exact ⟨fun heq => ⟨hplain, hname, ⟨hplace, hleaf⟩, heq.symm⟩, fun hx => hx.2.2.2.symm⟩
    · rcases create_cases os (R ++ target_names req.uri_path) w.machine with
        ⟨e, hc⟩ | ⟨loc, hl, hslot, -⟩
      · rw [hc]
        constructor
        · intro hok
          cases hok
        · rintro ⟨-, hname, ha, -⟩
          exact absurd ⟨hname, ha⟩ hcan
      · -- what could be opened could be stored
        obtain ⟨rfl, hroom⟩ := (h.ground.locate_iff hne).mp hl
        obtain ⟨hplace, hname⟩ := (room_iff ht).mp hroom
        exact absurd ⟨hname, hplace, fun hf => hslot.2.2 (ht.folder_iff.mpr hf)⟩ hcan

theorem handle_mkcol_ok_iff (h : Serving cwd R w.app w.machine.fs) (ht : Shows R w.machine.fs t)
    (hcalm : ∀ n, os.fault n = false) {text : List Char}
    (htext : trim_end_matches '/' req.uri_path = text) :
    (handle_mkcol os cwd req w).1 = .ok status ↔
      has_body req.headers = false ∧ Plain (request_text text) ∧ Nameable (target_names text) ∧
        (Command.make (target_names text) (.folder (β := List UInt8))).Allowed t ∧
        status = .CREATED := by
  have hw := guard_machine w cwd text
  unfold handle_mkcol
  dsimp only
  rw [htext]
  by_cases hbody : has_body req.headers = true
  · rw [if_pos hbody, hbody]
    simp
  · rw [if_neg hbody]
    rw [Bool.not_eq_true] at hbody
    rcases hr : w.resolve_and_guard cwd text with ⟨e | target, w'⟩
    all_goals
      rw [hr] at hw
      dsimp only at hw ⊢
    · constructor
      · intro hok
        cases hok
      · rintro ⟨-, hplain, -, ⟨hplace, -⟩, -⟩
        have hguard := guarded_of_place h ht hplain hplace
        rw [hr] at hguard
        cases hguard
    · have hguard : (w.resolve_and_guard cwd text).1 = .ok target := by rw [hr]
      obtain ⟨hplain, hne, rfl⟩ := h.guard hguard
      rw [hw]
      cases hm : metadata w.machine.fs (R ++ target_names text) with
      | ok ft =>
        -- something is there
        have hsome : t.entry (target_names text) ≠ none := by
          rw [ne_eq, ← ht.none_iff, ← ne_eq, ← h.ground.metadata_isOk, hm]
          rfl
        constructor
        · intro hok
          cases hok
        · rintro ⟨-, -, -, ⟨-, hnone⟩, -⟩
          exact absurd hnone hsome
      | error e =>
        have hnone : w.machine.fs.node (R ++ target_names text) = none := by
          by_contra hsome
          have hok := h.ground.metadata_isOk.mpr hsome
          rw [hm] at hok
          cases hok
        have habsent := ht.none_iff.mp hnone
        dsimp only
        rw [aim_machine, hw]
        by_cases hcan : Nameable (target_names text) ∧ t.Place (target_names text)
        · obtain ⟨hname, hplace⟩ := hcan
          have hroom := (room_iff ht).mpr ⟨hplace, hname⟩
          rw [create_dir, make_ok (hcalm _) ((h.ground.locate_entry_iff hne).mpr ⟨rfl, hroom⟩) hnone]
          dsimp only
          rw [Except.ok.injEq]
          exact ⟨fun heq => ⟨hbody, hplain, hname, ⟨hplace, habsent⟩, heq.symm⟩,
            fun hx => hx.2.2.2.2.symm⟩
        · rcases make_cases os .dir (R ++ target_names text) w.machine with
            ⟨e, hc⟩ | ⟨loc, hl, -, -, -⟩
          · rw [create_dir, hc]
            constructor
            · intro hok
              cases hok
            · rintro ⟨-, -, hname, ⟨hplace, -⟩, -⟩
              exact absurd ⟨hname, hplace⟩ hcan
          · obtain ⟨rfl, hroom⟩ := (h.ground.locate_entry_iff hne).mp hl
            obtain ⟨hplace, hname⟩ := (room_iff ht).mp hroom
            exact absurd ⟨hname, hplace⟩ hcan

theorem handle_delete_ok_iff (h : Serving cwd R w.app w.machine.fs) (ht : Shows R w.machine.fs t)
    (hcalm : ∀ n, os.fault n = false) :
    (handle_delete os cwd req w).1 = .ok status ↔
      ∃ s, found_names cwd R w req.uri_path = some s ∧
        (Command.remove (β := List UInt8) s).Allowed t ∧ status = .NO_CONTENT := by
  unfold handle_delete
  cases hr : w.resolve_existing cwd req.uri_path with
  | none =>
    unfold found_names
    rw [hr]
    simp
  | some p =>
    obtain ⟨s, hs, rfl⟩ := found_names_eq h hr
    have hsome : w.machine.fs.node (R ++ s) ≠ none := (resolve_existing_real hr).ne_none
    have hentry : t.entry s ≠ none := fun hnone => hsome (ht.none_iff.mpr hnone)
    obtain ⟨x, hx⟩ := Option.ne_none_iff_exists'.mp hsome
    -- what is asked comes down to whether it is the root
    have hwanted : (∃ s', found_names cwd R w req.uri_path = some s' ∧
        (Command.remove (β := List UInt8) s').Allowed t ∧ status = .NO_CONTENT) ↔
          s ≠ [] ∧ status = .NO_CONTENT := by
      rw [hs]
      constructor
      · rintro ⟨s', heq, ⟨hne, -⟩, hst⟩
        cases heq
        exact ⟨hne, hst⟩
      · rintro ⟨hne, hst⟩
        exact ⟨s, rfl, ⟨hne, hentry⟩, hst⟩
    rw [hwanted]
    dsimp only
    rw [h.ground.metadata_iff.mpr ⟨x, hx, rfl⟩]
    dsimp only
    by_cases hroot : s = []
    · subst hroot
      rw [List.append_nil] at hx ⊢
      rw [h.ground.root] at hx
      cases hx
      rw [show Node.dir.file_type = .dir from rfl, if_pos rfl, if_pos h.canonical.symm]
      simp
    · have hroom := h.ground.room_of_some hroot hsome
      have hl := (h.ground.locate_entry_iff hroot).mpr ⟨rfl, hroom⟩
      have hdone : (Except.ok StatusCode.NO_CONTENT : AppResult) = .ok status ↔
          s ≠ [] ∧ status = .NO_CONTENT := by
        rw [Except.ok.injEq]
        exact ⟨fun heq => ⟨hroot, heq.symm⟩, fun hx => hx.2.symm⟩
      by_cases hdir : x.file_type = .dir
      · have hnot : (R ++ s).comps ≠ w.app.root_canonical.comps := by
          intro heq
          rw [h.canonical] at heq
          have hpre : (R ++ s).comps <+: R.comps := heq ▸ List.prefix_rfl
          have hlen := (Path.comps_prefix_iff.mp hpre).length_le
          have hpos := List.length_pos_iff.mpr hroot
          rw [List.length_append] at hlen
          omega
        rw [if_pos hdir, if_neg hnot, aim_machine,
          remove_dir_all_ok (hcalm _) hl hx (fun c hc => by rw [hc] at hdir; cases hdir)]
        exact hdone
      · rw [if_neg hdir, aim_machine,
          remove_file_ok (hcalm _) hl hx (fun hc => by rw [hc] at hdir; exact hdir rfl)]
        exact hdone

end Handlers

/-! ## Served requests -/

section Requests

variable {cwd R : Path} {s : Site} {c : Call} {t : Files} {status : StatusCode}

/-- A reply of a handler that always replies. -/
theorem reply_ok_iff {go : World → AppResult × World}
    (hgo : dispatch c.os c.cwd c.clock c.default_hasher c.fuel c.req (found c s) =
      replies (go (found c s))) :
    reply c s = some (.ok status) ↔
      (enforced c s).1.reply = .ok () ∧ (go (found c s)).1 = .ok status := by
  rcases reply_eq c s with ⟨hok, hreply, -⟩ | ⟨⟨refusal, herror, hreply⟩, -⟩
  · rw [hreply, hgo, hok]
    simp [replies]
  · rw [hreply, herror]
    simp

/-- **When PUT, MKCOL and DELETE succeed.** If no system call fails by itself, the reply is a
success exactly when the middleware lets the request through, its URL names something, and
its command is allowed on the tree that is served; the status tells what was there. -/
theorem success_exact (h : Serving cwd R s.app s.fs) (ht : Shows R s.fs t) (hcwd : c.cwd = cwd)
    (hcalm : ∀ n, c.os.fault n = false) (status : StatusCode) :
    let put_names := target_names c.req.uri_path
    let mkcol_text := trim_end_matches '/' c.req.uri_path
    (c.req.method = .PUT → (reply c s = some (.ok status) ↔ (enforced c s).1.reply = .ok () ∧
      Plain (request_text c.req.uri_path) ∧ Nameable put_names ∧
      (Command.store put_names c.req.body).Allowed t ∧ status = put_status t put_names)) ∧
    (c.req.method = .MKCOL → (reply c s = some (.ok status) ↔ (enforced c s).1.reply = .ok () ∧
      has_body c.req.headers = false ∧ Plain (request_text mkcol_text) ∧
      Nameable (target_names mkcol_text) ∧
      (Command.make (target_names mkcol_text) (.folder (β := List UInt8))).Allowed t ∧
      status = .CREATED)) ∧
    (c.req.method = .DELETE → (reply c s = some (.ok status) ↔ (enforced c s).1.reply = .ok () ∧
      ∃ names, found_names cwd R (found c s) c.req.uri_path = some names ∧
        (Command.remove (β := List UInt8) names).Allowed t ∧ status = .NO_CONTENT)) := by
  subst hcwd
  have hfound := found_serving h rfl
  have hfs : Shows R (found c s).machine.fs t := ht
  refine ⟨fun hm => ?_, fun hm => ?_, fun hm => ?_⟩
  · rw [@reply_ok_iff s c status (handle_put c.os c.cwd c.req) (by unfold dispatch; rw [hm]),
      handle_put_ok_iff hfound hfs hcalm]
  · rw [@reply_ok_iff s c status (handle_mkcol c.os c.cwd c.req) (by unfold dispatch; rw [hm]),
      handle_mkcol_ok_iff hfound hfs hcalm rfl]
  · rw [@reply_ok_iff s c status (handle_delete c.os c.cwd c.req) (by unfold dispatch; rw [hm]),
      handle_delete_ok_iff hfound hfs hcalm]

/-- A PUT of `/f`, a MKCOL of `/x/`, and then a DELETE of `/./f`. -/
theorem success_exact_f :
    (reply (request_for .PUT "/f") home = some (.ok .CREATED) ↔
      (enforced (request_for .PUT "/f") home).1.reply = .ok () ∧ Plain (request_text "/f".toList) ∧
        Nameable (target_names "/f".toList) ∧
        (Command.store (target_names "/f".toList) []).Allowed home_ground.tree ∧
        StatusCode.CREATED = put_status home_ground.tree (target_names "/f".toList)) ∧
    (reply (request_for .MKCOL "/x/") home = some (.ok .CREATED) ↔
      (enforced (request_for .MKCOL "/x/") home).1.reply = .ok () ∧ has_body {} = false ∧
        Plain (request_text (trim_end_matches '/' "/x/".toList)) ∧
        Nameable (target_names (trim_end_matches '/' "/x/".toList)) ∧
        (Command.make (target_names (trim_end_matches '/' "/x/".toList))
          (.folder (β := List UInt8))).Allowed home_ground.tree ∧
        StatusCode.CREATED = .CREATED) ∧
    ∃ t, Shows [d_name] home_f.fs t ∧
      (reply (request_for .DELETE "/./f") home_f = some (.ok .NO_CONTENT) ↔
        (enforced (request_for .DELETE "/./f") home_f).1.reply = .ok () ∧
        ∃ names, found_names [] [d_name] (found (request_for .DELETE "/./f") home_f) "/./f".toList
            = some names ∧
          (Command.remove (β := List UInt8) names).Allowed t ∧ StatusCode.NO_CONTENT = .NO_CONTENT) := by
  obtain ⟨hserving, -, ha, hshows⟩ :=
    performed_shows home_serving home_ground.shows step_home_f (put_f_label (by decide))
  exact ⟨(success_exact home_serving home_ground.shows rfl (fun _ => rfl) .CREATED).1 rfl,
    (success_exact (c := request_for .MKCOL "/x/") home_serving home_ground.shows rfl
      (fun _ => rfl) .CREATED).2.1 rfl,
    _, hshows, (success_exact (c := request_for .DELETE "/./f") hserving hshows rfl
      (fun _ => rfl) .NO_CONTENT).2.2 rfl⟩

end Requests

end Rshs.StoreReplies
