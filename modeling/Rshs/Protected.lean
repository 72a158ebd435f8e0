/-
What an exclusive lock protects, over any run of requests.

A stranger is a request that does not name the token. Whatever strangers ask for, the
lock stays as it is until it runs out (`run_leaves`), and the middleware refuses them the
paths it covers (`stranger_locked`), so that nothing there changes: not the resource and,
below an infinite lock, no member, nor the dead properties of either (`locked_endures`).
What the middleware does not look at is left to the conditions: a URL that it resolves to
another path than the handler does, and a collection above the lock that is taken away
whole.
-/
import Rshs.ServerLocks
import Rshs.PropHistory
import Rshs.Enforcement
import Rshs.CheckedPath
import Rshs.Release

set_option autoImplicit false

namespace Rshs.Protected

open StdPath Posix Hierarchy Rshs.Webdav Rshs.IfHeader Rshs.Ls Rshs.Locks Rshs.LockRuns
open Rshs.Resolve Rshs.App Rshs.Http Rshs.CopyMove Rshs.LockMw Rshs.Server Rshs.Enforcement
open Rshs.Lifetime (Call Site found served enforced)
open Rshs.Migration (recorded)
open Rshs.CachedParents (StepIn request_for after step_after)
open Rshs.StoreRuns (command labels label reply reply_eq next step_next found_names)
open Rshs.StoreLaws (launched started)
open Rshs.Grounds Rshs.ServedRoot Rshs.StoreSteps Rshs.ServerLocks

/-! ## The lock in the store -/

section Machine

variable {default_hasher : ℕ → UInt64} {now : ℕ} {req : LockRequest} {locks : LockStore}
  {l : LockInfo} {k : Path} {s t : LockState} {e : LockRuns.Event} {tr : List LockRuns.Event}

/-- The critical section is given the token. -/
def Presents (token : String) : LockRuns.Event → Prop
  | .lock_begin _ req => token ∈ req.if_tokens
  | .unlock _ _ token' => token' = token
  | _ => False

theorem first_section_leaves (h : Exclusive now locks) (hl : l ∈ active_slice now (locks.at k))
    (ht : l.token ∉ req.if_tokens) : l ∈ (first_section default_hasher now req locks).2.at k := by
  have hmem : l ∈ locks.at k := (Lease.mem_live.mp hl).1
  rcases first_section_cases default_hasher now req locks with
    ⟨lock, locks', hfind, heq⟩ | ⟨-, ⟨status, -, heq⟩ | ⟨token, entry, hd, heq⟩ | ⟨he, heq⟩⟩
  · -- the lock that is refreshed has a token that was presented
    obtain ⟨q, pre, x, post, -, -, hx, -, -, hown, hlock, rfl⟩ := find_and_refresh_some hfind
    have hne : l ≠ x := by
      rintro rfl
      exact ht (by simpa using hown)
    rw [heq, at_insert]
    split
    · rename_i hq
      subst hq
      rw [at_of_lookup hx, List.mem_append, List.mem_cons] at hmem
      rw [List.mem_append, List.mem_cons]
      rcases hmem with hpre | rfl | hpost
      · exact Or.inl hpre
      · exact absurd rfl hne
      · exact Or.inr (Or.inr hpost)
    · exact hmem
  · rw [heq, at_or_default]
    exact hmem
  · rw [heq, at_insert]
    split
    · rename_i hk
      rw [hk] at hl
      rcases decision_keeps (h req.target) hl hd with hkept | htok
      · exact List.mem_append_left _ hkept
      · exact absurd htok ht
    · rw [at_or_default]
      exact hmem
  · rw [heq, at_insert]
    split
    · rename_i hk
      rw [hk, he] at hmem
      cases hmem
    · rw [at_or_default]
      exact hmem

theorem second_section_leaves {created : Bool} (hl : l ∈ locks.at k) :
    l ∈ (second_section default_hasher now req created locks).2.at k := by
  rcases second_section_cases default_hasher now req created locks with ⟨-, heq⟩ | ⟨he, heq⟩
  · rw [heq, at_or_default]
    exact hl
  · rw [heq, at_insert]
    split
    · rename_i hk
      rw [hk, he] at hl
      cases hl
    · rw [at_or_default]
      exact hl

/-- A section that is not given the token leaves the lock as it is, unless it runs out. -/
theorem step_leaves (h : Exclusive s.clock s.locks) (hs : LockRuns.Step default_hasher s e t)
    (hl : l ∈ s.locks.at k) (ht : ¬ Presents l.token e) (hlive : l.is_expired t.clock = false) :
    l ∈ t.locks.at k := by
  cases hs with
  | lock_begin now req hnow =>
    exact first_section_leaves (h.later hnow) (Lease.mem_live.mpr ⟨hl, hlive⟩) ht
  | lock_commit now req created hnow hreq => exact second_section_leaves hl
  | lock_abort now req hnow hreq => exact hl
  | unlock now fs_path token hnow =>
    rw [at_unlock_section]
    split
    · exact List.mem_filter.mpr ⟨hl, by simpa using fun heq => ht heq.symm⟩
    · exact hl
  | cleanup now hnow =>
    rw [at_cleanup]
    exact Lease.mem_live.mpr ⟨hl, hlive⟩
  | other now locks hnow hsame =>
    have hat : LockStore.at locks k = s.locks.at k := by
      simp [LockStore.at, FinMap.get_or, hsame]
    rw [hat]
    exact hl

/-- The clock of the machine does not go back. -/
theorem machine_clock (hrun : Lts.Run (LockRuns.Step default_hasher) s tr t) :
    s.clock ≤ t.clock := by
  refine hrun.keeps (fun u e v hu hs => le_trans hu ?_) le_rfl
  cases hs
  all_goals assumption

/-- A lock that has not run out later has not run out before. -/
theorem live_before {later : ℕ} (hle : now ≤ later) (hlive : l.is_expired later = false) :
    l.is_expired now = false := by
  cases hnow : l.is_expired now with
  | false => rfl
  | true =>
    have hdead : l.is_expired later = true := expired_perishable _ _ l hle hnow
    rw [hlive] at hdead
    cases hdead

theorem run_leaves (h : Exclusive s.clock s.locks)
    (hrun : Lts.Run (LockRuns.Step default_hasher) s tr t) (hl : l ∈ s.locks.at k)
    (ht : ∀ e ∈ tr, ¬ Presents l.token e) (hlive : l.is_expired t.clock = false) :
    l ∈ t.locks.at k := by
  induction hrun with
  | nil s => exact hl
  | @cons s u t e tr hs hrun ih =>
    rw [List.forall_mem_cons] at ht
    have hleft : l ∈ u.locks.at k :=
      step_leaves h hs hl ht.1 (live_before (machine_clock hrun) hlive)
    exact ih (LockRuns.step_exclusive h hs) hleft ht.2 hlive

end Machine

/-! ## Requests of strangers -/

/-- The request does not name the token: not in its `If` header, which stops it at a lock
if there is one, and not in its `Lock-Token` header. -/
structure Stranger (token : String) (headers : HeaderMap) : Prop where
  unnamed : ∀ list ∈ parse_if_header headers, token ∉ list.positive_tokens
  stopped : parse_if_header headers = [] ∨ ∃ list ∈ parse_if_header headers,
    list.resource_tag = none ∧ ∃ t, IfCondition.StateToken t ∈ list.conditions
  unlock : parse_lock_token_header headers ≠ some token

/-- The paths a lock stored at `k` covers. -/
def Covered (l : LockInfo) (k m : Path) : Prop := m = k ∨ (l.depth = .Infinity ∧ k <+: m)

section Strangers

variable {now : ℕ} {locks : LockStore} {root : PathBuf} {l : LockInfo} {k m : Path}
  {headers : HeaderMap} {request_path : List Char}

theorem stranger_stops (hs : Stranger l.token headers)
    (hactive : active_slice now (locks.at k) = [l]) :
    Stops now locks (parse_if_header headers) request_path k := by
  rcases hs.stopped with hnil | ⟨list, hlist, htag, t, ht⟩
  · exact Or.inl ⟨hnil, by rw [hactive]; simp⟩
  · refine Or.inr ⟨list, hlist, Or.inl htag, .StateToken t, ht, ?_⟩
    rw [hactive]
    by_cases hno : t = no_lock
    · rw [hno]
      exact Fails.locked (List.cons_ne_nil l [])
    · refine Fails.token t hno fun x hx heq => ?_
      -- the only active lock has a token that the list does not name
      rw [List.mem_singleton] at hx
      have hnamed : t ∈ list.positive_tokens := List.mem_filterMap.mpr ⟨.StateToken t, ht, rfl⟩
      rw [← heq, hx] at hnamed
      exact hs.unnamed list hlist hnamed

/-- **The middleware refuses a stranger** whatever the lock covers. -/
theorem stranger_locked (hs : Stranger l.token headers)
    (hactive : active_slice now (locks.at k) = [l]) (hroot : k.starts_with root = true)
    (hm : Covered l k m) :
    is_path_locked now locks m (parse_if_header headers) root request_path = true := by
  have hl : l ∈ active_slice now (locks.at k) := by rw [hactive]; exact List.mem_cons_self
  refine is_path_locked_iff.mpr ⟨k, ?_, eval_if_stops.mpr (stranger_stops hs hactive)⟩
  by_cases hmk : k = m
  · exact Or.inl hmk
  · obtain ⟨hd, hpre⟩ := hm.resolve_left (fun h => hmk h.symm)
    exact Or.inr ⟨⟨hpre, hmk, Or.inr hroot⟩, l, hl, hd⟩

end Strangers

/-! ## URLs with separators at the end -/

section Urls

variable {cwd R m : Path} {app : AppState} {fs : Fs} {t v : List Char}

theorem splitOn_slashes (t : List Char) (k : ℕ) :
    (t ++ List.replicate k '/').splitOn '/' = t.splitOn '/' ++ List.replicate k [] := by
  induction k with
  | zero => simp
  | succ k ih =>
    rw [List.replicate_succ', ← List.append_assoc, List.splitOn_append_cons_self, ih,
      List.splitOn_eq_singleton (List.not_mem_nil : '/' ∉ []), List.replicate_succ',
      List.append_assoc]

/-- The middleware resolves the URL of a source without the separators at its end; it is a
plain one, or the root's. -/
def SourcePlain (t : List Char) : Prop :=
  Plain (request_text (trim_end_matches '/' t)) ∨ request_text (trim_end_matches '/' t) = []

theorem segments_trim (hv : v = request_text (trim_end_matches '/' t)) :
    ∃ k, (request_text t).splitOn '/' = v.splitOn '/' ++ List.replicate k [] := by
  obtain ⟨k, hk⟩ := Release.trim_end_split t
  by_cases hnil : v = []
  · refine ⟨0, ?_⟩
    have hroot : ∀ k, request_text (trim_end_matches '/' t ++ List.replicate k '/') = [] := by
      intro k
      induction k with
      | zero => rw [List.replicate_zero, List.append_nil, ← hv, hnil]
      | succ k ih =>
        rw [List.replicate_succ', ← List.append_assoc, Href.request_text_slash, if_pos ih]
    rw [hk, hroot k, hnil, List.replicate_zero, List.append_nil]
  · refine ⟨k, ?_⟩
    rw [hv] at hnil
    rw [hv]
    conv => lhs; rw [hk, Release.request_text_slashes hnil k]
    exact splitOn_slashes _ k

/-- Such a URL is found where its names spell it. -/
theorem found_source (h : Serving cwd R app fs) (hsource : SourcePlain t)
    (hm : Resolve.resolve_existing fs cwd app.root_dir app.root_canonical t = some m) :
    m = R ++ target_names (trim_end_matches '/' t) ∧ fs.node m ≠ none := by
  obtain ⟨k, hk⟩ := @segments_trim t _ rfl
  have hdots : NoDots t := by
    intro seg hseg
    rw [hk, List.mem_append] at hseg
    rcases hseg with hseg | hseg
    · rcases hsource with hplain | hnil
      · exact (hplain.no_dots seg hseg).1
      · rw [hnil] at hseg
        have hempty : seg = [] := by simpa using hseg
        rw [hempty]
        simp
    · rw [List.eq_of_mem_replicate hseg]
      simp
  have hnames : target_names t = target_names (trim_end_matches '/' t) := by
    have hskip : (List.replicate k ([] : List Char)).filterMap Name.of_segment = [] := by
      rw [List.filterMap_eq_nil_iff]
      intro seg hseg
      rw [List.eq_of_mem_replicate hseg]
      rfl
    unfold target_names names_of_text
    rw [hk, List.filterMap_append, hskip, List.append_nil]
  rw [← hnames]
  obtain ⟨rfl, hnode, -⟩ := (h.existing_iff hdots).mp hm
  exact ⟨rfl, hnode⟩

end Urls

/-! ## What a stranger's request may act on -/

/-- A stranger whose URLs the middleware resolves as the handlers do. -/
structure Outside (token : String) (req : Request) : Prop where
  stranger : Stranger token req.headers
  source : (req.method = .DELETE ∨ req.method = .PROPPATCH ∨ req.method = .MOVE) →
    SourcePlain req.uri_path

section Requests

variable {R : Path} {p q r : List Name} {l : LockInfo} {c : Call} {s : Site} {m : Path}

theorem aims_write {a : Aim} {w : World} (ha : CheckedPath.Aims c.cwd c.req w a) :
    is_write c.req.method = true := by
  cases ha with
  | put _ hreq _ => rw [hreq]; rfl
  | mkcol _ hreq _ => rw [hreq]; rfl
  | dest _ _ hreq _ _ => rcases hreq with h | h <;> rw [h] <;> rfl
  | source _ hreq _ => rcases hreq with h | h | h <;> rw [h] <;> rfl

/-- What a handler acts on has been checked, or it is the root. -/
theorem aims_checked (h : Serving c.cwd R s.app s.fs) (hok : (enforced c s).1.reply = .ok ())
    (hsource : (c.req.method = .DELETE ∨ c.req.method = .PROPPATCH ∨ c.req.method = .MOVE) →
      SourcePlain c.req.uri_path) {a : Aim} (ha : CheckedPath.Aims c.cwd c.req (found c s) a) :
    CheckedPath.Aim.path a ∈ (enforced c s).1.checked ∨ CheckedPath.Aim.path a = R := by
  obtain ⟨hchecked, hcache⟩ := lock_enforce_checked (CheckedPath.resolver_stable s.fs c.cwd s.app)
    (show lock_enforce _ _ _ _ _ _ _ _ = ((enforced c s).1, (enforced c s).2) from rfl) hok
    (aims_write ha)
  have hguard : ∀ t m, ((found c s).resolve_and_guard c.cwd t).1 = .ok m →
      (resolver c.cwd s.fs s.app t s.app.canonical_cache).1 = some m := by
    intro t m hm
    rw [← hcache t, CheckedPath.resolver_some]
    exact hm
  cases ha with
  | put m hreq hm =>
    have hplain := (resolve_and_guard_ok_iff.mp (CheckedPath.resolver_some.mp (hguard _ _ hm))).1
    refine Or.inl ((hchecked m).mpr (Or.inl ⟨by rw [hreq]; decide, ?_⟩))
    rw [CheckedPath.trim_end_of_plain hplain]
    exact hguard _ _ hm
  | mkcol m hreq hm =>
    exact Or.inl ((hchecked m).mpr (Or.inl ⟨by rw [hreq]; decide, hguard _ _ hm⟩))
  | dest m text hreq htext hm =>
    refine Or.inl ((hchecked m).mpr (Or.inr ⟨hreq, text, htext, ?_⟩))
    rw [CheckedPath.trim_end_of_destination htext]
    exact hguard _ _ hm
  | source m hreq hm =>
    obtain ⟨heq, hnode⟩ := found_source h (hsource hreq) hm
    have hne : c.req.method ≠ .COPY := by rcases hreq with h | h | h <;> rw [h] <;> decide
    rcases hsource hreq with hplain | hnil
    · -- its parent is there, so the middleware has resolved it
      left
      refine (hchecked m).mpr (Or.inl ⟨hne, ?_⟩)
      rw [heq] at hnode ⊢
      rw [CheckedPath.resolver_some]
      have hne : target_names (trim_end_matches '/' c.req.uri_path) ≠ [] := by
        obtain ⟨init, n, hnames⟩ := hplain.names
        unfold target_names
        rw [hnames]
        simp
      have hroom := h.ground.room_of_some hne hnode
      exact h.guard_ok hplain (by rw [hroom.2.1]; simp)
    · right
      show m = R
      rw [heq, target_names, hnil]
      exact List.append_nil R

/-- **The middleware lets a stranger act on nothing that the lock covers.** -/
theorem aims_free (h : Serving c.cwd R s.app s.fs) (hok : (enforced c s).1.reply = .ok ())
    (hs : Outside l.token c.req) (hp : p ≠ [])
    (hactive : active_slice c.clock.enforce (s.app.locks.at (R ++ p)) = [l]) {a : Aim}
    (ha : CheckedPath.Aims c.cwd c.req (found c s) a) :
    ¬ Covered l (R ++ p) (CheckedPath.Aim.path a) := by
  intro hcov
  rcases aims_checked h hok hs.source ha with hchecked | hroot
  · obtain ⟨request_path, hopen⟩ := (lock_enforce_ok
      (show lock_enforce _ _ _ _ _ _ _ _ = ((enforced c s).1, (enforced c s).2) from rfl) hok
      (aims_write ha)).2 _ hchecked
    have hunder := h.starts_with.mpr (List.prefix_append R p)
    rw [stranger_locked hs.stranger hactive hunder hcov] at hopen
    cases hopen
  · -- the root is above every lock
    rw [hroot] at hcov
    have hshort : (R ++ p).length ≤ R.length := by
      rcases hcov with heq | ⟨-, hpre⟩
      · rw [← heq]
      · exact hpre.length_le
    have hlen := List.length_pos_of_ne_nil hp
    rw [List.length_append] at hshort
    omega

end Requests

/-! ## What stays as it was -/

/-- The command takes away or replaces something above the path. -/
def Above (p : List Name) : Command Name (List UInt8) → Prop
  | .remove r => r <+: p ∧ r ≠ p
  | .copy _ _ r => r <+: p ∧ r ≠ p
  | .move r r' => (r <+: p ∧ r ≠ p) ∨ (r' <+: p ∧ r' ≠ p)
  | _ => False

section Kept

variable {R : Path} {p q r : List Name} {l : LockInfo} {c : Call} {s : Site} {w : World}
  {cmd : Command Name (List UInt8)}

theorem covered_append : Covered l (R ++ p) (R ++ q) ↔ Covered l p q := by
  unfold Covered
  rw [List.append_cancel_left_eq, List.prefix_append_right_inj]

/-- Whatever is neither covered nor above the lock has nothing covered below it. -/
theorem nothing_below (hq : Covered l p q) (hr : ¬ Covered l (R ++ p) (R ++ r))
    (habove : ¬ (r <+: p ∧ r ≠ p)) : ¬ r <+: q := by
  intro hrq
  rw [covered_append] at hr
  have hrp : ¬ r <+: p := fun h => habove ⟨h, fun heq => hr (Or.inl heq)⟩
  rcases hq with rfl | ⟨hd, hpq⟩
  · exact hrp hrq
  · rcases List.prefix_or_prefix_of_prefix hrq hpq with h | h
    · exact hrp h
    · exact hr (Or.inr ⟨hd, h⟩)

/-- A request that acts on nothing that the lock covers has a command that spares it, or
does nothing. -/
theorem dispatch_spares (h : Serving c.cwd R w.app w.machine.fs)
    (hfree : ∀ a, CheckedPath.Aims c.cwd c.req w a → ¬ Covered l (R ++ p) (CheckedPath.Aim.path a))
    (hcmd : command c.cwd R c.req w = some cmd) (habove : ¬ Above p cmd) (hq : Covered l p q) :
    (dispatch c.os c.cwd c.clock c.default_hasher c.fuel c.req w).2.machine.fs = w.machine.fs ∨
      cmd.Spares q := by
  -- what is removed, moved or patched is the path that was resolved
  have hsource : ∀ r, (c.req.method = .DELETE ∨ c.req.method = .PROPPATCH ∨ c.req.method = .MOVE) →
      found_names c.cwd R w c.req.uri_path = some r → ¬ Covered l (R ++ p) (R ++ r) := by
    intro r hmethod hr
    cases hm : w.resolve_existing c.cwd c.req.uri_path with
    | none =>
      unfold found_names at hr
      rw [hm] at hr
      cases hr
    | some m =>
      rw [← StoreRuns.of_found_names h hr m hm]
      exact hfree _ (.source m hmethod hm)
  -- a transfer acts on its destination, and a MOVE on its source as well
  have htransfer : ∀ is_move, c.req.method = (if is_move then .MOVE else .COPY) →
      StoreRuns.transfer_command c.cwd R c.req w is_move = some cmd →
      (do_move_or_copy c.os c.cwd c.fuel c.req is_move w).2.machine.fs = w.machine.fs ∨
        cmd.Spares q := by
    intro is_move hmethod hcmd
    rcases do_move_or_copy_cases c.os c.cwd c.fuel c.req is_move w with
      hsame | ⟨text, src, dest, htext, hsrc, -, hdest, -⟩
    · rw [hsame.machine]
      exact Or.inl rfl
    · right
      unfold StoreRuns.transfer_command at hcmd
      obtain ⟨r, hr, -⟩ := StoreRuns.found_names_eq h hsrc
      rw [htext, hr] at hcmd
      cases hcmd
      have hdest_free : ¬ Covered l (R ++ p) (R ++ target_names text) := by
        rw [← (h.guard hdest).2.2]
        refine hfree _ (.dest dest text ?_ htext hdest)
        rw [hmethod]
        cases is_move with
        | true => exact Or.inr rfl
        | false => exact Or.inl rfl
      cases is_move with
      | false => exact nothing_below hq hdest_free habove
      | true =>
        have hsrc_free := hsource r (Or.inr (Or.inr hmethod)) hr
        exact ⟨nothing_below hq hsrc_free fun h => habove (Or.inl h),
          nothing_below hq hdest_free fun h => habove (Or.inr h)⟩
  unfold command at hcmd
  unfold dispatch
  -- only PUT, DELETE, COPY and MOVE have a command that could reach the path
  cases hmethod : c.req.method with
  | PUT =>
    rw [hmethod] at hcmd
    cases hcmd
    show (handle_put c.os c.cwd c.req w).2.machine.fs = w.machine.fs ∨
      q ≠ target_names c.req.uri_path
    rcases hguard : (w.resolve_and_guard c.cwd c.req.uri_path).1 with e | m
    -- the path is refused, and nothing is written
    · left
      have hsame := World.guard_same c.cwd w c.req.uri_path
      unfold handle_put
      rcases hr : w.resolve_and_guard c.cwd c.req.uri_path with ⟨r, w'⟩
      rw [hr] at hguard hsame
      dsimp only at hguard hsame
      subst hguard
      exact congrArg Machine.fs hsame.machine
    · right
      have hput := hfree _ (.put m hmethod hguard)
      rintro rfl
      apply hput
      rw [show CheckedPath.Aim.path (.guarded m) = m from rfl, (h.guard hguard).2.2, covered_append]
      exact hq
  | MKCOL | LOCK =>
    rw [hmethod] at hcmd
    cases hcmd
    exact Or.inr trivial
  | DELETE =>
    rw [hmethod] at hcmd
    dsimp only at hcmd
    rw [Option.map_eq_some_iff] at hcmd
    obtain ⟨r, hr, rfl⟩ := hcmd
    exact Or.inr (nothing_below hq (hsource r (Or.inl hmethod) hr) habove)
  | COPY =>
    rw [hmethod] at hcmd
    exact htransfer false hmethod hcmd
  | MOVE =>
    rw [hmethod] at hcmd
    exact htransfer true hmethod hcmd
  | GET | HEAD | OPTIONS | PROPFIND | PROPPATCH | UNLOCK | PATCH | REPORT =>
    rw [hmethod] at hcmd
    cases hcmd

/-- **A stranger's request leaves every covered entry as it is.** -/
theorem served_kept (h : Serving c.cwd R s.app s.fs) (hs : Outside l.token c.req) (hp : p ≠ [])
    (hactive : active_slice c.clock.enforce (s.app.locks.at (R ++ p)) = [l])
    (habove : ∀ cmd, command c.cwd R c.req (found c s) = some cmd → ¬ Above p cmd)
    (hq : Covered l p q) (hnode : s.fs.node (R ++ q) ≠ none) :
    (served c s).machine.fs.node (R ++ q) = s.fs.node (R ++ q) := by
  rcases reply_eq c s with ⟨hok, -, heq⟩ | ⟨-, heq⟩
  · cases hcmd : command c.cwd R c.req (found c s) with
    | none => rw [StoreRuns.served_nothing rfl hcmd]
    | some cmd =>
      have hfound := StoreRuns.found_serving h rfl
      rcases dispatch_spares hfound (fun a ha => aims_free h hok hs hp hactive ha) hcmd
        (habove cmd hcmd) hq with hsame | hspares
      · rw [heq, hsame]
        rfl
      · have hacted := StoreRuns.served_acted h rfl h.ground.shows hcmd
        have hentry : h.ground.tree.entry q ≠ none :=
          fun hn => hnode (h.ground.shows.none_iff.mpr hn)
        exact hacted.within.frame q (not_scope_of_spares hentry hspares)
  · rw [heq]
    rfl

/-- **And its dead properties.** -/
theorem edit_spared (h : Serving c.cwd R s.app s.fs) (hs : Outside l.token c.req) (hp : p ≠ [])
    (hactive : active_slice c.clock.enforce (s.app.locks.at (R ++ p)) = [l]) (hq : Covered l p q)
    {e : PropHistory.PropEdit} (hedit : PropHistory.edit c s = some e) (name : String) :
    e.Spares (R ++ q) name := by
  -- an edit is made by a request that succeeded, and so by one that was let through
  have hsuccess : PropHistory.is_success (reply c s) = true := by
    unfold PropHistory.edit at hedit
    split at hedit
    · assumption
    · cases hedit
  have hok : (enforced c s).1.reply = .ok () := by
    rcases reply_eq c s with ⟨hok, -, -⟩ | ⟨⟨status, -, hreply⟩, -⟩
    · exact hok
    · rw [hreply] at hsuccess
      cases hsuccess
  -- what it acts on is not what the lock covers
  have hfree : ∀ a, CheckedPath.Aims c.cwd c.req (found c s) a →
      CheckedPath.Aim.path a ≠ R ++ q := by
    intro a ha heq
    apply aims_free h hok hs hp hactive ha
    rw [heq, covered_append]
    exact hq
  -- a transfer carries properties to its destination, a MOVE away from its source
  have hcarried : ∀ is_move, c.req.method = (if is_move then .MOVE else .COPY) →
      PropHistory.carried is_move c.cwd c.req (found c s) = some e → e.Spares (R ++ q) name := by
    intro is_move hmethod hc
    unfold PropHistory.carried at hc
    rw [Option.bind_eq_some_iff] at hc
    obtain ⟨src, hsrc, hc⟩ := hc
    rw [Option.bind_eq_some_iff] at hc
    obtain ⟨text, htext, hc⟩ := hc
    rw [Option.map_eq_some_iff] at hc
    obtain ⟨dest, hdest, rfl⟩ := hc
    have hguard : ((found c s).resolve_and_guard c.cwd text).1 = .ok dest := by
      rcases hr : ((found c s).resolve_and_guard c.cwd text).1 with err | d
      all_goals rw [hr] at hdest
      all_goals cases hdest
      rfl
    refine ⟨hfree _ (.dest dest text ?_ htext hguard), fun hmove => ?_⟩
    · rw [hmethod]
      cases is_move with
      | true => exact Or.inr rfl
      | false => exact Or.inl rfl
    · rw [hmove] at hmethod
      exact hfree _ (.source src (Or.inr (Or.inr hmethod)) hsrc)
  unfold PropHistory.edit at hedit
  rw [if_pos hsuccess] at hedit
  cases hmethod : c.req.method with
  | PROPPATCH =>
    rw [hmethod] at hedit
    dsimp only at hedit
    rw [Option.bind_eq_some_iff] at hedit
    obtain ⟨m, hm, hedit⟩ := hedit
    rw [Option.map_eq_some_iff] at hedit
    obtain ⟨op, -, rfl⟩ := hedit
    exact fun heq => absurd heq (hfree _ (.source m (Or.inr (Or.inl hmethod)) hm))
  | COPY =>
    rw [hmethod] at hedit
    exact hcarried false hmethod hedit
  | MOVE =>
    rw [hmethod] at hedit
    exact hcarried true hmethod hedit
  | _ =>
    rw [hmethod] at hedit
    cases hedit

end Kept

/-! ## Runs of strangers -/

section Runs

variable {cwd R : Path} {p : List Name} {l : LockInfo} {k : Path} {c : Call} {s t u : Site}
  {e : Lifetime.Event} {tr : List Lifetime.Event}

/-- The critical sections of a stranger are not given the token. -/
theorem sections_strange (hs : Stranger l.token c.req.headers) :
    ∀ x ∈ sections c s, ¬ Presents l.token x := by
  intro x hx
  unfold sections at hx
  split at hx
  · unfold sections_of_lock at hx
    split at hx
    · cases hx
    · split at hx
      · cases hx
      · unfold lock_sections at hx
        rw [List.mem_cons] at hx
        rcases hx with rfl | hx
        · intro hin
          obtain ⟨list, hlist, ht⟩ := List.mem_flatMap.mp hin
          exact hs.unnamed list hlist ht
        · split at hx
          · split at hx
            all_goals
              rw [List.mem_singleton] at hx
              rw [hx]
              exact id
          · cases hx
  · unfold sections_of_unlock at hx
    split at hx
    · cases hx
    · rename_i token htoken
      split at hx
      · cases hx
      · rw [List.mem_singleton] at hx
        rw [hx]
        rintro rfl
        exact hs.unlock htoken
  · cases hx

theorem step_lock_left (hx : Exclusive s.clock s.app.locks) (hstep : Lifetime.Step s e t)
    (hstranger : ∀ c, e = .request c → Stranger l.token c.req.headers)
    (hl : l ∈ s.app.locks.at k) (hlive : l.is_expired t.clock = false) :
    l ∈ t.app.locks.at k := by
  obtain ⟨hash, m, hrun, hm⟩ := step_machine hstep
  have hstrange : ∀ x ∈ sections_of s e, ¬ Presents l.token x := by
    cases e with
    | request c => exact sections_strange (hstranger c rfl)
    | cleanup now =>
      intro x hx
      rw [List.mem_singleton.mp hx]
      exact id
  rw [← hm.locks]
  exact run_leaves hx hrun hl hstrange (live_before hm.clock hlive)

/-- What a step or a run has left: the lock, the entries it covers, and their properties. -/
structure Kept (l : LockInfo) (R : Path) (p : List Name) (s t : Site) : Prop where
  lock : l ∈ t.app.locks.at (R ++ p)
  entry : ∀ q, Covered l p q → s.fs.node (R ++ q) ≠ none → t.fs.node (R ++ q) = s.fs.node (R ++ q)
  props : ∀ q, Covered l p q → ∀ name,
    recorded t.app.dead_props (R ++ q) name = recorded s.app.dead_props (R ++ q) name

theorem Kept.trans (h : Kept l R p s t) (h' : Kept l R p t u) : Kept l R p s u where
  lock := h'.lock
  entry := by
    intro q hq hnode
    have hsame := h.entry q hq hnode
    rw [← hsame] at hnode ⊢
    exact h'.entry q hq hnode
  props := fun q hq name => (h'.props q hq name).trans (h.props q hq name)

theorem command_of_label {a : Command Name (List UInt8) × Bool}
    (ha : a ∈ (label cwd R c s).toList) : command cwd R c.req (found c s) = some a.1 := by
  unfold label at ha
  obtain ⟨cmd, hcmd, rfl⟩ := Option.map_eq_some_iff.mp (Option.mem_toList.mp ha)
  exact hcmd

/-- **One request of a stranger, or one cleanup.** -/
theorem step_kept (h : Serving cwd R s.app s.fs) (hx : Exclusive s.clock s.app.locks) (hp : p ≠ [])
    (hl : l ∈ s.app.locks.at (R ++ p)) (hexcl : l.is_exclusive = true) (hstep : StepIn cwd s e t)
    (hlive : l.is_expired t.clock = false)
    (hstrangers : ∀ c, e = .request c → Outside l.token c.req)
    (habove : ∀ a ∈ StoreRuns.labels_of cwd R s e, ¬ Above p a.1) : Kept l R p s t := by
  obtain ⟨hstep, hin⟩ := hstep
  have hlock := step_lock_left hx hstep (fun c hc => (hstrangers c hc).stranger) hl hlive
  cases hstep with
  | cleanup now hnow => exact ⟨hlock, fun _ _ _ => rfl, fun _ _ _ => rfl⟩
  | request c henforce hfirst hsecond =>
    have hcwd : c.cwd = cwd := hin c rfl
    subst hcwd
    have hs := hstrangers c rfl
    have hactive : active_slice c.clock.enforce (s.app.locks.at (R ++ p)) = [l] := by
      have hearly : c.clock.enforce ≤ c.clock.second := le_trans hfirst hsecond
      exact hx.later henforce _ l (Lease.mem_live.mpr ⟨hl, live_before hearly hlive⟩) hexcl
    have hclear : ∀ cmd, command c.cwd R c.req (found c s) = some cmd → ¬ Above p cmd := by
      intro cmd hcmd
      have hlabel : ∃ done, label c.cwd R c s = some (cmd, done) := by
        unfold label
        rw [hcmd]
        exact ⟨_, rfl⟩
      obtain ⟨done, hlabel⟩ := hlabel
      exact habove (cmd, done) (Option.mem_toList.mpr hlabel)
    refine ⟨hlock, fun q hq => served_kept h hs hp hactive hclear hq, fun q hq name => ?_⟩
    show recorded (served c s).app.dead_props _ _ = _
    rw [PropHistory.served_props]
    cases hedit : PropHistory.edit c s with
    | none => rfl
    | some e => exact PropHistory.apply_spares (edit_spared h hs hp hactive hq hedit name)

theorem run_kept (h : Serving cwd R s.app s.fs) (hx : Exclusive s.clock s.app.locks) (hp : p ≠ [])
    (hl : l ∈ s.app.locks.at (R ++ p)) (hexcl : l.is_exclusive = true)
    (hrun : Lts.Run (StepIn cwd) s tr t) (hlive : l.is_expired t.clock = false)
    (hstrangers : ∀ c, .request c ∈ tr → Outside l.token c.req)
    (habove : ∀ a ∈ labels cwd R s tr, ¬ Above p a.1) : Kept l R p s t := by
  induction hrun with
  | nil s => exact ⟨hl, fun _ _ _ => rfl, fun _ _ _ => rfl⟩
  | @cons s u t e tr hstep hrun ih =>
    unfold labels at habove
    rw [← step_next hstep.1] at habove
    have hfirst : Kept l R p s u := by
      refine step_kept h hx hp hl hexcl hstep (live_before (run_clock hrun) hlive)
        (fun c hc => hstrangers c ?_) fun a ha => habove a (List.mem_append_left _ ha)
      rw [hc]
      exact List.mem_cons_self
    have hu := (StoreRuns.step_refines h h.ground.shows hstep).1
    exact hfirst.trans (ih hu (ServerLocks.step_exclusive hx hstep.1) hfirst.lock hlive
      (fun c hc => hstrangers c (List.mem_cons_of_mem _ hc))
      fun a ha => habove a (List.mem_append_right _ ha))

/-- What holds of any state that a server reaches. -/
theorem reached {fs : Fs} {root_dir : PathBuf} {lock_timeout : ℕ} (hg : Ground R fs)
    (hroot : Rooted cwd R root_dir fs)
    (hrun : Lts.Run (StepIn cwd) (launched fs cwd root_dir lock_timeout) tr s) :
    Serving cwd R s.app s.fs ∧ Exclusive s.clock s.app.locks :=
  ⟨(StoreRuns.run_refines (started hg hroot lock_timeout) hg.shows hrun).1,
    run_exclusive (empty_exclusive rfl) hrun⟩

/-- **What a lock protects.** From any state that a server reaches, as long as an exclusive
lock has not run out, no run of strangers' requests and cleanups changes the lock, an
existing entry it covers or the dead properties of one, unless it takes away or replaces a
collection above the lock. -/
theorem locked_endures {fs : Fs} {root_dir : PathBuf} {lock_timeout : ℕ}
    {before : List Lifetime.Event} (hg : Ground R fs) (hroot : Rooted cwd R root_dir fs)
    (hbefore : Lts.Run (StepIn cwd) (launched fs cwd root_dir lock_timeout) before s)
    (hp : p ≠ []) (hl : l ∈ s.app.locks.at (R ++ p)) (hexcl : l.is_exclusive = true)
    (hrun : Lts.Run (StepIn cwd) s tr t) (hlive : l.is_expired t.clock = false)
    (hstrangers : ∀ c, .request c ∈ tr → Outside l.token c.req)
    (habove : ∀ a ∈ labels cwd R s tr, ¬ Above p a.1) : Kept l R p s t := by
  obtain ⟨hserving, hexclusive⟩ := reached hg hroot hbefore
  exact run_kept hserving hexclusive hp hl hexcl hrun hlive hstrangers habove

/-- `/f` is locked and then put by a request that sends no token. -/
theorem lock_f_run : Lts.Run (StepIn []) StoreLaws.home [.request lock_f] locked_f :=
  Lts.Run.single (show StepIn [] StoreLaws.home (.request lock_f) locked_f from
    step_after rfl rfl rfl)

theorem put_f_run : Lts.Run (StepIn []) locked_f [.request (request_for .PUT "/f")]
    (after (request_for .PUT "/f") locked_f) :=
  Lts.Run.single (step_after rfl rfl rfl)

theorem put_f_stranger : Stranger f_lock.token (request_for .PUT "/f").req.headers := by
  have hheaders : parse_if_header {} = [] := rfl
  refine ⟨?_, Or.inl hheaders, nofun⟩
  rw [show (request_for .PUT "/f").req.headers = {} from rfl, hheaders]
  exact nofun

theorem put_f_outside (c : Call) (hc : Lifetime.Event.request c ∈
    [Lifetime.Event.request (request_for .PUT "/f")]) : Outside f_lock.token c.req := by
  rw [List.mem_singleton] at hc
  cases hc
  exact ⟨put_f_stranger, nofun⟩

theorem put_f_beside (a : Command Name (List UInt8) × Bool)
    (ha : a ∈ labels [] [d_name] locked_f [.request (request_for .PUT "/f")]) :
    ¬ Above [f_name] a.1 := by
  unfold labels labels StoreRuns.labels_of at ha
  dsimp only at ha
  rw [List.append_nil] at ha
  have hput : some a.1 = some (.store (target_names "/f".toList) []) :=
    (command_of_label ha).symm.trans rfl
  rw [Option.some.inj hput]
  exact id

theorem locked_endures_f :
    Kept f_lock [d_name] [f_name] locked_f (after (request_for .PUT "/f") locked_f) :=
  locked_endures StoreLaws.home_ground StoreLaws.home_rooted lock_f_run (by decide) (by decide)
    rfl put_f_run rfl put_f_outside put_f_beside

end Runs

/-! ## The holder and the strangers -/

section Holder

variable {cwd R : Path} {p : List Name} {l : LockInfo} {c : Call} {s : Site}

/-- The methods that write at the path of their URL alone. -/
def Single (method : Method) : Prop :=
  method = .PUT ∨ method = .DELETE ∨ method = .MKCOL ∨ method = .PROPPATCH

/-- What the middleware answers to such a request. -/
theorem enforced_single (hm : Single c.req.method) :
    (enforced c s).1.reply =
      if precondition_failed c.req.headers then .error .PRECONDITION_FAILED
      else (check_path (resolver c.cwd s.fs s.app) c.clock.enforce s.app.locks s.app.root_canonical
        (parse_if_header c.req.headers) (trim_end_matches '/' c.req.uri_path)
        s.app.canonical_cache).1.reply := by
  have hwrite : is_write c.req.method = true := by
    rcases hm with h | h | h | h <;> rw [h] <;> rfl
  have hcopy : c.req.method ≠ .COPY := by rcases hm with h | h | h | h <;> rw [h] <;> decide
  have hmove : ¬ (c.req.method = .COPY ∨ c.req.method = .MOVE) := by
    rcases hm with h | h | h | h <;> rw [h] <;> decide
  unfold enforced lock_enforce
  rw [hwrite, Bool.not_true, if_neg Bool.false_ne_true]
  dsimp only
  by_cases hgate : precondition_failed c.req.headers = true
  · rw [if_pos hgate, if_pos hgate]
  · rw [if_neg hgate, if_neg hgate, if_neg hcopy]
    rcases hcheck : check_path (resolver c.cwd s.fs s.app) c.clock.enforce s.app.locks
      s.app.root_canonical (parse_if_header c.req.headers) (trim_end_matches '/' c.req.uri_path)
      s.app.canonical_cache with ⟨src, cache⟩
    dsimp only
    rcases hreply : src.reply with status | u
    · exact hreply
    · dsimp only
      rw [if_neg hmove]
      exact hreply

theorem check_path_reply {γ : Type} {resolve : List Char → γ → Option Path × γ} {now : ℕ}
    {locks : LockStore} {root : PathBuf} {lists : List IfList} {t : List Char} {cache : γ} {m : Path}
    (hm : (resolve t cache).1 = some m) :
    (check_path resolve now locks root lists t cache).1.reply =
      if is_path_locked now locks m lists root t then .error .LOCKED else .ok () := by
  unfold check_path
  rcases hr : resolve t cache with ⟨r, cache'⟩
  rw [hr] at hm
  dsimp only at hm
  subst hm
  rfl

/-- A URL with the names of an existing path is resolved to it by the middleware. -/
theorem resolved_at (h : Serving c.cwd R s.app s.fs)
    (hplain : Plain (request_text (trim_end_matches '/' c.req.uri_path)))
    (hnames : target_names (trim_end_matches '/' c.req.uri_path) = p) (hp : p ≠ [])
    (hnode : s.fs.node (R ++ p) ≠ none) :
    (resolver c.cwd s.fs s.app (trim_end_matches '/' c.req.uri_path)
      s.app.canonical_cache).1 = some (R ++ p) := by
  have hroom := h.ground.room_of_some hp hnode
  rw [CheckedPath.resolver_some, ← hnames]
  refine h.guard_ok hplain ?_
  rw [hnames, hroom.2.1]
  simp

/-- **A stranger is refused at the locked path.** -/
theorem stranger_refused (h : Serving c.cwd R s.app s.fs) (hs : Stranger l.token c.req.headers)
    (hm : Single c.req.method)
    (hplain : Plain (request_text (trim_end_matches '/' c.req.uri_path)))
    (hnames : target_names (trim_end_matches '/' c.req.uri_path) = p) (hp : p ≠ [])
    (hnode : s.fs.node (R ++ p) ≠ none)
    (hactive : active_slice c.clock.enforce (s.app.locks.at (R ++ p)) = [l]) :
    (enforced c s).1.reply = .error .LOCKED ∨
      (enforced c s).1.reply = .error .PRECONDITION_FAILED := by
  have hunder := h.starts_with.mpr (List.prefix_append R p)
  rw [enforced_single hm]
  split
  · exact Or.inr rfl
  · left
    rw [check_path_reply (resolved_at h hplain hnames hp hnode),
      stranger_locked hs hactive hunder (Or.inl rfl), if_pos rfl]

/-- **The holder is let in**, if no infinite lock of another is above. -/
theorem holder_let_through (h : Serving c.cwd R s.app s.fs)
    (hif : parse_if_header c.req.headers = [⟨none, [.StateToken l.token]⟩])
    (hno : l.token ≠ no_lock) (hm : Single c.req.method)
    (hplain : Plain (request_text (trim_end_matches '/' c.req.uri_path)))
    (hnames : target_names (trim_end_matches '/' c.req.uri_path) = p) (hp : p ≠ [])
    (hnode : s.fs.node (R ++ p) ≠ none)
    (hactive : active_slice c.clock.enforce (s.app.locks.at (R ++ p)) = [l])
    (halone : ∀ k, k <+: R ++ p → k ≠ R ++ p →
      ∀ x ∈ active_slice c.clock.enforce (s.app.locks.at k), x.depth ≠ .Infinity) :
    (enforced c s).1.reply = .ok () := by
  have hgate : precondition_failed c.req.headers = false := by
    unfold precondition_failed
    rw [hif]
    have htoken : ([⟨none, [.StateToken l.token]⟩] : List IfList).any IfList.has_lock_token = true := by
      simp [IfList.has_lock_token, hno]
    dsimp only
    rw [htoken]
    simp
  have hopen : is_path_locked c.clock.enforce s.app.locks (R ++ p)
      (parse_if_header c.req.headers) s.app.root_canonical
      (trim_end_matches '/' c.req.uri_path) = false := by
    rw [← Bool.not_eq_true, is_path_locked_iff]
    rintro ⟨k, rfl | ⟨⟨hpre, hne, -⟩, x, hx, hd⟩, hfails⟩
    · rw [hif, eval_if_eq_false_iff] at hfails
      rcases hfails with ⟨hnil, -⟩ | ⟨list, hlist, -, cond, hcond, hfalse⟩
      · cases hnil
      · rw [List.mem_singleton] at hlist
        subst hlist
        rw [List.mem_singleton] at hcond
        subst hcond
        rw [hactive] at hfalse
        have htrue : eval_active [l] (.StateToken l.token) = true := by
          rw [eval_state_token, if_neg hno]
          exact ⟨l, List.mem_cons_self, rfl⟩
        rw [htrue] at hfalse
        cases hfalse
    · exact halone k hpre hne x hx hd
  rw [enforced_single hm, hgate, if_neg Bool.false_ne_true,
    check_path_reply (resolved_at h hplain hnames hp hnode), hopen, if_neg Bool.false_ne_true]

/-- A write at the locked path, before the lock has run out. -/
structure WritesAt (cwd : Path) (l : LockInfo) (p : List Name) (s : Site) (c : Call) : Prop where
  cwd : c.cwd = cwd
  clock : s.clock ≤ c.clock.enforce
  live : l.is_expired c.clock.enforce = false
  method : Single c.req.method
  plain : Plain (request_text (trim_end_matches '/' c.req.uri_path))
  names : target_names (trim_end_matches '/' c.req.uri_path) = p

/-- What the middleware refuses is answered with its status. -/
theorem reply_of_refused {status : StatusCode} (h : (enforced c s).1.reply = .error status) :
    reply c s = some (.error status) := by
  rcases reply_eq c s with ⟨hok, -, -⟩ | ⟨⟨status', herror, hreply⟩, -⟩
  · rw [h] at hok
    cases hok
  · rw [h] at herror
    cases herror
    exact hreply

/-- **The holder stays in, the others stay out.** In any state of a run of strangers'
requests after an exclusive lock was granted on an existing resource, until it runs out: a
stranger's PUT, DELETE, MKCOL or PROPPATCH of the resource is answered 423 or 412, and the
holder's, with the token as its `If` header, passes the lock check unless there is an
infinite lock above. -/
theorem holder_stays {fs : Fs} {root_dir : PathBuf} {lock_timeout : ℕ} {t : Site}
    {before tr : List Lifetime.Event} (hg : Ground R fs) (hroot : Rooted cwd R root_dir fs)
    (hbefore : Lts.Run (StepIn cwd) (launched fs cwd root_dir lock_timeout) before s)
    (hp : p ≠ []) (hl : l ∈ s.app.locks.at (R ++ p)) (hexcl : l.is_exclusive = true)
    (hnode : s.fs.node (R ++ p) ≠ none) (hrun : Lts.Run (StepIn cwd) s tr t)
    (hstrangers : ∀ c, .request c ∈ tr → Outside l.token c.req)
    (habove : ∀ a ∈ labels cwd R s tr, ¬ Above p a.1) {c : Call} (hc : WritesAt cwd l p t c) :
    (Stranger l.token c.req.headers →
      reply c t = some (.error .LOCKED) ∨ reply c t = some (.error .PRECONDITION_FAILED)) ∧
    (parse_if_header c.req.headers = [⟨none, [.StateToken l.token]⟩] → l.token ≠ no_lock →
      (∀ k, k <+: R ++ p → k ≠ R ++ p →
        ∀ x ∈ active_slice c.clock.enforce (t.app.locks.at k), x.depth ≠ .Infinity) →
      (enforced c t).1.reply = .ok ()) := by
  obtain ⟨hserving, hexclusive⟩ := reached hg hroot hbefore
  have hkept := run_kept hserving hexclusive hp hl hexcl hrun (live_before hc.clock hc.live)
    hstrangers habove
  have ht : Serving cwd R t.app t.fs :=
    (StoreRuns.run_refines hserving hserving.ground.shows hrun).1
  have hthere : t.fs.node (R ++ p) ≠ none := by
    rw [hkept.entry p (Or.inl rfl) hnode]
    exact hnode
  have hactive : active_slice c.clock.enforce (t.app.locks.at (R ++ p)) = [l] :=
    (run_exclusive hexclusive hrun).later hc.clock _ l (Lease.mem_live.mpr ⟨hkept.lock, hc.live⟩) hexcl
  have hcwd := hc.cwd
  subst hcwd
  constructor
  · intro hs
    rcases stranger_refused ht hs hc.method hc.plain hc.names hp hthere hactive with h | h
    · exact Or.inl (reply_of_refused h)
    · exact Or.inr (reply_of_refused h)
  · intro hif hno halone
    exact holder_let_through ht hif hno hc.method hc.plain hc.names hp hthere hactive halone

/-- The holder's PUT of `/f`, with the token. -/
def put_held : Call :=
  { request_for .PUT "/f" with
    req := { (request_for .PUT "/f").req with
      headers := { if_header := some (IfHeader.header_value "(<opaquelocktoken:0000000000000000>)") } } }

/-- A stranger's PUT of `/f`, and the holder's. -/
theorem holder_stays_f :
    (reply (request_for .PUT "/f") (after (request_for .PUT "/f") locked_f) =
        some (.error .LOCKED) ∨
      reply (request_for .PUT "/f") (after (request_for .PUT "/f") locked_f) =
        some (.error .PRECONDITION_FAILED)) ∧
    (enforced put_held (after (request_for .PUT "/f") locked_f)).1.reply = .ok () := by
  have hplain : Plain (request_text (trim_end_matches '/' "/f".toList)) :=
    ⟨by decide, by decide, by decide, by decide⟩
  have hwrites : WritesAt [] f_lock [f_name] (after (request_for .PUT "/f") locked_f)
      (request_for .PUT "/f") :=
    ⟨rfl, le_refl 0, rfl, Or.inl rfl, hplain, rfl⟩
  have hheld : WritesAt [] f_lock [f_name] (after (request_for .PUT "/f") locked_f) put_held :=
    ⟨rfl, le_refl 0, rfl, Or.inl rfl, hplain, rfl⟩
  refine ⟨(holder_stays StoreLaws.home_ground StoreLaws.home_rooted lock_f_run (by decide)
    (by decide) rfl (by decide) put_f_run put_f_outside put_f_beside hwrites).1 put_f_stranger,
    (holder_stays StoreLaws.home_ground StoreLaws.home_rooted lock_f_run (by decide)
      (by decide) rfl (by decide) put_f_run put_f_outside put_f_beside hheld).2 (by decide)
      (by decide) ?_⟩
  -- nothing is locked above
  intro k hk hne x hx
  have hnone : ∀ k ∈ [d_name, f_name].inits, k ≠ [d_name, f_name] → active_slice 0
      ((after (request_for .PUT "/f") locked_f).app.locks.at k) = [] := by decide
  have hx' : x ∈ active_slice 0 ((after (request_for .PUT "/f") locked_f).app.locks.at k) := hx
  rw [hnone k ((List.mem_inits _ _).mpr hk) hne] at hx'
  cases hx'

end Holder

end Rshs.Protected
