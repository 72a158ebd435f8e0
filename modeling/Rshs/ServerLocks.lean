/-
The lock store of a serving server.

The lock machine has its critical sections in any order; the server enters them through
its LOCK and UNLOCK requests, and its cleanup passes. `sections` are those of a request,
with the clock readings it takes, and `run_locks` says that a run of the server is, on
its lock store, the run of the machine with the sections of its requests, so that what
holds of the machine's reachable states holds of the server's.
-/
import Rshs.StoreLaws
import Rshs.LockRuns

set_option autoImplicit false

namespace Rshs.ServerLocks

open StdPath Posix Rshs.Webdav Rshs.Ls Rshs.Locks Rshs.LockRuns Rshs.Resolve Rshs.App Rshs.Http
open Rshs.CopyMove Rshs.LockMw Rshs.Server
open Rshs.Lifetime (Call Site found served enforced handle_put_stores handle_mkcol_stores)
open Rshs.StoreRuns (reply_eq transfer_app next step_next handle_get_head_app handle_delete_app)
open Rshs.CachedParents (StepIn request_for after step_after)
open Rshs.StoreLaws (home)

/-! ## Requests that are no LOCK and no UNLOCK -/

section Others

variable {os : Os} {cwd : Path} {fuel : ℕ} {req : Request} {w : World}

theorem transfer_locks {is_move : Bool} :
    (do_move_or_copy os cwd fuel req is_move w).2.app.locks = w.app.locks := by
  rcases do_move_or_copy_cases os cwd fuel req is_move w with
    hsame | ⟨text, src, dest, -, -, -, -, heq⟩
  · exact hsame.locks
  · obtain ⟨props, happ⟩ := transfer_app os fuel req is_move src dest (w.resolve_and_guard cwd text).2
    rw [heq, happ]
    exact (World.guard_same cwd w text).locks

/-- Only LOCK and UNLOCK write the lock store. -/
theorem dispatch_locks {clock : Clock} {default_hasher : ℕ → UInt64}
    (hlock : req.method ≠ .LOCK) (hunlock : req.method ≠ .UNLOCK) :
    (dispatch os cwd clock default_hasher fuel req w).2.app.locks = w.app.locks := by
  unfold dispatch
  cases hm : req.method with
  | GET | HEAD => exact congrArg AppState.locks handle_get_head_app
  | PUT => exact (handle_put_stores os cwd req w).2
  | DELETE => exact congrArg AppState.locks handle_delete_app
  | MKCOL => exact (handle_mkcol_stores os cwd req w).2
  | COPY => exact transfer_locks
  | MOVE => exact transfer_locks
  | PROPFIND =>
    show (Server.handle_propfind cwd req w).2.app.locks = w.app.locks
    unfold Server.handle_propfind
    split
    · rfl
    · split
      all_goals rfl
  | PROPPATCH =>
    show (handle_proppatch cwd req w).2.app.locks = w.app.locks
    unfold handle_proppatch
    split
    · rfl
    · split
      all_goals rfl
  | LOCK => exact absurd hm hlock
  | UNLOCK => exact absurd hm hunlock
  | OPTIONS => rfl
  | PATCH => rfl
  | REPORT => rfl

end Others

/-! ## The critical sections of a request -/

/-- Those of a LOCK: a second one, or the failure to create its file, only if the first
has found nothing at its target. -/
def lock_sections (c : Call) (lreq : LockRequest) (w : World) : List LockRuns.Event :=
  .lock_begin c.clock.first lreq ::
    if (first_section c.default_hasher c.clock.first lreq w.app.locks).1.isNone then
      match ensure_lock_null_resource
          (create_new_outcome (create_new c.os lreq.target w.machine).1) with
      | .error _ => [.lock_abort c.clock.second lreq]
      | .ok created => [.lock_commit c.clock.second lreq created]
    else []

def sections_of_lock (c : Call) (w : World) : List LockRuns.Event :=
  match w.resolve_and_guard c.cwd (trim_end_matches '/' c.req.uri_path) with
  | (.error _, _) => []
  | (.ok target, w) =>
    match c.req.lock_body with
    | none => []
    | some events => lock_sections c (lock_request c.req w.app events target) w

def sections_of_unlock (c : Call) (w : World) : List LockRuns.Event :=
  match parse_lock_token_header c.req.headers with
  | none => []
  | some token =>
    match w.resolve_existing c.cwd c.req.uri_path with
    | none => []
    | some fs_path => [.unlock c.clock.second fs_path token]

/-- The critical sections that a request enters. -/
def sections (c : Call) (s : Site) : List LockRuns.Event :=
  match c.req.method with
  | .LOCK => sections_of_lock c (found c s)
  | .UNLOCK => sections_of_unlock c (found c s)
  | _ => []

/-- The machine is where the server is. -/
structure Follows (s : Site) (m : LockState) : Prop where
  clock : m.clock ≤ s.clock
  locks : m.locks = s.app.locks
  creating : m.creating = []

section Sections

variable {c : Call} {s t u : Site} {m : LockState}

/-- A LOCK takes the machine through its sections. -/
theorem handle_lock_run {w : World} {now : ℕ} (hnow : now ≤ c.clock.first)
    (hsecond : c.clock.first ≤ c.clock.second) :
    ∃ clock ≤ c.clock.second,
      Lts.Run (LockRuns.Step c.default_hasher) ⟨now, w.app.locks, []⟩ (sections_of_lock c w)
        ⟨clock, (Server.handle_lock c.os c.cwd c.clock c.default_hasher c.req w).2.app.locks, []⟩ := by
  -- where no section is reached, no step is taken
  have hnone : ∀ locks, locks = w.app.locks → ∃ clock ≤ c.clock.second,
      Lts.Run (LockRuns.Step c.default_hasher) ⟨now, w.app.locks, []⟩ [] ⟨clock, locks, []⟩ := by
    rintro locks rfl
    exact ⟨now, by omega, Lts.Run.nil _⟩
  unfold sections_of_lock
  rcases hr : w.resolve_and_guard c.cwd (trim_end_matches '/' c.req.uri_path) with ⟨e | target, w'⟩
  all_goals
    obtain ⟨⟨-, -, hlocks⟩, -⟩ := Server.guard_leaves hr
    dsimp only at hlocks ⊢
  · unfold Server.handle_lock
    dsimp only
    rw [hr]
    exact hnone _ hlocks
  · cases hbody : c.req.lock_body with
    | none =>
      unfold Server.handle_lock
      dsimp only
      rw [hr]
      dsimp only
      rw [hbody]
      exact hnone _ hlocks
    | some events =>
      obtain ⟨-, hleft⟩ := Server.handle_lock_eq c.os c.clock c.default_hasher hr hbody
      rw [hleft]
      dsimp only
      have htarget : (lock_request c.req w'.app events target).target = target := rfl
      generalize lock_request c.req w'.app events target = lreq at htarget ⊢
      subst htarget
      unfold Locks.handle_lock
      have hbegin := @Step.lock_begin c.default_hasher ⟨now, w.app.locks, []⟩ c.clock.first lreq hnow
      unfold lock_sections
      rw [hlocks]
      rcases hfirst : first_section c.default_hasher c.clock.first lreq w.app.locks with
        ⟨_ | reply, locks⟩
      all_goals rw [hfirst] at hbegin
      -- the first section has granted nothing yet: the file is made between the two
      · rw [Option.isNone_none, if_pos rfl]
        rcases hc : create_new c.os lreq.target w'.machine with ⟨r, m⟩
        dsimp only
        rw [Option.isNone_none, if_pos rfl] at hbegin
        cases ensure_lock_null_resource (create_new_outcome r) with
        | error status =>
          have habort := @Step.lock_abort c.default_hasher ⟨c.clock.first, locks, [lreq]⟩
            c.clock.second lreq hsecond List.mem_cons_self
          rw [List.erase_cons_head] at habort
          exact ⟨c.clock.second, le_rfl, Lts.Run.cons hbegin (Lts.Run.single habort)⟩
        | ok created =>
          have hcommit := @Step.lock_commit c.default_hasher ⟨c.clock.first, locks, [lreq]⟩
            c.clock.second lreq created hsecond List.mem_cons_self
          rw [List.erase_cons_head] at hcommit
          exact ⟨c.clock.second, le_rfl, Lts.Run.cons hbegin (Lts.Run.single hcommit)⟩
      -- the first section has replied
      · exact ⟨c.clock.first, hsecond, Lts.Run.single hbegin⟩

theorem handle_unlock_run {w : World} {now : ℕ} (hnow : now ≤ c.clock.second) :
    ∃ clock ≤ c.clock.second,
      Lts.Run (LockRuns.Step c.default_hasher) ⟨now, w.app.locks, []⟩ (sections_of_unlock c w)
        ⟨clock, (Server.handle_unlock c.cwd c.req w).2.app.locks, []⟩ := by
  unfold Server.handle_unlock sections_of_unlock Locks.handle_unlock
  cases parse_lock_token_header c.req.headers with
  | none => exact ⟨now, hnow, Lts.Run.nil _⟩
  | some token =>
    cases w.resolve_existing c.cwd c.req.uri_path with
    | none => exact ⟨now, hnow, Lts.Run.nil _⟩
    | some fs_path =>
      have hunlock := @Step.unlock c.default_hasher ⟨now, w.app.locks, []⟩ c.clock.second fs_path
        token hnow
      exact ⟨c.clock.second, le_rfl, Lts.Run.single hunlock⟩

/-- A request takes the machine through its sections. -/
theorem served_run (hm : Follows s m) (henforce : s.clock ≤ c.clock.enforce)
    (hfirst : c.clock.enforce ≤ c.clock.first) (hsecond : c.clock.first ≤ c.clock.second) :
    ∃ clock ≤ c.clock.second, Lts.Run (LockRuns.Step c.default_hasher) m (sections c s)
      ⟨clock, (served c s).app.locks, []⟩ := by
  obtain ⟨now, locks, creating⟩ := m
  obtain ⟨hclock, rfl, rfl⟩ := hm
  dsimp only at hclock
  have hfound : (found c s).app.locks = s.app.locks := rfl
  -- what is refused is no LOCK and no UNLOCK
  have hread : is_write c.req.method = false → served c s =
      (dispatch c.os c.cwd c.clock c.default_hasher c.fuel c.req (found c s)).2 := by
    intro hread
    rcases reply_eq c s with ⟨-, -, heq⟩ | ⟨⟨status, herror, -⟩, -⟩
    · exact heq
    · unfold enforced lock_enforce at herror
      rw [hread, Bool.not_false, if_pos rfl] at herror
      cases herror
  by_cases hlock : c.req.method = .LOCK
  · have heq := hread (by rw [hlock]; rfl)
    unfold dispatch at heq
    unfold sections
    rw [hlock] at heq ⊢
    rw [heq, ← hfound]
    exact handle_lock_run (by omega) hsecond
  by_cases hunlock : c.req.method = .UNLOCK
  · have heq := hread (by rw [hunlock]; rfl)
    unfold dispatch at heq
    unfold sections
    rw [hunlock] at heq ⊢
    rw [heq, ← hfound]
    exact handle_unlock_run (by omega)
  · have hnone : sections c s = [] := by
      unfold sections
      split
      · exact absurd ‹_› hlock
      · exact absurd ‹_› hunlock
      · rfl
    have hsame : (served c s).app.locks = s.app.locks := by
      rcases reply_eq c s with ⟨-, -, heq⟩ | ⟨-, heq⟩
      · rw [heq]
        exact dispatch_locks hlock hunlock
      · rw [heq]
        rfl
    rw [hnone, hsame]
    exact ⟨now, by omega, Lts.Run.nil _⟩

end Sections

/-! ## Runs -/

section Runs

variable {cwd R : Path} {default_hasher : ℕ → UInt64} {s t u : Site} {e : Lifetime.Event}
  {tr : List Lifetime.Event} {m : LockState}

/-- A step of a process with one hash function. -/
def StepWith (default_hasher : ℕ → UInt64) (s : Site) (e : Lifetime.Event) (t : Site) : Prop :=
  Lifetime.Step s e t ∧ ∀ c, e = .request c → c.default_hasher = default_hasher

def sections_of (s : Site) : Lifetime.Event → List LockRuns.Event
  | .request c => sections c s
  | .cleanup now => [.cleanup now]

/-- The critical sections of a run, in order. -/
def lock_events : Site → List Lifetime.Event → List LockRuns.Event
  | _, [] => []
  | s, e :: tr => sections_of s e ++ lock_events (next s e) tr

theorem step_locks (hm : Follows s m) (hstep : StepWith default_hasher s e t) :
    ∃ m', Lts.Run (LockRuns.Step default_hasher) m (sections_of s e) m' ∧ Follows t m' := by
  obtain ⟨hstep, hhash⟩ := hstep
  cases hstep with
  | request c henforce hfirst hsecond =>
    obtain ⟨clock, hclock, hrun⟩ := served_run hm henforce hfirst hsecond
    rw [hhash c rfl] at hrun
    exact ⟨_, hrun, hclock, rfl, rfl⟩
  | cleanup now hnow =>
    obtain ⟨clock, locks, creating⟩ := m
    obtain ⟨hclock, rfl, rfl⟩ := hm
    have hcleanup := @Step.cleanup default_hasher ⟨clock, s.app.locks, []⟩ now (le_trans hclock hnow)
    exact ⟨_, Lts.Run.single hcleanup, le_rfl, rfl, rfl⟩

/-- **A run of the server is a run of the lock machine** on its lock store. -/
theorem run_locks (hm : Follows s m) (hrun : Lts.Run (StepWith default_hasher) s tr t) :
    ∃ m', Lts.Run (LockRuns.Step default_hasher) m (lock_events s tr) m' ∧ Follows t m' := by
  induction hrun generalizing m with
  | nil s => exact ⟨m, Lts.Run.nil m, hm⟩
  | @cons s u t e tr hstep _ ih =>
    obtain ⟨m₁, hfirst, hm₁⟩ := step_locks hm hstep
    obtain ⟨m₂, hrest, hm₂⟩ := ih hm₁
    unfold lock_events
    rw [← step_next hstep.1]
    exact ⟨m₂, hfirst.append hrest, hm₂⟩

/-- A LOCK of `/f`, of which there is nothing yet. -/
def lock_f : Call :=
  { request_for .LOCK "/f" with
    req := { (request_for .LOCK "/f").req with lock_body := some [] } }

def locked_f : Site := after lock_f home

/-- The lock it is granted. -/
def f_lock : LockInfo where
  scope := .Exclusive
  token := generate_lock_token (fun _ => 0) 0
  owner := none
  created := 0
  timeout := none
  depth := .Infinity

theorem run_locks_f :
    ∃ m, Lts.Run (LockRuns.Step fun _ => 0) ⟨0, ∅, []⟩ (lock_events home [.request lock_f]) m ∧
      Follows locked_f m := by
  have hstep : StepWith (fun _ => 0) home (.request lock_f) locked_f := by
    refine ⟨(step_after rfl rfl rfl).1, fun c hc => ?_⟩
    cases hc
    rfl
  exact run_locks ⟨le_rfl, rfl, rfl⟩ (Lts.Run.single hstep)

/-- A single step has the hash function of its request. -/
theorem step_machine (hstep : Lifetime.Step s e t) :
    ∃ hash m', Lts.Run (LockRuns.Step hash) ⟨s.clock, s.app.locks, []⟩ (sections_of s e) m' ∧
      Follows t m' := by
  have hm : Follows s ⟨s.clock, s.app.locks, []⟩ := ⟨le_rfl, rfl, rfl⟩
  have hown : ∃ hash, StepWith hash s e t := by
    cases e with
    | request c =>
      refine ⟨c.default_hasher, hstep, fun c' hc => ?_⟩
      cases hc
      rfl
    | cleanup now =>
      refine ⟨fun _ => 0, hstep, fun c hc => ?_⟩
      cases hc
  obtain ⟨hash, hwith⟩ := hown
  exact ⟨hash, step_locks hm hwith⟩

/-- Exclusion is kept, whatever hash function a request has. -/
theorem step_exclusive (h : Exclusive s.clock s.app.locks) (hstep : Lifetime.Step s e t) :
    Exclusive t.clock t.app.locks := by
  obtain ⟨hash, m', hrun, hm'⟩ := step_machine hstep
  have hkept : Exclusive m'.clock m'.locks :=
    hrun.keeps (fun _ _ _ hI hs => LockRuns.step_exclusive hI hs) h
  rw [← hm'.locks]
  exact hkept.later hm'.clock

theorem empty_exclusive (hinit : s.app.locks = ∅) : Exclusive s.clock s.app.locks := by
  intro p
  rw [hinit]
  exact Lease.alone_iff.mpr (Or.inl (by simp [LockStore.at, FinMap.get_or, active_slice]))

/-- **An active exclusive lock is alone at its path**, in every state of a run from one
where it is. -/
theorem run_exclusive (h : Exclusive s.clock s.app.locks) (hrun : Lts.Run (StepIn cwd) s tr t) :
    Exclusive t.clock t.app.locks := by
  induction hrun with
  | nil s => exact h
  | cons hstep _ ih => exact ih (step_exclusive h hstep.1)

theorem step_clock (hstep : Lifetime.Step s e t) : s.clock ≤ t.clock := by
  cases hstep with
  | request c henforce hfirst hsecond => exact le_trans henforce (le_trans hfirst hsecond)
  | cleanup now hnow => exact hnow

/-- The clock of a run does not go back. -/
theorem run_clock (hrun : Lts.Run (StepIn cwd) s tr t) : s.clock ≤ t.clock := by
  induction hrun with
  | nil s => exact le_rfl
  | cons hstep _ ih => exact le_trans (step_clock hstep.1) ih

end Runs

end Rshs.ServerLocks
