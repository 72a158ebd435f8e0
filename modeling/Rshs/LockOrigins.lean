/-
Where the locks of a server come from.

A request adds a lock to the store only as a LOCK that it answers with success, at the
path its URL is guarded to and with the terms of its body and headers; what it does to the
other locks is to drop them or to renew their time (`served_origin`). So every lock that is
stored after a run was granted by a LOCK of the run on these terms (`locks_traced`).
-/
import Rshs.ServerLocks

set_option autoImplicit false

namespace Rshs.LockOrigins

open StdPath Posix Rshs.Webdav Rshs.Ls Rshs.Locks Rshs.Resolve Rshs.App Rshs.Server
open Rshs.Lifetime (Call Site Event Step found served enforced)
open Rshs.StoreRuns (reply reply_eq)
open Rshs.CachedParents (request_for after step_after)
open Rshs.StoreLaws (home)
open Rshs.ServerLocks (dispatch_locks lock_f locked_f f_lock)

/-- The same lock, perhaps with its time renewed. -/
def Renewed (l l' : LockInfo) : Prop := { l' with created := l.created } = l

theorem Renewed.refl (l : LockInfo) : Renewed l l := rfl

/-- A lock renewed twice has been renewed. -/
theorem Renewed.trans {l l' l'' : LockInfo} (h : Renewed l l') (h' : Renewed l' l'') :
    Renewed l l'' := by
  unfold Renewed at h h' ⊢
  rw [← h, ← h']

section Sections

variable {default_hasher : ℕ → UInt64} {now : ℕ} {req : LockRequest} {locks : LockStore}
  {l : LockInfo} {k : Path}

/-- Whatever is stored after the first section was stored before, or is what it grants. -/
theorem first_section_origin (hl : l ∈ (first_section default_hasher now req locks).2.at k) :
    (∃ l₀ ∈ locks.at k, Renewed l l₀) ∨
      (k = req.target ∧ (∃ token, l = req.lock token now) ∧
        (first_section default_hasher now req locks).1 = some (.ok (.OK, l))) := by
  -- an ancestor renewed, a refusal, a lock granted, or an empty entry made
  rcases first_section_cases default_hasher now req locks with
    ⟨lock, locks', hfind, heq⟩ | ⟨-, ⟨status, -, heq⟩ | ⟨token, entry, hd, heq⟩ | ⟨-, heq⟩⟩
  all_goals
    rw [heq] at hl
    rw [heq]
    dsimp only at hl ⊢
  · left
    obtain ⟨q, pre, x, post, -, -, hx, -, -, -, hlock, rfl⟩ := find_and_refresh_some hfind
    rw [at_insert] at hl
    split at hl
    · rename_i hq
      rw [hq, at_of_lookup hx]
      rcases List.mem_append.mp hl with hpre | hmid
      · exact ⟨l, List.mem_append_left _ hpre, Renewed.refl l⟩
      · rcases List.mem_cons.mp hmid with rfl | hpost
        · refine ⟨x, List.mem_append_right _ List.mem_cons_self, ?_⟩
          rw [hlock]
          rfl
        · exact ⟨l, List.mem_append_right _ (List.mem_cons_of_mem _ hpost), Renewed.refl l⟩
    · exact ⟨l, hl, Renewed.refl l⟩
  · left
    rw [at_or_default] at hl
    exact ⟨l, hl, Renewed.refl l⟩
  · rw [at_insert] at hl
    split at hl
    · rename_i hk
      rcases List.mem_append.mp hl with hold | hnew
      · left
        rw [hk]
        exact ⟨l, decision_subset default_hasher hd l hold, Renewed.refl l⟩
      · right
        rw [List.mem_singleton] at hnew
        exact ⟨hk, ⟨token, hnew⟩, by rw [hnew]⟩
    · left
      rw [at_or_default] at hl
      exact ⟨l, hl, Renewed.refl l⟩
  · left
    rw [at_insert] at hl
    split at hl
    · cases hl
    · rw [at_or_default] at hl
      exact ⟨l, hl, Renewed.refl l⟩

/-- A lock in the store after the second section was there, or is the one just granted. -/
theorem second_section_origin {created : Bool}
    (hl : l ∈ (second_section default_hasher now req created locks).2.at k) :
    l ∈ locks.at k ∨ (k = req.target ∧ (∃ token, l = req.lock token now) ∧
      ∃ status, (second_section default_hasher now req created locks).1 = .ok (status, l)) := by
  rcases second_section_cases default_hasher now req created locks with ⟨-, heq⟩ | ⟨-, heq⟩
  all_goals
    rw [heq] at hl
    rw [heq]
    dsimp only at hl ⊢
  · left
    rw [at_or_default] at hl
    exact hl
  · rw [at_insert] at hl
    split at hl
    · rename_i hk
      right
      rw [List.mem_singleton] at hl
      exact ⟨hk, ⟨_, hl⟩, _, by rw [hl]⟩
    · left
      rw [at_or_default] at hl
      exact hl

end Sections

/-! ## Requests -/

/-- The request was granted the lock at the path, up to its time. -/
structure Granted (c : Call) (s : Site) (k : Path) (l : LockInfo) : Prop where
  method : c.req.method = .LOCK
  success : ∃ status, reply c s = some (.ok status)
  target : ((found c s).resolve_and_guard c.cwd (trim_end_matches '/' c.req.uri_path)).1 = .ok k
  terms : ∃ events, c.req.lock_body = some events ∧
    l.owner = (parse_lock_body events).1 ∧ l.scope = (parse_lock_body events).2 ∧
    l.depth = parse_depth c.req.headers ∧ l.timeout = lock_timeout c.req s.app

section Requests

variable {c : Call} {s t : Site} {e : Event} {tr : List Event} {l : LockInfo} {k : Path} {w : World}

/-- A lock in the store after LOCK was there, perhaps renewed, or is the one just granted. -/
theorem handle_lock_origin
    (hl : l ∈ (Server.handle_lock c.os c.cwd c.clock c.default_hasher c.req w).2.app.locks.at k) :
    (∃ l₀ ∈ w.app.locks.at k, Renewed l l₀) ∨
      (∃ status, (Server.handle_lock c.os c.cwd c.clock c.default_hasher c.req w).1 = .ok status) ∧
        (w.resolve_and_guard c.cwd (trim_end_matches '/' c.req.uri_path)).1 = .ok k ∧
        ∃ events token now, c.req.lock_body = some events ∧
          l = (lock_request c.req w.app events k).lock token now := by
  have hold : ∀ locks, locks = w.app.locks → l ∈ LockStore.at locks k →
      ∃ l₀ ∈ w.app.locks.at k, Renewed l l₀ := by
    rintro locks rfl hmem
    exact ⟨l, hmem, Renewed.refl l⟩
  unfold Server.handle_lock at hl ⊢
  dsimp only at hl ⊢
  rcases hr : w.resolve_and_guard c.cwd (trim_end_matches '/' c.req.uri_path) with ⟨e | target, w'⟩
  all_goals
    obtain ⟨⟨-, -, hlocks⟩, hreq⟩ := Server.guard_leaves hr
    dsimp only at hlocks hreq
    rw [hr] at hl
    dsimp only at hl ⊢
  · exact Or.inl (hold _ hlocks hl)
  · rcases hbody : c.req.lock_body with _ | events
    all_goals
      rw [hbody] at hl
      dsimp only at hl ⊢
    · exact Or.inl (hold _ hlocks hl)
    · rw [hreq, hlocks] at hl ⊢
      have horigin := @first_section_origin c.default_hasher c.clock.first
        (lock_request c.req w.app events target) w.app.locks l k
      rcases hfirst : first_section c.default_hasher c.clock.first
        (lock_request c.req w.app events target) w.app.locks with ⟨_ | r, locks⟩
      all_goals
        rw [hfirst] at hl horigin
        dsimp only at hl horigin ⊢
      · -- nothing was granted yet, so the first section has left old locks only
        have hleft : l ∈ locks.at k → ∃ l₀ ∈ w.app.locks.at k, Renewed l l₀ := fun hmem =>
          (horigin hmem).resolve_right fun h => by cases h.2.2
        rw [with_locks_machine] at hl ⊢
        rcases hmake : create_new c.os target w'.machine with ⟨made, m⟩
        rw [hmake] at hl
        dsimp only at hl ⊢
        rcases hnull : ensure_lock_null_resource (create_new_outcome made) with status | created
        all_goals
          rw [hnull] at hl
          dsimp only at hl ⊢
        · exact Or.inl (hleft hl)
        · rcases second_section_origin hl with hfound | ⟨rfl, ⟨token, hnew⟩, status, hreply⟩
          · exact Or.inl (hleft hfound)
          · refine Or.inr ⟨⟨status, ?_⟩, rfl, events, token, _, rfl, hnew⟩
            exact congrArg (Except.map Prod.fst) hreply
      · rcases horigin hl with hfound | ⟨rfl, ⟨token, hnew⟩, hreply⟩
        · exact Or.inl hfound
        · refine Or.inr ⟨⟨.OK, ?_⟩, rfl, events, token, _, rfl, hnew⟩
          rw [Option.some.inj hreply]
          rfl

/-- **A stored lock was stored before, or the request is granted it.** -/
theorem served_origin (hl : l ∈ (served c s).app.locks.at k) :
    (∃ l₀ ∈ s.app.locks.at k, Renewed l l₀) ∨ Granted c s k l := by
  have hfound : (found c s).app.locks = s.app.locks := rfl
  rcases reply_eq c s with ⟨-, hreply, heq⟩ | ⟨-, heq⟩
  · rw [heq] at hl
    by_cases hlock : c.req.method = .LOCK
    · unfold dispatch at hl hreply
      rw [hlock] at hl hreply
      rcases handle_lock_origin hl with hold | ⟨⟨status, hok⟩, htarget, events, token, now, hbody, rfl⟩
      · exact Or.inl hold
      · refine Or.inr ⟨hlock, ⟨status, ?_⟩, htarget, events, hbody, rfl, rfl, rfl, rfl⟩
        rw [hreply]
        exact congrArg some hok
    by_cases hunlock : c.req.method = .UNLOCK
    · left
      unfold dispatch at hl
      rw [hunlock] at hl
      have hl' : l ∈ (Locks.handle_unlock c.req.headers
          ((found c s).resolve_existing c.cwd c.req.uri_path) s.app.locks).2.at k := hl
      unfold Locks.handle_unlock at hl'
      refine ⟨l, ?_, Renewed.refl l⟩
      split at hl'
      · exact hl'
      · split at hl'
        · exact hl'
        · rw [at_unlock_section] at hl'
          split at hl'
          · exact List.mem_of_mem_filter hl'
          · exact hl'
    · left
      rw [dispatch_locks hlock hunlock] at hl
      exact ⟨l, hl, Renewed.refl l⟩
  · rw [heq] at hl
    exact Or.inl ⟨l, hl, Renewed.refl l⟩

/-- **Every lock was granted.** In any run from an empty lock store, a lock that is stored at
a path was granted by a LOCK of the run that was answered with success: the path is the one
its URL was guarded to, owner and scope are its body's, depth and timeout its headers' or
the server's. -/
theorem locks_traced (hinit : s.app.locks = ∅) (hrun : Lts.Run Step s tr t)
    (hl : l ∈ t.app.locks.at k) :
    ∃ tr₁ c tr₂ u, tr = tr₁ ++ .request c :: tr₂ ∧ Lts.Run Step s tr₁ u ∧ Granted c u k l := by
  have hnone : ¬ ∃ l' ∈ s.app.locks.at k, Renewed l l' := by
    rintro ⟨l', hl', -⟩
    rw [hinit] at hl'
    cases hl'
  -- the step that first has the lock, whatever its time
  obtain ⟨tr₁, e, tr₂, u, v, htr, hbefore, hu, hstep, ⟨l', hl', hsame⟩, -⟩ :=
    hrun.flip (Q := fun u => ∃ l' ∈ u.app.locks.at k, Renewed l l') hnone ⟨l, hl, Renewed.refl l⟩
  cases hstep with
  | cleanup now hnow =>
    dsimp only at hl'
    rw [at_cleanup] at hl'
    exact absurd ⟨l', (Lease.mem_live.mp hl').1, hsame⟩ hu
  | request c henforce hfirst hsecond =>
    rcases served_origin hl' with ⟨l₀, hl₀, hold⟩ | hgranted
    · exact absurd ⟨l₀, hl₀, hsame.trans hold⟩ hu
    · refine ⟨tr₁, c, tr₂, u, htr, hbefore, ?_⟩
      rw [← hsame]
      exact ⟨hgranted.method, hgranted.success, hgranted.target, hgranted.terms⟩

theorem locks_traced_f :
    ∃ tr₁ c tr₂ u, [.request lock_f] = tr₁ ++ Event.request c :: tr₂ ∧ Lts.Run Step home tr₁ u ∧
      Granted c u [d_name, f_name] f_lock := by
  have hstep : Step home (.request lock_f) locked_f := (step_after rfl rfl rfl).1
  have hstored : f_lock ∈ locked_f.app.locks.at [d_name, f_name] := by decide
  exact locks_traced rfl (Lts.Run.single hstep) hstored

end Requests

end Rshs.LockOrigins
