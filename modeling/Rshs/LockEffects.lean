/-
What a LOCK does to the store, and what a refresh keeps of the lock it refreshes.

A LOCK touches the store in one or two critical sections, with other requests free
to run between them; `run_lock` keeps the store each section found and the one it
left. `reports_changes` then compares these with the reply: an error goes with no
change of any list, and a success with a change of the target's list alone or of
one `created` at an ancestor. An entry the code has made and left empty counts as
no entry, since `LockStore.at` reads both as no locks.

A refresh has no code of its own. It is an acquisition whose header names the lock
that is there, with the scope and the owner of its body and the depth of its
headers; `refresh_keeps_iff` says for an empty body which locks come through it.
-/
import Rshs.Server
import Rshs.LockRuns

set_option autoImplicit false

namespace Rshs.LockEffects

open StdPath FinMap Posix Rshs.Webdav Rshs.IfHeader Rshs.Ls Rshs.Locks Rshs.LockRuns Rshs.App
open Rshs.Server (lock_request)

/-! ## The sections of one request -/

/-- What a LOCK has done: its reply, and the store each of its critical sections
found and left. -/
structure Outcome where
  reply : LockReply
  sections : List (LockStore × LockStore)

section Run

variable (default_hasher : ℕ → UInt64) (now later : ℕ) (req : LockRequest)
  (create_new : CreateNew) (locks found : LockStore)

def run_lock : Outcome :=
  match first_section default_hasher now req locks with
  | (some reply, left) => { reply := reply, sections := [(locks, left)] }
  | (none, left) =>
    match ensure_lock_null_resource create_new with
    | .error status => { reply := .error status, sections := [(locks, left)] }
    | .ok created =>
      let second := second_section default_hasher later req created found
      { reply := second.1, sections := [(locks, left), (found, second.2)] }

/-- The reply is the handler's. -/
theorem run_lock_reply :
    (run_lock default_hasher now later req create_new locks found).reply =
      (handle_lock default_hasher now later req create_new locks found).1 := by
  unfold run_lock handle_lock
  rcases first_section default_hasher now req locks with ⟨_ | reply, left⟩
  · dsimp only
    cases ensure_lock_null_resource create_new with
    | error status => rfl
    | ok created => rfl
  · rfl

/-- With no other request in between, the last section leaves what the handler does. -/
theorem run_lock_last : ∃ s,
    (run_lock default_hasher now later req create_new locks
        (first_section default_hasher now req locks).2).sections.getLast? = some s ∧
      (handle_lock default_hasher now later req create_new locks
        (first_section default_hasher now req locks).2).2 = s.2 := by
  unfold run_lock handle_lock
  rcases first_section default_hasher now req locks with ⟨_ | reply, left⟩
  · dsimp only
    cases ensure_lock_null_resource create_new with
    | error status => exact ⟨_, rfl, rfl⟩
    | ok created => exact ⟨_, rfl, rfl⟩
  · exact ⟨_, rfl, rfl⟩

end Run

/-- The `Lock-Token` header of the response: the token of the lock it describes, in
angle brackets. -/
def lock_token_header : LockReply → Option String
  | .ok (_, lock) => some ("<" ++ lock.token ++ ">")
  | .error _ => none

/-! ## What a section changes -/

/-- The section has left every list as it was. -/
def Unchanged (s : LockStore × LockStore) : Prop := ∀ p, s.2.at p = s.1.at p

/-- The section has changed no list but that of the target. -/
def OnlyAt (target : Path) (s : LockStore × LockStore) : Prop :=
  ∀ p, p ≠ target → s.2.at p = s.1.at p

/-- Some list of the header has the token as a condition of its own. -/
def Presented (headers : HeaderMap) (token : String) : Prop :=
  ∃ e ∈ parse_if_header headers, IfCondition.StateToken token ∈ e.conditions

/-- The section has given one active infinite lock of a proper ancestor, with a
token the header presents, a new creation time, and has changed nothing else. -/
def Renews (now : ℕ) (headers : HeaderMap) (target : Path) (token : String)
    (s : LockStore × LockStore) : Prop :=
  ∃ p pre l post, p <+: target ∧ p ≠ target ∧ s.1.at p = pre ++ l :: post ∧
    l.depth = .Infinity ∧ l.is_expired now = false ∧ l.token = token ∧ Presented headers token ∧
    s.2.at p = pre ++ { l with created := now } :: post ∧ ∀ q, q ≠ p → s.2.at q = s.1.at q

theorem OnlyAt.of_unchanged {target : Path} {s : LockStore × LockStore} (h : Unchanged s) :
    OnlyAt target s := fun p _ => h p

section Effects

variable {default_hasher : ℕ → UInt64} {now : ℕ} {req : LockRequest} {locks : LockStore}

theorem mem_positive_tokens {lists : List IfList} {token : String} :
    token ∈ lists.flatMap IfList.positive_tokens ↔
      ∃ e ∈ lists, IfCondition.StateToken token ∈ e.conditions := by
  simp only [List.mem_flatMap, IfList.positive_tokens, List.mem_filterMap]
  refine exists_congr fun e => and_congr_right fun _ => ?_
  constructor
  · rintro ⟨c, hc, hpos⟩
    cases c with
    | StateToken t =>
      have ht : t = token := by simpa [IfCondition.positive] using hpos
      rw [← ht]
      exact hc
    | Not inner => simp [IfCondition.positive] at hpos
  · intro h
    exact ⟨_, h, rfl⟩

/-- A list written over the entry of the target changes that list only. -/
theorem insert_only_at (locks : LockStore) (target : Path) (entry : List LockInfo) :
    OnlyAt target (locks, (or_default [] target locks : LockStore).insert target entry) := by
  intro p hp
  show LockStore.at ((or_default [] target locks : LockStore).insert target entry) p = locks.at p
  rw [at_insert, if_neg hp, at_or_default]

theorem insert_unchanged {locks : LockStore} {target : Path} {entry : List LockInfo}
    (h : locks.at target = entry) :
    Unchanged (locks, (or_default [] target locks : LockStore).insert target entry) := by
  intro p
  by_cases hp : p = target
  · show LockStore.at ((or_default [] target locks : LockStore).insert target entry) p = locks.at p
    rw [at_insert, if_pos hp, hp, h]
  · exact insert_only_at locks target entry p hp

/-- The first section, by its reply. -/
theorem first_section_effect :
    (∀ status, (first_section default_hasher now req locks).1 = some (.error status) →
      Unchanged (locks, (first_section default_hasher now req locks).2)) ∧
    ((first_section default_hasher now req locks).1 = none →
      Unchanged (locks, (first_section default_hasher now req locks).2)) ∧
    ∀ status lock, (first_section default_hasher now req locks).1 = some (.ok (status, lock)) →
      (OnlyAt req.target (locks, (first_section default_hasher now req locks).2) ∧
        lock ∈ (first_section default_hasher now req locks).2.at req.target) ∨
      ∃ p pre l post, p <+: req.target ∧ p ≠ req.target ∧ locks.at p = pre ++ l :: post ∧
        l.depth = .Infinity ∧ l.is_expired now = false ∧ l.token = lock.token ∧
        l.token ∈ req.if_tokens ∧
        (first_section default_hasher now req locks).2.at p =
          pre ++ { l with created := now } :: post ∧
        ∀ q, q ≠ p → (first_section default_hasher now req locks).2.at q = locks.at q := by
  have hsame : Unchanged (locks, or_default [] req.target locks) := fun p => at_or_default _ _ _
  rcases first_section_cases default_hasher now req locks with
    ⟨refreshed, locks', hfind, heq⟩ | ⟨-, ⟨status, -, heq⟩ | ⟨token, entry, -, heq⟩ | ⟨he, heq⟩⟩
  · -- a lock of an ancestor was refreshed
    obtain ⟨p, pre, l, post, hpre, hne, hl, hd, hexp, ht, hrefreshed, rfl⟩ :=
      find_and_refresh_some hfind
    rw [heq]
    refine ⟨by simp, by simp, fun status lock h => Or.inr ?_⟩
    simp only [Option.some.injEq, Except.ok.injEq, Prod.mk.injEq] at h
    rw [← h.2]
    refine ⟨p, pre, l, post, hpre, hne, at_of_lookup hl, hd, hexp, ?_, by simpa using ht, ?_, ?_⟩
    · rw [hrefreshed]
    · rw [at_insert, if_pos rfl, hrefreshed]
    · intro q hq
      rw [at_insert, if_neg hq]
  · rw [heq]
    exact ⟨fun _ _ => hsame, by simp, by simp⟩
  · -- a lock was granted at the target
    rw [heq]
    refine ⟨by simp, by simp, fun status lock h => Or.inl ⟨insert_only_at _ _ _, ?_⟩⟩
    simp only [Option.some.injEq, Except.ok.injEq, Prod.mk.injEq] at h
    rw [at_insert, if_pos rfl, ← h.2]
    simp
  · rw [heq]
    exact ⟨by simp, fun _ => insert_unchanged he, by simp⟩

theorem second_section_effect {created : Bool} :
    (∀ status, (second_section default_hasher now req created locks).1 = .error status →
      Unchanged (locks, (second_section default_hasher now req created locks).2)) ∧
    ∀ status lock, (second_section default_hasher now req created locks).1 = .ok (status, lock) →
      OnlyAt req.target (locks, (second_section default_hasher now req created locks).2) ∧
        lock ∈ (second_section default_hasher now req created locks).2.at req.target := by
  rcases second_section_cases default_hasher now req created locks with ⟨-, heq⟩ | ⟨-, heq⟩
  · rw [heq]
    exact ⟨fun _ _ p => at_or_default _ _ _, by simp⟩
  · rw [heq]
    refine ⟨by simp, fun status lock h => ⟨insert_only_at _ _ _, ?_⟩⟩
    simp only [Except.ok.injEq, Prod.mk.injEq] at h
    rw [at_insert, if_pos rfl, ← h.2]
    simp

end Effects

/-- The reply tells what the sections have changed. With an error they have left every
list as it was. With a success, either the target's list alone has changed and has a
lock with the token of the response, or there was one section, and it has renewed
that lock at an ancestor. -/
def Reported (now : ℕ) (headers : HeaderMap) (target : Path) (out : Outcome) : Prop :=
  (∀ status, out.reply = .error status → ∀ s ∈ out.sections, Unchanged s) ∧
  ∀ status lock, out.reply = .ok (status, lock) →
    ∃ token, lock_token_header out.reply = some ("<" ++ token ++ ">") ∧
      (((∀ s ∈ out.sections, OnlyAt target s) ∧
          ∃ s, out.sections.getLast? = some s ∧ ∃ l ∈ s.2.at target, l.token = token) ∨
        ∃ s, out.sections = [s] ∧ Renews now headers target token s)

/-- **A LOCK changes only what it reports**, whatever store each of its sections
finds. -/
theorem reports_changes (default_hasher : ℕ → UInt64) (now later : ℕ) (req : Request)
    (app : AppState) (events : List XmlEvent) (target : Path) (create_new : CreateNew)
    (locks found : LockStore) :
    Reported now req.headers target
      (run_lock default_hasher now later (lock_request req app events target) create_new
        locks found) := by
  obtain ⟨herr, hnone, hok⟩ := @first_section_effect default_hasher now
    (lock_request req app events target) locks
  unfold run_lock
  generalize first_section default_hasher now (lock_request req app events target) locks
    = first at herr hnone hok
  obtain ⟨_ | reply, left⟩ := first
  · -- nothing was stored at the target, and nothing is yet
    have hleft : Unchanged (locks, left) := hnone rfl
    dsimp only
    cases ensure_lock_null_resource create_new with
    | error status =>
      refine ⟨fun _ _ s hs => ?_, by simp⟩
      rw [List.mem_singleton.mp hs]
      exact hleft
    -- the second section stores the lock, at the target only
    | ok created =>
      obtain ⟨herr₂, hok₂⟩ := @second_section_effect default_hasher later
        (lock_request req app events target) found created
      refine ⟨fun status h s hs => ?_, fun status lock h => ⟨lock.token, ?_, Or.inl ⟨?_, ?_⟩⟩⟩
      · rcases List.mem_cons.mp hs with rfl | hs
        · exact hleft
        · rw [List.mem_singleton.mp hs]
          exact herr₂ status h
      · rw [h]
        rfl
      · intro s hs
        rcases List.mem_cons.mp hs with rfl | hs
        · exact OnlyAt.of_unchanged hleft
        · rw [List.mem_singleton.mp hs]
          exact (hok₂ status lock h).1
      · exact ⟨_, rfl, lock, (hok₂ status lock h).2, rfl⟩
  · -- the first section has replied
    refine ⟨fun status h s hs => ?_, fun status lock h => ⟨lock.token, ?_, ?_⟩⟩
    · rw [List.mem_singleton.mp hs]
      exact herr status (by rw [← h])
    · rw [h]
      rfl
    -- a lock of the target, or one of an ancestor that was renewed
    · rcases hok status lock (by rw [← h]) with ⟨honly, hmem⟩ | hrenew
      · left
        refine ⟨fun s hs => ?_, _, rfl, lock, hmem, rfl⟩
        rw [List.mem_singleton.mp hs]
        exact honly
      · right
        obtain ⟨p, pre, l, post, hpre, hne, hat, hd, hexp, ht, hmem, hleft, hrest⟩ := hrenew
        have hpresented : Presented req.headers lock.token := by
          rw [← ht]
          exact mem_positive_tokens.mp hmem
        exact ⟨_, rfl, p, pre, l, post, hpre, hne, hat, hd, hexp, ht, hpresented, hleft, hrest⟩

/-- The server's LOCK, with no other request in between, is such a run: its second
section finds what its first one left. -/
theorem server_handle_lock_run {os : Os} {cwd : Path} {clock : Server.Clock}
    {default_hasher : ℕ → UInt64} {req : Request} {w w' : World} {target : Path}
    {events : List XmlEvent}
    (hresolve : w.resolve_and_guard cwd (trim_end_matches '/' req.uri_path) = (.ok target, w'))
    (hbody : req.lock_body = some events) :
    ∃ create_new, ∃ out : Outcome,
      run_lock default_hasher clock.first clock.second (lock_request req w'.app events target)
        create_new w'.app.locks
        (first_section default_hasher clock.first (lock_request req w'.app events target)
          w'.app.locks).2 = out ∧
      (Server.handle_lock os cwd clock default_hasher req w).1 = out.reply.map Prod.fst ∧
      ∃ s, out.sections.getLast? = some s ∧
        (Server.handle_lock os cwd clock default_hasher req w).2.app.locks = s.2 := by
  obtain ⟨hreply, hleft⟩ := Server.handle_lock_eq os clock default_hasher hresolve hbody
  obtain ⟨s, hlast, hs⟩ := run_lock_last default_hasher clock.first clock.second
    (lock_request req w'.app events target)
    (Server.create_new_outcome (create_new os target w'.machine).1) w'.app.locks
  refine ⟨Server.create_new_outcome (create_new os target w'.machine).1, _, rfl, ?_, s, hlast, ?_⟩
  · rw [run_lock_reply]
    exact hreply
  · rw [← hs]
    exact hleft

/-! ## Refreshing with an empty body -/

/-- The reader's events on an empty body. -/
def empty_body : List XmlEvent := [.Eof]

/-- The LOCK was answered with 200, and the target's list is one lock, the same as
before but for its times. -/
def TimingOnly (l : LockInfo) (target : Path) (r : LockReply × LockStore) : Prop :=
  (∃ lock, r.1 = .ok (.OK, lock)) ∧ ∃ l', r.2.at target = [l'] ∧ Same l l'

section Refresh

variable {default_hasher : ℕ → UInt64} {now later : ℕ} {req : LockRequest}
  {create_new : CreateNew} {locks found : LockStore} {l : LockInfo}

/-- The reply is given in the first section when a lock is stored at the target. -/
theorem handle_lock_acquired {token : String} {entry : List LockInfo}
    (hanc : ¬ OwnsAncestor now req locks)
    (hd : decision default_hasher now req (locks.at req.target) = .ok (.Acquired token, entry)) :
    handle_lock default_hasher now later req create_new locks found =
      (.ok (.OK, req.lock token now),
        (or_default [] req.target locks : LockStore).insert req.target
          (entry ++ [req.lock token now])) := by
  have hfind : find_and_refresh_ancestor_lock now locks req.target
      (fun l => req.if_tokens.contains l.token) = none := by
    by_contra hsome
    exact hanc (owns_ancestor_iff.mpr hsome)
  unfold handle_lock first_section
  rw [hfind]
  dsimp only
  rw [at_or_default, hd]

theorem refresh_exclusive_at (hat : locks.at req.target = [l]) (hexp : l.is_expired now = false)
    (htok : l.token ∈ req.if_tokens) (hs : req.lock_scope = .Exclusive)
    (hx : l.is_exclusive = true) :
    decision default_hasher now req (locks.at req.target) = .ok (.Acquired l.token, []) := by
  have hactive : active_slice now [l] = [l] := by
    simp [active_slice, Lease.live, expired, hexp]
  rw [hat, decision, check_existing_exclusive, hactive]
  simp [hx, htok, hs]

theorem upgrade_shared_at (hat : locks.at req.target = [l]) (htok : l.token ∈ req.if_tokens)
    (hs : req.lock_scope = .Exclusive) (hx : l.is_exclusive = false) :
    decision default_hasher now req (locks.at req.target) =
      .ok (.Acquired (generate_lock_token default_hasher now), []) := by
  have hnone : (active_slice now [l]).find? LockInfo.is_exclusive = none := by
    apply List.find?_eq_none.mpr
    intro x hx'
    rw [List.mem_singleton.mp (Lease.mem_live.mp hx').1, hx]
    exact Bool.false_ne_true
  rw [hat, decision, check_existing_exclusive, hnone]
  simp [hs, try_new_exclusive, htok]

end Refresh

/-- **What a refresh with an empty body keeps.** It is a request for an exclusive lock
without an owner, of the depth of the `Depth` header; it comes to a refresh exactly
for a lock that is that already. -/
theorem refresh_keeps_iff (default_hasher : ℕ → UInt64) (now later : ℕ) (req : Request)
    (app : AppState) (target : Path) (create_new : CreateNew) (locks found : LockStore)
    (l : LockInfo) (hat : locks.at target = [l]) (hexp : l.is_expired now = false)
    (htok : Presented req.headers l.token)
    (hanc : ¬ OwnsAncestor now (lock_request req app empty_body target) locks) :
    TimingOnly l target (handle_lock default_hasher now later
        (lock_request req app empty_body target) create_new locks found) ↔
      l.scope = .Exclusive ∧ l.owner = none ∧ parse_depth req.headers = l.depth := by
  have hmem : l.token ∈ (lock_request req app empty_body target).if_tokens :=
    mem_positive_tokens.mpr htok
  have hleft : ∀ token, LockStore.at ((or_default [] target locks : LockStore).insert target
      ([] ++ [(lock_request req app empty_body target).lock token now])) target =
        [(lock_request req app empty_body target).lock token now] := by
    intro token
    rw [at_insert, if_pos rfl, List.nil_append]
  by_cases hx : l.is_exclusive = true
  · -- the lock is refreshed under its token
    rw [handle_lock_acquired hanc (refresh_exclusive_at hat hexp hmem rfl hx)]
    have hscope : l.scope = .Exclusive := by simpa [LockInfo.is_exclusive] using hx
    constructor
    · rintro ⟨-, l', hl', -, -, howner, hdepth⟩
      rw [show (lock_request req app empty_body target).target = target from rfl, hleft] at hl'
      rw [← List.singleton_inj.mp hl'] at howner hdepth
      exact ⟨hscope, howner.symm, hdepth⟩
    · rintro ⟨-, howner, hdepth⟩
      exact ⟨⟨_, rfl⟩, _, hleft _, rfl, hscope.symm, howner.symm, hdepth⟩
  · -- the lock is replaced by an exclusive one under a new token
    rw [Bool.not_eq_true] at hx
    rw [handle_lock_acquired hanc (upgrade_shared_at hat hmem rfl hx)]
    constructor
    · rintro ⟨-, l', hl', -, hscope, -, -⟩
      rw [show (lock_request req app empty_body target).target = target from rfl, hleft] at hl'
      rw [← List.singleton_inj.mp hl'] at hscope
      simp [LockInfo.is_exclusive, ← hscope] at hx
      exact absurd rfl hx
    · rintro ⟨hscope, -, -⟩
      simp [LockInfo.is_exclusive, hscope] at hx

/-! ## Two refreshes of `/d` -/

/-- A server at `/` without a lock timeout. -/
def root_app : AppState where
  root_dir := Path.to_buf []
  root_canonical := Path.to_buf []
  dead_props := ∅
  locks := ∅
  canonical_cache := ∅
  lock_timeout := 0

/-- A LOCK of `/d` without a body, naming the token the clock has given out. -/
def refresh_request : Request where
  method := .LOCK
  uri_path := "/d".toList
  headers := { if_header := some (header_value "(<opaquelocktoken:0000000000000000>)") }
  body := []
  lock_body := some empty_body
  proppatch_body := none
  propfind_body := none

theorem not_owns_ancestor_single {now : ℕ} {req : LockRequest} {entry : List LockInfo} :
    ¬ OwnsAncestor now req (AList.insert req.target entry ∅) := by
  rintro ⟨p, -, hne, l, hl, -, -⟩
  have hat : LockStore.at (AList.insert req.target entry ∅) p = [] := by
    rw [at_insert, if_neg hne]
    rfl
  rw [hat] at hl
  simp [active_slice, Lease.live] at hl

theorem refresh_keeps_iff_dir :
    TimingOnly (dir_lock.lock (generate_lock_token (fun _ => 0) 2) 2) dir
        (handle_lock (fun _ => 0) 3 4 (lock_request refresh_request root_app empty_body dir)
          .AlreadyExists dir_locked.locks ∅) ↔
      (dir_lock.lock (generate_lock_token (fun _ => 0) 2) 2).scope = .Exclusive ∧
        (dir_lock.lock (generate_lock_token (fun _ => 0) 2) 2).owner = none ∧
        parse_depth refresh_request.headers
          = (dir_lock.lock (generate_lock_token (fun _ => 0) 2) 2).depth :=
  refresh_keeps_iff (fun _ => 0) 3 4 refresh_request root_app dir .AlreadyExists dir_locked.locks ∅
    (dir_lock.lock (generate_lock_token (fun _ => 0) 2) 2) dir_locked_at rfl
    (by unfold Presented; decide) not_owns_ancestor_single

/-- `/d` under a shared lock, from the empty store. -/
def dir_shared : LockState where
  clock := 2
  locks := (second_section (fun _ => 0) 2 { dir_lock with lock_scope := .Shared } false
    (first_section (fun _ => 0) 1 { dir_lock with lock_scope := .Shared } ∅).2).2
  creating := []

/-- The refresh of a shared lock turns it into an exclusive one. -/
theorem shared_refresh_upgrades :
    Lts.Reachable (Step (fun _ => 0)) Initial dir_shared ∧
    ∃ l, dir_shared.locks.at dir = [l] ∧ l.is_expired 3 = false ∧
      Presented refresh_request.headers l.token ∧
      ¬ OwnsAncestor 3 (lock_request refresh_request root_app empty_body dir) dir_shared.locks ∧
      ¬ TimingOnly l dir
        (handle_lock (fun _ => 0) 3 4 (lock_request refresh_request root_app empty_body dir)
          .AlreadyExists dir_shared.locks ∅) := by
  refine ⟨⟨⟨0, ∅, []⟩, [.lock_begin 1 { dir_lock with lock_scope := .Shared },
      .lock_commit 2 { dir_lock with lock_scope := .Shared } false], ⟨rfl, rfl⟩,
    Lts.Run.cons (Step.lock_begin _ 1 _ (Nat.zero_le 1))
      (Lts.Run.single (Step.lock_commit _ 2 _ false (Nat.le_succ 1) List.mem_cons_self))⟩,
    _, rfl, rfl, by unfold Presented; decide, not_owns_ancestor_single, ?_⟩
  rintro ⟨-, l', hl', -, hscope, -⟩
  rw [show (handle_lock (fun _ => 0) 3 4 (lock_request refresh_request root_app empty_body dir)
      .AlreadyExists dir_shared.locks ∅).2.at dir =
        [(lock_request refresh_request root_app empty_body dir).lock
          (generate_lock_token (fun _ => 0) 3) 3] by decide] at hl'
  rw [← List.singleton_inj.mp hl'] at hscope
  cases hscope

end Rshs.LockEffects
