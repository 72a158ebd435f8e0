/-
`handlers/locks.rs` and `server/cleanup.rs`: what LOCK, UNLOCK and the cleanup pass
do to the lock store.

A LOCK holds the write guard for one critical section, and for a second one when
the first found no lock at all at its target: between the two it gives the guard
up and creates the lock-null file. `first_section` and `second_section` are the
two, and `handle_lock` puts them together with what others do in between. A
critical section reads the clock once.

`Decision` is the inversion of what the first section decides about the entry of
its target: one constructor for each way through the branches, with everything
the code has tested on that way.
-/
import Rshs.Ls

set_option autoImplicit false

namespace Rshs.Locks

open StdPath FinMap Rshs.Webdav Rshs.Ls

/-! ## The request body -/

/-- The events of the XML reader; a start tag and an empty one are told apart by
nothing the body parser does. -/
inductive XmlEvent
  | Start (local_name : List UInt8)
  | Empty (local_name : List UInt8)
  | End (local_name : List UInt8)
  | Text (content : List UInt8)
  | Eof
  | Err
  | Other
deriving DecidableEq

/-- The bytes of a byte-string literal. -/
def lit (s : String) : List UInt8 := Text.utf8_encode s.toList

/-- The variables of the parsing loop. -/
structure BodyState where
  in_owner : Bool := false
  in_lockscope : Bool := false
  owner : Option String := none
  scope : LockScope := .Exclusive

def BodyState.on_start (s : BodyState) (name : List UInt8) : BodyState :=
  if name = lit "owner" then { s with in_owner := true }
  else if name = lit "lockscope" then { s with in_lockscope := true }
  else if name = lit "shared" ∧ s.in_lockscope = true then { s with scope := .Shared }
  else s

def BodyState.on_end (s : BodyState) (name : List UInt8) : BodyState :=
  if name = lit "owner" then { s with in_owner := false }
  else if name = lit "lockscope" then { s with in_lockscope := false }
  else s

def parse_lock_body_loop (s : BodyState) : List XmlEvent → Option String × LockScope
  | [] | .Eof :: _ | .Err :: _ => (s.owner, s.scope)
  | .Start name :: events | .Empty name :: events => parse_lock_body_loop (s.on_start name) events
  | .End name :: events => parse_lock_body_loop (s.on_end name) events
  | .Text t :: events =>
    if s.in_owner then
      parse_lock_body_loop { s with owner := some (String.ofList (Text.utf8_lossy t)) } events
    else parse_lock_body_loop s events
  | .Other :: events => parse_lock_body_loop s events

/-- The owner and the scope a LOCK body asks for, from the reader's events. -/
def parse_lock_body (events : List XmlEvent) : Option String × LockScope :=
  parse_lock_body_loop {} events

/-! ## LOCK -/

/-- What `handle_lock` has read off its request when it takes the guard. -/
structure LockRequest where
  target : Path
  timeout : Option ℕ
  depth : Depth
  if_tokens : List String
  owner : Option String
  lock_scope : LockScope
deriving DecidableEq

/-- The lock the request asks for, under a token. -/
def LockRequest.lock (req : LockRequest) (token : String) (now : ℕ) : LockInfo where
  scope := req.lock_scope
  token := token
  owner := req.owner
  created := now
  timeout := req.timeout
  depth := req.depth

/-- `AppResult` of a LOCK: a status with the lock the response describes, or an
error status. -/
abbrev LockReply := Except StatusCode (StatusCode × LockInfo)

inductive TryAcquire
  | Acquired (token : String)
  | NeedsLockNull
deriving DecidableEq

/-- What `File::create_new` reports. -/
inductive CreateNew
  | Created
  | AlreadyExists
  | Failed
deriving DecidableEq

def ensure_lock_null_resource : CreateNew → Except StatusCode Bool
  | .Created => .ok true
  | .AlreadyExists => .ok false
  | .Failed => .error .INTERNAL_SERVER_ERROR

section Sections

variable (default_hasher : ℕ → UInt64)

def try_new_exclusive (now : ℕ) (entry : List LockInfo) (if_tokens : List String) :
    Except StatusCode (TryAcquire × List LockInfo) :=
  if entry = [] then .ok (.NeedsLockNull, entry)
  else if entry.all (fun l => if_tokens.contains l.token) then
    .ok (.Acquired (generate_lock_token default_hasher now), [])
  else .error .LOCKED

def try_new_shared (now : ℕ) (entry : List LockInfo) (if_tokens : List String) :
    Except StatusCode (TryAcquire × List LockInfo) :=
  match entry.find? (fun l => if_tokens.contains l.token) with
  | some existing => .ok (.Acquired existing.token, entry.filter (fun l => l.token ≠ existing.token))
  | none =>
    if entry = [] then .ok (.NeedsLockNull, entry)
    else .ok (.Acquired (generate_lock_token default_hasher now), entry)

/-- The decision about the target's entry, and the entry as it leaves it. -/
def decision (now : ℕ) (req : LockRequest) (entry : List LockInfo) :
    Except StatusCode (TryAcquire × List LockInfo) :=
  match check_existing_exclusive now entry req.if_tokens with
  | .error status => .error status
  | .ok (some token) =>
    let token := match req.lock_scope with
      | .Exclusive => token
      | .Shared => generate_lock_token default_hasher now
    .ok (.Acquired token, entry.filter (fun l => !l.is_exclusive))
  | .ok none =>
    match req.lock_scope with
    | .Exclusive => try_new_exclusive default_hasher now entry req.if_tokens
    | .Shared => try_new_shared default_hasher now entry req.if_tokens

/-- The first critical section: its reply, or none when the lock-null file is to
be created, and the store. -/
def first_section (now : ℕ) (req : LockRequest) (locks : LockStore) :
    Option LockReply × LockStore :=
  match find_and_refresh_ancestor_lock now locks req.target
      (fun l => req.if_tokens.contains l.token) with
  | some (refreshed, locks) => (some (.ok (.OK, refreshed)), locks)
  | none =>
    let locks : LockStore := or_default [] req.target locks
    match decision default_hasher now req (locks.at req.target) with
    | .error status => (some (.error status), locks)
    | .ok (.Acquired token, entry) =>
      let lock := req.lock token now
      (some (.ok (.OK, lock)), locks.insert req.target (entry ++ [lock]))
    | .ok (.NeedsLockNull, entry) => (none, locks.insert req.target entry)

/-- The second critical section, after the file has been created. -/
def second_section (now : ℕ) (req : LockRequest) (created : Bool) (locks : LockStore) :
    LockReply × LockStore :=
  let locks : LockStore := or_default [] req.target locks
  let entry := locks.at req.target
  if entry ≠ [] then (.error .LOCKED, locks)
  else
    let lock := req.lock (generate_lock_token default_hasher now) now
    (.ok (if created then .CREATED else .OK, lock), locks.insert req.target (entry ++ [lock]))

/-- A whole LOCK: the first section at `now` on `locks`, the file creation, and the
second section at `later` on the store `found` by then. -/
def handle_lock (now later : ℕ) (req : LockRequest) (create_new : CreateNew)
    (locks found : LockStore) : LockReply × LockStore :=
  match first_section default_hasher now req locks with
  | (some reply, locks) => (reply, locks)
  | (none, _) =>
    match ensure_lock_null_resource create_new with
    | .error status => (.error status, found)
    | .ok created => second_section default_hasher later req created found

/-! ## Inversion of the decision -/

/-- No active lock of the entry is exclusive. -/
def NoneExclusive (now : ℕ) (entry : List LockInfo) : Prop :=
  ∀ l ∈ active_slice now entry, l.is_exclusive = false

/-- Every way through the branches of the decision. -/
inductive Decision (now : ℕ) (req : LockRequest) (entry : List LockInfo) :
    Except StatusCode (TryAcquire × List LockInfo) → Prop
  | refused (l : LockInfo) (hl : l ∈ active_slice now entry) (hx : l.is_exclusive = true)
      (ht : l.token ∉ req.if_tokens) : Decision now req entry (.error .LOCKED)
  | refresh (l : LockInfo) (hl : l ∈ active_slice now entry) (hx : l.is_exclusive = true)
      (ht : l.token ∈ req.if_tokens) (hs : req.lock_scope = .Exclusive) :
      Decision now req entry (.ok (.Acquired l.token, entry.filter (fun l => !l.is_exclusive)))
  | downgrade (l : LockInfo) (hl : l ∈ active_slice now entry) (hx : l.is_exclusive = true)
      (ht : l.token ∈ req.if_tokens) (hs : req.lock_scope = .Shared) :
      Decision now req entry (.ok (.Acquired (generate_lock_token default_hasher now),
        entry.filter (fun l => !l.is_exclusive)))
  | vacant (he : entry = []) : Decision now req entry (.ok (.NeedsLockNull, entry))
  | upgrade (hn : NoneExclusive now entry) (hs : req.lock_scope = .Exclusive) (he : entry ≠ [])
      (hown : ∀ l ∈ entry, l.token ∈ req.if_tokens) :
      Decision now req entry (.ok (.Acquired (generate_lock_token default_hasher now), []))
  | blocked (hn : NoneExclusive now entry) (hs : req.lock_scope = .Exclusive) (l : LockInfo)
      (hl : l ∈ entry) (ht : l.token ∉ req.if_tokens) : Decision now req entry (.error .LOCKED)
  | reshare (hn : NoneExclusive now entry) (hs : req.lock_scope = .Shared) (l : LockInfo)
      (hl : entry.find? (fun l => req.if_tokens.contains l.token) = some l) :
      Decision now req entry (.ok (.Acquired l.token, entry.filter (fun x => x.token ≠ l.token)))
  | join (hn : NoneExclusive now entry) (hs : req.lock_scope = .Shared) (he : entry ≠ [])
      (hown : ∀ l ∈ entry, l.token ∉ req.if_tokens) :
      Decision now req entry (.ok (.Acquired (generate_lock_token default_hasher now), entry))

theorem decision_cases (now : ℕ) (req : LockRequest) (entry : List LockInfo) :
    Decision default_hasher now req entry (decision default_hasher now req entry) := by
  unfold decision
  rcases check_existing_exclusive_cases now entry req.if_tokens with
    ⟨hcheck, hn⟩ | ⟨l, hl, hx, ⟨hcheck, ht⟩ | ⟨hcheck, ht⟩⟩
  · -- nothing exclusive is active: the two ways to acquire
    rw [hcheck]
    dsimp only
    cases hs : req.lock_scope with
    | Exclusive =>
      dsimp only
      unfold try_new_exclusive
      by_cases he : entry = []
      · rw [if_pos he]
        exact Decision.vacant he
      · rw [if_neg he]
        by_cases hown : ∀ l ∈ entry, l.token ∈ req.if_tokens
        · rw [if_pos (by simpa using hown)]
          exact Decision.upgrade hn hs he hown
        · rw [if_neg (by simpa using hown)]
          obtain ⟨l, hl, ht⟩ : ∃ l ∈ entry, l.token ∉ req.if_tokens := by simpa using hown
          exact Decision.blocked hn hs l hl ht
    | Shared =>
      dsimp only
      unfold try_new_shared
      cases hfind : entry.find? (fun l => req.if_tokens.contains l.token) with
      | some l => exact Decision.reshare hn hs l hfind
      | none =>
        dsimp only
        by_cases he : entry = []
        · rw [if_pos he]
          exact Decision.vacant he
        · rw [if_neg he]
          refine Decision.join hn hs he (fun l hl => ?_)
          simpa using List.find?_eq_none.mp hfind l hl
  · rw [hcheck]
    cases hs : req.lock_scope with
    | Exclusive => exact Decision.refresh l hl hx ht hs
    | Shared => exact Decision.downgrade l hl hx ht hs
  · rw [hcheck]
    exact Decision.refused l hl hx ht

/-- Without any lock at the target the decision is the same for both scopes. -/
theorem decision_nil (now : ℕ) (req : LockRequest) :
    decision default_hasher now req [] = .ok (.NeedsLockNull, []) := by
  have hcheck : check_existing_exclusive now [] req.if_tokens = .ok none := rfl
  unfold decision
  rw [hcheck]
  cases req.lock_scope with
  | Exclusive => rfl
  | Shared => rfl

/-- An acquisition only drops locks. -/
theorem decision_subset {now : ℕ} {req : LockRequest} {entry entry' : List LockInfo}
    {token : String}
    (h : decision default_hasher now req entry = .ok (.Acquired token, entry')) :
    ∀ x ∈ entry', x ∈ entry := by
  have hcases := decision_cases default_hasher now req entry
  rw [h] at hcases
  intro x hx
  cases hcases with
  | refresh _ _ _ _ _ => exact (List.mem_filter.mp hx).1
  | downgrade _ _ _ _ _ => exact (List.mem_filter.mp hx).1
  | upgrade _ _ _ _ => simp at hx
  | reshare _ _ _ _ => exact (List.mem_filter.mp hx).1
  | join _ _ _ _ => exact hx

/-- The four outcomes of the first section. -/
theorem first_section_cases (now : ℕ) (req : LockRequest) (locks : LockStore) :
    (∃ lock locks', find_and_refresh_ancestor_lock now locks req.target
        (fun l => req.if_tokens.contains l.token) = some (lock, locks') ∧
      first_section default_hasher now req locks = (some (.ok (.OK, lock)), locks')) ∨
    (find_and_refresh_ancestor_lock now locks req.target
        (fun l => req.if_tokens.contains l.token) = none ∧
      ((∃ status, decision default_hasher now req (locks.at req.target) = .error status ∧
          first_section default_hasher now req locks =
            (some (.error status), or_default [] req.target locks)) ∨
        (∃ token entry,
          decision default_hasher now req (locks.at req.target) = .ok (.Acquired token, entry) ∧
          first_section default_hasher now req locks =
            (some (.ok (.OK, req.lock token now)),
              (or_default [] req.target locks).insert req.target
                (entry ++ [req.lock token now]))) ∨
        (locks.at req.target = [] ∧
          first_section default_hasher now req locks =
            (none, (or_default [] req.target locks).insert req.target [])))) := by
  have hat : LockStore.at (or_default [] req.target locks) req.target = locks.at req.target :=
    at_or_default _ _ _
  unfold first_section
  cases hfind : find_and_refresh_ancestor_lock now locks req.target
      (fun l => req.if_tokens.contains l.token) with
  | some r => exact Or.inl ⟨r.1, r.2, rfl, rfl⟩
  | none =>
    right
    refine ⟨rfl, ?_⟩
    dsimp only
    rw [hat]
    -- only a vacant entry asks for the file first
    have hcases := decision_cases default_hasher now req (locks.at req.target)
    cases hdec : decision default_hasher now req (locks.at req.target) with
    | error status => exact Or.inl ⟨status, rfl, rfl⟩
    | ok r =>
      obtain ⟨acquired, entry⟩ := r
      cases acquired with
      | Acquired token => exact Or.inr (Or.inl ⟨token, entry, rfl, rfl⟩)
      | NeedsLockNull =>
        right
        right
        rw [hdec] at hcases
        cases hcases with
        | vacant he => exact ⟨he, by rw [he]⟩

/-- A lock of an ancestor that the client may refresh. -/
def OwnsAncestor (now : ℕ) (req : LockRequest) (locks : LockStore) : Prop :=
  ∃ p, p <+: req.target ∧ p ≠ req.target ∧ ∃ l ∈ active_slice now (locks.at p),
    l.depth = .Infinity ∧ l.token ∈ req.if_tokens

theorem owns_ancestor_iff {now : ℕ} {req : LockRequest} {locks : LockStore} :
    OwnsAncestor now req locks ↔
    find_and_refresh_ancestor_lock now locks req.target
      (fun l => req.if_tokens.contains l.token) ≠ none := by
  rw [Ne, find_and_refresh_none]
  constructor
  · rintro ⟨p, hpre, hne, l, hl, hd, ht⟩ hnone
    cases hlook : locks.lookup p with
    | none => simp [LockStore.at, get_or, hlook, active_slice] at hl
    | some infos =>
      rw [at_of_lookup hlook] at hl
      obtain ⟨hmem, hexp⟩ := Lease.mem_live.mp hl
      have := hnone p infos hpre hne hlook l hmem hd hexp
      simp [ht] at this
  · intro h
    by_contra hno
    refine h (fun p infos hpre hne hlook l hmem hd hexp => ?_)
    by_contra ht
    refine hno ⟨p, hpre, hne, l, ?_, hd, by simpa using ht⟩
    rw [at_of_lookup hlook]
    exact Lease.mem_live.mpr ⟨hmem, hexp⟩

/-- The two outcomes of the second section. -/
theorem second_section_cases (now : ℕ) (req : LockRequest) (created : Bool) (locks : LockStore) :
    (locks.at req.target ≠ [] ∧
      second_section default_hasher now req created locks =
        (.error .LOCKED, or_default [] req.target locks)) ∨
    (locks.at req.target = [] ∧
      second_section default_hasher now req created locks =
        (.ok (if created then .CREATED else .OK,
            req.lock (generate_lock_token default_hasher now) now),
          (or_default [] req.target locks).insert req.target
            [req.lock (generate_lock_token default_hasher now) now])) := by
  have hat : LockStore.at (or_default [] req.target locks) req.target = locks.at req.target :=
    at_or_default _ _ _
  unfold second_section
  dsimp only
  rw [hat]
  by_cases he : locks.at req.target = []
  · right
    rw [if_neg (not_not.mpr he), he]
    exact ⟨rfl, rfl⟩
  · left
    rw [if_pos he]
    exact ⟨he, rfl⟩

end Sections

/-! ## PROPFIND's lock discovery -/

/-- The `active_locks` of an entry of a PROPFIND answer. -/
def active_locks (now : ℕ) (locks : LockStore) (canonical_path : Option Path) :
    Option (List LockInfo) :=
  canonical_path.bind fun cp => (locks.lookup cp).bind fun infos =>
    let active := active_slice now infos
    if active.isEmpty then none else some active

/-- What `handle_propfind` reads of the lock store, for a resolved path, a parsed body and
the canonical paths of the collected entries. -/
def propfind_locks (now : ℕ) (resolved : Option Path) (body : Option Unit)
    (entries : List (Option Path)) (locks : LockStore) :
    Except StatusCode (StatusCode × List (Option (List LockInfo))) :=
  match resolved with
  | none => .error .NOT_FOUND
  | some _ =>
    match body with
    | none => .error .BAD_REQUEST
    | some () => .ok (.MULTI_STATUS, entries.map (active_locks now locks))

/-! ## UNLOCK and the cleanup pass -/

/-- The critical section of UNLOCK on a resolved path. -/
def unlock_section (fs_path : Path) (token : String) (locks : LockStore) :
    Except StatusCode StatusCode × LockStore :=
  match locks.lookup fs_path with
  | some entry =>
    let kept := entry.filter (fun l => l.token ≠ token)
    (if kept.length < entry.length then .ok .NO_CONTENT else .error .FORBIDDEN,
      locks.insert fs_path kept)
  | none => (.error .FORBIDDEN, locks)

/-- `handle_unlock`: the header, the resolved path, the critical section. -/
def handle_unlock (headers : HeaderMap) (resolved : Option Path) (locks : LockStore) :
    Except StatusCode StatusCode × LockStore :=
  match parse_lock_token_header headers with
  | none => (.error .BAD_REQUEST, locks)
  | some token =>
    match resolved with
    | none => (.error .NOT_FOUND, locks)
    | some fs_path => unlock_section fs_path token locks

/-- One pass of `cleanup_task` over the lock store. -/
def cleanup (now : ℕ) (locks : LockStore) : LockStore :=
  retain (fun _ infos =>
    let infos := active_slice now infos
    if infos = [] then none else some infos) locks

theorem at_cleanup (now : ℕ) (locks : LockStore) (p : Path) :
    (cleanup now locks).at p = active_slice now (locks.at p) := by
  unfold cleanup LockStore.at get_or
  rw [lookup_retain]
  cases hl : locks.lookup p with
  | none => rfl
  | some infos =>
    rw [Option.bind_some]
    dsimp only
    split
    · rename_i hnil
      rw [Option.getD_some, hnil]
      rfl
    · rfl

theorem lookup_cleanup (now : ℕ) (locks : LockStore) (p : Path) :
    (cleanup now locks).lookup p = (locks.lookup p).bind (fun infos =>
      if active_slice now infos = [] then none else some (active_slice now infos)) :=
  lookup_retain _ _ _

/-- An UNLOCK succeeds exactly when some lock of the path has the token. -/
theorem unlock_section_status (fs_path : Path) (token : String) (locks : LockStore) :
    (unlock_section fs_path token locks).1 =
      if ∃ l ∈ locks.at fs_path, l.token = token then .ok .NO_CONTENT else .error .FORBIDDEN := by
  unfold unlock_section LockStore.at
  cases hl : locks.lookup fs_path with
  | none => simp [get_or, hl]
  | some entry =>
    have hlt : (entry.filter (fun l => l.token ≠ token)).length < entry.length ↔
        ∃ l ∈ entry, l.token = token := by
      rw [List.length_filter_lt_length_iff_exists]
      simp
    simp only [get_or, hl, Option.getD_some, hlt]

theorem at_unlock_section (fs_path : Path) (token : String) (locks : LockStore) (p : Path) :
    (unlock_section fs_path token locks).2.at p =
      if p = fs_path then (locks.at p).filter (fun l => l.token ≠ token) else locks.at p := by
  unfold unlock_section LockStore.at
  by_cases hp : p = fs_path
  · subst hp
    rw [if_pos rfl]
    cases hl : locks.lookup p with
    | none => simp [get_or, hl]
    | some entry => simp [get_or, hl]
  · rw [if_neg hp]
    cases hl : locks.lookup fs_path with
    | none => rfl
    | some entry => exact get_or_insert_ne _ hp _ _

end Rshs.Locks
