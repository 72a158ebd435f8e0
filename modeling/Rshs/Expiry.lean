/-
Whether an expired lock can be noticed.

Expired locks stay in the store until the cleanup pass. A request should not be
able to tell: with the pass run just before it, its status and the unexpired locks
it leaves should be the same. PROPFIND and the lock check of a write look through
`active_slice` only, and never notice. UNLOCK searches the raw list, and LOCK asks
whether the raw list is empty and who owns all of it; `expired_invisible_iff` is
the exact condition on the stored locks under which they do not notice either.

The request reads the clock at `now`, in both runs, and no other request comes in
between. A token made from the clock stands for any token no unexpired lock has.
-/
import Rshs.LockMw

set_option autoImplicit false

namespace Rshs.Expiry

open StdPath FinMap Rshs.Webdav Rshs.IfHeader Rshs.Ls Rshs.Locks Rshs.LockMw

/-! ## Stores with the same unexpired locks -/

def Agree (now : ℕ) (locks locks' : LockStore) : Prop :=
  ∀ p, active_slice now (locks.at p) = active_slice now (locks'.at p)

theorem active_active (now : ℕ) (infos : List LockInfo) :
    active_slice now (active_slice now infos) = active_slice now infos :=
  Lease.live_live

theorem cleanup_agree (now : ℕ) (locks : LockStore) : Agree now locks (cleanup now locks) := by
  intro p
  rw [at_cleanup, active_active]

/-- Every key lies under the root: LOCK stores under guarded paths only. -/
def Rooted (root : PathBuf) (locks : LockStore) : Prop :=
  ∀ p infos, locks.lookup p = some infos → p.starts_with root = true

theorem cleanup_rooted {root : PathBuf} {now : ℕ} {locks : LockStore} (h : Rooted root locks) :
    Rooted root (cleanup now locks) := by
  intro p infos hl
  rw [lookup_cleanup] at hl
  obtain ⟨infos', hl', -⟩ := Option.bind_eq_some_iff.mp hl
  exact h p infos' hl'

/-! ## The lock check -/

section Check

variable {now : ℕ} {root : PathBuf} {locks locks' : LockStore}

/-- In a rooted store the walk consults every ancestor that matters, whichever way
it walks. -/
theorem evaluated_of_rooted (h : Rooted root locks) (target p : Path) :
    Evaluated now locks root target p ↔
      p = target ∨ (p <+: target ∧ p ≠ target ∧
        ∃ l ∈ active_slice now (locks.at p), l.depth = .Infinity) := by
  refine or_congr Iff.rfl ?_
  constructor
  · rintro ⟨⟨hpre, hne, -⟩, hex⟩
    exact ⟨hpre, hne, hex⟩
  · rintro ⟨hpre, hne, l, hl, hd⟩
    refine ⟨⟨hpre, hne, Or.inr ?_⟩, l, hl, hd⟩
    cases hlook : locks.lookup p with
    | none => simp [LockStore.at, get_or, hlook, active_slice] at hl
    | some infos => exact h p infos hlook

theorem is_path_locked_agree (h : Rooted root locks) (h' : Rooted root locks')
    (hag : Agree now locks locks') (path : Path) (lists : List IfList)
    (request_path : List Char) :
    is_path_locked now locks path lists root request_path =
      is_path_locked now locks' path lists root request_path := by
  rw [Bool.eq_iff_iff, is_path_locked_iff, is_path_locked_iff]
  refine exists_congr fun p => and_congr ?_ ?_
  · rw [evaluated_of_rooted h, evaluated_of_rooted h', hag p]
  · rw [eval_if_congr (hag p)]

theorem lock_enforce_agree (h : Rooted root locks) (h' : Rooted root locks')
    (hag : Agree now locks locks') {γ : Type} (resolve : List Char → γ → Option Path × γ)
    (method : Method) (uri_path : List Char) (headers : HeaderMap) (cache : γ) :
    lock_enforce resolve now locks root method uri_path headers cache =
      lock_enforce resolve now locks' root method uri_path headers cache := by
  have hcheck : ∀ lists request_path cache,
      check_path resolve now locks root lists request_path cache =
        check_path resolve now locks' root lists request_path cache := by
    intro lists request_path cache
    unfold check_path
    split
    · rw [is_path_locked_agree h h' hag]
    · rfl
  unfold lock_enforce
  simp only [hcheck]

end Check

/-! ## The refresh of an ancestor -/

section Refresh

variable {now : ℕ} {predicate : LockInfo → Bool}

theorem refresh_slice_active (infos : List LockInfo) :
    refresh_slice now predicate (active_slice now infos) =
      (refresh_slice now predicate infos).map (fun r => (r.1, active_slice now r.2)) := by
  induction infos with
  | nil => rfl
  | cons l infos ih =>
    by_cases hexp : l.is_expired now = true
    · -- an expired lock is not refreshable
      have hskip : active_slice now (l :: infos) = active_slice now infos := by
        simp [active_slice, Lease.live, expired, hexp]
      have hno : refreshable now predicate l = false := by simp [refreshable, hexp]
      rw [hskip, ih, refresh_slice, hno, if_neg Bool.false_ne_true, Option.map_map]
      congr 1
      funext r
      simp [active_slice, Lease.live, expired, hexp]
    · have hlive : expired now l = false := by simpa [expired] using hexp
      have hkeep : active_slice now (l :: infos) = l :: active_slice now infos := by
        simp [active_slice, Lease.live, hlive]
      rw [hkeep, refresh_slice, refresh_slice]
      split
      · have hnew : expired now { l with created := now } = false := is_expired_refresh l now hlive
        simp [active_slice, Lease.live, hnew]
      · rw [ih, Option.map_map, Option.map_map]
        congr 1
        funext r
        simp [active_slice, Lease.live, hlive]

theorem candidate_paths_cleanup (locks : LockStore) (target : Path) :
    candidate_paths now (cleanup now locks) target = candidate_paths now locks target := by
  unfold candidate_paths cleanup FinMap.retain
  dsimp only
  induction locks.entries with
  | nil => rfl
  | cons e es ih =>
    have hany : ((active_slice now e.2).any fun l => l.depth = .Infinity && !l.is_expired now)
        = e.2.any fun l => l.depth = .Infinity && !l.is_expired now := by
      rw [Bool.eq_iff_iff, List.any_eq_true, List.any_eq_true]
      constructor
      · rintro ⟨l, hl, ht⟩
        exact ⟨l, (Lease.mem_live.mp hl).1, ht⟩
      · rintro ⟨l, hl, ht⟩
        refine ⟨l, Lease.mem_live.mpr ⟨hl, ?_⟩, ht⟩
        rw [Bool.and_eq_true, Bool.not_eq_true'] at ht
        exact ht.2
    by_cases hnil : active_slice now e.2 = []
    · -- the entry goes, and it was no candidate
      have hno : (e.2.any fun l => l.depth = .Infinity && !l.is_expired now) = false := by
        rw [← hany, hnil]
        rfl
      rw [List.filterMap_cons_none (by simp [FinMap.retain_entry, hnil]), ih]
      simp [hno]
    · rw [List.filterMap_cons_some (b := ⟨e.1, active_slice now e.2⟩)
        (by simp [FinMap.retain_entry, hnil])]
      rw [List.filter_cons, List.filter_cons, hany]
      split
      · rw [List.map_cons, List.map_cons, ih]
      · exact ih

theorem lookup_refresh_cleanup (locks : LockStore) (p : Path) :
    ((cleanup now locks).lookup p).bind (refresh_slice now predicate) =
      ((locks.lookup p).bind (refresh_slice now predicate)).map
        (fun r => (r.1, active_slice now r.2)) := by
  rw [lookup_cleanup]
  cases locks.lookup p with
  | none => rfl
  | some infos =>
    rw [Option.bind_some, Option.bind_some, ← refresh_slice_active]
    split
    · rename_i hnil
      rw [hnil]
      rfl
    · rfl

theorem agree_insert {locks locks' : LockStore} (h : Agree now locks locks') (p : Path)
    {infos infos' : List LockInfo} (hi : active_slice now infos = active_slice now infos') :
    Agree now (locks.insert p infos) (locks'.insert p infos') := by
  intro q
  rw [at_insert, at_insert]
  split
  · exact hi
  · exact h q

/-- The cleaned store refreshes the same lock of the same ancestor. -/
theorem refresh_candidates_cleanup (locks : LockStore) (paths : List Path) :
    (refresh_candidates now predicate locks paths = none ∧
      refresh_candidates now predicate (cleanup now locks) paths = none) ∨
    ∃ lock l₁ l₂, refresh_candidates now predicate locks paths = some (lock, l₁) ∧
      refresh_candidates now predicate (cleanup now locks) paths = some (lock, l₂) ∧
      Agree now l₁ l₂ := by
  induction paths with
  | nil => exact Or.inl ⟨rfl, rfl⟩
  | cons p paths ih =>
    rw [refresh_candidates, refresh_candidates, lookup_refresh_cleanup]
    cases hr : (locks.lookup p).bind (refresh_slice now predicate) with
    | none => exact ih
    | some r =>
      right
      refine ⟨r.1, locks.insert p r.2, (cleanup now locks).insert p (active_slice now r.2),
        rfl, rfl, ?_⟩
      exact agree_insert (cleanup_agree now locks) p (active_active now r.2).symm

theorem find_and_refresh_cleanup (now : ℕ) (predicate : LockInfo → Bool) (locks : LockStore)
    (target : Path) :
    (find_and_refresh_ancestor_lock now locks target predicate = none ∧
      find_and_refresh_ancestor_lock now (cleanup now locks) target predicate = none) ∨
    ∃ lock l₁ l₂, find_and_refresh_ancestor_lock now locks target predicate = some (lock, l₁) ∧
      find_and_refresh_ancestor_lock now (cleanup now locks) target predicate = some (lock, l₂) ∧
      Agree now l₁ l₂ := by
  unfold find_and_refresh_ancestor_lock
  rw [candidate_paths_cleanup]
  exact refresh_candidates_cleanup locks _

end Refresh

/-! ## A LOCK that nothing interrupts -/

/-- The status of a reply. -/
def status_of {α : Type} : Except StatusCode (StatusCode × α) → StatusCode
  | .ok (status, _) => status
  | .error status => status

section Alone

variable (default_hasher : ℕ → UInt64) (now : ℕ) (req : LockRequest) (create_new : CreateNew)

/-- A LOCK whose second section finds what its first one left. -/
def lock_alone (locks : LockStore) : LockReply × LockStore :=
  handle_lock default_hasher now now req create_new locks
    (first_section default_hasher now req locks).2

/-- The lock the request grants itself under a new token. -/
def new_lock : LockInfo := req.lock (generate_lock_token default_hasher now) now

/-- The file creation and the second section. -/
def vacant : StatusCode × List LockInfo :=
  match create_new with
  | .Created => (.CREATED, [new_lock default_hasher now req])
  | .AlreadyExists => (.OK, [new_lock default_hasher now req])
  | .Failed => (.INTERNAL_SERVER_ERROR, [])

/-- What an undisturbed LOCK that refreshes no ancestor does to the target's entry. -/
def outcome (entry : List LockInfo) : StatusCode × List LockInfo :=
  match decision default_hasher now req entry with
  | .error status => (status, entry)
  | .ok (.Acquired token, entry') => (.OK, entry' ++ [req.lock token now])
  | .ok (.NeedsLockNull, _) => vacant default_hasher now req create_new

variable {default_hasher now req create_new}

/-- Without a refresh, a LOCK alone is its outcome at the target. -/
theorem lock_alone_eq (default_hasher : ℕ → UInt64) (create_new : CreateNew) {locks : LockStore}
    (h : find_and_refresh_ancestor_lock now locks req.target
      (fun l => req.if_tokens.contains l.token) = none) :
    status_of (lock_alone default_hasher now req create_new locks).1 =
        (outcome default_hasher now req create_new (locks.at req.target)).1 ∧
      ∀ p, (lock_alone default_hasher now req create_new locks).2.at p =
        if p = req.target then
          (outcome default_hasher now req create_new (locks.at req.target)).2
        else locks.at p := by
  -- a section that replaces the entry of the target leaves the other paths alone
  have hreplace : ∀ (store : LockStore) (entry : List LockInfo) (p : Path),
      (∀ q, q ≠ req.target → store.at q = locks.at q) →
      LockStore.at (store.insert req.target entry) p =
        if p = req.target then entry else locks.at p := by
    intro store entry p hstore
    rw [at_insert]
    split
    · rfl
    · rename_i hp
      exact hstore p hp
  have hdefault : ∀ q, LockStore.at (or_default [] req.target locks) q = locks.at q :=
    fun q => at_or_default _ _ _
  unfold lock_alone handle_lock outcome
  rcases first_section_cases default_hasher now req locks with
    ⟨lock, locks', hfind, -⟩ | ⟨-, ⟨status, hd, heq⟩ | ⟨token, entry, hd, heq⟩ | ⟨he, heq⟩⟩
  · rw [h] at hfind
    cases hfind
  · rw [heq, hd]
    refine ⟨rfl, fun p => ?_⟩
    dsimp only
    rw [hdefault]
    split
    · rename_i hp
      rw [hp]
    · rfl
  · rw [heq, hd]
    exact ⟨rfl, fun p => hreplace _ _ p (fun q _ => hdefault q)⟩
  · have hd := decision_nil default_hasher now req
    rw [← he] at hd
    rw [heq, hd]
    dsimp only
    have hfound : ∀ q, q ≠ req.target →
        LockStore.at ((or_default [] req.target locks : LockStore).insert req.target []) q
          = locks.at q := by
      intro q hq
      rw [at_insert, if_neg hq, hdefault]
    have hat : LockStore.at ((or_default [] req.target locks : LockStore).insert req.target [])
        req.target = [] := by
      rw [at_insert, if_pos rfl]
    cases create_new with
    | Failed =>
      refine ⟨rfl, fun p => ?_⟩
      exact hreplace _ _ p (fun q _ => hdefault q)
    | Created =>
      rcases second_section_cases default_hasher now req true
        ((or_default [] req.target locks : LockStore).insert req.target []) with
        ⟨hne, -⟩ | ⟨-, heq₂⟩
      · exact absurd hat hne
      · simp only [ensure_lock_null_resource, heq₂]
        refine ⟨rfl, fun p => ?_⟩
        exact hreplace _ _ p (fun q hq => by rw [at_or_default]; exact hfound q hq)
    | AlreadyExists =>
      rcases second_section_cases default_hasher now req false
        ((or_default [] req.target locks : LockStore).insert req.target []) with
        ⟨hne, -⟩ | ⟨-, heq₂⟩
      · exact absurd hat hne
      · simp only [ensure_lock_null_resource, heq₂]
        refine ⟨rfl, fun p => ?_⟩
        exact hreplace _ _ p (fun q hq => by rw [at_or_default]; exact hfound q hq)

end Alone

/-! ## Comparing the two runs -/

section Compare

variable {default_hasher : ℕ → UInt64} {now : ℕ} {req : LockRequest} {create_new : CreateNew}

/-- Two locks that differ at most in that `b` carries the token made from the clock
and `a` a token that no unexpired lock had. -/
def SameLock (generated : String) (held : List LockInfo) (a b : LockInfo) : Prop :=
  a = b ∨ (b.token = generated ∧ (∀ l ∈ held, l.token ≠ a.token) ∧ a = { b with token := a.token })

/-- The same locks, up to `SameLock`. -/
def SameLocks (generated : String) (held infos infos' : List LockInfo) : Prop :=
  (∀ a ∈ infos, ∃ b ∈ infos', SameLock generated held a b) ∧
    (∀ b ∈ infos', ∃ a ∈ infos, SameLock generated held a b)

theorem SameLocks.refl (generated : String) (held infos : List LockInfo) :
    SameLocks generated held infos infos :=
  ⟨fun a ha => ⟨a, ha, Or.inl rfl⟩, fun b hb => ⟨b, hb, Or.inl rfl⟩⟩

/-- When an undisturbed LOCK that refreshes no ancestor cannot tell expired locks
from missing ones: `entry` is what is stored at its target. -/
inductive Unnoticed (now : ℕ) (req : LockRequest) (create_new : CreateNew)
    (entry : List LockInfo) : Prop
  | exclusive (l : LockInfo) (hl : l ∈ active_slice now entry) (hx : l.is_exclusive = true)
  | empty (he : entry = [])
  | all_expired (ha : active_slice now entry = []) (hc : create_new = .AlreadyExists)
      (hs : req.lock_scope = .Shared ∨ ∀ l ∈ entry, l.token ∈ req.if_tokens)
  | ownership (hn : NoneExclusive now entry) (ha : active_slice now entry ≠ [])
      (hs : req.lock_scope = .Exclusive)
      (h : (∀ l ∈ active_slice now entry, l.token ∈ req.if_tokens) →
        ∀ l ∈ entry, l.token ∈ req.if_tokens)
  | unowned (hn : NoneExclusive now entry) (ha : active_slice now entry ≠ [])
      (hs : req.lock_scope = .Shared)
      (h : ∀ l ∈ active_slice now entry, l.token ∉ req.if_tokens)
  | same_token (hn : NoneExclusive now entry) (hs : req.lock_scope = .Shared) (e x : LockInfo)
      (he : entry.find? (fun l => req.if_tokens.contains l.token) = some e)
      (hx : (active_slice now entry).find? (fun l => req.if_tokens.contains l.token) = some x)
      (h : e.token = x.token)
  | issued (hn : NoneExclusive now entry) (hs : req.lock_scope = .Shared) (e x : LockInfo)
      (he : entry.find? (fun l => req.if_tokens.contains l.token) = some e)
      (hx : (active_slice now entry).find? (fun l => req.if_tokens.contains l.token) = some x)
      (h : req.lock e.token now ∈ active_slice now entry ∧
        ∀ y ∈ active_slice now entry, y.token = e.token ∨ y.token = x.token →
          y = req.lock y.token now)

/-- The two outcomes agree in status and in what is unexpired afterwards. -/
def OutcomesAgree (default_hasher : ℕ → UInt64) (now : ℕ) (req : LockRequest)
    (create_new : CreateNew) (entry : List LockInfo) : Prop :=
  (outcome default_hasher now req create_new entry).1 =
      (outcome default_hasher now req create_new (active_slice now entry)).1 ∧
    SameLocks (generate_lock_token default_hasher now) (active_slice now entry)
      (active_slice now (outcome default_hasher now req create_new entry).2)
      (active_slice now (outcome default_hasher now req create_new (active_slice now entry)).2)

variable {entry : List LockInfo}

theorem check_active (if_tokens : List String) :
    check_existing_exclusive now (active_slice now entry) if_tokens =
      check_existing_exclusive now entry if_tokens := by
  unfold check_existing_exclusive
  rw [active_active]

theorem active_filter (p : LockInfo → Bool) :
    active_slice now (entry.filter p) = (active_slice now entry).filter p :=
  Lease.live_filter p

theorem active_append (l : LockInfo) :
    active_slice now (entry ++ [l]) = active_slice now entry ++ active_slice now [l] :=
  Lease.live_append

/-- Entries with the same active locks that get the same lock. -/
theorem same_locks_append {entry' : List LockInfo} {generated : String} {held : List LockInfo}
    (h : active_slice now entry = active_slice now entry') (l : LockInfo) :
    SameLocks generated held (active_slice now (entry ++ [l])) (active_slice now (entry' ++ [l])) := by
  rw [active_append, active_append, h]
  exact SameLocks.refl _ _ _

/-- **An active exclusive lock decides alone.** -/
theorem outcomes_agree_exclusive {l : LockInfo} (hl : l ∈ active_slice now entry)
    (hx : l.is_exclusive = true) : OutcomesAgree default_hasher now req create_new entry := by
  unfold OutcomesAgree outcome decision
  rw [check_active]
  rcases check_existing_exclusive_cases now entry req.if_tokens with
    ⟨-, hn⟩ | ⟨x, -, -, ⟨hcheck, -⟩ | ⟨hcheck, -⟩⟩
  · rw [hn l hl] at hx
    cases hx
  · rw [hcheck]
    refine ⟨rfl, same_locks_append ?_ _⟩
    rw [active_filter, active_filter, active_active]
  · rw [hcheck]
    refine ⟨rfl, ?_⟩
    dsimp only
    rw [active_active]
    exact SameLocks.refl _ _ _

theorem vacant_status_ok :
    (vacant default_hasher now req create_new).1 = .OK ↔ create_new = .AlreadyExists := by
  cases create_new <;> simp [vacant]

theorem vacant_status_ne_locked : (vacant default_hasher now req create_new).1 ≠ .LOCKED := by
  cases create_new <;> simp [vacant]

theorem vacant_already_exists :
    vacant default_hasher now req .AlreadyExists = (.OK, [new_lock default_hasher now req]) := rfl

theorem check_none (hn : NoneExclusive now entry) :
    check_existing_exclusive now entry req.if_tokens = .ok none := by
  rcases check_existing_exclusive_cases now entry req.if_tokens with ⟨hcheck, -⟩ | ⟨l, hl, hx, -⟩
  · exact hcheck
  · rw [hn l hl] at hx
    cases hx

/-- The outcome of an exclusive LOCK where nothing exclusive is active. -/
theorem outcome_exclusive (hn : NoneExclusive now entry) (hs : req.lock_scope = .Exclusive) :
    outcome default_hasher now req create_new entry =
      if entry = [] then vacant default_hasher now req create_new
      else if ∀ l ∈ entry, l.token ∈ req.if_tokens then (.OK, [new_lock default_hasher now req])
      else (.LOCKED, entry) := by
  unfold outcome decision
  rw [check_none hn, hs]
  dsimp only
  unfold try_new_exclusive
  by_cases he : entry = []
  · rw [if_pos he, if_pos he]
  · rw [if_neg he, if_neg he]
    by_cases hown : ∀ l ∈ entry, l.token ∈ req.if_tokens
    · rw [if_pos (by simpa using hown), if_pos hown]
      rfl
    · rw [if_neg (by simpa using hown), if_neg hown]

/-- The outcome of a shared LOCK where nothing exclusive is active. -/
theorem outcome_shared (hn : NoneExclusive now entry) (hs : req.lock_scope = .Shared) :
    outcome default_hasher now req create_new entry =
      match entry.find? (fun l => req.if_tokens.contains l.token) with
      | some e => (.OK, entry.filter (fun l => l.token ≠ e.token) ++ [req.lock e.token now])
      | none =>
        if entry = [] then vacant default_hasher now req create_new
        else (.OK, entry ++ [new_lock default_hasher now req]) := by
  unfold outcome decision
  rw [check_none hn, hs]
  dsimp only
  unfold try_new_shared
  cases hfind : entry.find? (fun l => req.if_tokens.contains l.token) with
  | some e => rfl
  | none =>
    dsimp only
    by_cases he : entry = []
    · rw [if_pos he, if_pos he]
    · rw [if_neg he, if_neg he]
      rfl

theorem none_exclusive_active (hn : NoneExclusive now entry) :
    NoneExclusive now (active_slice now entry) := by
  intro l hl
  rw [active_active] at hl
  exact hn l hl

/-- **The exclusive LOCK.** -/
theorem outcomes_agree_scope_exclusive (hn : NoneExclusive now entry)
    (hs : req.lock_scope = .Exclusive) :
    OutcomesAgree default_hasher now req create_new entry ↔
      entry = [] ∨
      (active_slice now entry = [] ∧ create_new = .AlreadyExists ∧
        ∀ l ∈ entry, l.token ∈ req.if_tokens) ∨
      (active_slice now entry ≠ [] ∧
        ((∀ l ∈ active_slice now entry, l.token ∈ req.if_tokens) →
          ∀ l ∈ entry, l.token ∈ req.if_tokens)) := by
  unfold OutcomesAgree
  rw [outcome_exclusive hn hs, outcome_exclusive (none_exclusive_active hn) hs]
  by_cases he : entry = []
  · subst he
    have hnil : active_slice now ([] : List LockInfo) = [] := rfl
    rw [hnil]
    exact ⟨fun _ => Or.inl rfl, fun _ => ⟨rfl, SameLocks.refl _ _ _⟩⟩
  rw [if_neg he]
  by_cases hown : ∀ l ∈ entry, l.token ∈ req.if_tokens
  · -- all of the raw list is owned: it is taken over
    have hown' : ∀ l ∈ active_slice now entry, l.token ∈ req.if_tokens :=
      fun l hl => hown l (Lease.mem_live.mp hl).1
    rw [if_pos hown, if_pos hown']
    by_cases ha : active_slice now entry = []
    · rw [if_pos ha]
      constructor
      · rintro ⟨hstatus, -⟩
        exact Or.inr (Or.inl ⟨ha, vacant_status_ok.mp hstatus.symm, hown⟩)
      · rintro (h | ⟨-, hc, -⟩ | ⟨hne, -⟩)
        · exact absurd h he
        · rw [hc, vacant_already_exists]
          exact ⟨rfl, SameLocks.refl _ _ _⟩
        · exact absurd ha hne
    · rw [if_neg ha]
      exact ⟨fun _ => Or.inr (Or.inr ⟨ha, fun _ => hown⟩), fun _ => ⟨rfl, SameLocks.refl _ _ _⟩⟩
  · rw [if_neg hown]
    by_cases ha : active_slice now entry = []
    · -- a foreign expired lock refuses what an empty entry would grant
      rw [if_pos ha]
      constructor
      · rintro ⟨hstatus, -⟩
        exact absurd hstatus.symm vacant_status_ne_locked
      · rintro (h | ⟨-, -, h⟩ | ⟨hne, -⟩)
        · exact absurd h he
        · exact absurd h hown
        · exact absurd ha hne
    -- some active lock remains: what decides is whether all of those are owned
    · rw [if_neg ha]
      by_cases hown' : ∀ l ∈ active_slice now entry, l.token ∈ req.if_tokens
      · rw [if_pos hown']
        constructor
        · rintro ⟨hstatus, -⟩
          cases hstatus
        · rintro (h | ⟨h, -⟩ | ⟨-, h⟩)
          · exact absurd h he
          · exact absurd h ha
          · exact absurd (h hown') hown
      · rw [if_neg hown']
        refine ⟨fun _ => Or.inr (Or.inr ⟨ha, fun h => absurd h hown'⟩), fun _ => ⟨rfl, ?_⟩⟩
        dsimp only
        rw [active_active]
        exact SameLocks.refl _ _ _

/-- The written lock is unexpired or not, whatever its token. -/
theorem mem_active_lock (t t' : String) (a : LockInfo) :
    a ∈ active_slice now [req.lock t now] ↔
      a = req.lock t now ∧ expired now (req.lock t' now) = false := by
  rw [active_slice, Lease.mem_live, List.mem_singleton]
  constructor
  · rintro ⟨rfl, h⟩
    exact ⟨rfl, h⟩
  · rintro ⟨rfl, h⟩
    exact ⟨rfl, h⟩

/-- Writing the same lock in both runs keeps the same locks. -/
theorem same_locks_written {generated t t' : String} {held infos : List LockInfo}
    (h : SameLock generated held (req.lock t now) (req.lock t' now)) :
    SameLocks generated held (infos ++ active_slice now [req.lock t now])
      (infos ++ active_slice now [req.lock t' now]) := by
  constructor
  · intro a ha
    rcases List.mem_append.mp ha with ha | ha
    · exact ⟨a, List.mem_append_left _ ha, Or.inl rfl⟩
    · obtain ⟨rfl, hexp⟩ := (mem_active_lock t t _).mp ha
      exact ⟨req.lock t' now, List.mem_append_right _ ((mem_active_lock t' t _).mpr ⟨rfl, hexp⟩), h⟩
  · intro b hb
    rcases List.mem_append.mp hb with hb | hb
    · exact ⟨b, List.mem_append_left _ hb, Or.inl rfl⟩
    · obtain ⟨rfl, hexp⟩ := (mem_active_lock t' t' _).mp hb
      exact ⟨req.lock t now, List.mem_append_right _ ((mem_active_lock t t' _).mpr ⟨rfl, hexp⟩), h⟩

/-- What a run that refreshes the lock `e` leaves unexpired. -/
theorem mem_reshared {e a : LockInfo} :
    a ∈ (active_slice now entry).filter (fun l => l.token ≠ e.token) ++
        active_slice now [req.lock e.token now] ↔
      (a ∈ active_slice now entry ∧ a.token ≠ e.token) ∨
        (a = req.lock e.token now ∧ expired now (req.lock e.token now) = false) := by
  rw [List.mem_append, List.mem_filter, mem_active_lock e.token e.token]
  simp

section Reshared

variable {e x : LockInfo}

/-- A lock that was active before is matched by itself only. -/
theorem same_lock_held {generated : String} {held : List LockInfo} {a b : LockInfo} (ha : a ∈ held)
    (h : SameLock generated held a b) : a = b := by
  rcases h with heq | ⟨-, hnone, -⟩
  · exact heq
  · exact absurd rfl (hnone a ha)

/-- Two runs that refresh different locks and end in the same place have written locks
that were there. -/
theorem reshared_issued (hx : x ∈ active_slice now entry) (hne : e.token ≠ x.token)
    (hfresh : ∀ l ∈ active_slice now entry, l.token ≠ generate_lock_token default_hasher now)
    (h : SameLocks (generate_lock_token default_hasher now) (active_slice now entry)
        ((active_slice now entry).filter (fun l => l.token ≠ e.token) ++
          active_slice now [req.lock e.token now])
        ((active_slice now entry).filter (fun l => l.token ≠ x.token) ++
          active_slice now [req.lock x.token now])) :
    req.lock e.token now ∈ active_slice now entry ∧
      ∀ y ∈ active_slice now entry, y.token = e.token ∨ y.token = x.token →
        y = req.lock y.token now := by
  obtain ⟨hleft, hright⟩ := h
  -- what the first run keeps under the second run's token is the lock of the second run
  have hkept : ∀ y ∈ active_slice now entry, y.token = x.token →
      y = req.lock x.token now ∧ expired now (req.lock x.token now) = false := by
    intro y hy hyx
    obtain ⟨b, hb, hsame⟩ := hleft y (mem_reshared.mpr (Or.inl ⟨hy, by rw [hyx]; exact hne.symm⟩))
    rw [← same_lock_held hy hsame] at hb
    rcases mem_reshared.mp hb with ⟨-, hb⟩ | hb
    · exact absurd hyx hb
    · exact hb
  have hlive : expired now (req.lock e.token now) = false := (hkept x hx rfl).2
  -- the lock of the first run is found in the second one, so it was there before
  have he_mem : req.lock e.token now ∈ active_slice now entry := by
    obtain ⟨b, hb, hsame⟩ := hleft (req.lock e.token now) (mem_reshared.mpr (Or.inr ⟨rfl, hlive⟩))
    have hb_tok : b.token ≠ generate_lock_token default_hasher now := by
      rcases mem_reshared.mp hb with ⟨hb, -⟩ | ⟨hb, -⟩
      · exact hfresh b hb
      · rw [hb]
        exact hfresh x hx
    have heq : req.lock e.token now = b := by
      rcases hsame with heq | ⟨htok, -⟩
      · exact heq
      · exact absurd htok hb_tok
    rw [heq]
    rcases mem_reshared.mp hb with ⟨hb, -⟩ | ⟨hb, -⟩
    · exact hb
    · exact absurd (congrArg LockInfo.token (heq.trans hb)) hne
  refine ⟨he_mem, ?_⟩
  rintro y hy (hye | hyx)
  · obtain ⟨a, ha, hsame⟩ :=
      hright y (mem_reshared.mpr (Or.inl ⟨hy, by rw [hye]; exact hne⟩))
    have hay : a = y := by
      rcases hsame with heq | ⟨htok, -⟩
      · exact heq
      · exact absurd htok (hfresh y hy)
    rw [hay] at ha
    rcases mem_reshared.mp ha with ⟨-, ha⟩ | ⟨ha, -⟩
    · exact absurd hye ha
    · rw [hye]
      exact ha
  · rw [hyx]
    exact (hkept y hy hyx).1

/-- Both runs refresh a lock, under different tokens: only when the locks are the
very ones that get written do they end in the same place. -/
theorem same_locks_reshare (hx : x ∈ active_slice now entry) (hne : e.token ≠ x.token)
    (hfresh : ∀ l ∈ active_slice now entry, l.token ≠ generate_lock_token default_hasher now) :
    SameLocks (generate_lock_token default_hasher now) (active_slice now entry)
        ((active_slice now entry).filter (fun l => l.token ≠ e.token) ++
          active_slice now [req.lock e.token now])
        ((active_slice now entry).filter (fun l => l.token ≠ x.token) ++
          active_slice now [req.lock x.token now]) ↔
      req.lock e.token now ∈ active_slice now entry ∧
        ∀ y ∈ active_slice now entry, y.token = e.token ∨ y.token = x.token →
          y = req.lock y.token now := by
  refine ⟨reshared_issued hx hne hfresh, ?_⟩
  rintro ⟨he_mem, hissued⟩
  have hlive : expired now (req.lock e.token now) = false := (Lease.mem_live.mp he_mem).2
  have hx_eq : x = req.lock x.token now := hissued x hx (Or.inr rfl)
  -- each lock of one run is its own counterpart in the other
  constructor
  · intro a ha
    refine ⟨a, mem_reshared.mpr ?_, Or.inl rfl⟩
    rcases mem_reshared.mp ha with ⟨hmem, -⟩ | ⟨ha, -⟩
    · by_cases hax : a.token = x.token
      · rw [← hax]
        exact Or.inr ⟨hissued a hmem (Or.inr hax), hlive⟩
      · exact Or.inl ⟨hmem, hax⟩
    · rw [ha]
      exact Or.inl ⟨he_mem, hne⟩
  · intro b hb
    refine ⟨b, mem_reshared.mpr ?_, Or.inl rfl⟩
    rcases mem_reshared.mp hb with ⟨hmem, -⟩ | ⟨hb, -⟩
    · by_cases hbe : b.token = e.token
      · rw [← hbe]
        exact Or.inr ⟨hissued b hmem (Or.inl hbe), hlive⟩
      · exact Or.inl ⟨hmem, hbe⟩
    · rw [hb, ← hx_eq]
      exact Or.inl ⟨hx, hne.symm⟩

/-- An unexpired lock is owned: the raw list has an owned one too, maybe an earlier one. -/
theorem outcomes_agree_owned (hn : NoneExclusive now entry) (hs : req.lock_scope = .Shared)
    (hfresh : ∀ l ∈ active_slice now entry, l.token ≠ generate_lock_token default_hasher now)
    (he : entry.find? (fun l => req.if_tokens.contains l.token) = some e)
    (hx : (active_slice now entry).find? (fun l => req.if_tokens.contains l.token) = some x) :
    OutcomesAgree default_hasher now req create_new entry ↔
      e.token = x.token ∨
        (req.lock e.token now ∈ active_slice now entry ∧
          ∀ y ∈ active_slice now entry, y.token = e.token ∨ y.token = x.token →
            y = req.lock y.token now) := by
  unfold OutcomesAgree
  rw [outcome_shared hn hs, outcome_shared (none_exclusive_active hn) hs, he, hx]
  dsimp only
  rw [active_append, active_append, active_filter, active_filter, active_active]
  -- under one token both runs write the same lock
  by_cases htok : e.token = x.token
  · rw [htok]
    exact ⟨fun _ => Or.inl rfl, fun _ => ⟨rfl, SameLocks.refl _ _ _⟩⟩
  · rw [same_locks_reshare (List.mem_of_find?_eq_some hx) htok hfresh]
    exact ⟨fun h => Or.inr h.2, fun h => ⟨rfl, h.resolve_left htok⟩⟩

end Reshared

/-- Nothing is unexpired: the cleaned run creates the file. -/
theorem outcomes_agree_vacant (hn : NoneExclusive now entry) (hs : req.lock_scope = .Shared)
    (ha : active_slice now entry = []) :
    OutcomesAgree default_hasher now req create_new entry ↔
      entry = [] ∨ create_new = .AlreadyExists := by
  unfold OutcomesAgree
  rw [outcome_shared hn hs, outcome_shared (none_exclusive_active hn) hs, ha, List.find?_nil]
  dsimp only
  rw [if_pos rfl]
  cases he : entry.find? (fun l => req.if_tokens.contains l.token) with
  | some e =>
    have hne : entry ≠ [] := List.ne_nil_of_mem (List.mem_of_find?_eq_some he)
    constructor
    · rintro ⟨hstatus, -⟩
      exact Or.inr (vacant_status_ok.mp hstatus.symm)
    · rintro (h | hc)
      · exact absurd h hne
      · rw [hc, vacant_already_exists]
        refine ⟨rfl, ?_⟩
        dsimp only
        rw [active_append, active_filter, ha, List.filter_nil]
        -- the refreshed expired token and the new one
        have hwritten : SameLocks (generate_lock_token default_hasher now) []
            ([] ++ active_slice now [req.lock e.token now])
            ([] ++ active_slice now [new_lock default_hasher now req]) :=
          same_locks_written (Or.inr ⟨rfl, fun l hl => absurd hl List.not_mem_nil, rfl⟩)
        exact hwritten
  | none =>
    dsimp only
    by_cases hnil : entry = []
    · subst hnil
      exact ⟨fun _ => Or.inl rfl, fun _ => ⟨rfl, SameLocks.refl _ _ _⟩⟩
    · rw [if_neg hnil]
      constructor
      · rintro ⟨hstatus, -⟩
        exact Or.inr (vacant_status_ok.mp hstatus.symm)
      · rintro (h | hc)
        · exact absurd h hnil
        · rw [hc, vacant_already_exists]
          refine ⟨rfl, ?_⟩
          dsimp only
          rw [active_append, ha]
          exact SameLocks.refl _ _ _

/-- No unexpired lock is owned: where an owned expired lock is refreshed, the cleaned run
makes a new one. -/
theorem outcomes_agree_unowned (hn : NoneExclusive now entry) (hs : req.lock_scope = .Shared)
    (ha : active_slice now entry ≠ [])
    (hunowned : ∀ l ∈ active_slice now entry, l.token ∉ req.if_tokens) :
    OutcomesAgree default_hasher now req create_new entry := by
  have hne : entry ≠ [] := fun h => ha (by rw [h]; rfl)
  have hx : (active_slice now entry).find? (fun l => req.if_tokens.contains l.token) = none := by
    apply List.find?_eq_none.mpr
    intro l hl
    simpa using hunowned l hl
  unfold OutcomesAgree
  rw [outcome_shared hn hs, outcome_shared (none_exclusive_active hn) hs, hx]
  dsimp only
  rw [if_neg ha]
  cases he : entry.find? (fun l => req.if_tokens.contains l.token) with
  | none =>
    dsimp only
    rw [if_neg hne]
    exact ⟨rfl, same_locks_append (active_active now entry).symm _⟩
  | some e =>
    have he_own : e.token ∈ req.if_tokens := by simpa using List.find?_some he
    have he_new : ∀ l ∈ active_slice now entry, l.token ≠ e.token := by
      intro l hl heq
      rw [← heq] at he_own
      exact hunowned l hl he_own
    have hkeep : (active_slice now entry).filter (fun l => l.token ≠ e.token)
        = active_slice now entry := by
      rw [List.filter_eq_self]
      intro l hl
      simpa using he_new l hl
    refine ⟨rfl, ?_⟩
    dsimp only
    rw [active_append, active_append, active_filter, hkeep, active_active]
    exact same_locks_written (Or.inr ⟨rfl, he_new, rfl⟩)

/-- **The shared LOCK.** -/
theorem outcomes_agree_scope_shared (hn : NoneExclusive now entry)
    (hs : req.lock_scope = .Shared)
    (hfresh : ∀ l ∈ active_slice now entry, l.token ≠ generate_lock_token default_hasher now) :
    OutcomesAgree default_hasher now req create_new entry ↔
      entry = [] ∨
      (active_slice now entry = [] ∧ create_new = .AlreadyExists) ∨
      (active_slice now entry ≠ [] ∧ ∀ l ∈ active_slice now entry, l.token ∉ req.if_tokens) ∨
      ∃ e x, entry.find? (fun l => req.if_tokens.contains l.token) = some e ∧
        (active_slice now entry).find? (fun l => req.if_tokens.contains l.token) = some x ∧
        (e.token = x.token ∨
          (req.lock e.token now ∈ active_slice now entry ∧
            ∀ y ∈ active_slice now entry, y.token = e.token ∨ y.token = x.token →
              y = req.lock y.token now)) := by
  have hsub : ∀ l ∈ active_slice now entry, l ∈ entry := fun l hl => (Lease.mem_live.mp hl).1
  -- what the cleaned run finds
  cases hx : (active_slice now entry).find? (fun l => req.if_tokens.contains l.token) with
  | some x =>
    have hx_mem := List.mem_of_find?_eq_some hx
    have hx_own : x.token ∈ req.if_tokens := by simpa using List.find?_some hx
    cases he : entry.find? (fun l => req.if_tokens.contains l.token) with
    | none =>
      have hnone := List.find?_eq_none.mp he x (hsub x hx_mem)
      simp [hx_own] at hnone
    | some e =>
      rw [outcomes_agree_owned hn hs hfresh he hx]
      constructor
      · intro h
        exact Or.inr (Or.inr (Or.inr ⟨e, x, rfl, rfl, h⟩))
      · rintro (h | ⟨h, -⟩ | ⟨-, h⟩ | ⟨e', x', he', hx', h⟩)
        · rw [h] at he
          simp at he
        · rw [h] at hx_mem
          simp at hx_mem
        · exact absurd hx_own (h x hx_mem)
        · cases he'
          cases hx'
          exact h
  | none =>
    have hunowned : ∀ l ∈ active_slice now entry, l.token ∉ req.if_tokens := by
      intro l hl
      simpa using List.find?_eq_none.mp hx l hl
    by_cases ha : active_slice now entry = []
    · rw [outcomes_agree_vacant hn hs ha]
      constructor
      · rintro (h | hc)
        · exact Or.inl h
        · exact Or.inr (Or.inl ⟨ha, hc⟩)
      · rintro (h | ⟨-, hc⟩ | ⟨h, -⟩ | ⟨_, _, -, hx', -⟩)
        · exact Or.inl h
        · exact Or.inr hc
        · exact absurd ha h
        · cases hx'
    · exact ⟨fun _ => Or.inr (Or.inr (Or.inl ⟨ha, hunowned⟩)),
        fun _ => outcomes_agree_unowned hn hs ha hunowned⟩

theorem outcomes_agree_iff
    (hfresh : ∀ l ∈ active_slice now entry, l.token ≠ generate_lock_token default_hasher now) :
    OutcomesAgree default_hasher now req create_new entry ↔ Unnoticed now req create_new entry := by
  -- an unexpired exclusive lock decides alone
  by_cases hexcl : ∃ l ∈ active_slice now entry, l.is_exclusive = true
  · obtain ⟨l, hl, hx⟩ := hexcl
    exact ⟨fun _ => Unnoticed.exclusive l hl hx, fun _ => outcomes_agree_exclusive hl hx⟩
  have hn : NoneExclusive now entry := by
    intro l hl
    by_contra hx
    exact hexcl ⟨l, hl, by simpa using hx⟩
  cases hs : req.lock_scope with
  | Exclusive =>
    rw [outcomes_agree_scope_exclusive hn hs]
    constructor
    · rintro (he | ⟨ha, hc, hown⟩ | ⟨ha, hown⟩)
      · exact Unnoticed.empty he
      · exact Unnoticed.all_expired ha hc (Or.inr hown)
      · exact Unnoticed.ownership hn ha hs hown
    · intro h
      cases h with
      | exclusive l hl hx => exact absurd ⟨l, hl, hx⟩ hexcl
      | empty he => exact Or.inl he
      | all_expired ha hc hor =>
        rcases hor with hshared | hown
        · rw [hs] at hshared
          cases hshared
        · exact Or.inr (Or.inl ⟨ha, hc, hown⟩)
      | ownership _ ha _ hown => exact Or.inr (Or.inr ⟨ha, hown⟩)
      | unowned _ _ hs' _ =>
        rw [hs] at hs'
        cases hs'
      | same_token _ hs' _ _ _ _ _ =>
        rw [hs] at hs'
        cases hs'
      | issued _ hs' _ _ _ _ _ =>
        rw [hs] at hs'
        cases hs'
  | Shared =>
    rw [outcomes_agree_scope_shared hn hs hfresh]
    constructor
    · rintro (he | ⟨ha, hc⟩ | ⟨ha, hun⟩ | ⟨e, x, he, hx, htok | hissued⟩)
      · exact Unnoticed.empty he
      · exact Unnoticed.all_expired ha hc (Or.inl hs)
      · exact Unnoticed.unowned hn ha hs hun
      · exact Unnoticed.same_token hn hs e x he hx htok
      · exact Unnoticed.issued hn hs e x he hx hissued
    · intro h
      cases h with
      | exclusive l hl hx => exact absurd ⟨l, hl, hx⟩ hexcl
      | empty he => exact Or.inl he
      | all_expired ha hc _ => exact Or.inr (Or.inl ⟨ha, hc⟩)
      | ownership _ _ hs' _ =>
        rw [hs] at hs'
        cases hs'
      | unowned _ ha _ hun => exact Or.inr (Or.inr (Or.inl ⟨ha, hun⟩))
      | same_token _ _ e x he hx htok =>
        exact Or.inr (Or.inr (Or.inr ⟨e, x, he, hx, Or.inl htok⟩))
      | issued _ _ e x he hx hissued =>
        exact Or.inr (Or.inr (Or.inr ⟨e, x, he, hx, Or.inr hissued⟩))

end Compare

/-! ## Every request -/

/-- The requests that look at the lock store. A write reaches a handler that does
not, once the middleware lets it. -/
inductive Request
  | lock (req : LockRequest) (create_new : CreateNew)
  | unlock (headers : HeaderMap) (resolved : Option Path)
  | propfind (resolved : Option Path) (body : Option Unit) (entries : List (Option Path))
  | write (method : Method) (uri_path : List Char) (headers : HeaderMap) (handler : StatusCode)

section Requests

variable (default_hasher : ℕ → UInt64) {γ : Type} (resolve : List Char → γ → Option Path × γ)
  (cache : γ) (root : PathBuf) (now : ℕ)

/-- The status of a request and the store it leaves. -/
def serve (locks : LockStore) : Request → StatusCode × LockStore
  | .lock req create_new =>
    let r := lock_alone default_hasher now req create_new locks
    (status_of r.1, r.2)
  | .unlock headers resolved =>
    let r := handle_unlock headers resolved locks
    (match r.1 with
      | .ok status => status
      | .error status => status, r.2)
  | .propfind resolved body entries => (status_of (propfind_locks now resolved body entries locks), locks)
  | .write method uri_path headers handler =>
    (match (lock_enforce resolve now locks root method uri_path headers cache).1.reply with
      | .ok () => handler
      | .error status => status, locks)

/-- Cleaning up first changes neither the status nor the unexpired locks. -/
def Invisible (locks : LockStore) (r : Request) : Prop :=
  (serve default_hasher resolve cache root now locks r).1 =
      (serve default_hasher resolve cache root now (cleanup now locks) r).1 ∧
    ∀ p, SameLocks (generate_lock_token default_hasher now) (active_slice now (locks.at p))
      (active_slice now ((serve default_hasher resolve cache root now locks r).2.at p))
      (active_slice now
        ((serve default_hasher resolve cache root now (cleanup now locks) r).2.at p))

/-- What has to hold of the stored locks: for an UNLOCK, the token of a stored lock
is that of an unexpired one; for a LOCK, it refreshes an ancestor or its target's
entry leaves it `Unnoticed`. -/
def Blind (now : ℕ) (locks : LockStore) : Request → Prop
  | .lock req create_new =>
    OwnsAncestor now req locks ∨ Unnoticed now req create_new (locks.at req.target)
  | .unlock headers resolved =>
    ∀ token path, parse_lock_token_header headers = some token → resolved = some path →
      (∃ l ∈ locks.at path, l.token = token) →
        ∃ l ∈ active_slice now (locks.at path), l.token = token
  | .propfind _ _ _ => True
  | .write _ _ _ _ => True

variable {default_hasher resolve cache root now} {locks : LockStore}

/-- What does not write the store leaves the unexpired locks as they are. -/
theorem same_unwritten (p : Path) : SameLocks (generate_lock_token default_hasher now)
    (active_slice now (locks.at p)) (active_slice now (locks.at p))
    (active_slice now ((cleanup now locks).at p)) := by
  rw [← cleanup_agree now locks p]
  exact SameLocks.refl _ _ _

theorem lock_invisible_iff {req : LockRequest} {create_new : CreateNew}
    (hfresh : ∀ l ∈ active_slice now (locks.at req.target),
      l.token ≠ generate_lock_token default_hasher now) :
    Invisible default_hasher resolve cache root now locks (.lock req create_new) ↔
      OwnsAncestor now req locks ∨ Unnoticed now req create_new (locks.at req.target) := by
  unfold Invisible serve
  dsimp only
  rcases find_and_refresh_cleanup now (fun l => req.if_tokens.contains l.token) locks
    req.target with
    ⟨hnone, hnone'⟩ | ⟨lock, l₁, l₂, hsome, hsome', hag⟩
  · have hanc : ¬ OwnsAncestor now req locks := fun h => owns_ancestor_iff.mp h hnone
    obtain ⟨hstatus, hat⟩ := lock_alone_eq default_hasher create_new hnone
    obtain ⟨hstatus', hat'⟩ := lock_alone_eq default_hasher create_new hnone'
    rw [at_cleanup] at hstatus' hat'
    rw [hstatus, hstatus']
    have hor : (OwnsAncestor now req locks ∨ Unnoticed now req create_new (locks.at req.target)) ↔
        Unnoticed now req create_new (locks.at req.target) :=
      ⟨fun h => h.resolve_left hanc, Or.inr⟩
    rw [hor, ← outcomes_agree_iff hfresh]
    refine and_congr Iff.rfl ⟨fun h => ?_, fun h p => ?_⟩
    · have htarget := h req.target
      rw [hat, hat', if_pos rfl, if_pos rfl] at htarget
      exact htarget
    · rw [hat, hat']
      split
      · rename_i hp
        rw [hp]
        exact h
      · exact same_unwritten p
  · -- both runs refresh the same lock of an ancestor
    have hanc : OwnsAncestor now req locks := owns_ancestor_iff.mpr (by rw [hsome]; simp)
    have hrun : lock_alone default_hasher now req create_new locks = (.ok (.OK, lock), l₁) := by
      unfold lock_alone handle_lock first_section
      rw [hsome]
    have hrun' : lock_alone default_hasher now req create_new (cleanup now locks)
        = (.ok (.OK, lock), l₂) := by
      unfold lock_alone handle_lock first_section
      rw [hsome']
    rw [hrun, hrun']
    refine ⟨fun _ => Or.inl hanc, fun _ => ⟨rfl, fun p => ?_⟩⟩
    rw [hag p]
    exact SameLocks.refl _ _ _

theorem unlock_invisible_iff {headers : HeaderMap} {resolved : Option Path} :
    Invisible default_hasher resolve cache root now locks (.unlock headers resolved) ↔
      Blind now locks (.unlock headers resolved) := by
  unfold Invisible serve handle_unlock Blind
  dsimp only
  cases htok : parse_lock_token_header headers with
  | none => exact ⟨fun _ token path h => (by cases h), fun _ => ⟨rfl, same_unwritten⟩⟩
  | some token =>
    cases resolved with
    | none => exact ⟨fun _ _ path _ h => (by cases h), fun _ => ⟨rfl, same_unwritten⟩⟩
    | some path =>
      dsimp only
      rw [unlock_section_status, unlock_section_status, at_cleanup]
      -- the stores never differ in what is active: only the status can tell
      have hsame : ∀ p, SameLocks (generate_lock_token default_hasher now)
          (active_slice now (locks.at p))
          (active_slice now ((unlock_section path token locks).2.at p))
          (active_slice now ((unlock_section path token (cleanup now locks)).2.at p)) := by
        intro p
        rw [at_unlock_section, at_unlock_section, at_cleanup]
        split
        · rw [active_filter, active_filter, active_active]
          exact SameLocks.refl _ _ _
        · rw [active_active]
          exact SameLocks.refl _ _ _
      have hactive : (∃ l ∈ active_slice now (locks.at path), l.token = token) →
          ∃ l ∈ locks.at path, l.token = token := by
        rintro ⟨l, hl, ht⟩
        exact ⟨l, (Lease.mem_live.mp hl).1, ht⟩
      constructor
      · rintro ⟨hstatus, -⟩ token' path' ht hp hex
        cases ht
        cases hp
        -- an expired lock is released with success, where the swept store has none
        by_contra hno
        rw [if_pos hex, if_neg hno] at hstatus
        cases hstatus
      · intro h
        refine ⟨?_, hsame⟩
        by_cases hex : ∃ l ∈ locks.at path, l.token = token
        · rw [if_pos hex, if_pos (h token path rfl rfl hex)]
        · rw [if_neg hex, if_neg (fun hact => hex (hactive hact))]

/-- **When expired locks are invisible.** For every rooted store, clock reading and
request: the cleanup pass just before the request changes nothing exactly when the
stored locks leave the request blind. PROPFIND and writes always are. -/
theorem expired_invisible_iff (hroot : Rooted root locks)
    (hfresh : ∀ p, ∀ l ∈ active_slice now (locks.at p),
      l.token ≠ generate_lock_token default_hasher now) (r : Request) :
    Invisible default_hasher resolve cache root now locks r ↔ Blind now locks r := by
  cases r with
  | lock req create_new => exact lock_invisible_iff (hfresh req.target)
  | unlock headers resolved => exact unlock_invisible_iff
  | propfind resolved body entries =>
    refine ⟨fun _ => trivial, fun _ => ⟨?_, same_unwritten⟩⟩
    unfold serve propfind_locks
    dsimp only
    cases resolved with
    | none => rfl
    | some path => cases body <;> rfl
  | write method uri_path headers handler =>
    refine ⟨fun _ => trivial, fun _ => ⟨?_, same_unwritten⟩⟩
    unfold serve
    dsimp only
    rw [lock_enforce_agree hroot (cleanup_rooted hroot) (cleanup_agree now locks)]

end Requests

/-- A shared lock of `/d` that ran out at 1. -/
def late_store : LockStore :=
  AList.insert [d_name]
    [{ scope := .Shared, token := "old", owner := none, created := 0, timeout := some 1,
       depth := .Zero }] ∅

/-- A LOCK of `/d` that names no token. -/
def late_request (scope : LockScope) : LockRequest where
  target := [d_name]
  timeout := none
  depth := .Zero
  if_tokens := []
  owner := none
  lock_scope := scope

/-- An exclusive LOCK is refused for a lock that has expired. -/
theorem expired_lock_noticed :
    ¬ Invisible (fun _ => 0) (fun _ cache => (none, cache)) () (Path.to_buf []) 10 late_store
      (.lock (late_request .Exclusive) .AlreadyExists) := by
  rintro ⟨hstatus, -⟩
  have hraw : (serve (fun _ => 0) (fun _ cache => (none, cache)) () (Path.to_buf []) 10 late_store
      (.lock (late_request .Exclusive) .AlreadyExists)).1 = .LOCKED := by rfl
  have hclean : (serve (fun _ => 0) (fun _ cache => (none, cache)) () (Path.to_buf []) 10
      (cleanup 10 late_store) (.lock (late_request .Exclusive) .AlreadyExists)).1 = .OK := by rfl
  rw [hraw, hclean] at hstatus
  cases hstatus

theorem late_store_expired (p : Path) : active_slice 10 (late_store.at p) = [] := by
  unfold late_store
  rw [at_insert]
  split
  · rfl
  · rfl

theorem late_store_rooted : Rooted (Path.to_buf []) late_store := by
  intro p infos _
  exact Path.starts_with_iff.mpr (Path.comps_prefix_iff.mpr List.nil_prefix)

theorem expired_invisible_iff_shared :
    Invisible (fun _ => 0) (fun _ cache => (none, cache)) () (Path.to_buf []) 10 late_store
      (.lock (late_request .Shared) .AlreadyExists) :=
  (expired_invisible_iff late_store_rooted
    (fun p l hl => by rw [late_store_expired] at hl; cases hl)
    (.lock (late_request .Shared) .AlreadyExists)).mpr
    (Or.inr (Unnoticed.all_expired (late_store_expired _) rfl (Or.inl rfl)))

end Rshs.Expiry
