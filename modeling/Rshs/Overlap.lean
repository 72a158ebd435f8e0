/-
Which LOCKs are granted although a lock on an overlapping scope stands in the way.

An infinite lock reaches down to every path below it, so a LOCK can conflict with a
lock stored above its target, and an infinite LOCK with locks stored below it.
`handle_lock` looks at ancestors only to refresh one of the client's own locks, and
at the target's entry otherwise. A lock counts as added when it gives its holder more
than any lock stored there gave: a new one, but also the client's own one if the LOCK has
made it reach deeper or brought it back to life. `overlap_respected_iff` says when a
request that meets a conflict adds nothing: nothing but the state of the target itself
makes the code hold back.
-/
import Rshs.LockRuns

set_option autoImplicit false

namespace Rshs.Overlap

open StdPath FinMap Rshs.Webdav Rshs.Ls Rshs.Locks Rshs.LockRuns

/-! ## Conflicts and grants -/

/-- An active lock of an overlapping path, not named by the request, is
incompatible with the requested one. -/
def Conflict (now : ℕ) (locks : LockStore) (req : LockRequest) : Prop :=
  (∃ p, p <+: req.target ∧ p ≠ req.target ∧ ∃ l ∈ active_slice now (locks.at p),
      l.is_exclusive = true ∧ l.depth = .Infinity ∧ l.token ∉ req.if_tokens) ∨
    (req.depth = .Infinity ∧ ∃ p, req.target <+: p ∧ p ≠ req.target ∧
      ∃ l ∈ active_slice now (locks.at p), l.token ∉ req.if_tokens ∧
        (l.is_exclusive = true ∨ req.lock_scope = .Exclusive))

def depth_rank : Depth → ℕ
  | .Zero => 0
  | .One => 1
  | .Infinity => 2

/-- The lock `x` gives its holder nothing that `y` does not give: it has the token of
`y`, reaches no deeper, excludes no more and is not alive when `y` has expired. -/
structure Within (now : ℕ) (x y : LockInfo) : Prop where
  token : x.token = y.token
  depth : depth_rank x.depth ≤ depth_rank y.depth
  scope : x.is_exclusive = true → y.is_exclusive = true
  alive : y.is_expired now = true → x.is_expired now = true

theorem Within.refl (now : ℕ) (x : LockInfo) : Within now x x := ⟨rfl, le_refl _, id, id⟩

/-- Some path has a lock that gives more than each lock it had there before: a new one, or
one of the client's own that was widened or revived. -/
def Adds (now : ℕ) (before after : LockStore) : Prop :=
  ∃ p, ∃ x ∈ after.at p, ∀ y ∈ before.at p, ¬ Within now x y

/-- The lock the request asks for gives more under the token than any lock of the entry. -/
def Widens (now : ℕ) (req : LockRequest) (entry : List LockInfo) (token : String) : Prop :=
  ∀ y ∈ entry, ¬ Within now (req.lock token now) y

section Grants

variable (default_hasher : ℕ → UInt64) (now later : ℕ) (req : LockRequest)
  (create_new : CreateNew) (locks found : LockStore)

/-- The LOCK adds a lock in one of its sections or creates the lock-null file. -/
def Grants : Prop :=
  Adds now locks (first_section default_hasher now req locks).2 ∨
    ((first_section default_hasher now req locks).1 = none ∧
      (create_new = .Created ∨ ∃ created, ensure_lock_null_resource create_new = .ok created ∧
        Adds later found (second_section default_hasher later req created found).2))

/-- The states of the target in which the code adds nothing. -/
inductive HoldsBack : Prop
  | refused (l : LockInfo) (hl : l ∈ active_slice now (locks.at req.target))
      (hx : l.is_exclusive = true) (ht : l.token ∉ req.if_tokens)
  | refresh (l : LockInfo) (hl : l ∈ active_slice now (locks.at req.target))
      (hx : l.is_exclusive = true) (ht : l.token ∈ req.if_tokens)
      (hs : req.lock_scope = .Exclusive) (hw : ¬ Widens now req (locks.at req.target) l.token)
  | blocked (hn : NoneExclusive now (locks.at req.target)) (hs : req.lock_scope = .Exclusive)
      (l : LockInfo) (hl : l ∈ locks.at req.target) (ht : l.token ∉ req.if_tokens)
  | reshare (hn : NoneExclusive now (locks.at req.target)) (hs : req.lock_scope = .Shared)
      (l : LockInfo)
      (hl : (locks.at req.target).find? (fun l => req.if_tokens.contains l.token) = some l)
      (hw : ¬ Widens now req (locks.at req.target) l.token)
  | not_created (he : locks.at req.target = []) (hc : create_new = .Failed)
  | taken (he : locks.at req.target = []) (hc : create_new = .AlreadyExists)
      (hfound : found.at req.target ≠ [])

end Grants

/-! ## What each section adds -/

section Sections

variable {default_hasher : ℕ → UInt64} {now later : ℕ} {req : LockRequest}
  {create_new : CreateNew} {locks found : LockStore}

/-- A lock under a token that is new at its path is added. -/
theorem adds_of_new (now : ℕ) {after : LockStore} {p : Path} {x : LockInfo} (hx : x ∈ after.at p)
    (hnew : ∀ y ∈ locks.at p, y.token ≠ x.token) : Adds now locks after :=
  ⟨p, x, hx, fun y hy hw => hnew y hy hw.token.symm⟩

theorem not_adds_or_default (p : Path) : ¬ Adds now locks (or_default [] p locks) := by
  rintro ⟨q, x, hx, hnew⟩
  rw [at_or_default] at hx
  exact hnew x hx (Within.refl now x)

/-- Replacing the target's entry adds exactly the locks that give more there. -/
theorem adds_insert_iff {p : Path} {entry : List LockInfo} :
    Adds now locks ((or_default [] p locks : LockStore).insert p entry) ↔
      ∃ x ∈ entry, ∀ y ∈ locks.at p, ¬ Within now x y := by
  constructor
  · rintro ⟨q, x, hx, hnew⟩
    rw [at_insert] at hx
    by_cases hq : q = p
    · rw [if_pos hq] at hx
      rw [hq] at hnew
      exact ⟨x, hx, hnew⟩
    · rw [if_neg hq, at_or_default] at hx
      exact absurd (Within.refl now x) (hnew x hx)
  · rintro ⟨x, hx, hnew⟩
    refine ⟨p, x, ?_, hnew⟩
    rw [at_insert, if_pos rfl]
    exact hx

/-- A lock whose time begins anew while it runs. -/
theorem within_refreshed {l lock : LockInfo} (hlock : lock = { l with created := now })
    (hexp : l.is_expired now = false) : Within now lock l := by
  rw [hlock]
  refine ⟨rfl, le_refl _, id, fun h => ?_⟩
  rw [hexp] at h
  cases h

/-- A refresh adds nothing: the lock it rewrites gives what it gave. -/
theorem not_adds_refresh {p : Path} {pre post : List LockInfo} {l lock : LockInfo}
    (hl : locks.lookup p = some (pre ++ l :: post)) (hlock : Within now lock l) :
    ¬ Adds now locks (locks.insert p (pre ++ lock :: post)) := by
  rintro ⟨q, x, hx, hnew⟩
  rw [at_insert] at hx
  split at hx
  · rename_i hq
    subst hq
    rw [at_of_lookup hl] at hnew
    rcases List.mem_append.mp hx with hx | hx
    · exact hnew x (List.mem_append_left _ hx) (Within.refl now x)
    · rcases List.mem_cons.mp hx with rfl | hx
      · exact hnew l (by simp) hlock
      · exact hnew x (by simp [hx]) (Within.refl now x)
  · exact hnew x hx (Within.refl now x)

theorem not_grants_of_owns_ancestor (h : OwnsAncestor now req locks) :
    ¬ Grants default_hasher now later req create_new locks found := by
  have hsome := owns_ancestor_iff.mp h
  rcases first_section_cases default_hasher now req locks with ⟨lock, locks', hfind, heq⟩ | ⟨hnone, -⟩
  · obtain ⟨p, pre, l, post, -, -, hl, -, hexp, -, hlock, rfl⟩ := find_and_refresh_some hfind
    unfold Grants
    rw [heq]
    rintro (hadds | ⟨hreply, -⟩)
    · exact not_adds_refresh hl (within_refreshed hlock hexp) hadds
    · cases hreply
  · exact absurd hnone hsome

/-- The entry an acquisition leaves adds the granted lock, if it gives more. -/
theorem acquired_adds_iff {entry entry' : List LockInfo} {token : String}
    (hsub : ∀ x ∈ entry', x ∈ entry) :
    (∃ x ∈ entry' ++ [req.lock token now], ∀ y ∈ entry, ¬ Within now x y) ↔
      Widens now req entry token := by
  constructor
  · rintro ⟨x, hx, hnew⟩
    rcases List.mem_append.mp hx with hx | hx
    · exact absurd (Within.refl now x) (hnew x (hsub x hx))
    · rw [List.mem_singleton.mp hx] at hnew
      exact hnew
  · intro h
    exact ⟨req.lock token now, by simp, h⟩

/-- A token that no lock of the entry has gives more than all of them. -/
theorem widens_of_new {entry : List LockInfo} {token : String} (h : ∀ y ∈ entry, y.token ≠ token) :
    Widens now req entry token :=
  fun y hy hw => h y hy hw.token.symm

/-- The second section adds a lock exactly when it finds no lock at the target. -/
theorem second_section_adds_iff {created : Bool} :
    Adds later found (second_section default_hasher later req created found).2 ↔
      found.at req.target = [] := by
  rcases second_section_cases default_hasher later req created found with ⟨he, heq⟩ | ⟨he, heq⟩
  · rw [heq]
    exact ⟨fun h => absurd h (not_adds_or_default _), fun h => absurd h he⟩
  · rw [heq, adds_insert_iff, he]
    simp

/-- What is acquired in a state that holds back is acquired under an old token. -/
theorem acquired_held_back (hexcl : Exclusive now locks)
    (h : HoldsBack now req create_new locks found) {token : String} {entry : List LockInfo}
    (hd : decision default_hasher now req (locks.at req.target) = .ok (.Acquired token, entry)) :
    ¬ ∃ x ∈ entry ++ [req.lock token now], ∀ y ∈ locks.at req.target, ¬ Within now x y := by
  intro hadds
  have hcases := decision_cases default_hasher now req (locks.at req.target)
  rw [hd] at hcases
  -- the five ways to acquire, each against what holds back
  cases hcases with
  | refresh l hl hx ht hs =>
    rw [acquired_adds_iff (fun x hx => (List.mem_filter.mp hx).1)] at hadds
    have honly : active_slice now (locks.at req.target) = [l] := hexcl req.target l hl hx
    cases h with
    | refused x hx' _ hxt =>
      rw [honly, List.mem_singleton] at hx'
      rw [hx'] at hxt
      exact hxt ht
    | refresh x hx' _ _ _ hw =>
      rw [honly, List.mem_singleton] at hx'
      rw [hx'] at hw
      exact hw hadds
    | blocked hn _ _ _ _ =>
      rw [hn l hl] at hx
      cases hx
    | reshare hn _ _ _ _ =>
      rw [hn l hl] at hx
      cases hx
    | not_created he _ => simp [he, active_slice] at hl
    | taken he _ _ => simp [he, active_slice] at hl
  | downgrade l hl hx ht hs =>
    have honly : active_slice now (locks.at req.target) = [l] := hexcl req.target l hl hx
    cases h with
    | refused x hx' _ hxt =>
      rw [honly, List.mem_singleton] at hx'
      rw [hx'] at hxt
      exact hxt ht
    | refresh _ _ _ _ hs' _ =>
      rw [hs] at hs'
      cases hs'
    | blocked hn _ _ _ _ =>
      rw [hn l hl] at hx
      cases hx
    | reshare hn _ _ _ _ =>
      rw [hn l hl] at hx
      cases hx
    | not_created he _ => simp [he, active_slice] at hl
    | taken he _ _ => simp [he, active_slice] at hl
  | upgrade hn hs he hown =>
    cases h with
    | refused l hl _ ht => exact ht (hown l (Lease.mem_live.mp hl).1)
    | refresh l hl hx _ _ _ =>
      rw [hn l hl] at hx
      cases hx
    | blocked _ _ l hl ht => exact ht (hown l hl)
    | reshare _ hs' _ _ _ =>
      rw [hs] at hs'
      cases hs'
    | not_created he' _ => exact he he'
    | taken he' _ _ => exact he he'
  | reshare hn hs l hl =>
    rw [acquired_adds_iff (fun x hx => (List.mem_filter.mp hx).1)] at hadds
    cases h with
    | refused x hx' hxe _ =>
      rw [hn x hx'] at hxe
      cases hxe
    | refresh _ _ _ _ hs' _ =>
      rw [hs] at hs'
      cases hs'
    | blocked _ hs' _ _ _ =>
      rw [hs] at hs'
      cases hs'
    | reshare _ _ x hx' hw =>
      rw [hl, Option.some.injEq] at hx'
      rw [← hx'] at hw
      exact hw hadds
    | not_created he _ => simp [he] at hl
    | taken he _ _ => simp [he] at hl
  | join hn hs he hown =>
    cases h with
    | refused l hl hx _ =>
      rw [hn l hl] at hx
      cases hx
    | refresh _ _ _ _ hs' _ =>
      rw [hs] at hs'
      cases hs'
    | blocked _ hs' _ _ _ =>
      rw [hs] at hs'
      cases hs'
    | reshare _ _ l hl _ =>
      exact hown l (List.mem_of_find?_eq_some hl) (by simpa using List.find?_some hl)
    | not_created he' _ => exact he he'
    | taken he' _ _ => exact he he'

/-- Of the states of an empty entry only a creation that fails, or one that comes late,
holds back. -/
theorem empty_held_back (h : HoldsBack now req create_new locks found)
    (he : locks.at req.target = []) :
    create_new = .Failed ∨ (create_new = .AlreadyExists ∧ found.at req.target ≠ []) := by
  cases h with
  | refused l hl _ _ => simp [he, active_slice] at hl
  | refresh l hl _ _ _ _ => simp [he, active_slice] at hl
  | blocked _ _ l hl _ => simp [he] at hl
  | reshare _ _ l hl _ => simp [he] at hl
  | not_created _ hc => exact Or.inl hc
  | taken _ hc hfound => exact Or.inr ⟨hc, hfound⟩

/-- Whatever state of the target holds the code back, it adds nothing. -/
theorem not_grants_of_holds_back (hexcl : Exclusive now locks)
    (h : HoldsBack now req create_new locks found) :
    ¬ Grants default_hasher now later req create_new locks found := by
  by_cases hanc : OwnsAncestor now req locks
  · exact not_grants_of_owns_ancestor hanc
  unfold Grants
  -- the first section answers, acquires, or finds the entry empty
  rcases first_section_cases default_hasher now req locks with
    ⟨lock, locks', hfind, -⟩ | ⟨-, ⟨status, -, heq⟩ | ⟨token, entry, hd, heq⟩ | ⟨he, heq⟩⟩
  · exact absurd (owns_ancestor_iff.mpr (by rw [hfind]; simp)) hanc
  · rw [heq]
    rintro (hadds | ⟨hreply, -⟩)
    · exact not_adds_or_default _ hadds
    · cases hreply
  · rw [heq]
    dsimp only
    rw [adds_insert_iff]
    rintro (hadds | ⟨hreply, -⟩)
    · exact acquired_held_back hexcl h hd hadds
    · cases hreply
  · -- an empty entry: the file and the second section decide
    rw [heq]
    dsimp only
    rw [adds_insert_iff]
    rintro (⟨x, hx, -⟩ | ⟨-, hcreate⟩)
    · simp at hx
    · rcases empty_held_back h he with hc | ⟨hc, hfound⟩
      · rw [hc] at hcreate
        simp [ensure_lock_null_resource] at hcreate
      · rw [hc] at hcreate
        rcases hcreate with hcreated | ⟨created, -, hadds⟩
        · cases hcreated
        · exact hfound (second_section_adds_iff.mp hadds)

/-- Otherwise it adds a lock or creates the file, if its tokens are new. -/
theorem grants_of_not_holds_back (hanc : ¬ OwnsAncestor now req locks)
    (hfresh : ∀ l ∈ locks.at req.target, l.token ≠ generate_lock_token default_hasher now)
    (h : ¬ HoldsBack now req create_new locks found) :
    Grants default_hasher now later req create_new locks found := by
  unfold Grants
  -- an ancestor renewed, a refusal, a lock granted, or nothing there yet
  rcases first_section_cases default_hasher now req locks with
    ⟨lock, locks', hfind, -⟩ | ⟨-, ⟨status, hd, heq⟩ | ⟨token, entry, hd, heq⟩ | ⟨he, heq⟩⟩
  · exact absurd (owns_ancestor_iff.mpr (by rw [hfind]; simp)) hanc
  · exfalso
    -- each way to be refused is a lock that holds the request back
    have hcases := decision_cases default_hasher now req (locks.at req.target)
    rw [hd] at hcases
    cases hcases with
    | refused l hl hx ht => exact h (HoldsBack.refused l hl hx ht)
    | blocked hn hs l hl ht => exact h (HoldsBack.blocked hn hs l hl ht)
  · left
    rw [heq]
    dsimp only
    rw [adds_insert_iff]
    have hcases := decision_cases default_hasher now req (locks.at req.target)
    rw [hd] at hcases
    cases hcases with
    | refresh l hl hx ht hs =>
      by_contra hno
      rw [acquired_adds_iff (decision_subset default_hasher hd)] at hno
      exact h (HoldsBack.refresh l hl hx ht hs hno)
    | downgrade l hl hx ht hs =>
      -- a new token widens the store whatever else is there
      exact (acquired_adds_iff (decision_subset default_hasher hd)).mpr (widens_of_new hfresh)
    | upgrade hn hs he hown =>
      exact (acquired_adds_iff (decision_subset default_hasher hd)).mpr (widens_of_new hfresh)
    | reshare hn hs l hl =>
      by_contra hno
      rw [acquired_adds_iff (decision_subset default_hasher hd)] at hno
      exact h (HoldsBack.reshare hn hs l hl hno)
    | join hn hs he hown =>
      exact (acquired_adds_iff (decision_subset default_hasher hd)).mpr (widens_of_new hfresh)
  · right
    rw [heq]
    refine ⟨rfl, ?_⟩
    cases hc : create_new with
    | Created => exact Or.inl rfl
    | AlreadyExists =>
      right
      refine ⟨false, rfl, second_section_adds_iff.mpr ?_⟩
      by_contra hfound
      exact h (HoldsBack.taken he hc hfound)
    | Failed => exact absurd (HoldsBack.not_created he hc) h

end Sections

/-! ## Overlapping scopes -/

section Results

variable {default_hasher : ℕ → UInt64}

/-- **When a conflict is respected.** From every reachable store: a LOCK that meets
a conflict adds no lock and no file exactly when it refreshes a lock of an ancestor
or the state of its own target holds it back. Tokens the clock makes are taken to
be new for the second half. -/
theorem overlap_respected_iff {s : LockState}
    (h : Lts.Reachable (Step default_hasher) Initial s) (now later : ℕ) (hnow : s.clock ≤ now)
    (req : LockRequest) (create_new : CreateNew) (found : LockStore)
    (hfresh : ∀ l ∈ s.locks.at req.target, l.token ≠ generate_lock_token default_hasher now) :
    (Conflict now s.locks req → ¬ Grants default_hasher now later req create_new s.locks found) ↔
      (Conflict now s.locks req → OwnsAncestor now req s.locks ∨
        HoldsBack now req create_new s.locks found) := by
  have hexcl := (reachable_exclusive h).later hnow
  refine imp_congr Iff.rfl ⟨fun hno => ?_, fun hor => ?_⟩
  · by_contra hnot
    rw [not_or] at hnot
    exact hno (grants_of_not_holds_back hnot.1 hfresh hnot.2)
  · rcases hor with hanc | hback
    · exact not_grants_of_owns_ancestor hanc
    · exact not_grants_of_holds_back hexcl hback

end Results

/-- A LOCK of `/d/f`, exclusive, without an `If` header. -/
def file_lock : LockRequest where
  target := dir ++ [f_name]
  timeout := none
  depth := .Zero
  if_tokens := []
  owner := none
  lock_scope := .Exclusive

theorem file_lock_conflict : Conflict 3 dir_locked.locks file_lock := by
  refine Or.inl ⟨dir, List.prefix_append _ _, by decide,
    dir_lock.lock (generate_lock_token (fun _ => 0) 2) 2, ?_, rfl, rfl, List.not_mem_nil⟩
  rw [dir_locked_at]
  exact List.mem_cons_self

/-- Under an infinite exclusive lock of `/d`, a LOCK of `/d/f` creates the file. -/
theorem overlap_not_respected :
    Lts.Reachable (Step (fun _ => 0)) Initial dir_locked ∧
      ¬ (Conflict 3 dir_locked.locks file_lock →
        ¬ Grants (fun _ => 0) 3 4 file_lock .Created dir_locked.locks dir_locked.locks) := by
  refine ⟨dir_locked_reachable, fun h => h file_lock_conflict (Or.inr ⟨rfl, Or.inl rfl⟩)⟩

theorem overlap_respected_iff_failed :
    Conflict 3 dir_locked.locks file_lock ∧
      ¬ Grants (fun _ => 0) 3 4 file_lock .Failed dir_locked.locks dir_locked.locks :=
  ⟨file_lock_conflict,
    (overlap_respected_iff dir_locked_reachable 3 4 (by decide) file_lock .Failed
      dir_locked.locks (fun l hl => absurd hl List.not_mem_nil)).mpr
      (fun _ => Or.inr (HoldsBack.not_created rfl rfl)) file_lock_conflict⟩

end Rshs.Overlap
