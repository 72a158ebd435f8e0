/-
Lock tokens over runs of the lock store: when no two locks carry one token.

A token is a function of the clock reading alone, so two readings that are equal, or
that the hasher takes to the same word, make the same token. Refreshes and shared
LOCKs of an owned lock put an old token back instead; they take the lock that had it
out first. `Mints` are the ways a first critical section makes a new token, with the
locks it leaves at its target, and a step is `Clear` when no lock that stays carries
the token it makes. From unique tokens a step leads to unique tokens exactly when it
is clear (`step_unique_iff`).
-/
import Rshs.LockRuns
import Rshs.Labels

set_option autoImplicit false

namespace Rshs.Tokens

open StdPath FinMap Rshs.Webdav Rshs.Ls Rshs.Locks Rshs.LockRuns

/-- No two locks of the store carry one token. -/
def UniqueTokens (locks : LockStore) : Prop := Labels.Unique LockInfo.token locks.at

/-- The ways a first section makes a new token for an entry, with the locks of the
entry that stay: an owned exclusive lock gives way to a shared one, owned shared locks
give way to an exclusive one, and a shared lock joins others. -/
inductive Mints (now : ℕ) (req : LockRequest) (entry : List LockInfo) : List LockInfo → Prop
  | downgrade (token : String)
      (hcheck : check_existing_exclusive now entry req.if_tokens = .ok (some token))
      (hs : req.lock_scope = .Shared) : Mints now req entry (entry.filter fun l => !l.is_exclusive)
  | upgrade (hcheck : check_existing_exclusive now entry req.if_tokens = .ok none)
      (hs : req.lock_scope = .Exclusive) (he : entry ≠ [])
      (hown : ∀ l ∈ entry, l.token ∈ req.if_tokens) : Mints now req entry []
  | join (hcheck : check_existing_exclusive now entry req.if_tokens = .ok none)
      (hs : req.lock_scope = .Shared) (he : entry ≠ [])
      (hown : ∀ l ∈ entry, l.token ∉ req.if_tokens) : Mints now req entry entry

/-- No lock carries the token, of the locks kept at a path and of those at the others. -/
def Unused (token : String) (kept : List LockInfo) (target : Path) (locks : LockStore) : Prop :=
  (∀ l ∈ kept, l.token ≠ token) ∧ ∀ p, p ≠ target → ∀ l ∈ locks.at p, l.token ≠ token

section Sections

variable {default_hasher : ℕ → UInt64} {now : ℕ} {req : LockRequest} {locks : LockStore}
  {entry kept : List LockInfo} {token : String}

theorem Mints.decision (default_hasher : ℕ → UInt64) (h : Mints now req entry kept) :
    Locks.decision default_hasher now req entry
      = .ok (.Acquired (generate_lock_token default_hasher now), kept) := by
  unfold Locks.decision
  cases h with
  | downgrade token hcheck hs =>
    rw [hcheck]
    dsimp only
    rw [hs]
  | upgrade hcheck hs he hown =>
    rw [hcheck]
    dsimp only
    rw [hs]
    dsimp only
    unfold try_new_exclusive
    rw [if_neg he, if_pos (by simpa using hown)]
  | join hcheck hs he hown =>
    rw [hcheck]
    dsimp only
    rw [hs]
    dsimp only
    unfold try_new_shared
    have hfind : entry.find? (fun l => req.if_tokens.contains l.token) = none := by
      simpa using hown
    rw [hfind]
    dsimp only
    rw [if_neg he]

/-- A granted token is a new one, or the token of a lock that goes. -/
theorem granted_cases (hd : decision default_hasher now req entry = .ok (.Acquired token, kept)) :
    (token = generate_lock_token default_hasher now ∧ Mints now req entry kept) ∨
      (List.Sublist kept entry ∧ ∃ l ∈ entry, l.token = token ∧ l ∉ kept) := by
  unfold decision at hd
  -- without an exclusive lock, with an owned one, with that of another
  rcases check_existing_exclusive_cases now entry req.if_tokens with
    ⟨hcheck, hn⟩ | ⟨l, hl, hx, ⟨hcheck, ht⟩ | ⟨hcheck, ht⟩⟩
  · rw [hcheck] at hd
    dsimp only at hd
    cases hs : req.lock_scope with
    | Exclusive =>
      simp only [hs, try_new_exclusive] at hd
      split at hd
      · simp at hd
      · rename_i he
        split at hd
        · rename_i hown
          simp only [Except.ok.injEq, Prod.mk.injEq, TryAcquire.Acquired.injEq] at hd
          rw [← hd.1, ← hd.2]
          exact Or.inl ⟨rfl, Mints.upgrade hcheck hs he (by simpa using hown)⟩
        · simp at hd
    | Shared =>
      simp only [hs, try_new_shared] at hd
      -- a shared lock whose token is presented is taken over
      cases hfind : entry.find? (fun l => req.if_tokens.contains l.token) with
      | some l =>
        simp only [hfind, Except.ok.injEq, Prod.mk.injEq, TryAcquire.Acquired.injEq] at hd
        rw [← hd.1, ← hd.2]
        refine Or.inr ⟨List.filter_sublist, l, List.mem_of_find?_eq_some hfind, rfl, ?_⟩
        simp
      | none =>
        simp only [hfind] at hd
        split at hd
        · simp at hd
        · rename_i he
          simp only [Except.ok.injEq, Prod.mk.injEq, TryAcquire.Acquired.injEq] at hd
          rw [← hd.1, ← hd.2]
          exact Or.inl ⟨rfl, Mints.join hcheck hs he (by simpa using hfind)⟩
  · rw [hcheck] at hd
    cases hs : req.lock_scope with
    | Exclusive =>
      simp only [hs, Except.ok.injEq, Prod.mk.injEq, TryAcquire.Acquired.injEq] at hd
      rw [← hd.1, ← hd.2]
      -- an owned exclusive lock is refreshed under its token
      refine Or.inr ⟨List.filter_sublist, l, (Lease.mem_live.mp hl).1, rfl, ?_⟩
      simp [hx]
    | Shared =>
      simp only [hs, Except.ok.injEq, Prod.mk.injEq, TryAcquire.Acquired.injEq] at hd
      rw [← hd.1, ← hd.2]
      -- or replaced by a shared lock with a new one
      exact Or.inl ⟨rfl, Mints.downgrade l.token hcheck hs⟩
  · rw [hcheck] at hd
    simp at hd

theorem Mints.sublist (h : Mints now req entry kept) : List.Sublist kept entry := by
  cases h with
  | downgrade token hcheck hs => exact List.filter_sublist
  | upgrade hcheck hs he hown => exact List.nil_sublist _
  | join hcheck hs he hown => exact List.Sublist.refl _

/-- A store whose lists are the same has the same tokens. -/
theorem unique_congr {locks' : LockStore} (h : ∀ p, locks'.at p = locks.at p) :
    UniqueTokens locks' ↔ UniqueTokens locks := by
  have hat : locks'.at = locks.at := funext h
  unfold UniqueTokens
  rw [hat]

/-- A lock at the end of what is kept of an entry. -/
theorem insert_unique_iff {l : LockInfo} {target : Path} (h : UniqueTokens locks)
    (hkept : List.Sublist kept (locks.at target)) :
    UniqueTokens ((or_default [] target locks : LockStore).insert target (kept ++ [l])) ↔
      Unused l.token kept target locks := by
  unfold UniqueTokens Unused
  rw [Labels.Unique.push_iff h hkept]
  · rw [at_insert, if_pos rfl]
  · intro p hp
    rw [at_insert, if_neg hp, at_or_default]

/-- **A grant and the tokens.** Unless the section makes a new token, the tokens stay
unique; a new token must be unused. -/
theorem granted_unique_iff (h : UniqueTokens locks)
    (hd : decision default_hasher now req (locks.at req.target) = .ok (.Acquired token, kept)) :
    UniqueTokens ((or_default [] req.target locks : LockStore).insert req.target
        (kept ++ [req.lock token now])) ↔
      ∀ kept, Mints now req (locks.at req.target) kept →
        Unused (generate_lock_token default_hasher now) kept req.target locks := by
  have hkept : List.Sublist kept (locks.at req.target) := by
    rcases granted_cases hd with ⟨-, hm⟩ | ⟨hsub, -⟩
    · exact hm.sublist
    · exact hsub
  rw [insert_unique_iff h hkept]
  constructor
  · intro hunused kept' hm
    have hsame := hm.decision default_hasher
    rw [hd] at hsame
    simp only [Except.ok.injEq, Prod.mk.injEq, TryAcquire.Acquired.injEq] at hsame
    rw [← hsame.1, ← hsame.2]
    exact hunused
  · intro hclear
    rcases granted_cases hd with ⟨htok, hm⟩ | ⟨-, l, hl, htok, hgone⟩
    · have hunused := hclear kept hm
      rw [← htok] at hunused
      exact hunused
    · -- the lock that had the token was the only one
      constructor
      · intro y hy heq
        have hyl : y = l := Labels.Unique.eq h (hkept.subset hy) hl (heq.trans htok.symm)
        rw [hyl] at hy
        exact hgone hy
      · intro p hp y hy heq
        exact hp (Labels.Unique.apart h p req.target y l hy hl (heq.trans htok.symm))

end Sections

/-! ## Steps -/

/-- The token a step makes, if it makes one, is carried by no lock that stays. -/
def Clear (default_hasher : ℕ → UInt64) (locks : LockStore) : Event → Prop
  | .lock_begin now req => ¬ OwnsAncestor now req locks →
      ∀ kept, Mints now req (locks.at req.target) kept →
        Unused (generate_lock_token default_hasher now) kept req.target locks
  | .lock_commit now req _ => locks.at req.target = [] →
      Unused (generate_lock_token default_hasher now) [] req.target locks
  | _ => True

section Steps

variable {default_hasher : ℕ → UInt64} {now : ℕ} {req : LockRequest} {locks : LockStore}

theorem first_section_unique_iff (h : UniqueTokens locks) :
    UniqueTokens (first_section default_hasher now req locks).2 ↔
      Clear default_hasher locks (.lock_begin now req) := by
  simp only [Clear, owns_ancestor_iff, ne_eq, not_not]
  rcases first_section_cases default_hasher now req locks with
    ⟨lock, locks', hfind, heq⟩ | ⟨hnone, ⟨status, hd, heq⟩ | ⟨token, entry, hd, heq⟩ | ⟨he, heq⟩⟩
  · -- a refresh writes no token
    obtain ⟨p, pre, l, post, -, -, hl, -, -, -, hlock, rfl⟩ := find_and_refresh_some hfind
    rw [heq]
    refine iff_of_true ?_ (fun hnone => by rw [hfind] at hnone; cases hnone)
    refine Labels.Unique.of_sublist h (fun q => ?_)
    rw [at_insert]
    split
    · rename_i hq
      rw [hq, at_of_lookup hl, hlock]
      simp
    · exact List.Sublist.refl _
  · rw [heq]
    refine iff_of_true ((unique_congr (at_or_default locks req.target)).mpr h) (fun _ kept hm => ?_)
    rw [hm.decision default_hasher] at hd
    cases hd
  · rw [heq, granted_unique_iff h hd]
    exact ⟨fun hclear _ => hclear, fun hclear => hclear hnone⟩
  · rw [heq]
    have hsame : ∀ p, LockStore.at ((or_default [] req.target locks).insert req.target []) p
        = locks.at p := by
      intro p
      rw [at_insert]
      split
      · rename_i hp
        rw [hp, he]
      · exact at_or_default _ _ _
    refine iff_of_true ((unique_congr hsame).mpr h) (fun _ kept hm => ?_)
    have hd := hm.decision default_hasher
    rw [he, decision_nil] at hd
    cases hd

theorem second_section_unique_iff {created : Bool} (h : UniqueTokens locks) :
    UniqueTokens (second_section default_hasher now req created locks).2 ↔
      Clear default_hasher locks (.lock_commit now req created) := by
  unfold Clear
  rcases second_section_cases default_hasher now req created locks with ⟨he, heq⟩ | ⟨he, heq⟩
  · rw [heq]
    exact iff_of_true ((unique_congr (at_or_default locks req.target)).mpr h)
      (fun hnil => absurd hnil he)
  · have hnew := insert_unique_iff (l := req.lock (generate_lock_token default_hasher now) now) h
      (List.nil_sublist (locks.at req.target))
    rw [List.nil_append] at hnew
    rw [heq, hnew]
    exact ⟨fun hunused _ => hunused, fun hclear => hclear he⟩

/-- **One step.** Unique tokens stay unique exactly when the step is clear. -/
theorem step_unique_iff {s t : LockState} {e : Event} (h : UniqueTokens s.locks)
    (hs : Step default_hasher s e t) :
    UniqueTokens t.locks ↔ Clear default_hasher s.locks e := by
  cases hs with
  | lock_begin now req hnow => exact first_section_unique_iff h
  | lock_commit now req created hnow hreq => exact second_section_unique_iff h
  | lock_abort now req hnow hreq => exact iff_of_true h trivial
  | unlock now fs_path token hnow =>
    refine iff_of_true (Labels.Unique.of_sublist h (fun p => ?_)) trivial
    rw [at_unlock_section]
    split
    · exact List.filter_sublist.map _
    · exact List.Sublist.refl _
  | cleanup now hnow =>
    refine iff_of_true (Labels.Unique.of_sublist h (fun p => ?_)) trivial
    rw [at_cleanup]
    exact List.filter_sublist.map _
  | other now locks hnow hsame =>
    refine iff_of_true ((unique_congr (fun p => ?_)).mpr h) trivial
    simp [LockStore.at, get_or, hsame]

/-- A step whose new token, if it makes one, is not in use. -/
def ClearStep (default_hasher : ℕ → UInt64) (s : LockState) (e : Event) (t : LockState) : Prop :=
  Step default_hasher s e t ∧ Clear default_hasher s.locks e

/-- Where no lock is stored every token is unused. -/
theorem clear_of_empty (h : ∀ p, locks.at p = []) (e : Event) : Clear default_hasher locks e := by
  have hunused : ∀ token target, Unused token [] target locks := by
    intro token target
    refine ⟨fun l hl => absurd hl List.not_mem_nil, fun p _ l hl => ?_⟩
    rw [h p] at hl
    cases hl
  cases e with
  | lock_begin now req =>
    intro _ kept hm
    have hnil : kept = [] := by
      have hsub := hm.sublist
      rw [h req.target] at hsub
      exact List.sublist_nil.mp hsub
    rw [hnil]
    exact hunused _ _
  | lock_commit now req created => exact fun _ => hunused _ _
  | lock_abort now req => trivial
  | unlock now fs_path token => trivial
  | cleanup now => trivial
  | other now => trivial

/-- **Unique tokens.** In a run of clear steps no two locks carry one token, and the
next step keeps it so exactly when it is clear. -/
theorem tokens_unique_iff {s : LockState}
    (h : Lts.Reachable (ClearStep default_hasher) Initial s) :
    UniqueTokens s.locks ∧
      ∀ e t, Step default_hasher s e t → (UniqueTokens t.locks ↔ Clear default_hasher s.locks e) := by
  have hunique : UniqueTokens s.locks := by
    refine h.invariant (I := fun s => UniqueTokens s.locks) (fun s₀ h₀ => ?_)
      (fun _ _ _ hI hs => (step_unique_iff hI hs.1).mpr hs.2)
    have hempty : ∀ p, s₀.locks.at p = [] := by
      intro p
      rw [h₀.1]
      rfl
    constructor
    · intro p
      rw [hempty p]
      exact List.nodup_nil
    · intro p q x y hx
      rw [hempty p] at hx
      cases hx
  exact ⟨hunique, fun e t hs => step_unique_iff hunique hs⟩

/-- The run to `dir_locked` is clear: nothing is stored before its second section. -/
theorem dir_locked_clear : Lts.Reachable (ClearStep (fun _ => 0)) Initial dir_locked := by
  have hbegin : Clear (fun _ => 0) ∅ (.lock_begin 1 dir_lock) := clear_of_empty (fun p => rfl) _
  have hbetween : ∀ p, (first_section (fun _ => 0) 1 dir_lock ∅).2.at p = [] := by
    intro p
    have hentry : (first_section (fun _ => 0) 1 dir_lock ∅).2 =
        (or_default [] dir ∅).insert dir [] := rfl
    rw [hentry, at_insert, at_or_default]
    split <;> rfl
  have hcommit : Clear (fun _ => 0) (first_section (fun _ => 0) 1 dir_lock ∅).2
      (.lock_commit 2 dir_lock false) := clear_of_empty hbetween _
  exact ⟨⟨0, ∅, []⟩, [.lock_begin 1 dir_lock, .lock_commit 2 dir_lock false], ⟨rfl, rfl⟩,
    Lts.Run.cons ⟨Step.lock_begin _ 1 dir_lock (Nat.zero_le 1), hbegin⟩
      (Lts.Run.single
        ⟨Step.lock_commit _ 2 dir_lock false (Nat.le_succ 1) List.mem_cons_self, hcommit⟩)⟩

theorem tokens_unique_iff_dir :
    UniqueTokens dir_locked.locks ∧
      ∀ e t, Step (fun _ => 0) dir_locked e t →
        (UniqueTokens t.locks ↔ Clear (fun _ => 0) dir_locked.locks e) :=
  tokens_unique_iff dir_locked_clear

end Steps

/-! ## One reading, two locks -/

/-- `/d/f`, below the directory of `dir_lock`. -/
def file : Path := dir ++ [f_name]

/-- A LOCK of `/d` or of `/d/f` for that resource alone. -/
def plain_lock (target : Path) : LockRequest := { dir_lock with target := target, depth := .Zero }

/-- The state after LOCKs of both, one after the other, the clock reading 5 for each
critical section. -/
def two_locked (default_hasher : ℕ → UInt64) : LockState where
  clock := 5
  locks := (second_section default_hasher 5 (plain_lock file) false
    (first_section default_hasher 5 (plain_lock file)
      (second_section default_hasher 5 (plain_lock dir) false
        (first_section default_hasher 5 (plain_lock dir) ∅).2).2).2).2
  creating := []

theorem two_locked_reachable (default_hasher : ℕ → UInt64) :
    Lts.Reachable (Step default_hasher) Initial (two_locked default_hasher) :=
  ⟨⟨5, ∅, []⟩,
    [.lock_begin 5 (plain_lock dir), .lock_commit 5 (plain_lock dir) false,
      .lock_begin 5 (plain_lock file), .lock_commit 5 (plain_lock file) false], ⟨rfl, rfl⟩,
    .cons (Step.lock_begin _ 5 (plain_lock dir) le_rfl)
      (.cons (Step.lock_commit _ 5 (plain_lock dir) false le_rfl List.mem_cons_self)
        (.cons (Step.lock_begin _ 5 (plain_lock file) le_rfl)
          (.cons (Step.lock_commit _ 5 (plain_lock file) false le_rfl List.mem_cons_self)
            (.nil _))))⟩

/-- **Equal readings, equal tokens.** Two LOCKs of different resources in the same
nanosecond are granted one token, whatever the hasher. -/
theorem same_reading_same_token (default_hasher : ℕ → UInt64) :
    ¬ UniqueTokens (two_locked default_hasher).locks := by
  let granted := fun target => (plain_lock target).lock (generate_lock_token default_hasher 5) 5
  let one : LockStore := AList.insert dir [granted dir] ∅
  -- what each section leaves
  have hbegin : (first_section default_hasher 5 (plain_lock dir) ∅).2 = AList.insert dir [] ∅ :=
    rfl
  have hone : (second_section default_hasher 5 (plain_lock dir) false (AList.insert dir [] ∅)).2
      = one := rfl
  have hbegin' : (first_section default_hasher 5 (plain_lock file) one).2 =
      AList.insert file [] one := rfl
  have htwo : (second_section default_hasher 5 (plain_lock file) false
      (AList.insert file [] one)).2 = AList.insert file [granted file] one := rfl
  have hlocks : (two_locked default_hasher).locks = AList.insert file [granted file] one := by
    unfold two_locked
    rw [hbegin, hone, hbegin', htwo]
  have hdir : (two_locked default_hasher).locks.at dir = [granted dir] := by
    rw [hlocks]
    rfl
  have hfile : (two_locked default_hasher).locks.at file = [granted file] := by
    rw [hlocks]
    rfl
  intro h
  have heq : dir = file := by
    apply Labels.Unique.apart h dir file
    · rw [hdir]
      exact List.mem_cons_self
    · rw [hfile]
      exact List.mem_cons_self
    · rfl
  exact absurd heq (by decide)

theorem equal_readings_equal_tokens :
    Lts.Reachable (Step UInt64.ofNat) Initial (two_locked UInt64.ofNat) ∧
      ¬ UniqueTokens (two_locked UInt64.ofNat).locks :=
  ⟨two_locked_reachable UInt64.ofNat, same_reading_same_token UInt64.ofNat⟩

end Rshs.Tokens
