/-
Runs of the lock store: every interleaving of LOCK, UNLOCK and cleanup over the
shared map, with a clock that never goes backwards.

The state is the map, the last clock reading and the LOCKs that have given the
guard up and are creating their lock-null file. One step is one critical section,
taken at a clock reading not before the last one. A request that does not write
the map is the step `other`; the map may be iterated in another order after it.

Two results are about every reachable state: an active exclusive lock is alone at
its path (`exclusive_lock_alone`), and a step takes a lock away only from whoever
names its token (`lock_survives_step`). The second rests on the first: where the
code throws out whatever is exclusive, exclusion says that it throws out one lock.
-/
import Rshs.Lts
import Rshs.Locks

set_option autoImplicit false

namespace Rshs.LockRuns

open StdPath FinMap Rshs.Webdav Rshs.Ls Rshs.Locks

/-- The shared state of the lock system. -/
structure LockState where
  clock : ℕ
  locks : LockStore
  creating : List LockRequest

inductive Event
  | lock_begin (now : ℕ) (req : LockRequest)
  | lock_commit (now : ℕ) (req : LockRequest) (created : Bool)
  | lock_abort (now : ℕ) (req : LockRequest)
  | unlock (now : ℕ) (fs_path : Path) (token : String)
  | cleanup (now : ℕ)
  | other (now : ℕ)

section Runs

variable (default_hasher : ℕ → UInt64)

/-- One critical section. -/
inductive Step : LockState → Event → LockState → Prop
  | lock_begin (s : LockState) (now : ℕ) (req : LockRequest) (hnow : s.clock ≤ now) :
      Step s (.lock_begin now req)
        { clock := now
          locks := (first_section default_hasher now req s.locks).2
          creating := if (first_section default_hasher now req s.locks).1.isNone then
            req :: s.creating else s.creating }
  | lock_commit (s : LockState) (now : ℕ) (req : LockRequest) (created : Bool)
      (hnow : s.clock ≤ now) (hreq : req ∈ s.creating) :
      Step s (.lock_commit now req created)
        { clock := now
          locks := (second_section default_hasher now req created s.locks).2
          creating := s.creating.erase req }
  | lock_abort (s : LockState) (now : ℕ) (req : LockRequest) (hnow : s.clock ≤ now)
      (hreq : req ∈ s.creating) :
      Step s (.lock_abort now req)
        { clock := now, locks := s.locks, creating := s.creating.erase req }
  | unlock (s : LockState) (now : ℕ) (fs_path : Path) (token : String) (hnow : s.clock ≤ now) :
      Step s (.unlock now fs_path token)
        { clock := now, locks := (unlock_section fs_path token s.locks).2, creating := s.creating }
  | cleanup (s : LockState) (now : ℕ) (hnow : s.clock ≤ now) :
      Step s (.cleanup now)
        { clock := now, locks := cleanup now s.locks, creating := s.creating }
  | other (s : LockState) (now : ℕ) (locks : LockStore) (hnow : s.clock ≤ now)
      (hsame : ∀ p, locks.lookup p = s.locks.lookup p) :
      Step s (.other now) { clock := now, locks := locks, creating := s.creating }

def Initial (s : LockState) : Prop := s.locks = ∅ ∧ s.creating = []

end Runs

/-! ## Exclusion -/

/-- At every path an active exclusive lock is the only active lock. -/
def Exclusive (now : ℕ) (locks : LockStore) : Prop :=
  ∀ p, Lease.Alone LockInfo.is_exclusive (active_slice now (locks.at p))

/-- Time passes: fewer locks are active, and exclusion stays. -/
theorem Exclusive.later {now later : ℕ} {locks : LockStore} (h : Exclusive now locks)
    (hle : now ≤ later) : Exclusive later locks :=
  fun p => (h p).sublist (Lease.live_sublist expired_perishable hle)

section Sections

variable {default_hasher : ℕ → UInt64} {now : ℕ} {req : LockRequest} {locks : LockStore}
  {entry entry' : List LockInfo} {token : String}

/-- A lock joins the active ones when it has not run out already. -/
theorem active_concat (now : ℕ) (entry : List LockInfo) (l : LockInfo) :
    active_slice now (entry ++ [l]) = active_slice now entry ∨
      active_slice now (entry ++ [l]) = active_slice now entry ++ [l] := by
  unfold active_slice
  rw [Lease.live_append]
  cases hl : expired now l with
  | true =>
    left
    simp [Lease.live, hl]
  | false =>
    right
    rw [Lease.live_singleton hl]

/-- An active lock joins an entry without active locks. -/
theorem alone_of_vacant (h : active_slice now entry = []) (l : LockInfo) :
    Lease.Alone LockInfo.is_exclusive (active_slice now (entry ++ [l])) := by
  rcases active_concat now entry l with heq | heq
  · rw [heq, h]
    exact Lease.alone_iff.mpr (Or.inl (by simp))
  · rw [heq, h]
    exact Lease.alone_iff.mpr (Or.inl (by simp))

/-- A shared lock joins an entry without active exclusive locks. -/
theorem alone_of_shared (h : NoneExclusive now entry) {l : LockInfo}
    (hl : l.is_exclusive = false) :
    Lease.Alone LockInfo.is_exclusive (active_slice now (entry ++ [l])) := by
  rcases active_concat now entry l with heq | heq
  · rw [heq]
    exact Lease.alone_iff.mpr (Or.inr h)
  · rw [heq]
    exact Lease.Alone.concat_shared h hl

theorem lock_is_exclusive (req : LockRequest) (token : String) (now : ℕ) :
    (req.lock token now).is_exclusive = decide (req.lock_scope = .Exclusive) := rfl

/-- What is left of an exclusive entry without its exclusive locks is not active. -/
theorem drop_exclusive_vacant
    (h : Lease.Alone LockInfo.is_exclusive (active_slice now entry)) {l : LockInfo}
    (hl : l ∈ active_slice now entry) (hx : l.is_exclusive = true) :
    active_slice now (entry.filter (fun l => !l.is_exclusive)) = [] := by
  have hone : Lease.live expired now entry = [l] := h l hl hx
  unfold active_slice
  rw [Lease.live_filter, hone]
  simp [hx]

/-- **The granted lock respects exclusion**, whichever branch granted it. -/
theorem decision_alone (h : Lease.Alone LockInfo.is_exclusive (active_slice now entry))
    (hd : decision default_hasher now req entry = .ok (.Acquired token, entry')) :
    Lease.Alone LockInfo.is_exclusive (active_slice now (entry' ++ [req.lock token now])) := by
  have hcases := decision_cases default_hasher now req entry
  rw [hd] at hcases
  cases hcases with
  | refresh l hl hx ht hs => exact alone_of_vacant (drop_exclusive_vacant h hl hx) _
  | downgrade l hl hx ht hs => exact alone_of_vacant (drop_exclusive_vacant h hl hx) _
  | upgrade hn hs he hown => exact alone_of_vacant rfl _
  | reshare hn hs l hl =>
    -- dropping the refreshed lock leaves a part of what was active
    have hn' : NoneExclusive now (entry.filter (fun x => x.token ≠ l.token)) := by
      intro x hx
      exact hn x ((Lease.live_sublist_of_sublist List.filter_sublist).subset hx)
    exact alone_of_shared hn' (by rw [lock_is_exclusive, hs]; rfl)
  | join hn hs he hown => exact alone_of_shared hn (by rw [lock_is_exclusive, hs]; rfl)

/-- A refresh rewrites a `created`, and `created` decides no exclusion. -/
theorem refresh_exclusive {p : Path} {pre post : List LockInfo} {l lock : LockInfo}
    (h : Exclusive now locks) (hl : locks.lookup p = some (pre ++ l :: post))
    (hexp : l.is_expired now = false) (hlock : lock = { l with created := now }) :
    Exclusive now (locks.insert p (pre ++ lock :: post)) := by
  intro q
  rw [at_insert]
  split
  · have hp := h p
    have hlive : expired now lock = false := by
      rw [hlock]
      exact is_expired_refresh l now hexp
    rw [at_of_lookup hl, active_slice, Lease.live_middle (show expired now l = false from hexp)] at hp
    rw [active_slice, Lease.live_middle hlive]
    exact Lease.Alone.replace hp (by rw [hlock]; rfl)
  · exact h q

/-- Exclusion is kept where one entry is replaced by one that respects it. -/
theorem Exclusive.insert (h : Exclusive now locks) {p : Path}
    (he : Lease.Alone LockInfo.is_exclusive (active_slice now entry)) :
    Exclusive now ((or_default [] p locks : LockStore).insert p entry) := by
  intro q
  rw [at_insert]
  split
  · exact he
  · rw [at_or_default]
    exact h q

theorem Exclusive.or_default (h : Exclusive now locks) (p : Path) :
    Exclusive now (FinMap.or_default [] p locks) := by
  intro q
  rw [at_or_default]
  exact h q

theorem first_section_exclusive (h : Exclusive now locks) :
    Exclusive now (first_section default_hasher now req locks).2 := by
  rcases first_section_cases default_hasher now req locks with
    ⟨lock, locks', hfind, heq⟩ | ⟨-, ⟨status, -, heq⟩ | ⟨token, entry, hd, heq⟩ | ⟨-, heq⟩⟩
  · obtain ⟨p, pre, l, post, -, -, hl, -, hexp, -, hlock, rfl⟩ := find_and_refresh_some hfind
    rw [heq]
    exact refresh_exclusive h hl hexp hlock
  · rw [heq]
    exact h.or_default _
  · rw [heq]
    exact h.insert (decision_alone (h req.target) hd)
  · rw [heq]
    exact h.insert (Lease.alone_iff.mpr (Or.inl (by simp [active_slice])))

theorem second_section_exclusive {created : Bool} (h : Exclusive now locks) :
    Exclusive now (second_section default_hasher now req created locks).2 := by
  rcases second_section_cases default_hasher now req created locks with ⟨-, heq⟩ | ⟨-, heq⟩
  · rw [heq]
    exact h.or_default _
  · rw [heq]
    exact h.insert (alone_of_vacant (show active_slice now [] = [] from rfl) _)

theorem unlock_section_exclusive {fs_path : Path} (h : Exclusive now locks) :
    Exclusive now (unlock_section fs_path token locks).2 := by
  intro p
  rw [at_unlock_section]
  split
  · exact (h p).sublist (Lease.live_sublist_of_sublist List.filter_sublist)
  · exact h p

theorem cleanup_exclusive (h : Exclusive now locks) : Exclusive now (cleanup now locks) := by
  intro p
  rw [at_cleanup]
  exact (h p).sublist (Lease.live_sublist_of_sublist List.filter_sublist)

/-- One step keeps exclusion. -/
theorem step_exclusive {s t : LockState} {e : Event} (h : Exclusive s.clock s.locks)
    (hs : Step default_hasher s e t) : Exclusive t.clock t.locks := by
  cases hs with
  | lock_begin _ req hnow => exact first_section_exclusive (h.later hnow)
  | lock_commit _ req created hnow hreq => exact second_section_exclusive (h.later hnow)
  | lock_abort _ req hnow hreq => exact h.later hnow
  | unlock _ fs_path token hnow => exact unlock_section_exclusive (h.later hnow)
  | cleanup _ hnow => exact cleanup_exclusive (h.later hnow)
  | other _ locks hnow hsame =>
    intro p
    have hat : LockStore.at locks p = s.locks.at p := by simp [LockStore.at, get_or, hsame]
    rw [hat]
    exact h.later hnow p

theorem reachable_exclusive {s : LockState}
    (h : Lts.Reachable (Step default_hasher) Initial s) : Exclusive s.clock s.locks := by
  refine h.invariant (fun s₀ h₀ p => ?_) (fun _ _ _ hI hs => step_exclusive hI hs)
  rw [h₀.1]
  exact Lease.alone_iff.mpr (Or.inl (by simp [LockStore.at, get_or, active_slice]))

end Sections

/-! ## What a step takes away -/

/-- The same lock, perhaps with its time renewed. -/
def Same (l l' : LockInfo) : Prop :=
  l'.token = l.token ∧ l'.scope = l.scope ∧ l'.owner = l.owner ∧ l'.depth = l.depth

theorem Same.refl (l : LockInfo) : Same l l := ⟨rfl, rfl, rfl, rfl⟩

/-- The list still has the lock. -/
def Keeps (l : LockInfo) (infos : List LockInfo) : Prop := ∃ l' ∈ infos, Same l l'

theorem Keeps.of_mem {l : LockInfo} {infos : List LockInfo} (h : l ∈ infos) : Keeps l infos :=
  ⟨l, h, Same.refl l⟩

section Survival

variable {default_hasher : ℕ → UInt64} {now : ℕ} {req : LockRequest} {locks : LockStore}
  {entry entry' : List LockInfo} {token : String} {l : LockInfo}

/-- **A grant drops only locks whose token was presented.** -/
theorem decision_keeps (h : Lease.Alone LockInfo.is_exclusive (active_slice now entry))
    (hl : l ∈ active_slice now entry)
    (hd : decision default_hasher now req entry = .ok (.Acquired token, entry')) :
    l ∈ entry' ∨ l.token ∈ req.if_tokens := by
  have hmem : l ∈ entry := (Lease.mem_live.mp hl).1
  -- an exclusive lock that was presented is the one that goes
  have hexcl : ∀ x ∈ active_slice now entry, x.is_exclusive = true → x.token ∈ req.if_tokens →
      l ∈ entry.filter (fun l => !l.is_exclusive) ∨ l.token ∈ req.if_tokens := by
    intro x hx hxe hxt
    have hone : active_slice now entry = [x] := h x hx hxe
    rw [hone, List.mem_singleton] at hl
    right
    rw [hl]
    exact hxt
  have hcases := decision_cases default_hasher now req entry
  rw [hd] at hcases
  cases hcases with
  | refresh x hx hxe hxt hs => exact hexcl x hx hxe hxt
  | downgrade x hx hxe hxt hs => exact hexcl x hx hxe hxt
  | upgrade hn hs he hown => exact Or.inr (hown l hmem)
  | reshare hn hs x hx =>
    by_cases htok : l.token = x.token
    · right
      rw [htok]
      have hfound := List.find?_some hx
      simpa using hfound
    · left
      exact List.mem_filter.mpr ⟨hmem, by simpa using htok⟩
  | join hn hs he hown => exact Or.inl hmem

theorem refresh_keeps {p q : Path} {pre post : List LockInfo} {x lock : LockInfo}
    (hx : locks.lookup p = some (pre ++ x :: post)) (hlock : lock = { x with created := now })
    (hl : l ∈ locks.at q) : Keeps l (LockStore.at (locks.insert p (pre ++ lock :: post)) q) := by
  rw [at_insert]
  split
  · rename_i hq
    subst hq
    rw [at_of_lookup hx] at hl
    rcases List.mem_append.mp hl with hl | hl
    · exact Keeps.of_mem (List.mem_append_left _ hl)
    · rcases List.mem_cons.mp hl with rfl | hl
      · exact ⟨lock, by simp, by rw [hlock]; exact ⟨rfl, rfl, rfl, rfl⟩⟩
      · exact Keeps.of_mem (by simp [hl])
  · exact Keeps.of_mem hl

theorem first_section_keeps {p : Path} (h : Exclusive now locks)
    (hl : l ∈ active_slice now (locks.at p)) :
    Keeps l ((first_section default_hasher now req locks).2.at p) ∨
      (req.target = p ∧ l.token ∈ req.if_tokens) := by
  have hmem : l ∈ locks.at p := (Lease.mem_live.mp hl).1
  rcases first_section_cases default_hasher now req locks with
    ⟨lock, locks', hfind, heq⟩ | ⟨-, ⟨status, -, heq⟩ | ⟨token, entry, hd, heq⟩ | ⟨he, heq⟩⟩
  · obtain ⟨q, pre, x, post, -, -, hx, -, -, -, hlock, rfl⟩ := find_and_refresh_some hfind
    rw [heq]
    exact Or.inl (refresh_keeps hx hlock hmem)
  · rw [heq]
    left
    rw [at_or_default]
    exact Keeps.of_mem hmem
  · rw [heq]
    by_cases hp : p = req.target
    · subst hp
      rcases decision_keeps (h req.target) hl hd with hkept | htok
      · left
        rw [at_insert, if_pos rfl]
        exact Keeps.of_mem (List.mem_append_left _ hkept)
      · exact Or.inr ⟨rfl, htok⟩
    · left
      rw [at_insert, if_neg hp, at_or_default]
      exact Keeps.of_mem hmem
  · rw [heq]
    left
    rw [at_insert]
    split
    · -- the entry was empty, so it held no lock
      rename_i hp
      rw [hp, he] at hmem
      simp at hmem
    · rw [at_or_default]
      exact Keeps.of_mem hmem

theorem second_section_keeps {p : Path} {created : Bool} (hl : l ∈ locks.at p) :
    Keeps l ((second_section default_hasher now req created locks).2.at p) := by
  rcases second_section_cases default_hasher now req created locks with ⟨-, heq⟩ | ⟨he, heq⟩
  · rw [heq, at_or_default]
    exact Keeps.of_mem hl
  · rw [heq, at_insert]
    split
    · rename_i hp
      rw [hp, he] at hl
      simp at hl
    · rw [at_or_default]
      exact Keeps.of_mem hl

end Survival

section Results

variable {default_hasher : ℕ → UInt64}

/-- **Lock exclusivity.** In every reachable state, an active exclusive lock is the
only active lock of its path. -/
theorem exclusive_lock_alone {s : LockState}
    (h : Lts.Reachable (Step default_hasher) Initial s) (p : Path) (l : LockInfo)
    (hl : l ∈ active_slice s.clock (s.locks.at p)) (hx : l.is_exclusive = true) :
    active_slice s.clock (s.locks.at p) = [l] :=
  reachable_exclusive h p l hl hx

/-- `/d`. -/
def dir : Path := [d_name]

/-- A LOCK of the directory `/d`, exclusive, infinite and without an end. -/
def dir_lock : LockRequest where
  target := dir
  timeout := none
  depth := .Infinity
  if_tokens := []
  owner := none
  lock_scope := .Exclusive

/-- The state after both sections of `dir_lock`, from the empty store; the directory
was there already. -/
def dir_locked : LockState where
  clock := 2
  locks := (second_section (fun _ => 0) 2 dir_lock false
    (first_section (fun _ => 0) 1 dir_lock ∅).2).2
  creating := []

theorem dir_locked_reachable : Lts.Reachable (Step (fun _ => 0)) Initial dir_locked :=
  ⟨⟨0, ∅, []⟩, [.lock_begin 1 dir_lock, .lock_commit 2 dir_lock false], ⟨rfl, rfl⟩,
    Lts.Run.cons (Step.lock_begin _ 1 dir_lock (Nat.zero_le 1))
      (Lts.Run.single (Step.lock_commit _ 2 dir_lock false (Nat.le_succ 1) List.mem_cons_self))⟩

theorem dir_locked_at :
    dir_locked.locks.at dir = [dir_lock.lock (generate_lock_token (fun _ => 0) 2) 2] := rfl

theorem exclusive_lock_alone_dir :
    active_slice 2 (dir_locked.locks.at dir)
      = [dir_lock.lock (generate_lock_token (fun _ => 0) 2) 2] :=
  exclusive_lock_alone dir_locked_reachable dir _ List.mem_cons_self rfl

/-- **A lock is not lost to another client.** A step takes a lock away only as an UNLOCK of its
path with its token, as a LOCK of its path that presents its token, or when it has expired. -/
theorem lock_survives_step {s t : LockState} {e : Event}
    (h : Lts.Reachable (Step default_hasher) Initial s) (hs : Step default_hasher s e t)
    (p : Path) (l : LockInfo) (hl : l ∈ s.locks.at p) :
    (∃ l' ∈ t.locks.at p, l'.token = l.token ∧ l'.scope = l.scope ∧ l'.owner = l.owner ∧
        l'.depth = l.depth) ∨
      (∃ now, e = .unlock now p l.token) ∨
      (∃ now req, (e = .lock_begin now req ∨ ∃ created, e = .lock_commit now req created) ∧
        req.target = p ∧ l.token ∈ req.if_tokens) ∨
      l.is_expired t.clock = true := by
  have hexcl := reachable_exclusive h
  -- each section on its own: an active lock is given up to its token only
  cases hs with
  | lock_begin now req hnow =>
    by_cases hexp : l.is_expired now = true
    · exact Or.inr (Or.inr (Or.inr hexp))
    · have hact : l ∈ active_slice now (s.locks.at p) :=
        Lease.mem_live.mpr ⟨hl, by simpa [expired] using hexp⟩
      rcases first_section_keeps (hexcl.later hnow) hact with hkept | ⟨htarget, htok⟩
      · exact Or.inl hkept
      · exact Or.inr (Or.inr (Or.inl ⟨now, req, Or.inl rfl, htarget, htok⟩))
  | lock_commit now req created hnow hreq => exact Or.inl (second_section_keeps hl)
  | lock_abort now req hnow hreq => exact Or.inl (Keeps.of_mem hl)
  | unlock now fs_path token hnow =>
    -- an UNLOCK removes the lock with its token and no other
    by_cases hgone : p = fs_path ∧ token = l.token
    · right
      left
      exact ⟨now, by rw [hgone.1, hgone.2]⟩
    · left
      refine Keeps.of_mem ?_
      rw [at_unlock_section]
      split
      · rename_i hp
        refine List.mem_filter.mpr ⟨hl, ?_⟩
        have hne : l.token ≠ token := fun htok => hgone ⟨hp, htok.symm⟩
        simpa using hne
      · exact hl
  | cleanup now hnow =>
    by_cases hexp : l.is_expired now = true
    · exact Or.inr (Or.inr (Or.inr hexp))
    · left
      refine Keeps.of_mem ?_
      rw [at_cleanup]
      exact Lease.mem_live.mpr ⟨hl, by simpa [expired] using hexp⟩
  | other now locks hnow hsame =>
    left
    refine Keeps.of_mem ?_
    have hat : LockStore.at locks p = s.locks.at p := by simp [LockStore.at, get_or, hsame]
    rw [hat]
    exact hl

theorem lock_survives_step_cleanup :
    ∃ l' ∈ (cleanup 5 dir_locked.locks).at dir,
      l'.token = generate_lock_token (fun _ => 0) 2 ∧ l'.scope = .Exclusive ∧ l'.owner = none ∧
        l'.depth = .Infinity := by
  rcases lock_survives_step dir_locked_reachable
      (Step.cleanup dir_locked 5 (by decide)) dir
      (dir_lock.lock (generate_lock_token (fun _ => 0) 2) 2)
      (by rw [dir_locked_at]; exact List.mem_cons_self) with
    hkept | ⟨now, h⟩ | ⟨now, req, h | ⟨c, h⟩, -⟩ | hexp
  · exact hkept
  · cases h
  · cases h
  · cases h
  · cases hexp

end Results

end Rshs.LockRuns
