/-
The two ways of the ancestor walk, and the two searches for an ancestor's lock.

`walk_locked_ancestors` scans the entries with an infinite lock while there are at
most ten of them, and climbs the parents of the target otherwise. The scan compares
bytes and knows no root; the climb looks keys up and stops where the root does. As
long as the keys lie under the root, the two find the same ancestors.

The walk calls a closure, and the closure of `find_ancestor_lock` writes to the
variable it captures. `walk_locked_ancestors_with` is the walk with that variable
passed along; with a closure that writes nothing it is `walk_locked_ancestors`.
`find_and_refresh_ancestor_lock` goes through the map in its own way and stops
nowhere, and finds a lock in exactly the same stores.
-/
import Rshs.Ls

set_option autoImplicit false

namespace Rshs.Ancestors

open StdPath FinMap Rshs.Webdav Rshs.Ls

/-! ## The walk with a captured variable -/

section With

variable {σ : Type} (f : List LockInfo → σ → Bool × σ)

/-- The scan of `walk_locked_ancestors`, with what its closure captures. -/
def scan_with (target : Path) : List (Entry Path (List LockInfo)) → σ → Bool × σ
  | [], s => (false, s)
  | e :: entries, s =>
    if is_ancestor_of e.1 target then
      match f e.2 s with
      | (true, s) => (true, s)
      | (false, s) => scan_with target entries s
    else scan_with target entries s

/-- The climb of `walk_locked_ancestors`, with what its closure captures. -/
def walk_parents_with (locks : LockStore) (root_canonical : PathBuf) : List Name → σ → Bool × σ
  | [], s => (false, s)
  | _ :: above, s =>
    let parent : Path := above.reverse
    if !parent.starts_with root_canonical then (false, s)
    else
      match locks.lookup parent with
      | some infos =>
        match f infos s with
        | (true, s) => (true, s)
        | (false, s) => walk_parents_with locks root_canonical above s
      | none => walk_parents_with locks root_canonical above s

/-- `walk_locked_ancestors` with a closure that captures a state. -/
def walk_locked_ancestors_with (locks : LockStore) (target : Path) (root_canonical : PathBuf)
    (s : σ) : Bool × σ :=
  if locks.entries = [] then (false, s)
  else if inf_entries locks = [] then (false, s)
  else if (inf_entries locks).length ≤ 10 then scan_with f target (inf_entries locks) s
  else walk_parents_with f locks root_canonical target.reverse s

end With

section Pure

variable {σ : Type} {f : List LockInfo → Bool} {locks : LockStore} {root : PathBuf} {target : Path}

/-- A closure that captures nothing scans as the predicate does. -/
theorem scan_with_pure (entries : List (Entry Path (List LockInfo))) (s : σ) :
    scan_with (fun infos s => (f infos, s)) target entries s =
      (entries.any fun e => is_ancestor_of e.1 target && f e.2, s) := by
  induction entries with
  | nil => rfl
  | cons e entries ih =>
    rw [scan_with]
    by_cases hanc : is_ancestor_of e.1 target = true
    · cases hf : f e.2 <;> simp [hanc, hf, ih]
    · simp [hanc, ih]

/-- And climbs as it does. -/
theorem walk_parents_with_pure (names : List Name) (s : σ) :
    walk_parents_with (fun infos s => (f infos, s)) locks root names s =
      (walk_parents locks root f names, s) := by
  induction names with
  | nil => rfl
  | cons n above ih =>
    rw [walk_parents_with, walk_parents]
    by_cases hroot : Path.starts_with above.reverse root = true
    · cases locks.lookup above.reverse with
      | none => simp [hroot, ih]
      | some infos => cases hf : f infos <;> simp [hroot, hf, ih]
    · simp [hroot]

/-- A closure that writes nothing makes the walk the one of the lock check. -/
theorem walk_with_pure (s : σ) :
    walk_locked_ancestors_with (fun infos s => (f infos, s)) locks target root s =
      (walk_locked_ancestors locks target root f, s) := by
  unfold walk_locked_ancestors_with walk_locked_ancestors
  rw [scan_with_pure, walk_parents_with_pure]
  split_ifs <;> rfl

end Pure

/-! ## Finding a lock -/

/-- The closure that keeps what `g` finds and stops there. -/
def keep {β : Type} (g : List LockInfo → Option β) (infos : List LockInfo) (result : Option β) :
    Bool × Option β :=
  match g infos with
  | some x => (true, some x)
  | none => (false, result)

/-- `find_ancestor_lock`: the closure keeps the lock it has found. -/
def find_ancestor_lock (now : ℕ) (locks : LockStore) (target : Path) (root_canonical : PathBuf)
    (predicate : LockInfo → Bool) : Option LockInfo :=
  (walk_locked_ancestors_with (keep fun infos => infos.find? (refreshable now predicate)) locks
    target root_canonical none).2

section Keep

variable {β : Type} {g : List LockInfo → Option β} {locks : LockStore} {root : PathBuf}
  {target : Path}

/-- A scan keeps a lock if an ancestor has one. -/
theorem scan_with_keep (entries : List (Entry Path (List LockInfo))) :
    (scan_with (keep g) target entries none).2.isSome =
      entries.any fun e => is_ancestor_of e.1 target && (g e.2).isSome := by
  induction entries with
  | nil => rfl
  | cons e entries ih =>
    rw [scan_with, List.any_cons, ← ih]
    by_cases hanc : is_ancestor_of e.1 target = true
    · cases hg : g e.2 <;> simp [hanc, keep, hg]
    · simp [hanc]

/-- So does a climb. -/
theorem walk_parents_with_keep (names : List Name) :
    (walk_parents_with (keep g) locks root names none).2.isSome =
      walk_parents locks root (fun infos => (g infos).isSome) names := by
  induction names with
  | nil => rfl
  | cons n above ih =>
    rw [walk_parents_with, walk_parents, ← ih]
    by_cases hroot : Path.starts_with above.reverse root = true
    · cases locks.lookup above.reverse with
      | none => simp [hroot]
      | some infos => cases hg : g infos <;> simp [hroot, keep, hg]
    · simp [hroot]

/-- The variable is written exactly when the walk stops early. -/
theorem walk_with_keep :
    (walk_locked_ancestors_with (keep g) locks target root none).2.isSome =
      walk_locked_ancestors locks target root fun infos => (g infos).isSome := by
  unfold walk_locked_ancestors_with walk_locked_ancestors
  split_ifs
  · rfl
  · rfl
  · exact scan_with_keep _
  · exact walk_parents_with_keep _

end Keep

/-! ## The agreement -/

/-- Some proper ancestor of the target is a key whose list passes the test. -/
def SomeAncestor (locks : LockStore) (target : Path) (f : List LockInfo → Bool) : Prop :=
  ∃ p infos, p <+: target ∧ p ≠ target ∧ locks.lookup p = some infos ∧ f infos = true

/-- The scan of the entries with an infinite lock. -/
def prefix_scan (locks : LockStore) (target : Path) (f : List LockInfo → Bool) : Bool :=
  (inf_entries locks).any fun e => is_ancestor_of e.1 target && f e.2

section Agree

variable {locks : LockStore} {root : PathBuf} {target : Path} {f : List LockInfo → Bool}

/-- The climb stops where the root does, and all keys lie below. -/
theorem walk_parents_some (hkeys : ∀ p ∈ locks, p.starts_with root = true) :
    walk_parents locks root f target.reverse = true ↔ SomeAncestor locks target f := by
  rw [walk_parents_iff, List.reverse_reverse]
  constructor
  · rintro ⟨p, infos, hpre, hne, -, hl, hf⟩
    exact ⟨p, infos, hpre, hne, hl, hf⟩
  · rintro ⟨p, infos, hpre, hne, hl, hf⟩
    have hmem : p ∈ locks := AList.lookup_isSome.mp (by simp [hl])
    exact ⟨p, infos, hpre, hne, hkeys p hmem, hl, hf⟩

/-- Which of the two ways the walk takes makes no difference. -/
theorem walk_some (hkeys : ∀ p ∈ locks, p.starts_with root = true)
    (hf : ∀ infos, f infos = true → ∃ l ∈ infos, l.depth = .Infinity) :
    walk_locked_ancestors locks target root f = true ↔ SomeAncestor locks target f := by
  rw [walk_locked_ancestors_iff hf]
  constructor
  · rintro ⟨p, infos, hcon, hl, hfi⟩
    exact ⟨p, infos, hcon.1, hcon.2.1, hl, hfi⟩
  · rintro ⟨p, infos, hpre, hne, hl, hfi⟩
    have hmem : p ∈ locks := AList.lookup_isSome.mp (by simp [hl])
    exact ⟨p, infos, ⟨hpre, hne, Or.inr (hkeys p hmem)⟩, hl, hfi⟩

/-- What is found is an unexpired infinite lock that satisfies the predicate. -/
theorem find_refreshable {now : ℕ} {predicate : LockInfo → Bool} {infos : List LockInfo} :
    (infos.find? (refreshable now predicate)).isSome = true ↔
      ∃ l ∈ infos, l.depth = .Infinity ∧ l.is_expired now = false ∧ predicate l = true := by
  rw [List.find?_isSome]
  simp [refreshable, and_assoc]

/-- `find_ancestor_lock` finds a lock if some ancestor has one that can be refreshed. -/
theorem find_ancestor_lock_isSome (hkeys : ∀ p ∈ locks, p.starts_with root = true) (now : ℕ)
    (predicate : LockInfo → Bool) :
    (find_ancestor_lock now locks target root predicate).isSome = true ↔
      SomeAncestor locks target fun infos => (infos.find? (refreshable now predicate)).isSome := by
  unfold find_ancestor_lock
  rw [walk_with_keep]
  apply walk_some hkeys
  intro infos hfind
  obtain ⟨l, hl, hd, -, -⟩ := find_refreshable.mp hfind
  exact ⟨l, hl, hd⟩

theorem find_and_refresh_isSome (now : ℕ) (predicate : LockInfo → Bool) :
    (find_and_refresh_ancestor_lock now locks target predicate).isSome = true ↔
      SomeAncestor locks target fun infos => (infos.find? (refreshable now predicate)).isSome := by
  have hnone := @find_and_refresh_none now predicate locks target
  constructor
  · intro h
    by_contra hno
    refine absurd (hnone.mpr fun p infos hpre hne hl l hmem hd hexp => ?_)
      (Option.isSome_iff_ne_none.mp h)
    by_contra hpred
    refine hno ⟨p, infos, hpre, hne, hl, find_refreshable.mpr ⟨l, hmem, hd, hexp, ?_⟩⟩
    simpa using hpred
  · rintro ⟨p, infos, hpre, hne, hl, hfind⟩
    obtain ⟨l, hmem, hd, hexp, hpred⟩ := find_refreshable.mp hfind
    apply Option.isSome_iff_ne_none.mpr
    intro h
    have hfalse := hnone.mp h p infos hpre hne hl l hmem hd hexp
    rw [hfalse] at hpred
    contradiction

end Agree

/-- **The two ways of the walk agree.** With the keys under the root, and a test
that needs an infinite lock: the scan and the climb both say whether some proper
ancestor is a key whose list passes; and the search that only looks finds a lock
exactly when the search that refreshes does. -/
theorem strategies_agree (locks : LockStore) (root : PathBuf) (target : Path)
    (hkeys : ∀ p ∈ locks, p.starts_with root = true) :
    (∀ f : List LockInfo → Bool,
      (∀ infos, (∀ l ∈ infos, l.depth ≠ .Infinity) → f infos = false) →
        (prefix_scan locks target f = true ↔ SomeAncestor locks target f) ∧
        walk_parents locks root f target.reverse = prefix_scan locks target f ∧
        walk_locked_ancestors locks target root f = prefix_scan locks target f) ∧
    ∀ (now : ℕ) (predicate : LockInfo → Bool),
      (find_ancestor_lock now locks target root predicate).isSome =
        (find_and_refresh_ancestor_lock now locks target predicate).isSome := by
  refine ⟨fun f hf => ?_, fun now predicate => ?_⟩
  · have hneeds : ∀ infos, f infos = true → ∃ l ∈ infos, l.depth = .Infinity := by
      intro infos hfi
      by_contra hno
      rw [hf infos (by simpa using hno)] at hfi
      contradiction
    have hscan : prefix_scan locks target f = true ↔ SomeAncestor locks target f := scan_iff hneeds
    refine ⟨hscan, ?_, ?_⟩
    · rw [Bool.eq_iff_iff, hscan]
      exact walk_parents_some hkeys
    · rw [Bool.eq_iff_iff, hscan]
      exact walk_some hkeys hneeds
  · rw [Bool.eq_iff_iff, find_ancestor_lock_isSome hkeys, find_and_refresh_isSome]

/-- An infinite lock on the root. -/
def root_locked : LockStore :=
  AList.insert []
    [{ scope := .Exclusive, token := "t", owner := none, created := 0, timeout := none,
       depth := .Infinity }] ∅

theorem strategies_agree_root :
    walk_parents root_locked (Path.to_buf [])
        (fun infos => infos.any fun l => l.depth = .Infinity)
        (List.reverse [f_name])
      = prefix_scan root_locked [f_name]
        (fun infos => infos.any fun l => l.depth = .Infinity) :=
  ((strategies_agree root_locked (Path.to_buf []) [f_name] (by decide)).1
    (fun infos => infos.any fun l => l.depth = .Infinity) (by
      intro infos h
      simpa using h)).2.1

end Rshs.Ancestors
