/-
`webdav/ls.rs`: evaluating an `If` header against a slice of locks, walking the
locked ancestors of a path, refreshing an ancestor's lock, and the exclusive lock
that stands in a request's way.

A function of the source that reads the clock takes the reading `now`. The hash
map is iterated in the order of its entries; no result below depends on that order
except which of several candidates a refresh picks.

For each function there is one lemma that says what it returns, and the later
modules use that lemma instead of the body: `eval_if_eq_false_iff`,
`is_ancestor_of_iff`, `walk_locked_ancestors_iff`, `find_and_refresh_some`,
`find_and_refresh_none` and `check_existing_exclusive_cases`.
-/
import Rshs.IfHeader

set_option autoImplicit false

namespace Rshs.Ls

open StdPath FinMap Rshs.Webdav Rshs.IfHeader

/-! ## Conditions and lists -/

def active_slice (now : ℕ) (infos : List LockInfo) : List LockInfo := Lease.live expired now infos

/-- `IfCondition::eval_active`. -/
def eval_active (active : List LockInfo) : IfCondition → Bool
  | .StateToken t => if t = no_lock then active.isEmpty else active.any (fun l => l.token = t)
  | .Not inner => !eval_active active inner

/-- Whether a list speaks about the request path: untagged, or tagged with it. -/
def applies (request_path : List Char) (l : IfList) : Bool :=
  match l.resource_tag with
  | some tag => tag = request_path
  | none => true

def eval_if (now : ℕ) (lists : List IfList) (infos : List LockInfo)
    (request_path : List Char) : Bool :=
  if lists = [] then (active_slice now infos).isEmpty
  else
    let applicable := lists.filter (applies request_path)
    if applicable = [] then true
    else applicable.all fun l => l.conditions.all (eval_active (active_slice now infos))

/-- An `If` header fails when it is missing and the slice has an active lock, or
when one of its conditions that speak about the request is false. -/
theorem eval_if_eq_false_iff {now : ℕ} {lists : List IfList} {infos : List LockInfo}
    {request_path : List Char} :
    eval_if now lists infos request_path = false ↔
      (lists = [] ∧ active_slice now infos ≠ []) ∨
        ∃ l ∈ lists, applies request_path l = true ∧
          ∃ c ∈ l.conditions, eval_active (active_slice now infos) c = false := by
  unfold eval_if
  by_cases hnil : lists = []
  · subst hnil
    simp
  · rw [if_neg hnil]
    dsimp only
    by_cases happ : lists.filter (applies request_path) = []
    · -- no list applies: nothing fails
      rw [if_pos happ]
      constructor
      · intro h
        simp at h
      · rintro (⟨h, -⟩ | ⟨l, hl, ha, -⟩)
        · exact absurd h hnil
        · have hmem : l ∈ lists.filter (applies request_path) := List.mem_filter.mpr ⟨hl, ha⟩
          rw [happ] at hmem
          simp at hmem
    · rw [if_neg happ]
      simp only [List.all_eq_false, List.mem_filter, Bool.not_eq_true, hnil, false_and, false_or]
      constructor
      · rintro ⟨l, ⟨hl, ha⟩, c, hc, hfalse⟩
        exact ⟨l, hl, ha, c, hc, hfalse⟩
      · rintro ⟨l, hl, ha, c, hc, hfalse⟩
        exact ⟨l, ⟨hl, ha⟩, c, hc, hfalse⟩

/-- Only the active locks of a slice decide. -/
theorem eval_if_congr {now : ℕ} {lists : List IfList} {infos infos' : List LockInfo}
    {request_path : List Char} (h : active_slice now infos = active_slice now infos') :
    eval_if now lists infos request_path = eval_if now lists infos' request_path := by
  unfold eval_if
  rw [h]

/-! ## Ancestors -/

/-- `is_ancestor_of`, on the bytes of the two paths. -/
def is_ancestor_of (ancestor target : Path) : Bool :=
  let an := ancestor.bytes
  let ta := target.bytes
  if an.isEmpty || an.length ≥ ta.length then false
  else if !target.starts_with ancestor.to_buf then false
  else if an = [47] then true
  else ta[an.length]? = some 47

theorem bytes_ne_nil (p : Path) : p.bytes ≠ [] := by
  unfold Path.bytes
  split
  · simp
  · cases p with
    | nil => contradiction
    | cons n p => simp

/-- A name has at least one byte, so a path below the root is longer than `/`. -/
theorem one_lt_length_bytes {p : Path} (h : p ≠ []) : 1 < p.bytes.length := by
  cases p with
  | nil => contradiction
  | cons n p =>
    have hn : 0 < n.bytes.length := List.length_pos_iff.mpr n.legal.1
    simp only [Path.bytes, if_neg h, List.flatMap_cons, List.length_append, List.length_cons]
    omega

theorem bytes_append {p q : Path} (hp : p ≠ []) :
    Path.bytes (p ++ q) = p.bytes ++ q.flatMap (fun n => 47 :: n.bytes) := by
  have hpq : p ++ q ≠ [] := by simp [hp]
  rw [Path.bytes, if_neg hpq, Path.bytes, if_neg hp, List.flatMap_append]

/-- **The byte test is the proper-prefix test.** -/
theorem is_ancestor_of_iff {a t : Path} : is_ancestor_of a t = true ↔ a <+: t ∧ a ≠ t := by
  have hstarts : t.starts_with a.to_buf = true ↔ a <+: t :=
    Path.starts_with_iff.trans Path.comps_prefix_iff
  have hempty : a.bytes.isEmpty = false := by simpa using bytes_ne_nil a
  unfold is_ancestor_of
  dsimp only
  rw [hempty, Bool.false_or]
  constructor
  · intro h
    by_cases hlen : a.bytes.length ≥ t.bytes.length
    · rw [if_pos (by simpa using hlen)] at h
      contradiction
    · rw [if_neg (by simpa using hlen)] at h
      by_cases hpre : t.starts_with a.to_buf = true
      · refine ⟨hstarts.mp hpre, fun heq => hlen ?_⟩
        rw [heq]
      · simp [Bool.not_eq_true _ ▸ hpre] at h
  · rintro ⟨hpre, hne⟩
    obtain ⟨q, rfl⟩ := hpre
    have hq : q ≠ [] := fun h => hne (by simp [h])
    -- the path below is longer, and a separator stands where the ancestor ends
    by_cases ha : a = []
    · subst ha
      have hlen := one_lt_length_bytes hq
      have hroot : Path.bytes [] = [47] := rfl
      rw [if_neg (by simpa [hroot] using hlen), hstarts.mpr (List.prefix_append _ _)]
      simp [hroot]
    · have hbytes := bytes_append (q := q) ha
      cases q with
      | nil => contradiction
      | cons n q =>
        have hcons : (n :: q).flatMap (fun n : Name => 47 :: n.bytes)
            = 47 :: (n.bytes ++ q.flatMap (fun n => 47 :: n.bytes)) := rfl
        rw [hcons] at hbytes
        rw [if_neg (by simp [hbytes]), hstarts.mpr (List.prefix_append _ _), hbytes]
        split
        · simp at *
        · split
          · rfl
          · simp

/-- The parents of a path, nearest first, as long as they lie under the root. -/
def walk_parents (locks : LockStore) (root_canonical : PathBuf) (f : List LockInfo → Bool) :
    List Name → Bool
  | [] => false
  | _ :: above =>
    let parent : Path := above.reverse
    if !parent.starts_with root_canonical then false
    else
      (match locks.lookup parent with
        | some infos => f infos
        | none => false) || walk_parents locks root_canonical f above

/-- The entries with an infinite lock, expired or not. -/
def inf_entries (locks : LockStore) : List (Entry Path (List LockInfo)) :=
  locks.entries.filter fun e => e.2.any fun l => l.depth = .Infinity

def walk_locked_ancestors (locks : LockStore) (target : Path) (root_canonical : PathBuf)
    (f : List LockInfo → Bool) : Bool :=
  if locks.entries = [] then false
  else if inf_entries locks = [] then false
  else if (inf_entries locks).length ≤ 10 then
    (inf_entries locks).any fun e => is_ancestor_of e.1 target && f e.2
  else walk_parents locks root_canonical f target.reverse

/-- The proper ancestors whose locks the walk looks at. With more than ten
infinite locks it goes up from the target and stops at the root. -/
def Consulted (locks : LockStore) (root_canonical : PathBuf) (target p : Path) : Prop :=
  p <+: target ∧ p ≠ target ∧
    ((inf_entries locks).length ≤ 10 ∨ p.starts_with root_canonical = true)

theorem walk_parents_iff {locks : LockStore} {root : PathBuf} {f : List LockInfo → Bool}
    {names : List Name} :
    walk_parents locks root f names = true ↔
      ∃ (p : Path) (infos : _), p <+: names.reverse ∧ p ≠ names.reverse ∧ p.starts_with root = true ∧
        locks.lookup p = some infos ∧ f infos = true := by
  induction names with
  | nil =>
    simp only [walk_parents, Bool.false_eq_true, List.reverse_nil, false_iff]
    rintro ⟨p, infos, hpre, hne, -⟩
    exact hne (List.prefix_nil.mp hpre)
  | cons n above ih =>
    rw [walk_parents, List.reverse_cons]
    by_cases hroot : Path.starts_with above.reverse root = true
    · rw [hroot, Bool.not_true, if_neg Bool.false_ne_true, Bool.or_eq_true, ih]
      constructor
      · rintro (hhere | ⟨p, infos, hpre, hne, hp, hl, hf⟩)
        · cases hl : locks.lookup above.reverse with
          | none => simp [hl] at hhere
          | some infos =>
            rw [hl] at hhere
            exact ⟨above.reverse, infos, List.prefix_append _ _, by simp, hroot, hl, hhere⟩
        · refine ⟨p, infos, hpre.trans (List.prefix_append _ _), fun heq => ?_, hp, hl, hf⟩
          have hlen := hpre.length_le
          rw [heq, List.length_append, List.length_singleton] at hlen
          omega
      · rintro ⟨p, infos, hpre, hne, hp, hl, hf⟩
        -- a proper ancestor is the parent or an ancestor of the parent
        rcases List.prefix_concat_iff.mp hpre with heq | hpre'
        · exact absurd heq hne
        · by_cases hpar : p = above.reverse
          · subst hpar
            left
            rw [hl]
            exact hf
          · exact Or.inr ⟨p, infos, hpre', hpar, hp, hl, hf⟩
    · rw [Bool.not_eq_true] at hroot
      rw [hroot, Bool.not_false, if_pos rfl]
      constructor
      · intro h
        contradiction
      · rintro ⟨p, infos, hpre, hne, hp, hl, hf⟩
        -- an ancestor under the root would put the parent under the root
        rcases List.prefix_concat_iff.mp hpre with heq | hpre'
        · exact absurd heq hne
        · rw [Path.starts_with_of_prefix hp hpre'] at hroot
          contradiction

/-- The scan of the entries with an infinite lock finds the proper ancestors that
pass the test, since what passes the test has one. -/
theorem scan_iff {locks : LockStore} {target : Path} {f : List LockInfo → Bool}
    (hf : ∀ infos, f infos = true → ∃ l ∈ infos, l.depth = .Infinity) :
    ((inf_entries locks).any fun e => is_ancestor_of e.1 target && f e.2) = true ↔
      ∃ p infos, p <+: target ∧ p ≠ target ∧ locks.lookup p = some infos ∧ f infos = true := by
  rw [List.any_eq_true]
  constructor
  · rintro ⟨⟨p, infos⟩, hmem, htest⟩
    rw [Bool.and_eq_true, is_ancestor_of_iff] at htest
    have hl : locks.lookup p = some infos :=
      AList.mem_lookup_iff.mpr (List.mem_filter.mp hmem).1
    exact ⟨p, infos, htest.1.1, htest.1.2, hl, htest.2⟩
  · rintro ⟨p, infos, hpre, hne, hl, hfi⟩
    obtain ⟨l, hmem, hd⟩ := hf infos hfi
    have hany : (infos.any fun l => decide (l.depth = .Infinity)) = true :=
      List.any_eq_true.mpr ⟨l, hmem, by simp [hd]⟩
    refine ⟨⟨p, infos⟩, List.mem_filter.mpr ⟨AList.mem_lookup_iff.mp hl, hany⟩, ?_⟩
    rw [Bool.and_eq_true, is_ancestor_of_iff]
    exact ⟨⟨hpre, hne⟩, hfi⟩

/-- **What the walk finds.** For a test that needs an infinite lock, the walk
succeeds exactly when some consulted ancestor passes the test. -/
theorem walk_locked_ancestors_iff {locks : LockStore} {target : Path} {root : PathBuf}
    {f : List LockInfo → Bool}
    (hf : ∀ infos, f infos = true → ∃ l ∈ infos, l.depth = .Infinity) :
    walk_locked_ancestors locks target root f = true ↔
      ∃ p infos, Consulted locks root target p ∧ locks.lookup p = some infos ∧
        f infos = true := by
  have hwalk : walk_locked_ancestors locks target root f =
      if (inf_entries locks).length ≤ 10 then
        (inf_entries locks).any fun e => is_ancestor_of e.1 target && f e.2
      else walk_parents locks root f target.reverse := by
    unfold walk_locked_ancestors
    by_cases hinf : inf_entries locks = []
    · simp [hinf]
    · have hne : locks.entries ≠ [] := fun h => hinf (by simp [inf_entries, h])
      rw [if_neg hne, if_neg hinf]
  rw [hwalk]
  by_cases hten : (inf_entries locks).length ≤ 10
  · rw [if_pos hten, scan_iff hf]
    -- the walk has stopped at an ancestor, or none is left
    constructor
    · rintro ⟨p, infos, hpre, hne, hl, hfi⟩
      exact ⟨p, infos, ⟨hpre, hne, Or.inl hten⟩, hl, hfi⟩
    · rintro ⟨p, infos, ⟨hpre, hne, -⟩, hl, hfi⟩
      exact ⟨p, infos, hpre, hne, hl, hfi⟩
  · rw [if_neg hten, walk_parents_iff, List.reverse_reverse]
    constructor
    · rintro ⟨p, infos, hpre, hne, hp, hl, hfi⟩
      exact ⟨p, infos, ⟨hpre, hne, Or.inr hp⟩, hl, hfi⟩
    · rintro ⟨p, infos, ⟨hpre, hne, hcon⟩, hl, hfi⟩
      exact ⟨p, infos, hpre, hne, hcon.resolve_left hten, hl, hfi⟩

/-! ## Refreshing a lock of an ancestor -/

/-- What a refresh looks for in a slice. -/
def refreshable (now : ℕ) (predicate : LockInfo → Bool) (l : LockInfo) : Bool :=
  l.depth = .Infinity && !l.is_expired now && predicate l

/-- The inner loop: the first refreshable lock of a slice gets a new `created`. -/
def refresh_slice (now : ℕ) (predicate : LockInfo → Bool) :
    List LockInfo → Option (LockInfo × List LockInfo)
  | [] => none
  | l :: infos =>
    if refreshable now predicate l then
      let lock := { l with created := now }
      some (lock, lock :: infos)
    else (refresh_slice now predicate infos).map fun r => (r.1, l :: r.2)

/-- The outer loop over the candidate paths. -/
def refresh_candidates (now : ℕ) (predicate : LockInfo → Bool) (locks : LockStore) :
    List Path → Option (LockInfo × LockStore)
  | [] => none
  | path :: candidate_paths =>
    match (locks.lookup path).bind (refresh_slice now predicate) with
    | some (lock, infos) => some (lock, locks.insert path infos)
    | none => refresh_candidates now predicate locks candidate_paths

/-- The keys that are proper ancestors of the target and hold an active infinite lock. -/
def candidate_paths (now : ℕ) (locks : LockStore) (target : Path) : List Path :=
  (locks.entries.filter fun e =>
    (e.2.any fun l => l.depth = .Infinity && !l.is_expired now) && is_ancestor_of e.1 target).map
    Sigma.fst

def find_and_refresh_ancestor_lock (now : ℕ) (locks : LockStore) (target : Path)
    (predicate : LockInfo → Bool) : Option (LockInfo × LockStore) :=
  refresh_candidates now predicate locks (candidate_paths now locks target)

theorem refresh_slice_some {now : ℕ} {predicate : LockInfo → Bool} {infos infos' : List LockInfo}
    {lock : LockInfo} (h : refresh_slice now predicate infos = some (lock, infos')) :
    ∃ pre l post, infos = pre ++ l :: post ∧ refreshable now predicate l = true ∧
      lock = { l with created := now } ∧ infos' = pre ++ lock :: post := by
  induction infos generalizing infos' with
  | nil => simp [refresh_slice] at h
  | cons l infos ih =>
    rw [refresh_slice] at h
    split at h
    · rename_i hl
      simp only [Option.some.injEq, Prod.mk.injEq] at h
      obtain ⟨rfl, rfl⟩ := h
      exact ⟨[], l, infos, rfl, hl, rfl, rfl⟩
    · obtain ⟨⟨lock', infos''⟩, hr, heq⟩ := Option.map_eq_some_iff.mp h
      simp only [Prod.mk.injEq] at heq
      obtain ⟨rfl, rfl⟩ := heq
      obtain ⟨pre, x, post, h1, h2, h3, h4⟩ := ih hr
      exact ⟨l :: pre, x, post, by rw [h1, List.cons_append], h2, h3, by rw [h4, List.cons_append]⟩

theorem refresh_slice_none {now : ℕ} {predicate : LockInfo → Bool} {infos : List LockInfo} :
    refresh_slice now predicate infos = none ↔ ∀ l ∈ infos, refreshable now predicate l = false := by
  induction infos with
  | nil => simp [refresh_slice]
  | cons l infos ih =>
    rw [refresh_slice]
    by_cases hl : refreshable now predicate l = true
    · simp [hl]
    · rw [if_neg hl, Option.map_eq_none_iff, ih]
      simp [hl]

theorem mem_candidate_paths {now : ℕ} {locks : LockStore} {target p : Path} :
    p ∈ candidate_paths now locks target ↔
      ∃ infos, locks.lookup p = some infos ∧ p <+: target ∧ p ≠ target ∧
        ∃ l ∈ infos, l.depth = .Infinity ∧ l.is_expired now = false := by
  unfold candidate_paths
  rw [List.mem_map]
  constructor
  · rintro ⟨⟨q, infos⟩, hmem, rfl⟩
    obtain ⟨hin, htest⟩ := List.mem_filter.mp hmem
    rw [Bool.and_eq_true, is_ancestor_of_iff] at htest
    refine ⟨infos, AList.mem_lookup_iff.mpr hin, htest.2.1, htest.2.2, ?_⟩
    simpa using htest.1
  · rintro ⟨infos, hl, hpre, hne, hex⟩
    refine ⟨⟨p, infos⟩, List.mem_filter.mpr ⟨AList.mem_lookup_iff.mp hl, ?_⟩, rfl⟩
    rw [Bool.and_eq_true, is_ancestor_of_iff]
    exact ⟨by simpa using hex, hpre, hne⟩

theorem refresh_candidates_some {now : ℕ} {predicate : LockInfo → Bool} {locks locks' : LockStore}
    {paths : List Path} {lock : LockInfo}
    (h : refresh_candidates now predicate locks paths = some (lock, locks')) :
    ∃ p ∈ paths, ∃ infos infos', locks.lookup p = some infos ∧
      refresh_slice now predicate infos = some (lock, infos') ∧ locks' = locks.insert p infos' := by
  induction paths with
  | nil => simp [refresh_candidates] at h
  | cons p paths ih =>
    rw [refresh_candidates] at h
    split at h
    · rename_i lock' infos' hr
      simp only [Option.some.injEq, Prod.mk.injEq] at h
      obtain ⟨rfl, rfl⟩ := h
      obtain ⟨infos, hl, hr⟩ := Option.bind_eq_some_iff.mp hr
      exact ⟨p, List.mem_cons_self, infos, infos', hl, hr, rfl⟩
    · obtain ⟨q, hq, rest⟩ := ih h
      exact ⟨q, List.mem_cons_of_mem p hq, rest⟩

theorem refresh_candidates_none {now : ℕ} {predicate : LockInfo → Bool} {locks : LockStore}
    {paths : List Path} (h : refresh_candidates now predicate locks paths = none) :
    ∀ p ∈ paths, (locks.lookup p).bind (refresh_slice now predicate) = none := by
  induction paths with
  | nil => simp
  | cons p paths ih =>
    rw [refresh_candidates] at h
    split at h
    · simp at h
    · rename_i hnone
      intro q hq
      rcases List.mem_cons.mp hq with rfl | hq
      · exact hnone
      · exact ih h q hq

/-- **A refresh writes one `created`.** It happens at a proper ancestor of the
target, to an active infinite lock the predicate accepts. -/
theorem find_and_refresh_some {now : ℕ} {predicate : LockInfo → Bool} {locks locks' : LockStore}
    {target : Path} {lock : LockInfo}
    (h : find_and_refresh_ancestor_lock now locks target predicate = some (lock, locks')) :
    ∃ p pre l post, p <+: target ∧ p ≠ target ∧ locks.lookup p = some (pre ++ l :: post) ∧
      l.depth = .Infinity ∧ l.is_expired now = false ∧ predicate l = true ∧
      lock = { l with created := now } ∧ locks' = locks.insert p (pre ++ lock :: post) := by
  obtain ⟨p, hp, infos, infos', hl, hr, rfl⟩ := refresh_candidates_some h
  obtain ⟨_, _, hpre, hne, -⟩ := mem_candidate_paths.mp hp
  obtain ⟨pre, l, post, rfl, href, hlock, rfl⟩ := refresh_slice_some hr
  unfold refreshable at href
  simp only [Bool.and_eq_true, decide_eq_true_eq, Bool.not_eq_true'] at href
  exact ⟨p, pre, l, post, hpre, hne, hl, href.1.1, href.1.2, href.2, hlock, rfl⟩

/-- No refresh happens exactly when the predicate rejects every active infinite
lock of every proper ancestor. -/
theorem find_and_refresh_none {now : ℕ} {predicate : LockInfo → Bool} {locks : LockStore}
    {target : Path} :
    find_and_refresh_ancestor_lock now locks target predicate = none ↔
      ∀ p infos, p <+: target → p ≠ target → locks.lookup p = some infos →
        ∀ l ∈ infos, l.depth = .Infinity → l.is_expired now = false → predicate l = false := by
  constructor
  · intro h p infos hpre hne hl l hmem hd hexp
    have hp : p ∈ candidate_paths now locks target :=
      mem_candidate_paths.mpr ⟨infos, hl, hpre, hne, l, hmem, hd, hexp⟩
    have hnone := refresh_candidates_none h p hp
    rw [hl, Option.bind_some, refresh_slice_none] at hnone
    have := hnone l hmem
    simpa [refreshable, hd, hexp] using this
  · intro h
    cases hr : find_and_refresh_ancestor_lock now locks target predicate with
    | none => rfl
    | some r =>
      obtain ⟨p, pre, l, post, hpre, hne, hl, hd, hexp, hpred, -, -⟩ := find_and_refresh_some hr
      rw [h p _ hpre hne hl l (by simp) hd hexp] at hpred
      contradiction

/-! ## The exclusive lock in the way -/

def check_existing_exclusive (now : ℕ) (entry : List LockInfo) (if_tokens : List String) :
    Except StatusCode (Option String) :=
  match ((active_slice now entry).find? LockInfo.is_exclusive).map LockInfo.token with
  | some t => if if_tokens.contains t then .ok (some t) else .error .LOCKED
  | none => .ok none

/-- The three answers: no active exclusive lock, one whose token was presented, one
whose token was not. -/
theorem check_existing_exclusive_cases (now : ℕ) (entry : List LockInfo)
    (if_tokens : List String) :
    (check_existing_exclusive now entry if_tokens = .ok none ∧
      ∀ l ∈ active_slice now entry, l.is_exclusive = false) ∨
    ∃ l ∈ active_slice now entry, l.is_exclusive = true ∧
      (check_existing_exclusive now entry if_tokens = .ok (some l.token) ∧ l.token ∈ if_tokens ∨
        check_existing_exclusive now entry if_tokens = .error .LOCKED ∧ l.token ∉ if_tokens) := by
  unfold check_existing_exclusive
  cases hfind : (active_slice now entry).find? LockInfo.is_exclusive with
  | none =>
    left
    refine ⟨rfl, fun l hl => ?_⟩
    simpa using List.find?_eq_none.mp hfind l hl
  | some l =>
    right
    refine ⟨l, List.mem_of_find?_eq_some hfind, List.find?_some hfind, ?_⟩
    by_cases ht : l.token ∈ if_tokens
    · exact Or.inl ⟨by simp [ht], ht⟩
    · exact Or.inr ⟨by simp [ht], ht⟩

end Rshs.Ls
