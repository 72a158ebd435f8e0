/-
Which `If` headers the lock check is sound against.

`lock_enforce` promises to stop a write when an exclusive lock covers its target
and the request does not name that lock's token. What it evaluates is the header's
conditions, and a header can make every condition true without naming the token:
`(Not <urn:x>)` does, and so does a list tagged with another resource. The theorem
here says for every store, target and header when the promise is kept: a condition
that speaks about the request fails at one of the slices it is evaluated at.

`Fails` says what makes a condition false in the terms of the protocol, without the
evaluator; a parsed condition has at most one `Not` (`parse_if_header_simple`), so
four cases are all.

Three more questions about the same check follow: what it says without a header,
how it joins the lists of a header, and whether it lets the holder of the only
covering lock in.
-/
import Rshs.LockMw

set_option autoImplicit false

namespace Rshs.Enforcement

open StdPath Rshs.Webdav Rshs.IfHeader Rshs.Ls Rshs.LockMw

/-! ## The promise -/

/-- The lock is active and covers the target: it is stored there, or it is an
infinite lock of a proper ancestor. -/
def Covers (now : ℕ) (locks : LockStore) (target : Path) (l : LockInfo) : Prop :=
  l ∈ active_slice now (locks.at target) ∨
    ∃ p, p <+: target ∧ p ≠ target ∧ l ∈ active_slice now (locks.at p) ∧ l.depth = .Infinity

/-- Some list has the token as a non-negated state token. -/
def Names (lists : List IfList) (token : String) : Prop :=
  ∃ l ∈ lists, token ∈ l.positive_tokens

/-- The request passes the middleware as far as its target is concerned. -/
def LetsThrough (now : ℕ) (locks : LockStore) (root : PathBuf) (target : Path)
    (headers : HeaderMap) (request_path : List Char) : Prop :=
  precondition_failed headers = false ∧
    is_path_locked now locks target (parse_if_header headers) root request_path = false

/-- A write that is let through has named the token of every exclusive lock that
covers its target. -/
def Sound (now : ℕ) (locks : LockStore) (root : PathBuf) (target : Path)
    (headers : HeaderMap) (request_path : List Char) : Prop :=
  LetsThrough now locks root target headers request_path →
    ∀ l, Covers now locks target l → l.is_exclusive = true →
      Names (parse_if_header headers) l.token

/-! ## What makes a condition false -/

inductive Fails (active : List LockInfo) : IfCondition → Prop
  | token (t : String) (ht : t ≠ no_lock) (h : ∀ l ∈ active, l.token ≠ t) :
      Fails active (.StateToken t)
  | not_token (t : String) (ht : t ≠ no_lock) (l : LockInfo) (hl : l ∈ active)
      (h : l.token = t) : Fails active (.Not (.StateToken t))
  | locked (h : active ≠ []) : Fails active (.StateToken no_lock)
  | unlocked (h : active = []) : Fails active (.Not (.StateToken no_lock))

theorem eval_state_token {active : List LockInfo} {t : String} :
    eval_active active (.StateToken t) = true ↔
      if t = no_lock then active = [] else ∃ l ∈ active, l.token = t := by
  unfold eval_active
  split
  · simp
  · simp

theorem eval_active_eq_false_iff {active : List LockInfo} {c : IfCondition} (hc : c.Simple) :
    eval_active active c = false ↔ Fails active c := by
  have htoken := @eval_state_token active
  -- a token or a negated one, each of them possibly the one that no lock has
  obtain ⟨t, rfl | rfl⟩ := hc
  · rw [← Bool.not_eq_true, htoken]
    by_cases ht : t = no_lock
    · rw [if_pos ht, ht]
      constructor
      · intro h
        exact Fails.locked h
      · intro h
        cases h with
        | token _ hne _ => exact absurd rfl hne
        | locked h => exact h
    · rw [if_neg ht]
      constructor
      · intro h
        exact Fails.token t ht (fun l hl heq => h ⟨l, hl, heq⟩)
      · rintro h ⟨l, hl, heq⟩
        cases h with
        | token _ _ hnone => exact hnone l hl heq
        | locked _ => exact ht rfl
  · rw [eval_active, Bool.not_eq_false', htoken]
    by_cases ht : t = no_lock
    · rw [if_pos ht, ht]
      constructor
      · intro h
        exact Fails.unlocked h
      · intro h
        cases h with
        | not_token _ hne _ _ _ => exact absurd rfl hne
        | unlocked h => exact h
    · rw [if_neg ht]
      constructor
      · rintro ⟨l, hl, heq⟩
        exact Fails.not_token t ht l hl heq
      · intro h
        cases h with
        | not_token _ _ l hl heq => exact ⟨l, hl, heq⟩
        | unlocked _ => exact absurd rfl ht

/-- The header stops the request at the slice of `p`: there is no header and a lock
is active, or a condition that speaks about the request is false. -/
def Stops (now : ℕ) (locks : LockStore) (lists : List IfList) (request_path : List Char)
    (p : Path) : Prop :=
  (lists = [] ∧ active_slice now (locks.at p) ≠ []) ∨
    ∃ l ∈ lists, (l.resource_tag = none ∨ l.resource_tag = some request_path) ∧
      ∃ c ∈ l.conditions, Fails (active_slice now (locks.at p)) c

theorem eval_if_stops {now : ℕ} {locks : LockStore} {headers : HeaderMap}
    {request_path : List Char} {p : Path} :
    eval_if now (parse_if_header headers) (locks.at p) request_path = false ↔
      Stops now locks (parse_if_header headers) request_path p := by
  have happlies : ∀ l : IfList, applies request_path l = true ↔
      (l.resource_tag = none ∨ l.resource_tag = some request_path) := by
    intro l
    unfold applies
    cases l.resource_tag with
    | none => simp
    | some tag => simp
  rw [eval_if_eq_false_iff, Stops]
  refine or_congr Iff.rfl (exists_congr fun l => and_congr_right fun hl => ?_)
  rw [happlies]
  refine and_congr_right fun _ => exists_congr fun c => and_congr_right fun hc => ?_
  exact eval_active_eq_false_iff (parse_if_header_simple headers l hl c hc)

/-- The header of a request that is answered with 412: lists without a token, and
no `Lock-Token` header. -/
def NoTokenAtAll (headers : HeaderMap) : Prop :=
  parse_if_header headers ≠ [] ∧ headers.lock_token = none ∧
    ∀ l ∈ parse_if_header headers, ∀ t,
      IfCondition.StateToken t ∈ l.conditions ∨ .Not (.StateToken t) ∈ l.conditions → t = no_lock

theorem has_lock_token_iff {l : IfList} : l.has_lock_token = true ↔
    ∃ t, t ≠ no_lock ∧
      (IfCondition.StateToken t ∈ l.conditions ∨ .Not (.StateToken t) ∈ l.conditions) := by
  unfold IfList.has_lock_token
  rw [List.any_eq_true]
  constructor
  · rintro ⟨c, hc, htest⟩
    split at htest
    · exact ⟨_, by simpa using htest, Or.inl hc⟩
    · exact ⟨_, by simpa using htest, Or.inr hc⟩
    · simp at htest
  · rintro ⟨t, ht, hc | hc⟩
    · exact ⟨_, hc, by simpa using ht⟩
    · exact ⟨_, hc, by simpa using ht⟩

theorem precondition_failed_iff {headers : HeaderMap} :
    precondition_failed headers = true ↔ NoTokenAtAll headers := by
  unfold precondition_failed NoTokenAtAll
  dsimp only
  simp only [Bool.and_eq_true, Bool.not_eq_true', List.isEmpty_eq_false_iff, List.any_eq_false,
    Option.isNone_iff_eq_none, has_lock_token_iff]
  constructor
  · rintro ⟨⟨hne, hnone⟩, htok⟩
    refine ⟨hne, htok, fun l hl t hc => ?_⟩
    by_contra ht
    exact hnone l hl ⟨t, ht, hc⟩
  · rintro ⟨hne, htok, hnone⟩
    refine ⟨⟨hne, ?_⟩, htok⟩
    rintro l hl ⟨t, ht, hc⟩
    exact ht (hnone l hl t hc)

/-! ## When the promise is kept -/

/-- What stops a write is the header, at a path where it is evaluated. -/
theorem is_path_locked_stops {now : ℕ} {locks : LockStore} {root : PathBuf} {target : Path}
    {headers : HeaderMap} {request_path : List Char} :
    is_path_locked now locks target (parse_if_header headers) root request_path = true ↔
      ∃ p, Evaluated now locks root target p ∧
        Stops now locks (parse_if_header headers) request_path p := by
  rw [is_path_locked_iff]
  exact exists_congr fun p => and_congr_right fun _ => eval_if_stops

/-- **When enforcement is sound.** For every store, target, header and request
path: the promise is kept exactly when every covering exclusive lock is named, or
the header names no token at all and is refused for that, or it stops the request
at the target or at a consulted ancestor with an active infinite lock. -/
theorem enforcement_sound_iff (now : ℕ) (locks : LockStore) (root : PathBuf) (target : Path)
    (headers : HeaderMap) (request_path : List Char) :
    Sound now locks root target headers request_path ↔
      (∀ l, Covers now locks target l → l.is_exclusive = true →
          Names (parse_if_header headers) l.token) ∨
        NoTokenAtAll headers ∨
        ∃ p, Evaluated now locks root target p ∧
          Stops now locks (parse_if_header headers) request_path p := by
  rw [← is_path_locked_stops, ← precondition_failed_iff]
  unfold Sound LetsThrough
  constructor
  · intro h
    by_cases hgate : precondition_failed headers = true
    · exact Or.inr (Or.inl hgate)
    · by_cases hstop :
          is_path_locked now locks target (parse_if_header headers) root request_path = true
      · exact Or.inr (Or.inr hstop)
      · exact Or.inl (h ⟨by simpa using hgate, by simpa using hstop⟩)
  · rintro (hnamed | hgate | hstop) ⟨hpass, hopen⟩
    · exact hnamed
    · rw [hgate] at hpass
      contradiction
    · rw [hstop] at hopen
      contradiction

/-- An exclusive lock on `/f`, under the token `t`. -/
def one_lock : LockStore :=
  AList.insert [f_name]
    [{ scope := .Exclusive, token := "t", owner := none, created := 0, timeout := none,
       depth := .Zero }] ∅

/-- `If: (Not <urn:x>)` names no lock's token and passes. -/
theorem not_header_unsound :
    ¬ Sound 1 one_lock (Path.to_buf []) [f_name]
      { if_header := some (header_value "(Not <urn:x>)") } "/f".toList := by
  intro h
  have hthrough : LetsThrough 1 one_lock (Path.to_buf []) [f_name]
      { if_header := some (header_value "(Not <urn:x>)") } "/f".toList := ⟨by decide, by decide⟩
  have hlists : parse_if_header { if_header := some (header_value "(Not <urn:x>)") }
      = [⟨none, [.Not (.StateToken "urn:x")]⟩] := by decide
  obtain ⟨l, hl, ht⟩ := h hthrough _ (Or.inl List.mem_cons_self) rfl
  rw [hlists, List.mem_singleton] at hl
  subst hl
  cases ht

/-! ## Without a header

What is asked without a header is whether a lock is in force at one of the paths
the check looks at. A path with a lock is a key of the store, so as long as the keys
lie under the root the walk looks at every ancestor that matters, whichever of its
two ways it takes. -/

theorem eval_if_nil {now : ℕ} {infos : List LockInfo} {request_path : List Char} :
    eval_if now [] infos request_path = false ↔ active_slice now infos ≠ [] := by
  rw [eval_if_eq_false_iff]
  simp

/-- A path with an active lock is a key. -/
theorem mem_of_active {now : ℕ} {locks : LockStore} {p : Path} {l : LockInfo}
    (h : l ∈ active_slice now (locks.at p)) : p ∈ locks := by
  by_contra hp
  have hat : locks.at p = [] := by simp [LockStore.at, FinMap.get_or, AList.lookup_eq_none.mpr hp]
  rw [hat] at h
  simp [active_slice] at h

/-- **Without an `If` header the check is exact**: a target is locked when a lock
covers it. -/
theorem bare_locked_iff (now : ℕ) (locks : LockStore) (root : PathBuf) (target : Path)
    (request_path : List Char) (hkeys : ∀ p ∈ locks, p.starts_with root = true) :
    is_path_locked now locks target [] root request_path = true ↔
      ∃ l, Covers now locks target l := by
  rw [is_path_locked_iff]
  constructor
  · rintro ⟨p, rfl | ⟨hcon, l, hl, hd⟩, heval⟩
    · -- stopped at the target: any active lock there will do
      have hne := eval_if_nil.mp heval
      have hl := List.head_mem hne
      exact ⟨_, Or.inl hl⟩
    · exact ⟨l, Or.inr ⟨p, hcon.1, hcon.2.1, hl, hd⟩⟩
  · rintro ⟨l, hl | ⟨p, hpre, hne, hl, hd⟩⟩
    · exact ⟨target, Or.inl rfl, eval_if_nil.mpr (List.ne_nil_of_mem hl)⟩
    · have hcon : Consulted locks root target p :=
        ⟨hpre, hne, Or.inr (hkeys p (mem_of_active hl))⟩
      exact ⟨p, Or.inr ⟨hcon, l, hl, hd⟩, eval_if_nil.mpr (List.ne_nil_of_mem hl)⟩

theorem bare_locked_iff_file :
    is_path_locked 1 one_lock [f_name] [] (Path.to_buf []) "/f".toList = true ↔
      ∃ l, Covers 1 one_lock [f_name] l :=
  bare_locked_iff 1 one_lock (Path.to_buf []) [f_name] "/f".toList (by decide)

/-! ## The lists of a header -/

/-- What a condition says about the active locks of a resource. -/
def Holds (active : List LockInfo) : IfCondition → Prop
  | .StateToken t => if t = no_lock then active = [] else ∃ l ∈ active, l.token = t
  | .Not inner => ¬ Holds active inner

theorem eval_active_iff {active : List LockInfo} {c : IfCondition} :
    eval_active active c = true ↔ Holds active c := by
  induction c with
  | StateToken t => exact eval_state_token
  | Not inner ih =>
    rw [eval_active, Holds, ← ih]
    simp

/-- A list holds when all its conditions do. -/
def ListHolds (now : ℕ) (infos : List LockInfo) (l : IfList) : Prop :=
  ∀ c ∈ l.conditions, Holds (active_slice now infos) c

/-- `eval_if` takes the lists of a header together: every one that speaks about the
request must hold. -/
theorem eval_if_iff {now : ℕ} {lists : List IfList} {infos : List LockInfo}
    {request_path : List Char} (hne : lists ≠ []) :
    eval_if now lists infos request_path = true ↔
      ∀ l ∈ lists, applies request_path l = true → ListHolds now infos l := by
  rw [← Bool.not_eq_false, eval_if_eq_false_iff]
  simp only [hne, false_and, false_or]
  constructor
  · intro h l hl ha c hc
    apply eval_active_iff.mp
    by_contra hfalse
    exact h ⟨l, hl, ha, c, hc, by simpa using hfalse⟩
  · rintro h ⟨l, hl, ha, c, hc, hfalse⟩
    have hholds := eval_active_iff.mpr (h l hl ha c hc)
    rw [hfalse] at hholds
    contradiction

/-- **When the lists of a header are alternatives**, as `IfList` has it: as long as
those that speak about the request agree. -/
theorem alternatives_iff (now : ℕ) (lists : List IfList) (infos : List LockInfo)
    (request_path : List Char) (happ : ∃ l ∈ lists, applies request_path l = true) :
    (eval_if now lists infos request_path = true ↔
        ∃ l ∈ lists, applies request_path l = true ∧ ListHolds now infos l) ↔
      (∀ l ∈ lists, applies request_path l = true → ListHolds now infos l) ∨
        ∀ l ∈ lists, applies request_path l = true → ¬ ListHolds now infos l := by
  obtain ⟨l₀, hl₀, ha₀⟩ := happ
  rw [eval_if_iff (List.ne_nil_of_mem hl₀)]
  constructor
  · intro h
    by_cases hall : ∀ l ∈ lists, applies request_path l = true → ListHolds now infos l
    · exact Or.inl hall
    · -- one of them fails, so the header does, and none may hold
      right
      intro l hl ha hholds
      exact hall (h.mpr ⟨l, hl, ha, hholds⟩)
  · rintro (hall | hnone)
    · exact ⟨fun _ => ⟨l₀, hl₀, ha₀, hall l₀ hl₀ ha₀⟩, fun _ => hall⟩
    · constructor
      · intro h
        exact absurd (h l₀ hl₀ ha₀) (hnone l₀ hl₀ ha₀)
      · rintro ⟨l, hl, ha, hholds⟩
        exact absurd hholds (hnone l hl ha)

theorem alternatives_iff_one :
    (eval_if 1 [⟨none, [.StateToken "t"]⟩] [] "/f".toList = true ↔
        ∃ l ∈ [(⟨none, [.StateToken "t"]⟩ : IfList)], applies "/f".toList l = true ∧
          ListHolds 1 [] l) ↔
      (∀ l ∈ [(⟨none, [.StateToken "t"]⟩ : IfList)], applies "/f".toList l = true →
          ListHolds 1 [] l) ∨
        ∀ l ∈ [(⟨none, [.StateToken "t"]⟩ : IfList)], applies "/f".toList l = true →
          ¬ ListHolds 1 [] l :=
  alternatives_iff 1 _ [] "/f".toList ⟨_, List.mem_cons_self, rfl⟩

/-- `If: (<t>) (<u>)` where the lock is `t`: the first list holds, the header fails. -/
theorem two_lists_fail :
    ¬ (eval_if 1 (parse_if_header { if_header := some (header_value "(<t>) (<u>)") })
          (one_lock.at [f_name]) "/f".toList = true ↔
        ∃ l ∈ parse_if_header { if_header := some (header_value "(<t>) (<u>)") },
          applies "/f".toList l = true ∧ ListHolds 1 (one_lock.at [f_name]) l) := by
  have hlists : parse_if_header { if_header := some (header_value "(<t>) (<u>)") }
      = [⟨none, [.StateToken "t"]⟩, ⟨none, [.StateToken "u"]⟩] := by decide
  have heval : eval_if 1 [⟨none, [.StateToken "t"]⟩, ⟨none, [.StateToken "u"]⟩]
      (one_lock.at [f_name]) "/f".toList = false := by decide
  rw [hlists, heval]
  intro h
  refine absurd (h.mpr ⟨_, List.mem_cons_self, rfl, fun c hc => ?_⟩) Bool.false_ne_true
  rw [List.mem_singleton.mp hc]
  exact eval_active_iff.mp (by decide)

/-! ## The holder of the only lock

The header's one condition is evaluated at the target, and again at each ancestor
with an active infinite lock. The token answers for the slice its lock is stored in,
and for no other. -/

theorem single_token_iff {now : ℕ} {infos : List LockInfo} {request_path : List Char} {t : String} :
    eval_if now [⟨none, [.StateToken t]⟩] infos request_path = true ↔
      if t = no_lock then active_slice now infos = []
      else ∃ l ∈ active_slice now infos, l.token = t := by
  rw [eval_if_iff (List.cons_ne_nil _ _)]
  simp [ListHolds, Holds, applies]

/-- **When the holder of the only covering lock is let in** with its token: the lock
is stored at the target itself. A lock called `DAV:no-lock` would open a target it
is not seen from. -/
theorem holder_let_in_iff (now : ℕ) (locks : LockStore) (root : PathBuf) (target : Path)
    (request_path : List Char) (l : LockInfo) (hcov : Covers now locks target l)
    (honly : ∀ x, Covers now locks target x → x = l) :
    is_path_locked now locks target [⟨none, [.StateToken l.token]⟩] root request_path = false ↔
      (l.token ≠ no_lock ∧ l ∈ active_slice now (locks.at target)) ∨
        (l.token = no_lock ∧ l ∉ active_slice now (locks.at target) ∧
          ∀ p, Consulted locks root target p → l ∉ active_slice now (locks.at p)) := by
  have hopen : is_path_locked now locks target [⟨none, [.StateToken l.token]⟩] root request_path
        = false ↔
      ∀ p, Evaluated now locks root target p →
        eval_if now [⟨none, [.StateToken l.token]⟩] (locks.at p) request_path = true := by
    rw [← Bool.not_eq_true, is_path_locked_iff]
    simp
  -- what is active at the target, or infinite at an ancestor, is the one lock
  have htarget : ∀ x ∈ active_slice now (locks.at target), x = l := fun x hx => honly x (Or.inl hx)
  rw [hopen]
  by_cases ht : l.token = no_lock
  · simp only [single_token_iff, ht, if_true, ne_eq, not_true_eq_false, false_and, false_or,
      true_and]
    constructor
    · intro h
      refine ⟨fun hl => ?_, fun p hcon hl => ?_⟩
      · rw [h target (Or.inl rfl)] at hl
        simp at hl
      · by_cases hd : l.depth = .Infinity
        · rw [h p (Or.inr ⟨hcon, l, hl, hd⟩)] at hl
          simp at hl
        · -- a finite lock covers the target from the target only
          rcases hcov with hhere | ⟨-, -, -, -, hd'⟩
          · rw [h target (Or.inl rfl)] at hhere
            simp at hhere
          · exact hd hd'
    · rintro ⟨hhere, hcons⟩ p (rfl | ⟨hcon, x, hx, hd⟩)
      · apply List.eq_nil_iff_forall_not_mem.mpr
        intro x hx
        rw [htarget x hx] at hx
        exact hhere hx
      · have hxl := honly x (Or.inr ⟨p, hcon.1, hcon.2.1, hx, hd⟩)
        rw [hxl] at hx
        exact absurd hx (hcons p hcon)
  · simp only [single_token_iff, ht, if_false, ne_eq, not_false_eq_true, true_and, false_and,
      or_false]
    constructor
    · intro h
      obtain ⟨x, hx, -⟩ := h target (Or.inl rfl)
      have hxl := htarget x hx
      rw [hxl] at hx
      exact hx
    · rintro hl p (rfl | ⟨hcon, x, hx, hd⟩)
      · exact ⟨l, hl, rfl⟩
      · have hxl := honly x (Or.inr ⟨p, hcon.1, hcon.2.1, hx, hd⟩)
        exact ⟨x, hx, by rw [hxl]⟩

/-- A store with one lock has no other to cover anything. -/
theorem covers_single {now : ℕ} {k target : Path} {l₀ x : LockInfo}
    (h : Covers now (AList.insert k [l₀] ∅) target x) : x = l₀ := by
  have hat : ∀ p, x ∈ active_slice now (LockStore.at (AList.insert k [l₀] ∅) p) → x = l₀ := by
    intro p hx
    have hmem := (Lease.mem_live.mp hx).1
    rw [at_insert] at hmem
    split at hmem
    · exact List.mem_singleton.mp hmem
    · simp [LockStore.at, FinMap.get_or] at hmem
  rcases h with hx | ⟨p, -, -, hx, -⟩
  · exact hat _ hx
  · exact hat p hx

/-- The lock of `/f` in `one_lock`. -/
def file_lock : LockInfo :=
  { scope := .Exclusive, token := "t", owner := none, created := 0, timeout := none, depth := .Zero }

theorem holder_let_in_iff_file :
    is_path_locked 1 one_lock [f_name] [⟨none, [.StateToken file_lock.token]⟩]
        (Path.to_buf []) "/f".toList = false ↔
      (file_lock.token ≠ no_lock ∧
          file_lock ∈ active_slice 1 (one_lock.at [f_name])) ∨
        (file_lock.token = no_lock ∧
          file_lock ∉ active_slice 1 (one_lock.at [f_name]) ∧
          ∀ p, Consulted one_lock (Path.to_buf []) [f_name] p →
            file_lock ∉ active_slice 1 (one_lock.at p)) := by
  exact holder_let_in_iff 1 one_lock (Path.to_buf []) [f_name] "/f".toList file_lock
    (Or.inl List.mem_cons_self) (fun _ hx => covers_single hx)

/-- An infinite exclusive lock on `/d`, under the token `t`. -/
def dir_lock : LockInfo :=
  { scope := .Exclusive, token := "t", owner := none, created := 0, timeout := none,
    depth := .Infinity }

def dir_locked : LockStore := AList.insert [d_name] [dir_lock] ∅

/-- The holder of the lock on `/d` writes to `/d/f` with its token, and is refused. -/
theorem holder_locked_out :
    Covers 1 dir_locked [d_name, f_name] dir_lock ∧
    (∀ x, Covers 1 dir_locked [d_name, f_name] x → x = dir_lock) ∧
    is_path_locked 1 dir_locked [d_name, f_name]
      (parse_if_header { if_header := some (header_value "(<t>)") }) (Path.to_buf [])
      "/d/f".toList = true := by
  refine ⟨Or.inr ⟨[d_name], by decide, by decide, List.mem_cons_self, rfl⟩, ?_, by decide⟩
  intro x hx
  exact covers_single hx

end Rshs.Enforcement
