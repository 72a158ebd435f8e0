/-
`middleware/lock.rs`: what stands between a write request and its handler.

`lock_enforce` first refuses an `If` header that names no token, then asks for the
source path, and for the destination path of a COPY or MOVE, whether the request
may write there. The resolver of the two paths is a parameter with a state of its
own (the server's has a cache); a path it cannot resolve is not checked, and
`lock_enforce` returns the paths it did check beside its answer.

`is_path_locked_iff` says what the check decides: the header is evaluated at the
target and at every consulted ancestor with an active infinite lock, and the path
is locked when it fails at one of them. `lock_enforce_ok` and `lock_enforce_reply` are what
the answer of the middleware says of the paths it has checked.
-/
import Rshs.Locks

set_option autoImplicit false

namespace Rshs.LockMw

open StdPath FinMap Rshs.Webdav Rshs.IfHeader Rshs.Ls

/-- The methods the middleware looks at. -/
def is_write (method : Method) : Bool :=
  method = .PUT || method = .DELETE || method = .MKCOL || method = .PROPPATCH
    || method = .MOVE || method = .COPY

/-- The `If` header that is answered with `412 Precondition Failed`: it has lists,
none names a token, and there is no `Lock-Token` header beside it. -/
def precondition_failed (headers : HeaderMap) : Bool :=
  let lists := parse_if_header headers
  !lists.isEmpty && !lists.any IfList.has_lock_token && headers.lock_token.isNone

def is_path_locked (now : ℕ) (locks : LockStore) (path : Path) (lists : List IfList)
    (root_canonical : PathBuf) (request_path : List Char) : Bool :=
  let infos := match locks.lookup path with
    | some v => v
    | none => []
  if !eval_if now lists infos request_path then true
  else
    walk_locked_ancestors locks path root_canonical fun infos =>
      (active_slice now infos).any (fun l => l.depth = .Infinity)
        && !eval_if now lists infos request_path

/-- What the middleware hands on: its answer and the paths it has checked. -/
structure Enforced where
  reply : Except StatusCode Unit
  checked : List Path

section Enforce

variable {γ : Type} (resolve : List Char → γ → Option Path × γ) (now : ℕ) (locks : LockStore)
  (root_canonical : PathBuf)

/-- One check of the middleware: on a path the resolver accepts. -/
def check_path (lists : List IfList) (request_path : List Char) (cache : γ) : Enforced × γ :=
  match resolve request_path cache with
  | (some path, cache) =>
    ({ reply := if is_path_locked now locks path lists root_canonical request_path then
          .error .LOCKED else .ok ()
       checked := [path] }, cache)
  | (none, cache) => ({ reply := .ok (), checked := [] }, cache)

def lock_enforce (method : Method) (uri_path : List Char) (headers : HeaderMap) (cache : γ) :
    Enforced × γ :=
  if !is_write method then ({ reply := .ok (), checked := [] }, cache)
  else
    let request_path := trim_end_matches '/' uri_path
    let lists := parse_if_header headers
    if precondition_failed headers then ({ reply := .error .PRECONDITION_FAILED, checked := [] }, cache)
    else
      let (src, cache) := if method = .COPY then ({ reply := .ok (), checked := [] }, cache)
        else check_path resolve now locks root_canonical lists request_path cache
      match src.reply with
      | .error _ => (src, cache)
      | .ok () =>
        if method = .COPY ∨ method = .MOVE then
          match parse_destination headers with
          | some dest =>
            let (dst, cache) := check_path resolve now locks root_canonical lists
              (trim_end_matches '/' dest) cache
            ({ reply := dst.reply, checked := src.checked ++ dst.checked }, cache)
          | none => (src, cache)
        else (src, cache)

end Enforce

/-! ## What the check decides -/

/-- The paths at which the header is evaluated: the target, and the consulted
ancestors with an active infinite lock. -/
def Evaluated (now : ℕ) (locks : LockStore) (root_canonical : PathBuf) (target p : Path) : Prop :=
  p = target ∨
    (Consulted locks root_canonical target p ∧
      ∃ l ∈ active_slice now (locks.at p), l.depth = .Infinity)

theorem is_path_locked_iff {now : ℕ} {locks : LockStore} {path : Path} {lists : List IfList}
    {root : PathBuf} {request_path : List Char} :
    is_path_locked now locks path lists root request_path = true ↔
      ∃ p, Evaluated now locks root path p ∧
        eval_if now lists (locks.at p) request_path = false := by
  have hat : (match locks.lookup path with
      | some v => v
      | none => []) = locks.at path := by
    unfold LockStore.at get_or
    cases locks.lookup path <;> rfl
  unfold is_path_locked
  dsimp only
  rw [hat]
  by_cases htarget : eval_if now lists (locks.at path) request_path = false
  · rw [htarget, Bool.not_false, if_pos rfl]
    exact ⟨fun _ => ⟨path, Or.inl rfl, htarget⟩, fun _ => rfl⟩
  · rw [Bool.not_eq_false] at htarget
    rw [htarget, Bool.not_true, if_neg Bool.false_ne_true, walk_locked_ancestors_iff]
    · constructor
      · rintro ⟨p, infos, hcon, hl, htest⟩
        rw [Bool.and_eq_true, List.any_eq_true, Bool.not_eq_true'] at htest
        obtain ⟨⟨l, hmem, hd⟩, hfalse⟩ := htest
        refine ⟨p, Or.inr ⟨hcon, l, ?_, by simpa using hd⟩, ?_⟩
        · rw [at_of_lookup hl]
          exact hmem
        · rw [at_of_lookup hl]
          exact hfalse
      · rintro ⟨p, rfl | ⟨hcon, l, hmem, hd⟩, hfalse⟩
        · rw [htarget] at hfalse
          contradiction
        · -- an active lock is stored there, so the path is a key
          cases hl : locks.lookup p with
          | none => simp [LockStore.at, get_or, hl, active_slice] at hmem
          | some infos =>
            rw [at_of_lookup hl] at hmem hfalse
            refine ⟨p, infos, hcon, hl, ?_⟩
            rw [Bool.and_eq_true, List.any_eq_true, Bool.not_eq_true']
            exact ⟨⟨l, hmem, by simpa using hd⟩, hfalse⟩
    · -- the test needs an infinite lock
      intro infos htest
      rw [Bool.and_eq_true, List.any_eq_true] at htest
      obtain ⟨l, hmem, hd⟩ := htest.1
      exact ⟨l, (Lease.mem_live.mp hmem).1, by simpa using hd⟩

section EnforceLemmas

variable {γ : Type} {resolve : List Char → γ → Option Path × γ} {now : ℕ} {locks : LockStore}
  {root : PathBuf}

/-- A check that answers Ok found its path unlocked, if it found a path. -/
theorem check_path_ok {lists : List IfList} {request_path : List Char} {cache cache' : γ}
    {e : Enforced} (h : check_path resolve now locks root lists request_path cache = (e, cache'))
    (hok : e.reply = .ok ()) :
    ∀ p ∈ e.checked, is_path_locked now locks p lists root request_path = false := by
  unfold check_path at h
  split at h
  · cases h
    intro p hp
    rw [List.mem_singleton.mp hp]
    dsimp only at hok
    split at hok
    · cases hok
    · rename_i hne
      simpa using hne
  · cases h
    simp

/-- **What a request has passed when its handler runs.** The gate, and the lock
check at every path the middleware resolved: the source under the request path, the
destination under its own. -/
theorem lock_enforce_ok {method : Method} {uri_path : List Char} {headers : HeaderMap}
    {cache cache' : γ} {e : Enforced}
    (h : lock_enforce resolve now locks root method uri_path headers cache = (e, cache'))
    (hok : e.reply = .ok ()) (hw : is_write method = true) :
    precondition_failed headers = false ∧
      ∀ p ∈ e.checked, ∃ request_path,
        is_path_locked now locks p (parse_if_header headers) root request_path = false := by
  unfold lock_enforce at h
  rw [hw, Bool.not_true, if_neg Bool.false_ne_true] at h
  dsimp only at h
  split at h
  · cases h
    cases hok
  · rename_i hgate
    refine ⟨by simpa using hgate, ?_⟩
    -- the source check, passed or skipped
    generalize hsrc : (if method = .COPY then (({ reply := .ok (), checked := [] } : Enforced), cache)
      else check_path resolve now locks root (parse_if_header headers)
        (trim_end_matches '/' uri_path) cache) = src at h
    obtain ⟨src, cache₁⟩ := src
    have hsrc_ok : src.reply = .ok () → ∀ p ∈ src.checked, ∃ request_path,
        is_path_locked now locks p (parse_if_header headers) root request_path = false := by
      intro hreply p hp
      split at hsrc
      · cases hsrc
        simp at hp
      · exact ⟨_, check_path_ok hsrc hreply p hp⟩
    dsimp only at h
    split at h
    · cases h
      exact hsrc_ok hok
    · rename_i hreply
      split at h
      · split at h
        · rename_i dest _
          cases h
          intro p hp
          rcases List.mem_append.mp hp with hp | hp
          · exact hsrc_ok hreply p hp
          · exact ⟨_, check_path_ok rfl hok p hp⟩
        · cases h
          exact hsrc_ok hok
      · cases h
        exact hsrc_ok hok

end EnforceLemmas

/-! ## Which paths are checked -/

section Checked

variable {γ : Type} {resolve : List Char → γ → Option Path × γ} {now : ℕ} {locks : LockStore}
  {root : PathBuf}

/-- A resolution leaves every other as it was. -/
def Stable (resolve : List Char → γ → Option Path × γ) : Prop :=
  ∀ s t cache, (resolve t (resolve s cache).2).1 = (resolve t cache).1

theorem check_path_snd {lists : List IfList} {request_path : List Char} {cache : γ} :
    (check_path resolve now locks root lists request_path cache).2
      = (resolve request_path cache).2 := by
  unfold check_path
  rcases resolve request_path cache with ⟨_ | p, c⟩
  · rfl
  · rfl

theorem mem_check_path {lists : List IfList} {request_path : List Char} {cache : γ} {p : Path} :
    p ∈ (check_path resolve now locks root lists request_path cache).1.checked
      ↔ (resolve request_path cache).1 = some p := by
  unfold check_path
  rcases resolve request_path cache with ⟨_ | q, c⟩
  · simp
  · simp [eq_comm]

/-- **What the middleware has checked when it lets a write through.** The path of
the request unless it is a COPY, and the destination of a COPY or MOVE, as far as
they resolve; and the cache still resolves every path as before. -/
theorem lock_enforce_checked (hstable : Stable resolve) {method : Method} {uri_path : List Char}
    {headers : HeaderMap} {cache cache' : γ} {e : Enforced}
    (h : lock_enforce resolve now locks root method uri_path headers cache = (e, cache'))
    (hok : e.reply = .ok ()) (hw : is_write method = true) :
    (∀ p, p ∈ e.checked ↔
      (method ≠ .COPY ∧ (resolve (trim_end_matches '/' uri_path) cache).1 = some p) ∨
      ((method = .COPY ∨ method = .MOVE) ∧ ∃ dest, parse_destination headers = some dest ∧
        (resolve (trim_end_matches '/' dest) cache).1 = some p)) ∧
    ∀ t, (resolve t cache').1 = (resolve t cache).1 := by
  unfold lock_enforce at h
  rw [hw, Bool.not_true, if_neg Bool.false_ne_true] at h
  dsimp only at h
  split at h
  · cases h
    cases hok
  · -- the source check and the cache it leaves
    generalize hsrc : (if method = .COPY then (({ reply := .ok (), checked := [] } : Enforced), cache)
      else check_path resolve now locks root (parse_if_header headers)
        (trim_end_matches '/' uri_path) cache) = src at h
    obtain ⟨src, cache₁⟩ := src
    -- a COPY does not write to its source, and the source is not checked
    have hsrc_mem : ∀ p, p ∈ src.checked ↔
        (method ≠ .COPY ∧ (resolve (trim_end_matches '/' uri_path) cache).1 = some p) := by
      intro p
      split at hsrc
      · rename_i hcopy
        cases hsrc
        simp [hcopy]
      · rename_i hcopy
        have hmem : p ∈ (check_path resolve now locks root (parse_if_header headers)
            (trim_end_matches '/' uri_path) cache).1.checked ↔
              (resolve (trim_end_matches '/' uri_path) cache).1 = some p := mem_check_path
        rw [hsrc] at hmem
        rw [hmem]
        simp [hcopy]
    -- the first check leaves a cache that resolves every path as before
    have hcache₁ : ∀ t, (resolve t cache₁).1 = (resolve t cache).1 := by
      intro t
      split at hsrc
      · cases hsrc
        rfl
      · have hsnd : (check_path resolve now locks root (parse_if_header headers)
            (trim_end_matches '/' uri_path) cache).2
              = (resolve (trim_end_matches '/' uri_path) cache).2 := check_path_snd
        rw [hsrc] at hsnd
        dsimp only at hsnd
        rw [hsnd]
        exact hstable _ _ _
    dsimp only at h
    split at h
    · rename_i herr
      cases h
      rw [herr] at hok
      cases hok
    · split at h
      · rename_i hcm
        split at h
        · rename_i dest hdest
          cases h
          refine ⟨fun p => ?_, fun t => ?_⟩
          -- COPY and MOVE check the destination as well
          · rw [List.mem_append, hsrc_mem, mem_check_path, hcache₁]
            constructor
            · rintro (hp | hp)
              · exact Or.inl hp
              · exact Or.inr ⟨hcm, dest, hdest, hp⟩
            · rintro (hp | ⟨-, d, hd, hp⟩)
              · exact Or.inl hp
              · rw [hdest, Option.some.injEq] at hd
                rw [hd]
                exact Or.inr hp
          · rw [check_path_snd, hstable, hcache₁]
        · rename_i hdest
          cases h
          refine ⟨fun p => ?_, hcache₁⟩
          rw [hsrc_mem]
          simp [hdest]
      · rename_i hcm
        cases h
        refine ⟨fun p => ?_, hcache₁⟩
        rw [hsrc_mem]
        simp [hcm]

theorem check_path_reply {lists : List IfList} {request_path : List Char} {cache : γ} :
    (check_path resolve now locks root lists request_path cache).1.reply = .ok () ↔
      ∀ p, (resolve request_path cache).1 = some p →
        is_path_locked now locks p lists root request_path = false := by
  unfold check_path
  rcases resolve request_path cache with ⟨_ | q, c⟩
  · simp
  · dsimp only
    split
    · rename_i hlocked
      simp [hlocked]
    · rename_i hopen
      simpa using hopen

/-- **When the middleware lets a write through**: the header is none that is answered with
412, and no path it resolves for the request is locked. -/
theorem lock_enforce_reply (hstable : Stable resolve) {method : Method} {uri_path : List Char}
    {headers : HeaderMap} {cache : γ} (hw : is_write method = true) :
    (lock_enforce resolve now locks root method uri_path headers cache).1.reply = .ok () ↔
      precondition_failed headers = false ∧
        (method ≠ .COPY → ∀ p, (resolve (trim_end_matches '/' uri_path) cache).1 = some p →
          is_path_locked now locks p (parse_if_header headers) root (trim_end_matches '/' uri_path)
            = false) ∧
        (method = .COPY ∨ method = .MOVE → ∀ dest p, parse_destination headers = some dest →
          (resolve (trim_end_matches '/' dest) cache).1 = some p →
          is_path_locked now locks p (parse_if_header headers) root (trim_end_matches '/' dest)
            = false) := by
  unfold lock_enforce
  rw [hw, Bool.not_true, if_neg Bool.false_ne_true]
  dsimp only
  split
  · rename_i hgate
    simp [hgate]
  · rename_i hgate
    rw [Bool.not_eq_true] at hgate
    simp only [hgate, true_and]
    -- the source check, passed or skipped
    generalize hsrc : (if method = .COPY then (({ reply := .ok (), checked := [] } : Enforced), cache)
      else check_path resolve now locks root (parse_if_header headers)
        (trim_end_matches '/' uri_path) cache) = src
    obtain ⟨src, cache₁⟩ := src
    have hsrc_reply : src.reply = .ok () ↔
        (method ≠ .COPY → ∀ p, (resolve (trim_end_matches '/' uri_path) cache).1 = some p →
          is_path_locked now locks p (parse_if_header headers) root (trim_end_matches '/' uri_path)
            = false) := by
      by_cases hcopy : method = .COPY
      · rw [if_pos hcopy] at hsrc
        cases hsrc
        simp [hcopy]
      · rw [if_neg hcopy] at hsrc
        rw [← check_path_reply, hsrc]
        exact ⟨fun h _ => h, fun h => h hcopy⟩
    have hcache₁ : ∀ t, (resolve t cache₁).1 = (resolve t cache).1 := by
      intro t
      by_cases hcopy : method = .COPY
      · rw [if_pos hcopy] at hsrc
        cases hsrc
        rfl
      · rw [if_neg hcopy] at hsrc
        have hsnd : (check_path resolve now locks root (parse_if_header headers)
            (trim_end_matches '/' uri_path) cache).2
              = (resolve (trim_end_matches '/' uri_path) cache).2 := check_path_snd
        rw [hsrc] at hsnd
        dsimp only at hsnd
        rw [hsnd]
        exact hstable _ _ _
    rw [← hsrc_reply]
    dsimp only
    cases hreply : src.reply with
    | error status => simp [hreply]
    | ok u =>
      dsimp only
      by_cases hcm : method = .COPY ∨ method = .MOVE
      · rw [if_pos hcm]
        cases hdest : parse_destination headers with
        | none => simp [hreply]
        | some dest =>
          dsimp only
          rw [check_path_reply, hcache₁]
          constructor
          · rintro h
            refine ⟨rfl, fun _ dest' p heq hp => ?_⟩
            cases heq
            exact h p hp
          · rintro ⟨-, h⟩ p hp
            exact h hcm dest p rfl hp
      · rw [if_neg hcm]
        simp [hreply, hcm]

/-- The texts that the middleware resolves for a request. -/
def Resolves (method : Method) (uri_path : List Char) (headers : HeaderMap) (t : List Char) : Prop :=
  (method ≠ .COPY ∧ t = trim_end_matches '/' uri_path) ∨
    ((method = .COPY ∨ method = .MOVE) ∧ ∃ dest, parse_destination headers = some dest ∧
      t = trim_end_matches '/' dest)

/-- What a resolution keeps of the cache the middleware keeps. -/
theorem lock_enforce_cache {I : γ → Prop} {method : Method} {uri_path : List Char}
    {headers : HeaderMap} {cache : γ}
    (hI : ∀ t cache, Resolves method uri_path headers t → I cache → I (resolve t cache).2)
    (h : I cache) : I (lock_enforce resolve now locks root method uri_path headers cache).2 := by
  unfold lock_enforce
  split
  · exact h
  · dsimp only
    split
    · exact h
    · generalize hsrc : (if method = .COPY then (({ reply := .ok (), checked := [] } : Enforced), cache)
        else check_path resolve now locks root (parse_if_header headers)
          (trim_end_matches '/' uri_path) cache) = src
      have hsrc_cache : I src.2 := by
        rw [← hsrc]
        split
        · exact h
        · rename_i hcopy
          rw [check_path_snd]
          exact hI _ _ (Or.inl ⟨hcopy, rfl⟩) h
      obtain ⟨src, cache₁⟩ := src
      dsimp only at hsrc_cache ⊢
      split
      · exact hsrc_cache
      · split
        · rename_i hcm
          split
          · rename_i dest hdest
            dsimp only
            rw [check_path_snd]
            exact hI _ _ (Or.inr ⟨hcm, dest, hdest, rfl⟩) hsrc_cache
          · exact hsrc_cache
        · exact hsrc_cache

end Checked

end Rshs.LockMw
