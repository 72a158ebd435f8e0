/-
What the lock check says about a resource that is about to go away.

DELETE and MOVE take a resource away, and a COPY or MOVE that overwrites takes away
what stands at its destination; for a collection everything below goes with it. The
check looks at the resource itself and upwards, for infinite locks. So a removal that
is let through without an `If` header meets no lock at its target and no infinite
lock above it (`removal_unlocked`), but a lock below the target is not looked at
(`locked_member_goes`).

That every ancestor with a lock is consulted, however many infinite locks there are,
needs an invariant of the lock store: locks are only stored at paths that the guard
has returned, and these lie under the root.
-/
import Rshs.LockRuns
import Rshs.CheckedPath

set_option autoImplicit false

namespace Rshs.Removal

open StdPath Posix FinMap Rshs.Webdav Rshs.IfHeader Rshs.Ls Rshs.Locks Rshs.LockRuns Rshs.Resolve
  Rshs.App Rshs.LockMw Rshs.Server Rshs.CheckedPath

/-! ## Where locks are stored -/

section Stored

variable {default_hasher : ℕ → UInt64} {now : ℕ} {req : LockRequest} {locks : LockStore}

/-- A path without locks has none after the first section: what is granted there
replaces or joins other locks. -/
theorem first_section_nil {p : Path} (h : locks.at p = []) :
    (first_section default_hasher now req locks).2.at p = [] := by
  rcases first_section_cases default_hasher now req locks with
    ⟨lock, locks', hfind, heq⟩ | ⟨-, ⟨status, -, heq⟩ | ⟨token, entry, hd, heq⟩ | ⟨-, heq⟩⟩
  · obtain ⟨q, pre, l, post, -, -, hl, -, -, -, -, rfl⟩ := find_and_refresh_some hfind
    rw [heq, at_insert]
    split
    · rename_i hpq
      rw [hpq, at_of_lookup hl] at h
      simp at h
    · exact h
  · rw [heq, at_or_default]
    exact h
  · rw [heq, at_insert]
    split
    · -- an empty entry is never decided on at once
      rename_i hp
      rw [← hp, h, decision_nil] at hd
      cases hd
    · rw [at_or_default]
      exact h
  · rw [heq, at_insert, at_or_default]
    split
    · rfl
    · exact h

theorem second_section_nil {p : Path} {created : Bool} (h : locks.at p = [])
    (hp : p ≠ req.target) : (second_section default_hasher now req created locks).2.at p = [] := by
  rcases second_section_cases default_hasher now req created locks with ⟨-, heq⟩ | ⟨-, heq⟩
  · rw [heq, at_or_default]
    exact h
  · rw [heq, at_insert, if_neg hp, at_or_default]
    exact h

end Stored

section Runs

variable (default_hasher : ℕ → UInt64) (P : Path → Prop)

/-- One critical section, of a LOCK whose target has the property. -/
def StepAt (s : LockState) (e : Event) (t : LockState) : Prop :=
  Step default_hasher s e t ∧ ∀ now req, e = .lock_begin now req → P req.target

/-- Whatever has a lock, or is about to get one, has the property. -/
def StoredAt (s : LockState) : Prop :=
  (∀ p, s.locks.at p ≠ [] → P p) ∧ ∀ req ∈ s.creating, P req.target

theorem step_stored {s t : LockState} {e : Event} (h : StoredAt P s)
    (hs : StepAt default_hasher P s e t) : StoredAt P t := by
  obtain ⟨hstep, htarget⟩ := hs
  obtain ⟨hat, hcreating⟩ := h
  cases hstep with
  | lock_begin now req hnow =>
    constructor
    · intro p hp
      apply hat
      intro hnil
      exact hp (first_section_nil hnil)
    · intro r hr
      dsimp only at hr
      -- the request that the section has left waiting is the only new one
      split at hr
      · rcases List.mem_cons.mp hr with heq | hr
        · rw [heq]
          exact htarget now req rfl
        · exact hcreating r hr
      · exact hcreating r hr
  | lock_commit now req created hnow hreq =>
    constructor
    · intro p hp
      -- the second section stores at the target of a waiting request only
      by_cases htgt : p = req.target
      · rw [htgt]
        exact hcreating req hreq
      · apply hat
        intro hnil
        exact hp (second_section_nil hnil htgt)
    · intro r hr
      exact hcreating r (List.mem_of_mem_erase hr)
  | lock_abort now req hnow hreq =>
    exact ⟨hat, fun r hr => hcreating r (List.mem_of_mem_erase hr)⟩
  | unlock now fs_path token hnow =>
    refine ⟨fun p hp => hat p (fun hnil => hp ?_), hcreating⟩
    dsimp only
    rw [at_unlock_section, hnil]
    split <;> rfl
  | cleanup now hnow =>
    refine ⟨fun p hp => hat p (fun hnil => hp ?_), hcreating⟩
    dsimp only
    rw [at_cleanup, hnil]
    rfl
  | other now locks hnow hsame =>
    refine ⟨fun p hp => hat p (fun hnil => hp ?_), hcreating⟩
    dsimp only
    rw [← hnil, LockStore.at, LockStore.at, get_or, get_or, hsame]

theorem reachable_stored {s : LockState}
    (h : Lts.Reachable (StepAt default_hasher P) Initial s) : StoredAt P s := by
  refine h.invariant (fun s₀ h₀ => ?_) (fun _ _ _ hI hs => step_stored default_hasher P hI hs)
  obtain ⟨hlocks, hcreating⟩ := h₀
  constructor
  · intro p hp
    rw [hlocks] at hp
    exact absurd rfl hp
  · intro r hr
    rw [hcreating] at hr
    cases hr

end Runs

/-- A path that the guard of a server with this root has returned. -/
def Guarded (root_canonical : PathBuf) (p : Path) : Prop :=
  ∃ (fs : Fs) (cwd : Path) (root_dir : PathBuf) (text : List Char) (cache : Cache),
    (Resolve.resolve_and_guard fs cwd root_dir root_canonical text cache).1 = .ok p

theorem Guarded.under {root : PathBuf} {p : Path} (h : Guarded root p) :
    p.starts_with root = true := by
  obtain ⟨fs, cwd, root_dir, text, cache, hok⟩ := h
  obtain ⟨-, init, n, pc, -, -, hunder, rfl⟩ := resolve_and_guard_ok_iff.mp hok
  exact Path.starts_with_of_prefix hunder (List.prefix_append _ _)

/-! ## What a removal has passed -/

section Removal

variable (cwd : Path) (fs : Fs) (app : AppState) (req : Request)

/-- What a request takes away, as its handler resolves it: the path of a DELETE or a
MOVE, which the middleware has to resolve to the same place, and the destination of a
COPY or MOVE. -/
inductive Removes (m : Path) : Prop
  | source (hmethod : req.method = .DELETE ∨ req.method = .MOVE)
      (hm : Resolve.resolve_existing fs cwd app.root_dir app.root_canonical req.uri_path = some m)
      (hseen : SourceSeen fs cwd app req.uri_path m)
  | dest (text : List Char) (hmethod : req.method = .COPY ∨ req.method = .MOVE)
      (htext : parse_destination req.headers = some text)
      (hm : (Resolve.resolve_and_guard fs cwd app.root_dir app.root_canonical text
        app.canonical_cache).1 = .ok m)

/-- No lock is active at the path, and no infinite one above it. -/
def FreeAbove (now : ℕ) (locks : LockStore) (p : Path) : Prop :=
  active_slice now (locks.at p) = [] ∧
    ∀ q, q <+: p → q ≠ p → ∀ l ∈ active_slice now (locks.at q), l.depth ≠ .Infinity

/-- Without conditions the check passes only a path that is free. -/
theorem free_of_unlocked {now : ℕ} {locks : LockStore} {root : PathBuf} {p : Path}
    {request_path : List Char} (hroot : ∀ q, locks.at q ≠ [] → q.starts_with root = true)
    (h : is_path_locked now locks p [] root request_path = false) : FreeAbove now locks p := by
  have hpass : ∀ q, Evaluated now locks root p q → active_slice now (locks.at q) = [] := by
    intro q hq
    by_contra hne
    have hfails : eval_if now [] (locks.at q) request_path = false :=
      eval_if_eq_false_iff.mpr (Or.inl ⟨rfl, hne⟩)
    rw [is_path_locked_iff.mpr ⟨q, hq, hfails⟩] at h
    cases h
  constructor
  · exact hpass p (Or.inl rfl)
  · intro q hpre hne l hl hinf
    -- a path with a lock lies under the root, so it is consulted
    have hstored : locks.at q ≠ [] := List.ne_nil_of_mem (Lease.mem_live.mp hl).1
    have hconsulted : Consulted locks root p q := ⟨hpre, hne, Or.inr (hroot q hstored)⟩
    have hnil := hpass q (Or.inr ⟨hconsulted, l, hl, hinf⟩)
    rw [hnil] at hl
    cases hl

/-- **What a removal has passed.** In every reachable state of the lock store, on
every tree: a DELETE, COPY or MOVE without an `If` header that the middleware lets
through finds no active lock at what it takes away, and no active infinite lock above
it. -/
theorem removal_unlocked {default_hasher : ℕ → UInt64} {s : LockState} {now : ℕ}
    {e : Enforced} {cache' : Cache}
    (hreach : Lts.Reachable (StepAt default_hasher (Guarded app.root_canonical)) Initial s)
    (hlocks : app.locks = s.locks) (hif : req.headers.if_header = none)
    (h : lock_enforce (resolver cwd fs app) now app.locks app.root_canonical req.method
      req.uri_path req.headers app.canonical_cache = (e, cache'))
    (hok : e.reply = .ok ()) {m : Path} (hm : Removes cwd fs app req m) :
    FreeAbove now app.locks m := by
  have hwrite : is_write req.method = true := by
    cases hm with
    | source hmethod _ _ => rcases hmethod with heq | heq <;> rw [heq] <;> rfl
    | dest _ hmethod _ _ => rcases hmethod with heq | heq <;> rw [heq] <;> rfl
  have hlists : parse_if_header req.headers = [] := by
    unfold parse_if_header
    rw [hif]
    rfl
  have hchecked : m ∈ e.checked := by
    rw [(lock_enforce_checked (resolver_stable fs cwd app) h hok hwrite).1]
    cases hm with
    | source hmethod _ hseen =>
      refine Or.inl ⟨?_, resolver_some.mpr (resolve_and_guard_ok_iff.mpr hseen)⟩
      rcases hmethod with heq | heq <;> rw [heq] <;> decide
    | dest text hmethod htext hg =>
      refine Or.inr ⟨hmethod, text, htext, ?_⟩
      rw [trim_end_of_destination htext, resolver_some]
      exact hg
  obtain ⟨request_path, hunlocked⟩ := (lock_enforce_ok h hok hwrite).2 m hchecked
  rw [hlists] at hunlocked
  apply free_of_unlocked ?_ hunlocked
  intro q hq
  rw [hlocks] at hq
  exact ((reachable_stored _ _ hreach).1 q hq).under

end Removal

/-! ## A lock below what is removed -/

/-- A LOCK of `/d/f` that nothing limits. -/
def lock_f : LockRequest where
  target := [d_name, f_name]
  timeout := none
  depth := .Infinity
  if_tokens := []
  owner := none
  lock_scope := .Exclusive

def no_hash (_ : ℕ) : UInt64 := 0

/-- The stores before the LOCK, while its file is created, and after it. -/
def begun : LockState where
  clock := 0
  locks := (first_section no_hash 0 lock_f ∅).2
  creating := [lock_f]

def granted : LockState where
  clock := 0
  locks := (second_section no_hash 0 lock_f true begun.locks).2
  creating := []

def server_d : AppState :=
  { AppState.new disk_df [] (PathBuf.of_text "/".toList) 0 with locks := granted.locks }

theorem guarded_f : Guarded server_d.root_canonical [d_name, f_name] :=
  ⟨disk_df, [], PathBuf.of_text "/".toList, "/d/f".toList, ∅, by decide⟩

theorem granted_reachable :
    Lts.Reachable (StepAt no_hash (Guarded server_d.root_canonical)) Initial granted := by
  have hbegin : Step no_hash ⟨0, ∅, []⟩ (.lock_begin 0 lock_f) begun :=
    Step.lock_begin ⟨0, ∅, []⟩ 0 lock_f le_rfl
  have hcommit : Step no_hash begun (.lock_commit 0 lock_f true) granted :=
    Step.lock_commit begun 0 lock_f true le_rfl List.mem_cons_self
  refine ⟨⟨0, ∅, []⟩, [.lock_begin 0 lock_f, .lock_commit 0 lock_f true], ⟨rfl, rfl⟩, ?_⟩
  refine Lts.Run.cons ⟨hbegin, ?_⟩ (Lts.Run.single ⟨hcommit, ?_⟩)
  · intro now req heq
    cases heq
    exact guarded_f
  · intro now req heq
    cases heq

/-- A request for `/d`, without headers. -/
def on_d (method : Method) : Request where
  method := method
  uri_path := "/d".toList
  headers := {}
  body := []
  lock_body := none
  proppatch_body := none
  propfind_body := none

/-- What the middleware says to a DELETE of `/d`. -/
def delete_d : Enforced × Cache :=
  lock_enforce (resolver [] disk_df server_d) 0 server_d.locks server_d.root_canonical
    (on_d .DELETE).method (on_d .DELETE).uri_path (on_d .DELETE).headers server_d.canonical_cache

theorem seen_d : SourceSeen disk_df [] server_d "/d".toList [d_name] :=
  resolve_and_guard_ok_iff.mp (show (Resolve.resolve_and_guard disk_df [] server_d.root_dir
    server_d.root_canonical "/d".toList ∅).1 = .ok [d_name] by decide)

theorem delete_d_removes : Removes [] disk_df server_d (on_d .DELETE) [d_name] :=
  Removes.source (Or.inl rfl) (by decide) seen_d

theorem removal_unlocked_d : FreeAbove 0 server_d.locks [d_name] :=
  removal_unlocked [] disk_df server_d (on_d .DELETE) granted_reachable rfl rfl
    (show delete_d = (delete_d.1, delete_d.2) from rfl) (show delete_d.1.reply = .ok () by decide)
    delete_d_removes

/-- The DELETE of `/d` is let through while `/d/f` is locked. -/
theorem locked_member_goes :
    Lts.Reachable (StepAt no_hash (Guarded server_d.root_canonical)) Initial granted ∧
      server_d.locks = granted.locks ∧ Removes [] disk_df server_d (on_d .DELETE) [d_name] ∧
      delete_d.1.reply = .ok () ∧
      ¬ ∀ p, [d_name] <+: p → active_slice 0 (server_d.locks.at p) = [] := by
  refine ⟨granted_reachable, rfl, delete_d_removes, by decide, ?_⟩
  intro hfree
  have hnil := hfree [d_name, f_name] (List.prefix_append [d_name] [f_name])
  have hlocked : active_slice 0 (server_d.locks.at [d_name, f_name]) ≠ [] := by decide
  exact hlocked hnil

end Rshs.Removal
