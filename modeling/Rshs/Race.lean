/-
Writes and LOCKs in one run: the lock check of a write and its mutation are two
steps, and other clients' critical sections may fall between them.

The middleware reads the lock store under a guard and gives the guard up before the
handler runs. So a lock can be granted in between, and the mutation then takes
effect under it (`write_under_granted_lock`). What the check does promise is about
the past: whatever exclusive lock is active at a mutation of a checked target was
granted after that check (`granted_after_check`). The proof follows the lock back
through the run: every lock a step leaves at a path was there before the step or is
the lock that step granted (`step_provenance`).
-/
import Rshs.LockRuns
import Rshs.LockMw

set_option autoImplicit false

namespace Rshs.Race

open StdPath FinMap Rshs.Webdav Rshs.IfHeader Rshs.Ls Rshs.Locks Rshs.LockRuns Rshs.LockMw

/-! ## Runs with writes -/

/-- The lock state, and the checked targets of the writes on their way to a handler. -/
structure RaceState where
  lock : LockState
  writing : List Path

inductive RaceEvent
  | lock (e : Event)
  | check (now : ℕ) (checked : List Path)
  | mutate (now : ℕ) (target : Path)

section Runs

variable (default_hasher : ℕ → UInt64) (root : PathBuf)

/-- One step: a critical section of the lock system, the check of a write without an
`If` header, or the mutation of a target. The resolver is whatever the file system
makes of paths at that moment. -/
inductive RaceStep : RaceState → RaceEvent → RaceState → Prop
  | lock (s : RaceState) (e : Event) (t : LockState) (hs : Step default_hasher s.lock e t) :
      RaceStep s (.lock e) { lock := t, writing := s.writing }
  | check (s : RaceState) (now : ℕ) (resolve : List Char → Unit → Option Path × Unit)
      (method : Method) (uri_path : List Char) (headers : HeaderMap) (hnow : s.lock.clock ≤ now)
      (hw : is_write method = true) (hif : headers.if_header = none)
      (hok : (lock_enforce resolve now s.lock.locks root method uri_path headers ()).1.reply
        = .ok ()) :
      RaceStep s
        (.check now
          (lock_enforce resolve now s.lock.locks root method uri_path headers ()).1.checked)
        { lock := { s.lock with clock := now }
          writing :=
            (lock_enforce resolve now s.lock.locks root method uri_path headers ()).1.checked
              ++ s.writing }
  | mutate (s : RaceState) (now : ℕ) (target : Path) (hnow : s.lock.clock ≤ now)
      (hw : target ∈ s.writing) :
      RaceStep s (.mutate now target)
        { lock := { s.lock with clock := now }, writing := s.writing.erase target }

def RaceInitial (s : RaceState) : Prop := Initial s.lock ∧ s.writing = []

/-- The LOCK of the step granted the lock at the path. -/
inductive Granted (s : LockState) : Event → Path → LockInfo → Prop
  | first (now : ℕ) (req : LockRequest) (token : String)
      (h : (first_section default_hasher now req s.locks).1 =
        some (.ok (.OK, req.lock token now))) :
      Granted s (.lock_begin now req) req.target (req.lock token now)
  | second (now : ℕ) (req : LockRequest) (created : Bool) (status : StatusCode) (token : String)
      (h : (second_section default_hasher now req created s.locks).1 =
        .ok (status, req.lock token now)) :
      Granted s (.lock_commit now req created) req.target (req.lock token now)

end Runs

/-! ## Where a lock comes from -/

section Provenance

variable {default_hasher : ℕ → UInt64}

/-- The lock was there already: under the same token and scope, and not more expired
than it is now. -/
def Stood (now : ℕ) (infos : List LockInfo) (l : LockInfo) : Prop :=
  ∃ l₀ ∈ infos, l₀.token = l.token ∧ l₀.scope = l.scope ∧
    (l.is_expired now = false → l₀.is_expired now = false)

theorem Stood.of_mem {now : ℕ} {infos : List LockInfo} {l : LockInfo} (h : l ∈ infos) :
    Stood now infos l :=
  ⟨l, h, rfl, rfl, id⟩

theorem refresh_stood {now : ℕ} {locks : LockStore} {p q : Path} {pre post : List LockInfo}
    {x lock l : LockInfo} (hx : locks.lookup p = some (pre ++ x :: post))
    (hexp : x.is_expired now = false) (hlock : lock = { x with created := now })
    (hl : l ∈ LockStore.at (locks.insert p (pre ++ lock :: post)) q) :
    Stood now (locks.at q) l := by
  rw [at_insert] at hl
  split at hl
  · rename_i hq
    subst hq
    rw [at_of_lookup hx]
    rcases List.mem_append.mp hl with hl | hl
    · exact Stood.of_mem (List.mem_append_left _ hl)
    · rcases List.mem_cons.mp hl with rfl | hl
      · -- the refreshed lock was active before it was refreshed
        exact ⟨x, by simp, by rw [hlock], by rw [hlock], fun _ => hexp⟩
      · exact Stood.of_mem (by simp [hl])
  · exact Stood.of_mem hl

/-- **Where a lock comes from.** -/
theorem step_provenance {s t : LockState} {e : Event} (hs : Step default_hasher s e t) {p : Path}
    {l : LockInfo} (hl : l ∈ t.locks.at p) :
    Stood t.clock (s.locks.at p) l ∨ Granted default_hasher s e p l := by
  -- each step leaves what was stored, or stores its own lock
  cases hs with
  | lock_begin now req hnow =>
    rcases first_section_cases default_hasher now req s.locks with
      ⟨lock, locks', hfind, heq⟩ | ⟨-, ⟨status, -, heq⟩ | ⟨token, entry, hd, heq⟩ | ⟨-, heq⟩⟩
    · obtain ⟨q, pre, x, post, -, -, hx, -, hexp, -, hlock, rfl⟩ := find_and_refresh_some hfind
      simp only [heq] at hl
      exact Or.inl (refresh_stood hx hexp hlock hl)
    · simp only [heq, at_or_default] at hl
      exact Or.inl (Stood.of_mem hl)
    · simp only [heq, at_insert, at_or_default] at hl
      split at hl
      · rename_i hp
        subst hp
        rcases List.mem_append.mp hl with hl | hl
        · exact Or.inl (Stood.of_mem (decision_subset default_hasher hd l hl))
        · right
          rw [List.mem_singleton.mp hl]
          exact Granted.first now req token (by rw [heq])
      · exact Or.inl (Stood.of_mem hl)
    · simp only [heq, at_insert, at_or_default] at hl
      split at hl
      · simp at hl
      · exact Or.inl (Stood.of_mem hl)
  | lock_commit now req created hnow hreq =>
    rcases second_section_cases default_hasher now req created s.locks with ⟨-, heq⟩ | ⟨-, heq⟩
    · simp only [heq, at_or_default] at hl
      exact Or.inl (Stood.of_mem hl)
    · simp only [heq, at_insert, at_or_default] at hl
      split at hl
      · rename_i hp
        right
        rw [hp, List.mem_singleton.mp hl]
        exact Granted.second now req created _ _ (by rw [heq])
      · exact Or.inl (Stood.of_mem hl)
  | lock_abort now req hnow hreq => exact Or.inl (Stood.of_mem hl)
  | unlock now fs_path token hnow =>
    left
    rw [at_unlock_section] at hl
    split at hl
    · exact Stood.of_mem (List.mem_filter.mp hl).1
    · exact Stood.of_mem hl
  | cleanup now hnow =>
    rw [at_cleanup] at hl
    exact Or.inl (Stood.of_mem (Lease.mem_live.mp hl).1)
  | other now locks hnow hsame =>
    have hat : LockStore.at locks p = s.locks.at p := by simp [LockStore.at, get_or, hsame]
    rw [hat] at hl
    exact Or.inl (Stood.of_mem hl)

theorem step_clock {s t : LockState} {e : Event} (hs : Step default_hasher s e t) :
    s.clock ≤ t.clock := by
  cases hs <;> assumption

end Provenance

/-! ## Between the check and the mutation -/

section Results

variable {default_hasher : ℕ → UInt64} {root : PathBuf}

/-- An active exclusive lock with this token is stored at the path. -/
def HeldUnder (p : Path) (token : String) (s : RaceState) : Prop :=
  ∃ l ∈ active_slice s.lock.clock (s.lock.locks.at p), l.is_exclusive = true ∧ l.token = token

/-- Time alone grants nothing. -/
theorem held_under_earlier {p : Path} {token : String} {s : LockState} {now : ℕ}
    {writing writing' : List Path} (hnow : s.clock ≤ now)
    (h : HeldUnder p token { lock := { s with clock := now }, writing := writing }) :
    HeldUnder p token { lock := s, writing := writing' } := by
  obtain ⟨l, hl, hx, ht⟩ := h
  exact ⟨l, (Lease.live_sublist expired_perishable hnow).subset hl, hx, ht⟩

/-- The step that makes a token an active exclusive one is a LOCK that granted it. -/
theorem flip_granted {s t : RaceState} {e : RaceEvent} {p : Path} {token : String}
    (hs : RaceStep default_hasher root s e t) (hno : ¬ HeldUnder p token s)
    (hyes : HeldUnder p token t) :
    ∃ e' l, e = .lock e' ∧ Granted default_hasher s.lock e' p l ∧ l.is_exclusive = true ∧
      l.token = token := by
  cases hs with
  | lock e' t' hstep =>
    obtain ⟨l, hl, hx, ht⟩ := hyes
    obtain ⟨hmem, hexp⟩ := Lease.mem_live.mp hl
    rcases step_provenance hstep hmem with ⟨l₀, hl₀, htok, hscope, hlive⟩ | hgranted
    · -- it stood before the step, so the token was held before the step
      refine absurd ⟨l₀, ?_, ?_, ?_⟩ hno
      · refine (Lease.live_sublist expired_perishable (step_clock hstep)).subset ?_
        exact Lease.mem_live.mpr ⟨hl₀, hlive hexp⟩
      · unfold LockInfo.is_exclusive at hx ⊢
        rw [hscope]
        exact hx
      · rw [htok, ht]
    · exact ⟨e', l, rfl, hgranted, hx, ht⟩
  | check now resolve method uri_path headers hnow hw hif hok =>
    exact absurd (held_under_earlier hnow hyes) hno
  | mutate now target hnow hw => exact absurd (held_under_earlier hnow hyes) hno

/-- Without an `If` header, a passed check of a path found no active lock there. -/
theorem checked_vacant {s t : RaceState} {now : ℕ} {checked : List Path} {p : Path}
    (hs : RaceStep default_hasher root s (.check now checked) t) (hp : p ∈ checked) :
    active_slice t.lock.clock (t.lock.locks.at p) = [] := by
  cases hs with
  | check _ resolve method uri_path headers hnow hw hif hok =>
    obtain ⟨-, hopen⟩ := lock_enforce_ok rfl hok hw
    obtain ⟨request_path, hopen⟩ := hopen p hp
    have hlists : parse_if_header headers = [] := by simp [parse_if_header, hif]
    rw [hlists] at hopen
    by_contra hne
    -- an active lock at the path would have failed the empty header
    have hstop : is_path_locked now s.lock.locks p [] root request_path = true :=
      is_path_locked_iff.mpr ⟨p, Or.inl rfl, eval_if_eq_false_iff.mpr (Or.inl ⟨rfl, hne⟩)⟩
    rw [hstop] at hopen
    contradiction

/-- **No lock granted before its check is written past.** When a checked target is
mutated, every active exclusive lock stored there was granted by a LOCK of that
target after the check. -/
theorem granted_after_check {s s' t t' : RaceState} {now later : ℕ} {checked : List Path}
    {tr : List RaceEvent} {target : Path}
    (hcheck : RaceStep default_hasher root s (.check now checked) s') (htarget : target ∈ checked)
    (hrun : Lts.Run (RaceStep default_hasher root) s' tr t)
    (hmutate : RaceStep default_hasher root t (.mutate later target) t')
    (l : LockInfo) (hl : l ∈ active_slice t'.lock.clock (t'.lock.locks.at target))
    (hx : l.is_exclusive = true) :
    ∃ tr₁ e tr₂ u v l', tr = tr₁ ++ .lock e :: tr₂ ∧
      Lts.Run (RaceStep default_hasher root) s' tr₁ u ∧
      RaceStep default_hasher root u (.lock e) v ∧
      Lts.Run (RaceStep default_hasher root) v tr₂ t ∧
      Granted default_hasher u.lock e target l' ∧ l'.is_exclusive = true ∧ l'.token = l.token := by
  have hvacant := checked_vacant hcheck htarget
  have hbefore : ¬ HeldUnder target l.token s' := by
    rintro ⟨x, hmem, -, -⟩
    rw [hvacant] at hmem
    simp at hmem
  have hafter : HeldUnder target l.token t := by
    cases hmutate with
    | mutate _ _ hnow hw => exact held_under_earlier hnow ⟨l, hl, hx, rfl⟩
  obtain ⟨tr₁, a, tr₂, u, v, htr, hpre, hno, hstep, hyes, hpost⟩ := hrun.flip hbefore hafter
  obtain ⟨e, l', rfl, hgranted, hx', ht'⟩ := flip_granted hstep hno hyes
  exact ⟨tr₁, e, tr₂, u, v, l', htr, hpre, hstep, hpost, hgranted, hx', ht'⟩

end Results

/-! ## A grant in between -/

/-- The root as `/`. -/
def slash : PathBuf := Path.to_buf []

/-- The states of one run: a DELETE of `/d` is checked, `/d` is locked, the DELETE
removes it. -/
def checked_state : RaceState := { lock := ⟨1, ∅, []⟩, writing := [dir] }

def locked_state : RaceState :=
  { lock :=
      { clock := 3
        locks := (second_section (fun _ => 0) 3 dir_lock false
          (first_section (fun _ => 0) 2 dir_lock ∅).2).2
        creating := [] }
    writing := [dir] }

theorem check_step : RaceStep (fun _ => 0) slash { lock := ⟨0, ∅, []⟩, writing := [] }
    (.check 1 [dir]) checked_state :=
  RaceStep.check { lock := ⟨0, ∅, []⟩, writing := [] } 1 (fun _ _ => (some dir, ())) .DELETE
    "/d".toList {} (by decide) (by decide) rfl (by rfl)

theorem lock_run : Lts.Run (RaceStep (fun _ => 0) slash) checked_state
    [.lock (.lock_begin 2 dir_lock), .lock (.lock_commit 3 dir_lock false)] locked_state :=
  Lts.Run.cons (RaceStep.lock _ _ _ (Step.lock_begin _ 2 dir_lock (by decide)))
    (Lts.Run.single (RaceStep.lock _ _ _ (Step.lock_commit _ 3 dir_lock false (by decide)
      List.mem_cons_self)))

/-- The write takes effect under an exclusive lock that was granted before it. -/
theorem write_under_granted_lock :
    ∃ s t t' : RaceState, RaceInitial s ∧
      Lts.Run (RaceStep (fun _ => 0) slash) s
        [.check 1 [dir], .lock (.lock_begin 2 dir_lock), .lock (.lock_commit 3 dir_lock false)] t ∧
      RaceStep (fun _ => 0) slash t (.mutate 4 dir) t' ∧
      ∃ l ∈ active_slice 4 (t'.lock.locks.at dir), l.is_exclusive = true :=
  ⟨_, locked_state, _, ⟨⟨rfl, rfl⟩, rfl⟩, Lts.Run.cons check_step lock_run,
    RaceStep.mutate locked_state 4 dir (by decide) List.mem_cons_self,
    dir_lock.lock (generate_lock_token (fun _ => 0) 3) 3, List.mem_cons_self, rfl⟩

theorem granted_after_check_dir :
    ∃ e ∈ [Event.lock_begin 2 dir_lock, .lock_commit 3 dir_lock false],
      ∃ u l', Granted (fun _ => 0) u e dir l' ∧ l'.is_exclusive = true := by
  obtain ⟨tr₁, e, tr₂, u, v, l', htr, -, -, -, hgranted, hx, -⟩ :=
    granted_after_check check_step List.mem_cons_self lock_run
      (RaceStep.mutate locked_state 4 dir (by decide) List.mem_cons_self)
      (dir_lock.lock (generate_lock_token (fun _ => 0) 3) 3) List.mem_cons_self rfl
  refine ⟨e, ?_, u.lock, l', hgranted, hx⟩
  have hmem : RaceEvent.lock e ∈ [RaceEvent.lock (.lock_begin 2 dir_lock),
      .lock (.lock_commit 3 dir_lock false)] := by
    rw [htr]
    simp
  simpa using hmem

end Rshs.Race
