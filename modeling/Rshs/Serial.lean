/-
Two LOCKs on one target: is every way they interleave the same as one after the other?

The atomic steps of a LOCK are its first critical section, the creation of the
lock-null file and its second critical section. `Duo` is the shared state with the
phase each of the two requests is in; a solo run takes steps of one request only, and
an interleaving is serializable when a solo run of one request followed by a solo run of
the other gives both requests the outcomes they had and leaves the scopes that were left
at the target.

A request gives the guard up only when it has found no lock at the target, so two
requests overlap only on an empty entry, and then the first to commit wins. The second
section of the other one answers 423 whatever the scopes are; in order, its first
section would have looked at them (`serializable_iff`).
-/
import Rshs.Removal

set_option autoImplicit false

namespace Rshs.Serial

open StdPath FinMap Rshs.Webdav Rshs.Ls Rshs.Locks

/-! ## Two requests -/

inductive Who
  | first
  | second
deriving DecidableEq

def Who.other : Who → Who
  | .first => .second
  | .second => .first

/-- Two LOCKs on one target, and whether the creation of the file fails for them. -/
structure Pair where
  req : Who → LockRequest
  target : Path
  same_target : ∀ w, (req w).target = target
  fails : Who → Bool

/-- How far a request has come. -/
inductive Phase
  | waiting
  | creating
  | committing (created : Bool)
  | done (reply : LockReply)

/-- Granted, or the error status; none while the request is under way. -/
def Phase.outcome : Phase → Option (Except StatusCode Unit)
  | .done reply => some (reply.map fun _ => ())
  | _ => none

/-- The shared state. -/
structure Duo where
  clock : ℕ
  locks : LockStore
  file : Bool
  phase : Who → Phase

/-- Neither request has begun. -/
def Duo.start (clock : ℕ) (locks : LockStore) (file : Bool) : Duo where
  clock := clock
  locks := locks
  file := file
  phase := fun _ => .waiting

inductive Event
  | lock_begin (w : Who) (now : ℕ)
  | create_new (w : Who)
  | lock_commit (w : Who) (now : ℕ)

def Event.who : Event → Who
  | .lock_begin w _ => w
  | .create_new w => w
  | .lock_commit w _ => w

section System

variable (default_hasher : ℕ → UInt64) (pair : Pair)

/-- What `create_new` reports to a request. -/
def created_new (w : Who) (file : Bool) : CreateNew :=
  if pair.fails w then .Failed else if file then .AlreadyExists else .Created

/-- The phase after the first section. -/
def after_begin : Option LockReply → Phase
  | some reply => .done reply
  | none => .creating

/-- The phase after the creation of the file. -/
def after_create : Except StatusCode Bool → Phase
  | .ok created => .committing created
  | .error status => .done (.error status)

/-- One atomic step of one request. -/
inductive Step : Duo → Event → Duo → Prop
  | lock_begin (s : Duo) (w : Who) (now : ℕ) (hnow : s.clock ≤ now)
      (hw : s.phase w = .waiting) :
      Step s (.lock_begin w now)
        { clock := now
          locks := (first_section default_hasher now (pair.req w) s.locks).2
          file := s.file
          phase := Function.update s.phase w
            (after_begin (first_section default_hasher now (pair.req w) s.locks).1) }
  | create_new (s : Duo) (w : Who) (hw : s.phase w = .creating) :
      Step s (.create_new w)
        { clock := s.clock
          locks := s.locks
          file := s.file || !pair.fails w
          phase := Function.update s.phase w
            (after_create (ensure_lock_null_resource (created_new pair w s.file))) }
  | lock_commit (s : Duo) (w : Who) (now : ℕ) (created : Bool) (hnow : s.clock ≤ now)
      (hw : s.phase w = .committing created) :
      Step s (.lock_commit w now)
        { clock := now
          locks := (second_section default_hasher now (pair.req w) created s.locks).2
          file := s.file
          phase := Function.update s.phase w
            (.done (second_section default_hasher now (pair.req w) created s.locks).1) }

/-- A step of one of the requests. -/
def Solo (w : Who) (s : Duo) (e : Event) (t : Duo) : Prop :=
  Step default_hasher pair s e t ∧ e.who = w

/-- The scopes of the locks at the target. -/
def scopes (s : Duo) : List LockScope := (s.locks.at pair.target).map LockInfo.scope

/-- The outcomes and the scopes of a state are those of the two requests one after the
other. -/
def InOrder (s₀ t : Duo) : Prop :=
  ∃ w s₁ tr₁ tr₂ t', Lts.Run (Solo default_hasher pair w) s₀ tr₁ s₁ ∧
    Lts.Run (Solo default_hasher pair w.other) s₁ tr₂ t' ∧
    (∀ v, (t'.phase v).outcome = (t.phase v).outcome) ∧ scopes pair t' = scopes pair t

/-- Every interleaving of the two requests is serial. -/
def Serializable (s₀ : Duo) : Prop :=
  ∀ tr t, Lts.Run (Step default_hasher pair) s₀ tr t → (∀ w, (t.phase w).outcome ≠ none) →
    InOrder default_hasher pair s₀ t

/-! ## When it is -/

/-- The two requests can overlap to the end: no lock stands at the target, neither
creation fails, and at some time neither request refreshes a lock of an ancestor. -/
def Races (clock : ℕ) (locks : LockStore) : Prop :=
  locks.at pair.target = [] ∧ (∀ w, pair.fails w = false) ∧
    ∃ u, clock ≤ u ∧ ∀ w, ¬ OwnsAncestor u (pair.req w) locks

/-- The lock of the request `w`, granted at some time, refuses the other request at some
later time: the other does not name its token, and one of the two scopes is exclusive
(that of the lock only while it lasts). -/
def Blocks (w : Who) (clock : ℕ) (locks : LockStore) : Prop :=
  ∃ u u', clock ≤ u ∧ u ≤ u' ∧ ¬ OwnsAncestor u (pair.req w) locks ∧
    ¬ OwnsAncestor u' (pair.req w.other) locks ∧
    generate_lock_token default_hasher u ∉ (pair.req w.other).if_tokens ∧
    ((pair.req w.other).lock_scope = .Exclusive ∨
      ((pair.req w).lock_scope = .Exclusive ∧
        ((pair.req w).lock (generate_lock_token default_hasher u) u).is_expired u' = false))

end System

/-! ## The sections on an entry without locks -/

section Sections

variable {default_hasher : ℕ → UInt64} {now : ℕ} {req : LockRequest} {locks : LockStore}

theorem Who.other_ne (w : Who) : w.other ≠ w := by
  cases w <;> decide

theorem Who.eq_or_other (v w : Who) : v = w ∨ v = w.other := by
  cases v <;> cases w <;> decide

@[simp] theorem Who.other_other (w : Who) : w.other.other = w := by
  cases w <;> rfl

/-- Owning a lock of an ancestor is a matter of the entries of the proper ancestors. -/
theorem owns_ancestor_congr {locks' : LockStore}
    (h : ∀ p, p ≠ req.target → locks'.at p = locks.at p) :
    OwnsAncestor now req locks' ↔ OwnsAncestor now req locks := by
  constructor
  · rintro ⟨p, hpre, hne, l, hl, hown⟩
    rw [h p hne] at hl
    exact ⟨p, hpre, hne, l, hl, hown⟩
  · rintro ⟨p, hpre, hne, l, hl, hown⟩
    rw [← h p hne] at hl
    exact ⟨p, hpre, hne, l, hl, hown⟩

/-- What is owned later is owned now. -/
theorem owns_earlier {later : ℕ} (h : OwnsAncestor later req locks) (hle : now ≤ later) :
    OwnsAncestor now req locks := by
  obtain ⟨p, hpre, hne, l, hl, hown⟩ := h
  exact ⟨p, hpre, hne, l, (Lease.live_sublist expired_perishable hle).subset hl, hown⟩

/-- A request that owns a lock of an ancestor is granted at once, and nothing changes at
the target. -/
theorem first_section_owns (h : OwnsAncestor now req locks) :
    ∃ reply, (first_section default_hasher now req locks).1 = some (.ok reply) ∧
      (first_section default_hasher now req locks).2.at req.target = locks.at req.target := by
  rcases first_section_cases default_hasher now req locks with ⟨lock, locks', hfind, heq⟩ | ⟨hnone, -⟩
  · obtain ⟨p, pre, l, post, -, hne, -, -, -, -, -, rfl⟩ := find_and_refresh_some hfind
    rw [heq]
    refine ⟨_, rfl, ?_⟩
    rw [at_insert, if_neg (Ne.symm hne)]
  · exact absurd hnone (owns_ancestor_iff.mp h)

/-- Any other request finds that there is no lock, and gives the guard up. -/
theorem first_section_vacant (h : ¬ OwnsAncestor now req locks) (hnil : locks.at req.target = []) :
    (first_section default_hasher now req locks).1 = none ∧
      ∀ p, (first_section default_hasher now req locks).2.at p = locks.at p := by
  rcases first_section_cases default_hasher now req locks with
    ⟨lock, locks', hfind, -⟩ | ⟨-, ⟨status, hd, -⟩ | ⟨token, entry, hd, -⟩ | ⟨-, heq⟩⟩
  · apply absurd (owns_ancestor_iff.mpr _) h
    rw [hfind]
    exact Option.some_ne_none _
  · rw [hnil, decision_nil] at hd
    cases hd
  · rw [hnil, decision_nil] at hd
    cases hd
  · rw [heq]
    refine ⟨rfl, ?_⟩
    intro p
    rw [at_insert, at_or_default]
    split
    · rename_i hp
      rw [hp, hnil]
    · rfl

end Sections

/-! ## Solo runs -/

section Solo

variable {default_hasher : ℕ → UInt64} {pair : Pair}

/-- What a request finds above its target is what the entries of the other paths say. -/
theorem owns_same {w : Who} {now : ℕ} {locks locks' : LockStore}
    (h : ∀ p, p ≠ pair.target → locks'.at p = locks.at p) :
    OwnsAncestor now (pair.req w) locks' ↔ OwnsAncestor now (pair.req w) locks := by
  apply owns_ancestor_congr
  intro p hp
  rw [pair.same_target w] at hp
  exact h p hp

variable (default_hasher pair)

/-- What a request's own steps have made of a state in which it had not begun: the phase
it is in says how far it came. -/
inductive Progress (w : Who) (s₀ : Duo) : Duo → Prop
  | waiting : Progress w s₀ s₀
  | creating (s : Duo) (now : ℕ) (hnow : s₀.clock ≤ now) (hclock : s.clock = now)
      (hfirst : first_section default_hasher now (pair.req w) s₀.locks = (none, s.locks))
      (hphase : s.phase w = .creating) (hother : s.phase w.other = s₀.phase w.other) :
      Progress w s₀ s
  | committing (s : Duo) (now : ℕ) (created : Bool) (hnow : s₀.clock ≤ now)
      (hclock : s.clock = now) (hfails : pair.fails w = false)
      (hfirst : first_section default_hasher now (pair.req w) s₀.locks = (none, s.locks))
      (hphase : s.phase w = .committing created) (hother : s.phase w.other = s₀.phase w.other) :
      Progress w s₀ s
  | replied (s : Duo) (now : ℕ) (reply : LockReply) (hnow : s₀.clock ≤ now)
      (hclock : s.clock = now)
      (hfirst : first_section default_hasher now (pair.req w) s₀.locks = (some reply, s.locks))
      (hphase : s.phase w = .done reply) (hother : s.phase w.other = s₀.phase w.other) :
      Progress w s₀ s
  | failed (s : Duo) (now : ℕ) (hnow : s₀.clock ≤ now) (hclock : s.clock = now)
      (hfails : pair.fails w = true)
      (hfirst : first_section default_hasher now (pair.req w) s₀.locks = (none, s.locks))
      (hphase : s.phase w = .done (.error .INTERNAL_SERVER_ERROR))
      (hother : s.phase w.other = s₀.phase w.other) : Progress w s₀ s
  | committed (s : Duo) (now later : ℕ) (created : Bool) (locks : LockStore)
      (reply : LockReply) (hnow : s₀.clock ≤ now) (hlater : now ≤ later)
      (hclock : s.clock = later) (hfails : pair.fails w = false)
      (hfirst : first_section default_hasher now (pair.req w) s₀.locks = (none, locks))
      (hsecond : second_section default_hasher later (pair.req w) created locks
        = (reply, s.locks))
      (hphase : s.phase w = .done reply) (hother : s.phase w.other = s₀.phase w.other) :
      Progress w s₀ s

variable {default_hasher pair} {w : Who} {s₀ s t : Duo}

theorem update_other {α : Type} (f : Who → α) (w : Who) (x : α) :
    Function.update f w x w.other = f w.other :=
  Function.update_of_ne w.other_ne x f

theorem Progress.step (hwaiting : s₀.phase w = .waiting) {e : Event}
    (h : Progress default_hasher pair w s₀ s) (hs : Solo default_hasher pair w s e t) :
    Progress default_hasher pair w s₀ t := by
  obtain ⟨hstep, hwho⟩ := hs
  -- each event is the step of one of the two
  cases hstep with
  | lock_begin w' now hnow hw =>
    have hw' : w' = w := hwho
    subst hw'
    cases h with
    | waiting =>
      cases hreply : (first_section default_hasher now (pair.req w') s₀.locks).1 with
      | none =>
        refine .creating _ now hnow rfl (Prod.ext hreply rfl) ?_ (update_other _ _ _)
        dsimp only
        rw [Function.update_self]
        rfl
      | some reply =>
        refine .replied _ now reply hnow rfl (Prod.ext hreply rfl) ?_ (update_other _ _ _)
        dsimp only
        rw [Function.update_self]
        rfl
    | _ =>
      rename_i hphase _
      rw [hphase] at hw
      cases hw
  | create_new w' hw =>
    have hw' : w' = w := hwho
    subst hw'
    cases h with
    | waiting =>
      rw [hwaiting] at hw
      cases hw
    | creating _ now hnow hclock hfirst hphase hother =>
      cases hfails : pair.fails w' with
      | true =>
        refine .failed _ now hnow hclock hfails hfirst ?_ ((update_other _ _ _).trans hother)
        dsimp only
        rw [Function.update_self]
        unfold created_new
        rw [hfails]
        rfl
      | false =>
        refine .committing _ now (!s.file) hnow hclock hfails hfirst ?_
          ((update_other _ _ _).trans hother)
        dsimp only
        rw [Function.update_self]
        unfold created_new
        rw [hfails]
        cases s.file <;> rfl
    | _ =>
      rename_i hphase _
      rw [hphase] at hw
      cases hw
  | lock_commit w' later created hnow hw =>
    have hw' : w' = w := hwho
    subst hw'
    cases h with
    | waiting =>
      rw [hwaiting] at hw
      cases hw
    | committing _ now created' hbefore hclock hfails hfirst hphase hother =>
      refine .committed _ now later created s.locks _ hbefore (by omega) rfl hfails hfirst rfl ?_
        ((update_other _ _ _).trans hother)
      exact Function.update_self _ _ _
    | _ =>
      rename_i hphase _
      rw [hphase] at hw
      cases hw

theorem solo_progress (hwaiting : s₀.phase w = .waiting) {tr : List Event}
    (h : Lts.Run (Solo default_hasher pair w) s₀ tr s) : Progress default_hasher pair w s₀ s :=
  h.keeps (fun _ _ _ hi hs => hi.step hwaiting hs) .waiting

/-! ### Requests that run alone -/

variable (default_hasher pair) in
/-- A request has run from one state to another, with some outcome. -/
structure Ended (w : Who) (s t : Duo) (u : ℕ) (out : Except StatusCode Unit) : Prop where
  run : ∃ tr, Lts.Run (Solo default_hasher pair w) s tr t
  outcome : (t.phase w).outcome = some out
  other : t.phase w.other = s.phase w.other
  clock : t.clock = u

variable {u : ℕ}

/-- A first section that replies is the whole request. -/
theorem solo_reply (hw : s.phase w = .waiting) (hu : s.clock ≤ u) {reply : LockReply}
    {locks : LockStore}
    (h : first_section default_hasher u (pair.req w) s.locks = (some reply, locks)) :
    ∃ t, Ended default_hasher pair w s t u (reply.map fun _ => ()) ∧ t.locks = locks := by
  refine ⟨_, ⟨⟨_, .single ⟨.lock_begin s w u hu hw, rfl⟩⟩, ?_, update_other _ _ _, rfl⟩, ?_⟩
  · dsimp only
    rw [Function.update_self, h]
    rfl
  · dsimp only
    rw [h]

/-- A request that owns a lock of an ancestor. -/
theorem solo_refresh (hw : s.phase w = .waiting) (hu : s.clock ≤ u)
    (h : OwnsAncestor u (pair.req w) s.locks) :
    ∃ t, Ended default_hasher pair w s t u (.ok ()) ∧
      t.locks.at pair.target = s.locks.at pair.target := by
  obtain ⟨reply, hreply, hat⟩ := @first_section_owns default_hasher u (pair.req w) s.locks h
  obtain ⟨t, hended, hlocks⟩ := solo_reply hw hu (Prod.ext hreply rfl)
  refine ⟨t, hended, ?_⟩
  rw [hlocks, ← pair.same_target w]
  exact hat

/-- The creation of the file. -/
theorem create_step (h : s.phase w = .creating) :
    ∃ t, Solo default_hasher pair w s (.create_new w) t ∧
      t.phase w = after_create (ensure_lock_null_resource (created_new pair w s.file)) ∧
      t.phase w.other = s.phase w.other ∧ t.clock = s.clock ∧ t.locks = s.locks :=
  ⟨_, ⟨.create_new s w h, rfl⟩, Function.update_self _ _ _, update_other _ _ _, rfl, rfl⟩

theorem create_fails (hfails : pair.fails w = true) (file : Bool) :
    after_create (ensure_lock_null_resource (created_new pair w file))
      = .done (.error .INTERNAL_SERVER_ERROR) := by
  unfold created_new
  rw [hfails]
  rfl

theorem create_succeeds (hfails : pair.fails w = false) (file : Bool) :
    after_create (ensure_lock_null_resource (created_new pair w file)) = .committing (!file) := by
  unfold created_new
  rw [hfails]
  cases file <;> rfl

section Vacant

variable (hw : s.phase w = .waiting) (hu : s.clock ≤ u)
  (hown : ¬ OwnsAncestor u (pair.req w) s.locks) (hnil : s.locks.at pair.target = [])

include hw hu hown hnil

/-- The first section of a request that finds no lock. -/
theorem begin_step :
    ∃ t, Solo default_hasher pair w s (.lock_begin w u) t ∧ t.phase w = .creating ∧
      t.phase w.other = s.phase w.other ∧ t.clock = u ∧ ∀ p, t.locks.at p = s.locks.at p := by
  rw [← pair.same_target w] at hnil
  obtain ⟨hnone, hat⟩ := @first_section_vacant default_hasher u (pair.req w) s.locks hown hnil
  refine ⟨_, ⟨.lock_begin s w u hu hw, rfl⟩, ?_, update_other _ _ _, rfl, hat⟩
  dsimp only
  rw [Function.update_self, hnone]
  rfl

/-- A request that finds no lock, and cannot create the file. -/
theorem solo_failed (hfails : pair.fails w = true) :
    ∃ t, Ended default_hasher pair w s t u (.error .INTERNAL_SERVER_ERROR) ∧
      ∀ p, t.locks.at p = s.locks.at p := by
  obtain ⟨s₁, hbegin, hphase, hother, hclock, hat⟩ :=
    @begin_step default_hasher pair w s u hw hu hown hnil
  obtain ⟨t, hcreate, hdone, hother', hclock', hlocks⟩ := @create_step default_hasher pair w s₁ hphase
  refine ⟨t, ⟨⟨_, .cons hbegin (.single hcreate)⟩, ?_, hother'.trans hother,
    hclock'.trans hclock⟩, ?_⟩
  · rw [hdone, create_fails hfails]
    rfl
  · rw [hlocks]
    exact hat

/-- A request that finds no lock, and is granted one. -/
theorem solo_granted (hfails : pair.fails w = false) :
    ∃ t, Ended default_hasher pair w s t u (.ok ()) ∧
      t.locks.at pair.target = [(pair.req w).lock (generate_lock_token default_hasher u) u] ∧
      ∀ p, p ≠ pair.target → t.locks.at p = s.locks.at p := by
  obtain ⟨s₁, hbegin, hphase, hother, hclock, hat⟩ :=
    @begin_step default_hasher pair w s u hw hu hown hnil
  obtain ⟨s₂, hcreate, hcommitting, hother', hclock', hlocks⟩ :=
    @create_step default_hasher pair w s₁ hphase
  rw [create_succeeds hfails] at hcommitting
  have hat₂ : ∀ p, s₂.locks.at p = s.locks.at p := by
    intro p
    rw [hlocks, hat]
  have hcommit := @Step.lock_commit default_hasher pair s₂ w u _ (by omega) hcommitting
  have hnil₂ : s₂.locks.at (pair.req w).target = [] := by
    rw [hat₂, pair.same_target, hnil]
  rcases second_section_cases default_hasher u (pair.req w) (!s₁.file) s₂.locks with
    ⟨hne, -⟩ | ⟨-, heq⟩
  · exact absurd hnil₂ hne
  · refine ⟨_, ⟨⟨_, .cons hbegin (.cons hcreate (.single ⟨hcommit, rfl⟩))⟩, ?_, ?_, rfl⟩, ?_, ?_⟩
    · dsimp only
      rw [Function.update_self, heq]
      rfl
    · exact (update_other _ _ _).trans (hother'.trans hother)
    · dsimp only
      rw [heq, pair.same_target w, at_insert, if_pos rfl]
    · intro p hp
      dsimp only
      rw [heq, pair.same_target w, at_insert, if_neg hp, at_or_default]
      exact hat₂ p

end Vacant

/-- **What the first section decides about a single lock**: when it refuses. -/
theorem decision_refuses {now : ℕ} {req : LockRequest} {l : LockInfo} :
    decision default_hasher now req [l] = .error .LOCKED ↔
      l.token ∉ req.if_tokens ∧ (req.lock_scope = .Exclusive ∨
        (l.scope = .Exclusive ∧ l.is_expired now = false)) := by
  have hcases := decision_cases default_hasher now req [l]
  have hactive : ∀ x ∈ active_slice now [l], x = l ∧ l.is_expired now = false := by
    intro x hx
    obtain ⟨hmem, hexp⟩ := Lease.mem_live.mp hx
    rw [List.mem_singleton] at hmem
    rw [hmem] at hexp
    exact ⟨hmem, hexp⟩
  generalize decision default_hasher now req [l] = d at hcases
  constructor
  · intro h
    rw [h] at hcases
    cases hcases with
    | refused x hx hexclusive ht =>
      obtain ⟨rfl, hexp⟩ := hactive x hx
      exact ⟨ht, Or.inr ⟨of_decide_eq_true hexclusive, hexp⟩⟩
    | blocked hn hs x hx ht =>
      rw [List.mem_singleton] at hx
      rw [hx] at ht
      exact ⟨ht, Or.inl hs⟩
  · rintro ⟨ht, hscope⟩
    have hown : ¬ ∀ x ∈ [l], x.token ∈ req.if_tokens := fun h => ht (h l (List.mem_singleton_self l))
    cases hcases with
    | refused _ _ _ _ => rfl
    | blocked _ _ _ _ _ => rfl
    | refresh x hx _ hmem _ =>
      rw [(hactive x hx).1] at hmem
      exact absurd hmem ht
    | downgrade x hx _ hmem _ =>
      rw [(hactive x hx).1] at hmem
      exact absurd hmem ht
    | vacant he => cases he
    | upgrade _ _ _ hall => exact absurd hall hown
    | reshare _ _ x hfind =>
      have hx := List.mem_of_find?_eq_some hfind
      have hmem := List.find?_some hfind
      rw [List.mem_singleton] at hx
      rw [hx, List.contains_iff_mem] at hmem
      exact absurd hmem ht
    | join hn hs _ _ =>
      -- the request is shared, and nothing exclusive is active
      rcases hscope with hexclusive | ⟨hexclusive, hexp⟩
      · rw [hs] at hexclusive
        cases hexclusive
      · have hlive : l ∈ active_slice now [l] :=
          Lease.mem_live.mpr ⟨List.mem_singleton_self l, hexp⟩
        have hshared := hn l hlive
        unfold LockInfo.is_exclusive at hshared
        rw [hexclusive] at hshared
        cases hshared

/-- A request that finds a lock it is refused for. -/
theorem solo_refused (hw : s.phase w = .waiting) (hu : s.clock ≤ u)
    (hown : ¬ OwnsAncestor u (pair.req w) s.locks)
    (hrefused : decision default_hasher u (pair.req w) (s.locks.at pair.target) = .error .LOCKED) :
    ∃ t, Ended default_hasher pair w s t u (.error .LOCKED) ∧
      t.locks.at pair.target = s.locks.at pair.target := by
  rw [← pair.same_target w] at hrefused
  rcases first_section_cases default_hasher u (pair.req w) s.locks with
    ⟨lock, locks', hfind, -⟩ | ⟨-, ⟨status, hd, heq⟩ | ⟨token, entry, hd, -⟩ | ⟨hnil, -⟩⟩
  · apply absurd (owns_ancestor_iff.mpr _) hown
    rw [hfind]
    exact Option.some_ne_none _
  · rw [hrefused, Except.error.injEq] at hd
    rw [← hd] at heq
    obtain ⟨t, hended, hlocks⟩ := solo_reply hw hu heq
    refine ⟨t, hended, ?_⟩
    rw [hlocks, at_or_default]
  · rw [hrefused] at hd
    cases hd
  · rw [hnil, decision_nil] at hrefused
    cases hrefused

/-! ### What a solo run says about its start -/

/-- A first section that gives the guard up has found no lock, above the target or at
it. -/
theorem first_section_none {now : ℕ} {req : LockRequest} {locks locks' : LockStore}
    (h : first_section default_hasher now req locks = (none, locks')) :
    ¬ OwnsAncestor now req locks ∧ locks.at req.target = [] ∧ ∀ p, locks'.at p = locks.at p := by
  have hown : ¬ OwnsAncestor now req locks := by
    intro hown
    obtain ⟨reply, hreply, -⟩ := @first_section_owns default_hasher now req locks hown
    rw [h] at hreply
    cases hreply
  have hnil : locks.at req.target = [] := by
    rcases first_section_cases default_hasher now req locks with
      ⟨_, _, -, heq⟩ | ⟨-, ⟨_, -, heq⟩ | ⟨_, _, -, heq⟩ | ⟨hnil, -⟩⟩
    · rw [heq] at h
      cases h
    · rw [heq] at h
      cases h
    · rw [heq] at h
      cases h
    · exact hnil
  refine ⟨hown, hnil, ?_⟩
  have hat := (@first_section_vacant default_hasher now req locks hown hnil).2
  rw [h] at hat
  exact hat

/-- A request in the gap between its sections. -/
def Phase.Gap : Phase → Prop
  | .creating | .committing _ => True
  | _ => False

/-- A request that has begun alone and is in the gap. -/
theorem gap_of_progress (hwaiting : s₀.phase w = .waiting)
    (h : Progress default_hasher pair w s₀ s) (hgap : (s.phase w).Gap) :
    s₀.clock ≤ s.clock ∧ ¬ OwnsAncestor s.clock (pair.req w) s₀.locks ∧
      s₀.locks.at pair.target = [] ∧ (∀ p, s.locks.at p = s₀.locks.at p) ∧
      (∀ created, s.phase w = .committing created → pair.fails w = false) := by
  cases h with
  | waiting =>
    rw [hwaiting] at hgap
    exact absurd hgap id
  | creating _ now hnow hclock hfirst hphase hother =>
    obtain ⟨hown, hnil, hat⟩ := first_section_none hfirst
    rw [pair.same_target w] at hnil
    rw [hclock]
    refine ⟨hnow, hown, hnil, hat, ?_⟩
    intro created hcommitting
    rw [hphase] at hcommitting
    cases hcommitting
  | committing _ now created hnow hclock hfails hfirst hphase hother =>
    obtain ⟨hown, hnil, hat⟩ := first_section_none hfirst
    rw [pair.same_target w] at hnil
    rw [hclock]
    exact ⟨hnow, hown, hnil, hat, fun _ _ => hfails⟩
  | _ =>
    rename_i hphase _
    rw [hphase] at hgap
    exact absurd hgap id

/-- **A request that has run alone on an entry without locks.** -/
theorem done_of_progress (hwaiting : s₀.phase w = .waiting)
    (h : Progress default_hasher pair w s₀ s) (hnil : s₀.locks.at pair.target = [])
    {out : Except StatusCode Unit} (hout : (s.phase w).outcome = some out) :
    (out = .ok () ∧ s.locks.at pair.target = []) ∨
      (pair.fails w = true ∧ out = .error .INTERNAL_SERVER_ERROR) ∨
      (out = .ok () ∧ s₀.clock ≤ s.clock ∧ ¬ OwnsAncestor s.clock (pair.req w) s₀.locks ∧
        s.locks.at pair.target
          = [(pair.req w).lock (generate_lock_token default_hasher s.clock) s.clock] ∧
        ∀ p, p ≠ pair.target → s.locks.at p = s₀.locks.at p) := by
  have hnil' := hnil
  rw [← pair.same_target w] at hnil'
  cases h with
  | waiting =>
    rw [hwaiting] at hout
    cases hout
  | creating _ now hnow hclock hfirst hphase hother =>
    rw [hphase] at hout
    cases hout
  | committing _ now created hnow hclock hfails hfirst hphase hother =>
    rw [hphase] at hout
    cases hout
  | replied _ now reply hnow hclock hfirst hphase hother =>
    -- only a lock of an ancestor gives a reply at once
    by_cases hown : OwnsAncestor now (pair.req w) s₀.locks
    · obtain ⟨granted, hreply, hat⟩ :=
        @first_section_owns default_hasher now (pair.req w) s₀.locks hown
      rw [hfirst, Option.some.injEq] at hreply
      rw [hphase, hreply] at hout
      rw [hfirst, hnil', pair.same_target w] at hat
      exact Or.inl ⟨(Option.some.inj hout).symm, hat⟩
    · have hnone := (@first_section_vacant default_hasher now (pair.req w) s₀.locks hown hnil').1
      rw [hfirst] at hnone
      cases hnone
  | failed _ now hnow hclock hfails hfirst hphase hother =>
    rw [hphase] at hout
    exact Or.inr (Or.inl ⟨hfails, (Option.some.inj hout).symm⟩)
  | committed _ now later created locks reply hnow hlater hclock hfails hfirst hsecond hphase hother =>
    obtain ⟨hown, -, hat⟩ := first_section_none hfirst
    have hown' : ¬ OwnsAncestor later (pair.req w) s₀.locks :=
      fun hlate => hown (owns_earlier hlate hlater)
    rcases second_section_cases default_hasher later (pair.req w) created locks with
      ⟨hne, -⟩ | ⟨-, heq⟩
    · rw [hat] at hne
      exact absurd hnil' hne
    · rw [hsecond, Prod.mk.injEq] at heq
      rw [hphase, heq.1] at hout
      rw [hclock, heq.2]
      refine Or.inr (Or.inr ⟨(Option.some.inj hout).symm, by omega, hown', ?_, ?_⟩)
      · rw [pair.same_target w, at_insert, if_pos rfl]
      · intro p hp
        rw [pair.same_target w, at_insert, if_neg hp, at_or_default]
        exact hat p

/-- A request that is refused by a lock at the target. -/
theorem refused_of_progress (hwaiting : s₀.phase w = .waiting)
    (h : Progress default_hasher pair w s₀ s) (hne : s₀.locks.at pair.target ≠ [])
    (hout : (s.phase w).outcome = some (.error .LOCKED)) :
    ∃ now, s₀.clock ≤ now ∧ ¬ OwnsAncestor now (pair.req w) s₀.locks ∧
      decision default_hasher now (pair.req w) (s₀.locks.at pair.target) = .error .LOCKED := by
  -- something stands at the target, so that the first section replies
  have hgap : ∀ now locks, first_section default_hasher now (pair.req w) s₀.locks ≠ (none, locks) := by
    intro now locks hfirst
    have hnil := (first_section_none hfirst).2.1
    rw [pair.same_target w] at hnil
    exact hne hnil
  cases h with
  | waiting =>
    rw [hwaiting] at hout
    cases hout
  | creating _ now _ _ hfirst _ _ => exact absurd hfirst (hgap now _)
  | committing _ now _ _ _ _ hfirst _ _ => exact absurd hfirst (hgap now _)
  | failed _ now _ _ _ hfirst _ _ => exact absurd hfirst (hgap now _)
  | committed _ now _ _ _ _ _ _ _ _ hfirst _ _ _ => exact absurd hfirst (hgap now _)
  | replied _ now reply hnow hclock hfirst hphase hother =>
    rw [hphase] at hout
    refine ⟨now, hnow, ?_, ?_⟩
    · intro hown
      obtain ⟨granted, hreply, -⟩ :=
        @first_section_owns default_hasher now (pair.req w) s₀.locks hown
      rw [hfirst, Option.some.injEq] at hreply
      rw [hreply] at hout
      cases hout
    -- of its replies, only a refused decision is 423
    · rcases first_section_cases default_hasher now (pair.req w) s₀.locks with
        ⟨_, _, -, heq⟩ | ⟨-, ⟨status, hd, heq⟩ | ⟨_, _, -, heq⟩ | ⟨-, heq⟩⟩
      · rw [hfirst, Prod.mk.injEq, Option.some.injEq] at heq
        rw [heq.1] at hout
        cases hout
      · rw [hfirst, Prod.mk.injEq, Option.some.injEq] at heq
        rw [heq.1] at hout
        have hstatus : (Except.error status : Except StatusCode Unit) = .error .LOCKED :=
          Option.some.inj hout
        rw [Except.error.injEq] at hstatus
        rw [← pair.same_target w, hd, hstatus]
      · rw [hfirst, Prod.mk.injEq, Option.some.injEq] at heq
        rw [heq.1] at hout
        cases hout
      · rw [hfirst] at heq
        cases heq

/-- A solo run leaves the other request where it was. -/
theorem solo_other {tr : List Event} (h : Lts.Run (Solo default_hasher pair w) s tr t) :
    t.phase w.other = s.phase w.other := by
  apply h.keeps (I := fun t => t.phase w.other = s.phase w.other) ?_ rfl
  rintro s₁ e s₂ hs₁ ⟨hstep, hwho⟩
  rw [← hs₁]
  cases hstep with
  | lock_begin w' _ _ _ =>
    have hw' : w' = w := hwho
    rw [hw']
    exact update_other _ _ _
  | create_new w' _ =>
    have hw' : w' = w := hwho
    rw [hw']
    exact update_other _ _ _
  | lock_commit w' _ _ _ _ =>
    have hw' : w' = w := hwho
    rw [hw']
    exact update_other _ _ _

end Solo

/-! ## A race that is lost -/

section Race

variable {default_hasher : ℕ → UInt64} {pair : Pair} {clock : ℕ} {locks : LockStore}

/-- **A race to the end**: the request `w` commits first, and the other one is refused. -/
theorem lost_race (hraces : Races pair clock locks) (file : Bool) (w : Who) :
    ∃ tr t, Lts.Run (Step default_hasher pair) (Duo.start clock locks file) tr t ∧
      (t.phase w).outcome = some (.ok ()) ∧
      (t.phase w.other).outcome = some (.error .LOCKED) ∧
      scopes pair t = [(pair.req w).lock_scope] := by
  obtain ⟨hnil, hfails, u, hu, hown⟩ := hraces
  -- both begin, and find no lock
  obtain ⟨s₁, hbegin, hw₁, ho₁, hclock₁, hat₁⟩ :=
    @begin_step default_hasher pair w (Duo.start clock locks file) u rfl hu (hown w) hnil
  have hown₁ : ¬ OwnsAncestor u (pair.req w.other) s₁.locks := by
    rw [owns_same (fun p _ => hat₁ p)]
    exact hown w.other
  obtain ⟨s₂, hbegin', ho₂, hw₂, hclock₂, hat₂⟩ :=
    @begin_step default_hasher pair w.other s₁ u ho₁ (by omega) hown₁ ((hat₁ _).trans hnil)
  rw [Who.other_other] at hw₂
  -- both create the file
  obtain ⟨s₃, hcreate, hw₃, ho₃, hclock₃, hlocks₃⟩ :=
    @create_step default_hasher pair w s₂ (hw₂.trans hw₁)
  obtain ⟨s₄, hcreate', ho₄, hw₄, hclock₄, hlocks₄⟩ :=
    @create_step default_hasher pair w.other s₃ (ho₃.trans ho₂)
  rw [create_succeeds (hfails _)] at hw₃ ho₄
  rw [Who.other_other] at hw₄
  have hat₄ : ∀ p, s₄.locks.at p = locks.at p := by
    intro p
    rw [hlocks₄, hlocks₃, hat₂, hat₁]
    rfl
  -- both commit
  have hcommit := @Step.lock_commit default_hasher pair s₄ w u _ (by omega) (hw₄.trans hw₃)
  rcases second_section_cases default_hasher u (pair.req w) (!s₂.file) s₄.locks with
    ⟨hne, -⟩ | ⟨-, hsecond⟩
  · rw [hat₄, pair.same_target] at hne
    exact absurd hnil hne
  rw [hsecond] at hcommit
  generalize hs₅ : Duo.mk u ((or_default [] (pair.req w).target s₄.locks : LockStore).insert
    (pair.req w).target [(pair.req w).lock (generate_lock_token default_hasher u) u]) s₄.file
    (Function.update s₄.phase w (.done (.ok (if (!s₂.file) = true then .CREATED else .OK,
      (pair.req w).lock (generate_lock_token default_hasher u) u)))) = s₅ at hcommit
  have hcommit' := @Step.lock_commit default_hasher pair s₅ w.other u (!s₃.file)
    (by rw [← hs₅]) (by
      rw [← hs₅]
      dsimp only
      rw [update_other, ho₄])
  have hat₅ : s₅.locks.at pair.target
      = [(pair.req w).lock (generate_lock_token default_hasher u) u] := by
    rw [← hs₅, pair.same_target, at_insert, if_pos rfl]
  rcases second_section_cases default_hasher u (pair.req w.other) (!s₃.file) s₅.locks with
    ⟨-, hsecond'⟩ | ⟨hnil₅, -⟩
  · refine ⟨_, _, .cons hbegin.1 (.cons hbegin'.1 (.cons hcreate.1 (.cons hcreate'.1
      (.cons hcommit (.single hcommit'))))), ?_, ?_, ?_⟩
    · dsimp only
      rw [Function.update_of_ne w.other_ne.symm, ← hs₅]
      dsimp only
      rw [Function.update_self]
      rfl
    · dsimp only
      rw [Function.update_self, hsecond']
      rfl
    · unfold scopes
      dsimp only
      rw [hsecond', at_or_default, hat₅]
      rfl
  · rw [pair.same_target, hat₅] at hnil₅
    cases hnil₅

/-- When every interleaving is serial, a race is lost to a lock that refuses the other
request in order too. -/
theorem blocks_of_serializable {file : Bool}
    (h : Serializable default_hasher pair (Duo.start clock locks file))
    (hraces : Races pair clock locks) (w : Who) : Blocks default_hasher pair w clock locks := by
  obtain ⟨tr, t, hrun, hwon, hlost, hscopes⟩ :=
    @lost_race default_hasher pair clock locks hraces file w
  have hdone : ∀ v, (t.phase v).outcome ≠ none := by
    intro v
    rcases v.eq_or_other w with rfl | rfl
    · rw [hwon]
      exact Option.some_ne_none _
    · rw [hlost]
      exact Option.some_ne_none _
  obtain ⟨x, s₁, tr₁, tr₂, t', hrun₁, hrun₂, hout, hscopes'⟩ := h tr t hrun hdone
  have hnil : (Duo.start clock locks file).locks.at pair.target = [] := hraces.1
  have hprogress := @solo_progress default_hasher pair x (Duo.start clock locks file) s₁ rfl tr₁ hrun₁
  have hkept : (t'.phase x).outcome = (s₁.phase x).outcome := by
    have hother := solo_other hrun₂
    rw [Who.other_other] at hother
    rw [hother]
  have hwaiting : s₁.phase x.other = .waiting := solo_other hrun₁
  have hprogress' := @solo_progress default_hasher pair x.other s₁ t' hwaiting tr₂ hrun₂
  rcases x.eq_or_other w with rfl | rfl
  · -- the winner first
    have hout₁ : (s₁.phase x).outcome = some (.ok ()) := by
      rw [← hkept, hout, hwon]
    have hout₂ : (t'.phase x.other).outcome = some (.error .LOCKED) := by
      rw [hout, hlost]
    rcases done_of_progress rfl hprogress hnil hout₁ with
      ⟨-, hnil₁⟩ | ⟨hfails, -⟩ | ⟨-, hclock, hown, hat, hat'⟩
    · rcases done_of_progress hwaiting hprogress' hnil₁ hout₂ with ⟨heq, -⟩ | ⟨-, heq⟩ | ⟨heq, -⟩
      · cases heq
      · cases heq
      · cases heq
    · rw [hraces.2.1] at hfails
      cases hfails
    · obtain ⟨u', hu', hown', hrefused⟩ := refused_of_progress hwaiting hprogress'
        (by rw [hat]; exact List.cons_ne_nil _ _) hout₂
      rw [hat, decision_refuses] at hrefused
      rw [owns_same hat'] at hown'
      exact ⟨s₁.clock, u', hclock, hu', hown, hown', hrefused⟩
  · -- the loser first: nothing refuses it
    have hout₁ : (s₁.phase w.other).outcome = some (.error .LOCKED) := by
      rw [← hkept, hout, hlost]
    rcases done_of_progress rfl hprogress hnil hout₁ with ⟨heq, -⟩ | ⟨-, heq⟩ | ⟨heq, -⟩
    · cases heq
    · cases heq
    · cases heq

end Race

/-! ## Requests that overlap -/

section Overlapped

variable (default_hasher : ℕ → UInt64) (pair : Pair)

/-- What may have become of a request in a race: it is in the gap, or has failed to create
the file, or has been granted its lock, or has come too late. -/
def Pending (w : Who) (s : Duo) : Prop :=
  (s.phase w).Gap ∧ ∀ created, s.phase w = .committing created → pair.fails w = false

def Failed (w : Who) (s : Duo) : Prop :=
  (s.phase w).outcome = some (.error .INTERNAL_SERVER_ERROR) ∧ pair.fails w = true

def Won (w : Who) (s : Duo) : Prop :=
  (s.phase w).outcome = some (.ok ()) ∧ pair.fails w = false

def Lost (w : Who) (s : Duo) : Prop :=
  (s.phase w).outcome = some (.error .LOCKED) ∧ pair.fails w = false

/-- A state in which both requests have begun, one in the gap of the other, on a target
without locks. At some time `u` those that own no lock of an ancestor are in the race,
and the others have been granted at once. -/
structure Overlapped (clock : ℕ) (locks : LockStore) (u : ℕ) (s : Duo) : Prop where
  nil : locks.at pair.target = []
  later : clock ≤ u
  refreshed : ∀ w, OwnsAncestor u (pair.req w) locks → (s.phase w).outcome = some (.ok ())
  racing : ∃ w, ¬ OwnsAncestor u (pair.req w) locks
  race : (s.locks.at pair.target = [] ∧
      ∀ w, ¬ OwnsAncestor u (pair.req w) locks → Pending pair w s ∨ Failed pair w s) ∨
    ∃ w, ¬ OwnsAncestor u (pair.req w) locks ∧ Won pair w s ∧
      scopes pair s = [(pair.req w).lock_scope] ∧ s.locks.at pair.target ≠ [] ∧
      (¬ OwnsAncestor u (pair.req w.other) locks →
        Pending pair w.other s ∨ Failed pair w.other s ∨ Lost pair w.other s)

variable {default_hasher pair} {clock : ℕ} {locks : LockStore} {u : ℕ} {s t : Duo}

/-- A request that is not in the gap and has begun takes no step. -/
theorem no_step {e : Event} (h : Step default_hasher pair s e t) :
    (s.phase e.who).outcome = none := by
  cases h with
  | lock_begin w now hnow hw =>
    change (s.phase w).outcome = none
    rw [hw]
    rfl
  | create_new w hw =>
    change (s.phase w).outcome = none
    rw [hw]
    rfl
  | lock_commit w now created hnow hw =>
    change (s.phase w).outcome = none
    rw [hw]
    rfl

theorem step_other {e : Event} (h : Step default_hasher pair s e t) :
    t.phase e.who.other = s.phase e.who.other := by
  cases h with
  | lock_begin w now hnow hw => exact update_other _ _ _
  | create_new w hw => exact update_other _ _ _
  | lock_commit w now created hnow hw => exact update_other _ _ _

/-- A step of a request in the gap: it fails, or goes on, or commits. -/
theorem pending_step {e : Event} (h : Step default_hasher pair s e t)
    (hpending : Pending pair e.who s) :
    ((Pending pair e.who t ∨ Failed pair e.who t) ∧ t.locks = s.locks) ∨
      (s.locks.at pair.target = [] ∧ Won pair e.who t ∧
        scopes pair t = [(pair.req e.who).lock_scope] ∧ t.locks.at pair.target ≠ []) ∨
      (s.locks.at pair.target ≠ [] ∧ Lost pair e.who t ∧
        t.locks.at pair.target = s.locks.at pair.target) := by
  -- the step that is taken in the gap
  cases h with
  | lock_begin w now hnow hw =>
    have hgap := hpending.1
    change (s.phase w).Gap at hgap
    rw [hw] at hgap
    exact absurd hgap id
  | create_new w hw =>
    refine Or.inl ⟨?_, rfl⟩
    cases hfails : pair.fails w with
    | true =>
      apply Or.inr
      refine ⟨?_, hfails⟩
      change (Function.update s.phase w _ w).outcome = _
      rw [Function.update_self, create_fails hfails]
      rfl
    | false =>
      apply Or.inl
      refine ⟨?_, fun _ _ => hfails⟩
      change (Function.update s.phase w _ w).Gap
      rw [Function.update_self, create_succeeds hfails]
      trivial
  | lock_commit w now created hnow hw =>
    have hfails : pair.fails w = false := hpending.2 created hw
    right
    rcases second_section_cases default_hasher now (pair.req w) created s.locks with
      ⟨hne, heq⟩ | ⟨hnil, heq⟩
    · rw [pair.same_target w] at hne
      refine Or.inr ⟨hne, ⟨?_, hfails⟩, ?_⟩
      · change (Function.update s.phase w _ w).outcome = _
        rw [Function.update_self, heq]
        rfl
      · dsimp only
        rw [heq, at_or_default]
    · rw [pair.same_target w] at hnil
      have hat : LockStore.at (second_section default_hasher now (pair.req w) created s.locks).2
          pair.target = [(pair.req w).lock (generate_lock_token default_hasher now) now] := by
        rw [heq, pair.same_target w, at_insert, if_pos rfl]
      refine Or.inl ⟨hnil, ⟨?_, hfails⟩, ?_, ?_⟩
      · change (Function.update s.phase w _ w).outcome = _
        rw [Function.update_self, heq]
        rfl
      · unfold scopes
        dsimp only
        rw [hat]
        rfl
      · dsimp only
        rw [hat]
        exact List.cons_ne_nil _ _

/-- **Overlapping requests stay so**, with a winner once the first of them commits. -/
theorem Overlapped.step {e : Event} (h : Overlapped pair clock locks u s)
    (hs : Step default_hasher pair s e t) : Overlapped pair clock locks u t := by
  have hnone := no_step hs
  have hother := step_other hs
  -- the request that takes the step is in the race
  have hracing : ¬ OwnsAncestor u (pair.req e.who) locks := by
    intro hown
    rw [h.refreshed e.who hown] at hnone
    cases hnone
  have hrefreshed : ∀ w, OwnsAncestor u (pair.req w) locks → (t.phase w).outcome = some (.ok ()) := by
    intro w hown
    rcases w.eq_or_other e.who with rfl | rfl
    · exact absurd hown hracing
    · rw [hother]
      exact h.refreshed _ hown
  refine ⟨h.nil, h.later, hrefreshed, h.racing, ?_⟩
  have hstill : Pending pair e.who.other s ∨ Failed pair e.who.other s →
      Pending pair e.who.other t ∨ Failed pair e.who.other t := by
    unfold Pending Failed
    rw [hother]
    exact id
  rcases h.race with ⟨hnil, hall⟩ | ⟨w, hw, hwon, hscopes, hne, hrest⟩
  · have hpending : Pending pair e.who s := by
      apply (hall e.who hracing).resolve_right
      rintro ⟨hfailed, -⟩
      rw [hnone] at hfailed
      cases hfailed
    rcases pending_step hs hpending with ⟨hgoes, hlocks⟩ | ⟨-, hwon, hscopes, hne⟩ | ⟨hne, -⟩
    · apply Or.inl
      refine ⟨by rw [hlocks]; exact hnil, ?_⟩
      intro w hw
      rcases w.eq_or_other e.who with rfl | rfl
      · exact hgoes
      · exact hstill (hall _ hw)
    · apply Or.inr
      refine ⟨e.who, hracing, hwon, hscopes, hne, ?_⟩
      intro hw
      rcases hstill (hall _ hw) with hp | hf
      · exact Or.inl hp
      · exact Or.inr (Or.inl hf)
    · exact absurd hnil hne
  · -- there is a winner, and the other request takes the step
    have hwho : e.who = w.other := by
      apply (e.who.eq_or_other w).resolve_left
      intro heq
      rw [heq, hwon.1] at hnone
      cases hnone
    have hw' : e.who.other = w := by
      rw [hwho, Who.other_other]
    rw [hw'] at hother
    have hpending : Pending pair e.who s := by
      rw [← hwho] at hrest
      rcases hrest hracing with hp | ⟨hout, -⟩ | ⟨hout, -⟩
      · exact hp
      · rw [hnone] at hout
        cases hout
      · rw [hnone] at hout
        cases hout
    have hwon' : Won pair w t := by
      unfold Won
      rw [hother]
      exact hwon
    apply Or.inr
    rcases pending_step hs hpending with ⟨hgoes, hlocks⟩ | ⟨hnil, -⟩ | ⟨-, hlost, hat⟩
    · refine ⟨w, hw, hwon', ?_, ?_, ?_⟩
      · unfold scopes
        rw [hlocks]
        exact hscopes
      · rw [hlocks]
        exact hne
      · intro _
        rw [← hwho]
        rcases hgoes with hp | hf
        · exact Or.inl hp
        · exact Or.inr (Or.inl hf)
    · exact absurd hnil hne
    · refine ⟨w, hw, hwon', ?_, ?_, ?_⟩
      · unfold scopes
        rw [hat]
        exact hscopes
      · rw [hat]
        exact hne
      · intro _
        rw [← hwho]
        exact Or.inr (Or.inr hlost)

end Overlapped

/-! ## Every run -/

section Runs

variable {default_hasher : ℕ → UInt64} {pair : Pair} {clock : ℕ} {locks : LockStore}
  {file : Bool} {s t : Duo}

variable (default_hasher pair clock locks file) in
/-- The states of an interleaving: one request runs alone, or the other one after it, or
the two overlap. -/
inductive Stage (s : Duo) : Prop
  | alone (w : Who) (tr : List Event)
      (hrun : Lts.Run (Solo default_hasher pair w) (Duo.start clock locks file) tr s)
      (hother : s.phase w.other = .waiting)
  | after (w : Who) (s₁ : Duo) (tr₁ tr₂ : List Event)
      (hrun : Lts.Run (Solo default_hasher pair w) (Duo.start clock locks file) tr₁ s₁)
      (hdone : (s₁.phase w).outcome ≠ none)
      (hrun' : Lts.Run (Solo default_hasher pair w.other) s₁ tr₂ s)
  | overlapped (u : ℕ) (h : Overlapped pair clock locks u s)

/-- **An overlap begins** with the first section of one request in the gap of the other. -/
theorem overlap_begins {w : Who} {now : ℕ}
    (h : Progress default_hasher pair w (Duo.start clock locks file) s) (hgap : (s.phase w).Gap)
    (hs : Step default_hasher pair s (.lock_begin w.other now) t) :
    Overlapped pair clock locks now t := by
  obtain ⟨hclock, hown, hnil, hat, hcommitting⟩ := gap_of_progress rfl h hgap
  have hkept := step_other hs
  rw [show (Event.lock_begin w.other now).who.other = w from Who.other_other w] at hkept
  cases hs with
  | lock_begin _ _ hnow hwaiting =>
    have hclock' : clock ≤ now := le_trans hclock hnow
    have hlate : ¬ OwnsAncestor now (pair.req w) locks := fun hlate => hown (owns_earlier hlate hnow)
    have hsame : OwnsAncestor now (pair.req w.other) s.locks
        ↔ OwnsAncestor now (pair.req w.other) locks := owns_same fun p _ => hat p
    have hnil' : s.locks.at (pair.req w.other).target = [] := by
      rw [hat, pair.same_target]
      exact hnil
    refine ⟨hnil, hclock', ?_, ⟨w, hlate⟩, Or.inl ⟨?_, ?_⟩⟩
    -- only the other request can own an ancestor: this one has not
    · intro v hv
      rcases v.eq_or_other w with rfl | rfl
      · exact absurd hv hlate
      · obtain ⟨reply, hreply, -⟩ := @first_section_owns default_hasher now (pair.req w.other)
          s.locks (hsame.mpr hv)
        dsimp only
        rw [Function.update_self, hreply]
        rfl
    · dsimp only
      rw [← pair.same_target w.other]
      by_cases howns : OwnsAncestor now (pair.req w.other) s.locks
      · obtain ⟨-, -, hat'⟩ := @first_section_owns default_hasher now (pair.req w.other) s.locks howns
        rw [hat', hnil']
      · rw [(@first_section_vacant default_hasher now (pair.req w.other) s.locks howns hnil').2, hnil']
    · intro v hv
      left
      rcases v.eq_or_other w with rfl | rfl
      · unfold Pending
        rw [hkept]
        exact ⟨hgap, hcommitting⟩
      · have hnone := (@first_section_vacant default_hasher now (pair.req w.other) s.locks
          (fun howns => hv (hsame.mp howns)) hnil').1
        unfold Pending
        dsimp only
        rw [Function.update_self, hnone]
        refine ⟨trivial, ?_⟩
        intro created hcreated
        cases hcreated

theorem Stage.step {e : Event} (h : Stage default_hasher pair clock locks file s)
    (hs : Step default_hasher pair s e t) : Stage default_hasher pair clock locks file t := by
  cases h with
  | alone w tr hrun hother =>
    rcases e.who.eq_or_other w with hwho | hwho
    · -- the request goes on alone
      refine .alone w (tr ++ [e]) (hrun.append (.single ⟨hs, hwho⟩)) ?_
      rw [← hwho, step_other hs, hwho]
      exact hother
    · have hprogress := solo_progress rfl hrun
      by_cases hdone : (s.phase w).outcome = none
      · by_cases hgap : (s.phase w).Gap
        · cases hs with
          | lock_begin w' now hnow hw =>
            have hw' : w' = w.other := hwho
            subst hw'
            exact .overlapped now (overlap_begins hprogress hgap (.lock_begin s _ now hnow hw))
          | create_new w' hw =>
            rw [show w' = w.other from hwho, hother] at hw
            cases hw
          | lock_commit w' now created hnow hw =>
            rw [show w' = w.other from hwho, hother] at hw
            cases hw
        · -- nothing has happened yet
          cases hprogress with
          | waiting =>
            refine .alone w.other [e] (.single ⟨hs, hwho⟩) ?_
            rw [← hwho, step_other hs]
            rfl
          | creating _ _ _ _ _ hphase _ =>
            rw [hphase] at hgap
            exact absurd trivial hgap
          | committing _ _ _ _ _ _ _ hphase _ =>
            rw [hphase] at hgap
            exact absurd trivial hgap
          | _ =>
            rename_i hphase _
            rw [hphase] at hdone
            cases hdone
      · exact .after w s tr [e] hrun hdone (.single ⟨hs, hwho⟩)
  | after w s₁ tr₁ tr₂ hrun hdone hrun' =>
    rcases e.who.eq_or_other w with hwho | hwho
    · have hnone := no_step hs
      have hkept := solo_other hrun'
      rw [Who.other_other] at hkept
      rw [hwho, hkept] at hnone
      exact absurd hnone hdone
    · exact .after w s₁ tr₁ (tr₂ ++ [e]) hrun hdone (hrun'.append (.single ⟨hs, hwho⟩))
  | overlapped u h => exact .overlapped u (h.step hs)

theorem stage_of_run {tr : List Event}
    (h : Lts.Run (Step default_hasher pair) (Duo.start clock locks file) tr s) :
    Stage default_hasher pair clock locks file s :=
  h.keeps (fun _ _ _ hi hs => hi.step hs) (.alone .first [] (.nil _) rfl)

/-- One request alone and then the other, with the outcomes of a state. -/
theorem in_order_of_ended {w : Who} {s₀ t₁ t₂ : Duo} {u u' : ℕ} {out out' : Except StatusCode Unit}
    (h : Ended default_hasher pair w s₀ t₁ u out) (h' : Ended default_hasher pair w.other t₁ t₂ u' out')
    (hout : (t.phase w).outcome = some out) (hout' : (t.phase w.other).outcome = some out')
    (hscopes : scopes pair t₂ = scopes pair t) : InOrder default_hasher pair s₀ t := by
  obtain ⟨tr, hrun⟩ := h.run
  obtain ⟨tr', hrun'⟩ := h'.run
  refine ⟨w, t₁, tr, tr', t₂, hrun, hrun', ?_, hscopes⟩
  intro v
  rcases v.eq_or_other w with rfl | rfl
  · have hkept := h'.other
    rw [Who.other_other] at hkept
    rw [hkept, h.outcome, hout]
  · rw [h'.outcome, hout']

/-- A request that is answered is out of its gap. -/
theorem not_pending {w : Who} (hdone : (t.phase w).outcome ≠ none) : ¬ Pending pair w t := by
  rintro ⟨hgap, -⟩
  cases hphase : t.phase w with
  | waiting =>
    rw [hphase] at hgap
    exact hgap
  | creating =>
    rw [hphase] at hdone
    exact hdone rfl
  | committing created =>
    rw [hphase] at hdone
    exact hdone rfl
  | done reply =>
    rw [hphase] at hgap
    exact hgap

theorem scopes_of_granted {w : Who} {u : ℕ} (hat : t.locks.at pair.target
      = [(pair.req w).lock (generate_lock_token default_hasher u) u]) :
    scopes pair t = [(pair.req w).lock_scope] := by
  unfold scopes
  rw [hat]
  rfl

section InOrder

variable {u : ℕ}

/-- Nobody committed: whoever was in the race failed, and fails in order too. -/
theorem uncommitted_in_order (h : Overlapped pair clock locks u t)
    (hnil : t.locks.at pair.target = [])
    (hall : ∀ w, ¬ OwnsAncestor u (pair.req w) locks → Failed pair w t) :
    InOrder default_hasher pair (Duo.start clock locks file) t := by
  obtain ⟨w, hw⟩ := h.racing
  have hempty : ∀ t' : Duo, t'.locks.at pair.target = [] → scopes pair t' = scopes pair t := by
    intro t' ht'
    unfold scopes
    rw [ht', hnil]
  obtain ⟨hfailed, hfails⟩ := hall w hw
  -- the first of them runs alone, and leaves the entry empty
  obtain ⟨t₁, hended, hat⟩ := @solo_failed default_hasher pair w (Duo.start clock locks file) u
    rfl h.later hw h.nil hfails
  have hnil₁ : t₁.locks.at pair.target = [] := (hat _).trans h.nil
  have hclock₁ : t₁.clock ≤ u := le_of_eq hended.clock
  have hsame : OwnsAncestor u (pair.req w.other) t₁.locks
      ↔ OwnsAncestor u (pair.req w.other) locks := owns_same fun p _ => hat p
  by_cases howns : OwnsAncestor u (pair.req w.other) locks
  · obtain ⟨t₂, hended', hat'⟩ := @solo_refresh default_hasher pair w.other t₁ u hended.other
      hclock₁ (hsame.mpr howns)
    exact in_order_of_ended hended hended' hfailed (h.refreshed _ howns)
      (hempty t₂ (hat'.trans hnil₁))
  · obtain ⟨hfailed', hfails'⟩ := hall _ howns
    obtain ⟨t₂, hended', hat'⟩ := @solo_failed default_hasher pair w.other t₁ u hended.other
      hclock₁ (fun hlate => howns (hsame.mp hlate)) hnil₁ hfails'
    exact in_order_of_ended hended hended' hfailed hfailed' (hempty t₂ ((hat' _).trans hnil₁))

section Won

variable {w : Who}

/-- One won, and the other was granted at once: the winner goes first. -/
theorem refreshed_in_order (h : Overlapped pair clock locks u t)
    (hw : ¬ OwnsAncestor u (pair.req w) locks) (hwon : Won pair w t)
    (hscopes : scopes pair t = [(pair.req w).lock_scope])
    (howns : OwnsAncestor u (pair.req w.other) locks) :
    InOrder default_hasher pair (Duo.start clock locks file) t := by
  obtain ⟨t₁, hended, hat, hat'⟩ := @solo_granted default_hasher pair w
    (Duo.start clock locks file) u rfl h.later hw h.nil hwon.2
  obtain ⟨t₂, hended', hat₂⟩ := @solo_refresh default_hasher pair w.other t₁ u hended.other
    (le_of_eq hended.clock) ((owns_same hat').mpr howns)
  refine in_order_of_ended hended hended' hwon.1 (h.refreshed _ howns) ?_
  rw [hscopes]
  exact scopes_of_granted (hat₂.trans hat)

/-- One won, and the other failed: the one that failed goes first. -/
theorem failed_in_order (h : Overlapped pair clock locks u t)
    (hw : ¬ OwnsAncestor u (pair.req w) locks) (hwon : Won pair w t)
    (hscopes : scopes pair t = [(pair.req w).lock_scope])
    (howns : ¬ OwnsAncestor u (pair.req w.other) locks) (hfailed : Failed pair w.other t) :
    InOrder default_hasher pair (Duo.start clock locks file) t := by
  obtain ⟨t₁, hended, hat⟩ := @solo_failed default_hasher pair w.other
    (Duo.start clock locks file) u rfl h.later howns h.nil hfailed.2
  have hwaiting : t₁.phase w = .waiting := by
    have hother := hended.other
    rw [Who.other_other] at hother
    exact hother
  obtain ⟨t₂, hended', hat₂, -⟩ := @solo_granted default_hasher pair w t₁ u hwaiting
    (le_of_eq hended.clock) (fun hlate => hw ((owns_same fun p _ => hat p).mp hlate))
    ((hat _).trans h.nil) hwon.2
  refine @in_order_of_ended default_hasher pair t w.other _ t₁ t₂ u u _ (.ok ()) hended ?_
    hfailed.1 ?_ ?_
  · rw [Who.other_other]
    exact hended'
  · rw [Who.other_other]
    exact hwon.1
  · rw [hscopes]
    exact scopes_of_granted hat₂

/-- One won, and the other was refused: in order it is refused too, if it can be. -/
theorem lost_in_order (h : Overlapped pair clock locks u t)
    (hw : ¬ OwnsAncestor u (pair.req w) locks) (hwon : Won pair w t)
    (hscopes : scopes pair t = [(pair.req w).lock_scope])
    (howns : ¬ OwnsAncestor u (pair.req w.other) locks) (hlost : Lost pair w.other t)
    (hblocks : Races pair clock locks → ∀ w, Blocks default_hasher pair w clock locks) :
    InOrder default_hasher pair (Duo.start clock locks file) t := by
  -- so both were granted the file, at one time
  have hraces : Races pair clock locks := by
    refine ⟨h.nil, ?_, u, h.later, ?_⟩
    · intro v
      rcases v.eq_or_other w with rfl | rfl
      · exact hwon.2
      · exact hlost.2
    · intro v
      rcases v.eq_or_other w with rfl | rfl
      · exact hw
      · exact howns
  obtain ⟨v, v', hv, hv', hown, hown', hrefuses⟩ := hblocks hraces w
  obtain ⟨t₁, hended, hat, hat'⟩ := @solo_granted default_hasher pair w
    (Duo.start clock locks file) v rfl hv hown h.nil hwon.2
  obtain ⟨t₂, hended', hat₂⟩ := @solo_refused default_hasher pair w.other t₁ v' hended.other
    (by rw [hended.clock]; exact hv') (fun hlate => hown' ((owns_same hat').mp hlate))
    (by rw [hat, decision_refuses]; exact hrefuses)
  refine in_order_of_ended hended hended' hwon.1 hlost.1 ?_
  rw [hscopes]
  exact scopes_of_granted (hat₂.trans hat)

end Won

/-- **Overlapping requests in order**: a request that failed goes first, the winner before
one that was granted on an ancestor's lock, and before one that came too late when its
lock refuses it in order too. -/
theorem overlapped_in_order (h : Overlapped pair clock locks u t)
    (hdone : ∀ w, (t.phase w).outcome ≠ none)
    (hblocks : Races pair clock locks → ∀ w, Blocks default_hasher pair w clock locks) :
    InOrder default_hasher pair (Duo.start clock locks file) t := by
  have hnot : ∀ w, ¬ Pending pair w t := fun w => not_pending (hdone w)
  rcases h.race with ⟨hnil, hall⟩ | ⟨w, hw, hwon, hscopes, -, hrest⟩
  · exact uncommitted_in_order h hnil fun w hw => (hall w hw).resolve_left (hnot w)
  · by_cases howns : OwnsAncestor u (pair.req w.other) locks
    · exact refreshed_in_order h hw hwon hscopes howns
    · rcases (hrest howns).resolve_left (hnot _) with hfailed | hlost
      · exact failed_in_order h hw hwon hscopes howns hfailed
      · exact lost_in_order h hw hwon hscopes howns hlost hblocks

end InOrder

/-- **Two LOCKs are serializable exactly when they cannot race, or each refuses the other
in order too.** -/
theorem serializable_iff (default_hasher : ℕ → UInt64) (pair : Pair) (clock : ℕ)
    (locks : LockStore) (file : Bool) :
    Serializable default_hasher pair (Duo.start clock locks file) ↔
      (Races pair clock locks → ∀ w, Blocks default_hasher pair w clock locks) := by
  constructor
  · intro h hraces w
    exact blocks_of_serializable h hraces w
  · intro h tr t hrun hdone
    cases stage_of_run hrun with
    | alone w tr hsolo hother =>
      have hw := hdone w.other
      rw [hother] at hw
      exact absurd rfl hw
    | after w s₁ tr₁ tr₂ hrun₁ _ hrun₂ => exact ⟨w, s₁, tr₁, tr₂, t, hrun₁, hrun₂, fun _ => rfl, rfl⟩
    | overlapped u h' => exact overlapped_in_order h' hdone h

end Runs

/-! ## Two shared locks -/

/-- Two requests for a shared lock on `/f`, by clients that hold no lock. -/
def two_shared : Pair where
  req := fun _ =>
    { target := [f_name]
      timeout := none
      depth := .Zero
      if_tokens := []
      owner := none
      lock_scope := .Shared }
  target := [f_name]
  same_target := fun _ => rfl
  fails := fun _ => false

/-- Two shared locks are granted in either order, but not when the requests overlap. -/
theorem shared_locks_refused :
    ¬ ∀ (default_hasher : ℕ → UInt64) (pair : Pair) (clock : ℕ) (locks : LockStore) (file : Bool),
      Serializable default_hasher pair (Duo.start clock locks file) := by
  intro hall
  have hraces : Races two_shared 0 ∅ := by
    refine ⟨rfl, fun _ => rfl, 0, le_rfl, ?_⟩
    rintro w ⟨p, -, -, l, hl, -⟩
    cases hl
  obtain ⟨u, u', -, -, -, -, -, hscope | ⟨hscope, -⟩⟩ :=
    blocks_of_serializable (hall (fun _ => 0) two_shared 0 ∅ false) hraces .first
  · cases hscope
  · cases hscope

end Rshs.Serial
