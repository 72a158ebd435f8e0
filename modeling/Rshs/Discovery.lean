/-
What a PROPFIND says about locks, and what the lock middleware takes into account.

`handle_propfind` joins the locks stored at the resource itself. The middleware also
asks the infinite locks of the directories above. `covering` is its list: everything
active at the resource, and the active infinite locks of its proper ancestors. The
answer reports it exactly when no ancestor has such a lock (`discovery_agrees_iff`).
-/
import Rshs.Propfind
import Rshs.Enforcement

set_option autoImplicit false

namespace Rshs.Discovery

open StdPath Posix FinMap Rshs.Webdav Rshs.Ls Rshs.Xml Rshs.App Rshs.Propfind Rshs.Enforcement

/-! ## The locks of a resource -/

/-- The active infinite locks stored at the proper ancestors of a path. -/
def inherited (now : ℕ) (locks : LockStore) (target : Path) : List LockInfo :=
  target.inits.dropLast.flatMap fun p =>
    (active_slice now (locks.at p)).filter fun l => l.depth = .Infinity

/-- The locks a write to the path is checked against. -/
def covering (now : ℕ) (locks : LockStore) (target : Path) : List LockInfo :=
  active_slice now (locks.at target) ++ inherited now locks target

theorem mem_proper_inits {α : Type} {p q : List α} :
    p ∈ q.inits.dropLast ↔ p <+: q ∧ p ≠ q := by
  induction q generalizing p with
  | nil => simp
  | cons x q ih =>
    have hne : q.inits.map (List.cons x) ≠ [] := by
      intro h
      have hlen := congrArg List.length h
      simp at hlen
    rw [List.inits_cons, List.dropLast_cons_of_ne_nil hne, ← List.map_dropLast, List.mem_cons,
      List.mem_map]
    constructor
    · rintro (rfl | ⟨r, hr, rfl⟩)
      · exact ⟨List.nil_prefix, by simp⟩
      · obtain ⟨hpre, hr⟩ := ih.mp hr
        exact ⟨(List.cons_prefix_cons).mpr ⟨rfl, hpre⟩, by simpa using hr⟩
    · rintro ⟨hpre, hpq⟩
      cases p with
      | nil => exact Or.inl rfl
      | cons y p =>
        obtain ⟨rfl, htail⟩ := List.cons_prefix_cons.mp hpre
        exact Or.inr ⟨p, ih.mpr ⟨htail, by simpa using hpq⟩, rfl⟩

theorem mem_inherited {now : ℕ} {locks : LockStore} {target : Path} {l : LockInfo} :
    l ∈ inherited now locks target ↔
      ∃ p, p <+: target ∧ p ≠ target ∧ l ∈ active_slice now (locks.at p) ∧ l.depth = .Infinity := by
  simp only [inherited, List.mem_flatMap, mem_proper_inits, List.mem_filter, decide_eq_true_eq,
    and_assoc]

/-- The list holds the locks that cover the target, as the middleware counts them. -/
theorem mem_covering {now : ℕ} {locks : LockStore} {target : Path} {l : LockInfo} :
    l ∈ covering now locks target ↔ Covers now locks target l := by
  unfold covering Covers
  rw [List.mem_append, mem_inherited]

/-! ## The lock discovery of an answer -/

/-- The answer has a lock discovery, with status 200, whose `activelock` elements are
those of the locks. -/
def Reports (r : Response) (locks : List LockInfo) : Prop :=
  ∃ ls, List.Perm ls locks ∧
    (element El.LOCK_DISCOVERY (ls.flatMap write_activelock), OK_LINE) ∈ r.reported

/-- How many `activelock` elements begin in some events. -/
def active_locks_in (events : List Event) : ℕ := events.count (.Start El.ACTIVE_LOCK [])

theorem active_locks_in_append (es fs : List Event) :
    active_locks_in (es ++ fs) = active_locks_in es + active_locks_in fs := List.count_append

/-- An element of another name has those of its content. -/
theorem active_locks_in_element {name : String} (h : name ≠ El.ACTIVE_LOCK)
    (content : List Event) : active_locks_in (element name content) = active_locks_in content := by
  have hstart : Event.Start name [] ≠ .Start El.ACTIVE_LOCK [] := by
    intro heq
    cases heq
    exact h rfl
  have hend : active_locks_in [.End name] = 0 := rfl
  have hcons : active_locks_in (element name content) =
      active_locks_in (content ++ [.End name]) := List.count_cons_of_ne hstart
  rw [hcons, active_locks_in_append, hend, Nat.add_zero]

theorem active_locks_in_one (l : LockInfo) : active_locks_in (write_activelock l) = 1 := by
  have hself : ∀ content, active_locks_in (element El.ACTIVE_LOCK content) =
      active_locks_in content + 1 := by
    intro content
    have hcons : active_locks_in (element El.ACTIVE_LOCK content) =
        active_locks_in (content ++ [.End El.ACTIVE_LOCK]) + 1 := List.count_cons_self
    have hend : active_locks_in [.End El.ACTIVE_LOCK] = 0 := rfl
    rw [hcons, active_locks_in_append, hend]
  have hempty : ∀ name, active_locks_in [.Empty name []] = 0 := fun name => rfl
  have htext : ∀ text, active_locks_in [.Text text] = 0 := fun text => rfl
  unfold write_activelock
  rw [hself]
  simp only [active_locks_in_append]
  rw [active_locks_in_element (by decide), active_locks_in_element (by decide),
    active_locks_in_element (by decide), active_locks_in_element (by decide),
    active_locks_in_element (by decide), hempty, hempty, htext, htext]
  -- the owner and the timeout are left out where the lock has none
  cases l.owner with
  | none =>
    cases l.timeout with
    | none => rfl
    | some d => rw [active_locks_in_element (by decide), htext]; rfl
  | some owner =>
    cases l.timeout with
    | none => rw [active_locks_in_element (by decide), htext]; rfl
    | some d =>
      rw [active_locks_in_element (by decide), active_locks_in_element (by decide), htext, htext]

theorem active_locks_in_all (ls : List LockInfo) :
    active_locks_in (ls.flatMap write_activelock) = ls.length := by
  induction ls with
  | nil => rfl
  | cons l ls ih =>
    rw [List.flatMap_cons, active_locks_in_append, active_locks_in_one, ih, List.length_cons,
      Nat.add_comm]

/-- A dead property is no lock discovery. -/
theorem dead_prop_ne (e : Entry String String) (ls : List LockInfo) :
    dead_prop e ≠ element El.LOCK_DISCOVERY (ls.flatMap write_activelock) := by
  intro h
  unfold dead_prop element at h
  cases ls with
  | nil => simp at h
  | cons l ls =>
    -- an `activelock` would begin where the text is
    rw [List.flatMap_cons] at h
    simp [write_activelock, element] at h

/-- The one lock discovery of an answer is that of its entry's locks. -/
theorem discovery_reported {entry : PropEntry} {prop_request : PropRequest} {r : Response}
    (hr : write_response prop_request entry = some r)
    (hask : Asks prop_request "lockdiscovery") (ls : List LockInfo) :
    (element El.LOCK_DISCOVERY (ls.flatMap write_activelock), OK_LINE) ∈ r.reported ↔
      ls.flatMap write_activelock = (entry.active_locks.getD []).flatMap write_activelock := by
  have hname : prop_request ≠ .PropName := by
    intro h
    rw [h] at hask
    exact hask
  have hlive : live_element entry "lockdiscovery"
      = element El.LOCK_DISCOVERY ((entry.active_locks.getD []).flatMap write_activelock) := rfl
  rw [reported_eq hr hname, List.mem_append, List.mem_append, List.mem_map, List.mem_map,
    List.mem_map]
  constructor
  · rintro ((⟨p, hp, heq⟩ | ⟨p, -, heq⟩) | ⟨p, hp, heq⟩)
    · have hmem := (mem_asked.mp (List.mem_filter.mp hp).1).1
      have hfst := congrArg Prod.fst heq
      dsimp only at hfst
      -- the live property with this head is the lock discovery
      have hhead := live_prop_head hmem (live_written hr hname hp)
      rw [hfst] at hhead
      have hp' : "lockdiscovery" = p := by
        simp only [element, List.head?_cons, Option.some.injEq, Event.Start.injEq, and_true] at hhead
        have hlist := congrArg String.toList hhead
        rw [show El.LOCK_DISCOVERY = "D:" ++ "lockdiscovery" from rfl, String.toList_append,
          String.toList_append, List.append_cancel_left_eq] at hlist
        exact String.toList_inj.mp hlist
      rw [← hp', hlive] at hfst
      simpa [element] using hfst.symm
    · have hsnd := congrArg Prod.snd heq
      simp [OK_LINE, NOT_FOUND_LINE] at hsnd
    · unfold dead_elements at hp
      cases hdead : entry.dead_props with
      | none =>
        rw [hdead] at hp
        cases hp
      | some dead =>
        rw [hdead] at hp
        obtain ⟨e, -, he⟩ := List.mem_map.mp hp
        have hfst := congrArg Prod.fst heq
        dsimp only at hfst
        rw [← he] at hfst
        exact absurd hfst (dead_prop_ne e ls)
  · intro h
    refine Or.inl (Or.inl ⟨"lockdiscovery", ?_, by rw [hlive, h]⟩)
    refine List.mem_filter.mpr ⟨mem_asked.mpr ⟨by decide, hask⟩, ?_⟩
    simp [is_applicable]

theorem reports_iff {entry : PropEntry} {prop_request : PropRequest} {r : Response}
    (hr : write_response prop_request entry = some r)
    (hask : Asks prop_request "lockdiscovery") (above : List LockInfo) :
    Reports r (entry.active_locks.getD [] ++ above) ↔ above = [] := by
  constructor
  · rintro ⟨ls, hperm, hmem⟩
    have hflat := (discovery_reported hr hask ls).mp hmem
    -- as many elements are reported as the entry has locks
    have hlen := congrArg active_locks_in hflat
    rw [active_locks_in_all, active_locks_in_all, hperm.length_eq, List.length_append] at hlen
    exact List.length_eq_zero_iff.mp (by omega)
  · intro h
    refine ⟨entry.active_locks.getD [], ?_, (discovery_reported hr hask _).mpr rfl⟩
    rw [h, List.append_nil]

/-! ## Discovery and enforcement -/

/-- An answer at depth zero reports all that covers its resource exactly when nothing
is inherited. -/
theorem answer_reports_iff {s : Server} {href : List Char} {r : Path} {prop_request : PropRequest}
    (hr : s.resolve_existing href = some r) (hreal : s.disk.fs.Real r)
    (hask : Asks prop_request "lockdiscovery") :
    ∃ answer, s.handle_propfind 0 .Zero href (some prop_request) = some (.ok [answer]) ∧
      (Reports answer (covering s.now s.app.locks r) ↔ inherited s.now s.app.locks r = []) := by
  obtain ⟨x, hx, hlink⟩ := hreal
  have hown : (s.own_entry r href x).active_locks.getD [] = active_slice s.now (s.app.locks.at r) :=
    own_locks r
  obtain ⟨own, hzero, hwritten⟩ := propfind_zero 0 prop_request hr hx hlink
  have hiff := reports_iff hwritten hask (inherited s.now s.app.locks r)
  rw [hown] at hiff
  exact ⟨own, hzero, hiff⟩

theorem inherited_eq_nil_iff {now : ℕ} {locks : LockStore} {target : Path} :
    inherited now locks target = [] ↔
      ∀ p, p <+: target → p ≠ target → ∀ l ∈ active_slice now (locks.at p), l.depth ≠ .Infinity := by
  rw [List.eq_nil_iff_forall_not_mem]
  constructor
  · intro h p hpre hne l hl hd
    exact h l (mem_inherited.mpr ⟨p, hpre, hne, hl, hd⟩)
  · intro h l hl
    obtain ⟨p, hpre, hne, hl, hd⟩ := mem_inherited.mp hl
    exact h p hpre hne l hl hd

/-- **Lock discovery agrees with enforcement exactly when** no proper ancestor of the
resource has an active infinite lock. -/
theorem discovery_agrees_iff {s : Server} {href : List Char} {r : Path}
    {prop_request : PropRequest} (hr : s.resolve_existing href = some r) (hreal : s.disk.fs.Real r)
    (hask : Asks prop_request "lockdiscovery") :
    ∃ answer, s.handle_propfind 0 .Zero href (some prop_request) = some (.ok [answer]) ∧
      (Reports answer (covering s.now s.app.locks r) ↔
        ∀ p, p <+: r → p ≠ r → ∀ l ∈ active_slice s.now (s.app.locks.at p), l.depth ≠ .Infinity) := by
  obtain ⟨answer, hanswer, hiff⟩ := answer_reports_iff hr hreal hask
  exact ⟨answer, hanswer, hiff.trans inherited_eq_nil_iff⟩

theorem real_df : server_d.disk.fs.Real [d_name, f_name] := ⟨.file [], by decide, by simp⟩

theorem resolves_df : server_d.resolve_existing "/d/f".toList = some [d_name, f_name] := by decide

/-- A lock of `/d` that does not reach below it, and one of `/d/f` with an owner and a
timeout. -/
def both_locked : LockStore :=
  AList.insert [d_name, f_name]
    [{ scope := .Exclusive, token := "u", owner := some "me", created := 0,
       timeout := some (60 * Time.NANOS), depth := .Zero }]
    (AList.insert [d_name] [{ dir_lock with depth := .Zero }] ∅)

def server_own : Server :=
  { server_d with app := { server_d.app with locks := both_locked } }

theorem discovery_agrees_iff_df :
    ∃ answer, server_own.handle_propfind 0 .Zero "/d/f".toList (some .AllProp) = some (.ok [answer]) ∧
      (Reports answer (covering server_own.now server_own.app.locks [d_name, f_name]) ↔
        ∀ p, p <+: [d_name, f_name] → p ≠ [d_name, f_name] →
          ∀ l ∈ active_slice server_own.now (server_own.app.locks.at p), l.depth ≠ .Infinity) :=
  have hresolves : server_own.resolve_existing "/d/f".toList = some [d_name, f_name] := by decide
  discovery_agrees_iff hresolves real_df trivial

/-- The server with an infinite lock of `/d`. -/
def server_locked : Server :=
  { server_d with app := { server_d.app with locks := dir_locked } }

/-- A PROPFIND of `/d/f` says nothing of the lock of `/d`, which every write to `/d/f`
is checked against. -/
theorem inherited_lock_unseen :
    ∃ answer, server_locked.handle_propfind 0 .Zero "/d/f".toList (some .AllProp)
        = some (.ok [answer]) ∧
      covering server_locked.now server_locked.app.locks [d_name, f_name] = [dir_lock] ∧
      Covers server_locked.now server_locked.app.locks [d_name, f_name] dir_lock ∧
      ¬ Reports answer (covering server_locked.now server_locked.app.locks [d_name, f_name]) := by
  have hlocks : covering server_locked.now server_locked.app.locks [d_name, f_name] = [dir_lock] := by
    decide
  obtain ⟨answer, hanswer, hiff⟩ :=
    @answer_reports_iff server_locked "/d/f".toList [d_name, f_name] .AllProp resolves_df real_df trivial
  have hcovers : Covers server_locked.now server_locked.app.locks [d_name, f_name] dir_lock := by
    rw [← mem_covering, hlocks]
    exact List.mem_singleton_self dir_lock
  refine ⟨answer, hanswer, hlocks, hcovers, fun hreports => ?_⟩
  have hnone := hiff.mp hreports
  exact absurd hnone (by decide)

end Rshs.Discovery
