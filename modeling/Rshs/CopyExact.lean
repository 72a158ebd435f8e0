/-
What a recursive copy that succeeds has made of its destination.

The copy lays the source over what the destination holds: a file takes the place of
what was there, a directory is made where nothing is, and what the source has no entry
for stays. `overlay` says so for one entry, and `copy_dir_exact` for the whole tree, as
long as neither of the two lies in the other and no link stands in the destination.

`Progress` is the invariant of the two loops. Every place of the destination is as it
was or as it will be (`each`), and what is not yet done is still to come (`done`): it is
below a directory on the stack, or below an entry that was read. The number of system
calls is carried along, since each loop uses up what `copy_calls` counts for the tree.
-/
import Rshs.CopyRun
import Rshs.Subtree

set_option autoImplicit false

namespace Rshs.CopyExact

open StdPath Posix Rshs.Webdav Rshs.CopyMove Rshs.CopyRun

/-! ## One entry -/

/-- What a copy makes of an entry, given the source's and the one that is there. -/
def overlay : Option Node → Option Node → Option Node
  | some (.file c), _ => some (.file c)
  | some .dir, old => some (old.getD .dir)
  | _, old => old

theorem overlay_none (old : Option Node) : overlay none old = old := rfl

theorem overlay_link (t : PathBuf) (old : Option Node) : overlay (some (.symlink t)) old = old := rfl

theorem overlay_dir {old : Option Node} (h : old ≠ none) : overlay (some .dir) old = old := by
  obtain ⟨y, rfl⟩ := Option.ne_none_iff_exists'.mp h
  rfl

/-- A copy makes no link. -/
theorem overlay_no_link {new old : Option Node} {t : PathBuf} (h : old ≠ some (.symlink t)) :
    overlay new old ≠ some (.symlink t) := by
  intro heq
  rcases new with _ | c | _ | u
  · exact h heq
  · cases heq
  · rcases old with _ | y
    · cases heq
    · exact h heq
  · exact h heq

/-- Where nothing was, the source's own entry comes to stand, but for a link. -/
theorem overlay_fresh {new : Option Node} (h : ∀ t, new ≠ some (.symlink t)) :
    overlay new none = new := by
  rcases new with _ | c | _ | u
  · rfl
  · rfl
  · rfl
  · exact absurd rfl (h u)

/-- A place that is left empty was so, and the source had no entry but a link for it. -/
theorem overlay_eq_none {new old : Option Node} (h : overlay new old = none) :
    old = none ∧ (new = none ∨ ∃ t, new = some (.symlink t)) := by
  rcases new with _ | c | _ | t
  · exact ⟨h, Or.inl rfl⟩
  · cases h
  · cases h
  · exact ⟨h, Or.inr ⟨t, rfl⟩⟩

/-- A file comes from one of the two. -/
theorem overlay_eq_file {new old : Option Node} {c : List UInt8}
    (h : overlay new old = some (.file c)) :
    (∃ c', new = some (.file c')) ∨ old = some (.file c) := by
  rcases new with _ | c' | _ | t
  · exact Or.inr h
  · exact Or.inl ⟨c', rfl⟩
  · rcases old with _ | y
    · cases h
    · exact Or.inr h
  · exact Or.inr h

/-! ## What the copy costs -/

/-- The system calls spent on one entry: two to read it, and three to copy a file, or to
make a directory, open it and come to its end. -/
def calls_of (fs : Fs) (q : Path) : ℕ :=
  match fs.node q with
  | some (.symlink _) => 2
  | _ => 5

/-- The system calls spent on a directory that is there already. -/
def copy_calls (fs : Fs) (src : Path) : ℕ := 2 + ∑ q ∈ fs.below src, calls_of fs q

def stack_calls (fs : Fs) (stack : Stack) : ℕ := (stack.map fun pair => copy_calls fs pair.1).sum

/-- The count is the tree's. -/
theorem copy_calls_congr {fs fs' : Fs} {src : Path}
    (h : ∀ r, fs'.node (src ++ r) = fs.node (src ++ r)) : copy_calls fs' src = copy_calls fs src := by
  have hbelow : fs'.below src = fs.below src := by
    ext q
    rw [Fs.mem_below, Fs.mem_below]
    refine and_congr_right fun hpre => and_congr_right fun _ => ?_
    obtain ⟨r, rfl⟩ := hpre
    rw [h]
  unfold copy_calls
  rw [hbelow]
  congr 1
  apply Finset.sum_congr rfl
  intro q hq
  obtain ⟨r, rfl⟩ := (Fs.mem_below.mp hq).1
  unfold calls_of
  rw [h]

section Calls

variable {os : Os} {m m' : Machine}

theorem make_tick (os : Os) (x : Node) (p : Path) (m : Machine) :
    (make os x p m).2.calls = m.calls + 1 := by
  rcases make_cases os x p m with ⟨e, he⟩ | ⟨loc, -, -, -, he⟩
  · rw [he]
    rfl
  · rw [he]
    rfl

theorem copy_ticks {src dst : Path} {u : Unit} (h : copy os src dst m = (.ok u, m')) :
    m'.calls = m.calls + 3 := by
  unfold copy at h
  rcases open_file_cases os src m with ⟨e, ho⟩ | ⟨s, c, -, -, ho⟩
  · rw [ho] at h
    cases h
  rw [ho] at h
  dsimp only at h
  rcases create_cases os dst (m.tick.read s) with ⟨e, hc⟩ | ⟨loc, -, -, hc⟩
  · rw [hc] at h
    cases h
  rw [hc] at h
  dsimp only at h
  generalize ((m.tick.read s).tick.set loc (.file [])).fs.content s = bytes at h
  rcases write_cases os loc bytes ((m.tick.read s).tick.set loc (.file [])) with ⟨k, hw⟩ | hw
  · rw [hw] at h
    cases h
  · rw [hw] at h
    cases h
    rfl

end Calls

/-! ## Progress -/

/-- The destination's entry, in a tree where it is apart from the source and has no
link below it. -/
structure Setting (fs : Fs) (src dst place : Path) : Prop where
  entry : locate_entry fs dst = .ok place
  link_free : fs.LinkFree place
  src_apart : ¬ src <+: place
  place_apart : ¬ place <+: src

/-- Of two paths that are apart, neither is above what is below the other. -/
theorem apart_append {p q : Path} (h : ¬ p <+: q) (h' : ¬ q <+: p) (r : List Name) :
    ¬ p <+: q ++ r := by
  intro hpre
  rcases Nat.le_total p.length q.length with hle | hle
  · exact h (List.prefix_of_prefix_length_le hpre (List.prefix_append _ _) hle)
  · exact h' (List.prefix_of_prefix_length_le (List.prefix_append _ _) hpre hle)

theorem Setting.not_prefix {fs : Fs} {src dst place : Path} (h : Setting fs src dst place)
    (r : List Name) : ¬ place <+: src ++ r := apart_append h.place_apart h.src_apart r

/-- A directory is made at the destination. -/
theorem Setting.with_dir {fs : Fs} {src dst place : Path} (h : Setting fs src dst place)
    (hslot : fs.Slot place) (hnone : fs.node place = none) :
    Setting (fs.set place .dir) src dst place ∧
      ∀ r, (fs.set place .dir).node (src ++ r) = fs.node (src ++ r) := by
  have hext := Fs.extends_set_dir hslot hnone
  refine ⟨⟨locate_entry_keeps hext.keeps h.entry, fun r t => ?_, h.src_apart, h.place_apart⟩,
    fun r => ?_⟩
  · rw [Fs.node_set hslot]
    split
    · simp
    · exact h.link_free r t
  · rw [Fs.node_set hslot, if_neg]
    intro heq
    exact h.not_prefix r (by rw [heq])

structure Progress (fs₀ fs : Fs) (src place : Path) (pending : List Name → Prop) : Prop where
  extends_start : fs₀.Extends fs
  frame : ∀ q, ¬ place <+: q → fs.node q = fs₀.node q
  each : ∀ r, fs.node (place ++ r) = fs₀.node (place ++ r) ∨
    fs.node (place ++ r) = overlay (fs₀.node (src ++ r)) (fs₀.node (place ++ r))
  done : ∀ r x, fs₀.node (src ++ r) = some x → x.file_type ≠ .symlink →
    fs.node (place ++ r) = overlay (fs₀.node (src ++ r)) (fs₀.node (place ++ r)) ∨ pending r

section Progress

variable {fs₀ fs fs' : Fs} {src dst place : Path} {pending pending' : List Name → Prop}
  {r₀ : List Name}

theorem Progress.mono (h : Progress fs₀ fs src place pending)
    (himp : ∀ r, fs₀.node (src ++ r) ≠ none → pending r → pending' r) :
    Progress fs₀ fs src place pending' where
  extends_start := h.extends_start
  frame := h.frame
  each := h.each
  done := fun r x hx ht =>
    (h.done r x hx ht).imp_right (himp r (by rw [hx]; exact Option.some_ne_none x))

theorem Progress.link_free (h : Progress fs₀ fs src place pending) (hl : fs₀.LinkFree place) :
    fs.LinkFree place := by
  intro r t
  rcases h.each r with heq | heq
  · rw [heq]
    exact hl r t
  · rw [heq]
    exact overlay_no_link (hl r t)

/-- An entry that stands as it will be is done. -/
theorem Progress.settled (h : Progress fs₀ fs src place pending)
    (hr : fs.node (place ++ r₀) = overlay (fs₀.node (src ++ r₀)) (fs₀.node (place ++ r₀))) :
    Progress fs₀ fs src place (fun r => pending r ∧ r ≠ r₀) where
  extends_start := h.extends_start
  frame := h.frame
  each := h.each
  done := by
    intro r x hx ht
    by_cases heq : r = r₀
    · rw [heq]
      exact Or.inl hr
    · exact (h.done r x hx ht).imp_right fun hp => ⟨hp, heq⟩

/-- An entry is put where it will stay. -/
theorem Progress.put (h : Progress fs₀ fs src place pending) (hext : fs.Extends fs')
    (hnode : ∀ q, fs'.node q = if q = place ++ r₀ then
      overlay (fs₀.node (src ++ r₀)) (fs₀.node (place ++ r₀)) else fs.node q) :
    Progress fs₀ fs' src place (fun r => pending r ∧ r ≠ r₀) := by
  have hother : ∀ r, r ≠ r₀ → fs'.node (place ++ r) = fs.node (place ++ r) := by
    intro r hr
    rw [hnode, if_neg (fun heq => hr (List.append_cancel_left heq))]
  -- the entry may be done or pending until it is known which
  have hkept : Progress fs₀ fs' src place (fun r => pending r ∨ r = r₀) := by
    refine ⟨h.extends_start.trans hext, fun q hq => ?_, fun r => ?_, fun r x hx ht => ?_⟩
    · rw [hnode, if_neg (fun heq => hq (by rw [heq]; exact List.prefix_append _ _))]
      exact h.frame q hq
    · by_cases heq : r = r₀
      · right
        rw [heq, hnode, if_pos rfl]
      · rw [hother r heq]
        exact h.each r
    · by_cases heq : r = r₀
      · exact Or.inr (Or.inr heq)
      · rw [hother r heq]
        exact (h.done r x hx ht).imp_right Or.inl
  have hset : Progress fs₀ fs' src place (fun r => (pending r ∨ r = r₀) ∧ r ≠ r₀) :=
    hkept.settled (by rw [hnode, if_pos rfl])
  refine hset.mono fun r _ hp => ⟨?_, hp.2⟩
  exact hp.1.resolve_right hp.2

end Progress

/-! ## The steps of a successful copy -/

section Steps

variable {os : Os} {fs₀ : Fs} {src dst place : Path} {m m' : Machine}
  {pending : List Name → Prop} {p : List Name} {n : Name}

/-- A file is copied. -/
theorem copy_step_exact (hset : Setting fs₀ src dst place)
    (h : Progress fs₀ m.fs src place pending) {c : List UInt8}
    (hfile : fs₀.node (src ++ (p ++ [n])) = some (.file c)) {u : Unit}
    (hcopy : copy os (src ++ (p ++ [n])) (dst ++ (p ++ [n])) m = (.ok u, m')) :
    Progress fs₀ m'.fs src place (fun r => pending r ∧ r ≠ p ++ [n]) := by
  have hsrc : m.fs.node (src ++ (p ++ [n])) = some (.file c) := by
    rw [h.frame _ (hset.not_prefix _)]
    exact hfile
  have hentry := locate_entry_keeps h.extends_start.keeps hset.entry
  rcases copy_cases os (src ++ (p ++ [n])) (dst ++ (p ++ [n])) m with
    ⟨e, m₁, he, -, -⟩ | ⟨s, c', loc, hs, -, hl, hslot, r, m₁, bytes, he, hfs, -, -, hall⟩
  · rw [he] at hcopy
    cases hcopy
  rw [he] at hcopy
  cases hcopy
  rw [follow_self ⟨_, hsrc, by simp⟩] at hs
  cases hs
  have hloc := locate_below hentry (h.link_free hset.link_free) hl
  subst hloc
  -- the source is read after the destination was truncated, and is another file
  have hother : src ++ (p ++ [n]) ≠ place ++ (p ++ [n]) := by
    intro heq
    exact hset.not_prefix (p ++ [n]) (by rw [heq]; exact List.prefix_append _ _)
  have hbytes : bytes = c := by
    rw [hall rfl]
    unfold Fs.content
    rw [Fs.node_set hslot, if_neg hother, hsrc]
  have hstep : CopyStep src dst m m' := by
    have hcall := @copy_call_step os src dst m (p ++ [n]) c hsrc
    rw [he] at hcall
    exact hcall
  refine h.put (copy_step_extends hstep) fun q => ?_
  rw [hfs, node_fill hslot, hbytes, hfile]
  rfl

/-- A directory is made, or is there. -/
theorem make_step_exact (hset : Setting fs₀ src dst place)
    (h : Progress fs₀ m.fs src place pending)
    (hdir : fs₀.node (src ++ (p ++ [n])) = some .dir) {res : IoResult Unit}
    (hres : res = .ok () ∨ res = .error .AlreadyExists)
    (hmake : create_dir os (dst ++ (p ++ [n])) m = (res, m')) :
    Progress fs₀ m'.fs src place (fun r => pending r ∧ r ≠ p ++ [n]) := by
  have hentry := locate_entry_keeps h.extends_start.keeps hset.entry
  have hfree := h.link_free hset.link_free
  -- what stands there now stood there before, or was made by this copy
  have hstands : m.fs.node (place ++ (p ++ [n])) ≠ none → m.fs.node (place ++ (p ++ [n])) =
      overlay (fs₀.node (src ++ (p ++ [n]))) (fs₀.node (place ++ (p ++ [n]))) := by
    intro hsome
    rcases h.each (p ++ [n]) with heq | heq
    · rw [hdir, overlay_dir (by rw [← heq]; exact hsome), heq]
    · exact heq
  rcases make_cases os .dir (dst ++ (p ++ [n])) m with ⟨e, he⟩ | ⟨loc, hl, hnone, hslot, he⟩
  · rw [create_dir, he] at hmake
    cases hmake
    have hexists : (.error e : IoResult Unit) = .error .AlreadyExists := by
      rcases hres with hok | herr
      · cases hok
      · exact herr
    rw [hexists] at he
    obtain ⟨-, loc, y, hl, hy⟩ := make_exists he
    rw [locate_entry_below hentry hfree hl] at hy
    exact h.settled (hstands (by rw [hy]; exact Option.some_ne_none y))
  · rw [create_dir, he] at hmake
    cases hmake
    have hloc := locate_entry_below hentry hfree hl
    subst hloc
    have hold : fs₀.node (place ++ (p ++ [n])) = none := by
      rcases h.each (p ++ [n]) with heq | heq
      · rw [← heq]
        exact hnone
      · rw [hnone, hdir] at heq
        cases heq
    refine h.put (Fs.extends_set_dir hslot hnone) fun q => ?_
    rw [set_fs, tick_fs, Fs.node_set hslot, hdir, hold]
    rfl

end Steps

/-! ## The loops -/

/-- The entry is below a directory on the stack. -/
def Pending (src dst : Path) (stack : Stack) (r : List Name) : Prop :=
  ∃ p, (src ++ p, dst ++ p) ∈ stack ∧ p <+: r ∧ p ≠ r

/-- The entry is one of those that were read, or below one. -/
def Listed (p : List Name) (entries : List (Name × FileType)) (r : List Name) : Prop :=
  ∃ n t, (n, t) ∈ entries ∧ p ++ [n] <+: r

/-- The system calls the entries that were read will take. -/
def entries_calls (fs : Fs) (d : Path) (entries : List (Name × FileType)) : ℕ :=
  (entries.map fun e => fs.weight_of (calls_of fs) (d ++ [e.1])).sum

section Loops

variable {os : Os} {fs₀ : Fs} {src dst place : Path} {m m' : Machine}

/-- Below what is no directory nothing is to be done. -/
theorem eq_of_listed {r : List Name} {q : List Name} (hdir : fs₀.node (src ++ q) ≠ some .dir)
    (hsome : fs₀.node (src ++ r) ≠ none) (hpre : q <+: r) : r = q := by
  by_contra hne
  obtain ⟨s, rfl⟩ := hpre
  refine hdir (fs₀.dir_above hsome ?_ ?_)
  · rw [← List.append_assoc]
    exact List.prefix_append _ _
  · intro heq
    exact hne (List.append_cancel_left heq).symm

theorem listed_cons {p r : List Name} {n : Name} {t : FileType}
    {entries : List (Name × FileType)} :
    Listed p ((n, t) :: entries) r ↔ p ++ [n] <+: r ∨ Listed p entries r := by
  constructor
  · rintro ⟨n', t', hn', hpre⟩
    rcases List.mem_cons.mp hn' with heq | hn'
    · cases heq
      exact Or.inl hpre
    · exact Or.inr ⟨n', t', hn', hpre⟩
  · rintro (hpre | ⟨n', t', hn', hpre⟩)
    · exact ⟨n, t, List.mem_cons_self, hpre⟩
    · exact ⟨n', t', List.mem_cons_of_mem _ hn', hpre⟩

section Entry

variable {fs : Fs} {p : List Name} {n : Name} {t : FileType} {entries : List (Name × FileType)}
  {stack : Stack}

/-- An entry that is done, and no directory, leaves the others. -/
theorem Progress.past_file (hnodir : fs₀.node (src ++ (p ++ [n])) ≠ some .dir)
    (h : Progress fs₀ fs src place fun r =>
      (Pending src dst stack r ∨ Listed p ((n, t) :: entries) r) ∧ r ≠ p ++ [n]) :
    Progress fs₀ fs src place fun r => Pending src dst stack r ∨ Listed p entries r := by
  refine h.mono fun r hsome hr => ?_
  rw [listed_cons] at hr
  rcases hr with ⟨hpend | hpre | hlisted, hne⟩
  · exact Or.inl hpend
  · exact absurd (eq_of_listed hnodir hsome hpre) hne
  · exact Or.inr hlisted

/-- A link is skipped: nothing is to be done for it, and nothing is below it. -/
theorem Progress.past_link {target : PathBuf}
    (hlink : fs₀.node (src ++ (p ++ [n])) = some (.symlink target))
    (h : Progress fs₀ fs src place fun r =>
      Pending src dst stack r ∨ Listed p ((n, t) :: entries) r) :
    Progress fs₀ fs src place fun r => Pending src dst stack r ∨ Listed p entries r := by
  refine ⟨h.extends_start, h.frame, h.each, fun r x hr hnolink => ?_⟩
  refine (h.done r x hr hnolink).imp_right fun hp => ?_
  rw [listed_cons] at hp
  rcases hp with hpend | hpre | hlisted
  · exact Or.inl hpend
  · have hsame := eq_of_listed (by rw [hlink]; simp) (by rw [hr]; simp) hpre
    rw [hsame, hlink] at hr
    cases hr
    exact absurd rfl hnolink
  · exact Or.inr hlisted

/-- What is below a directory that is done waits on the stack. -/
theorem Progress.past_dir
    (h : Progress fs₀ fs src place fun r =>
      (Pending src dst stack r ∨ Listed p ((n, t) :: entries) r) ∧ r ≠ p ++ [n]) :
    Progress fs₀ fs src place fun r =>
      Pending src dst ((src ++ (p ++ [n]), dst ++ (p ++ [n])) :: stack) r ∨ Listed p entries r := by
  refine h.mono fun r _ hr => ?_
  rw [listed_cons] at hr
  rcases hr with ⟨⟨q, hq, hpre, hne⟩ | hpre | hlisted, hne'⟩
  · exact Or.inl ⟨q, List.mem_cons_of_mem _ hq, hpre, hne⟩
  · exact Or.inl ⟨p ++ [n], List.mem_cons_self, hpre, fun heq => hne' heq.symm⟩
  · exact Or.inr hlisted

theorem entries_calls_cons {d : Path} : entries_calls fs (d ++ p) ((n, t) :: entries) =
    fs.weight_of (calls_of fs) (d ++ (p ++ [n])) + entries_calls fs (d ++ p) entries := by
  simp [entries_calls]

theorem stack_calls_cons {s d : Path} :
    stack_calls fs ((s, d) :: stack) = copy_calls fs s + stack_calls fs stack := by
  simp [stack_calls]

/-- The calls for an entry that is a directory, with those for what is in it. -/
theorem weight_of_dir {d : Path} (hdir : fs.node d = some .dir) :
    fs.weight_of (calls_of fs) d = 3 + copy_calls fs d := by
  have hfive : calls_of fs d = 5 := by rw [calls_of, hdir]
  rw [Fs.weight_of, copy_calls]
  omega

end Entry

theorem copy_entries_exact (hset : Setting fs₀ src dst place) {p : List Name}
    {entries : List (Name × FileType)} {stack stack' : Stack}
    (hentries : ∀ n t, (n, t) ∈ entries → ∃ x, fs₀.node (src ++ (p ++ [n])) = some x ∧ x.file_type = t)
    (hprog : Progress fs₀ m.fs src place fun r => Pending src dst stack r ∨ Listed p entries r)
    (hstack : StackOk src dst fs₀ stack)
    (h : copy_entries os (src ++ p) (dst ++ p) entries stack m = (.ok stack', m')) :
    Progress fs₀ m'.fs src place (Pending src dst stack') ∧ StackOk src dst fs₀ stack' ∧
      m'.calls + stack_calls fs₀ stack' =
        m.calls + 1 + entries_calls fs₀ (src ++ p) entries + stack_calls fs₀ stack := by
  induction entries generalizing stack m with
  | nil =>
    obtain ⟨hm, rfl⟩ := copy_entries_nil h
    rw [hm]
    refine ⟨?_, hstack, by simp [entries_calls, Machine.tick]⟩
    refine hprog.mono fun r _ hp => hp.resolve_right ?_
    rintro ⟨n, t, hn, -⟩
    cases hn
  | cons entry entries ih =>
    obtain ⟨n, t⟩ := entry
    -- what was done with the first entry, and the loop on the others
    obtain ⟨m₃, hdone, h⟩ := copy_entries_cons h
    rw [List.append_assoc, List.append_assoc] at hdone h
    obtain ⟨x, hx, ht⟩ := hentries n t List.mem_cons_self
    have hrest : ∀ n' t', (n', t') ∈ entries →
        ∃ x, fs₀.node (src ++ (p ++ [n'])) = some x ∧ x.file_type = t' :=
      fun n' t' hn' => hentries n' t' (List.mem_cons_of_mem _ hn')
    have hprog₂ : Progress fs₀ m.tick.tick.fs src place
        fun r => Pending src dst stack r ∨ Listed p ((n, t) :: entries) r := hprog
    have hcalls₂ : m.tick.tick.calls = m.calls + 2 := rfl
    rw [entries_calls_cons]
    cases x with
    | file c =>
      subst ht
      rw [if_neg (by simp [Node.file_type])] at h
      have hcopy : copy os (src ++ (p ++ [n])) (dst ++ (p ++ [n])) m.tick.tick = (.ok (), m₃) := hdone
      have hp₃ := (copy_step_exact hset hprog₂ hx hcopy).past_file (by rw [hx]; simp)
      obtain ⟨hp', hs', hc'⟩ := ih hrest hp₃ hstack h
      refine ⟨hp', hs', ?_⟩
      have hweight : fs₀.weight_of (calls_of fs₀) (src ++ (p ++ [n])) = 5 := by
        rw [weight_of_not_dir _ (by rw [hx]; simp), calls_of, hx]
      -- two calls to list the entry and three to copy it
      have hticks := copy_ticks hcopy
      omega
    | symlink target =>
      subst ht
      rw [if_neg (by simp [Node.file_type])] at h
      have hm₃ : m₃ = m.tick.tick := hdone
      subst hm₃
      obtain ⟨hp', hs', hc'⟩ := ih hrest (hprog₂.past_link hx) hstack h
      refine ⟨hp', hs', ?_⟩
      have hweight : fs₀.weight_of (calls_of fs₀) (src ++ (p ++ [n])) = 2 := by
        rw [weight_of_not_dir _ (by rw [hx]; simp), calls_of, hx]
      omega
    | dir =>
      subst ht
      rw [if_pos (by rfl)] at h
      obtain ⟨res, hmake, hres⟩ : ∃ res, create_dir os (dst ++ (p ++ [n])) m.tick.tick = (res, m₃) ∧
          (res = .ok () ∨ res = .error .AlreadyExists) := hdone
      have hticks : m₃.calls = m.tick.tick.calls + 1 := by
        have htick := make_tick os .dir (dst ++ (p ++ [n])) m.tick.tick
        rw [← create_dir, hmake] at htick
        exact htick
      have hp₃ := (make_step_exact hset hprog₂ hx hres hmake).past_dir
      have hstack₃ : StackOk src dst fs₀ ((src ++ (p ++ [n]), dst ++ (p ++ [n])) :: stack) := by
        intro pair hpair
        rcases List.mem_cons.mp hpair with rfl | hpair
        · exact ⟨p ++ [n], rfl, hx⟩
        · exact hstack pair hpair
      obtain ⟨hp', hs', hc'⟩ := ih hrest hp₃ hstack₃ h
      refine ⟨hp', hs', ?_⟩
      rw [stack_calls_cons] at hc'
      have hweight := weight_of_dir hx
      omega

/-- What was pending below a directory that is read is below one of its entries. -/
theorem Progress.listed {fs : Fs} {p : List Name} {stack : Stack}
    {entries : List (Name × FileType)}
    (h : Progress fs₀ fs src place (Pending src dst ((src ++ p, dst ++ p) :: stack)))
    (hsrc : ∀ r, fs.node (src ++ p ++ r) = fs₀.node (src ++ p ++ r))
    (hmem : ∀ n t, (n, t) ∈ entries ↔
      ∃ x, fs.node (src ++ p ++ [n]) = some x ∧ x.file_type = t) :
    Progress fs₀ fs src place fun r => Pending src dst stack r ∨ Listed p entries r := by
  refine h.mono fun r hsome hr => ?_
  obtain ⟨q, hq, hpre, hne⟩ := hr
  rcases List.mem_cons.mp hq with heq | hq
  · have hqp : q = p := List.append_cancel_left (Prod.mk.inj heq).1
    subst hqp
    obtain ⟨s, rfl⟩ := hpre
    cases s with
    | nil => simp at hne
    | cons n s =>
      have hassoc : q ++ n :: s = (q ++ [n]) ++ s := by simp
      rw [hassoc] at hsome ⊢
      have hentry : fs.node (src ++ q ++ [n]) ≠ none := by
        rw [hsrc]
        intro hnone
        refine hsome (none_below hnone ?_)
        rw [← List.append_assoc]
        rw [← List.append_assoc]
        exact List.prefix_append _ _
      obtain ⟨x, hx⟩ := Option.ne_none_iff_exists'.mp hentry
      exact Or.inr ⟨n, _, (hmem n _).mpr ⟨x, hx, rfl⟩, List.prefix_append _ _⟩
  · exact Or.inl ⟨q, hq, hpre, hne⟩

/-- The entries of a source directory are what they were before the copy. -/
theorem children_frame {fs : Fs} {q : Path} (h : ∀ r, fs.node (q ++ r) = fs₀.node (q ++ r)) :
    (fs.children q).Perm (fs₀.children q) := by
  apply (List.perm_ext_iff_of_nodup (Fs.children_nodup q) (Fs.children_nodup q)).mpr
  intro n
  rw [Fs.mem_children, Fs.mem_children, h]

theorem copy_loop_exact (hset : Setting fs₀ src dst place) {fuel : ℕ} {stack : Stack}
    (hprog : Progress fs₀ m.fs src place (Pending src dst stack))
    (hstack : StackOk src dst fs₀ stack)
    (h : copy_loop os fuel stack m = (some (.ok ()), m')) :
    Progress fs₀ m'.fs src place (fun _ => False) ∧
      m'.calls = m.calls + stack_calls fs₀ stack := by
  -- on the fuel: what is pending is on the stack, and each round takes one directory off
  induction fuel generalizing stack m with
  | zero =>
    cases stack with
    | nil =>
      cases h
      refine ⟨hprog.mono fun r _ hr => ?_, rfl⟩
      obtain ⟨p, hp, -⟩ := hr
      cases hp
    | cons pair stack => cases h
  | succ fuel ih =>
    cases stack with
    | nil =>
      cases h
      refine ⟨hprog.mono fun r _ hr => ?_, rfl⟩
      obtain ⟨p, hp, -⟩ := hr
      cases hp
    | cons pair stack =>
      obtain ⟨p, rfl, hdir⟩ := hstack pair List.mem_cons_self
      unfold copy_loop at h
      -- the source is apart from the place, and is as it was
      have hsrc : ∀ r, m.fs.node (src ++ p ++ r) = fs₀.node (src ++ p ++ r) := by
        intro r
        rw [List.append_assoc]
        exact hprog.frame _ (hset.not_prefix _)
      have hdir' : m.fs.node (src ++ p) = some .dir := by
        rw [hprog.frame _ (hset.not_prefix _)]
        exact hdir
      rcases hread : read_dir os (src ++ p) m with ⟨e | entries, m₁⟩
      · rw [hread] at h
        cases h
      obtain ⟨rfl, hmem, hnames⟩ := read_dir_real hdir' hread
      rw [hread] at h
      dsimp only at h
      split at h
      · cases h
      · rename_i stack₁ m₁ hentries
        -- the entries that were read take the place of their directory in what is pending
        have hlisted : Progress fs₀ m.tick.fs src place
            fun r => Pending src dst stack r ∨ Listed p entries r :=
          hprog.listed hsrc hmem
        have hread₀ : ∀ n t, (n, t) ∈ entries →
            ∃ x, fs₀.node (src ++ (p ++ [n])) = some x ∧ x.file_type = t := by
          intro n t hn
          obtain ⟨x, hx, ht⟩ := (hmem n t).mp hn
          rw [hsrc, List.append_assoc] at hx
          exact ⟨x, hx, ht⟩
        have hrest : StackOk src dst fs₀ stack := fun q hq => hstack q (List.mem_cons_of_mem _ hq)
        obtain ⟨hp₁, hs₁, hc₁⟩ := copy_entries_exact hset hread₀ hlisted hrest hentries
        obtain ⟨hp', hc'⟩ := ih hp₁ hs₁ h
        refine ⟨hp', ?_⟩
        -- one call opens the directory, and one finds its end
        have hcost : entries_calls fs₀ (src ++ p) entries + 2 = copy_calls fs₀ (src ++ p) := by
          unfold entries_calls copy_calls
          rw [sum_below_entries (calls_of fs₀) (hnames.trans (children_frame hsrc))]
          omega
        rw [stack_calls_cons]
        have htick : m.tick.calls = m.calls + 1 := rfl
        omega

end Loops

/-! ## The whole copy -/

section Whole

variable {os : Os} {src dst place : Path} {m m' : Machine}

/-- The invariant at the beginning: the directory is there, and all else is pending. -/
theorem progress_start {fs : Fs} (hsrc : fs.node src = some .dir) (hplace : fs.node place ≠ none) :
    Progress fs fs src place (Pending src dst [(src, dst)]) where
  extends_start := Fs.Extends.refl fs
  frame := fun _ _ => rfl
  each := fun _ => Or.inl rfl
  done := by
    intro r x hx ht
    by_cases hr : r = []
    · subst hr
      left
      rw [List.append_nil, List.append_nil, hsrc, overlay_dir hplace]
    · exact Or.inr ⟨[], by simp, List.nil_prefix, fun h => hr h.symm⟩

theorem copy_loop_overlay {fuel : ℕ} (hset : Setting m.fs src dst place)
    (hsrc : m.fs.node src = some .dir) (hplace : m.fs.node place ≠ none)
    (h : copy_loop os fuel [(src, dst)] m = (some (.ok ()), m')) :
    (∀ q, ¬ place <+: q → m'.fs.node q = m.fs.node q) ∧
      (∀ r, m'.fs.node (place ++ r) =
        overlay (m.fs.node (src ++ r)) (m.fs.node (place ++ r))) ∧
      m.fs.Extends m'.fs ∧ m'.calls = m.calls + copy_calls m.fs src := by
  have hstack : StackOk src dst m.fs [(src, dst)] := by
    intro pair hpair
    rw [List.mem_singleton.mp hpair]
    exact ⟨[], by simp, by rw [List.append_nil]; exact hsrc⟩
  obtain ⟨hp, hc⟩ := copy_loop_exact hset (progress_start hsrc hplace) hstack h
  refine ⟨hp.frame, fun r => ?_, hp.extends_start, by rw [hc]; simp [stack_calls]⟩
  -- nothing is pending any more, so each entry of the source has its counterpart
  cases hx : m.fs.node (src ++ r) with
  | none =>
    have heach := hp.each r
    rw [hx, overlay_none, or_self] at heach
    exact heach
  | some x =>
    by_cases ht : x.file_type = .symlink
    · -- a link has no counterpart
      have heach := hp.each r
      rw [hx] at heach
      cases x with
      | symlink t =>
        rw [overlay_link, or_self] at heach
        exact heach
      | file c => cases ht
      | dir => cases ht
    · have hdone := (hp.done r x hx ht).resolve_right id
      rw [hx] at hdone
      exact hdone

/-- **What a recursive copy that succeeds has made of its destination**: the source laid
over what was there, and nothing else; and how many calls it has taken. -/
theorem copy_dir_exact {fuel : ℕ} {existed : Bool} (hset : Setting m.fs src dst place)
    (hsrc : m.fs.node src = some .dir)
    (hplace : existed = true → m.fs.node place ≠ none)
    (h : copy_dir os fuel src dst existed m = (some (.ok ()), m')) :
    (∀ q, ¬ place <+: q → m'.fs.node q = m.fs.node q) ∧
      (∀ r, m'.fs.node (place ++ r) =
        overlay (m.fs.node (src ++ r)) (m.fs.node (place ++ r))) ∧
      m.fs.Extends m'.fs ∧
      m'.calls = m.calls + (if existed then 0 else 1) + copy_calls m.fs src := by
  unfold copy_dir at h
  split at h
  · rename_i hex
    obtain ⟨hframe, hover, hext, hcalls⟩ := copy_loop_overlay hset hsrc (hplace hex) h
    rw [if_pos hex, Nat.add_zero]
    exact ⟨hframe, hover, hext, hcalls⟩
  · rename_i hex
    rcases make_cases os .dir dst m with ⟨e, hc⟩ | ⟨loc, hl, hnone, hslot, hc⟩
    · rw [create_dir, hc] at h
      cases h
    rw [create_dir, hc] at h
    dsimp only at h
    rw [hset.entry] at hl
    cases hl
    -- the tree with the new directory in it
    have hext₁ : m.fs.Extends (m.tick.set place .dir).fs := Fs.extends_set_dir hslot hnone
    have hnode : ∀ q, (m.tick.set place .dir).fs.node q =
        if q = place then some .dir else m.fs.node q := fun q => Fs.node_set hslot q
    have hmade : Setting (m.tick.set place .dir).fs src dst place ∧
        ∀ r, (m.tick.set place .dir).fs.node (src ++ r) = m.fs.node (src ++ r) :=
      hset.with_dir hslot hnone
    obtain ⟨hset₁, hsource⟩ := hmade
    have hsrc₁ : (m.tick.set place .dir).fs.node src = some .dir := by
      have := hsource []
      rw [List.append_nil] at this
      rw [this]
      exact hsrc
    obtain ⟨hframe, hover, hext, hcalls⟩ :=
      copy_loop_overlay hset₁ hsrc₁ (by rw [hnode, if_pos rfl]; simp) h
    refine ⟨fun q hq => ?_, fun r => ?_, hext₁.trans hext, ?_⟩
    · rw [hframe q hq, hnode, if_neg (fun heq => hq (by rw [heq]))]
    · rw [hover, hsource, hnode]
      by_cases hr : r = []
      · subst hr
        simp [hsrc, hnone, overlay]
      · rw [if_neg (fun heq => hr (by simpa using heq))]
    · rw [hcalls, copy_calls_congr hsource, if_neg hex]
      rfl

end Whole

end Rshs.CopyExact
