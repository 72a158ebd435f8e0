/-
A copy into its own source, which does not come to its end.

The destination is inside the source, at `src/e`, so what is copied there is there to be
copied. `Spin` is the invariant of the descent: the directory `src/e/e/…` after `i` names
is on top of the stack, one round further down everything is a directory still, and
beyond that nothing has been touched. One round of the loop preserves it (`spin_step`)
when the directory is read with the next name of the descent as the last one, which is a
matter of the order in which the system lists it; so some system never lets the copy end
(`caught_spins`).
-/
import Rshs.CopyEnds
import Rshs.Replace

set_option autoImplicit false

namespace Rshs.CopySpins

open StdPath Posix Endless Rshs.Webdav Rshs.Resolve Rshs.App Rshs.CopyMove Rshs.CopyRun
open Rshs.Transfer Rshs.CopyExact Rshs.CopyEnds

/-! ## One entry, when nothing fails by itself -/

section Entry

variable {os : Os} {m : Machine} {src dst place : Path} {p : List Name} {n : Name}

/-- Where something stands already, nothing is made. -/
theorem make_there {x y : Node} {q loc : Path} (hf : os.fault m.calls = false)
    (hl : locate_entry m.fs q = .ok loc) (hy : m.fs.node loc = some y) :
    make os x q m = (.error .AlreadyExists, m.tick) := by
  unfold make
  rw [syscall_ok hf]
  rw [tick_fs, hl]
  dsimp only
  rw [hy]

/-- Where a file in a directory below an entry is opened for creation. -/
theorem locate_at (he : locate_entry m.fs dst = .ok place)
    (hdir : m.fs.node (place ++ p) = some .dir) (hnul : n.has_nul = false)
    (hlink : ∀ t, m.fs.node (place ++ (p ++ [n])) ≠ some (.symlink t)) :
    locate m.fs (dst ++ (p ++ [n])) = .ok (place ++ (p ++ [n])) := by
  cases hx : m.fs.node (place ++ (p ++ [n])) with
  | none => exact locate_of_free (locate_entry_at he hdir hnul) hx
  | some x =>
    apply locate_of_follow
    apply follow_below he
    refine ⟨x, hx, fun t ht => hlink t ?_⟩
    rw [hx, ht]

/-- **An entry is done**, and this is what it comes to. -/
theorem entry_calm {x : Node} {t : FileType} (he : locate_entry m.fs dst = .ok place)
    (hdir : m.fs.node (place ++ p) = some .dir) (hnul : n.has_nul = false)
    (hx : m.fs.node (src ++ (p ++ [n])) = some x) (ht : x.file_type = t)
    (hlink : ∀ t, m.fs.node (place ++ (p ++ [n])) ≠ some (.symlink t))
    (hfile : t = .file → m.fs.node (place ++ (p ++ [n])) ≠ some .dir)
    (hne : src ++ (p ++ [n]) ≠ place ++ (p ++ [n])) :
    ∃ m', EntryDone Os.calm t (src ++ (p ++ [n])) (dst ++ (p ++ [n])) m m' ∧
      m.calls ≤ m'.calls ∧ m.fs.Extends m'.fs ∧
      ∀ q, m'.fs.node q = if q = place ++ (p ++ [n]) then
        overlay (some x) (m.fs.node (place ++ (p ++ [n]))) else m.fs.node q := by
  have hentry := locate_entry_at he hdir hnul
  -- a node that stays as it is
  have hsame : ∀ y : Option Node, m.fs.node (place ++ (p ++ [n])) = y → ∀ q, m.fs.node q =
      if q = place ++ (p ++ [n]) then y else m.fs.node q := by
    intro y hy q
    split
    · rename_i hq
      rw [hq, hy]
    · rfl
  cases x with
  | symlink target =>
    subst ht
    exact ⟨m, rfl, le_rfl, Fs.Extends.refl _, hsame _ rfl⟩
  | dir =>
    subst ht
    cases hold : m.fs.node (place ++ (p ++ [n])) with
    | some y =>
      have hmake : create_dir Os.calm (dst ++ (p ++ [n])) m = (.error .AlreadyExists, m.tick) :=
        make_there rfl hentry hold
      exact ⟨m.tick, ⟨_, hmake, Or.inr rfl⟩, Nat.le_succ _, Fs.Extends.refl _, hsame _ hold⟩
    | none =>
      have hmake : create_dir Os.calm (dst ++ (p ++ [n])) m =
          (.ok (), m.tick.set (place ++ (p ++ [n])) .dir) := make_ok rfl hentry hold
      have hslot := slot_of_locate_entry hentry (by rw [hold]; simp)
      refine ⟨_, ⟨_, hmake, Or.inl rfl⟩, Nat.le_succ _, Fs.extends_set_dir hslot hold, fun q => ?_⟩
      rw [set_fs, tick_fs, Fs.node_set hslot]
      rfl
  | file c =>
    subst ht
    have hl := locate_at he hdir hnul hlink
    have hnodir := hfile rfl
    have hslot := slot_of_locate hl hnodir
    have hself : follow m.fs (src ++ (p ++ [n])) = .ok (src ++ (p ++ [n])) :=
      follow_self ⟨_, hx, by simp⟩
    have hcopy := @copy_ok Os.calm m _ (src ++ (p ++ [n])) (dst ++ (p ++ [n])) _ c rfl rfl rfl
      hself hx hl hnodir
    have hstep := @copy_call_step Os.calm src dst m (p ++ [n]) c hx
    rw [hcopy] at hstep
    refine ⟨_, hcopy, by simp [Machine.set, Machine.tick, Machine.read]; omega,
      copy_step_extends hstep, fun q => ?_⟩
    have hbytes : (m.fs.set (place ++ (p ++ [n])) (.file [])).content (src ++ (p ++ [n])) = c := by
      unfold Fs.content
      rw [Fs.node_set hslot, if_neg hne, hx]
    rw [hbytes]
    show ((m.fs.set _ (.file [])).set _ (.file c)).node q = _
    rw [node_fill hslot]
    rfl

/-- The loop goes on past an entry that is done. -/
theorem copy_entries_go {src_dir dest_dir : Path} {t : FileType} {m' : Machine}
    {entries : List (Name × FileType)} {stack : Stack}
    (h : EntryDone Os.calm t (src_dir ++ [n]) (dest_dir ++ [n]) m.tick.tick m') :
    copy_entries Os.calm src_dir dest_dir ((n, t) :: entries) stack m =
      copy_entries Os.calm src_dir dest_dir entries
        (if t = .dir then (src_dir ++ [n], dest_dir ++ [n]) :: stack else stack) m' := by
  have hnext : ∀ m : Machine, next_entry Os.calm m = (.ok (), m.tick) := fun _ => rfl
  -- the two calls that list the entry go well
  rw [copy_entries, hnext]
  dsimp only
  rw [hnext]
  dsimp only
  cases t with
  | dir =>
    obtain ⟨res, hmake, rfl | rfl⟩ := h
    · dsimp only
      rw [hmake, if_pos rfl]
    · dsimp only
      rw [hmake]
      dsimp only
      rw [if_neg (by simp), if_pos rfl]
  | symlink =>
    have hm : m' = m.tick.tick := h
    rw [hm, if_neg (by simp)]
  | file =>
    have hcopy : copy Os.calm (src_dir ++ [n]) (dest_dir ++ [n]) m.tick.tick = (.ok (), m') := h
    dsimp only
    rw [hcopy, if_neg (by simp)]

end Entry

/-! ## One directory, when nothing fails by itself -/

section Directory

variable {m : Machine} {src dst place : Path} {p : List Name}

/-- What has to be right for the entries of a directory to be copied. -/
structure Copyable (fs : Fs) (src dst place : Path) (p : List Name)
    (entries : List (Name × FileType)) : Prop where
  entry : locate_entry fs dst = .ok place
  link_free : fs.LinkFree place
  dir : fs.node (place ++ p) = some .dir
  apart : ∀ n n', src ++ (p ++ [n]) ≠ place ++ (p ++ [n'])
  once : (entries.map Prod.fst).Nodup
  each : ∀ n t, (n, t) ∈ entries → n.has_nul = false ∧
    (∃ x, fs.node (src ++ (p ++ [n])) = some x ∧ x.file_type = t) ∧
    (t = .file → fs.node (place ++ (p ++ [n])) ≠ some .dir)

/-- No later entry has the name of the first one. -/
theorem other_name {n n' : Name} {t t' : FileType} {entries : List (Name × FileType)}
    (hnames : (((n, t) :: entries).map Prod.fst).Nodup) (h : (n', t') ∈ entries) : n' ≠ n := by
  intro heq
  apply (List.nodup_cons.mp hnames).1
  rw [← heq]
  exact List.mem_map.mpr ⟨(n', t'), h, rfl⟩

/-- The entries that are left can be copied after one that is done. -/
theorem Copyable.tail {fs fs' : Fs} {n : Name} {t : FileType} {entries : List (Name × FileType)}
    {y : Option Node} (h : Copyable fs src dst place p ((n, t) :: entries)) (hext : fs.Extends fs')
    (hnode : ∀ q, fs'.node q = if q = place ++ (p ++ [n]) then y else fs.node q) :
    Copyable fs' src dst place p entries where
  entry := locate_entry_keeps hext.keeps h.entry
  link_free := h.link_free.grow hext
  dir := hext.keeps.dir h.dir
  apart := h.apart
  once := (List.nodup_cons.mp h.once).2
  each := by
    intro n' t' hn'
    obtain ⟨hnul, hsrc, hfile⟩ := h.each n' t' (List.mem_cons_of_mem _ hn')
    have hother := other_name h.once hn'
    refine ⟨hnul, ?_, ?_⟩
    · rw [hnode, if_neg (h.apart n' n)]
      exact hsrc
    · rw [hnode, if_neg]
      · exact hfile
      · intro heq
        apply hother
        simpa using heq

/-- **All entries are copied.** -/
theorem copy_entries_calm {entries : List (Name × FileType)} {stack : Stack}
    (h : Copyable m.fs src dst place p entries) :
    ∃ stack' m', copy_entries Os.calm (src ++ p) (dst ++ p) entries stack m = (.ok stack', m') ∧
      m.calls < m'.calls ∧ m.fs.Extends m'.fs ∧
      (∀ q, (∀ n t, (n, t) ∈ entries → q ≠ place ++ (p ++ [n])) → m'.fs.node q = m.fs.node q) ∧
      ∀ n t, (n, t) ∈ entries → m'.fs.node (place ++ (p ++ [n])) =
        overlay (m.fs.node (src ++ (p ++ [n]))) (m.fs.node (place ++ (p ++ [n]))) := by
  induction entries generalizing stack m with
  | nil =>
    refine ⟨stack, m.tick, rfl, Nat.lt_succ_self _, Fs.Extends.refl _, fun _ _ => rfl, ?_⟩
    intro n t hn
    cases hn
  | cons entry entries ih =>
    obtain ⟨n, t⟩ := entry
    obtain ⟨hnul, ⟨x, hx, ht⟩, hfile⟩ := h.each n t List.mem_cons_self
    -- the first entry is put in place, and the others can still be copied
    obtain ⟨m₁, hdone, hcalls₁, hext₁, hnode₁⟩ := entry_calm (m := m.tick.tick) h.entry h.dir hnul hx
      ht (fun u => h.link_free (p ++ [n]) u) hfile (h.apart n n)
    have htail : Copyable m₁.fs src dst place p entries := h.tail hext₁ hnode₁
    rw [← List.append_assoc, ← List.append_assoc] at hdone
    obtain ⟨stack', m', hgo, hcalls, hext, hframe, hlaid⟩ := @ih m₁ _ htail
    refine ⟨stack', m', ?_, ?_, hext₁.trans hext, fun q hq => ?_, fun n' t' hn' => ?_⟩
    · rw [copy_entries_go hdone]
      exact hgo
    · have htick : m.tick.tick.calls = m.calls + 2 := rfl
      omega
    · -- what is none of the entries is touched by none of the turns
      rw [hframe q (fun n' t' hn' => hq n' t' (List.mem_cons_of_mem _ hn')), hnode₁,
        if_neg (hq n t List.mem_cons_self)]
      rfl
    · rcases List.mem_cons.mp hn' with heq | hn'
      · -- the first entry, which no later one has the name of
        cases heq
        rw [hframe, hnode₁, if_pos rfl, hx]
        · rfl
        · intro n' t' hn' heq
          apply other_name h.once hn'
          simpa using heq.symm
      · have hother := other_name h.once hn'
        rw [hlaid n' t' hn', hnode₁, hnode₁, if_neg (h.apart n' n), if_neg]
        · rfl
        · intro heq
          apply hother
          simpa using heq

end Directory

/-- While nothing fails, the entries are copied alike. -/
theorem copy_entries_calm_eq {os : Os} (hcalm : ∀ i, os.fault i = false) {src_dir dest_dir : Path}
    {entries : List (Name × FileType)} {stack : Stack} {m : Machine} :
    copy_entries os src_dir dest_dir entries stack m =
      copy_entries Os.calm src_dir dest_dir entries stack m := by
  have hcall : ∀ {α : Type} (go : Machine → IoResult α × Machine) (m : Machine),
      syscall os m go = syscall Os.calm m go := by
    intro α go m
    rw [syscall_ok (hcalm _), syscall_ok rfl]
  have hnext : ∀ m : Machine, next_entry os m = next_entry Os.calm m := fun m => hcall _ m
  have hmake : ∀ (q : Path) (m : Machine), create_dir os q m = create_dir Os.calm q m := by
    intro q m
    unfold create_dir make
    exact hcall _ m
  have hcopy : ∀ (q q' : Path) (m : Machine), copy os q q' m = copy Os.calm q q' m := by
    intro q q' m
    unfold copy open_file create write
    simp only [hcall, hcalm, calm_fault, Bool.false_eq_true, if_false]
  induction entries generalizing stack m with
  | nil =>
    unfold copy_entries
    rw [hnext]
  | cons entry entries ih =>
    obtain ⟨n, t⟩ := entry
    unfold copy_entries
    simp only [hnext, hmake, hcopy, ih]

/-! ## A system that reads in a given order -/

/-- A system in which nothing fails, with the order in which it lists directories. -/
def ordered (order : ℕ → List Name → List Name) (h : ∀ k names, (order k names).Perm names) : Os :=
  { Os.calm with order := order, order_perm := h }

/-- The order matters only where a directory is read. -/
theorem copy_entries_ordered {order : ℕ → List Name → List Name}
    {h : ∀ k names, (order k names).Perm names} {src_dir dest_dir : Path}
    {entries : List (Name × FileType)} {stack : Stack} {m : Machine} :
    copy_entries (ordered order h) src_dir dest_dir entries stack m =
      copy_entries Os.calm src_dir dest_dir entries stack m :=
  copy_entries_calm_eq fun _ => rfl

/-- The names with one of them put last. -/
def put_last (x : Name) (names : List Name) : List Name :=
  names.filter (fun n => n ≠ x) ++ names.filter (fun n => n = x)

theorem put_last_perm (x : Name) (names : List Name) : (put_last x names).Perm names := by
  unfold put_last
  have hsplit := List.filter_append_perm (fun n => decide (n ≠ x)) names
  simpa using hsplit

/-- A system can list the directory of each of these calls with its own name last. -/
theorem exists_order {calls : ℕ → ℕ} (h : StrictMono calls) (name : ℕ → Name) :
    ∃ order : ℕ → List Name → List Name, (∀ k names, (order k names).Perm names) ∧
      ∀ i, order (calls i + 1) = put_last (name i) := by
  have hinj : Function.Injective fun i => calls i + 1 := by
    intro i j hij
    exact h.injective (Nat.succ.inj hij)
  refine ⟨Function.extend (fun i => calls i + 1) (fun i => put_last (name i)) fun _ => id, ?_, ?_⟩
  · intro k names
    by_cases hk : ∃ i, calls i + 1 = k
    · obtain ⟨i, rfl⟩ := hk
      rw [hinj.extend_apply (fun i => put_last (name i)) (fun _ => id) i]
      exact put_last_perm _ _
    · rw [Function.extend_apply' _ _ _ hk]
      exact List.Perm.refl _
  · exact hinj.extend_apply (fun i => put_last (name i)) fun _ => id

/-- A directory that is read with a sub-directory put last. -/
theorem read_dir_last {order : ℕ → List Name → List Name}
    {h : ∀ k names, (order k names).Perm names} {m : Machine} {d : Path} {x : Name}
    (hdir : m.fs.node d = some .dir) (hx : m.fs.node (d ++ [x]) = some .dir)
    (horder : order (m.calls + 1) = put_last x) :
    ∃ before, read_dir (ordered order h) d m = (.ok (before ++ [(x, .dir)]), m.tick) ∧
      before = ((m.fs.children d).filter (fun n => n ≠ x)).filterMap
        fun n => (m.fs.node (d ++ [n])).map fun y => (n, y.file_type) := by
  refine ⟨_, ?_, rfl⟩
  have hself : follow m.fs d = .ok d := follow_self ⟨_, hdir, by simp⟩
  unfold read_dir
  rw [syscall_ok rfl]
  rw [tick_fs, hself]
  dsimp only
  rw [if_neg (not_not.mpr hdir)]
  have horder' : (ordered order h).order m.tick.calls = put_last x := horder
  rw [horder']
  have hlast : (m.fs.children d).filter (fun n => n = x) = [x] := by
    have hmem : x ∈ m.fs.children d := Fs.mem_children.mpr (by rw [hx]; simp)
    rw [List.filter_eq, List.count_eq_one_of_mem (Fs.children_nodup d) hmem]
    rfl
  unfold put_last
  rw [List.filterMap_append, hlast]
  simp [hx, Node.file_type]

/-! ## The descent -/

/-- No name of an entry has a NUL byte, as on every file system. -/
def NulFree (fs : Fs) : Prop := ∀ q n, fs.node (q ++ [n]) ≠ none → n.has_nul = false

theorem nul_free_of_known {fs : Fs} (h : ∀ q ∈ fs.known, ∀ n ∈ q, n.has_nul = false) :
    NulFree fs := by
  intro q n hn
  apply h (q ++ [n]) (fs.mem_known _ hn)
  exact List.mem_append_right _ List.mem_cons_self

/-- A directory that is copied into itself, with nothing in the way of the descent. -/
structure Caught (fs : Fs) (src dst : Path) (e : List Name) : Prop where
  inside : e ≠ []
  entry : locate_entry fs dst = .ok (src ++ e)
  link_free : fs.LinkFree (src ++ e)
  dir : fs.node (src ++ e) = some .dir
  descends : Descends fs src e
  names : NulFree fs

/-- The state after `i` rounds of the descent. -/
structure Spin (fs : Fs) (src dst : Path) (e : List Name) (i : ℕ) (stack : Stack) (m : Machine) :
    Prop where
  top : ∃ ps, stack = pairs src dst (endless e i :: ps)
  grown : fs.Extends m.fs
  dirs : ∀ j, j ≤ i + e.length → m.fs.node (src ++ endless e j) = some .dir
  untouched : ∀ j n, i + e.length ≤ j →
    m.fs.node (src ++ (endless e j ++ [n])) = fs.node (src ++ (endless e j ++ [n]))
  /-- A file of the descent was there before, or comes from one that was. -/
  files : ∀ j n c, m.fs.node (src ++ (endless e j ++ [n])) = some (.file c) →
    ∃ j' k c', j = j' + k * e.length ∧ fs.node (src ++ (endless e j' ++ [n])) = some (.file c')
  names : ∀ j n, m.fs.node (src ++ (endless e j ++ [n])) ≠ none → n.has_nul = false

section Descent

variable {fs : Fs} {src dst : Path} {e : List Name} {i : ℕ} {stack : Stack} {m : Machine}

/-- On the way to the destination there are directories. -/
theorem first_round (hne : e ≠ []) (hdir : fs.node (src ++ e) = some .dir) {j : ℕ}
    (hj : j ≤ e.length) : fs.node (src ++ endless e j) = some .dir := by
  have hpre : src ++ endless e j <+: src ++ e := by
    have hgrows := endless_grows hne hj
    rw [endless_self hne] at hgrows
    exact (List.prefix_append_right_inj src).mpr hgrows
  by_cases heq : src ++ endless e j = src ++ e
  · rw [heq]
    exact hdir
  · exact fs.dir_above (by rw [hdir]; simp) hpre heq

theorem spin_start (h : Caught fs src dst e) (hfs : m.fs = fs) :
    Spin fs src dst e 0 (pairs src dst [[]]) m where
  top := ⟨[], rfl⟩
  grown := by
    rw [hfs]
    exact Fs.Extends.refl fs
  dirs := by
    intro j hj
    rw [Nat.zero_add] at hj
    rw [hfs]
    exact first_round h.inside h.dir hj
  untouched := fun _ _ _ => by rw [hfs]
  files := by
    intro j n c hc
    rw [hfs] at hc
    exact ⟨j, 0, c, by simp, hc⟩
  names := by
    intro j n hn
    rw [hfs] at hn
    apply h.names (src ++ endless e j)
    rw [List.append_assoc]
    exact hn

/-- One round further down. -/
theorem one_round (hne : e ≠ []) (i : ℕ) (r : List Name) :
    src ++ e ++ (endless e i ++ r) = src ++ (endless e (i + e.length) ++ r) := by
  rw [endless_add hne]
  simp

/-- The directory on top of the stack can be copied. -/
theorem Spin.copyable (h : Spin fs src dst e i stack m) (hc : Caught fs src dst e)
    {entries : List (Name × FileType)} (hnames : (entries.map Prod.fst).Nodup)
    (hmem : ∀ n t, (n, t) ∈ entries →
      ∃ x, m.fs.node (src ++ (endless e i ++ [n])) = some x ∧ x.file_type = t) :
    Copyable m.fs src dst (src ++ e) (endless e i) entries where
  entry := locate_entry_keeps h.grown.keeps hc.entry
  link_free := hc.link_free.grow h.grown
  dir := by
    have hdir := h.dirs (i + e.length) le_rfl
    rw [endless_add hc.inside] at hdir
    simpa using hdir
  apart := by
    intro n n' heq
    have hlen := congrArg List.length heq
    have hpos := List.length_pos_iff.mpr hc.inside
    simp only [List.length_append, List.length_singleton] at hlen
    omega
  once := hnames
  each := by
    intro n t hn
    obtain ⟨x, hx, ht⟩ := hmem n t hn
    refine ⟨h.names i n (by rw [hx]; simp), ⟨x, hx, ht⟩, fun hfile => ?_⟩
    rw [hfile] at ht
    obtain ⟨c, hc'⟩ := node_of_file hx ht
    -- the file comes from one of the tree as it was, and nothing has been there yet
    obtain ⟨j', k, c', hij, horigin⟩ := h.files i n c hc'
    have hclash := hc.descends.no_clash j' k n c' horigin
    rw [one_round hc.inside, h.untouched _ n le_rfl]
    have hindex : i + e.length = j' + (k + 1) * e.length := by
      rw [hij, Nat.succ_mul, Nat.add_assoc]
    rw [hindex]
    exact hclash

/-- What a round does to the tree: the entries of a directory of the descent are laid over
those of the one a round further down. -/
structure Laid (src : Path) (e : List Name) (i : ℕ) (entries : List (Name × FileType))
    (m m' : Machine) : Prop where
  mem : ∀ n t, (n, t) ∈ entries →
    ∃ x, m.fs.node (src ++ (endless e i ++ [n])) = some x ∧ x.file_type = t
  grown : m.fs.Extends m'.fs
  frame : ∀ q, (∀ n t, (n, t) ∈ entries → q ≠ src ++ e ++ (endless e i ++ [n])) →
    m'.fs.node q = m.fs.node q
  laid : ∀ n t, (n, t) ∈ entries → m'.fs.node (src ++ e ++ (endless e i ++ [n])) =
    overlay (m.fs.node (src ++ (endless e i ++ [n])))
      (m.fs.node (src ++ e ++ (endless e i ++ [n])))

section Laid

variable {entries : List (Name × FileType)} {m' : Machine}

/-- Other directories of the descent are not touched. -/
theorem Laid.other (h : Laid src e i entries m m') (hne : e ≠ []) {j : ℕ} (n : Name)
    (hj : j ≠ i + e.length) :
    m'.fs.node (src ++ (endless e j ++ [n])) = m.fs.node (src ++ (endless e j ++ [n])) := by
  apply h.frame
  intro n' t' _ heq
  apply hj
  have hlen := congrArg List.length heq
  rw [one_round hne] at hlen
  simp only [List.length_append, List.length_singleton, length_endless hne] at hlen
  omega

/-- An entry of the one that is copied to: what it was, or what has been laid over it. -/
theorem Laid.here (h : Laid src e i entries m m') (hne : e ≠ []) (n : Name) :
    m'.fs.node (src ++ (endless e (i + e.length) ++ [n])) =
        m.fs.node (src ++ (endless e (i + e.length) ++ [n])) ∨
      (m.fs.node (src ++ (endless e i ++ [n])) ≠ none ∧
        m'.fs.node (src ++ (endless e (i + e.length) ++ [n])) =
          overlay (m.fs.node (src ++ (endless e i ++ [n])))
            (m.fs.node (src ++ (endless e (i + e.length) ++ [n])))) := by
  by_cases hn : ∃ t, (n, t) ∈ entries
  · right
    obtain ⟨t, hn⟩ := hn
    obtain ⟨y, hy, -⟩ := h.mem n t hn
    rw [← one_round hne]
    exact ⟨by rw [hy]; exact Option.some_ne_none y, h.laid n t hn⟩
  · left
    apply h.frame
    intro n' t' hn' heq
    rw [one_round hne] at heq
    apply hn
    refine ⟨t', ?_⟩
    have hname : n = n' := by simpa using heq
    rw [hname]
    exact hn'

/-- The directory for the next round was made, or was there. -/
theorem Laid.next_dir (h : Laid src e i entries m m') (hs : Spin fs src dst e i stack m)
    (hc : Caught fs src dst e) {x : Name} (hx : endless e (i + 1) = endless e i ++ [x])
    (hlast : (x, .dir) ∈ entries) :
    m'.fs.node (src ++ endless e (i + 1 + e.length)) = some .dir := by
  have hne := hc.inside
  have hpos := List.length_pos_iff.mpr hne
  have hdir : m.fs.node (src ++ (endless e i ++ [x])) = some .dir := by
    rw [← hx]
    exact hs.dirs (i + 1) (by omega)
  have hplace : src ++ e ++ (endless e i ++ [x]) = src ++ endless e (i + 1 + e.length) := by
    rw [endless_add hne, hx]
    simp
  have hend : endless e (i + 1 + e.length) = endless e (i + e.length) ++ [x] := by
    rw [endless_add hne, hx, endless_add hne]
    simp
  -- nothing has been put there in the rounds before
  have hold : m.fs.node (src ++ endless e (i + 1 + e.length)) =
      fs.node (src ++ endless e (i + 1 + e.length)) := by
    rw [hend]
    exact hs.untouched _ x le_rfl
  have hnew := h.laid x _ hlast
  rw [hdir, hplace, hold] at hnew
  -- a directory is laid over what stood there: nothing, or a directory
  rw [hnew]
  cases hy : fs.node (src ++ endless e (i + 1 + e.length)) with
  | none => rfl
  | some y =>
    cases y with
    | dir => rfl
    | file c => exact absurd hy (hc.descends.no_file _ c)
    | symlink t =>
      rw [endless_add hne, ← List.append_assoc] at hy
      exact absurd hy (hc.link_free _ t)

end Laid

/-- The invariant after the entries of that directory. -/
theorem Spin.next (h : Spin fs src dst e i stack m) (hc : Caught fs src dst e)
    {entries : List (Name × FileType)} {ps : List (List Name)} {x : Name} {m' : Machine}
    (hx : endless e (i + 1) = endless e i ++ [x]) (hlast : (x, .dir) ∈ entries)
    (hlaid : Laid src e i entries m m') :
    Spin fs src dst e (i + 1) (pairs src dst (endless e (i + 1) :: ps)) m' := by
  have hne := hc.inside
  refine ⟨⟨ps, rfl⟩, h.grown.trans hlaid.grown, fun j hj => ?_, fun j n hj => ?_,
    fun j n c hfile => ?_, fun j n hsome => ?_⟩
  · -- one directory more than before, a round further down
    rcases Nat.lt_or_ge (i + e.length) j with hlt | hle
    · have hj' : j = i + 1 + e.length := by omega
      rw [hj']
      exact hlaid.next_dir h hc hx hlast
    · exact hlaid.grown.keeps.dir (h.dirs j hle)
  · rw [hlaid.other hne n (by omega)]
    exact h.untouched j n (by omega)
  · -- only the directory that was copied to has changed
    by_cases hj : j = i + e.length
    · rw [hj] at hfile ⊢
      rcases hlaid.here hne n with hsame | ⟨-, hnew⟩
      · rw [hsame] at hfile
        exact h.files _ n c hfile
      · rw [hnew] at hfile
        rcases overlay_eq_file hfile with ⟨c₁, hc₁⟩ | hold
        · -- a file of the directory that was read
          obtain ⟨j', k, c', hij, horigin⟩ := h.files i n c₁ hc₁
          refine ⟨j', k + 1, c', ?_, horigin⟩
          rw [hij, Nat.succ_mul, Nat.add_assoc]
        · exact h.files _ n c hold
    · rw [hlaid.other hne n hj] at hfile
      exact h.files j n c hfile
  · by_cases hj : j = i + e.length
    · rw [hj] at hsome
      rcases hlaid.here hne n with hsame | ⟨hthere, -⟩
      · rw [hsame] at hsome
        exact h.names _ n hsome
      · exact h.names i n hthere
    · rw [hlaid.other hne n hj] at hsome
      exact h.names j n hsome

/-- The round that takes `stack` and `m` to `stack'` and `m'`, in every system that puts
this name last. -/
def Turns (x : Name) (stack stack' : Stack) (m m' : Machine) : Prop :=
  m.calls < m'.calls ∧ ∀ order h, order (m.calls + 1) = put_last x → ∀ fuel,
    copy_loop (ordered order h) (fuel + 1) stack m = copy_loop (ordered order h) fuel stack' m'

/-- **One round of the descent.** -/
theorem spin_step (h : Spin fs src dst e i stack m) (hc : Caught fs src dst e) :
    ∃ x stack' m', Spin fs src dst e (i + 1) stack' m' ∧ Turns x stack stack' m m' := by
  obtain ⟨x, hx⟩ := endless_succ hc.inside i
  have hpos := List.length_pos_iff.mpr hc.inside
  have hdir : m.fs.node (src ++ endless e i) = some .dir := h.dirs i (by omega)
  have hsub : m.fs.node (src ++ endless e i ++ [x]) = some .dir := by
    rw [List.append_assoc, ← hx]
    exact h.dirs (i + 1) (by omega)
  -- what is read, in whatever system has the order
  obtain ⟨before, hread, hbefore⟩ := @read_dir_last (fun _ => put_last x) (fun _ => put_last_perm x)
    m (src ++ endless e i) x hdir hsub rfl
  obtain ⟨-, hiff, hperm⟩ := read_dir_real hdir hread
  have hnames := hperm.nodup_iff.mpr (Fs.children_nodup _)
  have hmem : ∀ n t, (n, t) ∈ before ++ [(x, .dir)] →
      ∃ y, m.fs.node (src ++ (endless e i ++ [n])) = some y ∧ y.file_type = t := by
    intro n t hn
    rw [← List.append_assoc]
    exact (hiff n t).mp hn
  obtain ⟨ps, rfl⟩ := h.top
  have hcopyable : Copyable m.tick.fs src dst (src ++ e) (endless e i) (before ++ [(x, .dir)]) :=
    h.copyable hc hnames hmem
  obtain ⟨stack', m', hgo, hcalls, hext, hframe, hlaid⟩ :=
    @copy_entries_calm m.tick src dst _ _ _ (pairs src dst ps) hcopyable
  have hstack := copy_entries_stack hgo
  have htop : pushed (endless e i) (before ++ [(x, .dir)]) =
      endless e (i + 1) :: pushed (endless e i) before := by
    rw [hx]
    simp [pushed, subdirs]
  rw [htop] at hstack
  refine ⟨x, stack', m', ?_, ?_, ?_⟩
  · rw [hstack]
    exact h.next hc hx (List.mem_append_right _ List.mem_cons_self) ⟨hmem, hext, hframe, hlaid⟩
  · have htick : m.tick.calls = m.calls + 1 := rfl
    omega
  · intro order horder hlast fuel
    obtain ⟨before', hread', hbefore'⟩ := @read_dir_last order horder m _ x hdir hsub hlast
    rw [← hbefore] at hbefore'
    subst hbefore'
    show copy_loop (ordered order horder) (fuel + 1)
      ((src ++ endless e i, dst ++ endless e i) :: pairs src dst ps) m = _
    rw [copy_loop, hread']
    dsimp only
    rw [copy_entries_ordered, hgo]

/-- **Caught, the copy does not end** in some system in which no call fails. -/
theorem caught_spins (hc : Caught fs src dst e) (hfs : m.fs = fs) :
    ∃ order h, ∀ fuel, (copy_loop (ordered order h) fuel (pairs src dst [[]]) m).1 = none := by
  -- the states of the descent, one after the other
  obtain ⟨run, hrun⟩ : ∃ run : ℕ → Stack × Machine, run 0 = (pairs src dst [[]], m) ∧
      ∀ i, Spin fs src dst e i (run i).1 (run i).2 ∧
        ∃ x, Turns x (run i).1 (run (i + 1)).1 (run i).2 (run (i + 1)).2 := by
    choose name stack' m' hspin hturns using
      fun i stack m (h : Spin fs src dst e i stack m) => spin_step h hc
    let states : (i : ℕ) → { s : Stack × Machine // Spin fs src dst e i s.1 s.2 } :=
      Nat.rec ⟨(pairs src dst [[]], m), spin_start hc hfs⟩
        fun i s => ⟨(stack' i s.1.1 s.1.2 s.2, m' i s.1.1 s.1.2 s.2), hspin i s.1.1 s.1.2 s.2⟩
    exact ⟨fun i => (states i).1, rfl, fun i =>
      ⟨(states i).2, name i _ _ (states i).2, hturns i _ _ (states i).2⟩⟩
  obtain ⟨hstart, hstates⟩ := hrun
  choose hspin name hturns using hstates
  -- the calls are counted up, so the system can tell the rounds apart
  have hmono : StrictMono fun i => (run i).2.calls := strictMono_nat_of_lt_succ fun i => (hturns i).1
  obtain ⟨order, horder, hround⟩ := exists_order hmono name
  have hnever : ∀ fuel i, (copy_loop (ordered order horder) fuel (run i).1 (run i).2).1 = none := by
    intro fuel
    induction fuel with
    | zero =>
      intro i
      obtain ⟨ps, hps⟩ := (hspin i).top
      rw [hps]
      rfl
    | succ fuel ih =>
      intro i
      rw [(hturns i).2 order horder (hround i)]
      exact ih (i + 1)
  refine ⟨order, horder, fun fuel => ?_⟩
  have hzero := hnever fuel 0
  rw [hstart] at hzero
  exact hzero

end Descent

end Rshs.CopySpins
