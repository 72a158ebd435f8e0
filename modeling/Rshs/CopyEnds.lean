/-
When the recursive copy comes to its end.

The loop pops a directory of the source, and pushes the directories it finds in it. No
directory is pushed twice: it is pushed when its parent is popped, and that happens once
(`Seen`). So the loop ends as soon as the directories that can come to be pushed are
finitely many, which is `copy_loop_ends`; the directories a copy makes in its own source
count among them.

For a destination without links it is then known which they are. If the destination is
not inside the source they are parts of paths that exist already (`outside_finite`). If it
is, at `src/e`, the copy descends through `src/e/e/…`, and it ends only if something is
in its way there, which is `Descends` (`blocked_ends`).
-/
import Rshs.CopyRun
import Rshs.Endless
import Mathlib.Data.Finset.Card
import Mathlib.Data.Finset.Union
import Mathlib.Data.Set.Finite.Basic

set_option autoImplicit false

namespace Rshs.CopyEnds

open StdPath Posix Endless Rshs.Webdav Rshs.CopyMove Rshs.CopyRun

/-! ## The stack -/

/-- The stack with these relative paths on it. -/
def pairs (src dst : Path) (ps : List (List Name)) : Stack := ps.map fun p => (src ++ p, dst ++ p)

/-- The directories among the entries that were read. -/
def subdirs (entries : List (Name × FileType)) : List Name :=
  (entries.filter fun e => e.2 = .dir).map Prod.fst

theorem mem_subdirs {entries : List (Name × FileType)} {n : Name} :
    n ∈ subdirs entries ↔ (n, .dir) ∈ entries := by
  unfold subdirs
  simp

theorem subdirs_cons (n : Name) (t : FileType) (entries : List (Name × FileType)) :
    subdirs ((n, t) :: entries) = if t = .dir then n :: subdirs entries else subdirs entries := by
  unfold subdirs
  by_cases ht : t = .dir
  · simp [ht]
  · simp [ht]

/-- The paths below `p` that are pushed, in the order of the stack. -/
def pushed (p : List Name) (entries : List (Name × FileType)) : List (List Name) :=
  ((subdirs entries).map fun n => p ++ [n]).reverse

theorem mem_pushed {p q : List Name} {entries : List (Name × FileType)} :
    q ∈ pushed p entries ↔ ∃ n, (n, .dir) ∈ entries ∧ q = p ++ [n] := by
  unfold pushed
  rw [List.mem_reverse, List.mem_map]
  apply exists_congr
  intro n
  rw [mem_subdirs, eq_comm]

/-- The inner loop pushes the directories among the entries, and nothing else. -/
theorem copy_entries_stack {os : Os} {src dst : Path} {p : List Name}
    {entries : List (Name × FileType)} {ps : List (List Name)} {stack' : Stack} {m m' : Machine}
    (h : copy_entries os (src ++ p) (dst ++ p) entries (pairs src dst ps) m = (.ok stack', m')) :
    stack' = pairs src dst (pushed p entries ++ ps) := by
  induction entries generalizing ps m with
  | nil =>
    obtain ⟨-, rfl⟩ := copy_entries_nil h
    rfl
  | cons entry entries ih =>
    obtain ⟨n, t⟩ := entry
    obtain ⟨m₁, -, h⟩ := copy_entries_cons h
    by_cases ht : t = .dir
    · rw [if_pos ht] at h
      have hstack : (src ++ p ++ [n], dst ++ p ++ [n]) :: pairs src dst ps =
          pairs src dst ((p ++ [n]) :: ps) := by
        simp [pairs]
      rw [hstack] at h
      rw [ih h]
      simp [pushed, subdirs_cons, ht]
    · rw [if_neg ht] at h
      rw [ih h]
      simp [pushed, subdirs_cons, ht]

/-! ## No directory is pushed twice -/

/-- What has been pushed so far, with what is still on the stack: a directory has been
pushed only after its parent had left the stack. -/
structure Seen (ps : List (List Name)) (seen : Finset (List Name)) : Prop where
  nodup : ps.Nodup
  on_stack : ∀ p ∈ ps, p ∈ seen
  closed : ∀ p n, p ++ [n] ∈ seen → p ∈ seen ∧ p ∉ ps

section Seen

variable {p : List Name} {ps : List (List Name)} {seen : Finset (List Name)}
  {entries : List (Name × FileType)}

theorem Seen.above (h : Seen ps seen) {q : List Name} (hp : p ∈ seen) (hq : q <+: p) : q ∈ seen := by
  obtain ⟨r, rfl⟩ := hq
  -- the induction takes the last name off
  induction r using List.reverseRecOn with
  | nil => simpa using hp
  | append_singleton r n ih =>
    apply ih
    rw [← List.append_assoc] at hp
    exact (h.closed _ n hp).1

/-- What is below the top of the stack is new. -/
theorem Seen.fresh (h : Seen (p :: ps) seen) (n : Name) : p ++ [n] ∉ seen := by
  intro hn
  exact (h.closed p n hn).2 List.mem_cons_self

theorem pushed_nodup (hnames : (entries.map Prod.fst).Nodup) : (pushed p entries).Nodup := by
  unfold pushed
  rw [List.nodup_reverse]
  have hsub : (subdirs entries).Nodup := (List.filter_sublist.map Prod.fst).nodup hnames
  apply hsub.map
  intro a b hab
  simpa using hab

theorem Seen.push (h : Seen (p :: ps) seen) (hnames : (entries.map Prod.fst).Nodup) :
    Seen (pushed p entries ++ ps) (seen ∪ (pushed p entries).toFinset) where
  nodup := by
    -- what is pushed is new, so it is not on the stack
    have hps := (List.nodup_cons.mp h.nodup).2
    apply List.Nodup.append (pushed_nodup hnames) hps
    intro q hq hq'
    obtain ⟨n, -, rfl⟩ := mem_pushed.mp hq
    exact h.fresh n (h.on_stack _ (List.mem_cons_of_mem _ hq'))
  on_stack := by
    intro q hq
    rw [Finset.mem_union, List.mem_toFinset]
    rcases List.mem_append.mp hq with hq | hq
    · exact Or.inr hq
    · exact Or.inl (h.on_stack q (List.mem_cons_of_mem _ hq))
  closed := by
    intro q n hq
    rw [Finset.mem_union, List.mem_toFinset] at hq ⊢
    rw [List.mem_append, not_or]
    have hp : p ∈ seen := h.on_stack p List.mem_cons_self
    rcases hq with hq | hq
    · -- its parent had left the stack before, and is none of those that are new
      obtain ⟨hseen, hout⟩ := h.closed q n hq
      refine ⟨Or.inl hseen, fun hnew => ?_, fun hps => hout (List.mem_cons_of_mem _ hps)⟩
      obtain ⟨n', -, rfl⟩ := mem_pushed.mp hnew
      exact h.fresh n' hseen
    · obtain ⟨n', -, heq⟩ := mem_pushed.mp hq
      obtain ⟨rfl, -⟩ := List.append_inj' heq rfl
      refine ⟨Or.inl hp, fun hnew => ?_, (List.nodup_cons.mp h.nodup).1⟩
      obtain ⟨n'', -, heq'⟩ := mem_pushed.mp hnew
      simp at heq'

theorem seen_start : Seen [[]] {[]} where
  nodup := List.nodup_singleton _
  on_stack := by simp
  closed := by
    intro p n hp
    simp at hp

end Seen

/-! ## The loop ends -/

/-- The state of the loop: what has been pushed are directories of the source. -/
structure Visit (src dst : Path) (m₀ m : Machine) (ps : List (List Name))
    (seen : Finset (List Name)) : Prop where
  pushes : Seen ps seen
  run : Copies src dst m₀ m
  dirs : ∀ p ∈ seen, m.fs.node (src ++ p) = some .dir

section Loop

variable {os : Os} {src dst : Path} {m₀ m m' : Machine} {p : List Name} {ps : List (List Name)}
  {seen : Finset (List Name)} {entries : List (Name × FileType)} {stack' : Stack}

/-- What can be seen was in the source, or has been copied to a place in it. -/
theorem Visit.meets (h : Visit src dst m₀ m ps seen) (hp : p ∈ seen) :
    Meets m₀.fs src dst p .dir := by
  have hmeets := meets_run h.run (h.dirs p hp) (by simp [Node.file_type])
  exact hmeets

/-- The entries of the directory on top of the stack. -/
theorem Visit.reads (h : Visit src dst m₀ m (p :: ps) seen) {m₁ : Machine}
    (hread : read_dir os (src ++ p) m = (.ok entries, m₁)) :
    m₁ = m.tick ∧ EntriesOk m.fs (src ++ p) entries ∧ (entries.map Prod.fst).Nodup ∧
      ∀ n x, m.fs.node (src ++ p ++ [n]) = some x → (n, x.file_type) ∈ entries := by
  have hdir := h.dirs p (h.pushes.on_stack p List.mem_cons_self)
  obtain ⟨rfl, hmem, hperm⟩ := read_dir_real hdir hread
  have hnames := hperm.nodup_iff.mpr (Fs.children_nodup _)
  refine ⟨rfl, fun n t hn => (hmem n t).mp hn, hnames, fun n x hx => ?_⟩
  exact (hmem n _).mpr ⟨x, hx, rfl⟩

/-- The rest of the stack. -/
theorem Visit.stack (h : Visit src dst m₀ m (p :: ps) seen) :
    StackOk src dst m.tick.fs (pairs src dst ps) := by
  intro pair hpair
  obtain ⟨q, hq, rfl⟩ := List.mem_map.mp hpair
  exact ⟨q, rfl, h.dirs q (h.pushes.on_stack q (List.mem_cons_of_mem _ hq))⟩

/-- **One round.** -/
theorem Visit.step (h : Visit src dst m₀ m (p :: ps) seen)
    (hread : read_dir os (src ++ p) m = (.ok entries, m.tick))
    (hentries : copy_entries os (src ++ p) (dst ++ p) entries (pairs src dst ps) m.tick
      = (.ok stack', m')) :
    Copies src dst m m' ∧
      Visit src dst m₀ m' (pushed p entries ++ ps) (seen ∪ (pushed p entries).toFinset) := by
  obtain ⟨-, hok, hnames, -⟩ := h.reads hread
  obtain ⟨hrun, -⟩ := copy_entries_run (m := m.tick) hok h.stack hentries
  have htick : CopyStep src dst m m.tick := CopyStep.idle rfl rfl
  have hidle : Copies src dst m m' := (Relation.ReflTransGen.single htick).trans hrun
  have hkeeps := (copy_run_extends hidle).keeps
  refine ⟨hidle, h.pushes.push hnames, h.run.trans hidle, fun q hq => ?_⟩
  rcases Finset.mem_union.mp hq with hq | hq
  · exact hkeeps.dir (h.dirs q hq)
  · -- a directory that was read is one still
    obtain ⟨n, hn, rfl⟩ := mem_pushed.mp (List.mem_toFinset.mp hq)
    obtain ⟨x, hx, ht⟩ := hok n _ hn
    rw [← List.append_assoc]
    exact hkeeps.dir (node_of_dir hx ht)

/-- **The loop ends**, if what it can push is in a finite set. `Extra` is whatever else a
round preserves and the bound is shown with. -/
theorem copy_loop_ends {V : Finset (List Name)}
    {Extra : List (List Name) → Finset (List Name) → Fs → Prop}
    (hbound : ∀ m ps seen, Visit src dst m₀ m ps seen → Extra ps seen m.fs → seen ⊆ V)
    (hextra : ∀ m m' p ps seen entries stack', Visit src dst m₀ m (p :: ps) seen →
      Extra (p :: ps) seen m.fs →
      read_dir os (src ++ p) m = (.ok entries, m.tick) →
      copy_entries os (src ++ p) (dst ++ p) entries (pairs src dst ps) m.tick = (.ok stack', m') →
      Extra (pushed p entries ++ ps) (seen ∪ (pushed p entries).toFinset) m'.fs)
    {fuel : ℕ} (hvisit : Visit src dst m₀ m ps seen) (he : Extra ps seen m.fs)
    (hfuel : V.card + ps.length ≤ fuel + seen.card) :
    (copy_loop os fuel (pairs src dst ps) m).1 ≠ none := by
  induction fuel generalizing m ps seen with
  | zero =>
    cases ps with
    | nil => simp [pairs, copy_loop]
    | cons p ps =>
      have hcard := Finset.card_le_card (hbound m _ seen hvisit he)
      rw [List.length_cons] at hfuel
      omega
  | succ fuel ih =>
    cases ps with
    | nil => simp [pairs, copy_loop]
    | cons p ps =>
      show (copy_loop os (fuel + 1) ((src ++ p, dst ++ p) :: pairs src dst ps) m).1 ≠ none
      unfold copy_loop
      rcases hread : read_dir os (src ++ p) m with ⟨e | entries, m₁⟩
      · simp
      obtain ⟨rfl, -, hnames, -⟩ := hvisit.reads hread
      dsimp only
      rcases hentries : copy_entries os (src ++ p) (dst ++ p) entries (pairs src dst ps) m.tick
        with ⟨status | stack', m'⟩
      · simp
      dsimp only
      rw [copy_entries_stack hentries]
      apply ih (hvisit.step hread hentries).2 (hextra _ _ _ _ _ _ _ hvisit he hread hentries)
      -- what is pushed is new, so as much is added on the right
      have hdisjoint : Disjoint seen (pushed p entries).toFinset := by
        apply Finset.disjoint_right.mpr
        intro q hq
        obtain ⟨n, -, rfl⟩ := mem_pushed.mp (List.mem_toFinset.mp hq)
        exact hvisit.pushes.fresh n
      have hnew : (pushed p entries).toFinset.card = (pushed p entries).length :=
        List.toFinset_card_of_nodup (pushed_nodup hnames)
      rw [Finset.card_union_of_disjoint hdisjoint, hnew, List.length_append]
      rw [List.length_cons] at hfuel
      omega

/-- With nothing extra: the directories that a copy can meet are finitely many. -/
theorem finite_ends (hfinite : {r | Meets m₀.fs src dst r .dir}.Finite)
    (hvisit : Visit src dst m₀ m ps seen) :
    ∃ fuel, (copy_loop os fuel (pairs src dst ps) m).1 ≠ none := by
  refine ⟨hfinite.toFinset.card + ps.length, ?_⟩
  refine @copy_loop_ends os src dst m₀ m ps seen hfinite.toFinset (fun _ _ _ => True)
    (fun m ps seen hv _ p hp => ?_) (fun _ _ _ _ _ _ _ _ _ _ _ => trivial) _ hvisit trivial (by omega)
  exact hfinite.mem_toFinset.mpr (hv.meets hp)

end Loop

/-! ## A destination that is not inside the source -/

/-- The ends of the paths that are known. -/
def ends (fs : Fs) : Finset (List Name) := (fs.known.flatMap List.tails).toFinset

theorem mem_ends {fs : Fs} {q r : List Name} (h : fs.node (q ++ r) ≠ none) : r ∈ ends fs := by
  unfold ends
  rw [List.mem_toFinset, List.mem_flatMap]
  exact ⟨q ++ r, fs.mem_known _ h, (List.mem_tails _ _).mpr (List.suffix_append q r)⟩

section Outside

variable {fs : Fs} {src dst place e : Path} {r : List Name} {t : FileType}

/-- What such a copy meets is the end of a path that exists. -/
theorem meets_outside (he : locate_entry fs dst = .ok place) (hfree : fs.LinkFree place)
    (hout : ∀ e, e ≠ [] → place ≠ src ++ e) (h : Meets fs src dst r t) :
    ∃ u, fs.node (src ++ (u ++ r)) ≠ none := by
  induction h with
  | source r x hx _ =>
    refine ⟨[], ?_⟩
    rw [List.nil_append, hx]
    exact Option.some_ne_none x
  | copied r r' t _ hl ih =>
    obtain ⟨u, hu⟩ := ih
    have heq := leads_below he hfree hl
    -- the destination is above the source, or is the source
    have hbelow : place <+: src ++ r' := by
      rw [heq]
      exact List.prefix_append place r
    rcases List.prefix_or_prefix_of_prefix (List.prefix_append src r') hbelow with
      ⟨e, hpre⟩ | ⟨f, hpre⟩
    · have hnil : e = [] := by
        by_contra hne
        exact hout e hne hpre.symm
      rw [← hpre, hnil, List.append_nil] at heq
      rw [List.append_cancel_left heq]
      exact ⟨u, hu⟩
    · rw [← hpre, List.append_assoc] at heq
      rw [← List.append_cancel_left heq] at hu
      exact ⟨u ++ f, by rw [List.append_assoc]; exact hu⟩

/-- **So it meets finitely many directories.** -/
theorem outside_finite (he : locate_entry fs dst = .ok place) (hfree : fs.LinkFree place)
    (hout : ∀ e, e ≠ [] → place ≠ src ++ e) : {r | Meets fs src dst r .dir}.Finite := by
  apply (ends fs).finite_toSet.subset
  intro r hr
  obtain ⟨u, hu⟩ := meets_outside he hfree hout hr
  rw [← List.append_assoc] at hu
  exact mem_ends hu

end Outside

/-! ## A destination inside the source -/

/-- Nothing is in the way of the descent through `src/e/e/…`: no file stands on it, and no
directory where a file of one of its directories is copied to, in this round or a later
one. -/
structure Descends (fs : Fs) (src : Path) (e : List Name) : Prop where
  no_file : ∀ i c, fs.node (src ++ endless e i) ≠ some (.file c)
  no_clash : ∀ i k n c, fs.node (src ++ (endless e i ++ [n])) = some (.file c) →
    fs.node (src ++ (endless e (i + (k + 1) * e.length) ++ [n])) ≠ some .dir

section Inside

variable {os : Os} {fs : Fs} {src dst : Path} {e : List Name} {m₀ m m' : Machine} {p : List Name}
  {ps : List (List Name)} {seen : Finset (List Name)} {n : Name}

/-- What such a copy meets are the source's own entries, after some rounds. -/
theorem meets_inside (hne : e ≠ []) (he : locate_entry fs dst = .ok (src ++ e))
    (hfree : fs.LinkFree (src ++ e)) {r : List Name} {t : FileType} (h : Meets fs src dst r t) :
    ∃ k s, r = endless e (k * e.length) ++ s ∧ fs.node (src ++ s) ≠ none := by
  induction h with
  | source r x hx _ =>
    refine ⟨0, r, ?_, by rw [hx]; exact Option.some_ne_none x⟩
    rw [Nat.zero_mul]
    rfl
  | copied r r' t _ hl ih =>
    obtain ⟨k, s, rfl, hs⟩ := ih
    have heq := leads_below he hfree hl
    rw [List.append_assoc] at heq
    refine ⟨k + 1, s, ?_, hs⟩
    rw [List.append_cancel_left heq, Nat.succ_mul, endless_add hne, List.append_assoc]

/-- The paths that are reached in fewer than so many rounds. -/
def rounds (fs : Fs) (e : List Name) (N : ℕ) : Finset (List Name) :=
  (Finset.range N).biUnion fun k => (ends fs).image fun s => endless e (k * e.length) ++ s

/-- The descent bounds the copy: where it stops, everything else stops too. -/
theorem seen_rounds (hne : e ≠ []) (he : locate_entry m₀.fs dst = .ok (src ++ e))
    (hfree : m₀.fs.LinkFree (src ++ e)) (hv : Visit src dst m₀ m ps seen) {N : ℕ}
    (hN : endless e N ∉ seen) : seen ⊆ rounds m₀.fs e N := by
  intro p hp
  obtain ⟨k, s, rfl, hs⟩ := meets_inside hne he hfree (hv.meets hp)
  unfold rounds
  rw [Finset.mem_biUnion]
  refine ⟨k, ?_, Finset.mem_image_of_mem _ (mem_ends hs)⟩
  rw [Finset.mem_range]
  by_contra hk
  -- so many rounds would have gone past the place where the descent stops
  have hpos : 0 < e.length := List.length_pos_iff.mpr hne
  have hle : N ≤ k * e.length := (Nat.not_lt.mp hk).trans (Nat.le_mul_of_pos_right k hpos)
  apply hN
  apply hv.pushes.above hp
  exact (endless_grows hne hle).trans (List.prefix_append _ _)

/-- A file that was listed has been copied. -/
theorem copied_file {place : Path} {entries : List (Name × FileType)} {stack stack' : Stack}
    (hentry : locate_entry m.fs dst = .ok place) (hfree : m.fs.LinkFree place)
    (hok : EntriesOk m.fs (src ++ p) entries) (hstack : StackOk src dst m.fs stack)
    (hn : (n, .file) ∈ entries)
    (h : copy_entries os (src ++ p) (dst ++ p) entries stack m = (.ok stack', m')) :
    ∃ c, m'.fs.node (place ++ (p ++ [n])) = some (.file c) := by
  induction entries generalizing stack m with
  | nil => cases hn
  | cons entry entries ih =>
    obtain ⟨n', t⟩ := entry
    have hrest : ∀ {fs : Fs}, m.fs.Extends fs → EntriesOk fs (src ++ p) entries :=
      fun hext => (fun k u hk => hok.mono hext k u (List.mem_cons_of_mem _ hk))
    -- the turn of the first entry, whichever it is
    obtain ⟨m₁, hdone, hgo⟩ := copy_entries_cons h
    have hentry₁ := hok n' t List.mem_cons_self
    have hext := copy_run_extends (entry_done_run hentry₁ hdone)
    have hstack₁ := hstack.push hext hentry₁
    rw [List.append_assoc, List.append_assoc] at hdone
    rcases List.mem_cons.mp hn with heq | hn
    · -- its own turn, and what is made then stays
      cases heq
      have hcopy : copy os (src ++ (p ++ [n])) (dst ++ (p ++ [n])) m.tick.tick = (.ok (), m₁) := hdone
      rcases copy_cases os (src ++ (p ++ [n])) (dst ++ (p ++ [n])) m.tick.tick with
        ⟨e, m₂, hc, -, -⟩ | ⟨s, c, loc, -, -, hl, hslot, res, m₂, bytes, hc, hfs, -, -, -⟩
      · rw [hcopy] at hc
        cases hc
      rw [hcopy] at hc
      cases hc
      have hloc := locate_below hentry hfree hl
      have hmade : m₁.fs.node (place ++ (p ++ [n])) = some (.file bytes) := by
        rw [hfs, node_fill hslot, if_pos hloc.symm]
      obtain ⟨hrun, -⟩ := copy_entries_run (r := p) (hrest hext) hstack₁ hgo
      exact (copy_run_extends hrun).keeps.file hmade
    · exact ih (locate_entry_keeps hext.keeps hentry) (hfree.grow hext) (hrest hext) hstack₁ hn hgo

/-- From the descent's files: a file of one of its directories has been copied, round
after round, as far as the descent has gone. -/
def Filled (src : Path) (e : List Name) (i : ℕ) (n : Name) (seen : Finset (List Name)) (fs : Fs) :
    Prop :=
  ∀ l, endless e (i + l * e.length + 1) ∈ seen →
    ∃ c, fs.node (src ++ (endless e (i + (l + 1) * e.length) ++ [n])) = some (.file c)

theorem filled_step (hne : e ≠ []) (he : locate_entry m₀.fs dst = .ok (src ++ e))
    (hfree : m₀.fs.LinkFree (src ++ e)) {i : ℕ} {c : List UInt8}
    (hfile : m₀.fs.node (src ++ (endless e i ++ [n])) = some (.file c))
    {entries : List (Name × FileType)} {stack' : Stack}
    (hv : Visit src dst m₀ m (p :: ps) seen) (hf : Filled src e i n seen m.fs)
    (hread : read_dir os (src ++ p) m = (.ok entries, m.tick))
    (hentries : copy_entries os (src ++ p) (dst ++ p) entries (pairs src dst ps) m.tick
      = (.ok stack', m')) :
    Filled src e i n (seen ∪ (pushed p entries).toFinset) m'.fs := by
  have hpos : 0 < e.length := List.length_pos_iff.mpr hne
  have hext₀ := copy_run_extends hv.run
  obtain ⟨hcopies, -⟩ := hv.step hread hentries
  obtain ⟨-, hok, -, hlists⟩ := hv.reads hread
  intro l hl
  rcases Finset.mem_union.mp hl with hl | hl
  · obtain ⟨c', hc'⟩ := hf l hl
    exact (copy_run_extends hcopies).keeps.file hc'
  · -- the descent goes on from the directory that has just been read
    obtain ⟨n', -, heq⟩ := mem_pushed.mp (List.mem_toFinset.mp hl)
    obtain ⟨x, hx⟩ := endless_succ hne (i + l * e.length)
    rw [hx] at heq
    obtain ⟨hp, -⟩ := List.append_inj' heq rfl
    -- the file has come down to that directory in the rounds before
    have hhere : ∃ c', m.fs.node (src ++ p ++ [n]) = some (.file c') := by
      rw [List.append_assoc, ← hp]
      cases l with
      | zero =>
        rw [Nat.zero_mul, Nat.add_zero]
        exact hext₀.keeps.file hfile
      | succ l =>
        apply hf l
        apply hv.pushes.above (hv.pushes.on_stack p List.mem_cons_self)
        rw [← hp]
        apply endless_grows hne
        rw [Nat.succ_mul]
        omega
    obtain ⟨c', hc'⟩ := hhere
    -- so it is listed there, and copied to the directory a round further down
    have hmade := @copied_file os src dst m.tick m' p n (src ++ e) entries _ stack'
      (locate_entry_keeps hext₀.keeps he) (hfree.grow hext₀) hok hv.stack (hlists n _ hc') hentries
    have hround : endless e (i + (l + 1) * e.length) = e ++ p := by
      rw [Nat.succ_mul, ← Nat.add_assoc, endless_add hne, hp]
    rw [hround]
    simpa using hmade

/-- **A descent that is blocked is the end of the copy.** -/
theorem blocked_ends (hne : e ≠ []) (he : locate_entry m₀.fs dst = .ok (src ++ e))
    (hfree : m₀.fs.LinkFree (src ++ e)) (hno : ¬ Descends m₀.fs src e)
    (hv : Visit src dst m₀ m [[]] {[]}) :
    ∃ fuel, (copy_loop os fuel (pairs src dst [[]]) m).1 ≠ none := by
  by_cases hfile : ∃ N c, m₀.fs.node (src ++ endless e N) = some (.file c)
  · -- a file is never seen as a directory
    obtain ⟨N, c, hc⟩ := hfile
    refine ⟨(rounds m₀.fs e N).card + 1, ?_⟩
    refine @copy_loop_ends os src dst m₀ m [[]] {[]} (rounds m₀.fs e N) (fun _ _ _ => True)
      (fun m₁ ps₁ seen₁ hv₁ _ => ?_) (fun _ _ _ _ _ _ _ _ _ _ _ => trivial) _ hv trivial (by simp)
    apply seen_rounds hne he hfree hv₁
    intro hN
    obtain ⟨c', hc'⟩ := (copy_run_extends hv₁.run).keeps.file hc
    rw [hv₁.dirs _ hN] at hc'
    cases hc'
  · have hclash : ∃ i k n c, m₀.fs.node (src ++ (endless e i ++ [n])) = some (.file c) ∧
        m₀.fs.node (src ++ (endless e (i + (k + 1) * e.length) ++ [n])) = some .dir := by
      by_contra hnone
      apply hno
      refine ⟨fun i c hc => hfile ⟨i, c, hc⟩, fun i k n c hc hd => ?_⟩
      exact hnone ⟨i, k, n, c, hc, hd⟩
    obtain ⟨i, k, n, c, hc, hd⟩ := hclash
    -- the file would have been copied over the directory
    refine ⟨(rounds m₀.fs e (i + k * e.length + 1)).card + 1, ?_⟩
    refine @copy_loop_ends os src dst m₀ m [[]] {[]} (rounds m₀.fs e (i + k * e.length + 1))
      (fun _ => Filled src e i n) (fun m₁ ps₁ seen₁ hv₁ hf₁ => ?_)
      (fun m₁ m₂ p ps₁ seen₁ entries stack' hv₁ hf₁ hread hentries =>
        filled_step hne he hfree hc hv₁ hf₁ hread hentries) _ hv (fun l hl => ?_) (by simp)
    · apply seen_rounds hne he hfree hv₁
      intro hN
      obtain ⟨c', hc'⟩ := hf₁ k hN
      rw [(copy_run_extends hv₁.run).keeps.dir hd] at hc'
      cases hc'
    · have hlen := length_endless hne (i + l * e.length + 1)
      rw [Finset.mem_singleton.mp hl] at hlen
      simp at hlen

end Inside

end Rshs.CopyEnds
