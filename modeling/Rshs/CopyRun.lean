/-
The recursive copy as a run of small steps.

`CopyStep` is everything `copy_dir` can do to the machine at one time: nothing, read
a source file, make a directory at a free place, or fill a file, each for a relative
path `r` that stands in the source then. `copy_loop_run` says that the loop of a copy is
a run of these steps, and the invariants of a copy are derived from the steps alone.

A step only adds (`copy_step_extends`). `Meets` is what can come to stand in the
source while it is copied: what stands there at the beginning, and what is copied
into it; `meets_run` carries that along a run.
-/
import Rshs.CopyMove
import Rshs.Growth
import Mathlib.Logic.Relation

set_option autoImplicit false

namespace Rshs.CopyRun

open StdPath Posix Rshs.Webdav Rshs.CopyMove

/-! ## Steps -/

section Steps

variable (src dst : Path)

inductive CopyStep (m m' : Machine) : Prop
  | idle (hfs : m'.fs = m.fs) (hlog : m'.log = m.log)
  | opened (r : List Name) (c : List UInt8) (hr : m.fs.node (src ++ r) = some (.file c))
      (hfs : m'.fs = m.fs) (hlog : m'.log = m.log ++ [.read (src ++ r)])
  | made (r : List Name) (loc : Path) (hr : m.fs.node (src ++ r) = some .dir)
      (hl : locate m.fs (dst ++ r) = .ok loc) (hnone : m.fs.node loc = none)
      (hslot : m.fs.Slot loc) (hfs : m'.fs = m.fs.set loc .dir)
      (hlog : m'.log = m.log ++ [.change loc])
  | filled (r : List Name) (c : List UInt8) (loc : Path) (bytes : List UInt8)
      (hr : m.fs.node (src ++ r) = some (.file c)) (hl : locate m.fs (dst ++ r) = .ok loc)
      (hslot : m.fs.Slot loc)
      (hfs : m'.fs = (m.fs.set loc (.file [])).set loc (.file bytes))
      (hlog : m'.log = m.log ++ [.read (src ++ r), .change loc, .change loc])

abbrev Copies : Machine → Machine → Prop := Relation.ReflTransGen (CopyStep src dst)

/-- The stack holds pairs of one relative path, a directory in the source. -/
def StackOk (fs : Fs) (stack : Stack) : Prop :=
  ∀ pair ∈ stack, ∃ r, pair = (src ++ r, dst ++ r) ∧ fs.node (src ++ r) = some .dir

end Steps

section Facts

variable {os : Os} {src dst : Path} {m m' : Machine}

theorem locate_no_link {fs : Fs} {p loc : Path} (h : locate fs p = .ok loc) (t : PathBuf) :
    fs.node loc ≠ some (.symlink t) := by
  intro hlink
  rcases locate_real h with ⟨x, hx, hne⟩ | ⟨d, n, -, -, hnone⟩
  · rw [hx, Option.some.injEq] at hlink
    exact hne t hlink
  · rw [hnone] at hlink
    cases hlink

/-- A file that was opened anew and written. -/
theorem node_fill {fs : Fs} {loc : Path} {bytes : List UInt8} (h : fs.Slot loc) (q : Path) :
    ((fs.set loc (.file [])).set loc (.file bytes)).node q
      = if q = loc then some (.file bytes) else fs.node q := by
  rw [Fs.node_set (slot_set h)]
  split
  · rfl
  · rename_i hq
    rw [Fs.node_set h, if_neg hq]

/-- A file that is filled where a path leads only adds to the tree. -/
theorem extends_fill {fs : Fs} {p loc : Path} (hl : locate fs p = .ok loc) (hslot : fs.Slot loc)
    (bytes : List UInt8) : fs.Extends ((fs.set loc (.file [])).set loc (.file bytes)) := by
  have hfirst := Fs.extends_set_file hslot (locate_no_link hl) []
  refine hfirst.trans (Fs.extends_set_file (slot_set hslot) (fun t => ?_) bytes)
  rw [Fs.node_set hslot, if_pos rfl]
  simp

/-- **A step only adds to the tree.** -/
theorem copy_step_extends (h : CopyStep src dst m m') : m.fs.Extends m'.fs := by
  cases h with
  | idle hfs _ =>
    rw [hfs]
    exact Fs.Extends.refl _
  | opened r c _ hfs _ =>
    rw [hfs]
    exact Fs.Extends.refl _
  | made r loc _ _ hnone hslot hfs _ =>
    rw [hfs]
    exact Fs.extends_set_dir hslot hnone
  | filled r c loc bytes _ hl hslot hfs _ =>
    rw [hfs]
    exact extends_fill hl hslot bytes

theorem copy_run_extends (h : Copies src dst m m') : m.fs.Extends m'.fs := by
  induction h with
  | refl => exact Fs.Extends.refl _
  | tail _ hstep ih => exact ih.trans (copy_step_extends hstep)

/-! ## The system calls of a copy are steps -/

theorem next_entry_step : CopyStep src dst m (next_entry os m).2 := by
  obtain ⟨r, hr⟩ := next_entry_cases os m
  rw [hr]
  exact CopyStep.idle rfl rfl

theorem create_dir_step {r : List Name} (hr : m.fs.node (src ++ r) = some .dir) :
    CopyStep src dst m (create_dir os (dst ++ r) m).2 := by
  rcases make_cases os .dir (dst ++ r) m with ⟨e, he⟩ | ⟨loc, hl, hnone, hslot, he⟩
  · rw [create_dir, he]
    exact CopyStep.idle rfl rfl
  · rw [create_dir, he]
    exact CopyStep.made r loc hr (locate_of_free hl hnone) hnone hslot rfl rfl

theorem copy_call_step {r : List Name} {c : List UInt8}
    (hr : m.fs.node (src ++ r) = some (.file c)) :
    CopyStep src dst m (copy os (src ++ r) (dst ++ r) m).2 := by
  have hself : follow m.fs (src ++ r) = .ok (src ++ r) := follow_self ⟨_, hr, by simp⟩
  rcases copy_cases os (src ++ r) (dst ++ r) m with
    ⟨e, m', hc, hfs, hlog | ⟨s, c', hs, -, hlog⟩⟩ |
    ⟨s, c', loc, hs, -, hl, hslot, res, m', bytes, hc, hfs, hlog, -⟩
  · rw [hc]
    exact CopyStep.idle hfs hlog
  · rw [hself] at hs
    cases hs
    rw [hc]
    exact CopyStep.opened r c hr hfs hlog
  · rw [hself] at hs
    cases hs
    rw [hc]
    exact CopyStep.filled r c loc bytes hr hl hslot hfs hlog

/-! ## The turn of one entry -/

theorem next_entry_tick {u : Unit} (h : next_entry os m = (.ok u, m')) : m' = m.tick := by
  obtain ⟨r, hr⟩ := next_entry_cases os m
  rw [hr] at h
  cases h
  rfl

/-- What has been done with an entry, by its type. -/
def EntryDone (os : Os) (t : FileType) (src_path dest_path : Path) (m m' : Machine) : Prop :=
  match t with
  | .dir => ∃ res, create_dir os dest_path m = (res, m') ∧
      (res = .ok () ∨ res = .error .AlreadyExists)
  | .symlink => m' = m
  | .file => copy os src_path dest_path m = (.ok (), m')

theorem copy_entries_nil {src_dir dest_dir : Path} {stack stack' : Stack}
    (h : copy_entries os src_dir dest_dir [] stack m = (.ok stack', m')) :
    m' = m.tick ∧ stack' = stack := by
  unfold copy_entries at h
  split at h
  · cases h
  · rename_i hnext
    cases h
    exact ⟨next_entry_tick hnext, rfl⟩

/-- **An entry that was got past**: it was done, and the loop has gone on. -/
theorem copy_entries_cons {src_dir dest_dir : Path} {n : Name} {t : FileType}
    {entries : List (Name × FileType)} {stack stack' : Stack}
    (h : copy_entries os src_dir dest_dir ((n, t) :: entries) stack m = (.ok stack', m')) :
    ∃ m₁, EntryDone os t (src_dir ++ [n]) (dest_dir ++ [n]) m.tick.tick m₁ ∧
      copy_entries os src_dir dest_dir entries
        (if t = .dir then (src_dir ++ [n], dest_dir ++ [n]) :: stack else stack) m₁
          = (.ok stack', m') := by
  -- `next_entry` and `file_type` have gone well
  unfold copy_entries at h
  split at h
  · cases h
  rename_i hnext₁
  split at h
  · cases h
  rename_i hnext₂
  rw [next_entry_tick hnext₁] at hnext₂
  rw [next_entry_tick hnext₂] at h
  cases t with
  | dir =>
    -- `create_dir` may find the directory there
    dsimp only at h
    rw [if_pos rfl]
    split at h
    · rename_i e m₃ hmake
      split at h
      · cases h
      · rename_i he
        exact ⟨m₃, ⟨_, hmake, Or.inr (by rw [not_not.mp he])⟩, h⟩
    · rename_i m₃ hmake
      exact ⟨m₃, ⟨_, hmake, Or.inl rfl⟩, h⟩
  | symlink => exact ⟨_, rfl, h⟩
  | file =>
    dsimp only at h
    split at h
    · cases h
    · rename_i m₃ hcopy
      exact ⟨m₃, hcopy, h⟩

/-! ## The loops are runs -/

theorem StackOk.mono {fs fs' : Fs} {stack : Stack} (h : StackOk src dst fs stack)
    (he : fs.Extends fs') : StackOk src dst fs' stack := by
  intro pair hpair
  obtain ⟨r, hr, hdir⟩ := h pair hpair
  exact ⟨r, hr, he.keeps.dir hdir⟩

/-- The entries of a directory that was read, as they still stand. -/
def EntriesOk (fs : Fs) (d : Path) (entries : List (Name × FileType)) : Prop :=
  ∀ n t, (n, t) ∈ entries → ∃ x, fs.node (d ++ [n]) = some x ∧ x.file_type = t

theorem EntriesOk.mono {fs fs' : Fs} {d : Path} {entries : List (Name × FileType)}
    (h : EntriesOk fs d entries) (he : fs.Extends fs') : EntriesOk fs' d entries := by
  intro n t hn
  obtain ⟨x, hx, ht⟩ := h n t hn
  obtain ⟨y, hy, hxy⟩ := he.keeps.file_type hx
  exact ⟨y, hy, hxy.trans ht⟩

/-- A sub-directory goes on the stack. -/
theorem StackOk.push {fs fs' : Fs} {stack : Stack} {r : List Name} {n : Name} {t : FileType}
    (h : StackOk src dst fs stack) (he : fs.Extends fs')
    (hentry : ∃ x, fs.node (src ++ r ++ [n]) = some x ∧ x.file_type = t) :
    StackOk src dst fs'
      (if t = .dir then (src ++ r ++ [n], dst ++ r ++ [n]) :: stack else stack) := by
  split
  · rename_i ht
    obtain ⟨x, hx, hxt⟩ := hentry
    have hdir := he.keeps.dir (node_of_dir hx (hxt.trans ht))
    rw [List.append_assoc] at hdir
    intro pair hpair
    rcases List.mem_cons.mp hpair with rfl | hpair
    · exact ⟨r ++ [n], by simp, hdir⟩
    · exact h.mono he pair hpair
  · exact h.mono he

/-- An entry that was got past. -/
theorem entry_done_run {r : List Name} {n : Name} {t : FileType}
    (hentry : ∃ x, m.fs.node (src ++ r ++ [n]) = some x ∧ x.file_type = t)
    (hdone : EntryDone os t (src ++ r ++ [n]) (dst ++ r ++ [n]) m.tick.tick m') :
    Copies src dst m m' := by
  have hrun₁ : Copies src dst m m.tick := Relation.ReflTransGen.single (CopyStep.idle rfl rfl)
  have hrun₂ : Copies src dst m m.tick.tick := hrun₁.tail (CopyStep.idle rfl rfl)
  obtain ⟨x, hx, ht⟩ := hentry
  rw [List.append_assoc] at hx
  rw [List.append_assoc, List.append_assoc] at hdone
  cases t with
  | dir =>
    obtain ⟨res, hmake, -⟩ := hdone
    have hdir : m.tick.tick.fs.node (src ++ (r ++ [n])) = some .dir := node_of_dir hx ht
    have hstep := @create_dir_step os src dst m.tick.tick _ hdir
    rw [hmake] at hstep
    exact hrun₂.tail hstep
  | symlink =>
    have hm' : m' = m.tick.tick := hdone
    rw [hm']
    exact hrun₂
  | file =>
    have hcopy : copy os (src ++ (r ++ [n])) (dst ++ (r ++ [n])) m.tick.tick = (.ok (), m') := hdone
    obtain ⟨c, hc⟩ := node_of_file hx ht
    have hstep := @copy_call_step os src dst m.tick.tick _ c hc
    rw [hcopy] at hstep
    exact hrun₂.tail hstep

/-- The turn of one entry is a run, and the loop goes on after it or fails. -/
theorem entry_run {r : List Name} {n : Name} {t : FileType} {entries : List (Name × FileType)}
    {stack : Stack} (hentry : ∃ x, m.fs.node (src ++ r ++ [n]) = some x ∧ x.file_type = t) :
    ∃ m₃, Copies src dst m m₃ ∧
      ((∃ status, copy_entries os (src ++ r) (dst ++ r) ((n, t) :: entries) stack m
          = (.error status, m₃)) ∨
        copy_entries os (src ++ r) (dst ++ r) ((n, t) :: entries) stack m =
          copy_entries os (src ++ r) (dst ++ r) entries
            (if t = .dir then (src ++ r ++ [n], dst ++ r ++ [n]) :: stack else stack) m₃) := by
  have hrun₁ : Copies src dst m m.tick := Relation.ReflTransGen.single (CopyStep.idle rfl rfl)
  have hrun₂ : Copies src dst m m.tick.tick := hrun₁.tail (CopyStep.idle rfl rfl)
  obtain ⟨x, hx, ht⟩ := hentry
  rw [List.append_assoc] at hx
  rw [copy_entries]
  -- listing the entry takes two calls, each of which may fail
  obtain ⟨res₁, hn₁⟩ := next_entry_cases os m
  rw [hn₁]
  rcases res₁ with e | u
  · exact ⟨m.tick, hrun₁, Or.inl ⟨_, rfl⟩⟩
  dsimp only
  obtain ⟨res₂, hn₂⟩ := next_entry_cases os m.tick
  rw [hn₂]
  rcases res₂ with e | u
  · exact ⟨m.tick.tick, hrun₂, Or.inl ⟨_, rfl⟩⟩
  dsimp only
  cases t with
  | dir =>
    have hstep : CopyStep src dst m.tick.tick
        (create_dir os (dst ++ (r ++ [n])) m.tick.tick).2 := create_dir_step (node_of_dir hx ht)
    rw [← List.append_assoc] at hstep
    rcases hc : create_dir os (dst ++ r ++ [n]) m.tick.tick with ⟨e | u, m₃⟩
    · rw [hc] at hstep
      refine ⟨m₃, hrun₂.tail hstep, ?_⟩
      -- a directory that is there already is none to stop for
      by_cases he : e ≠ .AlreadyExists
      · left
        dsimp only
        rw [if_pos he]
        exact ⟨_, rfl⟩
      · right
        dsimp only
        rw [if_neg he, if_pos rfl]
    · rw [hc] at hstep
      exact ⟨m₃, hrun₂.tail hstep, Or.inr rfl⟩
  | symlink => exact ⟨m.tick.tick, hrun₂, Or.inr rfl⟩
  | file =>
    obtain ⟨c, hfile⟩ := node_of_file hx ht
    have hstep : CopyStep src dst m.tick.tick
        (copy os (src ++ (r ++ [n])) (dst ++ (r ++ [n])) m.tick.tick).2 := copy_call_step hfile
    rw [← List.append_assoc, ← List.append_assoc] at hstep
    dsimp only
    rcases hc : copy os (src ++ r ++ [n]) (dst ++ r ++ [n]) m.tick.tick with ⟨e | u, m₃⟩
    · rw [hc] at hstep
      exact ⟨m₃, hrun₂.tail hstep, Or.inl ⟨_, rfl⟩⟩
    · rw [hc] at hstep
      exact ⟨m₃, hrun₂.tail hstep, Or.inr rfl⟩

/-- The inner loop: a run, and pairs of the same kind on the stack it leaves. -/
theorem copy_entries_run {r : List Name} {entries : List (Name × FileType)} {stack : Stack}
    {res : Except StatusCode Stack} (hentries : EntriesOk m.fs (src ++ r) entries)
    (hstack : StackOk src dst m.fs stack)
    (h : copy_entries os (src ++ r) (dst ++ r) entries stack m = (res, m')) :
    Copies src dst m m' ∧ ∀ stack', res = .ok stack' → StackOk src dst m'.fs stack' := by
  induction entries generalizing stack m with
  | nil =>
    unfold copy_entries at h
    have hstep : CopyStep src dst m (next_entry os m).2 := next_entry_step
    rcases hn : next_entry os m with ⟨e | u, m₁⟩
    · rw [hn] at h hstep
      cases h
      exact ⟨Relation.ReflTransGen.single hstep, fun _ h => by cases h⟩
    · rw [hn] at h hstep
      cases h
      refine ⟨Relation.ReflTransGen.single hstep, fun stack' h => ?_⟩
      cases h
      exact hstack.mono (copy_step_extends hstep)
  | cons entry entries ih =>
    obtain ⟨n, t⟩ := entry
    have hentry := hentries n t List.mem_cons_self
    -- one step of the loop, and then the induction
    obtain ⟨m₃, hrun, ⟨status, hfail⟩ | hgo⟩ := @entry_run os src dst m r n t entries stack hentry
    · rw [hfail] at h
      cases h
      exact ⟨hrun, fun _ h => by cases h⟩
    · rw [hgo] at h
      -- what is known of the directory and the stack holds after the entry's turn too
      have hext := copy_run_extends hrun
      have hrest : EntriesOk m₃.fs (src ++ r) entries :=
        fun n' t' hn' => hentries.mono hext n' t' (List.mem_cons_of_mem _ hn')
      obtain ⟨hrun', hout⟩ := ih hrest (hstack.push hext hentry) h
      exact ⟨hrun.trans hrun', hout⟩

/-- The outer loop, on whatever fuel. -/
theorem copy_loop_run {fuel : ℕ} {stack : Stack} {res : Option (Except StatusCode Unit)}
    (hstack : StackOk src dst m.fs stack) (h : copy_loop os fuel stack m = (res, m')) :
    Copies src dst m m' := by
  induction fuel generalizing stack m with
  | zero =>
    cases stack with
    | nil =>
      cases h
      exact Relation.ReflTransGen.refl
    | cons pair stack =>
      cases h
      exact Relation.ReflTransGen.refl
  | succ fuel ih =>
    cases stack with
    | nil =>
      cases h
      exact Relation.ReflTransGen.refl
    | cons pair stack =>
      -- the directory on top of the stack, which is at its own path
      obtain ⟨r, rfl, hdir⟩ := hstack pair List.mem_cons_self
      have hrest : StackOk src dst m.fs stack :=
        fun p hp => hstack p (List.mem_cons_of_mem _ hp)
      unfold copy_loop at h
      rcases read_dir_cases os (src ++ r) m with ⟨e, hread⟩ | ⟨d, entries, hd, -, hmem, hread⟩
      · rw [hread] at h
        cases h
        exact Relation.ReflTransGen.single (CopyStep.idle rfl rfl)
      · rw [follow_self ⟨_, hdir, by simp⟩] at hd
        cases hd
        rw [hread] at h
        dsimp only at h
        have hidle : CopyStep src dst m m.tick := CopyStep.idle rfl rfl
        have hentries : EntriesOk m.tick.fs (src ++ r) entries := fun n t hn => (hmem n t).mp hn
        -- its entries are a run, and the stack they leave is as before
        rcases he : copy_entries os (src ++ r) (dst ++ r) entries stack m.tick with ⟨res₁, m₁⟩
        obtain ⟨hrun, hout⟩ := copy_entries_run hentries hrest he
        rw [he] at h
        cases res₁ with
        | error status =>
          cases h
          exact (Relation.ReflTransGen.single hidle).trans hrun
        | ok stack₁ =>
          exact ((Relation.ReflTransGen.single hidle).trans hrun).trans (ih (hout _ rfl) h)

/-! ## What a copy meets -/

/-- The relative paths, with their types, that can come to stand in the source while
it is copied: what stands there, and what is copied to a place in it. -/
inductive Meets (fs : Fs) (src dst : Path) : List Name → FileType → Prop
  | source (r : List Name) (x : Node) (h : fs.node (src ++ r) = some x)
      (hx : x.file_type ≠ .symlink) : Meets fs src dst r x.file_type
  | copied (r r' : List Name) (t : FileType) (h : Meets fs src dst r t)
      (hl : Leads fs (dst ++ r) (src ++ r')) : Meets fs src dst r' t

/-- A copy meets nothing else. -/
theorem meets_run (h : Copies src dst m m') {r : List Name} {x : Node}
    (hx : m'.fs.node (src ++ r) = some x) (ht : x.file_type ≠ .symlink) :
    Meets m.fs src dst r x.file_type := by
  induction h generalizing r x with
  | refl => exact Meets.source r x hx ht
  | @tail m₁ m₂ hrun hstep ih =>
    have hext := copy_run_extends hrun
    cases hstep with
    | idle hfs _ =>
      -- a step that changes no tree shows nothing new
      rw [hfs] at hx
      exact ih hx ht
    | opened _ _ _ hfs _ =>
      rw [hfs] at hx
      exact ih hx ht
    | made r₀ loc hr hl _ hslot hfs _ =>
      rw [hfs, Fs.node_set hslot] at hx
      split at hx
      · -- the new directory stands in the source
        rename_i heq
        cases hx
        exact Meets.copied r₀ r _ (ih hr (by simp [Node.file_type])) ⟨m₁.fs, hext, by rw [hl, heq]⟩
      · exact ih hx ht
    | filled r₀ c loc bytes hr hl hslot hfs _ =>
      rw [hfs, node_fill hslot] at hx
      split at hx
      · rename_i heq
        cases hx
        have hmeets : Meets m.fs src dst r₀ .file := ih hr (by simp [Node.file_type])
        exact Meets.copied r₀ r .file hmeets ⟨m₁.fs, hext, by rw [hl, heq]⟩
      · exact ih hx ht

/-- The source's files and directories are as they were. -/
def Intact (fs fs' : Fs) (src : Path) : Prop :=
  ∀ r x, fs.node (src ++ r) = some x → x.file_type ≠ .symlink → fs'.node (src ++ r) = some x

end Facts

end Rshs.CopyRun
