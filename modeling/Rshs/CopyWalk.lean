/-
The recursive copy as a walk through trees.

For two things only does `copy_dir` depend on the system it runs in: the order in which a
directory is listed, and which call fails. A `Moment` is where a copy is, and `Step` is what
it does next when no call fails: it opens the directory on top of its stack and has its
entries in any order, makes a directory or finds one, passes over a link, or copies a file.
Steps relate trees and stacks. No system call is part of them, and no fuel.

The two sides agree. A copy that is over has come along a walk, in whatever system: it is
done, its fuel is used up, or a call has failed at a moment of the walk and has left a part of
what it does there (`loop_walks`). And every walk is that of a copy, in some system in which
nothing has failed yet (`walk_comes`). So what holds of a copy in every system is a matter of
the walks from one tree.
-/
import Rshs.CopyRun
import Rshs.Lts

set_option autoImplicit false

namespace Rshs.CopyWalk

open StdPath Posix Rshs.Webdav Rshs.CopyMove Rshs.CopyRun

/-! ## Moments and steps -/

/-- Where a recursive copy is: between two directories, or inside one, with the entries of
it that are left. -/
inductive Moment
  | between (fs : Fs) (stack : Stack)
  | inside (fs : Fs) (src_dir dest_dir : Path) (entries : List (Name × FileType)) (stack : Stack)

/-- The tree at a moment. -/
def Moment.fs : Moment → Fs
  | .between fs _ => fs
  | .inside fs _ _ _ _ => fs

/-- The stack at a moment, without the directory the copy is inside of. -/
def Moment.stack : Moment → Stack
  | .between _ stack => stack
  | .inside _ _ _ _ stack => stack

/-- The entries of a directory, in the order of the names. -/
def listed (fs : Fs) (d : Path) (names : List Name) : List (Name × FileType) :=
  names.filterMap fun n => (fs.node (d ++ [n])).map fun x => (n, x.file_type)

/-- The tree when the file at `loc` has been opened anew and written. -/
def filled (fs : Fs) (loc : Path) (bytes : List UInt8) : Fs :=
  (fs.set loc (.file [])).set loc (.file bytes)

/-- What is read from `q` for it: a file that is opened anew is empty, also for its reader. -/
def to_write (fs : Fs) (q loc : Path) : List UInt8 := (fs.set loc (.file [])).content q

/-- The path leads to the file `q`, and a file for the other path is opened at `loc`. -/
structure Copied (fs : Fs) (path entry_dest q loc : Path) : Prop where
  source : follow fs path = .ok q
  file : ∃ c, fs.node q = some (.file c)
  dest : locate fs entry_dest = .ok loc
  no_dir : fs.node loc ≠ some .dir

/-- What a copy does next, with the files it touches, if no call fails. -/
inductive Step : Moment → List Access → Moment → Prop
  | opened {fs : Fs} {src_dir dest_dir : Path} {stack : Stack} (d : Path) (names : List Name)
      (hd : follow fs src_dir = .ok d) (hdir : fs.node d = some .dir)
      (hnames : names.Perm (fs.children d)) :
      Step (.between fs ((src_dir, dest_dir) :: stack)) []
        (.inside fs src_dir dest_dir (listed fs d names) stack)
  | closed {fs : Fs} {src_dir dest_dir : Path} {stack : Stack} :
      Step (.inside fs src_dir dest_dir [] stack) [] (.between fs stack)
  | made {fs : Fs} {src_dir dest_dir : Path} {n : Name} {entries : List (Name × FileType)}
      {stack : Stack} (loc : Path) (hl : locate_entry fs (dest_dir ++ [n]) = .ok loc)
      (hnone : fs.node loc = none) :
      Step (.inside fs src_dir dest_dir ((n, .dir) :: entries) stack) [.change loc]
        (.inside (fs.set loc .dir) src_dir dest_dir entries
          ((src_dir ++ [n], dest_dir ++ [n]) :: stack))
  | found {fs : Fs} {src_dir dest_dir : Path} {n : Name} {entries : List (Name × FileType)}
      {stack : Stack} (loc : Path) (hl : locate_entry fs (dest_dir ++ [n]) = .ok loc)
      (hsome : fs.node loc ≠ none) :
      Step (.inside fs src_dir dest_dir ((n, .dir) :: entries) stack) []
        (.inside fs src_dir dest_dir entries ((src_dir ++ [n], dest_dir ++ [n]) :: stack))
  | passed {fs : Fs} {src_dir dest_dir : Path} {n : Name} {entries : List (Name × FileType)}
      {stack : Stack} :
      Step (.inside fs src_dir dest_dir ((n, .symlink) :: entries) stack) []
        (.inside fs src_dir dest_dir entries stack)
  | copied {fs : Fs} {src_dir dest_dir : Path} {n : Name} {entries : List (Name × FileType)}
      {stack : Stack} (q loc : Path) (h : Copied fs (src_dir ++ [n]) (dest_dir ++ [n]) q loc) :
      Step (.inside fs src_dir dest_dir ((n, .file) :: entries) stack)
        [.read q, .change loc, .change loc]
        (.inside (filled fs loc (to_write fs q loc)) src_dir dest_dir entries stack)

/-- What a call that fails leaves: the files it has touched, and the tree. -/
inductive Fails : Moment → List Access → Fs → Prop
  | idle (M : Moment) : Fails M [] M.fs
  | unread {fs : Fs} {src_dir dest_dir : Path} {n : Name} {entries : List (Name × FileType)}
      {stack : Stack} (q : Path) (c : List UInt8) (hq : follow fs (src_dir ++ [n]) = .ok q)
      (hc : fs.node q = some (.file c)) :
      Fails (.inside fs src_dir dest_dir ((n, .file) :: entries) stack) [.read q] fs
  | partly {fs : Fs} {src_dir dest_dir : Path} {n : Name} {entries : List (Name × FileType)}
      {stack : Stack} (q loc : Path) (bytes : List UInt8)
      (h : Copied fs (src_dir ++ [n]) (dest_dir ++ [n]) q loc) (hbytes : bytes <+: to_write fs q loc) :
      Fails (.inside fs src_dir dest_dir ((n, .file) :: entries) stack)
        [.read q, .change loc, .change loc] (filled fs loc bytes)

/-- A walk, with what each of its steps touches. -/
abbrev Walk : Moment → List (List Access) → Moment → Prop := Lts.Run Step

/-- What is left of a copy at a moment. -/
def Moment.go (os : Os) (fuel : ℕ) : Moment → Machine → Option (Except StatusCode Unit) × Machine
  | .between _ stack, m => copy_loop os fuel stack m
  | .inside _ src_dir dest_dir entries stack, m =>
    match copy_entries os src_dir dest_dir entries stack m with
    | (.error status, m) => (some (.error status), m)
    | (.ok stack, m) => copy_loop os fuel stack m

/-! ## Every copy is a walk -/

section Walks

variable {os : Os} {m m' : Machine} {src_dir dest_dir : Path} {entries : List (Name × FileType)}
  {stack : Stack}

/-- A failing call, at whatever moment, may leave nothing. -/
theorem fails_tick (M : Moment) (hfs : m.fs = M.fs) (hlog : m'.log = m.log) (hsame : m'.fs = m.fs) :
    ∃ tr M' as, Walk M tr M' ∧ Fails M' as m'.fs ∧ m'.log = m.log ++ tr.flatten ++ as := by
  refine ⟨[], M, [], Lts.Run.nil M, ?_, by rw [hlog]; simp⟩
  rw [hsame, hfs]
  exact Fails.idle M

/-- A step before a walk that ends in a failure. -/
theorem fails_cons {M M₁ : Moment} {as₁ : List Access} {m₁ : Machine} (hstep : Step M as₁ M₁)
    (hlog : m₁.log = m.log ++ as₁)
    (h : ∃ tr M' as, Walk M₁ tr M' ∧ Fails M' as m'.fs ∧ m'.log = m₁.log ++ tr.flatten ++ as) :
    ∃ tr M' as, Walk M tr M' ∧ Fails M' as m'.fs ∧ m'.log = m.log ++ tr.flatten ++ as := by
  obtain ⟨tr, M', as, hwalk, hfails, hlog'⟩ := h
  refine ⟨as₁ :: tr, M', as, Lts.Run.cons hstep hwalk, hfails, ?_⟩
  rw [hlog', hlog]
  simp

/-- A step before a walk to the end of the directory. -/
theorem done_cons {M M₁ : Moment} {as₁ : List Access} {m₁ : Machine} {stack' : Stack}
    (hstep : Step M as₁ M₁) (hlog : m₁.log = m.log ++ as₁)
    (h : ∃ tr, Walk M₁ tr (.between m'.fs stack') ∧ m'.log = m₁.log ++ tr.flatten) :
    ∃ tr, Walk M tr (.between m'.fs stack') ∧ m'.log = m.log ++ tr.flatten := by
  obtain ⟨tr, hwalk, hlog'⟩ := h
  refine ⟨as₁ :: tr, Lts.Run.cons hstep hwalk, ?_⟩
  rw [hlog', hlog]
  simp

/-- Copying one file is a step, or fails at its moment. -/
theorem copy_walks (os : Os) (n : Name) (m : Machine) :
    (∃ e m' as, copy os (src_dir ++ [n]) (dest_dir ++ [n]) m = (.error e, m') ∧
      Fails (.inside m.fs src_dir dest_dir ((n, .file) :: entries) stack) as m'.fs ∧
        m'.log = m.log ++ as) ∨
    ∃ as m', copy os (src_dir ++ [n]) (dest_dir ++ [n]) m = (.ok (), m') ∧
      Step (.inside m.fs src_dir dest_dir ((n, .file) :: entries) stack) as
        (.inside m'.fs src_dir dest_dir entries stack) ∧ m'.log = m.log ++ as := by
  rcases copy_cases os (src_dir ++ [n]) (dest_dir ++ [n]) m with
    ⟨e, m', hc, hfs, hlog | ⟨q, c, hq, hn, hlog⟩⟩ |
    ⟨q, c, loc, hq, hn, hl, hslot, res, m', bytes, hc, hfs, hlog, hpre, hall⟩
  · refine Or.inl ⟨e, m', [], hc, ?_, by rw [hlog, List.append_nil]⟩
    rw [hfs]
    exact Fails.idle (.inside m.fs src_dir dest_dir ((n, .file) :: entries) stack)
  · refine Or.inl ⟨e, m', _, hc, ?_, hlog⟩
    rw [hfs]
    exact Fails.unread q c hq hn
  · have hcopied : Copied m.fs (src_dir ++ [n]) (dest_dir ++ [n]) q loc := ⟨hq, ⟨c, hn⟩, hl, hslot.2.2⟩
    cases res with
    | error e =>
      refine Or.inl ⟨e, m', _, hc, ?_, hlog⟩
      rw [hfs]
      exact Fails.partly q loc bytes hcopied hpre
    | ok u =>
      refine Or.inr ⟨_, m', hc, ?_, hlog⟩
      rw [hfs, hall rfl]
      exact Step.copied q loc hcopied

/-- What is read of a directory is its entries, in some order. -/
theorem read_dir_listed {p : Path} (h : read_dir os p m = (.ok entries, m')) :
    m' = m.tick ∧ ∃ d names, follow m.fs p = .ok d ∧ m.fs.node d = some .dir ∧
      names.Perm (m.fs.children d) ∧ entries = listed m.fs d names := by
  unfold read_dir syscall at h
  split at h
  · cases h
  · dsimp only at h
    rw [tick_fs] at h
    split at h
    · cases h
    · rename_i d hd
      split at h
      · cases h
      · rename_i hdir
        cases h
        exact ⟨rfl, d, _, hd, not_not.mp hdir, os.order_perm _ _, rfl⟩

/-- **The entries of one directory are a walk**, to the end of the directory or to the call
that fails. -/
theorem entries_walk {res : Except StatusCode Stack}
    (h : copy_entries os src_dir dest_dir entries stack m = (res, m')) :
    (∃ stack', res = .ok stack' ∧ ∃ tr,
      Walk (.inside m.fs src_dir dest_dir entries stack) tr (.between m'.fs stack') ∧
        m'.log = m.log ++ tr.flatten) ∨
    (res = .error .INTERNAL_SERVER_ERROR ∧ ∃ tr M' as,
      Walk (.inside m.fs src_dir dest_dir entries stack) tr M' ∧ Fails M' as m'.fs ∧
        m'.log = m.log ++ tr.flatten ++ as) := by
  induction entries generalizing stack m with
  | nil =>
    unfold copy_entries at h
    obtain ⟨r, hr⟩ := next_entry_cases os m
    rw [hr] at h
    cases r with
    | error e =>
      cases h
      exact Or.inr ⟨rfl, fails_tick _ rfl rfl rfl⟩
    | ok u =>
      cases h
      exact Or.inl ⟨stack, rfl, [[]], Lts.Run.single (Step.closed), by simp⟩
  | cons entry entries ih =>
    obtain ⟨n, t⟩ := entry
    unfold copy_entries at h
    -- the two calls before the entry is looked at
    obtain ⟨r₁, hr₁⟩ := next_entry_cases os m
    rw [hr₁] at h
    cases r₁ with
    | error e =>
      cases h
      exact Or.inr ⟨rfl, fails_tick _ rfl rfl rfl⟩
    | ok u₁ =>
    dsimp only at h
    obtain ⟨r₂, hr₂⟩ := next_entry_cases os m.tick
    rw [hr₂] at h
    cases r₂ with
    | error e =>
      cases h
      exact Or.inr ⟨rfl, fails_tick _ rfl rfl rfl⟩
    | ok u₂ =>
    dsimp only at h
    cases t with
    | dir =>
      dsimp only at h
      rcases hmake : create_dir os (dest_dir ++ [n]) m.tick.tick with ⟨e | u, m₁⟩
      · rw [hmake] at h
        dsimp only at h
        split at h
        · -- the directory is not made, and none is there
          cases h
          refine Or.inr ⟨rfl, ?_⟩
          rcases make_cases os .dir (dest_dir ++ [n]) m.tick.tick with ⟨e', he⟩ | ⟨loc, -, -, -, he⟩
          · rw [create_dir, he] at hmake
            cases hmake
            exact fails_tick _ rfl rfl rfl
          · rw [create_dir, he] at hmake
            cases hmake
        · rename_i hexists
          rw [not_not] at hexists
          subst hexists
          obtain ⟨rfl, loc, y, hl, hy⟩ := make_exists hmake
          have hstep : Step (.inside m.fs src_dir dest_dir ((n, .dir) :: entries) stack) []
              (.inside m.fs src_dir dest_dir entries ((src_dir ++ [n], dest_dir ++ [n]) :: stack)) :=
            Step.found loc hl (by rw [show m.fs.node loc = some y from hy]; simp)
          rcases ih h with ⟨stack', hres, hdone⟩ | ⟨hres, hfails⟩
          · exact Or.inl ⟨stack', hres, done_cons hstep (by simp) hdone⟩
          · exact Or.inr ⟨hres, fails_cons hstep (by simp) hfails⟩
      · rw [hmake] at h
        dsimp only at h
        rcases make_cases os .dir (dest_dir ++ [n]) m.tick.tick with ⟨e', he⟩ | ⟨loc, hl, hnone, -, he⟩
        · rw [create_dir, he] at hmake
          cases hmake
        · rw [create_dir, he] at hmake
          cases hmake
          have hstep : Step (.inside m.fs src_dir dest_dir ((n, .dir) :: entries) stack) [.change loc]
              (.inside (m.fs.set loc .dir) src_dir dest_dir entries
                ((src_dir ++ [n], dest_dir ++ [n]) :: stack)) := Step.made loc hl hnone
          rcases ih h with ⟨stack', hres, hdone⟩ | ⟨hres, hfails⟩
          · exact Or.inl ⟨stack', hres, done_cons hstep (by simp) hdone⟩
          · exact Or.inr ⟨hres, fails_cons hstep (by simp) hfails⟩
    | symlink =>
      have hstep : Step (.inside m.fs src_dir dest_dir ((n, .symlink) :: entries) stack) []
          (.inside m.fs src_dir dest_dir entries stack) := Step.passed
      rcases ih h with ⟨stack', hres, hdone⟩ | ⟨hres, hfails⟩
      · exact Or.inl ⟨stack', hres, done_cons hstep (by simp) hdone⟩
      · exact Or.inr ⟨hres, fails_cons hstep (by simp) hfails⟩
    | file =>
      dsimp only at h
      rcases @copy_walks src_dir dest_dir entries stack os n m.tick.tick with
        ⟨e, m₁, as, hc, hfails, hlog⟩ | ⟨as, m₁, hc, hstep, hlog⟩
      · rw [hc] at h
        cases h
        exact Or.inr ⟨rfl, [], _, as, Lts.Run.nil _, hfails, by rw [hlog]; simp⟩
      · rw [hc] at h
        rcases ih h with ⟨stack', hres, hdone⟩ | ⟨hres, hfails⟩
        · exact Or.inl ⟨stack', hres, done_cons hstep hlog hdone⟩
        · exact Or.inr ⟨hres, fails_cons hstep hlog hfails⟩

/-- How a copy is over that started with the log: done, out of fuel, or by a failing call. -/
inductive Over (M : Moment) (log : List Access) : Option (Except StatusCode Unit) → Machine → Prop
  | done (tr : List (List Access)) (m' : Machine) (hwalk : Walk M tr (.between m'.fs []))
      (hlog : m'.log = log ++ tr.flatten) : Over M log (some (.ok ())) m'
  | spent (tr : List (List Access)) (m' : Machine) (stack : Stack) (hstack : stack ≠ [])
      (hwalk : Walk M tr (.between m'.fs stack)) (hlog : m'.log = log ++ tr.flatten) :
      Over M log none m'
  | failed (tr : List (List Access)) (M' : Moment) (as : List Access) (m' : Machine)
      (hwalk : Walk M tr M') (hfails : Fails M' as m'.fs) (hlog : m'.log = log ++ tr.flatten ++ as) :
      Over M log (some (.error .INTERNAL_SERVER_ERROR)) m'

theorem Over.before {M M₁ : Moment} {tr : List (List Access)} {log : List Access}
    {res : Option (Except StatusCode Unit)} (hwalk : Walk M tr M₁)
    (h : Over M₁ (log ++ tr.flatten) res m') : Over M log res m' := by
  cases h with
  | done tr' _ hwalk' hlog => exact Over.done (tr ++ tr') _ (hwalk.append hwalk') (by rw [hlog]; simp)
  | spent tr' _ stack hstack hwalk' hlog =>
    exact Over.spent (tr ++ tr') _ stack hstack (hwalk.append hwalk') (by rw [hlog]; simp)
  | failed tr' M' as _ hwalk' hfails hlog =>
    exact Over.failed (tr ++ tr') M' as _ (hwalk.append hwalk') hfails (by rw [hlog]; simp)

/-- Nothing is taken out of the log. -/
theorem Over.log {M : Moment} {log : List Access} {res : Option (Except StatusCode Unit)}
    (h : Over M log res m') {a : Access} (ha : a ∈ log) : a ∈ m'.log := by
  cases h with
  | done tr _ _ hlog =>
    rw [hlog]
    exact List.mem_append_left _ ha
  | spent tr _ _ _ _ hlog =>
    rw [hlog]
    exact List.mem_append_left _ ha
  | failed tr _ as _ _ _ hlog =>
    rw [hlog, List.append_assoc]
    exact List.mem_append_left _ ha

theorem loop_walks {fuel : ℕ} {res : Option (Except StatusCode Unit)}
    (h : copy_loop os fuel stack m = (res, m')) : Over (.between m.fs stack) m.log res m' := by
  -- on the fuel: a round is the step that opens its directory, and a walk over the entries
  induction fuel generalizing stack m with
  | zero =>
    cases stack with
    | nil =>
      cases h
      exact Over.done [] _ (Lts.Run.nil _) (by simp)
    | cons pair stack =>
      cases h
      exact Over.spent [] _ _ (List.cons_ne_nil _ _) (Lts.Run.nil _) (by simp)
  | succ fuel ih =>
    cases stack with
    | nil =>
      cases h
      exact Over.done [] _ (Lts.Run.nil _) (by simp)
    | cons pair stack =>
      obtain ⟨src_dir, dest_dir⟩ := pair
      unfold copy_loop at h
      rcases hread : read_dir os src_dir m with ⟨e | entries, m₁⟩
      · rw [hread] at h
        cases h
        rcases read_dir_cases os src_dir m with ⟨e', he⟩ | ⟨d, entries, -, -, -, he⟩
        · rw [hread] at he
          cases he
          exact Over.failed [] _ [] _ (Lts.Run.nil _) (Fails.idle _) (by simp)
        · rw [hread] at he
          cases he
      · rw [hread] at h
        dsimp only at h
        obtain ⟨hm₁, d, names, hd, hdir, hnames, rfl⟩ := read_dir_listed hread
        subst hm₁
        -- the directory is read: the walk goes inside
        have hstep : Walk (.between m.fs ((src_dir, dest_dir) :: stack)) [[]]
            (.inside m.tick.fs src_dir dest_dir (listed m.fs d names) stack) :=
          Lts.Run.single (Step.opened d names hd hdir hnames)
        rcases he : copy_entries os src_dir dest_dir (listed m.fs d names) stack m.tick with ⟨r, m₂⟩
        rw [he] at h
        rcases entries_walk he with
          ⟨stack', rfl, tr, hwalk, hlog⟩ | ⟨rfl, tr, M', as, hwalk, hfails, hlog⟩
        · refine Over.before (hstep.append hwalk) ?_
          have hsame : m₂.log = m.log ++ ([[]] ++ tr).flatten := by
            rw [hlog]
            simp
          rw [← hsame]
          exact ih h
        · cases h
          exact Over.failed _ M' as _ (hstep.append hwalk) hfails (by rw [hlog]; simp)

end Walks

/-! ## Every walk is a copy -/

/-- The calls from the number `k` on and before `k'` do not fail, and what they list is in
this order. -/
def Follows (order : ℕ → List Name → List Name) (k k' : ℕ) (os : Os) : Prop :=
  ∀ n, k ≤ n → n < k' → os.fault n = false ∧ os.order (n + 1) = order (n + 1)

/-- The rounds of the outer loop that begin with the next step. -/
def Moment.rounds : Moment → ℕ
  | .between _ _ => 1
  | .inside _ _ _ _ _ => 0

/-- The copy comes from a moment to another in every system that lists in some order. -/
structure Comes (M M' : Moment) (as : List Access) (rounds : ℕ) (m m' : Machine)
    (order : ℕ → List Name → List Name) : Prop where
  fs : m'.fs = M'.fs
  log : m'.log = m.log ++ as
  calls : m.calls ≤ m'.calls
  perm : ∀ k names, (order k names).Perm names
  goes : ∀ os, Follows order m.calls m'.calls os → ∀ fuel,
    M.go os (fuel + rounds) m = M'.go os fuel m'

section Comes

variable {M M' : Moment} {as : List Access} {m : Machine}

/-- A call, or some of them, in a system that follows. -/
theorem Follows.fault {order : ℕ → List Name → List Name} {k k' : ℕ} {os : Os}
    (h : Follows order k k' os) (i : ℕ) (hi : k + i < k') : os.fault (k + i) = false :=
  (h (k + i) (Nat.le_add_right k i) hi).1

theorem next_entry_ok {os : Os} (hf : os.fault m.calls = false) : next_entry os m = (.ok (), m.tick) :=
  syscall_ok hf

/-- An entry, once its type is known. -/
theorem entry_go {os : Os} {src_dir dest_dir : Path} {n : Name} {t : FileType}
    {entries : List (Name × FileType)} {stack : Stack} (hf₀ : os.fault m.calls = false)
    (hf₁ : os.fault (m.calls + 1) = false) :
    copy_entries os src_dir dest_dir ((n, t) :: entries) stack m =
      match t with
      | .dir =>
        match create_dir os (dest_dir ++ [n]) m.tick.tick with
        | (.error e, m) =>
          if e ≠ .AlreadyExists then (.error .INTERNAL_SERVER_ERROR, m)
          else copy_entries os src_dir dest_dir entries ((src_dir ++ [n], dest_dir ++ [n]) :: stack) m
        | (.ok (), m) =>
          copy_entries os src_dir dest_dir entries ((src_dir ++ [n], dest_dir ++ [n]) :: stack) m
      | .symlink => copy_entries os src_dir dest_dir entries stack m.tick.tick
      | .file =>
        match copy os (src_dir ++ [n]) (dest_dir ++ [n]) m.tick.tick with
        | (.error _, m) => (.error .INTERNAL_SERVER_ERROR, m)
        | (.ok (), m) => copy_entries os src_dir dest_dir entries stack m := by
  rw [copy_entries, next_entry_ok hf₀]
  dsimp only
  have hsecond : next_entry os m.tick = (.ok (), m.tick.tick) := next_entry_ok hf₁
  cases t with
  | dir => exact hsecond ▸ rfl
  | symlink => exact hsecond ▸ rfl
  | file => exact hsecond ▸ rfl

/-- **A step is taken** in every system whose next calls do not fail, and which lists the
directory that is opened in the order of the step. -/
theorem step_comes (h : Step M as M') (hm : m.fs = M.fs) :
    ∃ m' order, m.calls < m'.calls ∧ Comes M M' as M.rounds m m' order := by
  have hperm : ∀ (k : ℕ) (names : List Name),
      List.Perm ((fun _ l => l : ℕ → List Name → List Name) k names)
      names := fun _ _ => List.Perm.refl _
  cases h with
  | @opened fs src_dir dest_dir stack d names hd hdir hnames =>
    -- `read_dir` is one call, and must list its directory in the order of the step
    have hfs : m.fs = fs := hm
    subst hfs
    refine ⟨m.tick, fun _ l => if l = m.fs.children d then names else l, Nat.lt_succ_self _,
      rfl, (List.append_nil _).symm, Nat.le_succ _, fun k l => ?_, fun os hos fuel => ?_⟩
    · split
      · rename_i hl
        rw [hl]
        exact hnames
      · exact List.Perm.refl _
    · obtain ⟨hfault, horder⟩ := hos m.calls le_rfl (Nat.lt_succ_self _)
      have hread : read_dir os src_dir m = (.ok (listed m.fs d names), m.tick) := by
        unfold read_dir
        rw [syscall_ok hfault, tick_fs, hd]
        dsimp only
        rw [if_neg (not_not.mpr hdir), show os.order m.tick.calls = _ from horder]
        dsimp only
        rw [if_pos rfl]
        rfl
      show copy_loop os (fuel + 1) ((src_dir, dest_dir) :: stack) m = _
      rw [copy_loop, hread]
      rfl
  | @closed fs src_dir dest_dir stack =>
    -- no entry is left: the call for the next one finds none
    refine ⟨m.tick, fun _ l => l, Nat.lt_succ_self _, hm, (List.append_nil _).symm, Nat.le_succ _,
      hperm, fun os hos fuel => ?_⟩
    show (match copy_entries os src_dir dest_dir [] stack m with
      | (.error status, m) => (some (.error status), m)
      | (.ok stack, m) => copy_loop os fuel stack m) = copy_loop os fuel stack m.tick
    rw [copy_entries, next_entry_ok (hos m.calls le_rfl (Nat.lt_succ_self _)).1]
  | @made fs src_dir dest_dir n entries stack loc hl hnone =>
    -- one call for the entry, one for its type, and one that makes the directory
    have hfs : m.fs = fs := hm
    subst hfs
    refine ⟨m.tick.tick.tick.set loc .dir, fun _ l => l, by simp only [Machine.tick, Machine.set]; omega,
      rfl, rfl, by simp only [Machine.tick, Machine.set]; omega, hperm, fun os hos fuel => ?_⟩
    have hcalls : (m.tick.tick.tick.set loc .dir).calls = m.calls + 3 := rfl
    rw [hcalls] at hos
    have hmake : create_dir os (dest_dir ++ [n]) m.tick.tick
        = (.ok (), m.tick.tick.tick.set loc .dir) :=
      make_ok (m := m.tick.tick) (hos.fault 2 (by omega)) hl hnone
    unfold Moment.go
    dsimp only
    rw [entry_go (hos.fault 0 (by omega)) (hos.fault 1 (by omega)), hmake]
    rfl
  | @found fs src_dir dest_dir n entries stack loc hl hsome =>
    -- the same calls, but the directory is there: `AlreadyExists` is passed over
    have hfs : m.fs = fs := hm
    subst hfs
    refine ⟨m.tick.tick.tick, fun _ l => l, by simp only [Machine.tick]; omega,
      rfl, (List.append_nil _).symm, by simp only [Machine.tick]; omega, hperm, fun os hos fuel => ?_⟩
    have hcalls : m.tick.tick.tick.calls = m.calls + 3 := rfl
    rw [hcalls] at hos
    have hmake : create_dir os (dest_dir ++ [n]) m.tick.tick
        = (.error .AlreadyExists, m.tick.tick.tick) := by
      obtain ⟨y, hy⟩ := Option.ne_none_iff_exists'.mp hsome
      unfold create_dir make
      rw [syscall_ok (m := m.tick.tick) (hos.fault 2 (by omega))]
      rw [tick_fs, tick_fs, tick_fs, hl]
      dsimp only
      rw [hy]
    unfold Moment.go
    dsimp only
    rw [entry_go (hos.fault 0 (by omega)) (hos.fault 1 (by omega)), hmake]
    rfl
  | @passed fs src_dir dest_dir n entries stack =>
    -- nothing is done for an entry of another type
    refine ⟨m.tick.tick, fun _ l => l, by simp only [Machine.tick]; omega, hm,
      (List.append_nil _).symm, by simp only [Machine.tick]; omega, hperm, fun os hos fuel => ?_⟩
    have hcalls : m.tick.tick.calls = m.calls + 2 := rfl
    rw [hcalls] at hos
    unfold Moment.go
    dsimp only
    rw [entry_go (hos.fault 0 (by omega)) (hos.fault 1 (by omega))]
    rfl
  | @copied fs src_dir dest_dir n entries stack q loc hcopied =>
    -- `copy` opens the source, creates the target and writes: three calls
    have hfs : m.fs = fs := hm
    subst hfs
    obtain ⟨hq, ⟨c, hc⟩, hl, hdir⟩ := hcopied
    refine ⟨((m.tick.tick.tick.read q).tick.set loc (.file [])).tick.set loc
        (.file ((m.fs.set loc (.file [])).content q)), fun _ l => l,
      by simp only [Machine.tick, Machine.set, Machine.read]; omega, rfl, by simp,
      by simp only [Machine.tick, Machine.set, Machine.read]; omega, hperm, fun os hos fuel => ?_⟩
    have hcalls : (((m.tick.tick.tick.read q).tick.set loc (.file [])).tick.set loc
        (.file ((m.fs.set loc (.file [])).content q))).calls = m.calls + 5 := rfl
    rw [hcalls] at hos
    have hcopy := copy_ok (m := m.tick.tick) (hos.fault 2 (by omega))
      (hos.fault 3 (by omega)) (hos.fault 4 (by omega)) hq hc hl hdir
    unfold Moment.go
    dsimp only
    rw [entry_go (hos.fault 0 (by omega)) (hos.fault 1 (by omega)), hcopy]
    rfl

/-- Two stretches, one after the other. -/
theorem Comes.append {M₁ : Moment} {as₁ : List Access} {r₁ r₂ : ℕ} {m₁ m' : Machine}
    {order₁ order₂ : ℕ → List Name → List Name} (h₁ : Comes M M₁ as₁ r₁ m m₁ order₁)
    (h₂ : Comes M₁ M' as r₂ m₁ m' order₂) :
    Comes M M' (as₁ ++ as) (r₂ + r₁) m m' (fun n => if n ≤ m₁.calls then order₁ n else order₂ n) where
  fs := h₂.fs
  log := by rw [h₂.log, h₁.log, List.append_assoc]
  calls := h₁.calls.trans h₂.calls
  perm := by
    intro k names
    split
    · exact h₁.perm k names
    · exact h₂.perm k names
  goes := by
    intro os hos fuel
    rw [← Nat.add_assoc, h₁.goes os (fun n hle hlt => ?_), h₂.goes os (fun n hle hlt => ?_)]
    · -- the calls of the second stretch
      obtain ⟨hfault, horder⟩ := hos n (h₁.calls.trans hle) hlt
      dsimp only at horder
      rw [if_neg (by omega)] at horder
      exact ⟨hfault, horder⟩
    · obtain ⟨hfault, horder⟩ := hos n hle (hlt.trans_le h₂.calls)
      dsimp only at horder
      rw [if_pos (by omega)] at horder
      exact ⟨hfault, horder⟩

/-- **Every walk is that of a copy.** -/
theorem walk_comes {tr : List (List Access)} (h : Walk M tr M') (hm : m.fs = M.fs) :
    ∃ rounds m' order, Comes M M' tr.flatten rounds m m' order := by
  induction h generalizing m with
  | nil M => exact ⟨0, m, fun _ l => l, hm, (List.append_nil _).symm, le_rfl,
      fun _ _ => List.Perm.refl _, fun _ _ _ => rfl⟩
  | cons hstep _ ih =>
    obtain ⟨m₁, order₁, -, hcomes₁⟩ := step_comes hstep hm
    obtain ⟨rounds, m', order, hcomes⟩ := ih hcomes₁.fs
    exact ⟨_, m', _, hcomes₁.append hcomes⟩

end Comes

/-! ## Systems -/

/-- A system that lists directories in an order, and in which the calls of some numbers fail;
a transfer that fails has come as far as `cut`. -/
def listing (order : ℕ → List Name → List Name) (h : ∀ k names, (order k names).Perm names)
    (fault : ℕ → Bool) (cut : ℕ) : Os where
  fault := fault
  order := order
  order_perm := h
  cut _ := cut
  chosen _ _ := false

section Systems

variable {M M' : Moment} {tr : List (List Access)} {m : Machine}

/-- The log of a copy only grows. -/
theorem go_log {os : Os} {fuel : ℕ} (hm : m.fs = M.fs) {a : Access} (ha : a ∈ m.log) :
    a ∈ (M.go os fuel m).2.log := by
  cases M with
  | between fs stack =>
    rcases hgo : copy_loop os fuel stack m with ⟨res, m'⟩
    show a ∈ (copy_loop os fuel stack m).2.log
    rw [hgo]
    exact (loop_walks hgo).log ha
  | inside fs src_dir dest_dir entries stack =>
    unfold Moment.go
    dsimp only
    rcases hentries : copy_entries os src_dir dest_dir entries stack m with ⟨status | stack', m₁⟩
    · rcases entries_walk hentries with ⟨stack', hres, -⟩ | ⟨-, tr, M', as, -, -, hlog⟩
      · cases hres
      · show a ∈ m₁.log
        rw [hlog, List.append_assoc]
        exact List.mem_append_left _ ha
    · rcases entries_walk hentries with ⟨stack'', -, tr, -, hlog⟩ | ⟨hres, -⟩
      · have ha₁ : a ∈ m₁.log := by
          rw [hlog]
          exact List.mem_append_left _ ha
        dsimp only
        rcases hgo : copy_loop os fuel stack' m₁ with ⟨res, m'⟩
        exact (loop_walks hgo).log ha₁
      · cases hres

/-- In such a system a stretch is run through. -/
theorem Comes.listing {as : List Access} {rounds : ℕ} {m' : Machine}
    {order : ℕ → List Name → List Name} (h : Comes M M' as rounds m m' order) {fault : ℕ → Bool}
    (hf : ∀ n, m.calls ≤ n → n < m'.calls → fault n = false) (cut fuel : ℕ) :
    M.go (listing order h.perm fault cut) (fuel + rounds) m
      = M'.go (listing order h.perm fault cut) fuel m' :=
  h.goes _ (fun n hle hlt => ⟨hf n hle hlt, rfl⟩) fuel

/-- **A walk to the end is a copy that succeeds**, and no call of it fails. -/
theorem walk_done {fs' : Fs} (h : Walk M tr (.between fs' [])) (hm : m.fs = M.fs) :
    ∃ order hperm fuel m', m'.fs = fs' ∧ m'.log = m.log ++ tr.flatten ∧
      M.go (listing order hperm (fun _ => false) 0) fuel m = (some (.ok ()), m') := by
  obtain ⟨rounds, m', order, hcomes⟩ := walk_comes h hm
  refine ⟨order, hcomes.perm, 0 + rounds, m', hcomes.fs, hcomes.log, ?_⟩
  rw [hcomes.listing (fun _ _ _ => rfl) 0 0]
  rfl

/-- **What a walk touches a copy touches**, and no call of it fails. -/
theorem walk_touches (h : Walk M tr M') (hm : m.fs = M.fs) :
    ∃ order hperm fuel, ∀ as ∈ tr, ∀ a ∈ as,
      a ∈ (M.go (listing order hperm (fun _ => false) 0) fuel m).2.log := by
  obtain ⟨rounds, m', order, hcomes⟩ := walk_comes h hm
  refine ⟨order, hcomes.perm, 0 + rounds, fun as has a ha => ?_⟩
  rw [hcomes.listing (fun _ _ _ => rfl) 0 0]
  apply go_log hcomes.fs
  rw [hcomes.log]
  exact List.mem_append_right _ (List.mem_flatten.mpr ⟨as, has, ha⟩)

/-- A copy of a file that breaks off in its transfer. -/
theorem file_breaks (os : Os) (fuel : ℕ) {src_dir dest_dir q loc : Path} {n : Name}
    {entries : List (Name × FileType)} {stack : Stack} {fs : Fs} (hm : m.fs = fs)
    (hcopied : Copied fs (src_dir ++ [n]) (dest_dir ++ [n]) q loc)
    (hf : ∀ i, i < 4 → os.fault (m.calls + i) = false) (hbroken : os.fault (m.calls + 4) = true) :
    ∃ m', (Moment.inside fs src_dir dest_dir ((n, .file) :: entries) stack).go os fuel m
        = (some (.error .INTERNAL_SERVER_ERROR), m') ∧
      m'.fs = filled fs loc ((to_write fs q loc).take (os.cut (m.calls + 4))) := by
  subst hm
  obtain ⟨hq, ⟨c, hc⟩, hl, hdir⟩ := hcopied
  have hcopy : copy os (src_dir ++ [n]) (dest_dir ++ [n]) m.tick.tick = (.error .Other,
      ((m.tick.tick.tick.read q).tick.set loc (.file [])).tick.set loc
        (.file (((m.fs.set loc (.file [])).content q).take (os.cut (m.calls + 4))))) := by
    unfold copy
    rw [open_file_ok (m := m.tick.tick) (hf 2 (by omega)) hq hc]
    dsimp only
    rw [create_ok (m := m.tick.tick.tick.read q) (hf 3 (by omega)) hl hdir]
    dsimp only
    exact write_fault hbroken
  unfold Moment.go
  dsimp only
  rw [entry_go (hf 0 (by omega)) (hf 1 (by omega)), hcopy]
  exact ⟨_, rfl, rfl⟩

/-- **At every file of a walk a copy can break off**, with any part of it written. -/
theorem walk_breaks {src_dir dest_dir q loc : Path} {n : Name} {entries : List (Name × FileType)}
    {stack : Stack} {fs : Fs}
    (h : Walk M tr (.inside fs src_dir dest_dir ((n, .file) :: entries) stack)) (hm : m.fs = M.fs)
    (hcopied : Copied fs (src_dir ++ [n]) (dest_dir ++ [n]) q loc) (k : ℕ) :
    ∃ order hperm broken fuel m', m.calls ≤ broken ∧
      M.go (listing order hperm (fun i => decide (i = broken)) k) fuel m
        = (some (.error .INTERNAL_SERVER_ERROR), m') ∧
      m'.fs = filled fs loc ((to_write fs q loc).take k) := by
  obtain ⟨rounds, m₁, order, hcomes⟩ := walk_comes h hm
  have hbefore : ∀ n, n < m₁.calls + 4 → decide (n = m₁.calls + 4) = false :=
    fun n hn => decide_eq_false (by omega)
  obtain ⟨m', hgo, hfs⟩ := file_breaks
    (Rshs.CopyWalk.listing order hcomes.perm (fun i => decide (i = m₁.calls + 4)) k) 0 hcomes.fs
    hcopied (fun i hi => hbefore _ (by omega)) (decide_eq_true rfl)
  refine ⟨order, hcomes.perm, m₁.calls + 4, 0 + rounds, m', ?_, ?_, hfs⟩
  · have hle := hcomes.calls
    omega
  · rw [hcomes.listing (fun n _ hlt => hbefore n (by omega)) k 0]
    exact hgo

end Systems

/-! ## The paths of a walk -/

/-- A free entry is a slot. -/
theorem slot_of_free {fs : Fs} {p loc : Path} (hl : locate_entry fs p = .ok loc)
    (hnone : fs.node loc = none) : fs.Slot loc :=
  slot_of_locate_entry hl (by rw [hnone]; simp)

/-- A step only adds to the tree. -/
theorem step_extends {M M' : Moment} {as : List Access} (h : Step M as M') : M.fs.Extends M'.fs := by
  cases h with
  | opened d names _ _ _ => exact Fs.Extends.refl _
  | closed => exact Fs.Extends.refl _
  | made loc hl hnone =>
    exact Fs.extends_set_dir (slot_of_free hl hnone) hnone
  | found loc _ _ => exact Fs.Extends.refl _
  | passed => exact Fs.Extends.refl _
  | copied q loc h => exact extends_fill h.dest (slot_of_locate h.dest h.no_dir) _

theorem walk_extends {M M' : Moment} {tr : List (List Access)} (h : Walk M tr M') :
    M.fs.Extends M'.fs :=
  h.keeps (I := fun M' => M.fs.Extends M'.fs) (fun _ _ _ hext hstep => hext.trans (step_extends hstep))
    (Fs.Extends.refl _)

/-- A copy of `src` to `dst` is at pairs of one relative path, each a directory of the
source, and what it has read is still there. -/
def Along (src dst : Path) : Moment → Prop
  | .between fs stack => StackOk src dst fs stack
  | .inside fs src_dir dest_dir entries stack => StackOk src dst fs stack ∧
      ∃ r, src_dir = src ++ r ∧ dest_dir = dst ++ r ∧ fs.node (src ++ r) = some .dir ∧
        EntriesOk fs (src ++ r) entries

section Along

variable {src dst : Path} {M M' : Moment} {as : List Access}

/-- The entries that were listed stand there. -/
theorem listed_ok {fs : Fs} {d : Path} {names : List Name} : EntriesOk fs d (listed fs d names) := by
  intro n t hn
  unfold listed at hn
  rw [List.mem_filterMap] at hn
  obtain ⟨n', -, hn'⟩ := hn
  obtain ⟨x, hx, heq⟩ := Option.map_eq_some_iff.mp hn'
  cases heq
  exact ⟨x, hx, rfl⟩

theorem step_along (h : Step M as M') (ha : Along src dst M) : Along src dst M' := by
  have hext := step_extends h
  -- what a step leaves of the entries, and what it pushes
  have hrest : ∀ {fs fs' : Fs} {r : List Name} {n : Name} {t : FileType}
      {entries : List (Name × FileType)}, fs.Extends fs' →
      EntriesOk fs (src ++ r) ((n, t) :: entries) → EntriesOk fs' (src ++ r) entries :=
    fun he hok n' t' hn' => hok.mono he n' t' (List.mem_cons_of_mem _ hn')
  cases h with
  | opened d names hd _ _ =>
    obtain ⟨r, hpair, hdir⟩ := ha _ List.mem_cons_self
    cases hpair
    rw [follow_self ⟨_, hdir, by simp⟩] at hd
    cases hd
    exact ⟨fun pair hp => ha pair (List.mem_cons_of_mem _ hp), r, rfl, rfl, hdir, listed_ok⟩
  | closed => exact ha.1
  | made loc _ _ =>
    obtain ⟨hstack, r, rfl, rfl, hdir, hok⟩ := ha
    have hpush := hstack.push hext (hok _ _ List.mem_cons_self)
    rw [if_pos rfl] at hpush
    exact ⟨hpush, r, rfl, rfl, hext.keeps.dir hdir, hrest hext hok⟩
  | found loc _ _ =>
    obtain ⟨hstack, r, rfl, rfl, hdir, hok⟩ := ha
    have hpush := hstack.push hext (hok _ _ List.mem_cons_self)
    rw [if_pos rfl] at hpush
    exact ⟨hpush, r, rfl, rfl, hdir, hrest hext hok⟩
  | passed =>
    obtain ⟨hstack, r, rfl, rfl, hdir, hok⟩ := ha
    exact ⟨hstack, r, rfl, rfl, hdir, hrest hext hok⟩
  | copied q loc _ =>
    obtain ⟨hstack, r, rfl, rfl, hdir, hok⟩ := ha
    exact ⟨hstack.mono hext, r, rfl, rfl, hext.keeps.dir hdir, hrest hext hok⟩

theorem walk_along {tr : List (List Access)} (h : Walk M tr M') (ha : Along src dst M) :
    Along src dst M' :=
  h.keeps (fun _ _ _ ha hstep => step_along hstep ha) ha

theorem along_start {fs : Fs} (hsrc : fs.node src = some .dir) :
    Along src dst (.between fs [(src, dst)]) := by
  intro pair hpair
  rw [List.mem_singleton] at hpair
  exact ⟨[], by rw [hpair, List.append_nil, List.append_nil], by rw [List.append_nil]; exact hsrc⟩

/-- The file that is copied next is the source's own. -/
theorem Along.file {fs : Fs} {src_dir dest_dir q loc : Path} {n : Name}
    {entries : List (Name × FileType)} {stack : Stack}
    (ha : Along src dst (.inside fs src_dir dest_dir ((n, .file) :: entries) stack))
    (hcopied : Copied fs (src_dir ++ [n]) (dest_dir ++ [n]) q loc) : ∃ r, q = src ++ r := by
  obtain ⟨-, r, rfl, -, -, hok⟩ := ha
  obtain ⟨x, hx, ht⟩ := hok n .file List.mem_cons_self
  obtain ⟨c, hc⟩ := node_of_file hx ht
  have hq := hcopied.source
  rw [follow_self ⟨_, hc, by simp⟩] at hq
  cases hq
  exact ⟨r ++ [n], by rw [List.append_assoc]⟩

end Along

end Rshs.CopyWalk
