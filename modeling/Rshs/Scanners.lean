/-
The two directory scanners of `scandir.rs`.

The one for Linux is `batch_read_dir_entries` of `Propfind`; `batch_fallback` is the one
for every other system. Both are run here on the same disk, each with an order of its own
and with the same faults. They report the same names, since a name is left out by both
where its metadata cannot be read. `scanners_agree_iff` says when they report the same of
each: the type that comes from the directory is a link's own, and the conversion of a
time before the epoch moves its nanoseconds the wrong way.
-/
import Rshs.Propfind

set_option autoImplicit false

namespace Rshs.Scanners

open StdPath Posix Rshs.Time Rshs.Propfind

/-! ## The fallback -/

/-- One entry of a directory, skipped when it cannot be read. -/
def fallback_entry (disk : Disk) (scan : Scan) (dir : Path) (n : Name) : Option DirEntryMeta :=
  if n.has_nul || scan.unread (dir ++ [n]) then none
  else (disk.metadata (dir ++ [n])).map fun m =>
    { name := n
      is_dir := m.is_dir
      size := m.len
      modified := m.modified
      created := m.created }

def batch_fallback (disk : Disk) (scan : Scan) (dir_path : Path) : Option (List DirEntryMeta) :=
  match follow disk.fs dir_path with
  | .error _ => none
  | .ok dir =>
    if disk.fs.node dir ≠ some .dir ∨ scan.refused dir = true then none
    else some ((scan.order dir (disk.fs.children dir)).filterMap (fallback_entry disk scan dir))

/-! ## Agreement -/

/-- The same directories are refused, and the same entries cannot be read. -/
structure SameFaults (scan scan' : Scan) : Prop where
  refused : scan'.refused = scan.refused
  unread : scan'.unread = scan.unread

/-- What is compared of an entry. -/
def key (e : DirEntryMeta) : Name × Bool × ℕ × SystemTime := (e.name, e.is_dir, e.size, e.modified)

/-- Both scans fail, or both report the same set. -/
def Agree : Option (List DirEntryMeta) → Option (List DirEntryMeta) → Prop
  | some xs, some ys => ∀ k, k ∈ xs.map key ↔ k ∈ ys.map key
  | none, none => True
  | _, _ => False

/-- Sets of entries that name what they are about agree name by name. -/
theorem same_set_iff {names names' : List Name} (hperm : names'.Perm names)
    {f g : Name → Option DirEntryMeta} (hf : ∀ n e, f n = some e → e.name = n)
    (hg : ∀ n e, g n = some e → e.name = n) :
    (∀ k, k ∈ (names.filterMap f).map key ↔ k ∈ (names'.filterMap g).map key) ↔
      ∀ n ∈ names, (f n).map key = (g n).map key := by
  have hmem : ∀ (l : List Name) (h : Name → Option DirEntryMeta) (k : Name × Bool × ℕ × SystemTime),
      k ∈ (l.filterMap h).map key ↔ ∃ n ∈ l, (h n).map key = some k := by
    intro l h k
    rw [List.mem_map]
    constructor
    · rintro ⟨e, he, heq⟩
      obtain ⟨n, hn, hentry⟩ := List.mem_filterMap.mp he
      exact ⟨n, hn, by rw [hentry, Option.map_some, heq]⟩
    · rintro ⟨n, hn, hk⟩
      obtain ⟨e, he, heq⟩ := Option.map_eq_some_iff.mp hk
      exact ⟨e, List.mem_filterMap.mpr ⟨n, hn, he⟩, heq⟩
  have hname : ∀ {h : Name → Option DirEntryMeta}, (∀ n e, h n = some e → e.name = n) →
      ∀ {n k}, (h n).map key = some k → k.1 = n := by
    intro h hh n k hk
    obtain ⟨e, he, heq⟩ := Option.map_eq_some_iff.mp hk
    rw [← heq]
    exact hh n e he
  constructor
  · intro hsame n hn
    apply Option.ext
    intro k
    constructor
    · intro hk
      obtain ⟨m, -, hm⟩ := (hmem _ _ k).mp ((hsame k).mp ((hmem _ _ k).mpr ⟨n, hn, hk⟩))
      rw [← hname hf hk, hname hg hm]
      exact hm
    · intro hk
      have hn' := hperm.mem_iff.mpr hn
      obtain ⟨m, -, hm⟩ := (hmem _ _ k).mp ((hsame k).mpr ((hmem _ _ k).mpr ⟨n, hn', hk⟩))
      rw [← hname hg hk, hname hf hm]
      exact hm
  · intro heq k
    rw [hmem, hmem]
    constructor
    · rintro ⟨n, hn, hk⟩
      exact ⟨n, hperm.mem_iff.mpr hn, by rw [← heq n hn, hk]⟩
    · rintro ⟨n, hn, hk⟩
      have hn' := hperm.mem_iff.mp hn
      exact ⟨n, hn', by rw [heq n hn', hk]⟩

/-! ## One entry -/

/-- A link that leads to a directory. -/
def LinkToDir (disk : Disk) (q : Path) : Prop :=
  (∃ t, disk.fs.node q = some (.symlink t)) ∧ ∃ m, disk.metadata q = some m ∧ m.is_dir = true

/-- An entry of which both scanners say the same. -/
structure Alike (disk : Disk) (scan : Scan) (q : Path) : Prop where
  kind : scan.type_error q = true ∨ ¬ LinkToDir disk q
  time : ∀ m, disk.metadata q = some m → 0 ≤ m.mtime.tv_sec ∨ m.mtime.tv_nsec = 0

/-- Before the epoch the nanoseconds count back where they should count on. -/
theorem systemtime_eq_iff (t : Timestamp) :
    timestamp_to_systemtime t = t.to_system_time ↔ 0 ≤ t.tv_sec ∨ t.tv_nsec = 0 := by
  by_cases h : 0 ≤ t.tv_sec
  · exact ⟨fun _ => Or.inl h, fun _ => to_systemtime_eq h⟩
  · unfold timestamp_to_systemtime Timestamp.to_system_time NANOS
    rw [if_neg h]
    show -(-t.tv_sec * (1000000000 : ℕ) + t.tv_nsec : ℤ) = t.tv_sec * (1000000000 : ℕ) + t.tv_nsec ↔ _
    push_cast
    omega

section Entry

variable {disk : Disk} {scan scan' : Scan}

/-- The directory's own type of an entry is the followed one, but for a link to a
directory. -/
theorem kind_eq_iff {q : Path} {x : Node} {m : Metadata} (hx : disk.fs.node q = some x)
    (hm : disk.metadata q = some m) :
    decide (disk.fs.node q = some .dir) = m.is_dir ↔ ¬ LinkToDir disk q := by
  unfold LinkToDir
  rw [hx, hm]
  cases x with
  | symlink t => simp
  | dir =>
    rw [metadata_real hx (by simp)] at hm
    rw [← Option.some.inj hm]
    simp [metadata_at]
  | file content =>
    rw [metadata_real hx (by simp)] at hm
    rw [← Option.some.inj hm]
    simp [metadata_at]

/-- **When one entry reads the same.** -/
theorem entry_eq_iff (hfaults : SameFaults scan scan') {dir : Path} {n : Name}
    (hn : n ∈ disk.fs.children dir) :
    (dir_entry disk scan dir n).map key = (fallback_entry disk scan' dir n).map key ↔
      (n.has_nul = false → scan.unread (dir ++ [n]) = false → Alike disk scan (dir ++ [n])) := by
  obtain ⟨x, hx⟩ := Option.ne_none_iff_exists'.mp (Fs.mem_children.mp hn)
  unfold dir_entry fallback_entry
  rw [hfaults.unread]
  by_cases hskip : (n.has_nul || scan.unread (dir ++ [n])) = true
  · rw [if_pos hskip, if_pos hskip]
    constructor
    · intro _ hnul hunread
      rw [hnul, hunread] at hskip
      exact absurd hskip (by decide)
    · intro _
      rfl
  · rw [if_neg hskip, if_neg hskip]
    rw [Bool.or_eq_true, not_or, Bool.not_eq_true, Bool.not_eq_true] at hskip
    cases hm : disk.metadata (dir ++ [n]) with
    | none =>
      -- a dangling link is skipped by both
      constructor
      · intro _ _ _
        refine ⟨Or.inr ?_, fun m hsome => ?_⟩
        · rintro ⟨-, m, hsome, -⟩
          rw [hm] at hsome
          cases hsome
        · rw [hm] at hsome
          cases hsome
      · intro _
        rfl
    | some m =>
      have hkind := kind_eq_iff hx hm
      have htime := systemtime_eq_iff m.mtime
      have hkeys : Alike disk scan (dir ++ [n]) ↔
          (scan.type_error (dir ++ [n]) = true ∨ ¬ LinkToDir disk (dir ++ [n])) ∧
            (0 ≤ m.mtime.tv_sec ∨ m.mtime.tv_nsec = 0) := by
        constructor
        · intro h
          exact ⟨h.kind, h.time m hm⟩
        · rintro ⟨hk, ht⟩
          refine ⟨hk, fun m' hm' => ?_⟩
          rw [hm] at hm'
          rw [← Option.some.inj hm']
          exact ht
      have hgoal : (if scan.type_error (dir ++ [n]) = true then m.is_dir
          else decide (disk.fs.node (dir ++ [n]) = some .dir)) = m.is_dir ↔
            (scan.type_error (dir ++ [n]) = true ∨ ¬ LinkToDir disk (dir ++ [n])) := by
        split
        · rename_i herror
          exact ⟨fun _ => Or.inl herror, fun _ => rfl⟩
        · rename_i htyped
          rw [hkind]
          exact ⟨Or.inr, fun h => h.resolve_left htyped⟩
      rw [Option.map_some, Option.map_some, Option.map_some, Option.map_some, Option.some_inj,
        hkeys, ← hgoal, ← htime]
      unfold key
      simp only [Prod.mk.injEq, true_and]
      constructor
      · intro h _ _
        exact h
      · intro h
        exact h hskip.1 hskip.2

theorem fallback_name {dir : Path} {n : Name} {e : DirEntryMeta}
    (h : fallback_entry disk scan dir n = some e) : e.name = n := by
  unfold fallback_entry at h
  split at h
  · cases h
  · obtain ⟨m, -, rfl⟩ := Option.map_eq_some_iff.mp h
    rfl

/-- **When the two scanners agree.** On every directory that can be scanned no entry that
can be read is a link to a directory, unless `file_type` fails for it, and none was modified
before the epoch at a fraction of a second. -/
theorem scanners_agree_iff (hfaults : SameFaults scan scan') (dir_path : Path) :
    Agree (batch_read_dir_entries disk scan dir_path) (batch_fallback disk scan' dir_path) ↔
      ∀ dir, follow disk.fs dir_path = .ok dir → disk.fs.node dir = some .dir →
        scan.refused dir = false → ∀ n ∈ disk.fs.children dir, n.has_nul = false →
          scan.unread (dir ++ [n]) = false → Alike disk scan (dir ++ [n]) := by
  unfold batch_read_dir_entries batch_fallback
  rw [hfaults.refused]
  -- both follow the path, and fail together
  cases hfollow : follow disk.fs dir_path with
  | error err =>
    constructor
    · intro _ dir h
      cases h
    · intro _
      exact trivial
  | ok dir =>
    dsimp only
    have hscan : (∀ d, Except.ok dir = (.ok d : Except ErrorKind Path) →
        disk.fs.node d = some .dir → scan.refused d = false → ∀ n ∈ disk.fs.children d,
          n.has_nul = false → scan.unread (d ++ [n]) = false → Alike disk scan (d ++ [n])) ↔
        (disk.fs.node dir = some .dir → scan.refused dir = false → ∀ n ∈ disk.fs.children dir,
          n.has_nul = false → scan.unread (dir ++ [n]) = false → Alike disk scan (dir ++ [n])) := by
      constructor
      · intro h
        exact h dir rfl
      · intro h d hd
        cases hd
        exact h
    rw [hscan]
    by_cases hfail : disk.fs.node dir ≠ some .dir ∨ scan.refused dir = true
    · rw [if_pos hfail, if_pos hfail]
      constructor
      · intro _ hdir hrefused
        rcases hfail with hnode | hyes
        · exact absurd hdir hnode
        · rw [hrefused] at hyes
          exact absurd hyes (by decide)
      · intro _
        exact trivial
    · rw [if_neg hfail, if_neg hfail]
      rw [not_or, not_not, Bool.not_eq_true] at hfail
      -- the orders may differ: what is compared is the sets
      have horder := scan.order_perm dir (disk.fs.children dir)
      have horder' := (scan'.order_perm dir (disk.fs.children dir)).trans horder.symm
      unfold Agree
      dsimp only
      rw [same_set_iff horder' (fun n e h => dir_entry_name h) (fun n e h => fallback_name h)]
      constructor
      · intro h _ _ n hn
        exact (entry_eq_iff hfaults hn).mp (h n (horder.mem_iff.mpr hn))
      · intro h n hn
        have hn' := horder.mem_iff.mp hn
        exact (entry_eq_iff hfaults hn').mpr (h hfail.1 hfail.2 n hn')

end Entry

/-! ## A link to a directory -/

/-- The directory `/d` with a directory `e` and a link `l` to it. -/
def disk_link : Disk where
  fs := ((Fs.empty.set [d_name] .dir).set [d_name, e_name] .dir).set [d_name, l_name]
    (.symlink (PathBuf.of_text "e".toList))
  attr := fun _ => { dir_size := 4096, mtime := noon, btime := none }

/-- A scan in which nothing fails. -/
def scan_d : Scan := server_d.scan

theorem scanners_agree_iff_d :
    Agree (batch_read_dir_entries disk_link scan_d [d_name]) (batch_fallback disk_link scan_d [d_name]) ↔
      ∀ dir, follow disk_link.fs [d_name] = .ok dir → disk_link.fs.node dir = some .dir →
        scan_d.refused dir = false → ∀ n ∈ disk_link.fs.children dir, n.has_nul = false →
          scan_d.unread (dir ++ [n]) = false → Alike disk_link scan_d (dir ++ [n]) :=
  scanners_agree_iff ⟨rfl, rfl⟩ [d_name]

/-- The link is a file to the one scanner and a directory to the other. -/
theorem linked_dir_differs :
    ¬ ∀ (disk : Disk) (scan scan' : Scan) (dir_path : Path), SameFaults scan scan' →
      Agree (batch_read_dir_entries disk scan dir_path) (batch_fallback disk scan' dir_path) := by
  intro hall
  have hagree := hall disk_link scan_d scan_d [d_name] ⟨rfl, rfl⟩
  have hsame : ∀ k, k ∈ ((batch_read_dir_entries disk_link scan_d [d_name]).getD []).map key ↔
      k ∈ ((batch_fallback disk_link scan_d [d_name]).getD []).map key := hagree
  have hlinux : (l_name, false, 4096, noon.to_system_time) ∈
      ((batch_read_dir_entries disk_link scan_d [d_name]).getD []).map key := by decide
  have hfallback : (l_name, false, 4096, noon.to_system_time) ∉
      ((batch_fallback disk_link scan_d [d_name]).getD []).map key := by decide
  exact hfallback ((hsame _).mp hlinux)

end Rshs.Scanners
