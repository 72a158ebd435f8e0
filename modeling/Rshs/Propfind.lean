/-
PROPFIND: `webdav/fs.rs`, `scandir.rs` as it is on Linux, and `handle_propfind`.

The target's own entry comes from its metadata and carries its canonical path, the
key under which dead properties and locks are joined. The entries of the members come
from a directory scan, through `from_dirent`, and carry none. So the element a deep
PROPFIND gives for a member is compared here with the answer of a PROPFIND of depth
zero on the member's own href.

A `Disk` is a file system with the times `statx` reports. `Scan` is everything about
a directory scan the program cannot foresee: which directories it is refused, which
entries cannot be read, of which entries `file_type` fails, and the order of the
entries. `types` is what the MIME table knows of a file extension; the
table is asked about nothing else of a path.
-/
import Rshs.Href
import Rshs.Xml
import Rshs.App
import Mathlib.Data.Finset.Card
import Mathlib.Algebra.BigOperators.Group.List.Basic
import Mathlib.Tactic.Tauto

set_option autoImplicit false

namespace Rshs.Propfind

open StdPath Posix FinMap Text Rshs.Webdav Rshs.Time Rshs.Xml Rshs.Href Rshs.App
open Rshs.Dates (format_rfc1123 format_rfc3339 Return format_before format_epoch timestamp_returns)

/-! ## Metadata -/

/-- What a file system keeps beside the contents: the size of a directory file, and
the times of last modification and of birth, the latter where it is supported. -/
structure Attr where
  dir_size : ℕ
  mtime : Timestamp
  btime : Option Timestamp

structure Disk where
  fs : Fs
  attr : Path → Attr

/-- `Metadata`, and a completed `statx`. -/
structure Metadata where
  is_dir : Bool
  len : ℕ
  mtime : Timestamp
  btime : Option Timestamp

def size_of (disk : Disk) (q : Path) : Node → ℕ
  | .file content => content.length
  | .dir | .symlink _ => (disk.attr q).dir_size

/-- `metadata`, and `statx` without `AT_SYMLINK_NOFOLLOW`: links are followed. -/
def Disk.metadata (disk : Disk) (p : Path) : Option Metadata :=
  match follow disk.fs p with
  | .error _ => none
  | .ok q => (disk.fs.node q).map fun x =>
    { is_dir := x = .dir
      len := size_of disk q x
      mtime := (disk.attr q).mtime
      btime := (disk.attr q).btime }

/-- `Metadata::modified`. -/
def Metadata.modified (m : Metadata) : SystemTime := m.mtime.to_system_time

/-- `Metadata::created().ok()`. -/
def Metadata.created (m : Metadata) : Option SystemTime := m.btime.map Timestamp.to_system_time

/-! ## `scandir.rs` -/

def timestamp_to_systemtime (t : Timestamp) : SystemTime :=
  if 0 ≤ t.tv_sec then t.tv_sec * NANOS + t.tv_nsec else -(-t.tv_sec * NANOS + t.tv_nsec)

/-- `StatxBuf::created`: the kernel leaves the two fields at zero where it knows no
birth time, and the scan takes zeros for that. -/
def stx_created (m : Metadata) : Option SystemTime :=
  match m.btime with
  | none => none
  | some t => if t.tv_sec = 0 ∧ t.tv_nsec = 0 then none else some (timestamp_to_systemtime t)

structure DirEntryMeta where
  name : Name
  is_dir : Bool
  size : ℕ
  modified : SystemTime
  created : Option SystemTime

/-- What a scan meets. `type_error` says of which entries `file_type` fails: the directory
gives no type for them, and the `lstat` that std makes then fails too. -/
structure Scan where
  refused : Path → Bool
  unread : Path → Bool
  type_error : Path → Bool
  order : Path → List Name → List Name
  order_perm : ∀ dir names, List.Perm (order dir names) names

/-- One entry of a directory, skipped when it cannot be read. -/
def dir_entry (disk : Disk) (scan : Scan) (dir : Path) (n : Name) : Option DirEntryMeta :=
  if n.has_nul || scan.unread (dir ++ [n]) then none
  else (disk.metadata (dir ++ [n])).map fun stx =>
    { name := n
      is_dir := if scan.type_error (dir ++ [n]) then stx.is_dir
        else disk.fs.node (dir ++ [n]) = some .dir
      size := stx.len
      modified := timestamp_to_systemtime stx.mtime
      created := stx_created stx }

def batch_read_dir_entries (disk : Disk) (scan : Scan) (dir_path : Path) :
    Option (List DirEntryMeta) :=
  match follow disk.fs dir_path with
  | .error _ => none
  | .ok dir =>
    if disk.fs.node dir ≠ some .dir ∨ scan.refused dir = true then none
    else some ((scan.order dir (disk.fs.children dir)).filterMap (dir_entry disk scan dir))

/-! ## `webdav/fs.rs` -/

/-- `Path::extension`, of a file name. -/
def extension (n : Name) : Option (List UInt8) :=
  match n.bytes.reverse.dropWhile (· ≠ 46) with
  | [] | [46] => none
  | _ => some (n.bytes.reverse.takeWhile (· ≠ 46)).reverse

section Collect

variable (types : Option (List UInt8) → Option String)

def guess_content_type (file_name : Option Name) : Option String :=
  types (file_name.bind extension)

/-- `PropEntry::from_meta`. -/
def from_meta (m : Metadata) (href : List Char) (is_dir : Bool) : PropEntry where
  href := href
  modified := m.modified
  created := m.created
  size := m.len
  is_dir := is_dir

/-- `PropEntry::from_dirent`. -/
def from_dirent (child : DirEntryMeta) (href : List Char) : PropEntry where
  href := href
  modified := child.modified
  created := child.created
  size := child.size
  is_dir := child.is_dir

/-- The href of a child, from its parent's. -/
def child_href (base : List Char) (n : Name) : List Char := base ++ encoded n

/-- The entry of a child, with its content type when it is no directory. -/
def child_entry (base : List Char) (child : DirEntryMeta) : PropEntry :=
  { from_dirent child (child_href base child.name) with
    content_type := if child.is_dir then none else guess_content_type types (some child.name) }

variable (disk : Disk) (scan : Scan)

def collect_direct_children (dir_path : Path) (parent_href : List Char) : List PropEntry :=
  match batch_read_dir_entries disk scan dir_path with
  | none => []
  | some children => children.map (child_entry types (normalize_href parent_href true))

/-- The directories among the children of a directory, with their hrefs. -/
def subdirs (dir_path : Path) (parent_href : List Char) (children : List DirEntryMeta) :
    List (Path × List Char) :=
  children.filterMap fun child =>
    if child.is_dir then
      some (dir_path ++ [child.name], normalize_href (child_href parent_href child.name) true)
    else none

/-- The loop of `collect_descendants`: the last directory pushed is scanned next. -/
def collect_loop : ℕ → List (Path × List Char) → List PropEntry → Option (List PropEntry)
  | _, [], entries => some entries
  | 0, _ :: _, _ => none
  | fuel + 1, (dir_path, parent_href) :: stack, entries =>
    match batch_read_dir_entries disk scan dir_path with
    | none => collect_loop fuel stack entries
    | some children =>
      collect_loop fuel ((subdirs dir_path parent_href children).reverse ++ stack)
        (entries ++ children.map (child_entry types parent_href))

def collect_descendants (fuel : ℕ) (root_dir : Path) (root_href : List Char) :
    Option (List PropEntry) :=
  collect_loop types disk scan fuel [(root_dir, normalize_href root_href true)] []

/-- The entry of the target itself. -/
def base_entry (fs_path : Path) (request_path : List Char) (m : Metadata) : PropEntry :=
  { from_meta m (normalize_href request_path m.is_dir) m.is_dir with
    canonical_path := some fs_path
    content_type := if m.is_dir then none else guess_content_type types fs_path.getLast? }

def collect_entries (fuel : ℕ) (fs_path : Path) (request_path : List Char) (depth : Depth) :
    Option (List PropEntry) :=
  match disk.metadata fs_path with
  | none => some []
  | some m =>
    let base := base_entry types fs_path request_path m
    if m.is_dir = true ∧ depth ≠ .Zero then
      if depth = .One then
        some (base :: collect_direct_children types disk scan fs_path request_path)
      else (collect_descendants types disk scan fuel fs_path request_path).map (base :: ·)
    else some [base]

end Collect

/-! ## The handler -/

/-- What serving a PROPFIND reads. -/
structure Server where
  disk : Disk
  scan : Scan
  cwd : Path
  app : AppState
  now : ℕ
  types : Option (List UInt8) → Option String

def Server.resolve_existing (s : Server) (request_path : List Char) : Option Path :=
  Resolve.resolve_existing s.disk.fs s.cwd s.app.root_dir s.app.root_canonical request_path

/-- The dead properties and the active locks of an entry, joined by its canonical
path. -/
def Server.join_stores (s : Server) (entry : PropEntry) : PropEntry :=
  match entry.canonical_path with
  | none => entry
  | some cp =>
    { entry with
      dead_props := s.app.dead_props.lookup cp
      active_locks := Locks.active_locks s.now s.app.locks (some cp) }

/-- `handle_propfind`, for a body that has been parsed. None is a traversal that has
not ended within its fuel, or a date that cannot be written. -/
def Server.handle_propfind (s : Server) (fuel : ℕ) (depth : Depth) (request_path : List Char)
    (body : Option PropRequest) : Option (Except StatusCode (List Response)) :=
  match s.resolve_existing request_path with
  | none => some (.error .NOT_FOUND)
  | some fs_path =>
    match body with
    | none => some (.error .BAD_REQUEST)
    | some prop_request => do
      let entries ← collect_entries s.types s.disk s.scan fuel fs_path request_path depth
      let responses ← (entries.map s.join_stores).mapM (write_response prop_request)
      return .ok responses

/-! ## What a member's entry is made of -/

/-- A request path without its last separator. -/
def base_of (request_path : List Char) : List Char :=
  if request_path.getLast? = some '/' then request_path.dropLast else request_path

theorem base_of_base (request_path : List Char) : Base (base_of request_path) request_path := by
  unfold base_of Base
  split
  · rename_i h
    exact Or.inr (List.dropLast_append_getLast? '/' h).symm
  · exact Or.inl rfl

theorem normalize_base (request_path : List Char) :
    normalize_href request_path true = base_of request_path ++ ['/'] := by
  unfold normalize_href base_of
  by_cases h : request_path.getLast? = some '/'
  · rw [if_neg (by rw [h]; simp), if_pos h]
    exact (List.dropLast_append_getLast? '/' h).symm
  · rw [if_pos ⟨rfl, h⟩, if_neg h]

/-- The href below which the members of the target stand. -/
theorem root_href (request_path : List Char) :
    member_href (base_of request_path) [] ++ ['/'] = normalize_href request_path true := by
  rw [normalize_base]
  simp [member_href]

theorem encoded_last (n : Name) : (encoded n).getLast? ≠ some '/' := by
  intro h
  exact slash_not_mem_encode (lossy_no_slash n) (List.mem_of_getLast? h)

theorem normalize_member (base : List Char) (ns : List Name) (n : Name) :
    normalize_href (member_href base (ns ++ [n])) true = member_href base (ns ++ [n]) ++ ['/'] := by
  have hne : encoded n ≠ [] := percent_encode_ne_nil (utf8_lossy_ne_nil n.legal.1)
  have hlast : (member_href base (ns ++ [n])).getLast? ≠ some '/' := by
    obtain ⟨init, c, hc⟩ := (List.eq_nil_or_concat (encoded n)).resolve_left hne
    have hend := encoded_last n
    rw [hc, List.concat_eq_append, List.getLast?_concat] at hend
    rw [member_href_append, hc, List.concat_eq_append, ← List.cons_append, ← List.append_assoc,
      List.getLast?_concat]
    exact hend
  unfold normalize_href
  rw [if_pos ⟨rfl, hlast⟩]

/-- The metadata of what stands at a path. -/
def metadata_at (disk : Disk) (q : Path) (x : Node) : Metadata where
  is_dir := x = .dir
  len := size_of disk q x
  mtime := (disk.attr q).mtime
  btime := (disk.attr q).btime

/-- What the scan reports of an entry whose type it knows. -/
def scanned (disk : Disk) (q : Path) (n : Name) (x : Node) : DirEntryMeta where
  name := n
  is_dir := x = .dir
  size := size_of disk q x
  modified := timestamp_to_systemtime (disk.attr q).mtime
  created := stx_created (metadata_at disk q x)

section Tree

variable {disk : Disk} {scan : Scan} {p : Path}

theorem metadata_real {q : Path} {x : Node} (hx : disk.fs.node q = some x)
    (hlink : ∀ t, x ≠ .symlink t) : disk.metadata q = some (metadata_at disk q x) := by
  unfold Disk.metadata
  rw [follow_self ⟨x, hx, hlink⟩]
  dsimp only
  rw [hx]
  rfl

theorem metadata_member (hfree : LinkFree disk.fs p) {ns : List Name} {x : Node}
    (hx : disk.fs.node (p ++ ns) = some x) :
    disk.metadata (p ++ ns) = some (metadata_at disk (p ++ ns) x) := by
  apply metadata_real hx
  intro t heq
  rw [heq] at hx
  exact hfree _ t (List.prefix_append _ _) hx

theorem dir_entry_some (hfree : LinkFree disk.fs p) {ns : List Name} {n : Name} {x : Node}
    {child : DirEntryMeta} (hx : disk.fs.node (p ++ (ns ++ [n])) = some x)
    (h : dir_entry disk scan (p ++ ns) n = some child) :
    child = scanned disk (p ++ (ns ++ [n])) n x := by
  have hassoc : p ++ ns ++ [n] = p ++ (ns ++ [n]) := List.append_assoc _ _ _
  -- the type from the directory and the one from `statx` agree
  have htype : (if scan.type_error (p ++ (ns ++ [n])) then
      (metadata_at disk (p ++ (ns ++ [n])) x).is_dir
      else decide (disk.fs.node (p ++ (ns ++ [n])) = some .dir)) = decide (x = .dir) := by
    split
    · rfl
    · rw [hx]
      simp
  unfold dir_entry at h
  rw [hassoc] at h
  split at h
  · cases h
  · rw [metadata_member hfree hx, Option.map_some, Option.some.injEq, htype] at h
    exact h.symm

/-- Every entry a scan reports stands in the directory, and is reported as it is. -/
theorem mem_batch (hfree : LinkFree disk.fs p) {ns : List Name} {children : List DirEntryMeta}
    (hdir : disk.fs.node (p ++ ns) = some .dir)
    (h : batch_read_dir_entries disk scan (p ++ ns) = some children) :
    ∀ child ∈ children, ∃ n x, disk.fs.node (p ++ (ns ++ [n])) = some x ∧
      child = scanned disk (p ++ (ns ++ [n])) n x := by
  intro child hchild
  unfold batch_read_dir_entries at h
  rw [follow_self ⟨.dir, hdir, by simp⟩] at h
  dsimp only at h
  split at h
  · cases h
  · cases h
    obtain ⟨n, hn, hentry⟩ := List.mem_filterMap.mp hchild
    have hnode : disk.fs.node (p ++ ns ++ [n]) ≠ none :=
      Fs.mem_children.mp ((scan.order_perm _ _).mem_iff.mp hn)
    rw [List.append_assoc] at hnode
    obtain ⟨x, hx⟩ := Option.ne_none_iff_exists'.mp hnode
    exact ⟨n, x, hx, dir_entry_some hfree hx hentry⟩

/-- The entry of the member the names lead to. -/
def Describes (types : Option (List UInt8) → Option String) (disk : Disk) (base : List Char)
    (p : Path) (ns : List Name) (e : PropEntry) : Prop :=
  ∃ init n x, ns = init ++ [n] ∧ disk.fs.node (p ++ ns) = some x ∧
    e = child_entry types (member_href base init ++ ['/']) (scanned disk (p ++ ns) n x)

theorem describes_child (types : Option (List UInt8) → Option String) (base : List Char)
    (hfree : LinkFree disk.fs p) {ns : List Name} {children : List DirEntryMeta}
    (hdir : disk.fs.node (p ++ ns) = some .dir)
    (h : batch_read_dir_entries disk scan (p ++ ns) = some children) :
    ∀ e ∈ children.map (child_entry types (member_href base ns ++ ['/'])),
      ∃ ms, Describes types disk base p ms e := by
  intro e he
  obtain ⟨child, hchild, rfl⟩ := List.mem_map.mp he
  obtain ⟨n, x, hx, heq⟩ := mem_batch hfree hdir h child hchild
  refine ⟨ns ++ [n], ns, n, x, rfl, hx, ?_⟩
  rw [← heq]

/-- The traversal is at directories below the target, each with its href. -/
def OnTrack (disk : Disk) (base : List Char) (p : Path) (stack : List (Path × List Char)) : Prop :=
  ∀ d ∈ stack, ∃ ns, d = (p ++ ns, member_href base ns ++ ['/']) ∧
    disk.fs.node (p ++ ns) = some .dir

theorem on_track_subdirs (base : List Char) (hfree : LinkFree disk.fs p) {ns : List Name}
    {children : List DirEntryMeta} (hdir : disk.fs.node (p ++ ns) = some .dir)
    (h : batch_read_dir_entries disk scan (p ++ ns) = some children) :
    OnTrack disk base p (subdirs (p ++ ns) (member_href base ns ++ ['/']) children) := by
  intro d hd
  obtain ⟨child, hchild, hsub⟩ := List.mem_filterMap.mp hd
  obtain ⟨n, x, hx, heq⟩ := mem_batch hfree hdir h child hchild
  rw [heq] at hsub
  split at hsub
  · rename_i hisdir
    have hxdir : x = .dir := by simpa [scanned] using hisdir
    have hhref : child_href (member_href base ns ++ ['/']) n = member_href base (ns ++ [n]) := by
      rw [member_href_append, child_href, List.append_assoc]
      rfl
    rw [Option.some.injEq] at hsub
    refine ⟨ns ++ [n], ?_, ?_⟩
    · rw [← hsub]
      change (p ++ ns ++ [n], normalize_href (child_href (member_href base ns ++ ['/']) n) true) = _
      rw [hhref, normalize_member, List.append_assoc]
    · rw [hx, hxdir]
  · cases hsub

/-- One directory of the traversal after the other. -/
theorem collect_loop_describes (types : Option (List UInt8) → Option String) (base : List Char)
    (hfree : LinkFree disk.fs p) {fuel : ℕ} {stack : List (Path × List Char)}
    {entries es : List PropEntry} (hstack : OnTrack disk base p stack)
    (hentries : ∀ e ∈ entries, ∃ ns, Describes types disk base p ns e)
    (h : collect_loop types disk scan fuel stack entries = some es) :
    ∀ e ∈ es, ∃ ns, Describes types disk base p ns e := by
  induction fuel generalizing stack entries with
  | zero =>
    cases stack with
    | nil =>
      cases h
      exact hentries
    | cons d stack => cases h
  | succ fuel ih =>
    cases stack with
    | nil =>
      cases h
      exact hentries
    | cons d stack =>
      obtain ⟨ns, rfl, hdir⟩ := hstack d List.mem_cons_self
      have hrest : OnTrack disk base p stack := fun d hd => hstack d (List.mem_cons_of_mem _ hd)
      unfold collect_loop at h
      split at h
      · exact ih hrest hentries h
      · rename_i children hbatch
        refine ih ?_ ?_ h
        · intro d hd
          rcases List.mem_append.mp hd with hd | hd
          · exact on_track_subdirs base hfree hdir hbatch d (List.mem_reverse.mp hd)
          · exact hrest d hd
        · intro e he
          rcases List.mem_append.mp he with he | he
          · exact hentries e he
          · exact describes_child types base hfree hdir hbatch e he

end Tree

/-! ## The traversal ends -/

section Ends

variable {disk : Disk} {scan : Scan} {p : Path}

/-- The known paths at a directory and below it. -/
def subtree (fs : Fs) (d : Path) : Finset Path := fs.known.toFinset.filter (d <+: ·)

theorem subtree_children (fs : Fs) (d : Path) {names : List Name} (hnodup : names.Nodup) :
    (names.map fun n => (subtree fs (d ++ [n])).card).sum
      = ((subtree fs d).filter fun q => ∃ n ∈ names, d ++ [n] <+: q).card := by
  induction names with
  | nil => simp
  | cons n names ih =>
    rw [List.nodup_cons] at hnodup
    have hdisjoint : Disjoint (subtree fs (d ++ [n]))
        ((subtree fs d).filter fun q => ∃ m ∈ names, d ++ [m] <+: q) := by
      rw [Finset.disjoint_left]
      intro q hq hother
      obtain ⟨-, m, hm, hmq⟩ := Finset.mem_filter.mp hother
      have hnq : d ++ [n] <+: q := (Finset.mem_filter.mp hq).2
      -- two entries of one directory on the way to one path are the same
      have heq : d ++ [n] = d ++ [m] := by
        apply List.IsPrefix.eq_of_length (List.prefix_of_prefix_length_le hnq hmq (by simp))
        simp
      have hnm : n = m := by simpa using heq
      rw [hnm] at hnodup
      exact hnodup.1 hm
    have hunion : ((subtree fs d).filter fun q => ∃ m ∈ n :: names, d ++ [m] <+: q)
        = subtree fs (d ++ [n]) ∪ (subtree fs d).filter fun q => ∃ m ∈ names, d ++ [m] <+: q := by
      ext q
      have hbelow : d ++ [n] <+: q → d <+: q := fun h => (List.prefix_append _ _).trans h
      have hcons : (∃ m ∈ n :: names, d ++ [m] <+: q) ↔
          d ++ [n] <+: q ∨ ∃ m ∈ names, d ++ [m] <+: q := by simp
      rw [Finset.mem_union, Finset.mem_filter, hcons, Finset.mem_filter]
      unfold subtree
      rw [Finset.mem_filter, Finset.mem_filter]
      tauto
    rw [List.map_cons, List.sum_cons, ih hnodup.2, hunion, Finset.card_union_of_disjoint hdisjoint]

/-- A directory weighs more than its subdirectories together. -/
theorem subtree_lt {fs : Fs} {d : Path} (hd : fs.node d ≠ none) {names : List Name}
    (hnodup : names.Nodup) :
    (names.map fun n => (subtree fs (d ++ [n])).card).sum < (subtree fs d).card := by
  rw [subtree_children fs d hnodup]
  apply Finset.card_lt_card
  rw [Finset.ssubset_iff_of_subset (Finset.filter_subset _ _)]
  refine ⟨d, ?_, ?_⟩
  · exact Finset.mem_filter.mpr ⟨List.mem_toFinset.mpr (fs.mem_known d hd), List.prefix_refl d⟩
  · intro hmem
    obtain ⟨-, n, -, hn⟩ := Finset.mem_filter.mp hmem
    have hlen := hn.length_le
    rw [List.length_append, List.length_singleton] at hlen
    omega

/-- What the directories of a stack weigh. -/
def weight (fs : Fs) (stack : List (Path × List Char)) : ℕ :=
  (stack.map fun d => (subtree fs d.1).card).sum

theorem weight_append (fs : Fs) (xs ys : List (Path × List Char)) :
    weight fs (xs ++ ys) = weight fs xs + weight fs ys := by
  unfold weight
  rw [List.map_append, List.sum_append]

theorem weight_reverse (fs : Fs) (xs : List (Path × List Char)) :
    weight fs xs.reverse = weight fs xs := by
  unfold weight
  rw [List.map_reverse, List.sum_reverse]

theorem dir_entry_name {dir : Path} {n : Name} {child : DirEntryMeta}
    (h : dir_entry disk scan dir n = some child) : child.name = n := by
  unfold dir_entry at h
  split at h
  · cases h
  · obtain ⟨m, -, rfl⟩ := Option.map_eq_some_iff.mp h
    rfl

theorem weight_subdirs {dir : Path} (href : List Char) {children : List DirEntryMeta}
    (hdir : disk.fs.node dir = some .dir)
    (h : batch_read_dir_entries disk scan dir = some children) :
    weight disk.fs (subdirs dir href children) < (subtree disk.fs dir).card := by
  have hsome : disk.fs.node dir ≠ none := by
    rw [hdir]
    simp
  -- the names of the subdirectories are names of entries, each once
  have hnames : ∃ names : List Name, names.Nodup ∧
      (subdirs dir href children).map Prod.fst = names.map fun n => dir ++ [n] := by
    unfold batch_read_dir_entries at h
    rw [follow_self ⟨.dir, hdir, by simp⟩] at h
    dsimp only at h
    split at h
    · cases h
    · cases h
      have hnodup : (scan.order dir (disk.fs.children dir)).Nodup :=
        (scan.order_perm _ _).nodup_iff.mpr (Fs.children_nodup _)
      generalize scan.order dir (disk.fs.children dir) = names at hnodup
      refine ⟨names.filter fun n => ((dir_entry disk scan dir n).map DirEntryMeta.is_dir).getD false,
        hnodup.filter _, ?_⟩
      clear hnodup
      induction names with
      | nil => rfl
      | cons n names ih =>
        unfold subdirs at ih ⊢
        cases hentry : dir_entry disk scan dir n with
        | none =>
          rw [List.filterMap_cons_none hentry, List.filter_cons_of_neg (by simp [hentry])]
          exact ih
        | some child =>
          have hname := dir_entry_name hentry
          rw [List.filterMap_cons_some hentry]
          by_cases hchild : child.is_dir = true
          · rw [List.filterMap_cons_some (by rw [if_pos hchild]),
              List.filter_cons_of_pos (by simp [hentry, hchild]), List.map_cons, List.map_cons, ih,
              hname]
          · rw [List.filterMap_cons_none (by rw [if_neg hchild]),
              List.filter_cons_of_neg (by simp [hentry, hchild])]
            exact ih
  obtain ⟨names, hnodup, hmap⟩ := hnames
  have hsum : weight disk.fs (subdirs dir href children)
      = (names.map fun n => (subtree disk.fs (dir ++ [n])).card).sum := by
    unfold weight
    have hcomp := congrArg (List.map fun q => (subtree disk.fs q).card) hmap
    rw [List.map_map, List.map_map] at hcomp
    exact congrArg List.sum hcomp
  rw [hsum]
  exact subtree_lt hsome hnodup

/-- With as much fuel as there are paths to see, the traversal ends. -/
theorem collect_loop_ends (types : Option (List UInt8) → Option String) (base : List Char)
    (hfree : LinkFree disk.fs p) {fuel : ℕ} {stack : List (Path × List Char)}
    (entries : List PropEntry) (hstack : OnTrack disk base p stack)
    (hfuel : weight disk.fs stack ≤ fuel) :
    collect_loop types disk scan fuel stack entries ≠ none := by
  -- on the fuel: a round takes a directory off the stack, and with it one path at least
  induction fuel generalizing stack entries with
  | zero =>
    cases stack with
    | nil => simp [collect_loop]
    | cons d stack =>
      obtain ⟨ns, rfl, hdir⟩ := hstack d List.mem_cons_self
      have hpos := @subtree_lt disk.fs (p ++ ns) (by rw [hdir]; simp) [] List.nodup_nil
      unfold weight at hfuel
      rw [List.map_cons, List.sum_cons] at hfuel
      dsimp only at hfuel
      omega
  | succ fuel ih =>
    cases stack with
    | nil => simp [collect_loop]
    | cons d stack =>
      obtain ⟨ns, rfl, hdir⟩ := hstack d List.mem_cons_self
      have hrest : OnTrack disk base p stack := fun d hd => hstack d (List.mem_cons_of_mem _ hd)
      have hsplit : weight disk.fs ((p ++ ns, member_href base ns ++ ['/']) :: stack)
          = (subtree disk.fs (p ++ ns)).card + weight disk.fs stack := by
        unfold weight
        rw [List.map_cons, List.sum_cons]
      rw [hsplit] at hfuel
      unfold collect_loop
      split
      · have hpos := @subtree_lt disk.fs (p ++ ns) (by rw [hdir]; simp) [] List.nodup_nil
        exact ih _ hrest (by omega)
      · rename_i children hbatch
        have hlt := weight_subdirs (member_href base ns ++ ['/']) hdir hbatch
        apply ih
        -- what is pushed are directories below the same base
        · intro d hd
          rcases List.mem_append.mp hd with hd | hd
          · exact on_track_subdirs base hfree hdir hbatch d (List.mem_reverse.mp hd)
          · exact hrest d hd
        · rw [weight_append, weight_reverse]
          omega

end Ends

/-- Every entry after the target's own is a member's. -/
theorem collect_entries_describes {types : Option (List UInt8) → Option String} {disk : Disk}
    {scan : Scan} {fuel : ℕ} {p : Path} {request_path : List Char} {depth : Depth}
    {es : List PropEntry} (hreal : disk.fs.Real p) (hfree : LinkFree disk.fs p)
    (h : collect_entries types disk scan fuel p request_path depth = some es) :
    ∀ e ∈ es.tail, ∃ ns, Describes types disk (base_of request_path) p ns e := by
  have hnil : p ++ [] = p := List.append_nil p
  have hroot := root_href request_path
  unfold collect_entries at h
  split at h
  · cases h
    simp
  · rename_i m hm
    dsimp only at h
    split at h
    · rename_i hdeep
      -- the target is a directory, and not a link to one
      have hdir : disk.fs.node (p ++ []) = some .dir := by
        rw [hnil]
        obtain ⟨x, hx, hlink⟩ := hreal
        rw [metadata_real hx hlink] at hm
        cases hm
        rw [hx]
        have hisdir := hdeep.1
        simpa [metadata_at] using hisdir
      split at h
      · cases h
        rw [List.tail_cons]
        unfold collect_direct_children
        split
        · simp
        · rename_i children hbatch
          rw [← hroot]
          rw [← hnil] at hbatch
          exact describes_child types _ hfree hdir hbatch
      · obtain ⟨ms, hms, rfl⟩ := Option.map_eq_some_iff.mp h
        rw [List.tail_cons]
        unfold collect_descendants at hms
        refine collect_loop_describes types _ hfree ?_ (by simp) hms
        intro d hd
        rw [List.mem_singleton] at hd
        refine ⟨[], ?_, hdir⟩
        rw [hd, hnil, hroot]
    · cases h
      simp

/-! ## The dates of the entries -/

theorem to_systemtime_eq {t : Timestamp} (h : 0 ≤ t.tv_sec) :
    timestamp_to_systemtime t = t.to_system_time := if_pos h

/-- Before the epoch the two conversions differ, and neither is reported. -/
theorem to_systemtime_before {t : Timestamp} (h : t.tv_sec < 0) :
    timestamp_to_systemtime t < 0 ∧ t.to_system_time < 0 := by
  have hlt := t.nsec_lt
  unfold NANOS at hlt
  unfold timestamp_to_systemtime Timestamp.to_system_time NANOS
  rw [if_neg (not_le.mpr h)]
  constructor
  · show -(-t.tv_sec * (1000000000 : ℕ) + t.tv_nsec : ℤ) < 0
    push_cast
    omega
  · show (t.tv_sec * (1000000000 : ℕ) + t.tv_nsec : ℤ) < 0
    push_cast
    omega

theorem format_systemtime (t : Timestamp) :
    secs_since_epoch (timestamp_to_systemtime t) = secs_since_epoch t.to_system_time ∧
      format_rfc1123 (timestamp_to_systemtime t) = format_rfc1123 t.to_system_time ∧
      format_rfc3339 (timestamp_to_systemtime t) = format_rfc3339 t.to_system_time := by
  by_cases h : 0 ≤ t.tv_sec
  · rw [to_systemtime_eq h]
    exact ⟨rfl, rfl, rfl⟩
  · obtain ⟨hscan, hmeta⟩ := to_systemtime_before (not_le.mp h)
    have hs : secs_since_epoch (timestamp_to_systemtime t) = none := if_neg (not_le.mpr hscan)
    have hm : secs_since_epoch t.to_system_time = none := if_neg (not_le.mpr hmeta)
    rw [hs, hm, (format_before hs).2.1, (format_before hs).2.2, (format_before hm).2.1,
      (format_before hm).2.2]
    exact ⟨rfl, rfl, rfl⟩

theorem systemtime_returns (t : Timestamp) : Return (timestamp_to_systemtime t) := by
  by_cases h : 0 ≤ t.tv_sec
  · rw [to_systemtime_eq h]
    exact timestamp_returns t
  · have hnone : secs_since_epoch (timestamp_to_systemtime t) = none :=
      if_neg (not_le.mpr (to_systemtime_before (not_le.mp h)).1)
    unfold Return
    rw [(format_before hnone).1, (format_before hnone).2.1, (format_before hnone).2.2]
    exact ⟨rfl, rfl, rfl⟩

/-- The modification time of an entry is one of a file system. -/
theorem entry_modified {disk : Disk} {scan : Scan} {dir : Path} {n : Name} {child : DirEntryMeta}
    (h : dir_entry disk scan dir n = some child) : Return child.modified := by
  unfold dir_entry at h
  split at h
  · cases h
  · obtain ⟨stx, -, rfl⟩ := Option.map_eq_some_iff.mp h
    exact systemtime_returns _

/-- The times of an entry that was scanned can be written. -/
theorem child_dated (types : Option (List UInt8) → Option String) {disk : Disk} {scan : Scan}
    {dir : Path} {n : Name} {child : DirEntryMeta} (base : List Char)
    (h : dir_entry disk scan dir n = some child) : (child_entry types base child).Dated := by
  have hmodified := entry_modified h
  unfold dir_entry at h
  split at h
  · cases h
  · obtain ⟨stx, -, rfl⟩ := Option.map_eq_some_iff.mp h
    refine ⟨hmodified.2.1, fun st hst => ?_⟩
    change stx_created stx = some st at hst
    unfold stx_created at hst
    split at hst
    · cases hst
    · split at hst
      · cases hst
      · cases hst
        exact (systemtime_returns _).2.2

/-- What a scan reports are entries of the directory. -/
theorem batch_entries {disk : Disk} {scan : Scan} {dir_path : Path} {children : List DirEntryMeta}
    (h : batch_read_dir_entries disk scan dir_path = some children) :
    ∀ child ∈ children, ∃ dir n, dir_entry disk scan dir n = some child := by
  intro child hchild
  unfold batch_read_dir_entries at h
  split at h
  · cases h
  · split at h
    · cases h
    · cases h
      obtain ⟨n, -, hn⟩ := List.mem_filterMap.mp hchild
      exact ⟨_, n, hn⟩

theorem children_dated (types : Option (List UInt8) → Option String) {disk : Disk} {scan : Scan}
    {dir : Path} {children : List DirEntryMeta} (base : List Char)
    (h : batch_read_dir_entries disk scan dir = some children) :
    ∀ e ∈ children.map (child_entry types base), e.Dated := by
  intro e he
  obtain ⟨child, hchild, rfl⟩ := List.mem_map.mp he
  obtain ⟨dir, n, hn⟩ := batch_entries h child hchild
  exact child_dated types base hn

theorem base_dated (types : Option (List UInt8) → Option String) (fs_path : Path)
    (request_path : List Char) (m : Metadata) : (base_entry types fs_path request_path m).Dated := by
  refine ⟨(timestamp_returns _).2.1, fun st hst => ?_⟩
  obtain ⟨t, -, rfl⟩ := Option.map_eq_some_iff.mp hst
  exact (timestamp_returns t).2.2

theorem collect_loop_dated (types : Option (List UInt8) → Option String) {disk : Disk}
    {scan : Scan} {fuel : ℕ} {stack : List (Path × List Char)} {entries es : List PropEntry}
    (hentries : ∀ e ∈ entries, e.Dated)
    (h : collect_loop types disk scan fuel stack entries = some es) : ∀ e ∈ es, e.Dated := by
  induction fuel generalizing stack entries with
  | zero =>
    cases stack with
    | nil =>
      cases h
      exact hentries
    | cons d stack => cases h
  | succ fuel ih =>
    cases stack with
    | nil =>
      cases h
      exact hentries
    | cons d stack =>
      unfold collect_loop at h
      split at h
      · exact ih hentries h
      · rename_i children hbatch
        refine ih (fun e he => ?_) h
        rcases List.mem_append.mp he with hold | hnew
        · exact hentries e hold
        · exact children_dated types _ hbatch e hnew

/-- **Every date a PROPFIND may be asked for can be written**: it comes from a time that
a file system keeps. -/
theorem collect_entries_dated {types : Option (List UInt8) → Option String} {disk : Disk}
    {scan : Scan} {fuel : ℕ} {p : Path} {request_path : List Char} {depth : Depth}
    {es : List PropEntry} (h : collect_entries types disk scan fuel p request_path depth = some es) :
    ∀ e ∈ es, e.Dated := by
  unfold collect_entries at h
  split at h
  · cases h
    exact List.forall_mem_nil _
  · rename_i m hm
    dsimp only at h
    split at h
    · split at h
      · cases h
        rw [List.forall_mem_cons]
        refine ⟨base_dated types p request_path m, ?_⟩
        unfold collect_direct_children
        split
        · exact List.forall_mem_nil _
        · rename_i children hbatch
          exact children_dated types _ hbatch
      · obtain ⟨ms, hms, rfl⟩ := Option.map_eq_some_iff.mp h
        rw [List.forall_mem_cons]
        exact ⟨base_dated types p request_path m,
          collect_loop_dated types (List.forall_mem_nil _) hms⟩
    · cases h
      rw [List.forall_mem_singleton]
      exact base_dated types p request_path m

theorem Server.join_dated (s : Server) {e : PropEntry} (h : e.Dated) : (s.join_stores e).Dated := by
  unfold Server.join_stores
  split
  · exact h
  · exact ⟨h.modified, h.created⟩

/-- So every PROPFIND whose traversal ends is answered, element by element. -/
theorem Server.responses_written (s : Server) {fuel : ℕ} {depth : Depth} {request_path : List Char}
    (prop_request : PropRequest) {p : Path} {es : List PropEntry}
    (hp : s.resolve_existing request_path = some p)
    (hes : collect_entries s.types s.disk s.scan fuel p request_path depth = some es) :
    ∃ rs, s.handle_propfind fuel depth request_path (some prop_request) = some (.ok rs) ∧
      List.Forall₂ (fun e r => write_response prop_request (s.join_stores e) = some r) es rs := by
  have hall : ∀ e ∈ es.map s.join_stores, (write_response prop_request e).isSome = true := by
    intro e he
    obtain ⟨e', he', rfl⟩ := List.mem_map.mp he
    exact (write_response_isSome _ _).mpr
      ((s.join_dated (collect_entries_dated hes e' he')).formats prop_request)
  obtain ⟨rs, hrs⟩ := Option.isSome_iff_exists.mp (Str.mapM_isSome_iff.mpr hall)
  refine ⟨rs, ?_, List.forall₂_map_left_iff.mp (Str.mapM_some_iff.mp hrs)⟩
  unfold Server.handle_propfind
  rw [hp]
  dsimp only
  rw [hes, Option.bind_eq_bind, Option.bind_some, hrs]
  rfl

/-! ## The two entries of a member -/

/-- Whether the birth time is one the scan takes for none. -/
def BornAtEpoch (disk : Disk) (q : Path) : Prop :=
  ∃ t, (disk.attr q).btime = some t ∧ t.tv_sec = 0 ∧ t.tv_nsec = 0

theorem created_eq_iff (disk : Disk) (q : Path) (x : Node) :
    ((stx_created (metadata_at disk q x)).map format_rfc3339).getD (some [])
        = ((metadata_at disk q x).created.map format_rfc3339).getD (some []) ↔
      ¬ BornAtEpoch disk q := by
  unfold stx_created Metadata.created BornAtEpoch metadata_at
  dsimp only
  cases hb : (disk.attr q).btime with
  | none => simp
  | some t =>
    dsimp only
    have hiff : (∃ u, some t = some u ∧ u.tv_sec = 0 ∧ u.tv_nsec = 0)
        ↔ t.tv_sec = 0 ∧ t.tv_nsec = 0 := by
      constructor
      · rintro ⟨u, hu, hzero⟩
        cases hu
        exact hzero
      · intro hzero
        exact ⟨t, rfl, hzero⟩
    rw [hiff]
    by_cases hzero : t.tv_sec = 0 ∧ t.tv_nsec = 0
    · -- the epoch itself is a date where metadata is asked, and none where the scan is
      have hepoch : t.to_system_time = 0 := by
        unfold Timestamp.to_system_time
        rw [hzero.1, hzero.2]
        rfl
      rw [if_pos hzero]
      simp [hepoch, format_epoch, hzero]
    · rw [if_neg hzero]
      simp [(format_systemtime t).2.2, hzero]

theorem write_activelock_ne_nil (l : LockInfo) : write_activelock l ≠ [] := by
  unfold write_activelock element
  simp

/-- The lock discovery of an entry without locks, and of one with some. -/
theorem lockdiscovery_eq_iff {a b : PropEntry} (ha : a.active_locks = none) :
    live_prop a "lockdiscovery" = live_prop b "lockdiscovery" ↔ b.active_locks.getD [] = [] := by
  have hlive : ∀ e : PropEntry, live_prop e "lockdiscovery" = some
      (element El.LOCK_DISCOVERY ((e.active_locks.getD []).flatMap write_activelock)) := fun _ => rfl
  rw [hlive, hlive, ha]
  cases hlocks : b.active_locks.getD [] with
  | nil => simp
  | cons l ls =>
    obtain ⟨e, es, hcons⟩ := List.exists_cons_of_ne_nil (write_activelock_ne_nil l)
    simp [element, hcons]

theorem creationdate_eq_iff {a b : PropEntry} :
    live_prop a "creationdate" = live_prop b "creationdate" ↔
      (a.created.map format_rfc3339).getD (some []) = (b.created.map format_rfc3339).getD (some []) := by
  have hlive : ∀ e : PropEntry, live_prop e "creationdate"
      = ((e.created.map format_rfc3339).getD (some [])).map fun date =>
        write_prop_text El.CREATION_DATE (String.ofList date) := fun _ => rfl
  have hinj : Function.Injective fun date : List Char =>
      write_prop_text El.CREATION_DATE (String.ofList date) := by
    intro x y hxy
    exact String.ofList_inj.mp (by simpa [write_prop_text, element] using hxy)
  rw [hlive, hlive]
  exact (Option.map_injective hinj).eq_iff

section Member

variable (s : Server) {base : List Char} {p : Path} {ns : List Name} {e : PropEntry}

/-- The entry of a PROPFIND of depth zero on what stands at a path. -/
def Server.own_entry (q : Path) (href : List Char) (x : Node) : PropEntry :=
  s.join_stores (base_entry s.types q href (metadata_at s.disk q x))

/-- The entry of a member and the one of its own PROPFIND. -/
theorem twins_member (parent_href href : List Char) (init : List Name) (n : Name) (x : Node) :
    Twins (child_entry s.types parent_href (scanned s.disk (p ++ (init ++ [n])) n x))
      (s.own_entry (p ++ (init ++ [n])) href x) := by
  have hformat := format_systemtime (s.disk.attr (p ++ (init ++ [n]))).mtime
  have hlast : (p ++ (init ++ [n])).getLast? = some n := by
    rw [← List.append_assoc, List.getLast?_concat]
  refine Twins.of_fields rfl rfl ?_ hformat.1 hformat.2.1
  change (if _ then none else guess_content_type s.types (some n))
    = (if _ then none else guess_content_type s.types (p ++ (init ++ [n])).getLast?)
  rw [hlast]
  rfl

end Member

/-! ## A member's element and its own PROPFIND -/

section Consistency

variable (s : Server)

/-- The element a PROPFIND on `p` gives for the member the names lead to. -/
def Server.Gives (request_path : List Char) (prop_request : PropRequest) (p : Path)
    (ns : List Name) (r : Response) : Prop :=
  ∃ e, Describes s.types s.disk (base_of request_path) p ns e ∧
    write_response prop_request e = some r

/-- The PROPFIND of depth zero on the href of an element is about `c`, and reports the
same properties with the same values and statuses. -/
def Server.Agrees (prop_request : PropRequest) (r : Response) (c : Path) : Prop :=
  s.resolve_existing r.href = some c ∧
    ∃ own, s.handle_propfind 0 .Zero r.href (some prop_request) = some (.ok [own]) ∧
      SameReport r own

/-- When it is: the names are text, and the request is for names only, or finds
nothing at the member that the scan does not see. -/
def Server.Meets (prop_request : PropRequest) (p : Path) (ns : List Name) : Prop :=
  (∀ n ∈ ns, Unicode n) ∧
    (prop_request = .PropName ∨
      ((∀ dead, s.app.dead_props.lookup (p ++ ns) = some dead → dead.entries = []) ∧
        (Asks prop_request "creationdate" → ¬ BornAtEpoch s.disk (p ++ ns)) ∧
        (Asks prop_request "lockdiscovery" → Ls.active_slice s.now (s.app.locks.at (p ++ ns)) = [])))

variable {s}

theorem own_locks (q : Path) :
    (Locks.active_locks s.now s.app.locks (some q)).getD []
      = Ls.active_slice s.now (s.app.locks.at q) := by
  have hat : s.app.locks.at q = (s.app.locks.lookup q).getD [] := rfl
  unfold Locks.active_locks
  rw [hat, Option.bind_some]
  cases s.app.locks.lookup q with
  | none => rfl
  | some infos =>
    rw [Option.bind_some, Option.getD_some]
    dsimp only
    split
    · rename_i hempty
      rw [List.isEmpty_iff.mp hempty]
      rfl
    · rfl

/-- A PROPFIND of depth zero is answered with the entry of its target. -/
theorem propfind_zero {q : Path} {href : List Char} {x : Node} (fuel : ℕ)
    (prop_request : PropRequest) (hq : s.resolve_existing href = some q) (hx : s.disk.fs.node q = some x)
    (hlink : ∀ t, x ≠ .symlink t) :
    ∃ own, s.handle_propfind fuel .Zero href (some prop_request) = some (.ok [own]) ∧
      write_response prop_request (s.own_entry q href x) = some own := by
  have hes : collect_entries s.types s.disk s.scan fuel q href .Zero
      = some [base_entry s.types q href (metadata_at s.disk q x)] := by
    unfold collect_entries
    rw [metadata_real hx hlink]
    dsimp only
    rw [if_neg (by simp)]
  obtain ⟨rs, hrs, hall⟩ := s.responses_written prop_request hq hes
  cases hall with
  | cons hown hnil =>
    cases hnil
    exact ⟨_, hrs, hown⟩

/-- **A member's element agrees with the member's own PROPFIND exactly when** its name
is text and the scan misses nothing that is asked for. -/
theorem agrees_iff {request_path : List Char} {prop_request : PropRequest} {p : Path}
    {ns : List Name} {r : Response} (hp : s.resolve_existing request_path = some p)
    (hfree : LinkFree s.disk.fs p) (hr : s.Gives request_path prop_request p ns r) :
    s.Agrees prop_request r (p ++ ns) ↔ s.Meets prop_request p ns := by
  obtain ⟨e, ⟨init, n, x, hns, hx, he⟩, hre⟩ := hr
  have hhref : r.href = member_href (base_of request_path) ns := by
    rw [write_response_href hre, he, hns, member_href_append]
    change (member_href (base_of request_path) init ++ ['/']) ++ encoded n = _
    rw [List.append_assoc]
    rfl
  have hns' : ns ≠ [] := by
    rw [hns]
    simp
  -- the href leads to the member, if its names are text
  have hresolve : s.resolve_existing r.href = some (p ++ ns) ↔ ∀ n ∈ ns, Unicode n := by
    rw [hhref]
    unfold Server.resolve_existing at hp ⊢
    rw [resolve_member_iff (base_of_base request_path) hp hfree hns', List.append_cancel_left_eq,
      eq_comm, map_lossy_eq_iff, hx]
    simp
  -- the two entries differ in what is joined by path, and in a birth at the epoch
  have hlink : ∀ t, x ≠ .symlink t := by
    intro t heq
    rw [heq] at hx
    exact hfree _ t (List.prefix_append _ _) hx
  have htwins :=
    twins_member (p := p) s (member_href (base_of request_path) init ++ ['/']) r.href init n x
  rw [← hns, ← he] at htwins
  have hdead : e.NoDead := by
    intro dead hd
    rw [he] at hd
    cases hd
  have hlocks : e.active_locks = none := by rw [he]; rfl
  have hown : (s.own_entry (p ++ ns) r.href x).active_locks.getD []
      = Ls.active_slice s.now (s.app.locks.at (p ++ ns)) := own_locks (p ++ ns)
  have hcreated : live_prop e "creationdate" = live_prop (s.own_entry (p ++ ns) r.href x) "creationdate"
      ↔ ¬ BornAtEpoch s.disk (p ++ ns) := by
    rw [creationdate_eq_iff, ← created_eq_iff s.disk (p ++ ns) x, he]
    exact Iff.rfl
  have hdiscovery :
      live_prop e "lockdiscovery" = live_prop (s.own_entry (p ++ ns) r.href x) "lockdiscovery" ↔
        Ls.active_slice s.now (s.app.locks.at (p ++ ns)) = [] := by
    rw [lockdiscovery_eq_iff hlocks, hown]
  have hreports : ∀ own, write_response prop_request (s.own_entry (p ++ ns) r.href x) = some own →
      (SameReport r own ↔ prop_request = .PropName ∨
        ((∀ dead, s.app.dead_props.lookup (p ++ ns) = some dead → dead.entries = []) ∧
          (Asks prop_request "creationdate" → ¬ BornAtEpoch s.disk (p ++ ns)) ∧
          (Asks prop_request "lockdiscovery" →
            Ls.active_slice s.now (s.app.locks.at (p ++ ns)) = []))) := by
    intro own hown
    rw [same_report_iff hre hown htwins hdead, List.forall_mem_cons, List.forall_mem_singleton,
      hcreated, hdiscovery]
    exact Iff.rfl
  unfold Server.Agrees Server.Meets
  rw [hresolve]
  constructor
  · rintro ⟨htext, own, hzero, hreport⟩
    obtain ⟨own', hzero', hown⟩ := propfind_zero 0 prop_request (hresolve.mpr htext) hx hlink
    rw [hzero'] at hzero
    simp only [Option.some.injEq, Except.ok.injEq, List.cons.injEq, and_true] at hzero
    rw [hzero] at hown
    exact ⟨htext, (hreports own hown).mp hreport⟩
  · rintro ⟨htext, hmeets⟩
    obtain ⟨own, hzero, hown⟩ := propfind_zero 0 prop_request (hresolve.mpr htext) hx hlink
    exact ⟨htext, own, hzero, (hreports own hown).mpr hmeets⟩

/-- Every element after the first is a member's. -/
theorem gives_of_mem {fuel : ℕ} {depth : Depth} {request_path : List Char}
    {prop_request : PropRequest} {p : Path} {rs : List Response}
    (hp : s.resolve_existing request_path = some p) (hfree : LinkFree s.disk.fs p)
    (h : s.handle_propfind fuel depth request_path (some prop_request) = some (.ok rs)) :
    ∀ r ∈ rs.tail, ∃ ns, s.Gives request_path prop_request p ns r := by
  intro r hr
  cases hes : collect_entries s.types s.disk s.scan fuel p request_path depth with
  | none =>
    unfold Server.handle_propfind at h
    rw [hp] at h
    dsimp only at h
    rw [hes] at h
    cases h
  | some es =>
    obtain ⟨rs', hrs, hall⟩ := s.responses_written prop_request hp hes
    rw [hrs] at h
    cases h
    have htail : List.Forall₂ (fun e r => write_response prop_request (s.join_stores e) = some r)
        es.tail rs.tail := by
      cases hall with
      | nil => exact .nil
      | cons _ hrest => exact hrest
    obtain ⟨e, he, hwritten⟩ := Str.exists_of_mem_right htail r hr
    obtain ⟨ns, hns⟩ := collect_entries_describes (Resolve.resolve_existing_real hp) hfree hes e he
    refine ⟨ns, e, hns, ?_⟩
    -- no path, nothing joined
    obtain ⟨init, n, x, -, -, rfl⟩ := hns
    exact hwritten

/-- A PROPFIND of something ends with an answer. -/
theorem propfind_ends (depth : Depth) {request_path : List Char} (prop_request : PropRequest)
    {p : Path} (hp : s.resolve_existing request_path = some p) (hfree : LinkFree s.disk.fs p) :
    ∃ fuel rs, s.handle_propfind fuel depth request_path (some prop_request) = some (.ok rs) := by
  obtain ⟨x, hx, hlink⟩ := Resolve.resolve_existing_real hp
  have hcollect : ∃ fuel es,
      collect_entries s.types s.disk s.scan fuel p request_path depth = some es := by
    refine ⟨weight s.disk.fs [(p, normalize_href request_path true)], ?_⟩
    unfold collect_entries
    rw [metadata_real hx hlink]
    dsimp only
    split
    · rename_i hdeep
      split
      · exact ⟨_, rfl⟩
      · -- the traversal starts at the target, a directory
        have hdir : s.disk.fs.node (p ++ []) = some .dir := by
          rw [List.append_nil, hx]
          simpa [metadata_at] using hdeep.1
        have hstack : OnTrack s.disk (base_of request_path) p
            [(p, normalize_href request_path true)] := by
          intro d hd
          rw [List.mem_singleton] at hd
          refine ⟨[], ?_, hdir⟩
          rw [hd, ← root_href, List.append_nil]
        have hends := @collect_loop_ends s.disk s.scan p s.types _ hfree _ _ [] hstack le_rfl
        obtain ⟨es, hes⟩ := Option.ne_none_iff_exists'.mp hends
        refine ⟨base_entry s.types p request_path (metadata_at s.disk p x) :: es, ?_⟩
        unfold collect_descendants
        rw [hes]
        rfl
    · exact ⟨_, rfl⟩
  obtain ⟨fuel, es, hes⟩ := hcollect
  obtain ⟨rs, hrs, -⟩ := s.responses_written prop_request hp hes
  exact ⟨fuel, rs, hrs⟩

end Consistency

/-- **PROPFIND across depths.** A PROPFIND ends, every element it gives beside its
target's is a member's, and a member's element agrees with the PROPFIND of depth zero on
its own href exactly when the member meets the condition. -/
theorem members_agree_iff {s : Server} (depth : Depth) {request_path : List Char}
    (prop_request : PropRequest) {p : Path} (hp : s.resolve_existing request_path = some p)
    (hfree : LinkFree s.disk.fs p) :
    (∃ fuel rs, s.handle_propfind fuel depth request_path (some prop_request) = some (.ok rs)) ∧
      (∀ fuel rs, s.handle_propfind fuel depth request_path (some prop_request) = some (.ok rs) →
        ∀ r ∈ rs.tail, ∃ ns, s.Gives request_path prop_request p ns r) ∧
      ∀ ns r, s.Gives request_path prop_request p ns r →
        (s.Agrees prop_request r (p ++ ns) ↔ s.Meets prop_request p ns) := by
  refine ⟨propfind_ends depth prop_request hp hfree, ?_, ?_⟩
  · intro fuel rs h
    exact gives_of_mem hp hfree h
  · intro ns r hr
    exact agrees_iff hp hfree hr

/-! ## A member with a dead property -/

def noon : Timestamp where
  tv_sec := 43200
  tv_nsec := 0
  nsec_lt := by decide
  sec_ge := by decide
  sec_lt := by decide

/-- The directory `/d` with the file `f`, which has a dead property. -/
def server_d : Server where
  disk :=
    { fs := disk_df
      attr := fun _ => { dir_size := 4096, mtime := noon, btime := none } }
  scan :=
    { refused := fun _ => false
      unread := fun _ => false
      type_error := fun _ => false
      order := fun _ names => names
      order_perm := fun _ _ => List.Perm.refl _ }
  cwd := []
  app := { AppState.new disk_d [] (PathBuf.of_text "/".toList) 0 with
    dead_props := AList.insert [d_name, f_name] (AList.insert "p" "v" ∅) ∅ }
  now := 0
  types := fun _ => none

theorem resolves_d : server_d.resolve_existing "/d".toList = some [d_name] := by decide

theorem free_d : LinkFree server_d.disk.fs [d_name] := by
  intro q t _ hq
  change (if q = [d_name, f_name] then some (Node.file []) else if q = [d_name] then some Node.dir
    else if q = [] then some Node.dir else none) = _ at hq
  split at hq
  · cases hq
  · split at hq
    · cases hq
    · split at hq <;> cases hq

theorem members_agree_iff_d :
    (∃ fuel rs, server_d.handle_propfind fuel .One "/d".toList (some .AllProp) = some (.ok rs)) ∧
      ∀ r, server_d.Gives "/d".toList .AllProp [d_name] [f_name] r →
        (server_d.Agrees .AllProp r [d_name, f_name] ↔
          server_d.Meets .AllProp [d_name] [f_name]) := by
  obtain ⟨hends, -, hiff⟩ := members_agree_iff .One .AllProp resolves_d free_d
  exact ⟨hends, hiff [f_name]⟩

/-- The element for `/d/f` says nothing of the property that a PROPFIND of `/d/f`
reports. -/
theorem member_property_unseen :
    ¬ ∀ (s : Server) fuel depth request_path prop_request p rs,
      s.resolve_existing request_path = some p → LinkFree s.disk.fs p →
      s.handle_propfind fuel depth request_path (some prop_request) = some (.ok rs) →
      ∀ r ∈ rs.tail, ∀ ns, s.Gives request_path prop_request p ns r →
        s.Agrees prop_request r (p ++ ns) := by
  intro hall
  have hes : collect_entries server_d.types server_d.disk server_d.scan 0 [d_name] "/d".toList .One
      = some [base_entry server_d.types [d_name] "/d".toList (metadata_at server_d.disk [d_name] .dir),
        child_entry server_d.types "/d/".toList
          (scanned server_d.disk [d_name, f_name] f_name (.file []))] := rfl
  obtain ⟨rs, hrs, hall₂⟩ := server_d.responses_written .AllProp resolves_d hes
  obtain ⟨r, hr, hwritten⟩ : ∃ r, r ∈ rs.tail ∧ write_response .AllProp
      (child_entry server_d.types "/d/".toList
        (scanned server_d.disk [d_name, f_name] f_name (.file []))) = some r := by
    cases hall₂ with
    | cons _ hrest =>
      cases hrest with
      | cons hchild _ => exact ⟨_, List.mem_cons_self, hchild⟩
  have hgiven : server_d.Gives "/d".toList .AllProp [d_name] [f_name] r :=
    ⟨_, ⟨[], f_name, .file [], rfl, by decide, rfl⟩, hwritten⟩
  have hagrees := hall server_d 0 .One _ _ _ _ resolves_d free_d hrs r hr [f_name] hgiven
  have hmeets := (agrees_iff resolves_d free_d hgiven).mp hagrees
  obtain ⟨-, hname | ⟨hdead, -⟩⟩ := hmeets
  · cases hname
  · have hnone := hdead (AList.insert "p" "v" ∅) rfl
    cases hnone

end Rshs.Propfind
