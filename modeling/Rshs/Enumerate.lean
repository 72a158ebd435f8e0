/-
PROPFIND enumerates the tree below its target.

The traversal is compared with the tree by sums: whatever number the nodes of the tree are
given, what the traversal reports adds up to the sum over what is below the directories
still on its stack (`collect_loop_total`). One step takes a directory off the stack and
splits its sum over its entries, which is `sum_below`. Counting a single node is one such
sum, so every node is reported once.

The hrefs are told apart by where they lead.
-/
import Rshs.Propfind
import Rshs.Subtree
import Mathlib.Algebra.BigOperators.Group.Finset.Piecewise

set_option autoImplicit false

namespace Rshs.Enumerate

open StdPath Posix Rshs.Webdav Rshs.Xml Rshs.Href Rshs.Resolve Rshs.Propfind

/-! ## What is to be reported -/

/-- A tree of files and directories whose names are text. -/
structure PlainTree (fs : Fs) (p : Path) : Prop where
  links : LinkFree fs p
  text : ∀ q n, p <+: q → fs.node (q ++ [n]) ≠ none → Unicode n ∧ n.has_nul = false

/-- A scan that is refused no directory of the tree and loses no entry. -/
structure Complete (scan : Scan) (p : Path) : Prop where
  refused : ∀ q, p <+: q → scan.refused q = false
  unread : ∀ q, p <+: q → scan.unread q = false

/-- The nodes a PROPFIND of some depth is about. -/
def Reported (fs : Fs) (p : Path) : Depth → Path → Prop
  | .Zero, q => q = p
  | .One, q => q = p ∨ ∃ n ∈ fs.children p, q = p ++ [n]
  | .Infinity, q => q = p ∨ q ∈ fs.below p

/-- An entry says of a node what stands there. -/
def EntryOf (disk : Disk) (q : Path) (e : PropEntry) : Prop :=
  ∃ x, disk.fs.node q = some x ∧ e.is_dir = decide (x = .dir) ∧ e.size = size_of disk q x

/-! ## One directory -/

section Tree

variable {disk : Disk} {scan : Scan} {p : Path} {types : Option (List UInt8) → Option String}
variable {base : List Char} (htree : PlainTree disk.fs p) (hscan : Complete scan p)

/-- What the scan says of an entry of a directory below the target. -/
def Scanned (disk : Disk) (p : Path) (ns : List Name) (n : Name) (child : DirEntryMeta) : Prop :=
  ∃ x, disk.fs.node (p ++ (ns ++ [n])) = some x ∧ child = scanned disk (p ++ (ns ++ [n])) n x

include htree hscan

theorem dir_entry_full {ns : List Name} {n : Name} {x : Node}
    (hx : disk.fs.node (p ++ (ns ++ [n])) = some x) :
    dir_entry disk scan (p ++ ns) n = some (scanned disk (p ++ (ns ++ [n])) n x) := by
  have hassoc : p ++ ns ++ [n] = p ++ (ns ++ [n]) := List.append_assoc _ _ _
  have hsome : disk.fs.node ((p ++ ns) ++ [n]) ≠ none := by
    rw [hassoc, hx]
    simp
  have hname := (htree.text (p ++ ns) n (List.prefix_append _ _) hsome).2
  have hread := hscan.unread (p ++ (ns ++ [n])) (List.prefix_append _ _)
  have hentry : ∃ child, dir_entry disk scan (p ++ ns) n = some child := by
    unfold dir_entry
    rw [hassoc, hname, hread, Bool.or_self, if_neg Bool.false_ne_true,
      metadata_member htree.links hx]
    exact ⟨_, rfl⟩
  obtain ⟨child, hchild⟩ := hentry
  rw [hchild, dir_entry_some htree.links hx hchild]

theorem entries_full {ns : List Name} {names : List Name}
    (h : ∀ n ∈ names, disk.fs.node (p ++ (ns ++ [n])) ≠ none) :
    List.Forall₂ (Scanned disk p ns) names (names.filterMap (dir_entry disk scan (p ++ ns))) := by
  induction names with
  | nil => exact .nil
  | cons n names ih =>
    obtain ⟨x, hx⟩ := Option.ne_none_iff_exists'.mp (h n List.mem_cons_self)
    rw [List.filterMap_cons_some (dir_entry_full htree hscan hx)]
    exact .cons ⟨x, hx, rfl⟩ (ih fun m hm => h m (List.mem_cons_of_mem n hm))

/-- **A directory of the tree is scanned in full**, in some order. -/
theorem batch_full {ns : List Name} (hdir : disk.fs.node (p ++ ns) = some .dir) :
    ∃ names children, names.Perm (disk.fs.children (p ++ ns)) ∧
      batch_read_dir_entries disk scan (p ++ ns) = some children ∧
      List.Forall₂ (Scanned disk p ns) names children := by
  have hnames : ∀ n ∈ scan.order (p ++ ns) (disk.fs.children (p ++ ns)),
      disk.fs.node (p ++ (ns ++ [n])) ≠ none := by
    intro n hn
    rw [← List.append_assoc]
    exact Fs.mem_children.mp ((scan.order_perm _ _).mem_iff.mp hn)
  refine ⟨_, _, scan.order_perm _ _, ?_, entries_full htree hscan hnames⟩
  unfold batch_read_dir_entries
  rw [follow_self ⟨.dir, hdir, by simp⟩]
  dsimp only
  rw [if_neg]
  rw [hdir, hscan.refused _ (List.prefix_append _ _)]
  simp

omit htree hscan

/-- The entries made of the children of a directory. -/
theorem describes_children {ns : List Name} {names : List Name} {children : List DirEntryMeta}
    (h : List.Forall₂ (Scanned disk p ns) names children) :
    List.Forall₂ (Describes types disk base p) (names.map fun n => ns ++ [n])
      (children.map (child_entry types (member_href base ns ++ ['/']))) := by
  induction h with
  | nil => exact .nil
  | cons hchild _ ih =>
    obtain ⟨x, hx, heq⟩ := hchild
    refine .cons ⟨ns, _, x, rfl, hx, ?_⟩ ih
    rw [heq]

/-! ## The traversal -/

variable (w : Path → ℕ)

/-- The sum over what is below the directories of a stack. -/
def total (fs : Fs) (w : Path → ℕ) (stack : List (Path × List Char)) : ℕ :=
  (stack.map fun d => ∑ q ∈ fs.below d.1, w q).sum

/-- The sum over what some members lead to. -/
def reported (w : Path → ℕ) (p : Path) (members : List (List Name)) : ℕ :=
  (members.map fun ns => w (p ++ ns)).sum

theorem total_append (fs : Fs) (xs ys : List (Path × List Char)) :
    total fs w (xs ++ ys) = total fs w xs + total fs w ys := by
  unfold total
  rw [List.map_append, List.sum_append]

theorem total_reverse (fs : Fs) (xs : List (Path × List Char)) :
    total fs w xs.reverse = total fs w xs := by
  unfold total
  rw [List.map_reverse, List.sum_reverse]

/-- Only the directories among the entries have anything below them. -/
theorem total_subdirs (href : List Char) {ns : List Name} {names : List Name}
    {children : List DirEntryMeta} (h : List.Forall₂ (Scanned disk p ns) names children) :
    total disk.fs w (subdirs (p ++ ns) href children)
      = (names.map fun n => ∑ q ∈ disk.fs.below (p ++ ns ++ [n]), w q).sum := by
  induction h with
  | nil => rfl
  | @cons n child names children hchild _ ih =>
    obtain ⟨x, hx, heq⟩ := hchild
    unfold subdirs at ih ⊢
    rw [List.map_cons, List.sum_cons, ← ih]
    by_cases hdir : x = .dir
    · have hsub : child.is_dir = true := by
        rw [heq]
        exact decide_eq_true hdir
      rw [List.filterMap_cons_some (by rw [if_pos hsub])]
      unfold total
      rw [List.map_cons, List.sum_cons, heq]
      rfl
    · have hsub : child.is_dir ≠ true := by
        rw [heq]
        exact fun h => hdir (of_decide_eq_true h)
      have hnode : disk.fs.node (p ++ ns ++ [n]) ≠ some .dir := by
        rw [List.append_assoc, hx]
        simpa using hdir
      rw [List.filterMap_cons_none (by rw [if_neg hsub]), Fs.below_eq_empty hnode,
        Finset.sum_empty, Nat.zero_add]

/-- The sum of a directory: its entries, and what is below each. -/
theorem total_dir {ns : List Name} {names : List Name}
    (h : names.Perm (disk.fs.children (p ++ ns))) :
    ∑ q ∈ disk.fs.below (p ++ ns), w q
      = reported w p (names.map fun n => ns ++ [n])
        + (names.map fun n => ∑ q ∈ disk.fs.below (p ++ ns ++ [n]), w q).sum := by
  rw [sum_below, ← (h.map _).sum_eq]
  unfold reported Fs.weight_of
  rw [List.sum_map_add, List.map_map]
  congr 3
  funext n
  rw [Function.comp_apply, List.append_assoc]

include htree hscan

/-- **What the traversal reports adds up to what is below its stack.** -/
theorem collect_loop_total {fuel : ℕ} {stack : List (Path × List Char)}
    {entries es : List PropEntry} (hstack : OnTrack disk base p stack)
    (h : collect_loop types disk scan fuel stack entries = some es) :
    ∃ members more, es = entries ++ more ∧
      List.Forall₂ (Describes types disk base p) members more ∧
      ∀ w, reported w p members = total disk.fs w stack := by
  have hdone : ∀ entries : List PropEntry, ∃ members more, entries = entries ++ more ∧
      List.Forall₂ (Describes types disk base p) members more ∧
      ∀ w, reported w p members = total disk.fs w [] := by
    intro entries
    exact ⟨[], [], (List.append_nil entries).symm, .nil, fun w => rfl⟩
  -- on the fuel: each round moves one directory from the stack to the report
  induction fuel generalizing stack entries with
  | zero =>
    cases stack with
    | nil =>
      cases h
      exact hdone _
    | cons d stack => cases h
  | succ fuel ih =>
    cases stack with
    | nil =>
      cases h
      exact hdone _
    | cons d stack =>
      obtain ⟨ns, rfl, hdir⟩ := hstack d List.mem_cons_self
      obtain ⟨names, children, hnames, hbatch, hscanned⟩ := batch_full htree hscan hdir
      -- what is pushed are the directories among the children
      have hrest : OnTrack disk base p
          ((subdirs (p ++ ns) (member_href base ns ++ ['/']) children).reverse ++ stack) := by
        intro d hd
        rcases List.mem_append.mp hd with hd | hd
        · exact on_track_subdirs base htree.links hdir hbatch d (List.mem_reverse.mp hd)
        · exact hstack d (List.mem_cons_of_mem _ hd)
      unfold collect_loop at h
      rw [hbatch] at h
      obtain ⟨members, more, hmore, hdescribes, hsum⟩ := ih hrest h
      refine ⟨names.map (fun n => ns ++ [n]) ++ members, _ ++ more, ?_,
        List.rel_append (describes_children hscanned) hdescribes, ?_⟩
      · rw [hmore, List.append_assoc]
      · intro w
        have hsplit : reported w p (names.map (fun n => ns ++ [n]) ++ members)
            = reported w p (names.map fun n => ns ++ [n]) + reported w p members := by
          unfold reported
          rw [List.map_append, List.sum_append]
        -- what is below the directory are its children and what is below these
        have hstep : total disk.fs w ((p ++ ns, member_href base ns ++ ['/']) :: stack)
            = ∑ q ∈ disk.fs.below (p ++ ns), w q + total disk.fs w stack := by
          unfold total
          rw [List.map_cons, List.sum_cons]
        rw [hsplit, hsum, total_append, total_reverse, total_subdirs w _ hscanned, hstep,
          total_dir w hnames, Nat.add_assoc]

omit htree hscan

/-- More fuel changes nothing. -/
theorem collect_loop_mono {fuel fuel' : ℕ} {stack : List (Path × List Char)}
    {entries es : List PropEntry} (hle : fuel ≤ fuel')
    (h : collect_loop types disk scan fuel stack entries = some es) :
    collect_loop types disk scan fuel' stack entries = some es := by
  induction fuel generalizing fuel' stack entries with
  | zero =>
    cases stack with
    | nil =>
      cases fuel' with
      | zero => exact h
      | succ fuel' => exact h
    | cons d stack => cases h
  | succ fuel ih =>
    obtain ⟨fuel', rfl⟩ : ∃ k, fuel' = k + 1 := ⟨fuel' - 1, by omega⟩
    cases stack with
    | nil => exact h
    | cons d stack =>
      unfold collect_loop at h ⊢
      split at h
      · exact ih (by omega) h
      · exact ih (by omega) h

/-- A sum that counts one node. -/
theorem reported_count (q : Path) (members : List (List Name)) :
    reported (fun r => if r = q then 1 else 0) p members
      = (members.map fun ns => p ++ ns).count q := by
  unfold reported
  induction members with
  | nil => rfl
  | cons ns members ih =>
    rw [List.map_cons, List.sum_cons, ih, List.map_cons, List.count_cons, Nat.add_comm]
    congr 1
    dsimp only
    by_cases h : p ++ ns = q
    · rw [if_pos h, if_pos (beq_iff_eq.mpr h)]
    · rw [if_neg h, if_neg (fun heq => h (beq_iff_eq.mp heq))]

/-- Members that add up to a set of nodes are those nodes, each once. -/
theorem members_of_sums {s : Finset Path} {members : List (List Name)}
    (h : ∀ w : Path → ℕ, reported w p members = ∑ q ∈ s, w q) :
    (members.map fun ns => p ++ ns).Nodup ∧
      ∀ q, q ∈ members.map (fun ns => p ++ ns) ↔ q ∈ s := by
  have hcount : ∀ q, (members.map fun ns => p ++ ns).count q = if q ∈ s then 1 else 0 := by
    intro q
    rw [← reported_count, h, Finset.sum_ite_eq']
  constructor
  · rw [List.nodup_iff_count_le_one]
    intro q
    rw [hcount]
    split <;> omega
  · intro q
    rw [← List.count_pos_iff, hcount]
    split
    · rename_i hq
      exact ⟨fun _ => hq, fun _ => by omega⟩
    · rename_i hq
      exact ⟨fun hpos => absurd hpos (by omega), fun hmem => absurd hmem hq⟩

end Tree

/-! ## Where the hrefs lead -/

section Hrefs

variable {fs : Fs} {cwd : Path} {root_dir root_canonical : PathBuf}

/-- A request for a directory may have a separator at its end. -/
theorem resolve_slash {r : List Char} {p : Path}
    (hp : resolve_existing fs cwd root_dir root_canonical r = some p)
    (hdir : fs.node p = some .dir) :
    resolve_existing fs cwd root_dir root_canonical (r ++ ['/']) = some p := by
  by_cases hnil : request_text r = []
  · have htext : request_text (r ++ ['/']) = request_text r := by
      rw [request_text_slash, if_pos hnil, hnil]
    rw [resolve_existing_some_iff, htext]
    exact resolve_existing_some_iff.mp hp
  · obtain ⟨hne, hwalk, hstart⟩ := walk_of_resolve (Or.inl rfl) hp
    have htext : request_text (r ++ ['/']) = request_text r ++ ['/'] := by
      rw [request_text_slash, if_neg hnil]
    have hcomps : (root_dir.join (PathBuf.of_text (request_text (r ++ ['/'])))).comps
        = comps_below root_dir (request_text r) := by
      rw [htext]
      exact comps_below_slash root_dir (request_text_head r) hnil
    have hcanon : canonicalize fs cwd (root_dir.join (PathBuf.of_text (request_text (r ++ ['/']))))
        = .ok p := by
      apply canonicalize_of_walk
      · rw [hcomps]
        exact hne
      · rw [hcomps]
        exact hwalk
      · exact fun _ => hdir
    exact resolve_existing_some_iff.mpr ⟨hcanon, hstart⟩

theorem resolve_normalize {r : List Char} {p : Path} {is_dir : Bool}
    (hp : resolve_existing fs cwd root_dir root_canonical r = some p)
    (hdir : is_dir = true → fs.node p = some .dir) :
    resolve_existing fs cwd root_dir root_canonical (normalize_href r is_dir) = some p := by
  unfold normalize_href
  split
  · rename_i h
    exact resolve_slash hp (hdir h.1)
  · exact hp

/-- The href of a member leads to it. -/
theorem resolve_describes {disk : Disk} {types : Option (List UInt8) → Option String}
    {request_path : List Char} {p : Path} {ns : List Name} {e : PropEntry}
    (htree : PlainTree disk.fs p)
    (hp : resolve_existing disk.fs cwd root_dir root_canonical request_path = some p)
    (h : Describes types disk (base_of request_path) p ns e) :
    resolve_existing disk.fs cwd root_dir root_canonical e.href = some (p ++ ns) := by
  obtain ⟨init, n, x, hns, hx, he⟩ := h
  have hhref : e.href = member_href (base_of request_path) ns := by
    rw [he, hns, member_href_append]
    change (member_href (base_of request_path) init ++ ['/']) ++ encoded n = _
    rw [List.append_assoc]
    rfl
  have hne : ns ≠ [] := by
    rw [hns]
    simp
  have htext : ns.map lossy_name = ns := by
    rw [map_lossy_eq_iff]
    intro m hm
    obtain ⟨before, after, heq⟩ := List.append_of_mem hm
    have hnode : disk.fs.node ((p ++ before) ++ [m]) ≠ none := by
      intro hnone
      have hpre : (p ++ before) ++ [m] <+: p ++ ns := by
        rw [heq]
        exact ⟨after, by simp⟩
      rw [none_below hnone hpre] at hx
      cases hx
    exact (htree.text _ m (List.prefix_append _ _) hnode).1
  rw [hhref]
  apply (resolve_member_iff (base_of_base request_path) hp htree.links hne).mpr
  rw [htext, hx]
  exact ⟨rfl, by simp⟩

end Hrefs

/-! ## All entries -/

section Entries

variable {types : Option (List UInt8) → Option String} {disk : Disk} {scan : Scan} {cwd p : Path}
variable {root_dir root_canonical : PathBuf} {request_path : List Char}

/-- Entries that are those of some nodes, in order, and lead back to them. -/
def Lists (disk : Disk) (cwd : Path) (root_dir root_canonical : PathBuf) (nodes : List Path)
    (es : List PropEntry) : Prop :=
  List.Forall₂ (fun q e => EntryOf disk q e ∧
    resolve_existing disk.fs cwd root_dir root_canonical e.href = some q) nodes es

theorem Lists.hrefs {nodes : List Path} {es : List PropEntry}
    (h : Lists disk cwd root_dir root_canonical nodes es) :
    es.map (fun e => resolve_existing disk.fs cwd root_dir root_canonical e.href)
      = nodes.map some := by
  induction h with
  | nil => rfl
  | cons hq _ ih => rw [List.map_cons, List.map_cons, hq.2, ih]

/-- Hrefs that lead to different nodes are different. -/
theorem Lists.distinct {nodes : List Path} {es : List PropEntry}
    (h : Lists disk cwd root_dir root_canonical nodes es) (hnodup : nodes.Nodup) :
    (es.map PropEntry.href).Nodup := by
  have hnodup' := hnodup.map (Option.some_injective Path)
  rw [← h.hrefs] at hnodup'
  have hcomp : es.map (fun e => resolve_existing disk.fs cwd root_dir root_canonical e.href)
      = (es.map PropEntry.href).map (resolve_existing disk.fs cwd root_dir root_canonical) := by
    rw [List.map_map]
    rfl
  rw [hcomp] at hnodup'
  exact List.Nodup.of_map _ hnodup'

variable (htree : PlainTree disk.fs p) (hscan : Complete scan p)
variable (hp : resolve_existing disk.fs cwd root_dir root_canonical request_path = some p)

include htree hp

theorem lists_members {members : List (List Name)} {es : List PropEntry}
    (h : List.Forall₂ (Describes types disk (base_of request_path) p) members es) :
    Lists disk cwd root_dir root_canonical (members.map fun ns => p ++ ns) es := by
  unfold Lists
  rw [List.forall₂_map_left_iff]
  apply h.imp
  intro ns e hdescribes
  refine ⟨?_, resolve_describes htree hp hdescribes⟩
  obtain ⟨init, n, x, -, hx, he⟩ := hdescribes
  rw [he]
  exact ⟨x, hx, rfl, rfl⟩

variable (types)

include hscan

theorem children_listed (hdir : disk.fs.node p = some .dir) :
    ∃ nodes : List Path, nodes.Nodup ∧ (∀ q, q ∈ nodes ↔ ∃ n ∈ disk.fs.children p, q = p ++ [n]) ∧
      Lists disk cwd root_dir root_canonical nodes
        (collect_direct_children types disk scan p request_path) := by
  have hnil : p ++ [] = p := List.append_nil p
  have hdir' : disk.fs.node (p ++ []) = some .dir := by
    rw [hnil]
    exact hdir
  obtain ⟨names, children, hnames, hbatch, hscanned⟩ := batch_full htree hscan hdir'
  have hdescribes : List.Forall₂ (Describes types disk (base_of request_path) p) _ _ :=
    describes_children hscanned
  rw [root_href] at hdescribes
  rw [hnil] at hnames hbatch
  have hcollect : collect_direct_children types disk scan p request_path
      = children.map (child_entry types (normalize_href request_path true)) := by
    unfold collect_direct_children
    rw [hbatch]
  rw [hcollect]
  refine ⟨_, ?_, ?_, lists_members htree hp hdescribes⟩
  · rw [List.map_map]
    apply (hnames.nodup_iff.mpr (Fs.children_nodup p)).map
    intro m n hmn
    simpa using hmn
  · intro q
    rw [List.map_map, List.mem_map]
    constructor
    · rintro ⟨n, hn, heq⟩
      exact ⟨n, hnames.mem_iff.mp hn, heq.symm⟩
    · rintro ⟨n, hn, heq⟩
      exact ⟨n, hnames.mem_iff.mpr hn, heq.symm⟩

theorem descendants_listed (hdir : disk.fs.node p = some .dir) :
    ∃ nodes es, nodes.Nodup ∧ (∀ q, q ∈ nodes ↔ q ∈ disk.fs.below p) ∧
      Lists disk cwd root_dir root_canonical nodes es ∧
      ∃ enough, ∀ fuel, enough ≤ fuel →
        collect_descendants types disk scan fuel p request_path = some es := by
  have hnil : p ++ [] = p := List.append_nil p
  have hstack : OnTrack disk (base_of request_path) p [(p, normalize_href request_path true)] := by
    intro d hd
    refine ⟨[], ?_, ?_⟩
    · rw [List.mem_singleton.mp hd, root_href, hnil]
    · rw [hnil]
      exact hdir
  have hends := @collect_loop_ends disk scan p types _ htree.links _ _ [] hstack le_rfl
  obtain ⟨es, hes⟩ := Option.ne_none_iff_exists'.mp hends
  obtain ⟨members, more, hmore, hdescribes, hsum⟩ := collect_loop_total htree hscan hstack hes
  rw [List.nil_append] at hmore
  have hbelow : ∀ w : Path → ℕ, reported w p members = ∑ q ∈ disk.fs.below p, w q := by
    intro w
    rw [hsum]
    exact Nat.add_zero _
  obtain ⟨hnodup, hmem⟩ := members_of_sums hbelow
  refine ⟨_, es, hnodup, hmem, ?_, _, fun fuel hfuel => collect_loop_mono hfuel hes⟩
  rw [hmore]
  exact lists_members htree hp hdescribes

omit htree hscan

theorem base_listed {x : Node} (hx : disk.fs.node p = some x) :
    EntryOf disk p (base_entry types p request_path (metadata_at disk p x)) ∧
      resolve_existing disk.fs cwd root_dir root_canonical
        (base_entry types p request_path (metadata_at disk p x)).href = some p := by
  constructor
  · exact ⟨x, hx, rfl, rfl⟩
  · apply resolve_normalize hp
    intro hdir
    rw [hx, of_decide_eq_true hdir]

omit hp

/-- Nothing is below a file. -/
theorem reported_file (h : disk.fs.node p ≠ some .dir) (depth : Depth) (q : Path) :
    Reported disk.fs p depth q ↔ q = p := by
  cases depth with
  | Zero => exact Iff.rfl
  | One =>
    constructor
    · rintro (heq | ⟨n, hn, -⟩)
      · exact heq
      · exact absurd (disk.fs.parent_dir p n (Fs.mem_children.mp hn)) h
    · exact Or.inl
  | Infinity =>
    constructor
    · rintro (heq | hbelow)
      · exact heq
      · rw [Fs.below_eq_empty h] at hbelow
        exact absurd hbelow (Finset.notMem_empty q)
    · exact Or.inl

include htree hscan hp

/-- **PROPFIND enumerates the tree.** With enough fuel the traversal ends, with one entry
for each node it is about and no other; the hrefs are different, and each leads back to
its node. -/
theorem collect_entries_exact (depth : Depth) :
    ∃ nodes es, nodes.Nodup ∧ (∀ q, q ∈ nodes ↔ Reported disk.fs p depth q) ∧
      Lists disk cwd root_dir root_canonical nodes es ∧ (es.map PropEntry.href).Nodup ∧
      ∃ enough, ∀ fuel, enough ≤ fuel →
        collect_entries types disk scan fuel p request_path depth = some es := by
  obtain ⟨x, hx, hlink⟩ := resolve_existing_real hp
  have hbase := base_listed types hp hx
  have hmeta := metadata_real hx hlink
  -- distinct hrefs follow from distinct nodes
  suffices h : ∃ nodes es, nodes.Nodup ∧ (∀ q, q ∈ nodes ↔ Reported disk.fs p depth q) ∧
      Lists disk cwd root_dir root_canonical nodes es ∧ ∃ enough, ∀ fuel, enough ≤ fuel →
        collect_entries types disk scan fuel p request_path depth = some es by
    obtain ⟨nodes, es, hnodup, hmem, hlists, hends⟩ := h
    exact ⟨nodes, es, hnodup, hmem, hlists, hlists.distinct hnodup, hends⟩
  -- only a directory asked for at a depth has members to list
  by_cases hdeep : x = .dir ∧ depth ≠ .Zero
  · obtain ⟨rfl, hdepth⟩ := hdeep
    cases depth with
    | Zero => exact absurd rfl hdepth
    | One =>
      obtain ⟨nodes, hnodup, hmem, hlists⟩ := children_listed types htree hscan hp hx
      refine ⟨p :: nodes, _ :: _, List.nodup_cons.mpr ⟨?_, hnodup⟩, ?_, .cons hbase hlists, 0, ?_⟩
      · intro h
        obtain ⟨n, -, heq⟩ := (hmem p).mp h
        simp at heq
      · intro q
        rw [List.mem_cons, hmem]
        exact Iff.rfl
      · intro fuel _
        unfold collect_entries
        rw [hmeta]
        rfl
    | Infinity =>
      obtain ⟨nodes, es, hnodup, hmem, hlists, enough, hends⟩ :=
        descendants_listed types htree hscan hp hx
      refine ⟨p :: nodes, _ :: es, List.nodup_cons.mpr ⟨?_, hnodup⟩, ?_, .cons hbase hlists, enough,
        ?_⟩
      · intro h
        exact (Fs.mem_below.mp ((hmem p).mp h)).2.1 rfl
      · intro q
        rw [List.mem_cons, hmem]
        exact Iff.rfl
      · intro fuel hfuel
        unfold collect_entries
        rw [hmeta]
        dsimp only
        rw [if_pos ⟨rfl, by simp⟩, if_neg (by simp), hends fuel hfuel, Option.map_some]
  · -- a file, or a directory alone
    refine ⟨[p], [_], List.nodup_singleton p, ?_, .cons hbase .nil, 0, ?_⟩
    · intro q
      rw [List.mem_singleton]
      by_cases hfile : x = .dir
      · cases depth with
        | Zero => exact Iff.rfl
        | One => exact absurd ⟨hfile, by simp⟩ hdeep
        | Infinity => exact absurd ⟨hfile, by simp⟩ hdeep
      · rw [reported_file]
        rw [hx]
        simpa using hfile
    · intro fuel _
      unfold collect_entries
      rw [hmeta]
      dsimp only
      rw [if_neg]
      rintro ⟨hdir, hdepth⟩
      exact hdeep ⟨of_decide_eq_true hdir, hdepth⟩

end Entries

/-! ## A tree of two levels -/

theorem plain_empty (p : Path) : PlainTree Fs.empty p where
  links := by
    intro q t _ hq
    change (if q = [] then some Node.dir else none) = _ at hq
    split at hq <;> cases hq
  text := by
    intro q n _ hq
    exact absurd (if_neg (by simp)) hq

/-- A file or a directory with a text for a name is put into a plain tree. -/
theorem PlainTree.set {fs : Fs} {p q : Path} {n : Name} {x : Node} (h : PlainTree fs p)
    (hslot : fs.Slot (q ++ [n])) (hx : ∀ t, x ≠ .symlink t) (hn : Unicode n ∧ n.has_nul = false) :
    PlainTree (fs.set (q ++ [n]) x) p where
  links := by
    intro r t hr hnode
    rw [Fs.node_set hslot] at hnode
    split at hnode
    · exact hx t (Option.some.inj hnode)
    · exact h.links r t hr hnode
  text := by
    intro r m hr hnode
    rw [Fs.node_set hslot] at hnode
    split at hnode
    · rename_i heq
      rw [(List.append_singleton_inj.mp heq).2]
      exact hn
    · exact h.text r m hr hnode

theorem plain_deep : PlainTree disk_deep [d_name] := by
  have hd : PlainTree disk_d [d_name] :=
    (plain_empty [d_name]).set (q := []) (by decide) (by simp) ⟨by decide, by decide⟩
  have hf : PlainTree (disk_d.set [d_name, f_name] (.file [1])) [d_name] :=
    hd.set (q := [d_name]) (by decide) (by simp) ⟨by decide, by decide⟩
  have he := hf.set (q := [d_name]) (n := e_name) (x := .dir) (by decide) (by simp)
    ⟨by decide, by decide⟩
  exact he.set (q := [d_name, e_name]) (by decide) (by simp) ⟨by decide, by decide⟩

/-- The server of that tree. -/
def server_deep : Server := { server_d with disk := { server_d.disk with fs := disk_deep } }

theorem resolves_deep : server_deep.resolve_existing "/d".toList = some [d_name] := by decide

theorem complete_deep (p : Path) : Complete server_deep.scan p where
  refused := fun _ _ => rfl
  unread := fun _ _ => rfl

theorem collect_entries_exact_deep :
    ∃ nodes es, nodes.Nodup ∧ (∀ q, q ∈ nodes ↔ Reported server_deep.disk.fs [d_name] .Infinity q) ∧
      Lists server_deep.disk server_deep.cwd server_deep.app.root_dir server_deep.app.root_canonical
        nodes es ∧
      (es.map PropEntry.href).Nodup ∧
      ∃ enough, ∀ fuel, enough ≤ fuel →
        collect_entries server_deep.types server_deep.disk server_deep.scan fuel [d_name] "/d".toList
          .Infinity = some es :=
  collect_entries_exact server_deep.types plain_deep (complete_deep _) resolves_deep .Infinity

/-- A server that may not read any directory. -/
def server_refused : Server :=
  { server_deep with scan := { server_deep.scan with refused := fun _ => true } }

/-- Of a directory that cannot be read nothing below it is listed. -/
theorem refused_unlisted :
    ¬ ∀ (s : Server) (p : Path) (request_path : List Char) (depth : Depth),
      PlainTree s.disk.fs p → s.resolve_existing request_path = some p →
      ∃ nodes es, nodes.Nodup ∧ (∀ q, q ∈ nodes ↔ Reported s.disk.fs p depth q) ∧
        Lists s.disk s.cwd s.app.root_dir s.app.root_canonical nodes es ∧
        (es.map PropEntry.href).Nodup ∧
        ∃ enough, ∀ fuel, enough ≤ fuel →
          collect_entries s.types s.disk s.scan fuel p request_path depth = some es := by
  intro hall
  obtain ⟨nodes, es, -, hmem, hlists, -, enough, hends⟩ :=
    hall server_refused [d_name] "/d".toList .One plain_deep resolves_deep
  have hone : collect_entries server_refused.types server_refused.disk server_refused.scan enough
      [d_name] "/d".toList .One
        = some [base_entry server_refused.types [d_name] "/d".toList
          (metadata_at server_refused.disk [d_name] .dir)] := rfl
  rw [hends enough le_rfl, Option.some.injEq] at hone
  have hlength : nodes.length = 1 := by rw [hlists.length_eq, hone, List.length_singleton]
  obtain ⟨q, rfl⟩ := List.length_eq_one_iff.mp hlength
  have hroot : [d_name] ∈ [q] := (hmem _).mpr (Or.inl rfl)
  have hchild : [d_name, f_name] ∈ [q] := (hmem _).mpr (Or.inr ⟨f_name, by decide, rfl⟩)
  rw [List.mem_singleton] at hroot hchild
  rw [← hroot] at hchild
  exact absurd hchild (by decide)

end Rshs.Enumerate
