/-
The href of a PROPFIND member, and where a request for it leads.

`webdav/fs.rs` makes the href of a member out of the request path and the names from
the collection down, each percent-encoded after a lossy conversion to text. A request
for that href is decoded, joined to the root and canonicalised. `resolve_member_iff`
says what comes out where no link is on the way: the path with the converted names,
if it exists.
-/
import Rshs.Utf8
import Rshs.Resolve
import Rshs.Growth

set_option autoImplicit false

namespace Rshs.Href

open StdPath Posix Text Rshs.Resolve

/-! ## Walking on from where a path leads -/

section Walk

variable {fs : Fs}

/-- No link stands at a path or below it. -/
def LinkFree (fs : Fs) (p : Path) : Prop := ∀ q t, p <+: q → fs.node q ≠ some (.symlink t)

/-- Below a place without links, every node is where its path says. -/
theorem LinkFree.real {p q : Path} (h : LinkFree fs p) (hpq : p <+: q) (hq : fs.node q ≠ none) :
    fs.Real q := by
  obtain ⟨x, hx⟩ := Option.ne_none_iff_exists'.mp hq
  refine ⟨x, hx, fun t heq => ?_⟩
  rw [heq] at hx
  exact h q t hpq hx

/-- Below a place without links, names lead to the path they spell, if it exists. -/
theorem walk_names_iff {links : ℕ} {cur p q : Path} {cs : List Component} {ms : List Name}
    (hfree : LinkFree fs p) (hp : fs.Real p) (h : walk fs false links cur cs = .ok p)
    (hms : ms ≠ []) :
    walk fs false links cur (cs ++ ms.map .normal) = .ok q ↔ q = p ++ ms ∧ fs.node q ≠ none := by
  constructor
  · intro hq
    obtain ⟨d, l, hd, hl⟩ := walk_split (by simpa using hms) hq
    rw [h] at hd
    cases hd
    have heq : q = p ++ ms := walk_straight (fun r _ t => hfree _ t (List.prefix_append _ _)) hl
    rcases walk_real hp hl with ⟨x, hx, -⟩ | ⟨hmk, -⟩
    · exact ⟨heq, by rw [hx]; simp⟩
    · cases hmk
  · rintro ⟨heq, hq⟩
    subst heq
    exact walk_append h fun next => walk_with_self (hfree.real (List.prefix_append _ _) hq)

/-- A last `.` changes nothing, where it can be walked. -/
theorem walk_cur {links : ℕ} {cur p : Path} {cs : List Component}
    (h : walk fs false links cur (cs ++ [.curDir]) = .ok p) : walk fs false links cur cs = .ok p := by
  obtain ⟨d, l, hd, hl⟩ := walk_split (by simp) h
  rw [walk_level, walk_with_cons] at hl
  split at hl
  · cases hl
  · cases hl
    exact hd

end Walk

/-! ## The components of a longer text -/

/-- A text with one more segment. -/
def extend (t s : List Char) : List Char := if t = [] then s else t ++ '/' :: s

theorem of_segment_ne_root {first : Bool} {s : List Char} :
    Component.of_segment first s ≠ some .rootDir := by
  unfold Component.of_segment
  split
  · simp
  · split
    · simp
    · split <;> simp

/-- A text that does not begin with a separator is no absolute path. -/
theorem of_text_relative {t : List Char} (h : t.head? ≠ some '/') :
    (PathBuf.of_text t).is_absolute = false := by
  have hmem : ∀ c ∈ (PathBuf.of_text t).comps, c ≠ .rootDir := by
    intro c hc
    unfold PathBuf.of_text at hc
    dsimp only at hc
    rw [if_neg h, List.nil_append, List.mem_append] at hc
    rintro rfl
    rcases hc with hc | hc
    · rw [Option.mem_toList] at hc
      obtain ⟨s, -, hs⟩ := Option.bind_eq_some_iff.mp hc
      exact of_segment_ne_root hs
    · obtain ⟨s, -, hs⟩ := List.mem_filterMap.mp hc
      exact of_segment_ne_root hs
  unfold PathBuf.is_absolute
  rw [decide_eq_false_iff_not]
  intro hhead
  exact hmem _ (List.mem_of_mem_head? hhead) rfl

/-- A segment that is a name. -/
structure Spells (s : List Char) (n : Name) : Prop where
  bytes : n.bytes = utf8_encode s
  no_slash : '/' ∉ s
  not_nil : s ≠ []
  not_dot : s ≠ ['.']

/-- A segment that spells a name is that name. -/
theorem of_segment_spells {s : List Char} {n : Name} (h : Spells s n) (first : Bool) :
    Component.of_segment first s = some (.normal n) := by
  obtain ⟨bytes, legal⟩ := n
  have hbytes : bytes = utf8_encode s := h.bytes
  subst hbytes
  unfold Component.of_segment
  rw [dif_pos legal]

/-- A name added to a text is a component added to its path. -/
theorem of_text_extend {t s : List Char} {n : Name} (ht : t.head? ≠ some '/') (h : Spells s n) :
    PathBuf.of_text (extend t s)
      = { comps := (PathBuf.of_text t).comps ++ [.normal n], slash := false } := by
  have hlast : ∀ pre : List (List Char),
      decide (2 ≤ (pre ++ [s]).length ∧
        ((pre ++ [s]).getLast? = some [] ∨ (pre ++ [s]).getLast? = some ['.'])) = false := by
    intro pre
    rw [List.getLast?_concat, decide_eq_false_iff_not]
    rintro ⟨-, hs | hs⟩
    · exact h.not_nil (by simpa using hs)
    · exact h.not_dot (by simpa using hs)
  have hhead : s.head? ≠ some '/' := by
    intro heq
    exact h.no_slash (List.mem_of_mem_head? heq)
  unfold extend
  by_cases hnil : t = []
  · -- the text is the segment
    have hempty : PathBuf.of_text [] = { comps := [], slash := false } := by decide
    rw [if_pos hnil, hnil, hempty]
    unfold PathBuf.of_text
    dsimp only
    have hl := hlast []
    rw [List.nil_append] at hl
    rw [List.splitOn_eq_singleton h.no_slash, if_neg hhead, hl, List.head?_cons, Option.bind_some,
      of_segment_spells h]
    rfl
  · rw [if_neg hnil]
    obtain ⟨c, cs, hcons⟩ := List.exists_cons_of_ne_nil hnil
    have hhead' : (t ++ '/' :: s).head? ≠ some '/' := by
      rw [hcons] at ht ⊢
      exact ht
    unfold PathBuf.of_text
    dsimp only
    rw [if_neg hhead', if_neg ht, List.splitOn_append_cons_self,
      List.splitOn_eq_singleton h.no_slash, hlast]
    obtain ⟨seg, segs, hsplit⟩ := List.exists_cons_of_ne_nil (List.splitOn_ne_nil '/' t)
    have habs : (decide ((t ++ '/' :: s).head? = some '/')) = (decide (t.head? = some '/')) := by
      rw [decide_eq_false hhead', decide_eq_false ht]
    rw [hsplit, habs]
    simp [of_segment_spells h]

theorem of_segment_nil (first : Bool) : Component.of_segment first [] = none := by
  unfold Component.of_segment
  rw [dif_neg (by decide), if_neg (by decide), if_neg (by simp)]

/-- A text with a separator at its end has the same components. -/
theorem of_text_slash {t : List Char} (ht : t.head? ≠ some '/') (hnil : t ≠ []) :
    (PathBuf.of_text (t ++ ['/'])).comps = (PathBuf.of_text t).comps := by
  obtain ⟨c, cs, hcons⟩ := List.exists_cons_of_ne_nil hnil
  have hhead : (t ++ ['/']).head? ≠ some '/' := by
    rw [hcons] at ht ⊢
    exact ht
  unfold PathBuf.of_text
  dsimp only
  rw [if_neg hhead, if_neg ht, List.splitOn_append_cons_self,
    List.splitOn_eq_singleton (List.not_mem_nil : '/' ∉ [])]
  obtain ⟨seg, segs, hsplit⟩ := List.exists_cons_of_ne_nil (List.splitOn_ne_nil '/' t)
  have habs : (decide ((t ++ ['/']).head? = some '/')) = (decide (t.head? = some '/')) := by
    rw [decide_eq_false hhead, decide_eq_false ht]
  rw [hsplit, habs, List.cons_append, List.head?_cons, List.head?_cons, List.tail_cons,
    List.tail_cons, List.filterMap_append, List.filterMap_cons_none (of_segment_nil false),
    List.filterMap_nil, List.append_nil]

/-- The components a text below the root stands for. -/
def comps_below (root_dir : PathBuf) (t : List Char) : List Component :=
  (root_dir.join (PathBuf.of_text t)).comps

/-- Joining a relative path appends its components, less the dots in front. -/
theorem join_comps {root q : PathBuf} (h : q.is_absolute = false) :
    (root.join q).comps = if root.comps = [] then q.comps
      else root.comps ++ q.comps.dropWhile (· = .curDir) := by
  unfold PathBuf.join
  rw [h, if_neg Bool.false_ne_true]
  split <;> rfl

/-- A name added to a text is one added to the path below the root. -/
theorem join_extend (root_dir : PathBuf) {t s : List Char} {n : Name} (ht : t.head? ≠ some '/')
    (h : Spells s n) :
    root_dir.join (PathBuf.of_text (extend t s))
      = { comps := comps_below root_dir t ++ [.normal n], slash := false } := by
  have hrel := of_text_relative ht
  have hext := of_text_extend ht h
  have hrel' : (PathBuf.of_text (extend t s)).is_absolute = false := by
    rw [hext]
    unfold PathBuf.is_absolute at hrel ⊢
    rw [decide_eq_false_iff_not] at hrel ⊢
    intro hhead
    dsimp only at hhead
    cases hcs : (PathBuf.of_text t).comps with
    | nil =>
      rw [hcs] at hhead
      cases hhead
    | cons c cs =>
      rw [hcs] at hrel hhead
      exact hrel hhead
  have hdrop : ∀ cs : List Component,
      (cs ++ [Component.normal n]).dropWhile (· = .curDir)
        = cs.dropWhile (· = .curDir) ++ [.normal n] := by
    intro cs
    induction cs with
    | nil => simp
    | cons c cs ih =>
      by_cases hc : c = .curDir
      · simp [hc, ih]
      · simp [hc]
  unfold comps_below
  rw [join_comps hrel]
  unfold PathBuf.join
  rw [hrel', if_neg Bool.false_ne_true]
  by_cases hroot : root_dir.comps = []
  · rw [if_pos hroot, if_pos hroot, hext]
  · rw [if_neg hroot, if_neg hroot, hext]
    dsimp only
    rw [hdrop, if_neg (by simp), List.append_assoc]

/-- A slash at the end changes no component. -/
theorem comps_below_slash (root_dir : PathBuf) {t : List Char} (ht : t.head? ≠ some '/')
    (hnil : t ≠ []) : comps_below root_dir (t ++ ['/']) = comps_below root_dir t := by
  have hhead : (t ++ ['/']).head? ≠ some '/' := by
    obtain ⟨c, cs, hcons⟩ := List.exists_cons_of_ne_nil hnil
    rw [hcons] at ht ⊢
    exact ht
  unfold comps_below
  rw [join_comps (of_text_relative hhead), join_comps (of_text_relative ht), of_text_slash ht hnil]

/-! ## Names as text -/

/-- `OsString::to_string_lossy`. -/
def to_string_lossy (n : Name) : List Char := utf8_lossy n.bytes

/-- A name whose bytes are the encoding of a text. -/
def Unicode (n : Name) : Prop := utf8_encode (to_string_lossy n) = n.bytes

instance (n : Name) : Decidable (Unicode n) := inferInstanceAs (Decidable (_ = _))

/-- No decoded name has a slash. -/
theorem lossy_no_slash (n : Name) : '/' ∉ to_string_lossy n := by
  intro hmem
  exact n.legal.2.2.2 (mem_utf8_lossy_low hmem (by decide))

/-- No decoded name is a dot. -/
theorem lossy_ne_dot (n : Name) : to_string_lossy n ≠ ['.'] := by
  intro h
  obtain ⟨rest, hbytes, hrest⟩ := head_utf8_lossy h (by decide)
  apply n.legal.2.1
  rw [hbytes]
  by_cases hnil : rest = []
  · rw [hnil]
    rfl
  · exact absurd hrest (utf8_lossy_ne_nil hnil)

/-- Nor two of them. -/
theorem lossy_ne_dots (n : Name) : to_string_lossy n ≠ ['.', '.'] := by
  intro h
  obtain ⟨rest, hbytes, hrest⟩ := head_utf8_lossy h (by decide)
  obtain ⟨rest', hbytes', hrest'⟩ := head_utf8_lossy hrest (by decide)
  apply n.legal.2.2.1
  rw [hbytes, hbytes']
  by_cases hnil : rest' = []
  · rw [hnil]
    rfl
  · exact absurd hrest' (utf8_lossy_ne_nil hnil)

/-- The name that is spelled by the converted name: the name itself if it is text. -/
def lossy_name (n : Name) : Name where
  bytes := utf8_encode (to_string_lossy n)
  legal := Name.legal_of_segment (utf8_lossy_ne_nil n.legal.1) (lossy_ne_dot n) (lossy_ne_dots n)
    (lossy_no_slash n)

/-- The decoded name is a spelling of the name with its replacements. -/
theorem spells_lossy (n : Name) : Spells (to_string_lossy n) (lossy_name n) where
  bytes := rfl
  no_slash := lossy_no_slash n
  not_nil := utf8_lossy_ne_nil n.legal.1
  not_dot := lossy_ne_dot n

/-- A name is its decoding if it is Unicode. -/
theorem lossy_name_eq_iff {n : Name} : lossy_name n = n ↔ Unicode n := by
  rw [Name.mk.injEq]
  rfl

theorem map_lossy_eq_iff {ns : List Name} : ns.map lossy_name = ns ↔ ∀ n ∈ ns, Unicode n := by
  induction ns with
  | nil => simp
  | cons n ns ih => rw [List.map_cons, List.cons.injEq, lossy_name_eq_iff, ih, List.forall_mem_cons]

/-! ## Hrefs -/

/-- The characters `HREF_ENCODE_SET` leaves as they are. -/
def href_keep (c : Char) : Bool := c.isAlphanum || ['/', '-', '_', '.', '~'].contains c

/-- A name as a segment of an href. -/
def encoded (n : Name) : List Char := utf8_percent_encode href_keep (to_string_lossy n)

/-- The href of a directory ends with a slash. -/
def normalize_href (path : List Char) (is_dir : Bool) : List Char :=
  if is_dir = true ∧ path.getLast? ≠ some '/' then path ++ ['/'] else path

/-- The href of what the names lead to, from an href without a separator at its end. -/
def member_href (base : List Char) (ns : List Name) : List Char :=
  base ++ ns.flatMap fun n => '/' :: encoded n

/-- The href of a member is that of its directory, a slash and its encoded name. -/
theorem member_href_append (base : List Char) (ns : List Name) (n : Name) :
    member_href base (ns ++ [n]) = member_href base ns ++ '/' :: encoded n := by
  unfold member_href
  rw [List.flatMap_append, List.flatMap_singleton, List.append_assoc]

theorem request_text_append (r : List Char) {q : List Char} (hq : (decode q).head? ≠ some '/') :
    request_text (r ++ '/' :: q) = extend (request_text r) (decode q) := by
  have htrim : ∀ s : List Char, s.head? ≠ some '/' → trim_start_matches '/' ('/' :: s) = s := by
    intro s hs
    unfold trim_start_matches
    rw [List.dropWhile_cons_of_pos (by simp)]
    cases s with
    | nil => rfl
    | cons c s => exact List.dropWhile_cons_of_neg (by simpa using hs)
  unfold request_text
  rw [decode_slash]
  unfold extend
  by_cases hnil : trim_start_matches '/' (decode r) = []
  · rw [if_pos hnil]
    unfold trim_start_matches at hnil
    have hdrop : trim_start_matches '/' (decode r ++ '/' :: decode q)
        = trim_start_matches '/' ('/' :: decode q) := by
      unfold trim_start_matches
      rw [List.dropWhile_append, hnil]
      rfl
    rw [hdrop, htrim _ hq]
  · rw [if_neg hnil]
    unfold trim_start_matches at hnil ⊢
    rw [List.dropWhile_append, if_neg (by simpa using hnil)]

/-- So is the text that a request for it has. -/
theorem request_text_extend (r : List Char) (n : Name) :
    request_text (r ++ '/' :: encoded n) = extend (request_text r) (to_string_lossy n) := by
  have hdecode : decode (encoded n) = to_string_lossy n := decode_percent_encode (by decide) _
  have hhead : (decode (encoded n)).head? ≠ some '/' := by
    rw [hdecode]
    intro heq
    exact lossy_no_slash n (List.mem_of_mem_head? heq)
  rw [request_text_append r hhead, hdecode]

theorem request_text_slash (r : List Char) :
    request_text (r ++ ['/']) = if request_text r = [] then [] else request_text r ++ ['/'] := by
  have hnil : decode [] = [] := rfl
  unfold request_text
  rw [decode_slash, hnil]
  unfold trim_start_matches
  rw [List.dropWhile_append]
  by_cases h : (decode r).dropWhile (· = '/') = []
  · rw [if_pos h, if_pos (by simpa using h)]
    rfl
  · rw [if_neg h, if_neg (by simpa using h)]

/-- The text of a request does not begin with a slash. -/
theorem request_text_head (r : List Char) : (request_text r).head? ≠ some '/' :=
  head_trim_start_matches '/' _

/-- A request for a member resolves below the directory, along the names. -/
theorem comps_below_member (root_dir : PathBuf) (base : List Char) (ns : List Name) :
    comps_below root_dir (request_text (member_href base ns))
      = comps_below root_dir (request_text base) ++ (ns.map lossy_name).map .normal := by
  induction ns using List.reverseRecOn with
  | nil => simp [member_href]
  | append_singleton ns n ih =>
    have hjoin := join_extend root_dir (request_text_head (member_href base ns)) (spells_lossy n)
    have hcomps := congrArg PathBuf.comps hjoin
    rw [← request_text_extend, ← member_href_append] at hcomps
    dsimp only at hcomps
    rw [comps_below, hcomps, ih, List.map_append, List.map_append, List.append_assoc]
    rfl

section Resolution

variable {fs : Fs} {cwd : Path} {root_dir root_canonical : PathBuf}

/-- A request path and the same with a separator at its end. -/
def Base (base request_path : List Char) : Prop := request_path = base ∨ request_path = base ++ ['/']

/-- What a collection is resolved from is walked from the working directory. -/
theorem walk_of_resolve {base request_path : List Char} {p : Path} (h : Base base request_path)
    (hp : resolve_existing fs cwd root_dir root_canonical request_path = some p) :
    comps_below root_dir (request_text base) ≠ [] ∧
      walk fs false symlink_max cwd (comps_below root_dir (request_text base)) = .ok p ∧
      p.starts_with root_canonical = true := by
  have hcomps : comps_below root_dir (request_text request_path)
      = comps_below root_dir (request_text base) := by
    rcases h with rfl | rfl
    · rfl
    · rw [request_text_slash]
      split
      · rename_i hnil
        rw [hnil]
      · rename_i hnil
        exact comps_below_slash root_dir (request_text_head base) hnil
  obtain ⟨hcanon, hstart⟩ := resolve_existing_some_iff.mp hp
  unfold canonicalize at hcanon
  split at hcanon
  · cases hcanon
  · rename_i hne
    rw [← hcomps]
    refine ⟨hne, ?_, hstart⟩
    unfold steps at hcanon
    split at hcanon
    · exact walk_cur hcanon
    · rw [List.append_nil] at hcanon
      exact hcanon

/-- A path is found where its components lead, a directory also with a separator behind. -/
theorem canonicalize_of_walk {q : PathBuf} {p : Path} (hne : q.comps ≠ [])
    (hwalk : walk fs false symlink_max cwd q.comps = .ok p)
    (hslash : q.slash = true → fs.node p = some .dir) : canonicalize fs cwd q = .ok p := by
  unfold canonicalize steps
  rw [if_neg hne]
  split
  · rename_i h
    apply walk_append hwalk
    intro next
    rw [walk_with_cons, if_neg (not_not.mpr (hslash h))]
    rfl
  · rw [List.append_nil]
    exact hwalk

/-- **Where a member's href leads.** -/
theorem resolve_member_iff {base request_path : List Char} {p q : Path} {ns : List Name}
    (h : Base base request_path)
    (hp : resolve_existing fs cwd root_dir root_canonical request_path = some p)
    (hfree : LinkFree fs p) (hns : ns ≠ []) :
    resolve_existing fs cwd root_dir root_canonical (member_href base ns) = some q ↔
      q = p ++ ns.map lossy_name ∧ fs.node q ≠ none := by
  obtain ⟨hne, hwalk, hstart⟩ := walk_of_resolve h hp
  have hcanon : canonicalize fs cwd (root_dir.join (PathBuf.of_text (request_text (member_href base ns))))
      = walk fs false symlink_max cwd
          (comps_below root_dir (request_text base) ++ (ns.map lossy_name).map .normal) := by
    have hslash : (root_dir.join (PathBuf.of_text (request_text (member_href base ns)))).slash
        = false := by
      obtain ⟨init, n, rfl⟩ := List.eq_nil_or_concat ns |>.resolve_left hns
      rw [List.concat_eq_append, member_href_append, request_text_extend,
        join_extend root_dir (request_text_head _) (spells_lossy n)]
    have hcomps := comps_below_member root_dir base ns
    unfold comps_below at hcomps
    unfold canonicalize
    rw [if_neg]
    · unfold steps
      rw [hslash, if_neg Bool.false_ne_true, List.append_nil, hcomps]
      rfl
    · rw [hcomps]
      intro hnil
      exact hne (List.append_eq_nil_iff.mp hnil).1
  have hmap : ns.map lossy_name ≠ [] := by simpa using hns
  have hiff := @walk_names_iff fs symlink_max cwd p q _ (ns.map lossy_name) hfree
    (resolve_existing_real hp) hwalk hmap
  rw [resolve_existing_some_iff, hcanon, hiff]
  constructor
  · rintro ⟨hq, -⟩
    exact hq
  · rintro ⟨heq, hnode⟩
    refine ⟨⟨heq, hnode⟩, ?_⟩
    rw [heq]
    exact Path.starts_with_of_prefix hstart (List.prefix_append _ _)

end Resolution

end Rshs.Href
