/-
The links of a listing.

The listing writes the name of an entry as it is for the `href`, which a client resolves
against the path it asked for. So the link leads to the entry where nothing in the name is
syntax of a reference or an escape, and the directory of that path is the one that is
listed; for a path without a separator at its end it is the directory above.

Cutting a name off and decoding it take characters away (`weight`), so what comes out of
any other name never spells it. A link can then still lead to the entry by a detour: when
what is left has no name at its end, or one at which a symbolic link stands.
-/
import Rshs.Escapes
import Rshs.Listing
import Rshs.Url

set_option autoImplicit false

namespace Rshs.Links

open StdPath Posix Text Rshs.Resolve Rshs.Href Rshs.Listing
open Rshs.Propfind (DirEntryMeta Disk Scan batch_read_dir_entries)

/-! ## The pieces of a decoded path -/

/-- The components a text stands for after others. -/
def components (t : List Char) : List Component :=
  (t.splitOn '/').filterMap (Component.of_segment false)

/-- What a part of a request path is decoded to. -/
def pieces (t : List Char) : List Component := components (decode t)

theorem components_append (s t : List Char) :
    components (s ++ '/' :: t) = components s ++ components t := by
  unfold components
  rw [List.splitOn_append_cons_self, List.filterMap_append]

theorem components_trim (t : List Char) :
    components (trim_start_matches '/' t) = components t := by
  obtain ⟨pre, hsplit, hpre⟩ := splitOn_trim t
  have hnone : pre.filterMap (Component.of_segment false) = [] := by
    rw [List.filterMap_eq_nil_iff]
    intro s hs
    rw [hpre s hs]
    exact of_segment_nil false
  unfold components
  rw [hsplit, List.filterMap_append, hnone, List.nil_append]

/-- No piece is a `.`. -/
theorem of_segment_ne_cur {s : List Char} : Component.of_segment false s ≠ some .curDir := by
  unfold Component.of_segment
  split
  · simp
  · split <;> simp

/-- Only a first `.` is read differently in front. -/
theorem of_segment_front {s : List Char} {c : Component}
    (h : Component.of_segment false s = some c) : Component.of_segment true s = some c := by
  unfold Component.of_segment at h ⊢
  split at h
  · rename_i hlegal
    rw [dif_pos hlegal]
    exact h
  · rename_i hlegal
    rw [dif_neg hlegal]
    split at h
    · rename_i hdots
      rw [if_pos hdots]
      exact h
    · simp at h

theorem of_text_last {t : List Char} {c : Component} (ht : t.head? ≠ some '/')
    (h : (components t).getLast? = some c) : (PathBuf.of_text t).comps.getLast? = some c := by
  obtain ⟨s, segs, hsplit⟩ := List.exists_cons_of_ne_nil (List.splitOn_ne_nil '/' t)
  have hcomponents : components t = (Component.of_segment false s).toList
      ++ segs.filterMap (Component.of_segment false) := by
    unfold components
    rw [hsplit]
    cases hs : Component.of_segment false s with
    | none => rw [List.filterMap_cons_none hs, Option.toList_none, List.nil_append]
    | some c' => rw [List.filterMap_cons_some hs, Option.toList_some, List.singleton_append]
  rw [hcomponents, List.getLast?_append] at h
  unfold PathBuf.of_text
  dsimp only
  rw [if_neg ht, hsplit, decide_eq_false ht, List.nil_append, List.head?_cons, Option.bind_some,
    List.tail_cons, Bool.not_false, List.getLast?_append]
  cases hrest : (segs.filterMap (Component.of_segment false)).getLast? with
  | some c' =>
    rw [hrest, Option.some_or] at h
    rw [Option.some_or, h]
  | none =>
    -- the first segment is the last that counts
    rw [hrest, Option.none_or] at h
    cases hs : Component.of_segment false s with
    | none =>
      rw [hs] at h
      cases h
    | some c' =>
      rw [hs] at h
      cases h
      rw [of_segment_front hs]
      rfl

/-- **The last piece of a path is the last component that is walked.** -/
theorem comps_below_last (root_dir : PathBuf) {b p : List Char} {c : Component}
    (h : (pieces p).getLast? = some c) :
    ∃ init, comps_below root_dir (request_text (b ++ '/' :: p)) = init ++ [c] := by
  have hcur : c ≠ .curDir := by
    rintro rfl
    obtain ⟨s, -, hs⟩ := List.mem_filterMap.mp (List.mem_of_getLast? h)
    exact of_segment_ne_cur hs
  have hall : (components (request_text (b ++ '/' :: p))).getLast? = some c := by
    unfold request_text
    rw [components_trim, decode_slash, components_append, List.getLast?_append]
    unfold pieces at h
    rw [h, Option.some_or]
  obtain ⟨init, hinit⟩ :=
    List.getLast?_eq_some_iff.mp (of_text_last (request_text_head _) hall)
  unfold comps_below
  rw [join_comps (of_text_relative (request_text_head _)), hinit]
  split
  · exact ⟨init, rfl⟩
  · rw [List.dropWhile_append, List.dropWhile_cons_of_neg (by simpa using hcur)]
    split
    · exact ⟨root_dir.comps, rfl⟩
    · rw [← List.append_assoc]
      exact ⟨_, rfl⟩

/-! ## What cutting and decoding leave -/

/-- Nothing in a text is syntax of a reference, and nothing an escape. -/
structure Bare (t : List Char) : Prop extends Url.Relative t where
  no_escape : ¬ HasEscape t

theorem weight_path_part (t : List Char) :
    weight (Url.path_part t) < weight t ∨ Url.path_part t = t := by
  rcases Url.path_part_split t with heq | ⟨c, rest, heq, hc⟩
  · exact Or.inr heq
  · left
    have hcut : weight (c :: rest) = weight rest + 1 := by
      unfold weight
      rw [List.countP_cons_of_pos]
      rcases hc with rfl | rfl <;> decide
    have hall : weight t = weight (Url.path_part t) + weight (c :: rest) := by
      rw [← weight_append, ← heq]
    omega

/-- **Only a bare text spells itself again.** -/
theorem spelled_bare {s t : List Char} (hs : s ∈ (decode (Url.path_part t)).splitOn '/')
    (hweight : weight t ≤ weight s) : Url.path_part t = t ∧ ¬ HasEscape t := by
  have hsegment := weight_segment_le hs
  have hdecode := weight_decode_le (Url.path_part t)
  rcases weight_path_part t with hcut | hpath
  · omega
  · refine ⟨hpath, fun hescape => ?_⟩
    have hlost := weight_decode_lt hescape
    rw [hpath] at hsegment
    omega

/-- The segment a piece was read from. -/
theorem piece_name {p : List Char} {m : Name} (h : .normal m ∈ pieces p) :
    ∃ s ∈ (decode p).splitOn '/', m.bytes = utf8_encode s := by
  obtain ⟨s, hmem, hs⟩ := List.mem_filterMap.mp h
  refine ⟨s, hmem, ?_⟩
  unfold Component.of_segment at hs
  split at hs
  · cases hs
    rfl
  · split at hs
    · cases hs
    · split at hs <;> cases hs

/-! ## The text of an anchor -/

section Shown

variable {e : DirEntryMeta}

theorem shown_split (e : DirEntryMeta) :
    (e.is_dir = false ∧ shown e = to_string_lossy e.name) ∨
      (e.is_dir = true ∧ shown e = to_string_lossy e.name ++ ['/']) := by
  unfold shown
  cases e.is_dir with
  | false => exact Or.inl ⟨rfl, List.append_nil _⟩
  | true => exact Or.inr ⟨rfl, rfl⟩

theorem shown_segments (e : DirEntryMeta) :
    ∀ s ∈ (shown e).splitOn '/', s ≠ ['.'] ∧ s ≠ ['.', '.'] := by
  have hname : (to_string_lossy e.name).splitOn '/' = [to_string_lossy e.name] :=
    List.splitOn_eq_singleton (lossy_no_slash e.name)
  intro s hs
  rcases shown_split e with ⟨-, h⟩ | ⟨-, h⟩
  · rw [h, hname, List.mem_singleton] at hs
    rw [hs]
    exact ⟨lossy_ne_dot e.name, lossy_ne_dots e.name⟩
  · rw [h, List.splitOn_append_cons_self, hname] at hs
    simp only [List.splitOn_nil, List.singleton_append, List.mem_cons, List.not_mem_nil,
      or_false] at hs
    rcases hs with rfl | rfl
    · exact ⟨lossy_ne_dot e.name, lossy_ne_dots e.name⟩
    · simp

/-- What is left of a text that is cut is a part of the name. -/
theorem cut_no_slash (h : Url.path_part (shown e) ≠ shown e) : '/' ∉ Url.path_part (shown e) := by
  obtain heq | ⟨c, rest, heq, hc⟩ := Url.path_part_split (shown e)
  · exact absurd heq h
  · intro hmem
    apply lossy_no_slash e.name
    rcases shown_split e with ⟨-, hshown⟩ | ⟨-, hshown⟩
    · rw [← hshown, heq]
      exact List.mem_append_left _ hmem
    · -- the separator at the end is behind the cut
      have hname : to_string_lossy e.name = Url.path_part (shown e) ++ (c :: rest).dropLast := by
        rw [← List.dropLast_append_of_ne_nil (List.cons_ne_nil c rest), ← heq, hshown,
          List.dropLast_concat]
      rw [hname]
      exact List.mem_append_left _ hmem

theorem weight_shown (e : DirEntryMeta) : weight (shown e) = weight (to_string_lossy e.name) := by
  have hslash : weight ['/'] = 0 := rfl
  rcases shown_split e with ⟨-, h⟩ | ⟨-, h⟩
  · rw [h]
  · rw [h, weight_append, hslash, Nat.add_zero]

theorem shown_head (e : DirEntryMeta) : (shown e).head? ≠ some '/' := by
  have hname : (to_string_lossy e.name).head? ≠ some '/' := by
    intro h
    exact lossy_no_slash e.name (List.mem_of_mem_head? h)
  rcases shown_split e with ⟨-, h⟩ | ⟨-, h⟩
  · rw [h]
    exact hname
  · obtain ⟨c, cs, hcons⟩ := List.exists_cons_of_ne_nil (utf8_lossy_ne_nil e.name.legal.1)
    have hcons' : to_string_lossy e.name = c :: cs := hcons
    rw [hcons'] at hname
    rw [h, hcons']
    exact hname

end Shown

/-! ## Where a link leads -/

/-- A text without escapes behind a path is one more name. -/
theorem comps_below_shown (root_dir : PathBuf) (b : List Char) {e : DirEntryMeta}
    (h : ¬ HasEscape (shown e)) :
    comps_below root_dir (request_text (b ++ '/' :: shown e))
        = comps_below root_dir (request_text b) ++ [.normal (lossy_name e.name)] ∧
      (e.is_dir = false →
        (root_dir.join (PathBuf.of_text (request_text (b ++ '/' :: shown e)))).slash = false) := by
  have hescape : ¬ HasEscape (to_string_lossy e.name) := by
    intro hname
    rcases shown_split e with ⟨-, hshown⟩ | ⟨-, hshown⟩
    · exact h (hshown ▸ hname)
    · exact h (hshown ▸ hname.append _)
  have hdecode := decode_plain_text hescape
  have hhead : (decode (to_string_lossy e.name)).head? ≠ some '/' := by
    rw [hdecode]
    intro heq
    exact lossy_no_slash e.name (List.mem_of_mem_head? heq)
  have htext := request_text_append b hhead
  rw [hdecode] at htext
  have hjoin := join_extend root_dir (request_text_head b) (spells_lossy e.name)
  rw [← htext] at hjoin
  rcases shown_split e with ⟨-, hshown⟩ | ⟨hdir, hshown⟩
  · rw [hshown]
    refine ⟨congrArg PathBuf.comps hjoin, fun _ => ?_⟩
    rw [hjoin]
  · have hassoc : b ++ '/' :: shown e = (b ++ '/' :: to_string_lossy e.name) ++ ['/'] := by
      rw [hshown, List.append_assoc]
      rfl
    have hne : request_text (b ++ '/' :: to_string_lossy e.name) ≠ [] := by
      rw [htext]
      unfold extend
      split
      · exact utf8_lossy_ne_nil e.name.legal.1
      · simp
    refine ⟨?_, fun hfile => ?_⟩
    · rw [hassoc, request_text_slash, if_neg hne,
        comps_below_slash root_dir (request_text_head _) hne]
      exact congrArg PathBuf.comps hjoin
    · rw [hdir] at hfile
      cases hfile

section Resolution

variable (fs : Fs) (cwd : Path) (root_dir : PathBuf)

/-- What the components of a request path lead to. -/
def Reaches (t : List Char) (p : Path) : Prop :=
  walk fs false symlink_max cwd (comps_below root_dir (request_text t)) = .ok p

/-- A path at whose end stands no name, or one that is a symbolic link; it is walked as a
part of the request path `t`. -/
def Detour (path t : List Char) : Prop :=
  ∀ m, (pieces path).getLast? = some (.normal m) →
    ∃ init d target, comps_below root_dir (request_text t) = init ++ [.normal m] ∧
      walk fs false symlink_max cwd init = .ok d ∧ fs.node (d ++ [m]) = some (.symlink target)

end Resolution

section Leads

variable {fs : Fs} {cwd : Path} {root_dir root_canonical : PathBuf} {r : List Char} {p : Path}
  {e : DirEntryMeta} {x : Node}

/-- A bare text takes the place of the last segment. -/
theorem resolve_bare (r : List Char) (h : Bare (shown e)) :
    Url.resolve r (shown e) = some (Url.directory r ++ '/' :: shown e) := by
  have hpath := Url.path_part_eq_iff.mpr ⟨h.no_query, h.no_fragment⟩
  have hne : shown e ≠ [] := by
    unfold shown
    intro hnil
    exact utf8_lossy_ne_nil e.name.legal.1 (List.append_eq_nil_iff.mp hnil).1
  have hresolve := @Url.resolve_path r (shown e) h.no_scheme (shown_head e) (by
    rw [hpath]
    exact hne) (by
    rw [hpath]
    exact shown_segments e)
  rw [hpath] at hresolve
  exact hresolve

/-- **A bare name below the right directory leads to its entry.** -/
theorem bare_leads (hstart : p.starts_with root_canonical = true)
    (hx : fs.node (p ++ [e.name]) = some x) (hlink : ∀ t, x ≠ .symlink t)
    (hkind : e.is_dir = true → x = .dir) (htext : Unicode e.name) (hbare : Bare (shown e))
    (hreach : Reaches fs cwd root_dir (Url.directory r) p) :
    ∃ t, Url.resolve r (shown e) = some t ∧
      resolve_existing fs cwd root_dir root_canonical t = some (p ++ [e.name]) := by
  obtain ⟨hcomps, hslash⟩ := comps_below_shown root_dir (Url.directory r) hbare.no_escape
  rw [lossy_name_eq_iff.mpr htext] at hcomps
  refine ⟨_, resolve_bare r hbare, resolve_existing_some_iff.mpr ⟨?_, ?_⟩⟩
  · unfold comps_below at hcomps
    apply canonicalize_of_walk
    · rw [hcomps]
      simp
    · rw [hcomps]
      exact walk_append hreach fun next => @walk_with_self fs false next p [e.name] ⟨x, hx, hlink⟩
    · intro hsl
      cases hdir : e.is_dir with
      | true => rw [hx, hkind hdir]
      | false =>
        rw [hslash hdir] at hsl
        cases hsl
  · exact Path.starts_with_of_prefix hstart (List.prefix_append _ _)

/-- The path of a reference that ends in a name follows the directory. -/
theorem resolve_named {t : List Char} {m : Name} (h : Url.resolve r (shown e) = some t)
    (hlast : (pieces (Url.path_part (shown e))).getLast? = some (.normal m)) :
    Url.has_scheme (shown e) = false ∧ t = Url.directory r ++ '/' :: Url.path_part (shown e) := by
  have hscheme : Url.has_scheme (shown e) = false := by
    cases hs : Url.has_scheme (shown e) with
    | false => rfl
    | true =>
      unfold Url.resolve at h
      rw [if_pos (Or.inl hs)] at h
      cases h
  have hne : Url.path_part (shown e) ≠ [] := by
    intro hnil
    have hnone : pieces [] = [] := by decide
    rw [hnil, hnone] at hlast
    cases hlast
  have hdots : ∀ s ∈ (Url.path_part (shown e)).splitOn '/', s ≠ ['.'] ∧ s ≠ ['.', '.'] := by
    by_cases hcut : Url.path_part (shown e) = shown e
    · rw [hcut]
      exact shown_segments e
    · intro s hs
      rw [List.splitOn_eq_singleton (cut_no_slash hcut), List.mem_singleton] at hs
      rw [← hs] at hlast
      constructor
      · rintro rfl
        have hnone : pieces ['.'] = [] := by decide
        rw [hnone] at hlast
        cases hlast
      · rintro rfl
        have hup : pieces ['.', '.'] = [.parentDir] := by decide
        rw [hup] at hlast
        cases hlast
  rw [Url.resolve_path hscheme (shown_head e) hne hdots] at h
  exact ⟨hscheme, (Option.some.inj h).symm⟩

/-- **Without a detour only a bare name leads to its entry.** -/
theorem leads_bare {t : List Char}
    (hresolve : Url.resolve r (shown e) = some t)
    (hfound : resolve_existing fs cwd root_dir root_canonical t = some (p ++ [e.name]))
    (hdetour : ¬ Detour fs cwd root_dir (Url.path_part (shown e)) t) :
    Bare (shown e) ∧ Reaches fs cwd root_dir (Url.directory r) p := by
  obtain ⟨m, hm⟩ := not_forall.mp hdetour
  obtain ⟨hlast, hnolink⟩ := Classical.not_imp.mp hm
  obtain ⟨hscheme, rfl⟩ := resolve_named hresolve hlast
  obtain ⟨init, hinit⟩ := @comps_below_last root_dir (Url.directory r) _ _ hlast
  obtain ⟨-, hwalk, -⟩ := walk_of_resolve (Or.inl rfl) hfound
  rw [hinit] at hwalk
  obtain ⟨d, l, hd, hdown⟩ := walk_split (by simp) hwalk
  -- the last step goes down to the entry, so it has the entry's name
  have hstep :=
    walk_last (fun target hlink => hnolink ⟨init, d, target, hinit, hd, hlink⟩) hdown
  obtain ⟨rfl, hname⟩ := List.append_inj' hstep rfl
  have hname' : e.name = m := List.singleton_inj.mp hname
  subst hname'
  obtain ⟨s, hs, hbytes⟩ := piece_name (List.mem_of_getLast? hlast)
  have hspelled : s = to_string_lossy e.name := by
    unfold to_string_lossy
    rw [hbytes, utf8_lossy_encode]
  have hweight : weight (shown e) ≤ weight s := by
    rw [hspelled, weight_shown]
  obtain ⟨hpath, hescape⟩ := spelled_bare hs hweight
  obtain ⟨hquery, hfragment⟩ := Url.path_part_eq_iff.mp hpath
  refine ⟨⟨⟨hscheme, hquery, hfragment⟩, hescape⟩, ?_⟩
  rw [hpath, (comps_below_shown root_dir (Url.directory r) hescape).1] at hinit
  obtain ⟨hdirectory, -⟩ := List.append_inj' hinit rfl
  unfold Reaches
  rw [hdirectory]
  exact hd

end Leads

/-! ## The links of a directory -/

/-- Regular files and directories stand in a directory, with names that are text. -/
structure Regular (fs : Fs) (p : Path) : Prop where
  text : ∀ n, fs.node (p ++ [n]) ≠ none → Unicode n
  no_links : ∀ n t, fs.node (p ++ [n]) ≠ some (.symlink t)

/-- What is scanned of such a directory. -/
theorem mem_scan {disk : Disk} {scan : Scan} {p : Path} {entries : List DirEntryMeta}
    {e : DirEntryMeta} (hp : disk.fs.Real p) (hregular : Regular disk.fs p)
    (hread : batch_read_dir_entries disk scan p = some entries) (he : e ∈ entries) :
    ∃ x, disk.fs.node (p ++ [e.name]) = some x ∧ e.is_dir = decide (x = .dir) := by
  unfold batch_read_dir_entries at hread
  rw [follow_self hp] at hread
  dsimp only at hread
  split at hread
  · cases hread
  · cases hread
    obtain ⟨n, hn, hentry⟩ := List.mem_filterMap.mp he
    have hnode := Fs.mem_children.mp ((scan.order_perm _ _).mem_iff.mp hn)
    obtain ⟨x, hx⟩ := Option.ne_none_iff_exists'.mp hnode
    have hlink : ∀ t, x ≠ .symlink t := by
      rintro t rfl
      exact hregular.no_links n t hx
    unfold Propfind.dir_entry at hentry
    split at hentry
    · cases hentry
    · rw [Propfind.metadata_real hx hlink, hx] at hentry
      cases hentry
      refine ⟨x, hx, ?_⟩
      dsimp only
      split
      · rfl
      · simp

/-- **When a link of a listing leads to its entry.** The listing has one anchor for each
entry that was scanned. It leads to the entry if its text is bare and the directory of the
request path is the one that is listed, or else by a detour that ends there. -/
theorem links_lead_iff {disk : Disk} {scan : Scan} {cwd p : Path}
    {root_dir root_canonical : PathBuf} {r html : List Char} {count : ℕ}
    {entries : List DirEntryMeta}
    (hr : resolve_existing disk.fs cwd root_dir root_canonical r = some p)
    (hregular : Regular disk.fs p)
    (hread : batch_read_dir_entries disk scan p = some entries)
    (hpage : generate_dir_listing disk scan p r = some (html, count)) :
    ∃ rs, html = page r rs ∧ (rs.map Prod.fst).Perm entries ∧ ∀ row ∈ rs,
      anchor row.1 = "<a href=\"".toList ++ (shown row.1 ++ ("\">".toList ++
        (shown row.1 ++ "</a>".toList))) ∧
      ((∃ t, Url.resolve r (shown row.1) = some t ∧
          resolve_existing disk.fs cwd root_dir root_canonical t = some (p ++ [row.1.name])) ↔
        (Bare (shown row.1) ∧ Reaches disk.fs cwd root_dir (Url.directory r) p) ∨
        ∃ t, Url.resolve r (shown row.1) = some t ∧
          Detour disk.fs cwd root_dir (Url.path_part (shown row.1)) t ∧
          canonicalize disk.fs cwd (root_dir.join (PathBuf.of_text (request_text t)))
            = .ok (p ++ [row.1.name])) := by
  have hreal := resolve_existing_real hr
  obtain ⟨-, hstart⟩ := resolve_existing_some_iff.mp hr
  unfold generate_dir_listing at hpage
  rw [hread] at hpage
  obtain ⟨rs, hrows, hhtml⟩ := Option.map_eq_some_iff.mp hpage
  obtain ⟨rfl, -⟩ := Prod.mk.inj hhtml
  -- the rows are the scanned entries, sorted
  have hperm : (rs.map Prod.fst).Perm entries := by
    rw [(rows_entries hrows).1]
    exact List.mergeSort_perm _ _
  refine ⟨rs, rfl, hperm, fun row hrow => ⟨anchor_eq row.1, ?_⟩⟩
  obtain ⟨x, hx, hkind⟩ := mem_scan hreal hregular hread
    (hperm.mem_iff.mp (List.mem_map_of_mem hrow))
  constructor
  · rintro ⟨t, hresolve, hfound⟩
    -- what is no detour goes through the directory of the request
    by_cases hdetour : Detour disk.fs cwd root_dir (Url.path_part (shown row.1)) t
    · exact Or.inr ⟨t, hresolve, hdetour, (resolve_existing_some_iff.mp hfound).1⟩
    · exact Or.inl (leads_bare hresolve hfound hdetour)
  · rintro (⟨hbare, hreach⟩ | ⟨t, hresolve, -, hcanon⟩)
    · refine bare_leads hstart hx ?_ ?_ (hregular.text _ (by simp [hx])) hbare hreach
      · rintro t rfl
        exact hregular.no_links _ t hx
      · intro hdir
        rw [hkind] at hdir
        exact of_decide_eq_true hdir
    · exact ⟨t, hresolve, resolve_existing_some_iff.mpr
        ⟨hcanon, Path.starts_with_of_prefix hstart (List.prefix_append _ _)⟩⟩

/-! ## A directory with one file -/

section OneFile

open Propfind (server_d free_d)

def root : PathBuf := PathBuf.of_text "/".toList

/-- What is scanned of the file `f`. -/
def entry_f : DirEntryMeta := Propfind.scanned server_d.disk [d_name, f_name] f_name (.file [])

theorem regular_d : Regular server_d.disk.fs [d_name] where
  text := by
    intro n hn
    change (if [d_name, n] = [d_name, f_name] then some (Node.file [])
      else if [d_name, n] = [d_name] then some Node.dir
      else if [d_name, n] = [] then some Node.dir else none) ≠ none at hn
    split at hn
    · rename_i heq
      have hname : n = f_name := by simpa using heq
      rw [hname]
      decide
    · simp at hn
  no_links := fun n t => free_d _ t (List.prefix_append _ _)

theorem links_lead_iff_d :
    ∃ rs count, generate_dir_listing server_d.disk server_d.scan [d_name] "/d/".toList
        = some (page "/d/".toList rs, count) ∧
      ∀ row ∈ rs,
        ((∃ t, Url.resolve "/d/".toList (shown row.1) = some t ∧
            resolve_existing server_d.disk.fs [] root root t = some [d_name, row.1.name]) ↔
          (Bare (shown row.1) ∧
            Reaches server_d.disk.fs [] root (Url.directory "/d/".toList) [d_name]) ∨
          ∃ t, Url.resolve "/d/".toList (shown row.1) = some t ∧
            Detour server_d.disk.fs [] root (Url.path_part (shown row.1)) t ∧
            canonicalize server_d.disk.fs [] (root.join (PathBuf.of_text (request_text t)))
              = .ok [d_name, row.1.name]) := by
  have hsome : (generate_dir_listing server_d.disk server_d.scan [d_name] "/d/".toList).isSome := by
    decide +kernel
  obtain ⟨⟨html, count⟩, hpage⟩ := Option.isSome_iff_exists.mp hsome
  have hread : batch_read_dir_entries server_d.disk server_d.scan [d_name] = some [entry_f] := rfl
  have hr : resolve_existing server_d.disk.fs [] root root "/d/".toList = some [d_name] := by decide
  obtain ⟨rs, hhtml, -, hrows⟩ := links_lead_iff hr regular_d hread hpage
  rw [hhtml] at hpage
  exact ⟨rs, count, hpage, fun row hrow => (hrows row hrow).2⟩

/-- Without a separator at the end of the request path, the link of `f` leads to a path
above the directory. -/
theorem link_above_directory :
    Regular server_d.disk.fs [d_name] ∧
      resolve_existing server_d.disk.fs [] root root "/d".toList = some [d_name] ∧
      batch_read_dir_entries server_d.disk server_d.scan [d_name] = some [entry_f] ∧
      ¬ ∃ t, Url.resolve "/d".toList (shown entry_f) = some t ∧
        resolve_existing server_d.disk.fs [] root root t = some [d_name, f_name] := by
  refine ⟨regular_d, by decide, rfl, ?_⟩
  rintro ⟨t, hresolve, hfound⟩
  have habove : Url.resolve "/d".toList (shown entry_f) = some "/f".toList := by decide +kernel
  have hnone : resolve_existing server_d.disk.fs [] root root "/f".toList = none := by decide
  rw [habove] at hresolve
  cases hresolve
  rw [hnone] at hfound
  cases hfound

end OneFile

end Rshs.Links
