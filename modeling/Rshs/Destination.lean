/-
Whether a `Destination` header names what its path names as a request URL.

A request path is decoded once, by the resolver. The path of the header is what
follows the authority, looked for behind the first `://` anywhere in the value; the
parser decodes it, strips the separators at its end, and the resolver decodes it
again. `destination_agrees_iff` says when the two end at the same write target in every
file system: the path is the one that was meant and its decoded text has no escape
left, or both texts are refused, or both lead through a name no file system can hold.
-/
import Rshs.Escapes
import Rshs.IfSyntax
import Rshs.Release
import Rshs.CheckedPath
import Rshs.Str

set_option autoImplicit false

namespace Rshs.Destination

open StdPath Posix FinMap Text Rshs.Webdav Rshs.IfHeader Rshs.Resolve Rshs.CheckedPath

/-! ## The header -/

/-- A path as it stands in a URL without query and fragment. -/
structure AbsolutePath (p : List Char) : Prop where
  absolute : p.head? = some '/'
  visible : ∀ c ∈ p, 33 ≤ c.toNat ∧ c.toNat < 127
  no_query : '?' ∉ p
  no_fragment : '#' ∉ p

/-- The two ways to give a path in the header. -/
inductive Gives (p : List Char) : List Char → Prop
  | path : Gives p p
  | url (scheme authority : List Char) (hcolon : ':' ∉ scheme) (hscheme : '/' ∉ scheme)
      (hauthority : '/' ∉ authority)
      (hvisible : ∀ c ∈ scheme ++ authority, 33 ≤ c.toNat ∧ c.toNat < 127) :
      Gives p (scheme ++ "://".toList ++ authority ++ p)

/-- The part of a value the parser takes for the path, when the value gives `p`: a URL
gives `p`, and so does `p` itself unless it holds `://`. -/
def Taken (p value s : List Char) : Prop :=
  ((value ≠ p ∨ after_first "://".toList p = none) ∧ s = p) ∨
    (value = p ∧ ∃ b rest, after_first "://".toList p = some b ∧
      after_first ['/'] b = some rest ∧ s = '/' :: rest)

/-- What was found begins behind the pattern. -/
theorem after_first_some {pat s b : List Char} (h : after_first pat s = some b) :
    ∃ a, s = a ++ pat ++ b := by
  induction s with
  | nil =>
    unfold after_first at h
    split at h
    · rename_i hpat
      cases h
      exact ⟨[], by rw [hpat]; rfl⟩
    · cases h
  | cons c cs ih =>
    unfold after_first at h
    split at h
    · rename_i hpre
      obtain ⟨r, hr⟩ := List.isPrefixOf_iff_prefix.mp hpre
      rw [← hr, List.drop_left, Option.some_inj] at h
      exact ⟨[], by rw [← h, List.nil_append, hr]⟩
    · obtain ⟨a, ha⟩ := ih h
      exact ⟨c :: a, by rw [ha]; rfl⟩

/-- A pattern is found where its first character first stands. -/
theorem after_first_append {x : Char} {xs a b : List Char} (h : x ∉ a) :
    after_first (x :: xs) (a ++ (x :: xs) ++ b) = some b := by
  induction a with
  | nil =>
    have hpre : (x :: xs).isPrefixOf (x :: (xs ++ b)) = true :=
      List.isPrefixOf_iff_prefix.mpr ⟨b, rfl⟩
    rw [List.nil_append, List.cons_append, after_first, if_pos hpre, ← List.cons_append,
      List.drop_left]
  | cons c a ih =>
    rw [List.mem_cons, not_or] at h
    rw [List.cons_append, List.cons_append, after_first, if_neg, ih h.2]
    intro hpre
    exact h.1 (List.cons_prefix_cons.mp (List.isPrefixOf_iff_prefix.mp hpre)).1

/-- **What the parser makes of the header.** -/
theorem parse_destination_iff {p value dest : List Char} {headers : HeaderMap}
    (hp : AbsolutePath p) (hgives : Gives p value)
    (hvalue : headers.destination = some (header_value (String.ofList value))) :
    parse_destination headers = some dest ↔
      ∃ s, Taken p value s ∧ dest = trim_end_matches '/' (decode s) := by
  -- every character of the value is one that `to_str` carries
  have hcarried : ∀ c ∈ value, Carried c := by
    intro c hc
    have hascii : ∀ c ∈ "://".toList, Carried c := by
      have hvis : ∀ c ∈ "://".toList, 32 ≤ c.toNat ∧ c.toNat < 127 := forall_mem_of_all (by decide)
      intro c hc
      exact Or.inl (hvis c hc)
    cases hgives with
    | path =>
      have := hp.visible c hc
      exact Or.inl (by omega)
    | url scheme authority hcolon hscheme hauthority hvisible =>
      simp only [List.mem_append] at hc hvisible
      rcases hc with ((hc | hc) | hc) | hc
      · have := hvisible c (Or.inl hc)
        exact Or.inl (by omega)
      · exact hascii c hc
      · have := hvisible c (Or.inr hc)
        exact Or.inl (by omega)
      · have := hp.visible c hc
        exact Or.inl (by omega)
  have hstr : headers.destination.bind HeaderValue.to_str = some value := by
    rw [hvalue, Option.bind_some, to_str_header_value hcarried]
  obtain ⟨rest, hrest⟩ : ∃ rest, p = '/' :: rest := by
    have habs := hp.absolute
    cases p with
    | nil => cases habs
    | cons c rest =>
      rw [List.head?_cons, Option.some_inj] at habs
      exact ⟨rest, by rw [habs]⟩
  unfold parse_destination
  rw [← Option.bind_assoc, hstr, Option.bind_some]
  dsimp only
  -- the cases of the header: a path alone, or a URL that ends in the path
  cases hgives with
  | path =>
    -- a path with `://` inside is taken for a URL
    cases hafter : after_first "://".toList p with
    | none =>
      dsimp only
      rw [if_pos hp.absolute, Option.map_some, Option.some_inj]
      constructor
      · intro h
        exact ⟨p, Or.inl ⟨Or.inr hafter, rfl⟩, h.symm⟩
      · rintro ⟨s, ⟨-, rfl⟩ | ⟨-, b, rest, hb, -⟩, rfl⟩
        · rfl
        · rw [hafter] at hb
          cases hb
    | some b =>
      dsimp only
      rw [Option.map_map, Option.map_eq_some_iff]
      constructor
      · rintro ⟨rest, hb, rfl⟩
        exact ⟨'/' :: rest, Or.inr ⟨rfl, b, rest, hafter, hb, rfl⟩, rfl⟩
      · rintro ⟨s, ⟨hne | hnone, -⟩ | ⟨-, b', rest, hb, hrest, rfl⟩, rfl⟩
        · exact absurd rfl hne
        · rw [hafter] at hnone
          cases hnone
        · rw [hafter, Option.some_inj] at hb
          rw [hb]
          exact ⟨rest, hrest, rfl⟩
  | url scheme authority hcolon hscheme hauthority hvisible =>
    -- the scheme makes the value longer than its path
    have hne : scheme ++ "://".toList ++ authority ++ p ≠ p := by
      intro heq
      have hlen := congrArg List.length heq
      simp only [List.length_append] at hlen
      have hsep : "://".toList.length = 3 := rfl
      omega
    have hfound : after_first "://".toList (scheme ++ "://".toList ++ authority ++ p) =
        some (authority ++ p) := by
      rw [List.append_assoc]
      exact after_first_append hcolon
    have hpath : after_first ['/'] (authority ++ p) = some rest := by
      have hfirst := @after_first_append '/' [] authority rest hauthority
      rw [List.append_assoc] at hfirst
      rw [hrest]
      exact hfirst
    rw [hfound]
    dsimp only
    rw [hpath, Option.map_some, Option.map_some, Option.some_inj, ← hrest]
    constructor
    · intro h
      exact ⟨p, Or.inl ⟨Or.inl hne, rfl⟩, h.symm⟩
    · rintro ⟨s, ⟨-, rfl⟩ | ⟨heq, -⟩, rfl⟩
      · rfl
      · exact absurd heq hne

/-! ## The text behind a path -/

/-- A text that names no write target: empty, a directory, or with a dot segment, once
the separators in front of it are gone. -/
def Refused (decoded : List Char) : Prop := ¬ Plain (trim_start_matches '/' decoded)

/-- The names a decoded text spells. -/
def spelled (decoded : List Char) : List Name := names_of_text (trim_start_matches '/' decoded)

/-- A text whose directory part holds a name no file system can hold. -/
def Unfindable (decoded : List Char) : Prop :=
  ¬ Refused decoded ∧ ∃ n ∈ (spelled decoded).dropLast, n.has_nul = true

/-- The names of a plain text are the text, separators aside. -/
theorem plain_text_of_names {t : List Char} (h : Plain t) :
    (names_of_text t).flatMap (fun n => utf8_lossy n.bytes) = t.filter (· ≠ '/') := by
  have hslash : ∀ s ∈ t.splitOn '/', '/' ∉ s := by
    intro s hs hmem
    have hnot := (Str.mem_splitOnP_iff.mp ⟨s, hs, hmem⟩).2
    simp at hnot
  have hdots := h.no_dots
  rw [← flatten_split, names_of_text]
  generalize t.splitOn '/' = segs at hslash hdots
  induction segs with
  | nil => rfl
  | cons s segs ih =>
    rw [List.forall_mem_cons] at hslash hdots
    rw [List.flatten_cons, ← ih hslash.2 hdots.2]
    by_cases hlegal : Name.Legal (utf8_encode s)
    · have hname : Name.of_segment s = some ⟨utf8_encode s, hlegal⟩ := dif_pos hlegal
      rw [List.filterMap_cons_some hname, List.flatMap_cons, utf8_lossy_encode]
    · -- the only segment of a plain text that is no name is the empty one
      have hnil : s = [] := by
        by_contra hne
        exact hlegal (Name.legal_of_segment hne hdots.1.2 hdots.1.1 hslash.1)
      have hname : Name.of_segment s = none := dif_neg hlegal
      rw [List.filterMap_cons_none hname, hnil, List.nil_append]

theorem weight_trim_start (d : List Char) : weight (trim_start_matches '/' d) = weight d := by
  unfold trim_start_matches
  induction d with
  | nil => rfl
  | cons c d ih =>
    by_cases hc : c = '/'
    · rw [List.dropWhile_cons_of_pos (by simpa using hc), ih, hc]
      rfl
    · rw [List.dropWhile_cons_of_neg (by simpa using hc)]

/-- Texts with the same names have the same weight. -/
theorem weight_of_spelled {d e : List Char} (hd : ¬ Refused d) (he : ¬ Refused e)
    (h : spelled d = spelled e) : weight d = weight e := by
  have hweight : ∀ d, ¬ Refused d →
      weight d = ((spelled d).flatMap (fun n => utf8_lossy n.bytes)).length := by
    intro d hd
    rw [spelled, plain_text_of_names (not_not.mp hd), ← weight_trim_start, weight,
      List.countP_eq_length_filter]
  rw [hweight d hd, hweight e he, h]

/-! ## The two decoded texts -/

/-- The separators at the end of a path decode to themselves. -/
theorem decode_trim_end (p : List Char) :
    ∃ k, decode p = decode (trim_end_matches '/' p) ++ List.replicate k '/' := by
  obtain ⟨k, hk⟩ := Release.trim_end_split p
  have hnil : decode [] = [] := rfl
  refine ⟨k, ?_⟩
  conv => lhs; rw [hk]
  clear hk
  induction k with
  | zero => simp
  | succ k ih => rw [List.replicate_succ', ← List.append_assoc, decode_slash, ih, hnil,
      List.append_assoc]

theorem weight_slashes (d : List Char) (k : ℕ) : weight (d ++ List.replicate k '/') = weight d := by
  rw [weight_append, weight, weight, List.countP_replicate]
  simp

theorem weight_trim_end (d : List Char) : weight (trim_end_matches '/' d) = weight d := by
  obtain ⟨k, hk⟩ := Release.trim_end_split d
  conv => rhs; rw [hk, weight_slashes]

/-! ## What a text leads to in any file system -/

/-- No name with a NUL byte stands anywhere: no system call creates one. -/
def Possible (fs : Fs) : Prop := ∀ q, fs.node q ≠ none → ∀ n ∈ q, n.has_nul = false

/-- Every cached parent was found at some time. -/
def Cached (cache : Cache) : Prop :=
  ∀ k pc, cache.lookup k = some pc →
    ∃ fs cwd, Possible fs ∧ canonicalize fs cwd { comps := k, slash := false } = .ok pc

section Targets

variable (fs : Fs) (cwd : Path) (root_dir root_canonical : PathBuf) (cache : Cache)

/-- The write target of a text, or the status the request is refused with. -/
def write_target (t : List Char) : Except StatusCode Path :=
  (resolve_and_guard fs cwd root_dir root_canonical t cache).1.mapError (·.status .BAD_REQUEST)

/-- What a text leads to is decided by what it decodes to. -/
theorem write_target_congr {s t : List Char} (h : decode s = decode t) :
    write_target fs cwd root_dir root_canonical cache s =
      write_target fs cwd root_dir root_canonical cache t := by
  have hwrite : resolve_write_target root_dir s = resolve_write_target root_dir t := by
    unfold resolve_write_target
    simp only [h]
  unfold write_target resolve_and_guard
  rw [hwrite]

theorem write_target_ok_iff {t : List Char} {m : Path} :
    write_target fs cwd root_dir root_canonical cache t = .ok m ↔
      (resolve_and_guard fs cwd root_dir root_canonical t cache).1 = .ok m := by
  unfold write_target
  cases (resolve_and_guard fs cwd root_dir root_canonical t cache).1 with
  | error e => simp [Except.mapError]
  | ok p => simp [Except.mapError]

theorem write_target_refused_iff {t : List Char} :
    write_target fs cwd root_dir root_canonical cache t = .error .BAD_REQUEST ↔
      Refused (decode t) := by
  unfold write_target resolve_and_guard
  cases ht : resolve_write_target root_dir t with
  | none =>
    exact ⟨fun _ => resolve_write_target_none_iff.mp ht, fun _ => rfl⟩
  | some target =>
    have hplain := (resolve_write_target_some_iff.mp ht).1
    dsimp only
    refine ⟨fun h => ?_, fun h => absurd hplain h⟩
    split at h
    · cases h
    · split at h <;> cases h

end Targets

/-- Every name that is walked through stands somewhere. -/
theorem canonicalize_no_nul {fs : Fs} {cwd pc : Path} {k : List Component} (hfs : Possible fs)
    (h : canonicalize fs cwd { comps := k, slash := false } = .ok pc) {n : Name}
    (hn : .normal n ∈ k) : n.has_nul = false := by
  obtain ⟨xs, ys, rfl⟩ := List.append_of_mem hn
  unfold canonicalize at h
  rw [if_neg (by simp)] at h
  have hsteps : steps { comps := xs ++ Component.normal n :: ys, slash := false } =
      xs ++ Component.normal n :: ys := List.append_nil _
  rw [hsteps] at h
  obtain ⟨d, l, -, hwalk⟩ := walk_split (by simp) h
  have hdir := walk_dir hwalk
  rw [walk_level, walk_with_cons, if_neg (not_not.mpr hdir)] at hwalk
  refine hfs (d ++ [n]) (fun hnone => ?_) n (by simp)
  dsimp only at hwalk
  rw [hnone] at hwalk
  simp at hwalk

/-- A text that leads through a name no file system can hold finds no parent. -/
theorem write_target_unfindable {fs : Fs} {cwd : Path} {root_dir root_canonical : PathBuf}
    {cache : Cache} {t : List Char} (hfs : Possible fs) (hcache : Cached cache)
    (h : Unfindable (decode t)) :
    write_target fs cwd root_dir root_canonical cache t = .error .CONFLICT := by
  obtain ⟨hplain, nul, hnul, hbad⟩ := h
  cases ht : resolve_write_target root_dir t with
  | none => exact absurd (resolve_write_target_none_iff.mp ht) hplain
  | some target =>
    obtain ⟨init, n, hnames, hparent, -⟩ := target_parts ht
    have hin : .normal nul ∈ (below root_dir init).comps := by
      have hspelled : spelled (decode t) = init ++ [n] := hnames
      rw [hspelled, List.dropLast_concat] at hnul
      exact List.mem_append_right _ (List.mem_map_of_mem hnul)
    -- neither the cache nor the file system has the parent
    have hnot : ∀ pc, ¬ Held fs cwd cache (below root_dir init) pc := by
      intro pc hheld
      have hgood : nul.has_nul = false := by
        rcases hheld with hcached | ⟨-, hcanon⟩
        · obtain ⟨fs', cwd', hfs', hcanon⟩ := hcache _ _ hcached
          exact canonicalize_no_nul hfs' hcanon hin
        · exact canonicalize_no_nul hfs hcanon hin
      rw [hbad] at hgood
      cases hgood
    unfold write_target resolve_and_guard
    rw [ht]
    dsimp only
    rw [hparent, Option.getD_some]
    rcases hc : canonical_parent fs cwd (below root_dir init) cache with ⟨r, c⟩
    cases r with
    | error e => rfl
    | ok pc => exact absurd (canonical_parent_ok_iff.mp (by rw [hc])) (hnot pc)

/-! ## A disk with one line of directories -/

/-- The directories down to a path, and nothing else. -/
def line (p : Path) : Fs where
  node q := if q <+: p then some .dir else none
  known := p.inits
  mem_known := by
    intro q hq
    rw [List.mem_inits]
    by_contra hnot
    rw [if_neg hnot] at hq
    exact hq rfl
  root_dir := if_pos (List.nil_prefix)
  parent_dir := by
    intro q n hq
    by_cases h : q ++ [n] <+: p
    · exact if_pos ((List.prefix_append q [n]).trans h)
    · rw [if_neg h] at hq
      exact absurd rfl hq

theorem line_possible {p : Path} (h : ∀ n ∈ p, n.has_nul = false) : Possible (line p) := by
  intro q hq n hn
  have hpre : q <+: p := by
    by_contra hnot
    exact hq (if_neg hnot)
  exact h n (hpre.subset hn)

/-- On it names lead straight down, and no further than its end. -/
theorem follow_line {p q : Path} {ns : List Name} (h : follow (line p) ns = .ok q) : q = ns := by
  have hlinks : ∀ r t, (line p).node r ≠ some (.symlink t) := by
    intro r t hr
    have hnode : (if r <+: p then some Node.dir else none) = some (.symlink t) := hr
    split at hnode <;> cases hnode
  have hroot : (line p).node [] = some .dir := (line p).root_dir
  unfold follow Path.comps at h
  rw [walk_level, walk_with_cons, if_neg (not_not.mpr hroot)] at h
  have hstraight := walk_straight (fun ms _ t => hlinks ([] ++ ms) t) (walk_level _ ▸ h)
  exact hstraight

theorem canonicalize_root (fs : Fs) (ns : List Name) :
    canonicalize fs [] (below (Path.to_buf []) ns) = follow fs ns := by
  unfold canonicalize follow
  rw [if_neg (by simp [below, Path.to_buf, Path.comps])]
  simp [steps, below, Path.to_buf, Path.comps]

/-- A write target of a text on such a disk is the path its names spell. -/
theorem write_target_line {p m : Path} {t : List Char}
    (h : write_target (line p) [] (Path.to_buf []) (Path.to_buf []) ∅ t = .ok m) :
    m = spelled (decode t) := by
  obtain ⟨-, init, n, pc, hnames, hheld, -, rfl⟩ :=
    resolve_and_guard_ok_iff.mp ((write_target_ok_iff ..).mp h)
  rcases hheld with hcached | ⟨-, hcanon⟩
  · cases hcached
  · rw [canonicalize_root] at hcanon
    rw [follow_line hcanon]
    exact hnames.symm

/-- And a findable text has one, on the disk with its own directories. -/
theorem write_target_found {t : List Char} (hplain : ¬ Refused (decode t))
    (hfind : ¬ Unfindable (decode t)) :
    ∃ p, Possible (line p) ∧
      write_target (line p) [] (Path.to_buf []) (Path.to_buf []) ∅ t =
        .ok (spelled (decode t)) := by
  obtain ⟨init, n, hnames⟩ := (not_not.mp hplain).names
  have hspelled : spelled (decode t) = init ++ [n] := hnames
  have hgood : ∀ n ∈ init, n.has_nul = false := by
    intro m hm
    by_contra hbad
    refine hfind ⟨hplain, m, ?_, by simpa using hbad⟩
    rw [hspelled, List.dropLast_concat]
    exact hm
  refine ⟨init, line_possible hgood, (write_target_ok_iff ..).mpr ?_⟩
  refine resolve_and_guard_ok_iff.mpr ⟨not_not.mp hplain, init, n, init, hnames,
    Or.inr ⟨rfl, ?_⟩, ?_, hspelled⟩
  · rw [canonicalize_root]
    exact follow_self ⟨.dir, if_pos List.prefix_rfl, by simp⟩
  · rw [Path.starts_with_iff]
    exact Path.comps_prefix_iff.mpr List.nil_prefix

/-! ## When two texts lead to the same -/

section Same

variable {s t : List Char}

/-- In every state of the disk and the cache the two texts lead to the same. -/
def Same (s t : List Char) : Prop :=
  ∀ fs cwd root_dir root_canonical cache, Possible fs → Cached cache →
    write_target fs cwd root_dir root_canonical cache s =
      write_target fs cwd root_dir root_canonical cache t

theorem cached_empty : Cached ∅ := by
  intro k pc h
  cases h

/-- **Texts that lead to the same** are both refused, or both unfindable, or spell the
same names. -/
theorem same_cases (h : Same s t) :
    (Refused (decode s) ∧ Refused (decode t)) ∨ (Unfindable (decode s) ∧ Unfindable (decode t)) ∨
      (¬ Refused (decode s) ∧ ¬ Refused (decode t) ∧
        spelled (decode s) = spelled (decode t)) := by
  have hrefused : Refused (decode s) ↔ Refused (decode t) := by
    have hempty : Possible (line []) := line_possible (by simp)
    rw [← write_target_refused_iff (line []) [] (Path.to_buf []) (Path.to_buf []) ∅,
      h _ _ _ _ _ hempty cached_empty, write_target_refused_iff]
  by_cases hs : Refused (decode s)
  · exact Or.inl ⟨hs, hrefused.mp hs⟩
  · have ht : ¬ Refused (decode t) := fun ht => hs (hrefused.mpr ht)
    -- a disk on which one of the two has a target shows the names of both
    by_cases hus : Unfindable (decode s)
    · by_cases hut : Unfindable (decode t)
      · exact Or.inr (Or.inl ⟨hus, hut⟩)
      · obtain ⟨p, hp, hfound⟩ := write_target_found ht hut
        rw [← h _ _ _ _ _ hp cached_empty] at hfound
        exact Or.inr (Or.inr ⟨hs, ht, (write_target_line hfound).symm⟩)
    · obtain ⟨p, hp, hfound⟩ := write_target_found hs hus
      rw [h _ _ _ _ _ hp cached_empty] at hfound
      exact Or.inr (Or.inr ⟨hs, ht, write_target_line hfound⟩)

theorem same_of_refused (hs : Refused (decode s)) (ht : Refused (decode t)) : Same s t := by
  intro fs cwd root_dir root_canonical cache _ _
  rw [(write_target_refused_iff ..).mpr hs, (write_target_refused_iff ..).mpr ht]

theorem same_of_unfindable (hs : Unfindable (decode s)) (ht : Unfindable (decode t)) :
    Same s t := by
  intro fs cwd root_dir root_canonical cache hfs hcache
  rw [write_target_unfindable hfs hcache hs, write_target_unfindable hfs hcache ht]

end Same

/-! ## The header and the request -/

/-- The header names what a request to `p`, its separators at the end removed, names:
the parser accepts it, and the two texts lead to the same write target. -/
def Agrees (headers : HeaderMap) (p : List Char) : Prop :=
  ∃ dest, parse_destination headers = some dest ∧ Same dest (trim_end_matches '/' p)

/-- A text that is not refused ends in no separator. -/
theorem trim_end_of_accepted {d : List Char} (h : ¬ Refused d) : trim_end_matches '/' d = d := by
  have hplain := not_not.mp h
  refine List.rdropWhile_eq_self_iff.mpr (fun hne hlast => hplain.not_dir ?_)
  obtain ⟨pre, hpre⟩ := List.dropWhile_suffix (l := d) (fun c => decide (c = '/'))
  have hend : d.getLast? = some '/' := by
    rw [List.getLast?_eq_some_getLast hne]
    simpa using hlast
  rw [← hpre, List.getLast?_append] at hend
  have hsome := List.getLast?_eq_some_getLast hplain.not_nil
  unfold trim_start_matches at hsome ⊢
  rw [hsome] at hend
  rw [hsome]
  exact hend

theorem trim_end_slashes (d : List Char) (k : ℕ) :
    trim_end_matches '/' (d ++ List.replicate k '/') = trim_end_matches '/' d := by
  unfold trim_end_matches
  induction k with
  | zero => simp
  | succ k ih =>
    rw [List.replicate_succ', ← List.append_assoc, List.rdropWhile_concat_pos _ _ _ (by simp), ih]

/-- What is decoded a second time, when the first decoding is accepted. -/
theorem decoded_again {p : List Char} (h : ¬ Refused (decode (trim_end_matches '/' p))) :
    trim_end_matches '/' (decode p) = decode (trim_end_matches '/' p) := by
  obtain ⟨k, hk⟩ := decode_trim_end p
  rw [hk, trim_end_slashes, trim_end_of_accepted h]

theorem weight_decoded_again (s : List Char) :
    weight (decode (trim_end_matches '/' (decode s))) ≤ weight (decode s) := by
  have hle := weight_decode_le (trim_end_matches '/' (decode s))
  rw [weight_trim_end] at hle
  exact hle

/-- What stands in front of the path taken is lost, and it holds a colon. -/
theorem weight_taken {p b rest : List Char} (hb : after_first "://".toList p = some b)
    (hrest : after_first ['/'] b = some rest) :
    weight (decode ('/' :: rest)) < weight (decode p) := by
  obtain ⟨a, rfl⟩ := after_first_some hb
  obtain ⟨a', rfl⟩ := after_first_some hrest
  have hp : a ++ "://".toList ++ (a' ++ ['/'] ++ rest) =
      (a ++ "://".toList ++ a') ++ '/' :: rest := by simp
  have hcolon : ':' ∈ decode (a ++ "://".toList ++ a') :=
    mem_decode (by decide) (by decide) (by simp)
  have hpos : 0 < weight (decode (a ++ "://".toList ++ a')) :=
    List.countP_pos_iff.mpr ⟨':', hcolon, by decide⟩
  have hnil : decode [] = [] := rfl
  have hslash := decode_slash [] rest
  rw [hnil, List.nil_append, List.nil_append] at hslash
  rw [hp, decode_slash, weight_append, hslash]
  omega

/-- Where both spell the same names, the path taken is the one meant and the second
decoding finds no escape. -/
theorem taken_of_spelled {p value s : List Char} (htaken : Taken p value s)
    (hd : ¬ Refused (decode (trim_end_matches '/' p)))
    (he : ¬ Refused (decode (trim_end_matches '/' (decode s))))
    (heq : spelled (decode (trim_end_matches '/' (decode s))) =
      spelled (decode (trim_end_matches '/' p))) :
    s = p ∧ ¬ HasEscape (decode (trim_end_matches '/' p)) := by
  have hweight := weight_of_spelled he hd heq
  rcases htaken with ⟨-, rfl⟩ | ⟨-, b, rest, hb, hrest, rfl⟩
  · refine ⟨rfl, fun hesc => ?_⟩
    have hlt := weight_decode_lt hesc
    rw [decoded_again hd] at hweight
    omega
  · -- the shorter path cannot weigh as much
    have hlt := weight_taken hb hrest
    have hle := weight_decoded_again ('/' :: rest)
    obtain ⟨k, hk⟩ := decode_trim_end p
    rw [hk, weight_slashes] at hlt
    omega

/-- **When the `Destination` header names what the request URL names.** The path taken
out of the header is `p` and its decoded text has no escape left to decode; or both
texts are refused; or both lead through a name no file system can hold. -/
theorem destination_agrees_iff {p value : List Char} {headers : HeaderMap}
    (hp : AbsolutePath p) (hgives : Gives p value)
    (hvalue : headers.destination = some (header_value (String.ofList value))) :
    Agrees headers p ↔ ∃ s, Taken p value s ∧
      ((s = p ∧ ¬ Refused (decode (trim_end_matches '/' p)) ∧
          ¬ HasEscape (decode (trim_end_matches '/' p))) ∨
        (Refused (decode (trim_end_matches '/' p)) ∧
          Refused (decode (trim_end_matches '/' (decode s)))) ∨
        (Unfindable (decode (trim_end_matches '/' p)) ∧
          Unfindable (decode (trim_end_matches '/' (decode s))))) := by
  have hparse := fun dest => @parse_destination_iff p value dest headers hp hgives hvalue
  constructor
  · rintro ⟨dest, hdest, hsame⟩
    obtain ⟨s, htaken, rfl⟩ := (hparse dest).mp hdest
    refine ⟨s, htaken, ?_⟩
    rcases same_cases hsame with ⟨he, hd⟩ | ⟨he, hd⟩ | ⟨he, hd, heq⟩
    · exact Or.inr (Or.inl ⟨hd, he⟩)
    · exact Or.inr (Or.inr ⟨hd, he⟩)
    · obtain ⟨hs, hesc⟩ := taken_of_spelled htaken hd he heq
      exact Or.inl ⟨hs, hd, hesc⟩
  · rintro ⟨s, htaken, h⟩
    refine ⟨trim_end_matches '/' (decode s), (hparse _).mpr ⟨s, htaken, rfl⟩, ?_⟩
    rcases h with ⟨rfl, hd, hesc⟩ | ⟨hd, he⟩ | ⟨hd, he⟩
    · intro fs cwd root_dir root_canonical cache _ _
      apply write_target_congr
      rw [decoded_again hd, decode_plain_text hesc]
    · exact same_of_refused he hd
    · exact same_of_unfindable he hd

/-- A URL with a name in plain letters, and a separator at its end. -/
theorem destination_agrees_iff_a :
    Agrees { destination := some (header_value "http://h/a/") } "/a/".toList := by
  have hp : AbsolutePath "/a/".toList :=
    ⟨rfl, forall_mem_of_all (by decide), by decide, by decide⟩
  have hgives : Gives "/a/".toList "http://h/a/".toList :=
    .url "http".toList "h".toList (by decide) (by decide) (by decide)
      (forall_mem_of_all (by decide))
  have hvalue : ({ destination := some (header_value "http://h/a/") } : HeaderMap).destination =
      some (header_value (String.ofList "http://h/a/".toList)) := by simp
  have hdecoded : decode (trim_end_matches '/' "/a/".toList) = "/a".toList := by decide
  refine (destination_agrees_iff hp hgives hvalue).mpr
    ⟨"/a/".toList, Or.inl ⟨Or.inl (by decide), rfl⟩, Or.inl ⟨rfl, ?_, ?_⟩⟩
  · rw [hdecoded]
    exact not_not.mpr ⟨by decide, by decide, by decide, by decide⟩
  · rw [hdecoded]
    rintro ⟨a, h, l, b, heq, -, -⟩
    have hmem : '%' ∈ "/a".toList := by rw [heq]; simp
    revert hmem
    decide

/-- A name with a percent sign: the request finds `a%41`, the header `aA`. -/
theorem percent_decoded_twice :
    ¬ ∀ (p value : List Char) (headers : HeaderMap), AbsolutePath p → Gives p value →
      headers.destination = some (header_value (String.ofList value)) → Agrees headers p := by
  intro h
  obtain ⟨dest, hdest, hsame⟩ := h "/a%2541".toList "/a%2541".toList
    { destination := some (header_value "/a%2541") }
    ⟨rfl, forall_mem_of_all (by decide), by decide, by decide⟩ .path (by simp)
  have hparse : parse_destination { destination := some (header_value "/a%2541") } =
      some "/a%41".toList := by decide
  rw [hparse, Option.some_inj] at hdest
  have hdecoded : decode dest = "/aA".toList := by rw [← hdest]; decide
  have hrequest : decode (trim_end_matches '/' "/a%2541".toList) = "/a%41".toList := by decide
  have hcases := same_cases hsame
  rw [hdecoded, hrequest] at hcases
  rcases hcases with ⟨hrefused, -⟩ | ⟨⟨-, n, hn, -⟩, -⟩ | ⟨-, -, heq⟩
  · exact hrefused ⟨by decide, by decide, by decide, by decide⟩
  · have hnone : (spelled "/aA".toList).dropLast = [] := by decide
    rw [hnone] at hn
    cases hn
  · revert heq
    decide

end Rshs.Destination
