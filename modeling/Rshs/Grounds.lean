/-
The served directory as a hierarchy.

Where no link stands in the served directory, every path below it leads straight down:
what a path is followed to, opened at and created at is the path itself. `Ground` is that
state of the tree, `Shows` says which hierarchy it holds, and each change that a system
call can make below the root is one of the operations on hierarchies (`Shows.put`,
`Shows.prune`, `Shows.graft`) or leaves a ground (`Within`).
-/
import Rshs.CopySpins
import Rshs.Hierarchy
import Rshs.Href

set_option autoImplicit false

namespace Rshs.Grounds

open StdPath Posix Hierarchy Rshs.CopySpins Rshs.CopyRun

/-! ## The ground -/

/-- The served directory is one, no link stands in it, and no name has a NUL. -/
structure Ground (R : Path) (fs : Fs) : Prop where
  root : fs.node R = some .dir
  link_free : fs.LinkFree R
  nul_free : NulFree fs

/-- Where something stands, the path has no NUL. -/
theorem names_nul_free {fs : Fs} {q : Path} (h : NulFree fs) (hq : fs.node q ≠ none) :
    ∀ n ∈ q, n.has_nul = false := by
  intro n hn
  obtain ⟨a, b, rfl⟩ := List.append_of_mem hn
  apply h a n
  intro hnone
  exact hq (none_below hnone ⟨b, by simp⟩)

/-- What stands in the file system for an entry. -/
def node_of : Entry (List UInt8) → Node
  | .file c => .file c
  | .folder => .dir

/-- The entry that a node is; a link is none. -/
def entry_of : Node → Option (Entry (List UInt8))
  | .file c => some (.file c)
  | .dir => some .folder
  | .symlink _ => none

/-- The hierarchies that a file system can hold. -/
abbrev Files := Tree Name (List UInt8)

/-- Below `R` the file system holds the hierarchy `t`. -/
def Shows (R : Path) (fs : Fs) (t : Files) : Prop :=
  ∀ s, fs.node (R ++ s) = (t.entry s).map node_of

section Shows

variable {R : Path} {fs fs' : Fs} {t : Files} {s : List Name}

/-- The hierarchy that a ground holds. -/
def Ground.tree (h : Ground R fs) : Files where
  entry s := (fs.node (R ++ s)).bind entry_of
  root := by
    rw [List.append_nil, h.root]
    rfl
  above p n hn := by
    have hsome : fs.node (R ++ p ++ [n]) ≠ none := by
      intro hnone
      rw [← List.append_assoc, hnone] at hn
      exact hn rfl
    rw [fs.parent_dir _ n hsome]
    rfl

/-- The tree of a ground is shown by it. -/
theorem Ground.shows (h : Ground R fs) : Shows R fs h.tree := by
  intro s
  show fs.node (R ++ s) = ((fs.node (R ++ s)).bind entry_of).map node_of
  cases hx : fs.node (R ++ s) with
  | none => rfl
  | some x =>
    cases x with
    | file c => rfl
    | dir => rfl
    | symlink t => exact absurd hx (h.link_free s t)

theorem Shows.none_iff (h : Shows R fs t) : fs.node (R ++ s) = none ↔ t.entry s = none := by
  rw [h s, Option.map_eq_none_iff]

/-- A directory below the root is a folder of the tree. -/
theorem Shows.folder_iff (h : Shows R fs t) :
    fs.node (R ++ s) = some .dir ↔ t.entry s = some .folder := by
  rw [h s]
  rcases t.entry s with _ | c | _
  all_goals simp [node_of]

/-- A file below the root is one of the tree, with its content. -/
theorem Shows.file_iff (h : Shows R fs t) {c : List UInt8} :
    fs.node (R ++ s) = some (.file c) ↔ t.entry s = some (.file c) := by
  rw [h s]
  rcases t.entry s with _ | c' | _
  all_goals simp [node_of]

/-- A disk that shows a tree has no link below the root. -/
theorem Shows.link_free (h : Shows R fs t) : fs.LinkFree R := by
  intro s u
  rw [h s]
  rcases t.entry s with _ | c | _
  all_goals simp [node_of]

end Shows

/-! ## Paths below the root -/

section Paths

variable {R loc : Path} {fs : Fs} {s : List Name}

theorem Ground.free (h : Ground R fs) : Href.LinkFree fs R := by
  rintro q t ⟨r, rfl⟩
  exact h.link_free r t

/-- Below the root every node is where its path says. -/
theorem Ground.real (h : Ground R fs) (hs : fs.node (R ++ s) ≠ none) : fs.Real (R ++ s) :=
  h.free.real (List.prefix_append R s) hs

/-- A path below the root leads to itself. -/
theorem Ground.follow_iff (h : Ground R fs) :
    follow fs (R ++ s) = .ok loc ↔ loc = R ++ s ∧ fs.node (R ++ s) ≠ none := by
  have hroot : fs.Real R := ⟨_, h.root, by simp⟩
  by_cases hs : s = []
  · rw [hs, List.append_nil, follow_self hroot]
    constructor
    · intro heq
      cases heq
      exact ⟨rfl, by rw [h.root]; simp⟩
    · rintro ⟨rfl, -⟩
      rfl
  · unfold follow
    rw [comps_concat]
    have hwalk : walk fs false symlink_max [] R.comps = .ok R := walk_self hroot
    rw [Href.walk_names_iff h.free hroot hwalk hs]
    constructor
    · rintro ⟨rfl, hne⟩
      exact ⟨rfl, hne⟩
    · rintro ⟨rfl, hne⟩
      exact ⟨rfl, hne⟩

/-- What `metadata` says below the root is what stands there. -/
theorem Ground.metadata_iff (h : Ground R fs) {ft : FileType} :
    metadata fs (R ++ s) = .ok ft ↔ ∃ x, fs.node (R ++ s) = some x ∧ x.file_type = ft := by
  constructor
  · intro hm
    obtain ⟨q, x, hq, hx, ht⟩ := Transfer.metadata_ok hm
    rw [h.follow_iff] at hq
    rw [hq.1] at hx
    exact ⟨x, hx, ht⟩
  · rintro ⟨x, hx, rfl⟩
    have hreal := h.real (s := s) (by rw [hx]; exact Option.some_ne_none x)
    obtain ⟨y, hy, hlink⟩ := hreal
    rw [hx] at hy
    cases hy
    exact Transfer.metadata_real hx hlink

theorem Ground.metadata_isOk (h : Ground R fs) :
    (metadata fs (R ++ s)).isOk = true ↔ fs.node (R ++ s) ≠ none := by
  constructor
  · intro hok
    cases hm : metadata fs (R ++ s) with
    | error e =>
      rw [hm] at hok
      cases hok
    | ok ft =>
      obtain ⟨x, hx, -⟩ := h.metadata_iff.mp hm
      rw [hx]
      exact Option.some_ne_none x
  · intro hne
    obtain ⟨x, hx⟩ := Option.ne_none_iff_exists'.mp hne
    rw [h.metadata_iff.mpr ⟨x, hx, rfl⟩]
    rfl

/-- Something can be put below the root where its parent is a directory. -/
def Room (R : Path) (fs : Fs) (s : List Name) : Prop :=
  s ≠ [] ∧ fs.node (R ++ s.dropLast) = some .dir ∧ ∀ n, s.getLast? = some n → n.has_nul = false

/-- A path below the root leads to itself, if there is room for it. -/
theorem Ground.locate_entry_iff (h : Ground R fs) (hs : s ≠ []) :
    locate_entry fs (R ++ s) = .ok loc ↔ loc = R ++ s ∧ Room R fs s := by
  obtain ⟨init, n, rfl⟩ := (List.eq_nil_or_concat s).resolve_left hs
  rw [List.concat_eq_append] at hs ⊢
  have hpath : R ++ (init ++ [n]) = R ++ init ++ [n] := (List.append_assoc R init [n]).symm
  unfold locate_entry Room
  rw [hpath, List.getLast?_concat, List.dropLast_concat, List.dropLast_concat,
    List.getLast?_concat]
  dsimp only
  constructor
  · intro hl
    split at hl
    · cases hl
    · rename_i d hd
      obtain ⟨rfl, -⟩ := h.follow_iff.mp hd
      split at hl
      · cases hl
      · rename_i hdir
        split at hl
        · cases hl
        · rename_i hnul
          cases hl
          refine ⟨rfl, hs, not_not.mp hdir, fun k hk => ?_⟩
          cases hk
          simpa using hnul
  · rintro ⟨rfl, -, hdir, hnul⟩
    have hfollow : follow fs (R ++ init) = .ok (R ++ init) :=
      h.follow_iff.mpr ⟨rfl, by rw [hdir]; simp⟩
    rw [hfollow]
    dsimp only
    rw [if_neg (not_not.mpr hdir), hnul n rfl, if_neg Bool.false_ne_true]

/-- There is room for what is there. -/
theorem Ground.room_of_some (h : Ground R fs) (hs : s ≠ []) (hn : fs.node (R ++ s) ≠ none) :
    Room R fs s := by
  obtain ⟨init, n, rfl⟩ := (List.eq_nil_or_concat s).resolve_left hs
  rw [List.concat_eq_append] at hn hs ⊢
  rw [← List.append_assoc] at hn
  refine ⟨hs, ?_, fun k hk => ?_⟩
  · rw [List.dropLast_concat]
    exact fs.parent_dir _ n hn
  · rw [List.getLast?_concat] at hk
    cases hk
    exact h.nul_free _ n hn

/-- A path is opened for writing where it is, if there is room. -/
theorem Ground.locate_iff (h : Ground R fs) (hs : s ≠ []) :
    locate fs (R ++ s) = .ok loc ↔ loc = R ++ s ∧ Room R fs s := by
  constructor
  · intro hl
    obtain ⟨init, n, rfl⟩ := (List.eq_nil_or_concat s).resolve_left hs
    rw [List.concat_eq_append] at hl hs ⊢
    rw [← List.append_assoc] at hl
    obtain ⟨q, hq, l, hlast⟩ := locate_parent hl
    obtain ⟨rfl, -⟩ := h.follow_iff.mp hq
    have hdir := walk_dir hlast
    have heq : loc = R ++ init ++ [n] := by
      apply walk_last (fun t => ?_) hlast
      rw [List.append_assoc]
      exact h.link_free _ t
    subst heq
    rw [List.append_assoc]
    refine ⟨rfl, hs, ?_, fun k hk => ?_⟩
    · rw [List.dropLast_concat]
      exact hdir
    · rw [List.getLast?_concat] at hk
      cases hk
      by_contra hnul
      -- a name with a NUL stands nowhere, and is not created
      have hnone : fs.node (R ++ init ++ [n]) = none := by
        by_contra hsome
        exact hnul (h.nul_free _ n hsome)
      rw [walk_level, walk_with_cons, if_neg (not_not.mpr hdir)] at hlast
      dsimp only at hlast
      rw [hnone] at hlast
      simp [hnul] at hlast
  · rintro ⟨rfl, hroom⟩
    have hentry := (h.locate_entry_iff hs).mpr ⟨rfl, hroom⟩
    by_cases hn : fs.node (R ++ s) = none
    · exact locate_of_free hentry hn
    · exact locate_of_follow (h.follow_iff.mpr ⟨rfl, hn⟩)

end Paths

/-! ## Changes below the root -/

/-- What has happened between two trees is below the root: it has changed something only
where `P` allows it, and something has appeared only where `Q` does. The second one is a
ground again. -/
structure Within (R : Path) (P Q : List Name → Prop) (fs fs' : Fs) : Prop where
  ground : Ground R fs'
  outside : ∀ q, ¬ R <+: q → fs'.node q = fs.node q
  frame : ∀ s, ¬ P s → fs'.node (R ++ s) = fs.node (R ++ s)
  absent : ∀ s, fs.node (R ++ s) = none → ¬ Q s → fs'.node (R ++ s) = none

section Changes

variable {R : Path} {P Q : List Name → Prop} {fs fs' fs'' : Fs} {t : Files} {s p q : List Name}
  {e : Entry (List UInt8)}

theorem Within.refl (h : Ground R fs) : Within R P Q fs fs :=
  ⟨h, fun _ _ => rfl, fun _ _ => rfl, fun _ hs _ => hs⟩

theorem Within.of_eq (h : Ground R fs) (heq : fs' = fs) : Within R P Q fs fs' := by
  rw [heq]
  exact Within.refl h

/-- Changes one after the other stay within the same places. -/
theorem Within.trans (h : Within R P Q fs fs') (h' : Within R P Q fs' fs'') :
    Within R P Q fs fs'' where
  ground := h'.ground
  outside q hq := (h'.outside q hq).trans (h.outside q hq)
  frame s hs := (h'.frame s hs).trans (h.frame s hs)
  absent s hs hq := h'.absent s (h.absent s hs hq) hq

/-- More places allow no less. -/
theorem Within.mono {P' Q' : List Name → Prop} (h : Within R P Q fs fs') (hP : ∀ s, P s → P' s)
    (hQ : ∀ s, Q s → Q' s) : Within R P' Q' fs fs' where
  ground := h.ground
  outside := h.outside
  frame s hs := h.frame s fun hp => hs (hP s hp)
  absent s hs hq := h.absent s hs fun hq' => hq (hQ s hq')

/-- What is known of a command that was not performed, or not all of it. -/
theorem Within.step {c : Command Name (List UInt8)} (ht : Shows R fs t)
    (h : Within R (c.Scope t) c.Fills fs fs') : Step t (c, false) h.ground.tree := by
  constructor
  · intro s hs
    show (fs'.node (R ++ s)).bind entry_of = t.entry s
    rw [h.frame s hs, ht s]
    rcases t.entry s with _ | c | _
    all_goals rfl
  · intro s hs hf
    show (fs'.node (R ++ s)).bind entry_of = none
    rw [h.absent s (ht.none_iff.mpr hs) hf]
    rfl

/-- Room on the disk is a place in the tree. -/
theorem Shows.place (h : Shows R fs t) (hroom : Room R fs s) : t.Place s :=
  ⟨hroom.1, h.folder_iff.mp hroom.2.1⟩

theorem outside_ne {a : Path} (ha : ¬ R <+: a) : a ≠ R ++ s := by
  rintro rfl
  exact ha (List.prefix_append R s)

/-- A node that is made where there is room leaves a ground. -/
theorem Ground.made (h : Ground R fs) (hroom : Room R fs s)
    (hnode : ∀ a, fs'.node a = if a = R ++ s then some (node_of e) else fs.node a) :
    Ground R fs' where
  root := by
    rw [hnode, if_neg (fun heq => hroom.1 (by simpa using heq))]
    exact h.root
  link_free r u := by
    rw [hnode]
    split
    · rcases e with c | _
      all_goals simp [node_of]
    · exact h.link_free r u
  nul_free a n hn := by
    rw [hnode] at hn
    split at hn
    · -- the name of what was made
      rename_i heq
      have hlast := congrArg List.getLast? heq
      rw [List.getLast?_concat, List.getLast?_append_of_ne_nil R hroom.1] at hlast
      exact hroom.2.2 n hlast.symm
    · exact h.nul_free a n hn

/-- And is within the places that allow it. -/
theorem Within.made (h : Ground R fs) (hroom : Room R fs s) (hP : P s) (hQ : Q s)
    (hnode : ∀ a, fs'.node a = if a = R ++ s then some (node_of e) else fs.node a) :
    Within R P Q fs fs' where
  ground := h.made hroom hnode
  outside a ha := by rw [hnode, if_neg (outside_ne ha)]
  frame r hr := by
    rw [hnode, if_neg]
    intro heq
    rw [List.append_cancel_left heq] at hr
    exact hr hP
  absent r hr hq := by
    rw [hnode, if_neg]
    · exact hr
    · intro heq
      rw [List.append_cancel_left heq] at hq
      exact hq hQ

/-- **What is put into a free place, or over a file**, is put into the hierarchy. -/
theorem Shows.put (h : Shows R fs t) (hplace : t.Place s) (hleaf : e = .folder ∨ t.entry s ≠ some .folder)
    (hnode : ∀ a, fs'.node a = if a = R ++ s then some (node_of e) else fs.node a) :
    Shows R fs' (t.put s e hplace hleaf) := by
  intro r
  show fs'.node (R ++ r) = (if r = s then some e else t.entry r).map node_of
  rw [hnode]
  by_cases hr : r = s
  · rw [hr, if_pos rfl, if_pos rfl, Option.map_some]
  · rw [if_neg (fun heq => hr (List.append_cancel_left heq)), if_neg hr]
    exact h r

/-- A tree of which only a part is left below the root. -/
theorem Ground.less (h : Ground R fs) (hk : fs'.Keeps fs) (hroot : fs'.node R = some .dir) :
    Ground R fs' where
  root := hroot
  link_free r u hlink := h.link_free r u (hk.link hlink)
  nul_free a n hn := h.nul_free a n (hk.ne_none hn)

/-- A removal below a path is within the places below it. -/
theorem Within.less (h : Ground R fs) (hk : fs'.Keeps fs) (hs : s ≠ [])
    (hframe : ∀ a, ¬ R ++ s <+: a → fs'.node a = fs.node a) (hP : ∀ r, s <+: r → P r) :
    Within R P Q fs fs' where
  ground := by
    apply h.less hk
    rw [hframe]
    · exact h.root
    · intro hpre
      have hlen := hpre.length_le
      have hpos := List.length_pos_iff.mpr hs
      rw [List.length_append] at hlen
      omega
  outside a ha := hframe a fun hpre => ha ((List.prefix_append R s).trans hpre)
  frame r hr := hframe _ fun hpre => hr (hP r ((List.prefix_append_right_inj R).mp hpre))
  absent r hr _ := by
    by_contra hne
    exact hk.ne_none hne hr

/-- **What is removed with all that is below it** is pruned from the hierarchy. -/
theorem Shows.prune (h : Shows R fs t) (hs : s ≠ []) : Shows R (fs.prune (R ++ s)) (t.prune s hs) := by
  intro r
  show (fs.prune (R ++ s)).node (R ++ r) = (if s <+: r then none else t.entry r).map node_of
  rw [Fs.node_prune (by simp [hs])]
  by_cases hr : s <+: r
  · rw [if_pos ((List.prefix_append_right_inj R).mpr hr), if_pos hr]
    rfl
  · rw [if_neg (fun hpre => hr ((List.prefix_append_right_inj R).mp hpre)), if_neg hr]
    exact h r

/-- A move below the root, onto a place without anything below it. -/
theorem Within.moved (h : Ground R fs) (hroom : Room R fs q) (hp : p ≠ [])
    (hm : fs.Movable (R ++ p) (R ++ q)) (hP : ∀ r, p <+: r ∨ q <+: r → P r)
    (hQ : ∀ r, q <+: r → Q r) : Within R P Q fs (fs.graft (R ++ p) (R ++ q) hm) := by
  have hnode : ∀ a, (fs.graft (R ++ p) (R ++ q) hm).node a =
      if R ++ q <+: a then fs.node (R ++ p ++ a.drop (R ++ q).length)
      else if R ++ p <+: a then none else fs.node a := fun a => rfl
  have hroot : ∀ {r : List Name}, r ≠ [] → ¬ R ++ r <+: R := by
    intro r hr hpre
    have hlen := hpre.length_le
    have hpos := List.length_pos_iff.mpr hr
    rw [List.length_append] at hlen
    omega
  refine ⟨⟨?_, fun r u => ?_, fun a n hn => ?_⟩, fun a ha => ?_, fun r hr => ?_, fun r hr hq => ?_⟩
  · rw [hnode, if_neg (hroot hroom.1), if_neg (hroot hp)]
    exact h.root
  · rw [hnode]
    split
    · rw [List.append_assoc]
      exact h.link_free _ u
    · split
      · exact nofun
      · exact h.link_free r u
  · rw [hnode] at hn
    split at hn
    · rename_i hpre
      rcases List.prefix_concat_iff.mp hpre with heq | hpre'
      · -- the name it has been moved to
        have hlast := congrArg List.getLast? heq
        rw [List.getLast?_concat, List.getLast?_append_of_ne_nil R hroom.1] at hlast
        exact hroom.2.2 n hlast
      · obtain ⟨r, rfl⟩ := hpre'
        have hdrop : (R ++ q ++ r ++ [n]).drop (R ++ q).length = r ++ [n] := by
          rw [List.append_assoc (R ++ q), List.drop_left]
        rw [hdrop, ← List.append_assoc] at hn
        exact h.nul_free _ n hn
    · split at hn
      · exact absurd rfl hn
      · exact h.nul_free a n hn
  · rw [hnode, if_neg (fun hpre => ha ((List.prefix_append R q).trans hpre)),
      if_neg (fun hpre => ha ((List.prefix_append R p).trans hpre))]
  · rw [hnode, if_neg (fun hpre => hr (hP r (Or.inr ((List.prefix_append_right_inj R).mp hpre)))),
      if_neg (fun hpre => hr (hP r (Or.inl ((List.prefix_append_right_inj R).mp hpre))))]
  · rw [hnode, if_neg (fun hpre => hq (hQ r ((List.prefix_append_right_inj R).mp hpre)))]
    split
    · rfl
    · exact hr

end Changes

end Rshs.Grounds
