/-
Path resolution in pieces, and how it fares while a tree grows or shrinks.

`walk_split` and `walk_append` cut a resolution at a component. `Keeps` says that
whatever stands in one tree stands in the other with the same type, `Extends` that
nothing but files and directories has been added; a resolution that succeeds goes on
succeeding, with the same result (`walk_keeps`). So a path resolves to one place in
a whole sequence of growing trees, once it resolves at all.

`Leads` collects the places a path can lead to in the trees that extend a given one.
Below a place without links, that is the path itself (`leads_below`).
-/
import Rshs.Posix

set_option autoImplicit false

namespace Posix

open StdPath

/-! ## Resolution in pieces -/

section Pieces

variable {fs : Fs} {mk : Bool}

/-- The level below so many links. -/
def below_level (fs : Fs) (mk : Bool) : ℕ → Path → List Component → Except ErrorKind Path
  | 0 => fun _ _ => .error .FilesystemLoop
  | links + 1 => walk fs mk links

theorem walk_level (links : ℕ) : walk fs mk links = walk_with fs mk (below_level fs mk links) := by
  cases links with
  | zero => rfl
  | succ links => rfl

/-- A resolution that succeeds passes through the place its first part leads to. -/
theorem walk_split {links : ℕ} {cur p : Path} {xs ys : List Component} (hys : ys ≠ [])
    (h : walk fs mk links cur (xs ++ ys) = .ok p) :
    ∃ d l, walk fs false links cur xs = .ok d ∧ walk fs mk l d ys = .ok p := by
  -- the induction is on the links left, and for each number on the components
  induction links using Nat.strongRecOn generalizing cur xs p with
  | ind links ihl =>
    induction xs generalizing cur with
    | nil => exact ⟨cur, links, by rw [walk_level]; rfl, h⟩
    | cons c xs ih =>
      rw [walk_level, List.cons_append, walk_with_cons] at h
      rw [walk_level, walk_with_cons]
      split at h
      · cases h
      · rename_i hdir
        rw [if_neg hdir]
        rw [← walk_level] at h ⊢
        cases c with
        | rootDir => exact ih h
        | curDir => exact ih h
        | parentDir => exact ih h
        | normal n =>
          dsimp only at h ⊢
          split at h
          · -- a missing entry is only returned when nothing follows it
            rename_i hnone
            have hrest : xs ++ ys ≠ [] := by
              intro hnil
              exact hys (List.append_eq_nil_iff.mp hnil).2
            rw [if_neg (fun hc => hrest hc.2)] at h
            cases h
          · -- a link: the same split, one link further down
            rename_i t hlink
            rw [← List.append_assoc] at h
            cases links with
            | zero => cases h
            | succ links => exact ihl links (Nat.lt_succ_self links) h
          · exact ih h
          · exact ih h

/-- The converse, when the second part resolves without links. -/
theorem walk_append {links : ℕ} {cur d : Path} {xs ys : List Component}
    {r : Except ErrorKind Path} (h : walk fs false links cur xs = .ok d)
    (hr : ∀ next, walk_with fs mk next d ys = r) : walk fs mk links cur (xs ++ ys) = r := by
  -- as in `walk_split`
  induction links using Nat.strongRecOn generalizing cur xs with
  | ind links ihl =>
    induction xs generalizing cur with
    | nil =>
      rw [walk_level] at h
      cases h
      rw [List.nil_append, walk_level]
      exact hr _
    | cons c xs ih =>
      rw [walk_level, walk_with_cons] at h
      rw [walk_level, List.cons_append, walk_with_cons]
      split at h
      · cases h
      · rename_i hdir
        rw [if_neg hdir]
        rw [← walk_level] at h ⊢
        cases c with
        | rootDir => exact ih h
        | curDir => exact ih h
        | parentDir => exact ih h
        | normal n =>
          dsimp only at h ⊢
          split at h
          · rename_i hnone
            -- what is only to be opened has to be there
            rw [if_neg (fun hc => Bool.false_ne_true hc.1)] at h
            cases h
          · rename_i t hlink
            cases links with
            | zero => cases h
            | succ links =>
              show walk fs mk links cur (steps t ++ (xs ++ ys)) = r
              rw [← List.append_assoc]
              exact ihl links (Nat.lt_succ_self links) h
          · exact ih h
          · exact ih h

/-- Without links on the way, names lead straight down. -/
theorem walk_straight {links : ℕ} {d p : Path} {ns : List Name}
    (hlinks : ∀ ms, ms <+: ns → ∀ t, fs.node (d ++ ms) ≠ some (.symlink t))
    (h : walk fs mk links d (ns.map .normal) = .ok p) : p = d ++ ns := by
  rw [walk_level] at h
  induction ns generalizing d with
  | nil =>
    cases h
    rw [List.append_nil]
  | cons n ns ih =>
    have hstep : d ++ n :: ns = (d ++ [n]) ++ ns := by simp
    have hnext : ∀ ms, ms <+: ns → ∀ t, fs.node ((d ++ [n]) ++ ms) ≠ some (.symlink t) := by
      intro ms hms t
      have h' := hlinks (n :: ms) (List.cons_prefix_cons.mpr ⟨rfl, hms⟩) t
      simpa using h'
    rw [List.map_cons, walk_with_cons] at h
    rw [hstep]
    -- the walk is in a directory, or has stopped
    split at h
    · cases h
    · dsimp only at h
      split at h
      · split at h
        · rename_i hmk
          split at h
          · cases h
          · cases h
            -- a free place is only returned for the last name
            rw [List.map_eq_nil_iff.mp hmk.2, List.append_nil]
        · cases h
      · rename_i t hlink
        exact absurd hlink (hlinks [n] (List.cons_prefix_cons.mpr ⟨rfl, List.nil_prefix⟩) t)
      · exact ih hnext h
      · exact ih hnext h

/-- What can be opened can be opened for creation. -/
theorem walk_make {links : ℕ} {cur p : Path} {xs : List Component}
    (h : walk fs false links cur xs = .ok p) : walk fs true links cur xs = .ok p := by
  -- as in `walk_split`; only what is missing is treated differently
  induction links using Nat.strongRecOn generalizing cur xs with
  | ind links ihl =>
    induction xs generalizing cur with
    | nil =>
      rw [walk_level] at h ⊢
      exact h
    | cons c xs ih =>
      rw [walk_level, walk_with_cons] at h ⊢
      split at h
      · cases h
      · rename_i hdir
        rw [if_neg hdir]
        rw [← walk_level] at h ⊢
        cases c with
        | rootDir => exact ih h
        | curDir => exact ih h
        | parentDir => exact ih h
        | normal n =>
          dsimp only at h ⊢
          split at h
          · rw [if_neg (fun hc => Bool.false_ne_true hc.1)] at h
            cases h
          · cases links with
            | zero => cases h
            | succ links => exact ihl links (Nat.lt_succ_self links) h
          · exact ih h
          · exact ih h

/-- Where something stands, what is opened for creation is found. -/
theorem walk_find {links : ℕ} {cur p : Path} {xs : List Component}
    (h : walk fs true links cur xs = .ok p) (hp : fs.node p ≠ none) :
    walk fs false links cur xs = .ok p := by
  induction links using Nat.strongRecOn generalizing cur xs with
  | ind links ihl =>
    induction xs generalizing cur with
    | nil =>
      rw [walk_level] at h ⊢
      exact h
    | cons c xs ih =>
      rw [walk_level, walk_with_cons] at h ⊢
      split at h
      · cases h
      · rename_i hdir
        rw [if_neg hdir]
        rw [← walk_level] at h ⊢
        cases c with
        | rootDir => exact ih h
        | curDir => exact ih h
        | parentDir => exact ih h
        | normal n =>
          dsimp only at h ⊢
          split at h
          · -- nothing stands where the file would be created
            rename_i hnone
            split at h
            · split at h
              · cases h
              · cases h
                exact absurd hnone hp
            · cases h
          · cases links with
            | zero => cases h
            | succ links => exact ihl links (Nat.lt_succ_self links) h
          · exact ih h
          · exact ih h

end Pieces

/-! ## Trees that keep what another has -/

/-- The same type of node, and for a link the same target. -/
def Node.same_kind : Node → Node → Prop
  | .file _, .file _ => True
  | .dir, .dir => True
  | .symlink t, .symlink u => t = u
  | _, _ => False

theorem Node.same_kind_refl (x : Node) : x.same_kind x := by
  cases x with
  | file c => exact trivial
  | dir => exact trivial
  | symlink t => exact rfl

theorem Node.same_kind_symm {x y : Node} (h : x.same_kind y) : y.same_kind x := by
  cases x <;> cases y <;> simp_all [Node.same_kind]

theorem Node.same_kind_trans {x y z : Node} (h : x.same_kind y) (h' : y.same_kind z) :
    x.same_kind z := by
  cases x <;> cases y <;> cases z <;> simp_all [Node.same_kind]

/-- Whatever stands in `fs` stands in `fs'`, with the same type. -/
def Fs.Keeps (fs fs' : Fs) : Prop :=
  ∀ p x, fs.node p = some x → ∃ y, fs'.node p = some y ∧ x.same_kind y

/-- `fs'` has all of `fs` and new files and directories at most. -/
structure Fs.Extends (fs fs' : Fs) : Prop where
  keeps : fs.Keeps fs'
  no_link : ∀ p t, fs'.node p = some (.symlink t) → fs.node p = some (.symlink t)

section Keeps

variable {fs fs' fs'' : Fs}

theorem Fs.Keeps.dir (h : fs.Keeps fs') {p : Path} (hp : fs.node p = some .dir) :
    fs'.node p = some .dir := by
  obtain ⟨y, hy, hk⟩ := h p _ hp
  cases y with
  | dir => exact hy
  | file c => exact hk.elim
  | symlink t => exact hk.elim

theorem Fs.Keeps.file (h : fs.Keeps fs') {p : Path} {c : List UInt8}
    (hp : fs.node p = some (.file c)) : ∃ c', fs'.node p = some (.file c') := by
  obtain ⟨y, hy, hk⟩ := h p _ hp
  cases y with
  | dir => exact hk.elim
  | file c' => exact ⟨c', hy⟩
  | symlink t => exact hk.elim

theorem Fs.Keeps.link (h : fs.Keeps fs') {p : Path} {t : PathBuf}
    (hp : fs.node p = some (.symlink t)) : fs'.node p = some (.symlink t) := by
  obtain ⟨y, hy, hk⟩ := h p _ hp
  cases y with
  | dir => exact hk.elim
  | file c => exact hk.elim
  | symlink u =>
    have htu : t = u := hk
    rw [htu]
    exact hy

/-- What was there and is a directory now was one. -/
theorem Fs.Keeps.dir_back (h : fs.Keeps fs') {p : Path} (hthere : fs.node p ≠ none)
    (hp : fs'.node p = some .dir) : fs.node p = some .dir := by
  obtain ⟨x, hx⟩ := Option.ne_none_iff_exists'.mp hthere
  obtain ⟨y, hy, hk⟩ := h p x hx
  rw [hp] at hy
  cases hy
  cases x with
  | dir => exact hx
  | file c => exact hk.elim
  | symlink t => exact hk.elim

theorem Fs.Keeps.file_back (h : fs.Keeps fs') {p : Path} {c : List UInt8}
    (hthere : fs.node p ≠ none) (hp : fs'.node p = some (.file c)) :
    ∃ c', fs.node p = some (.file c') := by
  obtain ⟨x, hx⟩ := Option.ne_none_iff_exists'.mp hthere
  obtain ⟨y, hy, hk⟩ := h p x hx
  rw [hp] at hy
  cases hy
  cases x with
  | dir => exact hk.elim
  | file c' => exact ⟨c', hx⟩
  | symlink t => exact hk.elim

theorem Fs.Keeps.ne_none (h : fs.Keeps fs') {p : Path} (hp : fs.node p ≠ none) :
    fs'.node p ≠ none := by
  obtain ⟨x, hx⟩ := Option.ne_none_iff_exists'.mp hp
  obtain ⟨y, hy, -⟩ := h p x hx
  rw [hy]
  exact Option.some_ne_none y

theorem Fs.Keeps.file_type (h : fs.Keeps fs') {p : Path} {x : Node} (hp : fs.node p = some x) :
    ∃ y, fs'.node p = some y ∧ y.file_type = x.file_type := by
  cases x with
  | file c =>
    obtain ⟨c', hc'⟩ := h.file hp
    exact ⟨_, hc', rfl⟩
  | dir => exact ⟨_, h.dir hp, rfl⟩
  | symlink t => exact ⟨_, h.link hp, rfl⟩

theorem Fs.Keeps.trans (h : fs.Keeps fs') (h' : fs'.Keeps fs'') : fs.Keeps fs'' := by
  intro p x hx
  obtain ⟨y, hy, hxy⟩ := h p x hx
  obtain ⟨z, hz, hyz⟩ := h' p y hy
  exact ⟨z, hz, Node.same_kind_trans hxy hyz⟩

theorem Fs.Extends.refl (fs : Fs) : fs.Extends fs where
  keeps := fun _ x hx => ⟨x, hx, x.same_kind_refl⟩
  no_link := fun _ _ h => h

theorem Fs.Extends.trans (h : fs.Extends fs') (h' : fs'.Extends fs'') : fs.Extends fs'' where
  keeps := h.keeps.trans h'.keeps
  no_link := fun p t hp => h.no_link p t (h'.no_link p t hp)

/-- What is real stays so. -/
theorem Fs.Extends.real (h : fs.Extends fs') {p : Path} (hp : fs.Real p) : fs'.Real p := by
  obtain ⟨x, hx, hlink⟩ := hp
  obtain ⟨y, hy, -⟩ := h.keeps p x hx
  refine ⟨y, hy, fun t ht => ?_⟩
  rw [ht] at hy
  have hold := h.no_link _ _ hy
  rw [hx] at hold
  cases hold
  exact hlink t rfl

/-- Putting a file where no link stands. -/
theorem Fs.extends_set_file {loc : Path} (hslot : fs.Slot loc)
    (hlink : ∀ t, fs.node loc ≠ some (.symlink t)) (c : List UInt8) :
    fs.Extends (fs.set loc (.file c)) where
  keeps := by
    intro p x hx
    rw [Fs.node_set hslot]
    by_cases hp : p = loc
    · -- what stood there is a file too
      rw [if_pos hp]
      rw [hp] at hx
      cases x with
      | file d => exact ⟨_, rfl, trivial⟩
      | dir => exact absurd hx hslot.2.2
      | symlink t => exact absurd hx (hlink t)
    · rw [if_neg hp]
      exact ⟨x, hx, x.same_kind_refl⟩
  no_link := by
    intro p t hp
    rw [Fs.node_set hslot] at hp
    split at hp
    · cases hp
    · exact hp

theorem Fs.extends_set_dir {loc : Path} (hslot : fs.Slot loc) (hnone : fs.node loc = none) :
    fs.Extends (fs.set loc .dir) where
  keeps := by
    intro p x hx
    rw [Fs.node_set hslot]
    by_cases hp : p = loc
    · rw [hp, hnone] at hx
      cases hx
    · rw [if_neg hp]
      exact ⟨x, hx, x.same_kind_refl⟩
  no_link := by
    intro p t hp
    rw [Fs.node_set hslot] at hp
    split at hp
    · cases hp
    · exact hp

/-- A tree has all that is left of it after a removal. -/
theorem Fs.keeps_without (gone : Path → Bool) : (fs.without gone).Keeps fs := by
  intro p x hx
  rw [Fs.node_without] at hx
  split at hx
  · cases hx
  · exact ⟨x, hx, x.same_kind_refl⟩

theorem Fs.keeps_prune (loc : Path) : (fs.prune loc).Keeps fs := Fs.keeps_without _

/-- A tree that differs from another at and below one place only has all that is left
of that without the place. -/
theorem Fs.prune_keeps_of_same {loc : Path} (hloc : loc ≠ [])
    (h : ∀ q, ¬ loc <+: q → fs'.node q = fs.node q) : (fs.prune loc).Keeps fs' := by
  intro p x hx
  rw [Fs.node_prune hloc] at hx
  split at hx
  · cases hx
  · rename_i hpre
    exact ⟨x, by rw [h p hpre]; exact hx, x.same_kind_refl⟩

/-- What is kept is kept when both trees lose the same place. -/
theorem Fs.Keeps.prune (h : fs.Keeps fs') (loc : Path) : (fs.prune loc).Keeps (fs'.prune loc) := by
  intro p x hx
  unfold Fs.prune at hx ⊢
  rw [Fs.node_without] at hx ⊢
  split at hx
  · cases hx
  · rename_i hkeep
    rw [if_neg hkeep]
    exact h p x hx

/-- **A resolution that succeeds goes on succeeding**, with the same result. -/
theorem walk_keeps {mk : Bool} {links : ℕ} {cur p : Path} {xs : List Component}
    (hk : fs.Keeps fs')
    (hnew : mk = true → ∀ q t, fs'.node q = some (.symlink t) → fs.node q = some (.symlink t))
    (h : walk fs mk links cur xs = .ok p) : walk fs' mk links cur xs = .ok p := by
  -- as in `walk_split`: what the walk has found is found again
  induction links using Nat.strongRecOn generalizing cur xs with
  | ind links ihl =>
    induction xs generalizing cur with
    | nil =>
      rw [walk_level] at h ⊢
      exact h
    | cons c xs ih =>
      rw [walk_level, walk_with_cons] at h ⊢
      split at h
      · cases h
      · rename_i hdir
        rw [not_not] at hdir
        rw [if_neg (not_not.mpr (hk.dir hdir))]
        rw [← walk_level] at h ⊢
        cases c with
        | rootDir => exact ih h
        | curDir => exact ih h
        | parentDir => exact ih h
        | normal n =>
          dsimp only at h ⊢
          split at h
          · -- a free place that was returned: it is no link now either
            rename_i hnone
            split at h
            · rename_i hmk
              split at h
              · cases h
              · rename_i hnul
                cases h
                rw [hmk.2] at ih ⊢
                cases hn : fs'.node (cur ++ [n]) with
                | none => simp [hmk.1, hnul]
                | some y =>
                  cases y with
                  | file c => rw [walk_level]; rfl
                  | dir => rw [walk_level]; rfl
                  | symlink t =>
                    have hold := hnew hmk.1 _ _ hn
                    rw [hnone] at hold
                    cases hold
            · cases h
          · rename_i t hlink
            rw [hk.link hlink]
            cases links with
            | zero => cases h
            | succ links => exact ihl links (Nat.lt_succ_self links) h
          · rename_i c hfile
            obtain ⟨c', hc'⟩ := hk.file hfile
            rw [hc']
            exact ih h
          · rename_i hsub
            rw [hk.dir hsub]
            exact ih h

theorem follow_keeps {p q : Path} (hk : fs.Keeps fs') (h : follow fs p = .ok q) :
    follow fs' p = .ok q :=
  walk_keeps hk (fun hf => absurd hf Bool.false_ne_true) h

theorem canonicalize_keeps {cwd p : Path} {b : PathBuf} (hk : fs.Keeps fs')
    (h : canonicalize fs cwd b = .ok p) : canonicalize fs' cwd b = .ok p := by
  unfold canonicalize at h ⊢
  split at h
  · cases h
  · rename_i hne
    rw [if_neg hne]
    exact walk_keeps hk (fun hf => absurd hf Bool.false_ne_true) h

theorem locate_extends {p q : Path} (he : fs.Extends fs') (h : locate fs p = .ok q) :
    locate fs' p = .ok q :=
  walk_keeps he.keeps (fun _ => he.no_link) h

end Keeps

/-! ## Entries -/

section Entries

variable {fs fs' : Fs}

theorem comps_concat (d : Path) (ns : List Name) :
    (d ++ ns).comps = d.comps ++ ns.map .normal := by
  simp [Path.comps]

/-- The directory that a path's last component is looked up in. -/
theorem locate_parent {d p : Path} {n : Name} (h : locate fs (d ++ [n]) = .ok p) :
    ∃ q, follow fs d = .ok q ∧ ∃ l, walk fs true l q [.normal n] = .ok p := by
  unfold locate at h
  rw [comps_concat] at h
  obtain ⟨q, l, hq, hl⟩ := walk_split (by simp) h
  exact ⟨q, hq, l, hl⟩

/-- The directory of a path that leads somewhere. -/
theorem follow_dropLast {p loc : Path} (hne : p ≠ []) (h : locate fs p = .ok loc) :
    ∃ q, follow fs p.dropLast = .ok q := by
  rw [← List.dropLast_append_getLast hne] at h
  obtain ⟨q, hq, -⟩ := locate_parent h
  exact ⟨q, hq⟩

theorem follow_parent {d p : Path} {n : Name} (h : follow fs (d ++ [n]) = .ok p) :
    ∃ q, follow fs d = .ok q ∧ ∃ l, walk fs false l q [.normal n] = .ok p := by
  unfold follow at h
  rw [comps_concat] at h
  obtain ⟨q, l, hq, hl⟩ := walk_split (by simp) h
  exact ⟨q, hq, l, hl⟩

/-- Opening what exists for creation opens it. -/
theorem locate_of_follow {p q : Path} (h : follow fs p = .ok q) : locate fs p = .ok q :=
  walk_make h

theorem follow_of_locate {p q : Path} (h : locate fs p = .ok q) (hq : fs.node q ≠ none) :
    follow fs p = .ok q := walk_find h hq

/-- A last component that is no link. -/
theorem walk_last {mk : Bool} {l : ℕ} {d p : Path} {n : Name}
    (hlink : ∀ t, fs.node (d ++ [n]) ≠ some (.symlink t))
    (h : walk fs mk l d [.normal n] = .ok p) : p = d ++ [n] := by
  have hlist : walk fs mk l d (List.map .normal [n]) = .ok p := h
  refine walk_straight (fun ms hms t => ?_) hlist
  by_cases hms' : ms = [n]
  · rw [hms']
    exact hlink t
  · -- the directory itself, which the walk has found to be one
    have hnil : ms = [] := by
      rcases ms with _ | ⟨m, ms⟩
      · rfl
      · have hcons := List.cons_prefix_cons.mp hms
        rw [hcons.1, List.prefix_nil.mp hcons.2] at hms'
        exact absurd rfl hms'
    rw [hnil, List.append_nil]
    intro hd
    rw [walk_level, walk_with_cons, hd] at h
    simp at h

/-- A free entry is where opening for creation creates. -/
theorem locate_of_free {p loc : Path} (h : locate_entry fs p = .ok loc)
    (hnone : fs.node loc = none) : locate fs p = .ok loc := by
  obtain ⟨d, n, hp, hd, hdir, hnul, rfl⟩ := locate_entry_ok h
  rw [hp]
  unfold locate
  rw [comps_concat]
  refine walk_append hd (fun next => ?_)
  rw [List.map_singleton, walk_with_cons, if_neg (not_not.mpr hdir)]
  simp [hnone, hnul]

/-- The entry of a path in a tree and in one that keeps it are the same. -/
theorem locate_entry_unique {p loc loc' : Path} (hk : fs.Keeps fs')
    (h : locate_entry fs p = .ok loc) (h' : locate_entry fs' p = .ok loc') : loc' = loc := by
  obtain ⟨d, n, hp, hd, -, -, rfl⟩ := locate_entry_ok h
  obtain ⟨d', n', hp', hd', -, -, rfl⟩ := locate_entry_ok h'
  rw [hp] at hp'
  obtain ⟨-, hn⟩ := List.append_inj' hp' rfl
  have hsame := follow_keeps hk hd
  rw [hd'] at hsame
  cases hsame
  cases hn
  rfl

/-- A real path is its own entry. -/
theorem locate_entry_real {p loc : Path} (hreal : fs.Real p) (h : locate_entry fs p = .ok loc) :
    loc = p := by
  obtain ⟨d, n, hp, hd, -, -, rfl⟩ := locate_entry_ok h
  obtain ⟨x, hx, -⟩ := hreal
  have hpar : fs.node p.dropLast = some .dir := by
    refine fs.parent_dir _ n ?_
    rw [← hp, hx]
    exact Option.some_ne_none x
  rw [follow_self ⟨_, hpar, by simp⟩] at hd
  cases hd
  exact hp.symm

/-- What an existing path leads to has an entry that exists. -/
theorem entry_exists {p q loc : Path} (h : follow fs p = .ok q) (he : locate_entry fs p = .ok loc) :
    fs.node loc ≠ none := by
  obtain ⟨d, n, hp, hd, hdir, -, rfl⟩ := locate_entry_ok he
  rw [hp] at h
  obtain ⟨d', hd', l, hl⟩ := follow_parent h
  rw [hd] at hd'
  cases hd'
  intro hnone
  rw [walk_level, walk_with_cons, if_neg (not_not.mpr hdir)] at hl
  simp [hnone] at hl

/-- Where less is left, a path leads to the entry it had before, unless that is a link. -/
theorem locate_of_entry_before {p loc q : Path} (hk : fs.Keeps fs')
    (he : locate_entry fs' p = .ok loc) (hlink : ∀ t, fs.node loc ≠ some (.symlink t))
    (h : locate fs p = .ok q) : q = loc := by
  obtain ⟨d, n, hp, hd, -, -, rfl⟩ := locate_entry_ok he
  rw [hp] at h
  obtain ⟨d', hd', l, hl⟩ := locate_parent h
  have hsame := follow_keeps hk hd'
  rw [hd] at hsame
  cases hsame
  exact walk_last hlink hl

/-- An entry that is no link is where its path leads. -/
theorem locate_of_entry {p loc q : Path} (he : locate_entry fs p = .ok loc)
    (hlink : ∀ t, fs.node loc ≠ some (.symlink t)) (h : locate fs p = .ok q) : q = loc :=
  locate_of_entry_before (Fs.Extends.refl fs).keeps he hlink h

/-- An entry stays where it is. -/
theorem locate_entry_keeps {p place : Path} (hk : fs.Keeps fs')
    (he : locate_entry fs p = .ok place) : locate_entry fs' p = .ok place := by
  obtain ⟨d, n, hp, hd, hdir, hnul, rfl⟩ := locate_entry_ok he
  rw [hp]
  unfold locate_entry
  rw [List.getLast?_concat, List.dropLast_concat, follow_keeps hk hd]
  dsimp only
  rw [if_neg (not_not.mpr (hk.dir hdir)), hnul, if_neg Bool.false_ne_true]

/-- An entry whose directory was led to before was there before. -/
theorem locate_entry_back {p d place : Path} (hk : fs.Keeps fs')
    (hd : follow fs p.dropLast = .ok d) (he : locate_entry fs' p = .ok place) :
    locate_entry fs p = .ok place := by
  obtain ⟨d', n, hp, hd', hdir, hnul, rfl⟩ := locate_entry_ok he
  have hsame := follow_keeps hk hd
  rw [hd'] at hsame
  cases hsame
  have hdir₀ : fs.node d = some .dir := hk.dir_back (follow_real hd).ne_none hdir
  -- the last name is looked up in the same directory
  have hlast : p.getLast? = some n := by
    rw [hp]
    exact List.getLast?_concat
  unfold locate_entry
  rw [hlast]
  dsimp only
  rw [hd]
  dsimp only
  rw [if_neg (not_not.mpr hdir₀), hnul, if_neg Bool.false_ne_true]

/-! ## Paths below an entry -/

/-- No link stands at or below the place. -/
def Fs.LinkFree (fs : Fs) (place : Path) : Prop :=
  ∀ r t, fs.node (place ++ r) ≠ some (.symlink t)

/-- **Below an entry without links every path leads straight down.** -/
theorem locate_below {p place loc : Path} {ns : List Name} (he : locate_entry fs p = .ok place)
    (hlinks : fs.LinkFree place) (h : locate fs (p ++ ns) = .ok loc) : loc = place ++ ns := by
  obtain ⟨d, n, hp, hd, -, -, rfl⟩ := locate_entry_ok he
  have hpath : p ++ ns = p.dropLast ++ (n :: ns) := by
    conv => lhs; rw [hp]
    simp
  rw [hpath] at h
  unfold locate at h
  -- the walk to the directory of the entry, and the one below it
  rw [comps_concat] at h
  obtain ⟨d', l, hd', hl⟩ := walk_split (by simp) h
  have hsame : d' = d := by
    unfold follow at hd
    rw [hd'] at hd
    cases hd
    rfl
  rw [hsame] at hl
  have hstraight := walk_straight (fun ms hms t hlink => ?_) hl
  · rw [hstraight]
    simp
  · rcases ms with _ | ⟨m, ms⟩
    · -- the directory of the entry, which the walk has found to be one
      rw [List.append_nil] at hlink
      rw [List.map_cons, walk_level, walk_with_cons, hlink] at hl
      simp at hl
    · have hcons := List.cons_prefix_cons.mp hms
      rw [hcons.1] at hlink
      exact hlinks ms t (by simpa using hlink)

theorem locate_entry_below {p place loc : Path} {ns : List Name} {n : Name}
    (he : locate_entry fs p = .ok place) (hlinks : fs.LinkFree place)
    (h : locate_entry fs (p ++ (ns ++ [n])) = .ok loc) : loc = place ++ (ns ++ [n]) := by
  obtain ⟨d, n', hp, hd, -, -, rfl⟩ := locate_entry_ok h
  rw [← List.append_assoc, List.dropLast_concat] at hp hd
  obtain ⟨-, hn⟩ := List.append_inj' hp rfl
  rw [locate_below he hlinks (locate_of_follow hd)]
  simp [List.cons.inj hn]

/-- A directory below an entry is where its path leads. -/
theorem follow_below {p place : Path} {ns : List Name} (he : locate_entry fs p = .ok place)
    (hreal : fs.Real (place ++ ns)) : follow fs (p ++ ns) = .ok (place ++ ns) := by
  obtain ⟨d, n, hp, hd, -, -, rfl⟩ := locate_entry_ok he
  have hpath : p ++ ns = p.dropLast ++ (n :: ns) := by
    conv => lhs; rw [hp]
    simp
  have hassoc : d ++ [n] ++ ns = d ++ (n :: ns) := by simp
  rw [hassoc] at hreal ⊢
  rw [hpath]
  unfold follow
  rw [comps_concat]
  exact walk_append hd (fun next => walk_with_self hreal)

/-- A name in a directory below an entry is an entry too. -/
theorem locate_entry_at {p place : Path} {ns : List Name} {n : Name}
    (he : locate_entry fs p = .ok place) (hdir : fs.node (place ++ ns) = some .dir)
    (hnul : n.has_nul = false) :
    locate_entry fs (p ++ (ns ++ [n])) = .ok (place ++ (ns ++ [n])) := by
  have hfollow := follow_below he ⟨_, hdir, by simp⟩
  unfold locate_entry
  rw [← List.append_assoc, List.getLast?_concat, List.dropLast_concat, hfollow]
  dsimp only
  rw [if_neg (not_not.mpr hdir), hnul, if_neg Bool.false_ne_true, ← List.append_assoc]

end Entries

/-! ## Where a path can lead while the tree grows -/

/-- The places `p` leads to in the trees that extend `fs`. -/
def Leads (fs : Fs) (p loc : Path) : Prop := ∃ fs', fs.Extends fs' ∧ locate fs' p = .ok loc

section Leads

variable {fs : Fs}

/-- A tree that grows gets no links. -/
theorem Fs.LinkFree.grow {fs' : Fs} {place : Path} (h : fs.LinkFree place) (hext : fs.Extends fs') :
    fs'.LinkFree place :=
  fun r t hlink => h r t (hext.no_link _ _ hlink)

/-- **A place without links is only reached by its own paths.** -/
theorem leads_below {p loc place : Path} {ns : List Name} (he : locate_entry fs p = .ok place)
    (hfree : fs.LinkFree place) (h : Leads fs (p ++ ns) loc) : loc = place ++ ns := by
  obtain ⟨fs', hext, hloc⟩ := h
  exact locate_below (locate_entry_keeps hext.keeps he) (hfree.grow hext) hloc

end Leads

end Posix
