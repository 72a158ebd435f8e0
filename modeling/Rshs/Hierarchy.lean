/-
Hierarchies of files and folders, and the commands of a store that keeps one.

A `Tree` maps the paths below its root to entries; that the root is a folder and that
whatever stands somewhere stands in a folder are fields, so that no command can leave a
file with something below it. A command is allowed on a tree or not, and `perform` is the
tree it leaves when it is. `Scope` is where it may change anything at all, `Looks` what it
depends on; two laws about them (`effect_frame`, `effect_local`) carry what follows: commands
that stay out of each other's sight commute, and an entry is read back along any run of
commands that spare it.

A step that is not `done` says only that nothing outside the scope has changed. This is
all that is known of a command that was refused, or that failed on its way.
-/
import Mathlib.Data.List.Infix
import Rshs.Lts

set_option autoImplicit false

namespace Hierarchy

/-! ## Trees -/

inductive Entry (β : Type*)
  | file (c : β)
  | folder
deriving DecidableEq

@[ext] structure Tree (ν β : Type*) where
  entry : List ν → Option (Entry β)
  root : entry [] = some .folder
  above : ∀ p n, entry (p ++ [n]) ≠ none → entry p = some .folder

section Trees

variable {ν β : Type*} {t t' : Tree ν β} {p q s : List ν}

/-- Above an entry there are folders only. -/
theorem Tree.folder_above (t : Tree ν β) (hs : t.entry s ≠ none) (hpre : p <+: s) (hne : p ≠ s) :
    t.entry p = some .folder := by
  obtain ⟨r, rfl⟩ := hpre
  induction r using List.reverseRecOn with
  | nil => exact absurd (List.append_nil p).symm hne
  | append_singleton r n ih =>
    rw [← List.append_assoc] at hs
    have hfolder := t.above _ _ hs
    by_cases hr : r = []
    · rw [hr, List.append_nil] at hfolder
      exact hfolder
    · -- the entry one level up is one more entry below `p`
      apply ih
      · rw [hfolder]
        exact Option.some_ne_none _
      · simpa using hr

theorem Tree.none_below (t : Tree ν β) (hp : t.entry p = none) (hpre : p <+: s) :
    t.entry s = none := by
  by_contra hs
  by_cases heq : p = s
  · exact hs (heq ▸ hp)
  · have hfolder := t.folder_above hs hpre heq
    rw [hp] at hfolder
    cases hfolder

/-- Something can be put there: the path has a folder for a parent. -/
def Tree.Place (t : Tree ν β) (p : List ν) : Prop :=
  p ≠ [] ∧ t.entry p.dropLast = some .folder

theorem Tree.place_of_entry (t : Tree ν β) (hne : p ≠ []) (hp : t.entry p ≠ none) : t.Place p := by
  obtain ⟨init, n, rfl⟩ := List.eq_nil_or_concat p |>.resolve_left hne
  refine ⟨hne, ?_⟩
  rw [List.concat_eq_append] at hp ⊢
  rw [List.dropLast_concat]
  exact t.above init n hp

/-- A tree with one entry put in its place. -/
def Tree.put [DecidableEq ν] (t : Tree ν β) (p : List ν) (x : Entry β) (hp : t.Place p)
    (hleaf : x = .folder ∨ t.entry p ≠ some .folder) : Tree ν β where
  entry s := if s = p then some x else t.entry s
  root := by
    rw [if_neg (fun h => hp.1 h.symm)]
    exact t.root
  above s n hs := by
    by_cases heq : s ++ [n] = p
    · -- its parent is a folder, and another path
      have hparent := hp.2
      rw [← heq, List.dropLast_concat] at hparent
      rw [if_neg (fun h => by rw [h] at heq; simp at heq)]
      exact hparent
    · rw [if_neg heq] at hs
      have hfolder := t.above s n hs
      split
      · -- what had something below it was a folder, and stays one
        rename_i hsp
        rcases hleaf with rfl | hno
        · rfl
        · rw [hsp] at hfolder
          exact absurd hfolder hno
      · exact hfolder

/-- A tree without what is at or below a path. -/
def Tree.prune [DecidableEq ν] (t : Tree ν β) (p : List ν) (hp : p ≠ []) : Tree ν β where
  entry s := if p <+: s then none else t.entry s
  root := by
    rw [if_neg (fun h => hp (List.prefix_nil.mp h))]
    exact t.root
  above s n hs := by
    split at hs
    · exact absurd rfl hs
    · rename_i hno
      rw [if_neg (fun h => hno (h.trans (List.prefix_append s [n])))]
      exact t.above s n hs

end Trees

/-! ## One tree laid over another -/

section Laying

variable {ν β : Type*} {p q r s : List ν} {deep : Bool}

/-- A file replaces what it is laid over, and a folder keeps what is there. -/
def lay : Option (Entry β) → Option (Entry β) → Option (Entry β)
  | none, y => y
  | some (.file c), _ => some (.file c)
  | some .folder, none => some .folder
  | some .folder, some y => some y

/-- What is copied from `p`: everything below it, or what stands there alone. -/
def Tree.branch (t : Tree ν β) (deep : Bool) (p r : List ν) : Option (Entry β) :=
  if deep = true ∨ r = [] then t.entry (p ++ r) else none

/-- A file and a folder. -/
def differ : Option (Entry β) → Option (Entry β) → Prop
  | some .folder, some (.file _) => True
  | some (.file _), some .folder => True
  | _, _ => False

instance (x y : Option (Entry β)) : Decidable (differ x y) := by
  unfold differ
  split <;> infer_instance

/-- What it is laid over: the tree at `q`, unless that is of the other kind. -/
def Tree.ground (t : Tree ν β) (p q r : List ν) : Option (Entry β) :=
  if differ (t.entry p) (t.entry q) then none else t.entry (q ++ r)

/-- Nowhere does a file come to lie over a folder, or something below a file. -/
structure Tree.Fits (t : Tree ν β) (deep : Bool) (p q : List ν) : Prop where
  source : t.entry p ≠ none
  place : t.Place q
  src_apart : ¬ p <+: q
  dst_apart : ¬ q <+: p
  over_folder : ∀ r c, t.branch deep p r = some (.file c) → t.ground p q r ≠ some .folder
  over_file : ∀ r n c, t.branch deep p (r ++ [n]) ≠ none → t.ground p q r ≠ some (.file c)

theorem Tree.branch_above (t : Tree ν β) {n : ν} (h : t.branch deep p (r ++ [n]) ≠ none) :
    t.branch deep p r = some .folder := by
  unfold Tree.branch at h ⊢
  by_cases hd : deep = true
  · rw [if_pos (Or.inl hd)] at h ⊢
    rw [← List.append_assoc] at h
    exact t.above _ _ h
  · rw [if_neg (by simp [hd])] at h
    exact absurd rfl h

theorem Tree.ground_above (t : Tree ν β) {n : ν} (h : t.ground p q (r ++ [n]) ≠ none) :
    t.ground p q r = some .folder := by
  unfold Tree.ground at h ⊢
  split at h
  · exact absurd rfl h
  · rw [← List.append_assoc] at h
    rw [if_neg (by assumption)]
    exact t.above _ _ h

/-- The tree with `p` laid over `q`. -/
def Tree.laid [DecidableEq ν] (t : Tree ν β) (deep : Bool) (p q : List ν) (h : t.Fits deep p q) :
    Tree ν β where
  entry s :=
    if q <+: s then
      lay (t.branch deep p (s.drop q.length)) (t.ground p q (s.drop q.length))
    else t.entry s
  root := by
    rw [if_neg (fun hq => h.place.1 (List.prefix_nil.mp hq))]
    exact t.root
  above s n hs := by
    by_cases hq : q <+: s
    · obtain ⟨r, rfl⟩ := hq
      rw [if_pos (List.prefix_append q r), List.drop_left]
      rw [List.append_assoc, if_pos (List.prefix_append q _), List.drop_left] at hs
      by_cases hb : t.branch deep p (r ++ [n]) = none
      · -- it was there, below a folder that nothing but a folder lies over
        rw [hb] at hs
        have hground := t.ground_above hs
        cases hbr : t.branch deep p r with
        | none => exact hground
        | some x =>
          cases x with
          | file c => exact absurd hground (h.over_folder r c hbr)
          | folder =>
            rw [hground]
            rfl
      · -- it is copied, below a folder that lies over no file
        rw [t.branch_above hb]
        cases hg : t.ground p q r with
        | none => rfl
        | some y =>
          cases y with
          | file c => exact absurd hg (h.over_file r n c hb)
          | folder => rfl
    · rw [if_neg hq]
      by_cases hqn : q <+: s ++ [n]
      · -- the place itself: its parent is a folder
        have heq : q = s ++ [n] := by
          rcases List.prefix_concat_iff.mp hqn with heq | hpre
          · exact heq
          · exact absurd hpre hq
        have hparent := h.place.2
        rw [heq, List.dropLast_concat] at hparent
        exact hparent
      · rw [if_neg hqn] at hs
        exact t.above s n hs

end Laying

/-! ## Commands -/

inductive Command (ν β : Type*)
  | store (p : List ν) (c : β)
  | make (p : List ν) (x : Entry β)
  | remove (p : List ν)
  | copy (deep : Bool) (p q : List ν)
  | move (p q : List ν)

section Commands

variable {ν β : Type*} {t t' : Tree ν β} {c : Command ν β} {p q r s : List ν} {deep : Bool}

/-- When a command can be performed. -/
def Command.Allowed (t : Tree ν β) : Command ν β → Prop
  | .store p _ => t.Place p ∧ t.entry p ≠ some .folder
  | .make p _ => t.Place p ∧ t.entry p = none
  | .remove p => p ≠ [] ∧ t.entry p ≠ none
  | .copy deep p q => t.Fits deep p q
  | .move p q => t.Fits true p q

/-- Where a command may change something. -/
def Command.Scope (t : Tree ν β) : Command ν β → List ν → Prop
  | .store p _, s => s = p
  | .make p _, s => s = p ∧ t.entry p = none
  | .remove p, s => p <+: s
  | .copy _ _ q, s => q <+: s
  | .move p q, s => p <+: s ∨ q <+: s

/-- What a command depends on. -/
def Command.Looks : Command ν β → List ν → Prop
  | .store p _, s => s = p ∨ s = p.dropLast
  | .make p _, s => s = p ∨ s = p.dropLast
  | .remove p, s => p <+: s
  | .copy _ p q, s => p <+: s ∨ q <+: s ∨ s = q.dropLast
  | .move p q, s => p <+: s ∨ q <+: s ∨ s = q.dropLast

theorem scope_looks (h : c.Scope t s) : c.Looks s := by
  cases c with
  | store p b => exact Or.inl h
  | make p x => exact Or.inl h.1
  | remove p => exact h
  | copy deep p q => exact Or.inr (Or.inl h)
  | move p q => exact h.imp_right Or.inl

/-- Two trees that are the same wherever a command looks. -/
def Alike (c : Command ν β) (t t' : Tree ν β) : Prop := ∀ s, c.Looks s → t'.entry s = t.entry s

theorem Alike.symm (h : Alike c t t') : Alike c t' t := fun s hs => (h s hs).symm

theorem scope_alike (h : Alike c t t') : c.Scope t' s ↔ c.Scope t s := by
  cases c with
  | make p x =>
    show s = p ∧ t'.entry p = none ↔ s = p ∧ t.entry p = none
    rw [h p (Or.inl rfl)]
  | store p b => rfl
  | remove p => rfl
  | copy deep p q => rfl
  | move p q => rfl

theorem branch_alike (h : ∀ s, p <+: s → t'.entry s = t.entry s) :
    t'.branch deep p r = t.branch deep p r := by
  unfold Tree.branch
  rw [h _ (List.prefix_append p r)]

theorem ground_alike (h : ∀ s, p <+: s ∨ q <+: s → t'.entry s = t.entry s) :
    t'.ground p q r = t.ground p q r := by
  unfold Tree.ground
  rw [h p (Or.inl List.prefix_rfl), h q (Or.inr List.prefix_rfl),
    h _ (Or.inr (List.prefix_append q r))]

theorem Tree.Fits.source_ne_nil (h : t.Fits deep p q) : p ≠ [] := by
  intro hp
  rw [hp] at h
  exact h.src_apart List.nil_prefix

/-- Nothing of what is copied is where it is copied to, nor the other way round. -/
theorem Tree.Fits.apart (h : t.Fits deep p q) : ¬ q <+: p ++ r ∧ ¬ p <+: q ++ r := by
  constructor
  · intro hq
    rcases List.prefix_or_prefix_of_prefix hq (List.prefix_append p r) with h' | h'
    · exact h.dst_apart h'
    · exact h.src_apart h'
  · intro hp
    rcases List.prefix_or_prefix_of_prefix hp (List.prefix_append q r) with h' | h'
    · exact h.src_apart h'
    · exact h.dst_apart h'

end Commands

/-! ## What a command leaves -/

section Perform

variable {ν β : Type*} [DecidableEq ν] {t t' : Tree ν β} {c d : Command ν β} {p q r s : List ν}
  {deep : Bool}

/-- The tree that a command leaves. -/
def Tree.perform (t : Tree ν β) : (c : Command ν β) → c.Allowed t → Tree ν β
  | .store p c, h => t.put p (.file c) h.1 (Or.inr h.2)
  | .make p x, h => t.put p x h.1 (Or.inr (by rw [h.2]; exact nofun))
  | .remove p, h => t.prune p h.1
  | .copy deep p q, h => t.laid deep p q h
  | .move p q, h => (t.laid true p q h).prune p h.source_ne_nil

/-- **A command changes nothing outside its scope.** -/
theorem effect_frame (h : c.Allowed t) (hs : ¬ c.Scope t s) :
    (t.perform c h).entry s = t.entry s := by
  cases c with
  | store p b => exact if_neg hs
  | make p x => exact if_neg fun heq => hs ⟨heq, h.2⟩
  | remove p => exact if_neg hs
  | copy deep p q => exact if_neg hs
  | move p q =>
    have hp : ¬ p <+: s := fun hp => hs (Or.inl hp)
    have hq : ¬ q <+: s := fun hq => hs (Or.inr hq)
    exact (if_neg hp).trans (if_neg hq)

theorem laid_at (h : t.Fits deep p q) (r : List ν) :
    (t.laid deep p q h).entry (q ++ r) = lay (t.branch deep p r) (t.ground p q r) := by
  unfold Tree.laid
  dsimp only
  rw [if_pos (List.prefix_append q r), List.drop_left]

theorem laid_frame (h : t.Fits deep p q) (hs : ¬ q <+: s) :
    (t.laid deep p q h).entry s = t.entry s := if_neg hs

theorem laid_alike (h : ∀ s, p <+: s ∨ q <+: s ∨ s = q.dropLast → t'.entry s = t.entry s)
    (hf : t.Fits deep p q) (hf' : t'.Fits deep p q) (hq : q <+: s) :
    (t'.laid deep p q hf').entry s = (t.laid deep p q hf).entry s := by
  obtain ⟨r, rfl⟩ := hq
  rw [laid_at, laid_at, branch_alike (fun s hs => h s (Or.inl hs)),
    ground_alike (fun s hs => h s (hs.imp_right Or.inl))]

/-- **And what it leaves there depends on what it looks at.** -/
theorem effect_local (h : Alike c t t') (ha : c.Allowed t) (ha' : c.Allowed t')
    (hs : c.Scope t s) : (t'.perform c ha').entry s = (t.perform c ha).entry s := by
  cases c with
  | store p b => exact (if_pos hs).trans (if_pos hs).symm
  | make p x => exact (if_pos hs.1).trans (if_pos hs.1).symm
  | remove p => exact (if_pos hs).trans (if_pos hs).symm
  | copy deep p q => exact laid_alike h ha ha' hs
  | move p q =>
    show (if p <+: s then none else (t'.laid true p q ha').entry s) =
      if p <+: s then none else (t.laid true p q ha).entry s
    split
    · rfl
    · rename_i hp
      exact laid_alike h ha ha' (hs.resolve_left hp)

/-! ## Commands that commute -/

/-- Neither command changes what the other one looks at. -/
structure Separate (t : Tree ν β) (c d : Command ν β) : Prop where
  first : ∀ s, c.Scope t s → ¬ d.Looks s
  second : ∀ s, d.Scope t s → ¬ c.Looks s

omit [DecidableEq ν] in
theorem Separate.symm (h : Separate t c d) : Separate t d c := ⟨h.second, h.first⟩

theorem Separate.alike (h : Separate t c d) (hc : c.Allowed t) : Alike d t (t.perform c hc) :=
  fun s hs => effect_frame hc fun hscope => h.first s hscope hs

/-- **Separate commands commute.** -/
theorem perform_comm (h : Separate t c d) (hc : c.Allowed t) (hd : d.Allowed t)
    (hd' : d.Allowed (t.perform c hc)) (hc' : c.Allowed (t.perform d hd)) :
    (t.perform c hc).perform d hd' = (t.perform d hd).perform c hc' := by
  ext1
  funext s
  have hdscope := @scope_alike _ _ _ _ _ s (h.alike hc)
  have hcscope := @scope_alike _ _ _ _ _ s (h.symm.alike hd)
  by_cases hs : d.Scope t s
  · -- where the second one acts, the first one does not
    have hno : ¬ c.Scope t s := fun hcs => h.second s hs (scope_looks hcs)
    rw [effect_local (h.alike hc) hd hd' hs, effect_frame hc' (fun hcs => hno (hcscope.mp hcs))]
  · rw [effect_frame hd' (fun hds => hs (hdscope.mp hds))]
    by_cases hcs : c.Scope t s
    · rw [effect_local (h.symm.alike hd) hc hc' hcs]
    · rw [effect_frame hc hcs, effect_frame hc' (fun h' => hcs (hcscope.mp h')), effect_frame hd hs]

/-! ## Commands done twice, and undone -/

/-- A second store of the same content changes nothing. -/
theorem store_twice {b : β} (h : (Command.store p b).Allowed t)
    (h' : (Command.store p b).Allowed (t.perform (.store p b) h)) :
    (t.perform (.store p b) h).perform (.store p b) h' = t.perform (.store p b) h := by
  ext1
  funext s
  show (if s = p then some (.file b) else if s = p then some (.file b) else t.entry s) =
    if s = p then some (.file b) else t.entry s
  split <;> rfl

theorem lay_eq_none {x y : Option (Entry β)} (h : lay x y = none) : x = none := by
  rcases x with _ | b | _
  · rfl
  · cases h
  · rcases y with _ | b | _
    all_goals cases h

theorem lay_twice (x y : Option (Entry β)) : lay x (lay x y) = lay x y := by
  rcases x with _ | b | _
  · rfl
  · rfl
  · rcases y with _ | b | _
    all_goals rfl

theorem branch_laid (h : t.Fits deep p q) :
    (t.laid deep p q h).branch deep p r = t.branch deep p r :=
  branch_alike fun s hs => by
    obtain ⟨r, rfl⟩ := hs
    exact laid_frame h h.apart.1

/-- At the place itself stands what was copied there. -/
theorem laid_root (h : t.Fits deep p q) : (t.laid deep p q h).entry q = t.entry p := by
  have hq := laid_at h []
  have hb : t.branch deep p [] = t.entry p := by
    unfold Tree.branch
    rw [if_pos (Or.inr rfl), List.append_nil]
  have hg : t.ground p q [] = if differ (t.entry p) (t.entry q) then none else t.entry q := by
    unfold Tree.ground
    rw [List.append_nil]
  rw [List.append_nil, hb, hg] at hq
  rw [hq]
  rcases hp : t.entry p with _ | b | _
  · exact absurd hp h.source
  · rfl
  · -- a folder replaces a file, and is merged into a folder
    rcases t.entry q with _ | b | _
    all_goals simp [lay, differ]

theorem not_differ_self (x : Option (Entry β)) : ¬ differ x x := by
  rcases x with _ | b | _
  all_goals simp [differ]

theorem ground_laid (h : t.Fits deep p q) :
    (t.laid deep p q h).ground p q r = lay (t.branch deep p r) (t.ground p q r) := by
  rw [← laid_at h r]
  unfold Tree.ground
  rw [laid_frame h h.dst_apart, laid_root, if_neg (not_differ_self _)]

/-- **A copy that is made again** is allowed, and changes nothing. -/
theorem copy_twice (h : t.Fits deep p q) :
    ∃ h' : (Command.copy deep p q).Allowed (t.perform (.copy deep p q) h),
      (t.perform (.copy deep p q) h).perform (.copy deep p q) h' = t.perform (.copy deep p q) h := by
  have hagain : (t.laid deep p q h).Fits deep p q := by
    refine ⟨?_, ⟨h.place.1, ?_⟩, h.src_apart, h.dst_apart, fun r b hb => ?_, fun r n b hb => ?_⟩
    · rw [laid_frame h h.dst_apart]
      exact h.source
    · have hparent : ¬ q <+: q.dropLast := by
        intro hpre
        have hlen := hpre.length_le
        have hpos := List.length_pos_iff.mpr h.place.1
        rw [List.length_dropLast] at hlen
        omega
      rw [laid_frame h hparent]
      exact h.place.2
    · -- a file lies where a file was copied to
      rw [branch_laid] at hb
      rw [ground_laid, hb]
      exact nofun
    · rw [branch_laid] at hb
      rw [ground_laid, t.branch_above hb]
      have hfile := h.over_file r n b hb
      rcases hg : t.ground p q r with _ | b' | _
      · exact nofun
      · -- there was no file to lie over
        rw [hg] at hfile
        exact hfile
      · exact nofun
  refine ⟨hagain, ?_⟩
  ext1
  funext s
  show ((t.laid deep p q h).laid deep p q hagain).entry s = (t.laid deep p q h).entry s
  by_cases hs : q <+: s
  · obtain ⟨r, rfl⟩ := hs
    rw [laid_at, laid_at, branch_laid, ground_laid, lay_twice]
  · rw [laid_frame hagain hs]

/-- What is copied to where nothing is, is there as it was. -/
theorem laid_absent (h : t.Fits true p q) (hq : t.entry q = none) (r : List ν) :
    (t.laid true p q h).entry (q ++ r) = t.entry (p ++ r) := by
  have hground : t.ground p q r = none := by
    unfold Tree.ground
    rw [t.none_below hq (List.prefix_append q r), ite_self]
  rw [laid_at, hground]
  unfold Tree.branch
  rw [if_pos (Or.inl rfl)]
  rcases t.entry (p ++ r) with _ | b | _
  all_goals rfl

/-- **What is moved to where nothing was, and moved back**, leaves the tree as it was. -/
theorem move_back (h : t.Fits true p q) (hq : t.entry q = none) :
    ∃ h' : (Command.move q p).Allowed (t.perform (.move p q) h),
      (t.perform (.move p q) h).perform (.move q p) h' = t := by
  -- after the first move the source is at `q`, and nothing is at `p`
  have hgone : ∀ s, p <+: s → (t.perform (.move p q) h).entry s = none := fun s hs => if_pos hs
  have hthere : ∀ r, (t.perform (.move p q) h).entry (q ++ r) = t.entry (p ++ r) := fun r =>
    (if_neg h.apart.2).trans (laid_absent h hq r)
  have hother : ∀ s, ¬ p <+: s → ¬ q <+: s → (t.perform (.move p q) h).entry s = t.entry s :=
    fun s hp hs => (if_neg hp).trans (laid_frame h hs)
  have hroot : (t.perform (.move p q) h).entry q = t.entry p := by
    have hq' := hthere []
    rw [List.append_nil, List.append_nil] at hq'
    exact hq'
  have hground : ∀ r, (t.perform (.move p q) h).ground q p r = none := by
    intro r
    unfold Tree.ground
    rw [hgone _ (List.prefix_append p r), ite_self]
  have hback : (t.perform (.move p q) h).Fits true q p := by
    have hplace := t.place_of_entry h.source_ne_nil h.source
    refine ⟨?_, ⟨hplace.1, ?_⟩, h.dst_apart, h.src_apart, fun r b _ => ?_, fun r n b _ => ?_⟩
    · rw [hroot]
      exact h.source
    · have hpos := List.length_pos_iff.mpr hplace.1
      rw [hother _ (fun hpre => ?_) (fun hpre => h.dst_apart (hpre.trans (List.dropLast_prefix p)))]
      · exact hplace.2
      · have hlen := hpre.length_le
        rw [List.length_dropLast] at hlen
        omega
    · rw [hground]
      exact nofun
    · rw [hground]
      exact nofun
  refine ⟨hback, ?_⟩
  ext1
  funext s
  show (if q <+: s then none else ((t.perform (.move p q) h).laid true q p hback).entry s) = t.entry s
  split
  · rename_i hs
    exact (t.none_below hq hs).symm
  · rename_i hqs
    by_cases hps : p <+: s
    · obtain ⟨r, rfl⟩ := hps
      rw [laid_absent hback (hgone p List.prefix_rfl), hthere]
    · rw [laid_frame hback hps, hother s hps hqs]

end Perform

/-! ## Runs -/

section Runs

variable {ν β : Type*} [DecidableEq ν] {t t' : Tree ν β} {c : Command ν β} {done : Bool}
  {tr : List (Command ν β × Bool)} {s : List ν}

/-- Where a command may put something that was not there. -/
def Command.Fills : Command ν β → List ν → Prop
  | .store p _, s => s = p
  | .make p _, s => s = p
  | .remove _, _ => False
  | .copy _ _ q, s => q <+: s
  | .move _ q, s => q <+: s

/-- A command leaves what stands there alone. -/
def Command.Spares : Command ν β → List ν → Prop
  | .store p _, s => s ≠ p
  | .make _ _, _ => True
  | .remove p, s => ¬ p <+: s
  | .copy _ _ q, s => ¬ q <+: s
  | .move p q, s => ¬ p <+: s ∧ ¬ q <+: s

/-- A command that was performed; or one that was not, or not all of it. -/
def Step (t : Tree ν β) : Command ν β × Bool → Tree ν β → Prop
  | (c, true), t' => ∃ h, t' = t.perform c h
  | (c, false), t' =>
    (∀ s, ¬ c.Scope t s → t'.entry s = t.entry s) ∧
      ∀ s, t.entry s = none → ¬ c.Fills s → t'.entry s = none

theorem step_frame (h : Step t (c, done) t') (hs : ¬ c.Scope t s) : t'.entry s = t.entry s := by
  cases done with
  | true =>
    obtain ⟨ha, rfl⟩ := h
    exact effect_frame ha hs
  | false => exact h.1 s hs

omit [DecidableEq ν] in
theorem not_scope_of_spares (hs : t.entry s ≠ none) (h : c.Spares s) : ¬ c.Scope t s := by
  cases c with
  | store p b => exact h
  | make p x =>
    rintro ⟨rfl, hnone⟩
    exact hs hnone
  | remove p => exact h
  | copy deep p q => exact h
  | move p q =>
    rintro (hp | hq)
    · exact h.1 hp
    · exact h.2 hq

/-- Only where a command fills something can appear. -/
theorem step_absent (h : Step t (c, done) t') (hs : t.entry s = none) (hf : ¬ c.Fills s) :
    t'.entry s = none := by
  cases done with
  | false => exact h.2 s hs hf
  | true =>
    obtain ⟨ha, rfl⟩ := h
    by_cases hscope : c.Scope t s
    · cases c with
      | store p b => exact absurd hscope hf
      | make p x => exact absurd hscope.1 hf
      | remove p => exact if_pos hscope
      | copy deep p q => exact absurd hscope hf
      | move p q => exact if_pos (hscope.resolve_right hf)
    · rw [effect_frame ha hscope]
      exact hs

/-- **An entry is the same after any run of commands that spare it.** -/
theorem run_spares (h : Lts.Run Step t tr t') (hs : t.entry s ≠ none)
    (hspares : ∀ a ∈ tr, a.1.Spares s) : t'.entry s = t.entry s := by
  induction h with
  | nil t => rfl
  | @cons t u v a tr hstep _ ih =>
    have hsame : u.entry s = t.entry s :=
      step_frame hstep (not_scope_of_spares hs (hspares a List.mem_cons_self))
    rw [← hsame] at hs ⊢
    exact ih hs fun b hb => hspares b (List.mem_cons_of_mem _ hb)

/-- **And nothing appears in a run of commands that do not fill it.** -/
theorem run_absent (h : Lts.Run Step t tr t') (hs : t.entry s = none)
    (hfills : ∀ a ∈ tr, ¬ a.1.Fills s) : t'.entry s = none := by
  induction h with
  | nil t => exact hs
  | @cons t u v a tr hstep _ ih =>
    have hnone : u.entry s = none := step_absent hstep hs (hfills a List.mem_cons_self)
    exact ih hnone fun b hb => hfills b (List.mem_cons_of_mem _ hb)

end Runs

end Hierarchy
