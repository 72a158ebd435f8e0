/-
Which recursive copies end, whatever the system does.

A moment of a copy has finitely many next ones, since a directory has finitely many orders
to be listed in. So if the moments that a walk can come to are infinitely many, there is a
walk without an end (`Lts.endless_of_infinite`), and a system in which the copy goes it
(`walk_goes_on`).

What grows is the source: a copy into its own source makes directories there, which it then
copies as well. `Grows` are the directories that come to stand in the source, and the loop
ends in every system exactly if they are finitely many (`loop_ends_iff`).
-/
import Rshs.CopyBegun
import Rshs.CopyEnds
import Mathlib.Data.List.Permutation

set_option autoImplicit false

namespace Rshs.CopyFinite

open StdPath Posix Rshs.Webdav Rshs.CopyMove Rshs.CopyRun Rshs.CopyWalk Rshs.CopyEnds

/-! ## The next moments are finitely many -/

/-- What an entry leads to is determined. -/
theorem inside_unique {M M₁ M₂ : Moment} {as₁ as₂ : List Access} (hin : M.rounds = 0)
    (h₁ : Step M as₁ M₁) (h₂ : Step M as₂ M₂) : M₁ = M₂ := by
  cases h₁ with
  | opened d names _ _ _ => cases hin
  | closed =>
    cases h₂
    rfl
  | passed =>
    cases h₂
    rfl
  | made loc hl hnone =>
    cases h₂ with
    | made loc' hl' _ =>
      rw [hl] at hl'
      cases hl'
      rfl
    | found loc' hl' hsome =>
      rw [hl] at hl'
      cases hl'
      exact absurd hnone hsome
  | found loc hl hsome =>
    cases h₂ with
    | made loc' hl' hnone =>
      rw [hl] at hl'
      cases hl'
      exact absurd hnone hsome
    | found loc' _ _ => rfl
  | copied q loc h =>
    cases h₂ with
    | copied q' loc' h' =>
      have hq := h.source
      have hloc := h.dest
      rw [h'.source] at hq
      rw [h'.dest] at hloc
      cases hq
      cases hloc
      rfl

/-- A directory is listed in one of finitely many orders. -/
theorem step_finite (M : Moment) : {M' | ∃ as, Step M as M'}.Finite := by
  cases M with
  | inside fs src_dir dest_dir entries stack =>
    apply Set.Subsingleton.finite
    rintro M₁ ⟨as₁, h₁⟩ M₂ ⟨as₂, h₂⟩
    exact inside_unique rfl h₁ h₂
  | between fs stack =>
    cases stack with
    | nil =>
      apply Set.Subsingleton.finite
      rintro M₁ ⟨as₁, h₁⟩
      cases h₁
    | cons pair stack =>
      obtain ⟨src_dir, dest_dir⟩ := pair
      -- the source leads to one directory at most
      cases hd : follow fs src_dir with
      | error e =>
        apply Set.Subsingleton.finite
        rintro M₁ ⟨as₁, h₁⟩
        cases h₁ with
        | opened d names hd' _ _ =>
          rw [hd] at hd'
          cases hd'
      | ok d =>
        have hfinite : {names : List Name | names.Perm (fs.children d)}.Finite := by
          apply (fs.children d).permutations.finite_toSet.subset
          intro names hnames
          exact List.mem_permutations.mpr hnames
        refine (hfinite.image fun names =>
          Moment.inside fs src_dir dest_dir (listed fs d names) stack).subset ?_
        rintro M₁ ⟨as₁, h₁⟩
        cases h₁ with
        | opened d' names hd' _ hnames =>
          rw [hd] at hd'
          cases hd'
          exact ⟨names, hnames, rfl⟩

/-! ## A walk without an end -/

/-- What is left of the directory a copy is inside of. -/
def left : Moment → ℕ
  | .between _ _ => 0
  | .inside _ _ _ entries _ => entries.length + 1

/-- A step inside a directory leaves less of it. -/
theorem step_left {M M' : Moment} {as : List Access} (h : Step M as M') (hin : M.rounds = 0) :
    left M' < left M := by
  cases h with
  | opened d names _ _ _ => cases hin
  | closed => simp [left]
  | made loc _ _ => simp [left]
  | found loc _ _ => simp [left]
  | passed => simp [left]
  | copied q loc _ => simp [left]

/-- A copy that has a directory to open has used up its fuel when none is left. -/
theorem go_spent {os : Os} {M M' : Moment} {as : List Access} {m : Machine} (h : Step M as M')
    (hout : M.rounds = 1) : (M.go os 0 m).1 = none := by
  cases h with
  | opened d names _ _ _ => rfl
  | closed => cases hout
  | made loc _ _ => cases hout
  | found loc _ _ => cases hout
  | passed => cases hout
  | copied q loc _ => cases hout

theorem rounds_cases (M : Moment) : M.rounds = 0 ∨ M.rounds = 1 := by
  cases M with
  | between fs stack => exact Or.inr rfl
  | inside fs src_dir dest_dir entries stack => exact Or.inl rfl

/-- Many orders are one, each for the calls between two numbers. -/
theorem one_order (calls : ℕ → ℕ) (h : StrictMono calls)
    (orders : ℕ → ℕ → List Name → List Name) (hperm : ∀ n k names, (orders n k names).Perm names) :
    ∃ order : ℕ → List Name → List Name, (∀ k names, (order k names).Perm names) ∧
      ∀ n k, calls n < k → k ≤ calls (n + 1) → order k = orders n k := by
  have hpast : ∀ k, ∃ n, k ≤ calls (n + 1) := fun k => ⟨k, (h.le_apply.trans' (Nat.le_succ k))⟩
  refine ⟨fun k => orders (Nat.find (hpast k)) k, fun k names => hperm _ _ _, fun n k hlt hle => ?_⟩
  have hfind : Nat.find (hpast k) = n := by
    rw [Nat.find_eq_iff]
    refine ⟨hle, fun i hi hk => ?_⟩
    have hmono : calls (i + 1) ≤ calls n := h.monotone hi
    omega
  dsimp only
  rw [hfind]

section Endless

variable {f : ℕ → Moment} {m : Machine}

/-- The machines along a walk that goes on. -/
theorem machines_along (hf : ∀ n, ∃ as, Step (f n) as (f (n + 1))) (hm : m.fs = (f 0).fs) :
    ∃ (ms : ℕ → Machine) (orders : ℕ → ℕ → List Name → List Name), ms 0 = m ∧
      ∀ n, (ms n).calls < (ms (n + 1)).calls ∧
        ∃ as, Comes (f n) (f (n + 1)) as (f n).rounds (ms n) (ms (n + 1)) (orders n) := by
  have hnext : ∀ n (m : {m : Machine // m.fs = (f n).fs}),
      ∃ (m' : {m' : Machine // m'.fs = (f (n + 1)).fs}) (order : ℕ → List Name → List Name),
        m.1.calls < m'.1.calls ∧
          ∃ as, Comes (f n) (f (n + 1)) as (f n).rounds m.1 m'.1 order := by
    rintro n ⟨m, hm⟩
    obtain ⟨as, hstep⟩ := hf n
    obtain ⟨m', order, hlt, hcomes⟩ := step_comes hstep hm
    exact ⟨⟨m', hcomes.fs⟩, order, hlt, as, hcomes⟩
  choose next orders hlt hcomes using hnext
  let ms : ∀ n, {m : Machine // m.fs = (f n).fs} := fun n => Nat.rec ⟨m, hm⟩ next n
  exact ⟨fun n => (ms n).1, fun n => orders n (ms n), rfl, fun n => ⟨hlt n (ms n), hcomes n (ms n)⟩⟩

/-- **A walk that goes on for ever is a copy without an end**, in a system in which no call
fails. -/
theorem walk_goes_on (hf : ∀ n, ∃ as, Step (f n) as (f (n + 1))) (hm : m.fs = (f 0).fs) :
    ∃ order hperm, ∀ fuel, ((f 0).go (listing order hperm (fun _ => false) 0) fuel m).1 = none := by
  obtain ⟨ms, orders, hfirst, hms⟩ := machines_along hf hm
  obtain ⟨order, hperm, horder⟩ :=
    one_order (fun n => (ms n).calls) (strictMono_nat_of_lt_succ fun n => (hms n).1) orders
      fun n => (hms n).2.choose_spec.perm
  refine ⟨order, hperm, fun fuel => ?_⟩
  -- each step is gone in this one system
  have hgoes : ∀ n fuel, (f n).go (listing order hperm (fun _ => false) 0) (fuel + (f n).rounds) (ms n)
      = (f (n + 1)).go (listing order hperm (fun _ => false) 0) fuel (ms (n + 1)) := by
    intro n fuel
    obtain ⟨as, hcomes⟩ := (hms n).2
    refine hcomes.goes _ (fun k hle hlt => ⟨rfl, ?_⟩) fuel
    exact horder n (k + 1) (by omega) (by omega)
  rw [← hfirst]
  -- the fuel goes down with each directory, and the directory with each entry
  suffices hall : ∀ k n, left (f n) = k →
      ((f n).go (listing order hperm (fun _ => false) 0) fuel (ms n)).1 = none from hall _ 0 rfl
  induction fuel with
  | zero =>
    intro k
    induction k using Nat.strong_induction_on with
    | h k ih =>
    rintro n rfl
    obtain ⟨as, hstep⟩ := hf n
    rcases rounds_cases (f n) with hin | hout
    · have hgo := hgoes n 0
      rw [hin] at hgo
      rw [hgo]
      exact ih _ (step_left hstep hin) (n + 1) rfl
    · exact go_spent hstep hout
  | succ fuel ihf =>
    intro k
    induction k using Nat.strong_induction_on with
    | h k ih =>
    rintro n rfl
    obtain ⟨as, hstep⟩ := hf n
    rcases rounds_cases (f n) with hin | hout
    · have hgo := hgoes n (fuel + 1)
      rw [hin] at hgo
      rw [hgo]
      exact ih _ (step_left hstep hin) (n + 1) rfl
    · have hgo := hgoes n fuel
      rw [hout] at hgo
      rw [hgo]
      exact ihf _ (n + 1) rfl

end Endless

/-! ## What comes to stand in the source -/

/-- A walk of the copy comes to a tree in which a directory stands there in the source. -/
def Grows (tree : Fs) (src dest : Path) (r : List Name) : Prop :=
  ∃ tr M, Walk (.between tree [(src, dest)]) tr M ∧ M.fs.node (src ++ r) = some .dir

section Grows

variable {src dest : Path} {m : Machine}

/-- Where they are finitely many, the loop ends. -/
theorem loop_ends (hsrc : m.fs.node src = some .dir)
    (hfinite : {r | Grows m.fs src dest r}.Finite) (os : Os) :
    ∃ fuel, (copy_loop os fuel [(src, dest)] m).1 ≠ none := by
  have hpairs : pairs src dest [[]] = [(src, dest)] := by simp [pairs]
  have hvisit : Visit src dest m m [[]] {[]} := by
    refine ⟨seen_start, Relation.ReflTransGen.refl, fun p hp => ?_⟩
    rw [Finset.mem_singleton.mp hp, List.append_nil]
    exact hsrc
  refine ⟨hfinite.toFinset.card + 1, ?_⟩
  rw [← hpairs]
  refine @copy_loop_ends os src dest m m [[]] {[]} hfinite.toFinset
    (fun ps _ fs => ∃ tr, Walk (.between m.fs [(src, dest)]) tr (.between fs (pairs src dest ps)))
    (fun m' ps seen hv hwalk p hp => ?_)
    (fun m₁ m₂ p ps seen entries stack' hv hwalk hread hentries => ?_) _ hvisit ⟨[], ?_⟩ (by simp)
  · -- what has been seen stands there now
    obtain ⟨tr, hwalk⟩ := hwalk
    exact hfinite.mem_toFinset.mpr ⟨tr, _, hwalk, hv.dirs p hp⟩
  · obtain ⟨tr, hwalk⟩ := hwalk
    obtain ⟨-, d, names, hd, hdir, hnames, rfl⟩ := read_dir_listed hread
    have hopened : Step (.between m₁.fs (pairs src dest (p :: ps))) []
        (.inside m₁.tick.fs (src ++ p) (dest ++ p) (listed m₁.fs d names) (pairs src dest ps)) :=
      Step.opened d names hd hdir hnames
    rcases entries_walk hentries with ⟨stack'', hres, tr', hwalk', -⟩ | ⟨hres, -⟩
    · cases hres
      rw [copy_entries_stack hentries] at hwalk'
      exact ⟨_, (hwalk.append (Lts.Run.single hopened)).append hwalk'⟩
    · cases hres
  · rw [hpairs]
    exact Lts.Run.nil _

/-- Where they are not, it has no end in some system in which no call fails. -/
theorem loop_goes_on (hinfinite : ¬ {r | Grows m.fs src dest r}.Finite) :
    ∃ order hperm, ∀ fuel,
      (copy_loop (listing order hperm (fun _ => false) 0) fuel [(src, dest)] m).1 = none := by
  have hmoments : ¬ {M | ∃ tr, Walk (.between m.fs [(src, dest)]) tr M}.Finite := by
    -- in each of the trees finitely many directories stand
    intro hfinite
    apply hinfinite
    refine (hfinite.biUnion fun M _ => (ends M.fs).finite_toSet).subset ?_
    rintro r ⟨tr, M, hwalk, hdir⟩
    refine Set.mem_biUnion (show M ∈ _ from ⟨tr, hwalk⟩) (mem_ends (q := src) ?_)
    rw [hdir]
    exact Option.some_ne_none _
  obtain ⟨f, hstart, hf⟩ := Lts.endless_of_infinite step_finite hmoments
  have hm : m.fs = (f 0).fs := by
    rw [hstart]
    rfl
  obtain ⟨order, hperm, hnever⟩ := walk_goes_on hf hm
  refine ⟨order, hperm, fun fuel => ?_⟩
  have hnone := hnever fuel
  rw [hstart] at hnone
  exact hnone

/-- **The loop ends in every system** if and only if the directories that come to stand in
the source are finitely many. -/
theorem loop_ends_iff (hsrc : m.fs.node src = some .dir) :
    (∀ os, ∃ fuel, (copy_loop os fuel [(src, dest)] m).1 ≠ none) ↔
      {r | Grows m.fs src dest r}.Finite := by
  refine ⟨fun hends => ?_, fun hfinite os => loop_ends hsrc hfinite os⟩
  by_contra hinfinite
  obtain ⟨order, hperm, hnever⟩ := loop_goes_on hinfinite
  obtain ⟨fuel, hfuel⟩ := hends (listing order hperm (fun _ => false) 0)
  exact hfuel (hnever fuel)

end Grows

end Rshs.CopyFinite
