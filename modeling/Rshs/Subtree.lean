/-
The entries below a directory, as a finite set, and sums over them.

A recursion over a tree that is kept as a flat map has no subterms to recurse on. What
takes their place is a number that the tree below each entry has: the sum of a weight
over everything below it. `sum_below` splits that sum over the entries of a directory,
so a traversal that reads directories one by one uses it up (`sum_below_entries`).
-/
import Rshs.Syscalls
import Mathlib.Algebra.GroupWithZero.Nat
import Mathlib.Algebra.BigOperators.Group.Finset.Basic

set_option autoImplicit false

namespace Posix

open StdPath

/-! ## What stands below a path -/

def Fs.below (fs : Fs) (p : Path) : Finset Path :=
  fs.known.toFinset.filter fun q => p <+: q ∧ p ≠ q ∧ fs.node q ≠ none

theorem Fs.mem_below {fs : Fs} {p q : Path} :
    q ∈ fs.below p ↔ p <+: q ∧ p ≠ q ∧ fs.node q ≠ none := by
  unfold Fs.below
  rw [Finset.mem_filter, List.mem_toFinset]
  constructor
  · intro h
    exact h.2
  · intro h
    exact ⟨fs.mem_known q h.2.2, h⟩

/-- Below anything but a directory stands nothing. -/
theorem Fs.below_eq_empty {fs : Fs} {p : Path} (h : fs.node p ≠ some .dir) : fs.below p = ∅ := by
  apply Finset.eq_empty_of_forall_notMem
  intro q hq
  obtain ⟨hpre, hne, hsome⟩ := Fs.mem_below.mp hq
  exact h (fs.dir_above hsome hpre hne)

/-- An entry of the directory, or something below one. -/
theorem Fs.mem_below_iff_entry {fs : Fs} {p q : Path} :
    q ∈ fs.below p ↔ ∃ n ∈ fs.children p, q = p ++ [n] ∨ q ∈ fs.below (p ++ [n]) := by
  constructor
  · intro h
    obtain ⟨hpre, hne, hsome⟩ := Fs.mem_below.mp h
    obtain ⟨r, rfl⟩ := hpre
    cases r with
    | nil => simp at hne
    | cons n r =>
      have hassoc : p ++ n :: r = (p ++ [n]) ++ r := by simp
      have hpre : p ++ [n] <+: p ++ n :: r := by
        rw [hassoc]
        exact List.prefix_append _ _
      have hentry : fs.node (p ++ [n]) ≠ none := fun hnone => hsome (none_below hnone hpre)
      refine ⟨n, Fs.mem_children.mpr hentry, ?_⟩
      by_cases hr : p ++ n :: r = p ++ [n]
      · exact Or.inl hr
      · exact Or.inr (Fs.mem_below.mpr ⟨hpre, fun heq => hr heq.symm, hsome⟩)
  · rintro ⟨n, hn, rfl | hq⟩
    · exact Fs.mem_below.mpr ⟨List.prefix_append _ _, by simp, Fs.mem_children.mp hn⟩
    · obtain ⟨hpre, -, hsome⟩ := Fs.mem_below.mp hq
      refine Fs.mem_below.mpr ⟨(List.prefix_append _ _).trans hpre, fun heq => ?_, hsome⟩
      have hlen := hpre.length_le
      rw [← heq, List.length_append, List.length_singleton] at hlen
      omega

/-! ## Sums -/

section Sums

variable {fs : Fs} {p : Path} (w : Path → ℕ)

/-- An entry of a directory, with all that is below it. -/
def Fs.weight_of (fs : Fs) (w : Path → ℕ) (q : Path) : ℕ := w q + ∑ q' ∈ fs.below q, w q'

/-- **A sum over a tree, by the entries of its root.** -/
theorem sum_below :
    ∑ q ∈ fs.below p, w q = ((fs.children p).map fun n => fs.weight_of w (p ++ [n])).sum := by
  have hunion : fs.below p =
      (fs.children p).toFinset.biUnion fun n => insert (p ++ [n]) (fs.below (p ++ [n])) := by
    ext q
    rw [Fs.mem_below_iff_entry, Finset.mem_biUnion]
    simp only [List.mem_toFinset, Finset.mem_insert]
  have hroot : ∀ n, p ++ [n] ∉ fs.below (p ++ [n]) := by
    intro n h
    exact (Fs.mem_below.mp h).2.1 rfl
  rw [hunion, Finset.sum_biUnion]
  · rw [← List.sum_toFinset _ (Fs.children_nodup p)]
    apply Finset.sum_congr rfl
    intro n _
    rw [Finset.sum_insert (hroot n), Fs.weight_of]
  · -- two entries have nothing below them in common
    intro n _ n' _ hne
    apply Finset.disjoint_left.mpr
    intro q hq hq'
    have hpre : ∀ k, q ∈ insert (p ++ [k]) (fs.below (p ++ [k])) → p ++ [k] <+: q := by
      intro k hk
      rcases Finset.mem_insert.mp hk with rfl | hk
      · exact List.prefix_rfl
      · exact (Fs.mem_below.mp hk).1
    have hcmp := List.prefix_of_prefix_length_le (hpre n hq) (hpre n' hq') (by simp)
    have heq : p ++ [n] = p ++ [n'] := hcmp.eq_of_length (by simp)
    apply hne
    simpa using heq

/-- The sum over what a read of the directory has listed, in whatever order. -/
theorem sum_below_entries {entries : List (Name × FileType)}
    (h : (entries.map Prod.fst).Perm (fs.children p)) :
    (entries.map fun e => fs.weight_of w (p ++ [e.1])).sum = ∑ q ∈ fs.below p, w q := by
  have hmap : entries.map (fun e => fs.weight_of w (p ++ [e.1])) =
      (entries.map Prod.fst).map fun n => fs.weight_of w (p ++ [n]) := by
    rw [List.map_map]
    rfl
  rw [hmap, sum_below]
  exact (h.map _).sum_eq

theorem weight_of_not_dir (h : fs.node p ≠ some .dir) : fs.weight_of w p = w p := by
  unfold Fs.weight_of
  rw [Fs.below_eq_empty h, Finset.sum_empty, Nat.add_zero]

end Sums

end Posix
