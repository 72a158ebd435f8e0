/-
Labels over a family of lists: when a label names one entry.

A table keeps a list of entries for each of its indices, and every entry carries a
label. `Unique` says that no label is carried twice, in one list or in two. The
moves of such a table are the lemmas: labels go away (`Unique.of_sublist`), and one
list is replaced by a part of itself with a new entry at its end
(`Unique.push_iff`).
-/
import Mathlib.Data.List.Nodup

set_option autoImplicit false

namespace Labels

variable {ι α κ : Type*} (key : α → κ)

/-- No label is carried twice. -/
structure Unique (f : ι → List α) : Prop where
  nodup : ∀ i, ((f i).map key).Nodup
  apart : ∀ i j x y, x ∈ f i → y ∈ f j → key x = key y → i = j

variable {key} {f g : ι → List α}

/-- Two entries of one list with one label are the same entry. -/
theorem Unique.eq (h : Unique key f) {i : ι} {x y : α} (hx : x ∈ f i) (hy : y ∈ f i)
    (hxy : key x = key y) : x = y :=
  List.inj_on_of_nodup_map (h.nodup i) hx hy hxy

/-- Labels may be dropped from every list. -/
theorem Unique.of_sublist (h : Unique key f)
    (hs : ∀ i, List.Sublist ((g i).map key) ((f i).map key)) : Unique key g := by
  -- a label that is left was there before
  have hback : ∀ i x, x ∈ g i → ∃ y ∈ f i, key y = key x := by
    intro i x hx
    exact List.mem_map.mp ((hs i).subset (List.mem_map_of_mem hx))
  refine ⟨fun i => (h.nodup i).sublist (hs i), ?_⟩
  intro i j x y hx hy hxy
  obtain ⟨x', hx', hkx⟩ := hback i x hx
  obtain ⟨y', hy', hky⟩ := hback j y hy
  exact h.apart i j x' y' hx' hy' (by rw [hkx, hky, hxy])

/-- **A new entry.** One list keeps a part of itself and gets an entry: labels stay
unique exactly when nothing that is left carries the label of the new entry. -/
theorem Unique.push_iff (h : Unique key f) {i : ι} {kept : List α} {x : α}
    (hkept : List.Sublist kept (f i)) (hi : g i = kept ++ [x]) (hne : ∀ j, j ≠ i → g j = f j) :
    Unique key g ↔
      (∀ y ∈ kept, key y ≠ key x) ∧ ∀ j, j ≠ i → ∀ y ∈ f j, key y ≠ key x := by
  have hx : x ∈ g i := by
    rw [hi]
    simp
  constructor
  · intro hg
    constructor
    · intro y hy heq
      have hnodup := hg.nodup i
      rw [hi, List.map_append, List.map_singleton, List.nodup_append] at hnodup
      exact hnodup.2.2 (key y) (List.mem_map_of_mem hy) (key x) (by simp) heq
    · intro j hj y hy heq
      rw [← hne j hj] at hy
      exact hj (hg.apart j i y x hy hx heq)
  · rintro ⟨hfresh, hother⟩
    -- what an entry of a list is: the new one, or one of before
    have hmem : ∀ j y, y ∈ g j → (j = i ∧ y = x) ∨ (y ∈ f j ∧ key y ≠ key x) := by
      intro j y hy
      by_cases hj : j = i
      · subst hj
        rw [hi, List.mem_append, List.mem_singleton] at hy
        rcases hy with hy | hy
        · exact Or.inr ⟨hkept.subset hy, hfresh y hy⟩
        · exact Or.inl ⟨rfl, hy⟩
      · rw [hne j hj] at hy
        exact Or.inr ⟨hy, hother j hj y hy⟩
    constructor
    · intro j
      by_cases hj : j = i
      · subst hj
        rw [hi, List.map_append, List.map_singleton, List.nodup_append]
        refine ⟨(h.nodup j).sublist (hkept.map key), List.nodup_singleton _, ?_⟩
        intro a ha b hb hab
        obtain ⟨y, hy, rfl⟩ := List.mem_map.mp ha
        rw [List.mem_singleton] at hb
        exact hfresh y hy (by rw [hab, hb])
      · rw [hne j hj]
        exact h.nodup j
    · intro j k y z hy hz hyz
      rcases hmem j y hy with ⟨hj, hyx⟩ | ⟨hy, hyx⟩
      · rcases hmem k z hz with ⟨hk, -⟩ | ⟨-, hzx⟩
        · rw [hj, hk]
        · exact absurd (by rw [← hyz, hyx]) hzx
      · rcases hmem k z hz with ⟨-, hzx⟩ | ⟨hz, -⟩
        · exact absurd (by rw [hyz, hzx]) hyx
        · exact h.apart j k y z hy hz hyz

end Labels
