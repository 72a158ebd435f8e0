/-
Slots that are filled by their numbers.

The writes come in some order. As long as no two of them have the same number, a slot
holds what was written to it, or is as it was, whatever the order.
-/
import Mathlib.Data.List.Nodup

set_option autoImplicit false

namespace Slots

variable {α : Type*}

/-- The slots after some writes, each with the number of its slot. -/
def fill (slots : List α) (writes : List (ℕ × α)) : List α :=
  writes.foldl (fun s w => s.set w.1 w.2) slots

@[simp] theorem fill_nil (slots : List α) : fill slots [] = slots := rfl

theorem fill_cons (slots : List α) (w : ℕ × α) (writes : List (ℕ × α)) :
    fill slots (w :: writes) = fill (slots.set w.1 w.2) writes := rfl

/-- Filling leaves the number of slots as it is. -/
@[simp] theorem fill_length (slots : List α) (writes : List (ℕ × α)) :
    (fill slots writes).length = slots.length := by
  induction writes generalizing slots with
  | nil => rfl
  | cons w writes ih => rw [fill_cons, ih, List.length_set]

/-- A slot nothing is written to. -/
theorem fill_other {slots : List α} {writes : List (ℕ × α)} {i : ℕ}
    (h : ∀ w ∈ writes, w.1 ≠ i) : (fill slots writes)[i]? = slots[i]? := by
  induction writes generalizing slots with
  | nil => rfl
  | cons w writes ih =>
    have hfirst := h w List.mem_cons_self
    rw [fill_cons, ih fun v hv => h v (List.mem_cons_of_mem w hv), List.getElem?_set_ne hfirst]

/-- **A slot that is written to once.** -/
theorem fill_own {slots : List α} {writes : List (ℕ × α)} {i : ℕ} {a : α}
    (hdistinct : (writes.map Prod.fst).Nodup) (hw : (i, a) ∈ writes) (hi : i < slots.length) :
    (fill slots writes)[i]? = some a := by
  induction writes generalizing slots with
  | nil => cases hw
  | cons w writes ih =>
    rw [List.map_cons, List.nodup_cons] at hdistinct
    rw [fill_cons]
    by_cases hlater : (i, a) ∈ writes
    · apply ih hdistinct.2 hlater
      rw [List.length_set]
      exact hi
    · -- this is the write, and no later one has its number
      have hfirst : w = (i, a) := ((List.mem_cons.mp hw).resolve_right hlater).symm
      subst hfirst
      have hnot : ∀ v ∈ writes, v.1 ≠ i := by
        intro v hv heq
        have hmem := List.mem_map_of_mem (f := Prod.fst) hv
        rw [heq] at hmem
        exact hdistinct.1 hmem
      rw [fill_other hnot, List.getElem?_set_self hi]

end Slots
