/-
A list repeated for ever, by its beginnings.

`endless xs i` are the first `i` elements of `xs ++ xs ++ …`. The two facts that matter
are that they extend each other (`endless_grows`) and that the repetition starts again
after one round (`endless_add`).
-/
import Mathlib.Data.List.Infix

set_option autoImplicit false

namespace Endless

variable {α : Type*} {xs : List α}

def endless (xs : List α) (i : ℕ) : List α := (List.replicate i xs).flatten.take i

/-- `i` rounds of a list have `i` times its length. -/
theorem length_rounds (i : ℕ) : (List.replicate i xs).flatten.length = i * xs.length := by
  simp

/-- The first `i` items are `i` items: rounds of a list that is not empty never run out. -/
theorem length_endless (h : xs ≠ []) (i : ℕ) : (endless xs i).length = i := by
  have hpos : 0 < xs.length := List.length_pos_iff.mpr h
  unfold endless
  rw [List.length_take, length_rounds]
  apply Nat.min_eq_left
  exact Nat.le_mul_of_pos_right i hpos

/-- However many rounds there are, as long as they are enough. -/
theorem endless_rounds (h : xs ≠ []) {i k : ℕ} (hik : i ≤ k) :
    (List.replicate k xs).flatten.take i = endless xs i := by
  have hpos : 0 < xs.length := List.length_pos_iff.mpr h
  obtain ⟨d, rfl⟩ := Nat.exists_eq_add_of_le hik
  unfold endless
  rw [List.replicate_add, List.flatten_append]
  apply List.take_append_of_le_length
  rw [length_rounds]
  exact Nat.le_mul_of_pos_right i hpos

/-- Fewer items are the beginning of more. -/
theorem endless_grows (h : xs ≠ []) {i j : ℕ} (hij : i ≤ j) : endless xs i <+: endless xs j := by
  rw [← endless_rounds h hij]
  unfold endless
  exact List.take_prefix_take_left hij

/-- One item more is appended at the end. -/
theorem endless_succ (h : xs ≠ []) (i : ℕ) : ∃ x, endless xs (i + 1) = endless xs i ++ [x] := by
  obtain ⟨r, hr⟩ := endless_grows h (Nat.le_succ i)
  have hlen := congrArg List.length hr
  rw [List.length_append, length_endless h, length_endless h] at hlen
  obtain ⟨x, hx⟩ := List.length_eq_one_iff.mp (by omega : r.length = 1)
  exact ⟨x, by rw [← hr, hx]⟩

/-- **After one round the list begins again.** -/
theorem endless_add (h : xs ≠ []) (i : ℕ) : endless xs (i + xs.length) = xs ++ endless xs i := by
  have hround : (List.replicate (i + xs.length + 1) xs).flatten =
      xs ++ (List.replicate (i + xs.length) xs).flatten := by
    rw [List.replicate_succ, List.flatten_cons]
  rw [← endless_rounds h (Nat.le_succ (i + xs.length)), hround, Nat.add_comm i,
    List.take_length_add_append]
  rw [endless_rounds h (Nat.le_add_left i _)]

theorem endless_self (h : xs ≠ []) : endless xs xs.length = xs := by
  have hround := endless_add h 0
  rw [Nat.zero_add] at hround
  rw [hround]
  simp [endless]

end Endless
