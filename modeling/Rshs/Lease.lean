/-
Leases: entries that stop counting as time passes, and exclusive ones among them.

An entry is live at a time when it is not dead there, and a dead entry never
comes back (`Perishable`). The lists here are what a lock table keeps for one
resource. `Alone` is mutual exclusion for such a list: an exclusive entry in it
is the only one. The lemmas are the moves a table makes: time passes and entries
are dropped (`Alone.sublist`), an entry is rewritten (`Alone.replace`), a shared
entry joins shared ones (`Alone.concat_shared`).
-/
import Mathlib.Order.Basic
import Mathlib.Data.List.Basic

set_option autoImplicit false

namespace Lease

section Live

variable {α τ : Type*} (dead : τ → α → Bool)

/-- The entries that count at time `t`, in order. -/
def live (t : τ) (xs : List α) : List α := xs.filter (fun x => !dead t x)

/-- Time only takes entries away. -/
def Perishable [Preorder τ] : Prop := ∀ s t x, s ≤ t → dead s x = true → dead t x = true

variable {dead} {s t : τ} {xs ys : List α} {x : α}

theorem mem_live : x ∈ live dead t xs ↔ x ∈ xs ∧ dead t x = false := by
  simp [live]

@[simp] theorem live_nil : live dead t [] = [] := rfl

@[simp] theorem live_append : live dead t (xs ++ ys) = live dead t xs ++ live dead t ys :=
  List.filter_append _ _

theorem live_singleton (h : dead t x = false) : live dead t [x] = [x] := by
  simp [live, h]

/-- Looking twice is looking once. -/
theorem live_live : live dead t (live dead t xs) = live dead t xs := by
  simp [live, List.filter_filter]

theorem live_middle {pre post : List α} (h : dead t x = false) :
    live dead t (pre ++ x :: post) = live dead t pre ++ x :: live dead t post := by
  simp [live, h]

/-- Filtering a list and then looking at what is live is looking and then filtering. -/
theorem live_filter (p : α → Bool) : live dead t (xs.filter p) = (live dead t xs).filter p := by
  rw [live, live, List.filter_filter, List.filter_filter]
  simp only [Bool.and_comm]

theorem live_sublist_of_sublist (h : List.Sublist ys xs) :
    List.Sublist (live dead t ys) (live dead t xs) :=
  h.filter _

/-- What is live later was live before. -/
theorem live_sublist [Preorder τ] (hd : Perishable dead) (hst : s ≤ t) :
    List.Sublist (live dead t xs) (live dead s xs) := by
  have hsub : live dead t xs = (live dead s xs).filter (fun x => !dead t x) := by
    rw [live, live, List.filter_filter]
    refine List.filter_congr (fun x _ => ?_)
    cases hdead : dead s x with
    | false => simp
    | true => simp [hd s t x hst hdead]
  rw [hsub]
  exact List.filter_sublist

end Live

section Alone

variable {α : Type*} (excl : α → Bool)

/-- An exclusive entry is the only entry. -/
def Alone (xs : List α) : Prop := ∀ x ∈ xs, excl x = true → xs = [x]

variable {excl} {xs ys : List α} {x : α}

/-- Exclusion holds of short lists and of lists without exclusive entries, and of
no others. -/
theorem alone_iff : Alone excl xs ↔ xs.length ≤ 1 ∨ ∀ x ∈ xs, excl x = false := by
  constructor
  · intro h
    by_cases hx : ∃ x ∈ xs, excl x = true
    · obtain ⟨x, hx, hexcl⟩ := hx
      left
      simp [h x hx hexcl]
    · right
      intro x hmem
      by_contra hne
      exact hx ⟨x, hmem, by simpa using hne⟩
  · rintro (hlen | hshared) x hx hexcl
    · obtain ⟨y, rfl⟩ := List.length_eq_one_iff.mp
        (Nat.le_antisymm hlen (List.length_pos_iff.mpr (List.ne_nil_of_mem hx)))
      rw [List.mem_singleton.mp hx]
    · rw [hshared x hx] at hexcl
      contradiction

/-- Dropping entries keeps exclusion. -/
theorem Alone.sublist (h : Alone excl xs) (hs : List.Sublist ys xs) : Alone excl ys := by
  rcases alone_iff.mp h with hlen | hshared
  · exact alone_iff.mpr (Or.inl (Nat.le_trans hs.length_le hlen))
  · exact alone_iff.mpr (Or.inr (fun y hy => hshared y (hs.subset hy)))

/-- An entry may be replaced by one that is exclusive when it is. -/
theorem Alone.replace {pre post : List α} {y : α} (h : Alone excl (pre ++ x :: post))
    (hxy : excl y = excl x) : Alone excl (pre ++ y :: post) := by
  rcases alone_iff.mp h with hlen | hshared
  · refine alone_iff.mpr (Or.inl ?_)
    simpa using hlen
  · refine alone_iff.mpr (Or.inr (fun z hz => ?_))
    rcases List.mem_append.mp hz with hz | hz
    · exact hshared z (List.mem_append_left _ hz)
    · rcases List.mem_cons.mp hz with rfl | hz
      · rw [hxy]
        exact hshared x (by simp)
      · exact hshared z (by simp [hz])

/-- A shared entry may join shared entries. -/
theorem Alone.concat_shared (h : ∀ y ∈ xs, excl y = false) (hx : excl x = false) :
    Alone excl (xs ++ [x]) := by
  refine alone_iff.mpr (Or.inr (fun y hy => ?_))
  rcases List.mem_append.mp hy with hy | hy
  · exact h y hy
  · rw [List.mem_singleton.mp hy]
    exact hx

end Alone

end Lease
