/-
A map that keeps what a function has answered.

`ask` looks a key up and asks the function for a missing one; an answer is kept, a
failure is not. Whatever the map holds, asking for one key changes no answer about
another (`ask_stable`). The map is `Fresh` for a function when everything it holds is
what the function answers: then asking through it is asking the function
(`Fresh.ask_fst`), and it stays fresh when asked (`Fresh.ask_snd`). When the function
changes it stays fresh as far as the answers it holds stay (`Fresh.change`).
-/
import Rshs.FinMap

set_option autoImplicit false

namespace Memo

open FinMap

variable {α β ε : Type*} [DecidableEq α]

/-- Ask the memo first, and the function where the memo has nothing. -/
def ask (f : α → Except ε β) (k : α) (m : Map α β) : Except ε β × Map α β :=
  match m.lookup k with
  | some v => (.ok v, m)
  | none =>
    match f k with
    | .error e => (.error e, m)
    | .ok v => (.ok v, m.insert k v)

section Ask

variable {f : α → Except ε β} {j k : α} {m : Map α β}

/-- What is held is answered. -/
theorem ask_hit {v : β} (h : m.lookup k = some v) : ask f k m = (.ok v, m) := by
  unfold ask
  rw [h]

/-- A key that is not in the memo is asked of the function. -/
theorem ask_miss (h : m.lookup k = none) : (ask f k m).1 = f k := by
  unfold ask
  rw [h]
  dsimp only
  cases f k <;> rfl

/-- A map that has been asked for a key, or the map with its answer. -/
theorem ask_snd_cases (f : α → Except ε β) (k : α) (m : Map α β) :
    (ask f k m).2 = m ∨
      ∃ v, m.lookup k = none ∧ f k = .ok v ∧ (ask f k m).2 = m.insert k v := by
  unfold ask
  cases hl : m.lookup k with
  | some v => exact Or.inl rfl
  | none =>
    dsimp only
    cases hf : f k with
    | error e => exact Or.inl rfl
    | ok v => exact Or.inr ⟨v, rfl, rfl, rfl⟩

/-- What the map holds after it has been asked. -/
theorem lookup_ask {v : β} (h : (ask f k m).2.lookup j = some v) :
    m.lookup j = some v ∨ (j = k ∧ f k = .ok v) := by
  rcases ask_snd_cases f k m with hsame | ⟨u, -, hf, hnew⟩
  · rw [hsame] at h
    exact Or.inl h
  · rw [hnew] at h
    by_cases hjk : j = k
    · rw [hjk, AList.lookup_insert] at h
      cases h
      exact Or.inr ⟨hjk, hf⟩
    · rw [AList.lookup_insert_ne hjk] at h
      exact Or.inl h

/-- **Asking for one key changes no answer.** -/
theorem ask_stable (f : α → Except ε β) (j k : α) (m : Map α β) :
    (ask f j (ask f k m).2).1 = (ask f j m).1 := by
  rcases ask_snd_cases f k m with hsame | ⟨v, hnone, hf, hnew⟩
  · rw [hsame]
  · rw [hnew]
    by_cases hjk : j = k
    · -- the new key: what was put there is what the function answers
      subst hjk
      rw [ask_hit (AList.lookup_insert m), ask_miss hnone]
      exact hf.symm
    · cases hl : m.lookup j with
      | some u =>
        rw [ask_hit (f := f) hl, ask_hit (f := f) (by rw [AList.lookup_insert_ne hjk]; exact hl)]
      | none =>
        rw [ask_miss hl, ask_miss (by rw [AList.lookup_insert_ne hjk]; exact hl)]

end Ask

/-! ## Fresh maps -/

/-- Everything the map holds is what the function answers. -/
def Fresh (f : α → Except ε β) (m : Map α β) : Prop := ∀ k v, m.lookup k = some v → f k = .ok v

section Fresh

variable {f g : α → Except ε β} {m : Map α β}

/-- An empty memo is fresh. -/
theorem fresh_empty (f : α → Except ε β) : Fresh f ∅ := fun _ _ h => by cases h

/-- The answer of a fresh memo is that of the function. -/
theorem Fresh.ask_fst (h : Fresh f m) (k : α) : (ask f k m).1 = f k := by
  cases hl : m.lookup k with
  | none => exact ask_miss hl
  | some v =>
    rw [ask_hit hl]
    exact (h k v hl).symm

/-- Asking keeps a memo fresh. -/
theorem Fresh.ask_snd (h : Fresh f m) (k : α) : Fresh f (ask f k m).2 := by
  intro j v hj
  rcases lookup_ask hj with hold | ⟨rfl, hf⟩
  · exact h j v hold
  · exact hf

/-- A memo stays fresh if the function keeps the values that are remembered. -/
theorem Fresh.change (h : Fresh f m)
    (hg : ∀ k v, m.lookup k = some v → f k = .ok v → g k = .ok v) : Fresh g m :=
  fun k v hl => hg k v hl (h k v hl)

end Fresh

end Memo
