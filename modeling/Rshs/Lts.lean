/-
Labelled transition systems: runs, and the two ways a property is carried along
one.

A system is a relation `next s a t` between a state, the label of what happens
and the next state. Everything here is over arbitrary states and labels, so that
a protocol, a store or a server instantiates it with its own `next`.

`Run.keeps` is the invariant rule: what one step preserves, a run preserves.
`Run.flip` is its contrapositive with the step exhibited: when a run leads from a
state without a property to a state with it, the run has a first half, one step
that establishes the property and a second half.

`endless_of_infinite` is for systems whose states each have finitely many next ones: if
infinitely many states are reached, some run goes on for ever.
-/
import Mathlib.Data.Set.Finite.Lattice
import Mathlib.Order.WellFounded

set_option autoImplicit false

namespace Lts

section Runs

variable {σ ℓ : Type*} (next : σ → ℓ → σ → Prop)

/-- `Run next s tr t`: the labels `tr`, taken in order, lead from `s` to `t`. -/
inductive Run : σ → List ℓ → σ → Prop
  | nil (s : σ) : Run s [] s
  | cons {s t u : σ} {a : ℓ} {tr : List ℓ} : next s a t → Run t tr u → Run s (a :: tr) u

/-- The states a run reaches from a state satisfying `init`. -/
def Reachable (init : σ → Prop) (s : σ) : Prop :=
  ∃ s₀ tr, init s₀ ∧ Run next s₀ tr s

end Runs

section Rules

variable {σ ℓ : Type*} {next : σ → ℓ → σ → Prop}

/-- One step is a run. -/
theorem Run.single {s t : σ} {a : ℓ} (h : next s a t) : Run next s [a] t :=
  Run.cons h (Run.nil t)

/-- Runs compose. -/
theorem Run.append {s t u : σ} {tr tr' : List ℓ} (h : Run next s tr t)
    (h' : Run next t tr' u) : Run next s (tr ++ tr') u := by
  induction h with
  | nil s => exact h'
  | cons hs _ ih => exact Run.cons hs (ih h')

/-- **The invariant rule.** What every step preserves, every run preserves. -/
theorem Run.keeps {I : σ → Prop} (hI : ∀ s a t, I s → next s a t → I t)
    {s t : σ} {tr : List ℓ} (h : Run next s tr t) : I s → I t := by
  induction h with
  | nil s => exact id
  | cons hs _ ih => exact fun hi => ih (hI _ _ _ hi hs)

/-- The invariant rule from the initial states. -/
theorem Reachable.invariant {init I : σ → Prop} (h0 : ∀ s, init s → I s)
    (hI : ∀ s a t, I s → next s a t → I t) {s : σ} (h : Reachable next init s) : I s := by
  obtain ⟨s₀, tr, hs₀, hrun⟩ := h
  exact hrun.keeps hI (h0 s₀ hs₀)

/-- A step from a reachable state reaches a reachable state. -/
theorem Reachable.step {init : σ → Prop} {s t : σ} {a : ℓ} (h : Reachable next init s)
    (hs : next s a t) : Reachable next init t := by
  obtain ⟨s₀, tr, hs₀, hrun⟩ := h
  exact ⟨s₀, tr ++ [a], hs₀, hrun.append (Run.single hs)⟩

/-- A run from a reachable state reaches a reachable state. -/
theorem Reachable.run {init : σ → Prop} {s t : σ} {tr : List ℓ} (h : Reachable next init s)
    (hr : Run next s tr t) : Reachable next init t := by
  obtain ⟨s₀, tr₀, hs₀, hrun⟩ := h
  exact ⟨s₀, tr₀ ++ tr, hs₀, hrun.append hr⟩

/-- **The flip rule.** A run from a state without `Q` to a state with `Q` has a
step that establishes `Q`. -/
theorem Run.flip {Q : σ → Prop} {s t : σ} {tr : List ℓ} (h : Run next s tr t) (hs : ¬ Q s)
    (ht : Q t) :
    ∃ tr₁ a tr₂ u v, tr = tr₁ ++ a :: tr₂ ∧ Run next s tr₁ u ∧ ¬ Q u ∧ next u a v ∧ Q v ∧
      Run next v tr₂ t := by
  induction h with
  | nil s => exact absurd ht hs
  | @cons s m t a tr hst hrun ih =>
    by_cases hm : Q m
    · exact ⟨[], a, tr, s, m, rfl, Run.nil s, hs, hst, hm, hrun⟩
    · obtain ⟨tr₁, b, tr₂, u, v, htr, h₁, hu, huv, hv, h₂⟩ := ih hm ht
      refine ⟨a :: tr₁, b, tr₂, u, v, ?_, Run.cons hst h₁, hu, huv, hv, h₂⟩
      rw [htr, List.cons_append]

end Rules

section Endless

variable {σ ℓ : Type*} {next : σ → ℓ → σ → Prop} {s : σ}

/-- Where every run ends, finitely many states are reached. -/
theorem finite_of_acc (hfin : ∀ s, {t | ∃ a, next s a t}.Finite)
    (h : Acc (fun t s => ∃ a, next s a t) s) : {t | ∃ tr, Run next s tr t}.Finite := by
  induction h with
  | intro s _ ih =>
    refine ((Set.finite_singleton s).union ((hfin s).biUnion fun u hu => ih u hu)).subset ?_
    rintro t ⟨tr, hrun⟩
    cases hrun with
    | nil => exact Or.inl rfl
    | cons hstep hrest => exact Or.inr (Set.mem_biUnion ⟨_, hstep⟩ ⟨_, hrest⟩)

/-- **The endless run.** If infinitely many states are reached, some run does not end. -/
theorem endless_of_infinite (hfin : ∀ s, {t | ∃ a, next s a t}.Finite)
    (h : ¬ {t | ∃ tr, Run next s tr t}.Finite) :
    ∃ f : ℕ → σ, f 0 = s ∧ ∀ n, ∃ a, next (f n) a (f (n + 1)) :=
  not_acc_iff_exists_descending_chain.mp fun hacc => h (finite_of_acc hfin hacc)

end Endless

end Lts
