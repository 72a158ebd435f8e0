/-
A service behind a stack of checks.

A check answers a message itself, or hands it on; either way it may leave another state.
`stack_cases` is what a stack of checks comes to: they all admit the message, and the
service answers it in the state they leave, or one of them refuses it, and the service is
never asked. What every check leaves alone is then changed by the service or by nothing
(`admits_view`, `refuses_view`).
-/
import Mathlib.Data.List.Basic

set_option autoImplicit false

namespace Layers

section Stacks

variable {μ ρ σ τ : Type*}

/-- What a message is answered in a state, and the state that is left. -/
abbrev Service (μ ρ σ : Type*) := μ → σ → ρ × σ

/-- A check lets a message through, or gives the answer that refuses it. -/
abbrev Check (μ ρ σ : Type*) := μ → σ → Except ρ Unit × σ

/-- A service behind one check. -/
def layer (check : Check μ ρ σ) (next : Service μ ρ σ) : Service μ ρ σ := fun m s =>
  match check m s with
  | (.error r, s) => (r, s)
  | (.ok (), s) => next m s

/-- The first check is the outermost one. -/
def stack (checks : List (Check μ ρ σ)) (service : Service μ ρ σ) : Service μ ρ σ :=
  checks.foldr layer service

/-- All checks hand the message on, from one state to the other. -/
inductive Admits (m : μ) : List (Check μ ρ σ) → σ → σ → Prop
  | nil (s : σ) : Admits m [] s s
  | cons {check : Check μ ρ σ} {checks : List (Check μ ρ σ)} {s t u : σ} :
      check m s = (.ok (), t) → Admits m checks t u → Admits m (check :: checks) s u

/-- Some check answers the message. -/
inductive Refuses (m : μ) : List (Check μ ρ σ) → σ → ρ → σ → Prop
  | here {check : Check μ ρ σ} {checks : List (Check μ ρ σ)} {s t : σ} {r : ρ} :
      check m s = (.error r, t) → Refuses m (check :: checks) s r t
  | later {check : Check μ ρ σ} {checks : List (Check μ ρ σ)} {s t u : σ} {r : ρ} :
      check m s = (.ok (), t) → Refuses m checks t r u → Refuses m (check :: checks) s r u

variable {m : μ} {checks : List (Check μ ρ σ)} {service : Service μ ρ σ} {s t : σ} {r : ρ}

/-- A message that all checks admit is answered by the service. -/
theorem stack_admits (h : Admits m checks s t) : stack checks service m s = service m t := by
  induction h with
  | nil s => rfl
  | @cons check checks s t u hc _ ih =>
    show layer check (stack checks service) m s = service m u
    unfold layer
    rw [hc]
    exact ih

/-- A message that one refuses is answered by it. -/
theorem stack_refuses (h : Refuses m checks s r t) : stack checks service m s = (r, t) := by
  induction h with
  | @here check checks s t r hc =>
    show layer check (stack checks service) m s = (r, t)
    unfold layer
    rw [hc]
  | @later check checks s t u r hc _ ih =>
    show layer check (stack checks service) m s = (r, u)
    unfold layer
    rw [hc]
    exact ih

/-- Every message is admitted or refused. -/
theorem admits_or_refuses (m : μ) (checks : List (Check μ ρ σ)) (s : σ) :
    (∃ t, Admits m checks s t) ∨ ∃ r t, Refuses m checks s r t := by
  induction checks generalizing s with
  | nil => exact Or.inl ⟨s, .nil s⟩
  | cons check checks ih =>
    rcases hc : check m s with ⟨r | u, t⟩
    · exact Or.inr ⟨r, t, .here hc⟩
    · rcases ih t with ⟨u, hu⟩ | ⟨r, u, hu⟩
      · exact Or.inl ⟨u, .cons hc hu⟩
      · exact Or.inr ⟨r, u, .later hc hu⟩

/-- **A message is answered by the service, admitted by every check, or by a check.** -/
theorem stack_cases (m : μ) (checks : List (Check μ ρ σ)) (service : Service μ ρ σ) (s : σ) :
    (∃ t, Admits m checks s t ∧ stack checks service m s = service m t) ∨
      ∃ r t, Refuses m checks s r t ∧ stack checks service m s = (r, t) := by
  rcases admits_or_refuses m checks s with ⟨t, h⟩ | ⟨r, t, h⟩
  · exact Or.inl ⟨t, h, stack_admits h⟩
  · exact Or.inr ⟨r, t, h, stack_refuses h⟩

/-- An answer that no check gives is no refusal. -/
theorem not_refused (hno : ∀ check ∈ checks, ∀ s : σ, (check m s).1 ≠ .error r) :
    ¬ Refuses m checks s r t := by
  intro h
  induction h with
  | @here check checks s t r hc =>
    apply hno check List.mem_cons_self s
    rw [hc]
  | later _ _ ih => exact ih fun check hmem => hno check (List.mem_cons_of_mem _ hmem)

/-- What every check and the service keep, the stack keeps. -/
theorem stack_keeps {I : σ → Prop}
    (hchecks : ∀ check ∈ checks, ∀ s : σ, I s → I (check m s).2)
    (hservice : ∀ s : σ, I s → I (service m s).2) (hs : I s) :
    I (stack checks service m s).2 := by
  induction checks generalizing s with
  | nil => exact hservice s hs
  | cons check checks ih =>
    show I (layer check (stack checks service) m s).2
    have hkept := hchecks check List.mem_cons_self s hs
    unfold layer
    rcases hc : check m s with ⟨r | u, t⟩
    · rw [hc] at hkept
      exact hkept
    · rw [hc] at hkept
      exact ih (fun c hmem => hchecks c (List.mem_cons_of_mem _ hmem)) hkept

/-- What the checks leave alone. -/
def Blind (view : σ → τ) (checks : List (Check μ ρ σ)) : Prop :=
  ∀ check ∈ checks, ∀ m s, view (check m s).2 = view s

variable {view : σ → τ}

theorem Blind.tail {check : Check μ ρ σ} (h : Blind view (check :: checks)) : Blind view checks :=
  fun c hc => h c (List.mem_cons_of_mem _ hc)

theorem Blind.head {check : Check μ ρ σ} {a : Except ρ Unit} (h : Blind view (check :: checks))
    (hc : check m s = (a, t)) : view t = view s := by
  have hsame := h check List.mem_cons_self m s
  rw [hc] at hsame
  exact hsame

/-- Checks that do not look at a part of the state leave it as it is. -/
theorem admits_view (hb : Blind view checks) (h : Admits m checks s t) : view t = view s := by
  induction h with
  | nil s => rfl
  | cons hc _ ih => exact (ih hb.tail).trans (hb.head hc)

theorem refuses_view (hb : Blind view checks) (h : Refuses m checks s r t) : view t = view s := by
  induction h with
  | here hc => exact hb.head hc
  | later hc _ ih => exact (ih hb.tail).trans (hb.head hc)

end Stacks

end Layers
