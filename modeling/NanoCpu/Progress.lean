/-
**Progress: what a machine must do in the end.**

`Machine.lean` says how to prove that something holds in every reachable state.  Here is how to
prove that something happens along an endless run, where the surroundings are only promised to do
their part again and again.  Nothing in this module is about a particular circuit.

Main definitions:

* `Machine.after`, `Machine.Runs` — the states along an endless list of inputs, and that all of
  these are allowed;
* `Machine.steered` — the inputs of an environment that looks at the state;
* `LeadsTo` — whenever the one holds, the other holds then or later.

Main results:

* `LeadsTo.ensures` — **one step that is offered again and again is taken in the end**;
* `LeadsTo.induct` — what leads to a smaller rank leads to the end;
* `LeadsTo.of_waits` — so does what takes its rank down whenever the thing it waits for comes;
* `Machine.Reach.after`, `Machine.after_map` — the states along a run are reachable, and a component
  runs alone.
-/

import Mathlib.Order.Filter.AtTopBot.Basic
import Mathlib.Order.WellFounded
import NanoCpu.Machine

set_option relaxedAutoImplicit false
set_option autoImplicit false

open Filter

/-! ### Endless runs -/

namespace Machine

variable {σ τ ι κ : Type*}

/-- The state after the first `k` inputs. -/
def after (M : Machine σ ι) (s : σ) (x : ℕ → ι) : ℕ → σ
  | 0 => s
  | k + 1 => M.next (after M s x k) (x k)

/-- The environment may present the inputs, one after the other. -/
def Runs (M : Machine σ ι) (s : σ) (x : ℕ → ι) : Prop := ∀ k, M.allowed (M.after s x k) (x k)

variable {M : Machine σ ι} {N : Machine τ κ} {s : σ} {x : ℕ → ι}

theorem Reach.after (h : M.Reach s) (hx : M.Runs s x) (k : ℕ) : M.Reach (M.after s x k) := by
  induction k with
  | zero => exact h
  | succ k ih => exact Reach.tick ih (hx k)

/-- A component goes through the states that it goes through alone. -/
theorem after_map (f : σ → τ) (g : σ → ι → κ)
    (h : ∀ s x, f (M.next s x) = N.next (f s) (g s x)) (k : ℕ) :
    f (M.after s x k) = N.after (f s) (fun j => g (M.after s x j) (x j)) k := by
  induction k with
  | zero => rfl
  | succ k ih =>
      rw [Machine.after, h, ih]
      rfl

/-- The inputs of an environment that looks at the state. -/
def steered (M : Machine σ ι) (f : σ → ι) (s : σ) (k : ℕ) : ι := f ((fun q => M.next q (f q))^[k] s)

theorem after_steered (f : σ → ι) (k : ℕ) :
    M.after s (M.steered f s) k = (fun q => M.next q (f q))^[k] s := by
  induction k with
  | zero => rfl
  | succ k ih => rw [Machine.after, ih, Function.iterate_succ_apply', steered]

theorem steered_eq (f : σ → ι) (k : ℕ) : M.steered f s k = f (M.after s (M.steered f s) k) := by
  rw [after_steered, steered]

/-- An invariant of the states that an environment leads to. -/
theorem after_steered_inv {f : σ → ι} {P : σ → Prop} (h₀ : P s)
    (hP : ∀ q, P q → P (M.next q (f q))) (k : ℕ) : P (M.after s (M.steered f s) k) := by
  induction k with
  | zero => exact h₀
  | succ k ih =>
      rw [Machine.after, steered_eq]
      exact hP _ ih

theorem runs_steered {f : σ → ι} {P : σ → Prop} (h₀ : P s)
    (hP : ∀ q, P q → M.allowed q (f q) ∧ P (M.next q (f q))) : M.Runs s (M.steered f s) := by
  intro k
  rw [steered_eq]
  exact (hP _ (after_steered_inv h₀ (fun q hq => (hP q hq).2) k)).1

end Machine

/-! ### Leading to -/

/-- Whenever `p` holds, `q` holds then or later. -/
def LeadsTo (p q : ℕ → Prop) : Prop := ∀ k, p k → ∃ j, k ≤ j ∧ q j

namespace LeadsTo

variable {p q r h : ℕ → Prop}

theorem of_imp (hpq : ∀ k, p k → q k) : LeadsTo p q := fun k hp => ⟨k, le_rfl, hpq k hp⟩

theorem trans (h₁ : LeadsTo p q) (h₂ : LeadsTo q r) : LeadsTo p r := by
  intro k hp
  obtain ⟨j, hkj, hq⟩ := h₁ k hp
  obtain ⟨i, hji, hr⟩ := h₂ j hq
  exact ⟨i, hkj.trans hji, hr⟩

theorem or (h₁ : LeadsTo p r) (h₂ : LeadsTo q r) : LeadsTo (fun k => p k ∨ q k) r := by
  intro k hk
  rcases hk with hp | hq
  · exact h₁ k hp
  · exact h₂ k hq

theorem mono {p' q' : ℕ → Prop} (hpq : LeadsTo p q) (hp : ∀ k, p' k → p k) (hq : ∀ k, q k → q' k) :
    LeadsTo p' q' :=
  ((of_imp hp).trans hpq).trans (of_imp hq)

/-- What stays until something happens still holds when it happens. -/
theorem and_of_stays (h : LeadsTo p q) (stay : ∀ k, p k → ¬ q k → p (k + 1)) :
    LeadsTo p fun k => p k ∧ q k := by
  intro k hp
  by_contra hne
  push Not at hne
  have hstay : ∀ i, k ≤ i → p i := by
    intro i hi
    induction i, hi using Nat.le_induction with
    | base => exact hp
    | succ i hi ih => exact stay i ih (hne i hi ih)
  obtain ⟨j, hkj, hq⟩ := h k hp
  exact hne j hkj (hstay j hkj) hq

/-- **The rule of one helpful step**: `p` stays until `q` holds, and a step that is taken again and
again brings `q` about. -/
theorem ensures (stay : ∀ k, p k → q k ∨ q (k + 1) ∨ p (k + 1)) (help : ∃ᶠ k in atTop, h k)
    (done : ∀ k, p k → h k → q k ∨ q (k + 1)) : LeadsTo p q := by
  intro k hp
  obtain ⟨j, hkj, hj⟩ := frequently_atTop.1 help k
  by_contra hne
  push Not at hne
  have hstay : ∀ i, k ≤ i → p i := by
    intro i hi
    induction i, hi using Nat.le_induction with
    | base => exact hp
    | succ i hi ih =>
        rcases stay i ih with hq | hq | hp'
        · exact absurd hq (hne i hi)
        · exact absurd hq (hne (i + 1) (by omega))
        · exact hp'
  rcases done j (hstay j hkj) hj with hq | hq
  · exact hne j hkj hq
  · exact hne (j + 1) (by omega) hq

/-- **Induction on the rank.** -/
theorem induct {α : Type*} [Preorder α] [WellFoundedLT α] (rank : ℕ → α)
    (step : ∀ a, LeadsTo (fun k => p k ∧ rank k = a) fun k => q k ∨ (p k ∧ rank k < a)) :
    LeadsTo p q := by
  have key : ∀ a k, p k → rank k = a → ∃ j, k ≤ j ∧ q j := by
    intro a
    induction a using WellFoundedLT.induction with
    | ind a ih =>
        intro k hp hk
        obtain ⟨j, hkj, hq | ⟨hp', hlt⟩⟩ := step a k ⟨hp, hk⟩
        · exact ⟨j, hkj, hq⟩
        · obtain ⟨i, hji, hq⟩ := ih (rank j) hlt j hp' rfl
          exact ⟨i, hkj.trans hji, hq⟩
  exact fun k hp => key (rank k) k hp rfl

/-- A rank that goes down in every step. -/
theorem of_rank {α : Type*} [Preorder α] [WellFoundedLT α] (rank : ℕ → α)
    (step : ∀ k, p k → q k ∨ q (k + 1) ∨ (p (k + 1) ∧ rank (k + 1) < rank k)) : LeadsTo p q := by
  refine induct rank fun a k hk => ?_
  obtain ⟨hp, rfl⟩ := hk
  rcases step k hp with hq | hq | hp'
  · exact ⟨k, le_rfl, Or.inl hq⟩
  · exact ⟨k + 1, by omega, Or.inl hq⟩
  · exact ⟨k + 1, by omega, Or.inr hp'⟩

/-- **The rule of fairness**: the rank never goes up, and when it stays, one waits for the same as
before, and in vain.  What is waited for comes again and again. -/
theorem of_waits {α β : Type*} [Preorder α] [WellFoundedLT α] (rank : ℕ → α) (wait : ℕ → β)
    (h : β → ℕ → Prop) (fair : ∀ b, ∃ᶠ k in atTop, h b k)
    (step : ∀ k, p k → q k ∨ q (k + 1) ∨ (p (k + 1) ∧ rank (k + 1) < rank k) ∨
      (p (k + 1) ∧ rank (k + 1) = rank k ∧ wait (k + 1) = wait k ∧ ¬ h (wait k) k)) :
        LeadsTo p q := by
  refine induct rank fun a k hk => ?_
  refine ensures (p := fun j => (p j ∧ rank j = a) ∧ wait j = wait k) ?_
    (fair (wait k)) ?_ k ⟨hk, rfl⟩
  · rintro j ⟨⟨hp, hr⟩, hw⟩
    rcases step j hp with hq | hq | ⟨hp', hlt⟩ | ⟨hp', heq, hw', -⟩
    · exact Or.inl (Or.inl hq)
    · exact Or.inr (Or.inl (Or.inl hq))
    · exact Or.inr (Or.inl (Or.inr ⟨hp', hr ▸ hlt⟩))
    · exact Or.inr (Or.inr ⟨⟨hp', heq.trans hr⟩, hw'.trans hw⟩)
  · rintro j ⟨⟨hp, hr⟩, hw⟩ hj
    rcases step j hp with hq | hq | ⟨hp', hlt⟩ | ⟨-, -, -, hn⟩
    · exact Or.inl (Or.inl hq)
    · exact Or.inr (Or.inl hq)
    · exact Or.inr (Or.inr ⟨hp', hr ▸ hlt⟩)
    · exact absurd (hw ▸ hj) hn

/-- What everything leads to happens again and again. -/
theorem frequently (hq : LeadsTo (fun _ => True) q) : ∃ᶠ k in atTop, q k :=
  frequently_atTop.2 fun k => hq k trivial

end LeadsTo
