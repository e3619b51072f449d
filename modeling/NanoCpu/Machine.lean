/-
**Synchronous machines: reachability and the rules for invariants.**

A clocked circuit is a state, the value of that state after reset, and a function that gives the
state after the next clock edge from the present one and from the inputs of the cycle.  What the
surroundings of the circuit promise about these inputs (a ready/valid protocol, say) is a predicate
on the present state and the inputs.  Nothing in this module is about a particular circuit.

Main definitions:

* `Machine` — a synchronous machine with the promise of its environment;
* `Machine.Reach` — the states reachable from reset along promised inputs;
* `Machine.run` — the state after a list of inputs;
* `Machine.observe` — a machine together with a history that is updated at every edge and that the
  machine itself cannot read.

Main results:

* `Machine.Reach.inv` — what holds after reset and is kept by every edge holds of every reachable
  state;
* `Machine.Reach.map` — a component of a machine only goes through states that the component
  reaches on its own;
* `Machine.Reach.observed`, `Machine.Reach.of_observe` — runs with and without an observer;
* `Machine.lockstep_iff` — two machines agree along a run exactly if every step of it is one of
  those that keep them in agreement.
-/

import Mathlib.Data.List.Induction
import Mathlib.Tactic.TypeStar

set_option relaxedAutoImplicit false
set_option autoImplicit false

/-- A synchronous machine: its state after reset, the inputs its environment may present in a given
state, and the state after the clock edge. -/
structure Machine (σ ι : Type*) where
  reset : σ
  allowed : σ → ι → Prop
  next : σ → ι → σ

namespace Machine

variable {σ τ ι κ η : Type*}

/-- The states reachable from reset along inputs that the environment may present. -/
inductive Reach (M : Machine σ ι) : σ → Prop
  | reset : Reach M M.reset
  | tick {s : σ} {x : ι} : Reach M s → M.allowed s x → Reach M (M.next s x)

/-- The invariant rule. -/
theorem Reach.inv {M : Machine σ ι} {P : σ → Prop} (h₀ : P M.reset)
    (hs : ∀ s x, P s → M.allowed s x → P (M.next s x)) {s : σ} (h : M.Reach s) : P s := by
  induction h with
  | reset => exact h₀
  | tick _ hx ih => exact hs _ _ ih hx

/-- The rule of a component: if `f` reads the component's state out of the whole and `g` its inputs,
then the component only goes through states that it reaches on its own. -/
theorem Reach.map {M : Machine σ ι} {N : Machine τ κ} (f : σ → τ) (g : σ → ι → κ)
    (h₀ : f M.reset = N.reset)
    (ha : ∀ s x, M.Reach s → N.Reach (f s) → M.allowed s x → N.allowed (f s) (g s x))
    (hn : ∀ s x, M.allowed s x → f (M.next s x) = N.next (f s) (g s x)) {s : σ} (h : M.Reach s) :
    N.Reach (f s) := by
  induction h with
  | reset =>
      rw [h₀]
      exact Reach.reset
  | @tick s x h hx ih =>
      rw [hn s x hx]
      exact Reach.tick ih (ha s x h ih hx)

/-- The state after a list of inputs. -/
def run (M : Machine σ ι) (l : List ι) : σ := l.foldl M.next M.reset

/-- A list of inputs that the environment may present, one after the other. -/
theorem reach_run {M : Machine σ ι} {l : List ι}
    (h : ∀ k x, l[k]? = some x → M.allowed (M.run (l.take k)) x) : M.Reach (M.run l) := by
  induction l using List.reverseRecOn with
  | nil => exact Reach.reset
  | append_singleton l x ih =>
      have hl : M.Reach (M.run l) := by
        refine ih fun k y hy => ?_
        have hk : k < l.length := (List.getElem?_eq_some_iff.1 hy).1
        have := h k y (by rw [List.getElem?_append_left hk, hy])
        rwa [List.take_append_of_le_length (Nat.le_of_lt hk)] at this
      have hx := h l.length x (by simp)
      rw [List.take_left] at hx
      rw [run, List.foldl_append]
      exact Reach.tick hl hx

/-- A machine with a history beside it: `upd` sees the state and the inputs before the edge, and the
environment's promise may mention the history. -/
def observe (M : Machine σ ι) (h₀ : η) (upd : η → σ → ι → η) (ok : η → σ → ι → Prop) :
    Machine (σ × η) ι where
  reset := (M.reset, h₀)
  allowed s x := M.allowed s.1 x ∧ ok s.2 s.1 x
  next s x := (M.next s.1 x, upd s.2 s.1 x)

/-- An observer whose history nobody asks about can watch any run. -/
theorem Reach.observed {M : Machine σ ι} (h₀ : η) (upd : η → σ → ι → η) {s : σ} (h : M.Reach s) :
    ∃ g, (M.observe h₀ upd fun _ _ _ => True).Reach (s, g) := by
  induction h with
  | reset => exact ⟨h₀, Reach.reset⟩
  | @tick s x _ hx ih =>
      obtain ⟨g, hg⟩ := ih
      exact ⟨upd g s x, Reach.tick (x := x) hg ⟨hx, trivial⟩⟩

/-- The machine that is observed does what it does without the observer. -/
theorem Reach.of_observe {M : Machine σ ι} {h₀ : η} {upd : η → σ → ι → η} {ok : η → σ → ι → Prop}
    {q : σ × η} (h : (M.observe h₀ upd ok).Reach q) : M.Reach q.1 := by
  induction h with
  | reset => exact Reach.reset
  | tick _ hx ih => exact Reach.tick ih hx.1

/-! ### Two machines side by side -/

/-- If `R` survives a step exactly when the step meets `ok`, then it holds all along a run exactly
when it holds at the start and every step of the run meets `ok`. -/
theorem lockstep_iff {f : σ → ι → σ} {g : τ → ι → τ} {R : σ → τ → Prop} {ok : σ → ι → Prop}
    (h : ∀ s t x, R s t → (R (f s x) (g t x) ↔ ok s x)) (s : σ) (t : τ) (l : List ι) :
    (∀ k, R ((l.take k).foldl f s) ((l.take k).foldl g t)) ↔
      R s t ∧ ∀ k x, l[k]? = some x → ok ((l.take k).foldl f s) x := by
  induction l generalizing s t with
  | nil => simp
  | cons y l ih =>
      constructor
      · intro hR
        have h₀ : R s t := hR 0
        have hl := (ih (f s y) (g t y)).1 fun k => hR (k + 1)
        refine ⟨h₀, fun k x hx => ?_⟩
        cases k with
        | zero =>
            obtain rfl : y = x := by simpa using hx
            exact (h s t y h₀).1 hl.1
        | succ k => exact hl.2 k x hx
      · rintro ⟨h₀, hok⟩ k
        have h₁ : R (f s y) (g t y) := (h s t y h₀).2 (hok 0 y rfl)
        cases k with
        | zero => exact h₀
        | succ k => exact (ih (f s y) (g t y)).2 ⟨h₁, fun k x hx => hok (k + 1) x hx⟩ k

end Machine
