/-
**Round-robin interleaving: one sequence dealt out over several banks.**

The items `0, 1, 2, …` of a sequence are dealt out over `B` banks, item `n` going to bank `n % B` as
that bank's item number `n / B`.  This module counts how far each bank has got when the whole
sequence has reached `N`, and which bank the next items go to.

Main definitions:

* `Interleave.cnt` — how many of the items below `N` went to bank `b`;
* `Interleave.lane` — how many items from `N` on go to other banks before bank `b` gets one.

Main results:

* `Interleave.cnt_le_iff` — the counter of a bank is below `k` exactly as long as the bank's item
  `k` has not been reached;
* `Interleave.cnt_add` — adding at most `B` items advances exactly the banks of the first lanes, by
  one each.
-/

import Mathlib.Tactic.Ring
import Mathlib.Data.Nat.ModEq

set_option relaxedAutoImplicit false
set_option autoImplicit false

namespace Interleave

/-- The number of items below `N` that are dealt to bank `b` out of `B`. -/
def cnt (B b N : ℕ) : ℕ := (N + (B - 1 - b)) / B

/-- The position of bank `b` among the banks, counted from the bank of item `N` on. -/
def lane (B N b : ℕ) : ℕ := (b + (B - N % B)) % B

variable {B b N : ℕ}

theorem cnt_le_iff (hb : b < B) (k : ℕ) : cnt B b N ≤ k ↔ N ≤ k * B + b := by
  unfold cnt
  rw [← Nat.lt_succ_iff, Nat.div_lt_iff_lt_mul (by omega), Nat.succ_mul]
  omega

theorem lt_cnt_iff (hb : b < B) (k : ℕ) : k < cnt B b N ↔ k * B + b < N := by
  rw [← not_le, cnt_le_iff hb, not_le]

@[simp] theorem cnt_zero (hb : b < B) : cnt B b 0 = 0 := by
  rw [← Nat.le_zero, cnt_le_iff hb]
  omega

theorem cnt_mono {N' : ℕ} (h : N ≤ N') : cnt B b N ≤ cnt B b N' :=
  Nat.div_le_div_right (by omega)

theorem lane_lt (hB : 0 < B) : lane B N b < B := Nat.mod_lt _ hB

/-- The item that is `lane B N b` items after `N` goes to bank `b`. -/
theorem add_lane_mod (hb : b < B) : (N + lane B N b) % B = b := by
  have hN : N % B < B := Nat.mod_lt _ (by omega)
  have hm : N % B + (b + (B - N % B)) = b + B := by omega
  rw [lane, Nat.add_mod_mod, Nat.add_mod, ← Nat.add_mod, ← Nat.mod_add_mod, hm, Nat.add_mod_right,
    Nat.mod_eq_of_lt hb]

/-- Two items less than `B` apart in the same bank are the same. -/
theorem eq_of_mod_eq {i j : ℕ} (hi : i < B) (hj : j < B) (h : (N + i) % B = (N + j) % B) :
    i = j := by
  have h' : i ≡ j [MOD B] := Nat.ModEq.add_left_cancel' N h
  exact Nat.ModEq.eq_of_lt_of_lt h' hi hj

theorem lane_add_mod {i : ℕ} (hi : i < B) : lane B N ((N + i) % B) = i :=
  eq_of_mod_eq (lane_lt (by omega)) hi (add_lane_mod (Nat.mod_lt _ (by omega)))

/-- The next item of bank `b` is the one `lane B N b` items after `N`. -/
theorem cnt_mul_add (hb : b < B) : cnt B b N * B + b = N + lane B N b := by
  have hm := add_lane_mod (N := N) hb
  have hl := lane_lt (N := N) (b := b) (Nat.zero_lt_of_lt hb)
  have hd := Nat.div_add_mod' (N + lane B N b) B
  rw [hm] at hd
  have hc : cnt B b N = (N + lane B N b) / B := by
    refine le_antisymm ((cnt_le_iff hb _).2 (by omega)) (Nat.le_of_not_lt fun hlt => ?_)
    have h₁ := (cnt_le_iff (N := N) hb _).1 (Nat.le_sub_one_of_lt hlt)
    obtain ⟨q, hq⟩ := Nat.exists_eq_add_of_lt hlt
    have h₂ : ((N + lane B N b) / B - 1) * B + B ≤ (N + lane B N b) / B * B := by
      rw [← Nat.succ_mul]
      exact Nat.mul_le_mul_right B (by omega)
    omega
  rw [hc, hd]

/-- **Dealing `n ≤ B` more items** advances the banks of the first `n` lanes by one each. -/
theorem cnt_add (hb : b < B) {n : ℕ} (hn : n ≤ B) :
    cnt B b (N + n) = if lane B N b < n then cnt B b N + 1 else cnt B b N := by
  have h := cnt_mul_add (N := N) hb
  have hl := lane_lt (N := N) (b := b) (Nat.zero_lt_of_lt hb)
  split_ifs with hc
  · refine le_antisymm ((cnt_le_iff hb _).2 ?_) ((lt_cnt_iff hb _).2 (by omega))
    rw [Nat.succ_mul]
    omega
  · exact le_antisymm ((cnt_le_iff hb _).2 (by omega)) (cnt_mono (Nat.le_add_right _ _))

/-- The counter of the bank of an item is the item's number in its bank. -/
theorem cnt_lane {i : ℕ} (hi : i < B) : cnt B ((N + i) % B) N = (N + i) / B := by
  have hB : 0 < B := by omega
  have h := cnt_mul_add (N := N) (Nat.mod_lt (N + i) hB)
  rw [lane_add_mod hi] at h
  have hd := Nat.div_add_mod' (N + i) B
  exact Nat.eq_of_mul_eq_mul_right hB (by omega)

end Interleave
