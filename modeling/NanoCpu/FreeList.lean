/-
**The free list hands out registers** (`rtl/core/rn_fl.v`, `rn.v`).

The two lanes are served from the two ends of one vector of free registers, so that their encoders
can work side by side.  They meet only when a single register is free, and then lane 1 goes without.

Main definitions:

* `Rename.Allocates` — the lanes that need a register get different free ones;
* `Rename.Freed` — the registers that commit gives back.

Main results:

* `Rename.flStallReq_of_two` — with two free registers the list never stalls;
* `Rename.next_of_stall` — a stalled cycle takes no register and renames nothing;
* `Rename.fl_allocates` — the free list as a whole.
-/

import NanoCpu.Rename

set_option relaxedAutoImplicit false
set_option autoImplicit false

namespace NanoCpu

namespace Rename

variable {s : Rename} {x : RenameIn}

/-- The lanes that need a register get free ones, none of them zero, and no two the same. -/
structure Allocates (s : Rename) (x : RenameIn) : Prop where
  free : ∀ i < 2, (x.insn i).lrdWe = true → s.fl (s.flPrd i) = true
  ne_zero : ∀ i < 2, (x.insn i).lrdWe = true → s.flPrd i ≠ 0
  distinct : ∀ i < 2, ∀ j < 2, (x.insn i).lrdWe = true → (x.insn j).lrdWe = true → i ≠ j →
    s.flPrd i ≠ s.flPrd j

/-- The commit lanes give `p` back. -/
def Freed (x : RenameIn) (p : PReg) : Prop :=
  p ≠ 0 ∧ ∃ j < 2, x.cmtPrdWe j = true ∧ x.cmtFire j = true ∧ x.cmtPfree j = p

/-- What an unstalled free list hands out. -/
theorem allocates_of_flStallReq (h0 : s.fl 0 = false) (h : s.flStallReq x = false) :
    s.Allocates x := by
  have hfree : ∀ i < 2, (x.insn i).lrdWe = true → s.fl (s.flPrd i) = true :=
    fun i hi hw => flPrd_mem (gs_of_flStallReq h hi hw)
  refine ⟨hfree, fun i hi hw hz => ?_, fun i hi j hj hwi hwj hne => ?_⟩
  · have := hfree i hi hw
    rw [hz, h0] at this
    cases this
  · have hlane : ∀ k, k < 2 → k = 0 ∨ k = 1 := by omega
    rcases hlane i hi with rfl | rfl
    · rcases hlane j hj with rfl | rfl
      · exact absurd rfl hne
      · exact (flPrd_ne (gs_of_flStallReq h (by omega) hwj)).symm
    · rcases hlane j hj with rfl | rfl
      · exact flPrd_ne (gs_of_flStallReq h (by omega) hwi)
      · exact absurd rfl hne

/-- Of two free registers the lower encoder does not find the upper one, nor the other way round. -/
theorem flPrd_ne_of_two {p q : PReg} (hp : s.fl p = true) (hq : s.fl q = true) (hlt : p < q) :
    s.flPrd 1 ≠ s.flPrd 0 := by
  have hlow : s.flPrd 0 ≤ p := by
    change (priorityEncoderGs s.fl).1 ≤ p
    cases hf : Fin.find? s.fl with
    | none =>
        have := Fin.eq_false_of_find?_eq_none hf p
        rw [hp] at this
        cases this
    | some i =>
        rw [priorityEncoderGs, hf]
        by_contra hgt
        have := Fin.eq_false_of_find?_eq_some_of_lt hf p (not_le.1 hgt)
        rw [hp] at this
        cases this
  have hhigh : q ≤ s.flPrd 1 := by
    change q ≤ (priorityEncoderRevGs s.fl).1
    cases hf : Fin.findRev? s.fl with
    | none =>
        have := Fin.eq_false_of_findRev?_eq_none hf q
        rw [hq] at this
        cases this
    | some i =>
        rw [priorityEncoderRevGs, hf]
        by_contra hgt
        have := Fin.eq_false_of_findRev?_eq_some_of_lt hf q (not_le.1 hgt)
        rw [hq] at this
        cases this
  exact (hlow.trans_lt (hlt.trans_le hhigh)).ne'

/-- With two free registers there is one for each lane. -/
theorem flStallReq_of_two {p q : PReg} (hp : s.fl p = true) (hq : s.fl q = true) (hpq : p ≠ q) :
    s.flStallReq x = false := by
  have hne : s.flPrd 1 ≠ s.flPrd 0 := by
    rcases lt_or_gt_of_ne hpq with hlt | hlt
    · exact flPrd_ne_of_two hp hq hlt
    · exact flPrd_ne_of_two hq hp hlt
  have hgs : ∀ i, s.gs i = true := by
    intro i
    rw [gs]
    split_ifs with hi
    · exact priorityEncoderGs_of_mem hp
    · rw [priorityEncoderRevGs_of_mem hp, Bool.true_and, bne_iff_ne]
      exact hne
  simp [flStallReq, hgs]

/-- A stalled cycle takes no register and renames nothing; commit gives its registers back. -/
theorem next_of_stall (h0 : s.fl 0 = false) (hst : s.stallReq x = true) (hf : x.flush = false) :
    (∀ p, (s.next x).fl p = true ↔ s.fl p = true ∨ Freed x p) ∧ (s.next x).rat = s.rat := by
  classical
  have hpop : ∀ i, s.flPop x i = false :=
    fun i => by rw [flPop, pCe, hst, Bool.not_true, Bool.and_false]
  constructor
  · intro p
    have hfl : rfWrite (fun j => s.flPop x j && (x.insn j).lrdWe) s.flPrd
      (fun _ => false) 2 s.fl = s.fl :=
      rfWrite_of_le (Nat.zero_le 2) fun j _ _ => by rw [hpop, Bool.false_and]
    simp only [next, hf, Bool.false_eq_true, if_false, flNext, hfl, rfWrite_const]
    rw [Bool.and_eq_true, bne_iff_ne]
    have hex : (∃ j < 2, (x.cmtPrdWe j && x.cmtFire j) = true ∧ x.cmtPfree j = p) ↔
        ∃ j < 2, x.cmtPrdWe j = true ∧ x.cmtFire j = true ∧ x.cmtPfree j = p := by
      simp only [Bool.and_eq_true, and_assoc]
    simp only [hex]
    constructor
    · rintro ⟨hp, h⟩
      split_ifs at h with hc
      · exact Or.inr ⟨hp, hc⟩
      · exact Or.inl h
    · rintro (h | ⟨hp, hc⟩)
      · refine ⟨?_, ?_⟩
        · rintro rfl
          rw [h0] at h
          cases h
        · split_ifs
          · rfl
          · exact h
      · exact ⟨hp, if_pos hc⟩
  · simp only [next, hf, Bool.false_eq_true, if_false]
    exact rfWrite_of_le (Nat.zero_le 2) fun j _ _ => by rw [hpop, Bool.and_false]

/-- **The free list.**  What it hands out in an unstalled cycle is free, not zero, and different for
each lane; it does not stall while two registers are free; and in a stalled cycle without a rollback
nothing is taken and nothing renamed. -/
theorem fl_allocates (h0 : s.fl 0 = false) :
    (s.stallReq x = false → s.Allocates x) ∧
      ((∃ p q, p ≠ q ∧ s.fl p = true ∧ s.fl q = true) → s.flStallReq x = false) ∧
        (s.stallReq x = true → x.flush = false →
          (∀ p, (s.next x).fl p = true ↔ s.fl p = true ∨ Freed x p) ∧ (s.next x).rat = s.rat) := by
  refine ⟨fun h => ?_, ?_, next_of_stall h0⟩
  · exact allocates_of_flStallReq h0 (Bool.or_eq_false_iff.1 h).1
  · rintro ⟨p, q, hpq, hp, hq⟩
    exact flStallReq_of_two hp hq hpq

/-- A decoded instruction; what it does is of no matter to the free list. -/
def someInsn : DecInsn := idDec false 0 false false false 0 ⟨0, 0, 0, false, 0, false⟩

/-- A cycle in which both lanes need a register, and the stage behind takes them or stalls. -/
def needIn (flush issueReady : Bool) : RenameIn where
  flush := flush
  valid _ := true
  pushSize := 2
  insn _ := { someInsn with lrdWe := true }
  issueReady := issueReady
  cmtFire _ := false
  cmtLrd _ := 0
  cmtPfree _ := 0
  cmtPrd _ := 0
  cmtPrdWe _ := false
  prfWe _ := false
  prfWaddr _ := 0

/-- After a bundle that has taken the lowest register and the highest one. -/
def taken : Rename := (reset ⟨someInsn, 0, 0, 0, 0⟩).next (needIn false true)

/-- The next bundle takes two others, which are free; if the stage behind stalls the map is left
alone. -/
theorem fl_allocates_taken :
    (taken.flPrd 0 = 2 ∧ taken.flPrd 1 = 62 ∧ taken.Allocates (needIn false true)) ∧
      taken.flStallReq (needIn false false) = false ∧ (taken.next (needIn false false)).rat =
        taken.rat := by
  have h0 : taken.fl 0 = false := rfl
  exact ⟨⟨by decide +kernel, by decide +kernel, (fl_allocates h0).1 (by decide +kernel)⟩,
    (fl_allocates h0).2.1 ⟨2, 62, by decide, by decide +kernel, by decide +kernel⟩,
    ((fl_allocates h0).2.2 (by decide +kernel) rfl).2⟩

/-- A rollback copies the architectural map back in a stalled cycle too. -/
theorem rollback_of_stall : ¬ ∀ (s : Rename) (x : RenameIn), s.fl 0 = false → s.stallReq x = true →
    (s.next x).rat = s.rat := by
  intro h
  have hrat : taken.rat 0 = 63 := by decide +kernel
  have h₁ := congrFun (h taken (needIn true false) rfl (by decide +kernel)) 0
  rw [hrat] at h₁
  have h₂ : (0 : PReg) = 63 := h₁
  cases h₂

end Rename

end NanoCpu
