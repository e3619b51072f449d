/-
**The rename stage** (`rtl/core/rn.v`, `rn_fl.v`, `rn_rat.v`, `rn_busytable.v`).

Rename gives a free physical register to every instruction that writes one, translates the source
registers, and remembers the physical register that the destination had before.  Beside the
speculative free list (FL) and map (RAT) it keeps their architectural copies (aFL, aRAT), which only
commit changes and which a flush copies back.  The busy table says which physical registers still
wait for their value.

The stage has two lanes: the selection of the free registers in `rn_fl.v` is written for an issue
width of two.

Main definitions:

* `RInsn` — a renamed instruction as it is held in the issue registers;
* `Rename`, `RenameIn`, `Rename.next` — the stage.

Main results:

* `Rename.flPrd_mem`, `Rename.flPrd_ne` — a register that is handed out is free, and the two lanes
  get different ones;
* `Rename.next_rat`, `Rename.next_fl`, `Rename.next_arat`, `Rename.next_afl`, `Rename.next_busy` —
  what one cycle does to each table, lane by lane.
-/

import NanoCpu.Insn
import NanoCpu.RenameTheory

set_option relaxedAutoImplicit false
set_option autoImplicit false

namespace NanoCpu

/-- A renamed instruction. -/
structure RInsn where
  d : DecInsn
  prs1 : PReg
  prs2 : PReg
  prd : PReg
  pfree : PReg
  deriving DecidableEq

/-- The state of the stage.  `fl` and `afl` have no bit for register zero; it is kept low here. -/
structure Rename where
  fl : PReg → Bool
  afl : PReg → Bool
  rat : LReg → PReg
  arat : LReg → PReg
  busytable : PReg → Bool
  issueValid : ℕ → Bool
  issuePushSize : ℕ
  issue : ℕ → RInsn

/-- The inputs of one cycle. -/
structure RenameIn where
  flush : Bool
  valid : ℕ → Bool
  pushSize : ℕ
  insn : ℕ → DecInsn
  issueReady : Bool
  cmtFire : ℕ → Bool
  cmtLrd : ℕ → LReg
  cmtPfree : ℕ → PReg
  cmtPrd : ℕ → PReg
  cmtPrdWe : ℕ → Bool
  prfWe : ℕ → Bool
  prfWaddr : ℕ → PReg

namespace Rename

/-- After reset all registers but zero are free and every logical register is mapped to zero. -/
def reset (insn : RInsn) : Rename where
  fl := fun p => p != 0
  afl := fun p => p != 0
  rat := fun _ => 0
  arat := fun _ => 0
  busytable := fun _ => false
  issueValid := fun _ => false
  issuePushSize := 0
  issue := fun _ => insn

variable (s : Rename) (x : RenameIn)

/-! ### The free list -/

/-- The free register offered to a lane: the lowest to lane 0, the highest to lane 1. -/
def flPrd (i : ℕ) : PReg := if i = 0 then (priorityEncoderGs s.fl).1 else
    (priorityEncoderRevGs s.fl).1

/-- Whether the offer is good. -/
def gs (i : ℕ) : Bool :=
  if i = 0 then (priorityEncoderGs s.fl).2
  else (priorityEncoderRevGs s.fl).2 && s.flPrd 1 != s.flPrd 0

def flStallReq : Bool := (List.range 2).any fun j => (x.insn j).lrdWe && !s.gs j

/-- `rn_stall_req`. -/
def stallReq : Bool := s.flStallReq x || !x.issueReady

/-- The clock enable of the stage. -/
def pCe : Bool := !s.stallReq x

/-- `fl_pop`, which is also `rat_we`. -/
def flPop (i : ℕ) : Bool := x.valid i && s.pCe x

def flNext (p : PReg) : Bool :=
  p != 0 &&
    rfWrite (fun j => x.cmtPrdWe j && x.cmtFire j) x.cmtPfree (fun _ => true) 2
      (rfWrite (fun j => s.flPop x j && (x.insn j).lrdWe) s.flPrd (fun _ => false) 2 s.fl) p

/-- Each commit lane takes its register out of the list and then puts the displaced one back. -/
def aflNext (p : PReg) : Bool :=
  p != 0 &&
    rfWrite (fun k => x.cmtPrdWe (k / 2) && x.cmtFire (k / 2))
      (fun k => if k % 2 = 0 then x.cmtPrd (k / 2) else x.cmtPfree (k / 2))
      (fun k => k % 2 == 1) 4 s.afl p

/-! ### The map -/

/-- The bypass inside a bundle: the register that the last hitting lane below `i` gets. -/
def bypass (hit : ℕ → Bool) (nobyp : PReg) : ℕ → PReg
  | 0 => nobyp
  | i + 1 => if hit i then s.flPrd i else bypass hit nobyp i

def ratPrs1 (i : ℕ) : PReg :=
  s.bypass (fun j => (x.insn j).lrdWe && (x.insn i).lrs1 == (x.insn j).lrd)
    (s.rat (x.insn i).lrs1) i

def ratPrs2 (i : ℕ) : PReg :=
  s.bypass (fun j => (x.insn j).lrdWe && (x.insn i).lrs2 == (x.insn j).lrd)
    (s.rat (x.insn i).lrs2) i

def ratPfree (i : ℕ) : PReg :=
  s.bypass (fun j => (x.insn j).lrdWe && ((x.insn i).lrdWe && (x.insn i).lrd == (x.insn j).lrd))
    (s.rat (x.insn i).lrd) i

/-- What the issue register of lane `i` is loaded with. -/
def renamed (i : ℕ) : RInsn :=
  ⟨x.insn i, s.ratPrs1 x i, s.ratPrs2 x i, s.flPrd i, s.ratPfree x i⟩

/-! ### The next state -/

def next : Rename where
  fl := fun p => if x.flush then s.afl p else s.flNext x p
  afl := fun p => s.aflNext x p
  rat := if x.flush then s.arat
    else rfWrite (fun j => (x.insn j).lrdWe && s.flPop x j) (fun j => (x.insn j).lrd)
      s.flPrd 2 s.rat
  arat := rfWrite (fun j => x.cmtPrdWe j && x.cmtFire j) x.cmtLrd x.cmtPrd 2 s.arat
  busytable := if x.flush then fun _ => false
    else rfWrite (fun k => if k < 2 then x.prfWe k else (x.insn (k - 2)).lrdWe)
      (fun k => if k < 2 then x.prfWaddr k else s.flPrd (k - 2)) (fun k => decide (2 ≤ k)) 4
      s.busytable
  issueValid := ldff (s.pCe x || x.flush) (fun i => x.valid i && !x.flush) s.issueValid
  issuePushSize := ldff (s.pCe x || x.flush) (if x.flush then 0 else x.pushSize) s.issuePushSize
  issue := ldff (s.pCe x) (s.renamed x) s.issue

/-! ### What a cycle does to the tables -/

end Rename

/-- A renamed instruction as a renaming. -/
def RInsn.ren (r : RInsn) : Renaming LReg PReg := ⟨r.d.lrdWe, r.d.lrd, r.prd, r.pfree⟩

/-- The lanes below `m` are valid. -/
def RenameIn.ValidPrefix (x : RenameIn) (m : ℕ) : Prop := m ≤ 2 ∧ ∀ i, x.valid i = decide (i < m)

/-- The commit lanes below `c` fire. -/
def RenameIn.FirePrefix (x : RenameIn) (c : ℕ) : Prop :=
  c ≤ 2 ∧ ∀ i < 2, x.cmtFire i = decide (i < c)

/-- Commit lane `i` as a renaming. -/
def RenameIn.cmtRen (x : RenameIn) (i : ℕ) : Renaming LReg PReg :=
  ⟨x.cmtPrdWe i, x.cmtLrd i, x.cmtPrd i, x.cmtPfree i⟩

/-- Ports of which the first `m` are enabled write one renaming after the other. -/
theorem rfWrite_eq_mapFrom {L P : Type*} [DecidableEq L] (ins : ℕ → Renaming L P)
    {we : ℕ → Bool} {m n : ℕ} (hle : m ≤ n) (hwe : ∀ i < n, we i = decide (i < m)) (rat : L → P) :
    rfWrite (fun j => (ins j).we && we j) (fun j => (ins j).lrd) (fun j => (ins j).prd) n rat =
      Renaming.mapFrom ins rat 0 m := by
  have hk : ∀ k ≤ m, rfWrite (fun j => (ins j).we && we j) (fun j => (ins j).lrd)
      (fun j => (ins j).prd) k rat = Renaming.mapFrom ins rat 0 k := by
    intro k hk
    induction k with
    | zero => rfl
    | succ k ih =>
        have hwk : we k = true := by rw [hwe k (by omega), decide_eq_true (show k < m by omega)]
        rw [rfWrite, Renaming.mapFrom, ih (by omega), Nat.zero_add, hwk, Bool.and_true]
        rfl
  rw [rfWrite_of_le hle, hk m le_rfl]
  intro j hj hj'
  simp [hwe j hj', Nat.not_lt.2 hj]

namespace Rename

variable {s : Rename} {x : RenameIn}

/-- A register that is handed out is free. -/
theorem flPrd_mem {i : ℕ} (h : s.gs i = true) : s.fl (s.flPrd i) = true := by
  by_cases hi : i = 0
  · simp only [gs, flPrd, hi, if_true] at h ⊢
    exact priorityEncoderGs_mem h
  · simp only [gs, hi, if_false, Bool.and_eq_true] at h
    simp only [flPrd, hi, if_false]
    exact priorityEncoderRevGs_mem h.1

/-- Even when nothing can be handed out, a taken register is never offered. -/
theorem flPrd_mem_or_zero (i : ℕ) : s.fl (s.flPrd i) = true ∨ s.flPrd i = 0 := by
  by_cases hi : i = 0
  · simp only [flPrd, hi, if_true]
    exact priorityEncoderGs_mem_or_zero s.fl
  · simp only [flPrd, hi, if_false]
    exact priorityEncoderRevGs_mem_or_zero s.fl

/-- The two lanes are offered different registers. -/
theorem flPrd_ne (h : s.gs 1 = true) : s.flPrd 1 ≠ s.flPrd 0 := by
  simp only [gs, one_ne_zero, if_false, Bool.and_eq_true, bne_iff_ne] at h
  exact h.2

theorem gs_of_flStallReq (h : s.flStallReq x = false) {i : ℕ} (hi : i < 2)
    (hw : (x.insn i).lrdWe = true) : s.gs i = true := by
  have := List.any_eq_false.1 h i (List.mem_range.2 hi)
  simpa [hw] using this

theorem gs_of_pCe (hp : s.pCe x = true) {i : ℕ} (hi : i < 2) (hw : (x.insn i).lrdWe = true) :
    s.gs i = true := by
  simp only [pCe, stallReq, Bool.not_eq_true', Bool.or_eq_false_iff] at hp
  exact gs_of_flStallReq hp.1 hi hw

theorem issueReady_of_pCe (hp : s.pCe x = true) : x.issueReady = true := by
  simp only [pCe, stallReq, Bool.not_eq_true', Bool.or_eq_false_iff] at hp
  simpa using hp.2

/-- The bypass network reads the map that the lanes below have already written. -/
theorem bypass_eq (l : LReg) (i : ℕ) :
    s.bypass (fun j => (x.insn j).lrdWe && l == (x.insn j).lrd) (s.rat l) i =
      Renaming.mapFrom (fun k => (s.renamed x k).ren) s.rat 0 i l := by
  induction i with
  | zero => rfl
  | succ i ih =>
      rw [bypass, Renaming.mapFrom, Nat.zero_add, Renaming.map, ih]
      by_cases hw : (x.insn i).lrdWe = true
      · by_cases hl : l = (x.insn i).lrd
        · simp [RInsn.ren, renamed, hw, hl]
        · simp [RInsn.ren, renamed, hw, hl]
      · simp [RInsn.ren, renamed, hw]

/-- How many instructions the stage takes when `m` are offered. -/
def accepted (s : Rename) (x : RenameIn) (m : ℕ) : ℕ := if s.pCe x then m else 0

theorem accepted_le {m : ℕ} (hv : x.ValidPrefix m) : s.accepted x m ≤ 2 := by
  have := hv.1
  unfold accepted
  split_ifs <;> omega

theorem flPop_eq {m : ℕ} (hv : x.ValidPrefix m) (i : ℕ) :
    s.flPop x i = decide (i < s.accepted x m) := by
  rw [flPop, hv.2 i, accepted]
  cases s.pCe x <;> simp

/-- The map after a cycle: the accepted instructions one after the other. -/
theorem next_rat {m : ℕ} (hv : x.ValidPrefix m) (hf : x.flush = false) :
    (s.next x).rat =
      Renaming.mapFrom (fun k => (s.renamed x k).ren) s.rat 0 (s.accepted x m) := by
  simp only [next, hf, Bool.false_eq_true, if_false]
  exact rfWrite_eq_mapFrom (fun k => (s.renamed x k).ren) (accepted_le hv)
    (fun i _ => flPop_eq hv i) s.rat

/-- The free list after a cycle: the accepted instructions take registers out, then the committed
ones put theirs back. -/
theorem next_fl {m c : ℕ} (hv : x.ValidPrefix m) (hc : x.FirePrefix c) (hf : x.flush = false)
    (p : PReg) : (s.next x).fl p = true ↔ p ≠ 0 ∧
      ((∃ j < c, x.cmtPrdWe j = true ∧ x.cmtPfree j = p) ∨
        (s.fl p = true ∧ ∀ j < s.accepted x m, (x.insn j).lrdWe = true → s.flPrd j ≠ p)) := by
  have hle := accepted_le (s := s) hv
  have hcom : (∃ j < 2, (x.cmtPrdWe j && x.cmtFire j) = true ∧ x.cmtPfree j = p) ↔
      ∃ j < c, x.cmtPrdWe j = true ∧ x.cmtPfree j = p := by
    have hc' := hc.1
    constructor
    · rintro ⟨j, hj, hw, hp⟩
      rw [hc.2 j hj, Bool.and_eq_true, decide_eq_true_eq] at hw
      exact ⟨j, hw.2, hw.1, hp⟩
    · rintro ⟨j, hj, hw, hp⟩
      exact ⟨j, by omega, by simp [hw, hc.2 j (by omega), hj], hp⟩
  have hall : (∃ j < 2, (s.flPop x j && (x.insn j).lrdWe) = true ∧ s.flPrd j = p) ↔
      ∃ j < s.accepted x m, (x.insn j).lrdWe = true ∧ s.flPrd j = p := by
    constructor
    · rintro ⟨j, -, hw, hp⟩
      rw [flPop_eq hv, Bool.and_eq_true, decide_eq_true_eq] at hw
      exact ⟨j, hw.1, hw.2, hp⟩
    · rintro ⟨j, hj, hw, hp⟩
      exact ⟨j, by omega, by simp [hw, flPop_eq hv, hj], hp⟩
  classical
  simp only [next, hf, Bool.false_eq_true, if_false, flNext, rfWrite_const]
  rw [Bool.and_eq_true, bne_iff_ne]
  simp only [hcom, hall]
  refine and_congr_right fun _ => ?_
  by_cases h₁ : ∃ j < c, x.cmtPrdWe j = true ∧ x.cmtPfree j = p
  · simp [h₁]
  · rw [if_neg h₁]
    by_cases h₂ : ∃ j < s.accepted x m, (x.insn j).lrdWe = true ∧ s.flPrd j = p
    · rw [if_pos h₂]
      obtain ⟨j, hj, hw, hp⟩ := h₂
      simp only [Bool.false_eq_true, false_iff, not_or]
      exact ⟨h₁, fun h => h.2 j hj hw hp⟩
    · rw [if_neg h₂]
      push Not at h₂
      simp only [h₁, false_or]
      exact ⟨fun h => ⟨h, h₂⟩, fun h => h.1⟩

/-- The architectural map after a cycle: the committed instructions one after the other. -/
theorem next_arat {c : ℕ} (hc : x.FirePrefix c) :
    (s.next x).arat = Renaming.mapFrom x.cmtRen s.arat 0 c :=
  rfWrite_eq_mapFrom x.cmtRen hc.1 hc.2 s.arat

/-- The architectural free list after a cycle. -/
theorem next_afl {c : ℕ} (hc : x.FirePrefix c) (h0 : s.afl 0 = false) (p : PReg) :
    (s.next x).afl p = true ↔
      Renaming.freeFrom 0 x.cmtRen (fun p => s.afl p = true) 0 c p := by
  simp only [next, aflNext, Bool.and_eq_true, bne_iff_ne]
  have hc' := hc.1
  rw [rfWrite_of_le (show 2 * c ≤ 4 by omega)]
  · have hn : ∀ k ≤ c, p ≠ 0 ∧ rfWrite (fun k => x.cmtPrdWe (k / 2) && x.cmtFire (k / 2))
        (fun k => if k % 2 = 0 then x.cmtPrd (k / 2) else x.cmtPfree (k / 2))
        (fun k => k % 2 == 1) (2 * k) s.afl p = true ↔
        Renaming.freeFrom 0 x.cmtRen (fun p => s.afl p = true) 0 k p := by
      intro k hk
      induction k with
      | zero =>
          refine ⟨fun h => h.2, fun h => ⟨?_, h⟩⟩
          rintro rfl
          rw [Renaming.freeFrom, h0] at h
          cases h
      | succ k ih =>
          have hk' : x.cmtFire k = true := by simp [hc.2 k (by omega), show k < c by omega]
          have e₁ : 2 * k / 2 = k := by omega
          have e₂ : (2 * k + 1) / 2 = k := by omega
          have e₃ : 2 * k % 2 = 0 := by omega
          have e₄ : (2 * k + 1) % 2 = 1 := by omega
          rw [Renaming.freeFrom, Renaming.freeAfter, Nat.zero_add, ← ih (by omega),
            show 2 * (k + 1) = 2 * k + 1 + 1 by omega, rfWrite, rfWrite]
          simp only [e₁, e₂, e₃, e₄, hk', Bool.and_true, RenameIn.cmtRen]
          by_cases hw : x.cmtPrdWe k = true
          · simp only [hw, if_true, one_ne_zero, if_false]
            by_cases hpf : p = x.cmtPfree k
            · subst hpf
              simp only [Function.update_self, beq_self_eq_true, and_true, true_and]
              exact ⟨Or.inr, fun h => h.elim (fun h' => h'.1.1) id⟩
            · rw [Function.update_of_ne hpf]
              by_cases hpd : p = x.cmtPrd k
              · subst hpd
                simp [hpf]
              · rw [Function.update_of_ne hpd]
                simp [hpf, hpd]
          · simp only [hw, Bool.false_eq_true, if_false]
    exact hn c le_rfl
  · intro j hj hj'
    simp [hc.2 (j / 2) (by omega), show ¬ j / 2 < c by omega]

/-- The busy table after a cycle: write-backs clear, the offers to writing lanes set. -/
theorem next_busytable (hf : x.flush = false) (p : PReg) :
    (s.next x).busytable p = true ↔
      (∃ j < 2, (x.insn j).lrdWe = true ∧ s.flPrd j = p) ∨
        (s.busytable p = true ∧ ∀ j < 2, x.prfWe j = true → x.prfWaddr j ≠ p) := by
  classical
  simp only [next, hf, Bool.false_eq_true, if_false]
  rw [rfWrite_add 2 2, rfWrite_congr (e := fun j => (x.insn j).lrdWe) (a := s.flPrd)
    (d := fun _ => true), rfWrite_const, rfWrite_congr (e := x.prfWe) (a := x.prfWaddr)
    (d := fun _ => false), rfWrite_const]
  · by_cases h₁ : ∃ j < 2, (x.insn j).lrdWe = true ∧ s.flPrd j = p
    · simp only [h₁, if_true, true_or]
    · rw [if_neg h₁]
      by_cases h₂ : ∃ j < 2, x.prfWe j = true ∧ x.prfWaddr j = p
      · rw [if_pos h₂]
        obtain ⟨j, hj, hw, hp⟩ := h₂
        simp only [Bool.false_eq_true, false_iff, not_or]
        exact ⟨h₁, fun h => h.2 j hj hw hp⟩
      · rw [if_neg h₂]
        push Not at h₂
        simp only [h₁, false_or]
        exact ⟨fun h => ⟨h, h₂⟩, fun h => h.1⟩
  · intro j hj
    simp [hj, Nat.not_le.2 hj]
  · intro j _
    simp [show ¬ 2 + j < 2 by omega]

end Rename

end NanoCpu
