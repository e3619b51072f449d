/-
**The two levels agree** (`rtl/core/id_dec.v`, `ex_pipe.v`, `ex_alu.v`, `ex_bru.v` against
`em/csrc/cpu.cc`).

The decoder cuts immediates out of the word and extends them, the emulator masks, shifts and flips
their sign bit; the arithmetic unit shifts through one right shifter and compares through the flags
of one subtraction, the emulator has the operators of C++.  Both do the same to the registers and go
on at the same address, for arithmetic and illegal instructions and for control transfers, with one
exception: a jump that links into its own base register, which the emulator overwrites before it
reads it.

Main results:

* `alu_agrees` — arithmetic and illegal instructions;
* `transfer_agrees_iff` — control transfers.
-/

import NanoCpu.Em
import NanoCpu.Epu
import NanoCpu.Sequential

set_option relaxedAutoImplicit false
set_option autoImplicit false

namespace NanoCpu

namespace Em

/-! ### The fields of a word -/

/-- The bits of a field. -/
theorem getBits_eq {mask : Word} {a b : ℕ}
    (hm : ∀ i < 32, mask.getLsbD i = decide (a ≤ i ∧ i < a + b))
    (insn : Word) : getBits mask a insn = (insn.extractLsb' a b).zeroExtend 32 := by
  refine BitVec.eq_of_getLsbD_eq fun i hi => ?_
  rw [getBits, BitVec.getLsbD_ushiftRight, BitVec.getLsbD_and, BitVec.getLsbD_setWidth,
    BitVec.getLsbD_extractLsb', decide_eq_true hi, Bool.true_and]
  by_cases h : a + i < 32
  · rw [hm _ h, Bool.and_comm]
    congr 1
    rw [decide_eq_decide]
    omega
  · rw [BitVec.getLsbD_of_ge insn (a + i) (by omega), Bool.false_and, Bool.and_false]

/-- The sign extension by an exclusive or and a subtraction. -/
theorem signExtend_eq_xor_sub {k w : ℕ} (v : BitVec (k + 1)) (h : k + 1 ≤ w) :
    (v.setWidth w ^^^ BitVec.twoPow w k) - BitVec.twoPow w k = v.signExtend w := by
  set t := BitVec.twoPow w k with ht
  set z := v.setWidth w with hz
  have hbit : ∀ i < w, t.getLsbD i = decide (i = k) := by
    intro i hi
    rw [ht, BitVec.getLsbD_twoPow, decide_eq_true (by omega : k < w), Bool.true_and,
      decide_eq_decide, eq_comm]
  have hzk : z.getLsbD k = v.msb := by
    rw [hz, BitVec.getLsbD_setWidth, BitVec.msb_eq_getLsbD_last, decide_eq_true (by omega : k < w)]
    simp
  cases hm : v.msb with
  | false =>
      -- the sign bit is set and cleared again
      have hor : z ^^^ t = z + t := by
        rw [BitVec.add_eq_or_of_and_eq_zero]
        · refine BitVec.eq_of_getLsbD_eq fun i hi => ?_
          rw [BitVec.getLsbD_xor, BitVec.getLsbD_or, hbit i hi]
          by_cases hik : i = k
          · simp [hik, hzk, hm]
          · simp [hik]
        · refine BitVec.eq_of_getLsbD_eq fun i hi => ?_
          rw [BitVec.getLsbD_and, hbit i hi, BitVec.getLsbD_zero]
          by_cases hik : i = k
          · rw [hik, hzk, hm]
            rfl
          · simp [hik]
      rw [hor, BitVec.add_sub_cancel, BitVec.signExtend_eq_setWidth_of_msb_false hm]
  | true =>
      -- the sign bit is cleared, and borrowed from the bits above
      have hadd : z = (z ^^^ t) + t := by
        rw [BitVec.add_eq_or_of_and_eq_zero]
        · refine BitVec.eq_of_getLsbD_eq fun i hi => ?_
          rw [BitVec.getLsbD_or, BitVec.getLsbD_xor, hbit i hi]
          by_cases hik : i = k
          · rw [hik, hzk, hm]
            simp
          · simp [hik]
        · refine BitVec.eq_of_getLsbD_eq fun i hi => ?_
          rw [BitVec.getLsbD_and, BitVec.getLsbD_xor, hbit i hi, BitVec.getLsbD_zero]
          by_cases hik : i = k
          · rw [hik, hzk, hm]
            simp
          · simp [hik]
      have hsub : z ^^^ t = z - t := by
        rw [eq_comm, BitVec.sub_eq_iff_eq_add]
        exact hadd
      have htn : t.toNat = 2 ^ k := by
        rw [ht, BitVec.toNat_twoPow, Nat.mod_eq_of_lt (Nat.pow_lt_pow_right (by omega) (by omega))]
      have hv := v.isLt
      have hle : 2 ^ (k + 1) ≤ 2 ^ w := Nat.pow_le_pow_right (by omega) h
      have hzn : z.toNat = v.toNat := by
        rw [hz, BitVec.toNat_setWidth, Nat.mod_eq_of_lt (lt_of_lt_of_le hv hle)]
      have hpow : 2 ^ (k + 1) = 2 * 2 ^ k := by rw [pow_succ, mul_comm]
      have hmk : 2 ^ k ≤ v.toNat := by
        rw [BitVec.msb_eq_decide, decide_eq_true_eq] at hm
        exact hm
      refine BitVec.eq_of_toNat_eq ?_
      rw [hsub, BitVec.toNat_sub, BitVec.toNat_sub, BitVec.toNat_signExtend, hm, ← hz, hzn, htn]
      simp only [if_true]
      rw [Nat.mod_eq_sub_mod (a := 2 ^ w - 2 ^ k + v.toNat) (by omega),
        Nat.mod_eq_of_lt (a := 2 ^ w - 2 ^ k + v.toNat - 2 ^ w) (by omega),
          Nat.mod_eq_of_lt (by omega)]
      omega

section Fields

variable (w : Word)

theorem opcode_eq : opcode w = (w.extractLsb' 5 7).toNat := by
  rw [opcode, getBits_eq (b := 7) (by decide), BitVec.toNat_setWidth]
  exact Nat.mod_eq_of_lt (lt_of_lt_of_le (BitVec.isLt _) (by decide))

theorem regNo_eq (v : BitVec 5) : regNo (v.zeroExtend 32) = v.toFin := by
  refine Fin.ext ?_
  have hv := v.isLt
  rw [regNo, Fin.val_ofNat, BitVec.toNat_setWidth]
  change v.toNat % 2 ^ 32 % 32 = v.toNat
  omega

theorem rd_eq : rd w = (w.extractLsb' 0 5).toFin := by
  rw [rd, getBits_eq (b := 5) (by decide), regNo_eq]

theorem rs1_eq : rs1 w = (w.extractLsb' 12 5).toFin := by
  rw [rs1, getBits_eq (b := 5) (by decide), regNo_eq]

theorem rs2_eq : rs2 w = (w.extractLsb' 17 5).toFin := by
  rw [rs2, getBits_eq (b := 5) (by decide), regNo_eq]

theorem uimm17_eq : uimm17 w = (w.extractLsb' 15 17).zeroExtend 32 :=
  getBits_eq (by decide) w

theorem uimm15_eq : uimm15 w = (w.extractLsb' 17 15).zeroExtend 16 := by
  rw [uimm15, getBits_eq (b := 15) (by decide)]
  exact BitVec.setWidth_setWidth_of_le _ (by decide)

theorem uimm15_setWidth : (uimm15 w).setWidth 32 = (w.extractLsb' 17 15).zeroExtend 32 := by
  rw [uimm15_eq]
  refine BitVec.eq_of_toNat_eq ?_
  have := (w.extractLsb' 17 15).isLt
  simp only [BitVec.toNat_setWidth]
  omega

theorem simm15_eq : simm15 w = (w.extractLsb' 17 15).signExtend 16 := by
  rw [simm15, uimm15_eq]
  exact signExtend_eq_xor_sub (k := 14) _ (by decide)

theorem simm15_signExtend : (simm15 w).signExtend 32 = (w.extractLsb' 17 15).signExtend 32 := by
  refine BitVec.eq_of_toInt_eq ?_
  rw [simm15_eq, BitVec.toInt_signExtend_of_le (by decide),
    BitVec.toInt_signExtend_of_le (by decide), BitVec.toInt_signExtend_of_le (by decide)]

theorem rel15SigExt_eq :
    rel15SigExt (uimm15 w) = (w.extractLsb' 17 15 ++ (0 : BitVec 2)).signExtend 32 := by
  have h : (uimm15 w).setWidth 32 <<< 2 = (w.extractLsb' 17 15 ++ (0 : BitVec 2)).setWidth 32 := by
    rw [uimm15_setWidth]
    refine BitVec.eq_of_toNat_eq ?_
    have := (w.extractLsb' 17 15).isLt
    rw [BitVec.toNat_shiftLeft, BitVec.toNat_setWidth, BitVec.toNat_setWidth, BitVec.toNat_append,
      Nat.shiftLeft_eq, Nat.shiftLeft_eq]
    simp
  rw [rel15SigExt, h]
  exact signExtend_eq_xor_sub (k := 16) _ (by decide)

theorem parseRel25_eq :
    parseRel25 w = (w.extractLsb' 12 20 ++ w.extractLsb' 0 5).zeroExtend 32 := by
  have h₁ : ∀ i < 32, (0x1f : Word).getLsbD i = decide (i < 5) := by decide
  have h₂ : ∀ i < 32, (0xfffff : Word).getLsbD i = decide (i < 20) := by decide
  refine BitVec.eq_of_getLsbD_eq fun i hi => ?_
  rw [parseRel25, BitVec.getLsbD_or, BitVec.getLsbD_and, h₁ i hi, BitVec.getLsbD_shiftLeft,
    BitVec.getLsbD_and, h₂ (i - 5) (by omega), BitVec.getLsbD_ushiftRight, BitVec.getLsbD_setWidth,
    BitVec.getLsbD_append, BitVec.getLsbD_extractLsb', BitVec.getLsbD_extractLsb']
  by_cases h5 : i < 5
  · simp [h5, hi]
  · by_cases h25 : i - 5 < 20
    · simp [h5, hi, h25]
    · simp [h5, h25]

theorem rel25SigExt_eq : rel25SigExt (parseRel25 w) =
    ((w.extractLsb' 12 20 ++ w.extractLsb' 0 5) ++ (0 : BitVec 2)).signExtend 32 := by
  have h : parseRel25 w <<< 2 =
      ((w.extractLsb' 12 20 ++ w.extractLsb' 0 5) ++ (0 : BitVec 2)).setWidth 32 := by
    rw [parseRel25_eq]
    generalize w.extractLsb' 12 20 ++ w.extractLsb' 0 5 = v
    refine BitVec.eq_of_toNat_eq ?_
    have := v.isLt
    rw [BitVec.toNat_shiftLeft, BitVec.toNat_setWidth, BitVec.toNat_setWidth, BitVec.toNat_append,
      Nat.shiftLeft_eq, Nat.shiftLeft_eq]
    simp
  rw [rel25SigExt, h]
  exact signExtend_eq_xor_sub (k := 26) _ (by decide)

end Fields

/-- The word decodes to the opcode that the switch selects. -/
theorem opcode_of_some {w : Word} {o : Op} (h : Op.ofCode (opcode w) = some o) :
    w.extractLsb' 5 7 = BitVec.ofNat 7 o.code := by
  have hc : o.code = opcode w := by simpa using List.find?_some h
  rw [hc, opcode_eq, BitVec.ofNat_toNat, BitVec.setWidth_eq]

/-- An opcode without a case is none that the decoder knows. -/
theorem opcDec_of_none : ∀ op : BitVec 7, Op.ofCode op.toNat = none →
    (opcDec op).alu.any = false ∧ (opcDec op).bru.any = false ∧ (opcDec op).lsu.load = false ∧
      (opcDec op).lsu.store = false ∧ (opcDec op).lsu.barr = false ∧ (opcDec op).epu.any = false ∧
      (opcDec op).esyscall = false ∧ (opcDec op).eret = false := by
  decide +kernel

end Em

/-! ### The adder -/

theorem maddCO_add (a b : Word) : (maddCO a b false).sum = a + b := by
  refine BitVec.eq_of_toNat_eq ?_
  have ha := a.isLt
  have hb := b.isLt
  simp only [maddCO, Bool.false_eq_true, if_false, BitVec.toNat_setWidth, BitVec.toNat_add,
    BitVec.ofBool_false]
  simp

/-- The sum of a subtraction, before it is cut off. -/
theorem maddCO_wide (a b : Word) :
    (a.zeroExtend 33 + (~~~b).zeroExtend 33 + (BitVec.ofBool true).zeroExtend 33).toNat =
      a.toNat + 2 ^ 32 - b.toNat := by
  have ha := a.isLt
  have hb := b.isLt
  simp only [BitVec.toNat_add, BitVec.toNat_setWidth, BitVec.toNat_not, BitVec.ofBool_true]
  simp
  omega

theorem maddCO_sub (a b : Word) : (maddCO a b true).sum = a - b := by
  refine BitVec.eq_of_toNat_eq ?_
  have ha := a.isLt
  have hb := b.isLt
  simp only [maddCO, if_true, BitVec.toNat_setWidth, maddCO_wide, BitVec.toNat_sub]
  omega

/-- There is no carry out of a subtraction that borrows. -/
theorem maddCO_carry (a b : Word) : (maddCO a b true).carry = decide (b.toNat ≤ a.toNat) := by
  have ha := a.isLt
  have hb := b.isLt
  change BitVec.msb (a.zeroExtend 33 + (~~~b).zeroExtend 33 + (BitVec.ofBool true).zeroExtend 33) =
    _
  rw [BitVec.msb_eq_decide, maddCO_wide, decide_eq_decide]
  omega

/-- The sign of a subtraction, corrected by the overflow, compares signed numbers. -/
theorem maddCO_lt (a b : Word) :
    ((maddCO a b true).sum.msb != (maddCO a b true).overflow) = decide (a.toInt < b.toInt) := by
  have ha := a.isLt
  have hb := b.isLt
  have hov : (maddCO a b true).overflow =
    (a.msb == (~~~b).msb && a.msb != (maddCO a b true).sum.msb) :=
    rfl
  have hs : (a - b).toNat = (2 ^ 32 - b.toNat + a.toNat) % 2 ^ 32 := BitVec.toNat_sub ..
  rw [hov, maddCO_sub, BitVec.msb_not, BitVec.toInt_eq_toNat_cond, BitVec.toInt_eq_toNat_cond]
  simp only [BitVec.msb_eq_decide, hs, Nat.add_one_sub_one]
  by_cases h₁ : 2 ^ 31 ≤ a.toNat <;> by_cases h₂ : 2 ^ 31 ≤ b.toNat <;>
    by_cases h₃ : 2 ^ 31 ≤ (2 ^ 32 - b.toNat + a.toNat) % 2 ^ 32 <;>
    simp only [h₁, h₂, h₃, decide_true, decide_false] <;> simp <;> omega

/-! ### The shifter -/

theorem shiftCount_eq {b : Word} (h : b.toNat < 32) : (b.extractLsb' 0 5).toNat = b.toNat := by
  rw [BitVec.extractLsb'_toNat, Nat.shiftRight_zero]
  omega

theorem setWidth_append_shiftRight (m a : Word) {k i : ℕ} (hi : i < 32) :
    (((m ++ a) >>> k).setWidth 32).getLsbD i =
      if k + i < 32 then a.getLsbD (k + i) else m.getLsbD (k + i - 32) := by
  rw [BitVec.getLsbD_setWidth, BitVec.getLsbD_ushiftRight, BitVec.getLsbD_append, decide_eq_true hi,
    Bool.true_and]

/-- The shifter of the unit for one of the three shifts, with the count `b`. -/
theorem exAlu_lsr {o : AluOpc}
    (ho : o = ⟨false, false, false, false, false, false, false, true, false⟩)
    (a b s : Word) (h : b.toNat < 32) : exAlu o a b s = a >>> b.toNat := by
  subst ho
  have : exAlu ⟨false, false, false, false, false, false, false, true, false⟩ a b s =
      (((0 : Word) ++ a) >>> (b.extractLsb' 0 5).toNat).setWidth 32 := by simp [exAlu]
  rw [this, shiftCount_eq h]
  refine BitVec.eq_of_getLsbD_eq fun i hi => ?_
  rw [setWidth_append_shiftRight _ _ hi, BitVec.getLsbD_ushiftRight]
  split_ifs with hik
  · rfl
  · rw [BitVec.getLsbD_of_ge a _ (by omega)]
    simp

theorem exAlu_asr {o : AluOpc}
    (ho : o = ⟨false, false, false, false, false, false, false, false, true⟩)
    (a b s : Word) (h : b.toNat < 32) : exAlu o a b s = a.sshiftRight b.toNat := by
  subst ho
  have : exAlu ⟨false, false, false, false, false, false, false, false, true⟩ a b s =
      ((BitVec.signExtend 32 (BitVec.ofBool a.msb) ++ a) >>> (b.extractLsb' 0 5).toNat).setWidth
        32 := by
    simp [exAlu]
  rw [this, shiftCount_eq h]
  refine BitVec.eq_of_getLsbD_eq fun i hi => ?_
  rw [setWidth_append_shiftRight _ _ hi, BitVec.getLsbD_sshiftRight]
  split_ifs with hik
  · simp [hi]
  · have hlt : b.toNat + i - 32 < 32 := by omega
    rw [BitVec.getLsbD_signExtend, decide_eq_true hlt, decide_eq_false (by omega : ¬ 32 ≤ i)]
    simp
    exact fun h₀ _ => h₀

theorem exAlu_lsl {o : AluOpc}
    (ho : o = ⟨false, false, false, false, false, false, true, false, false⟩)
    (a b s : Word) (h : b.toNat < 32) : exAlu o a b s = a <<< b.toNat := by
  subst ho
  have : exAlu ⟨false, false, false, false, false, false, true, false, false⟩ a b s =
      ((((0 : Word) ++ a.reverse) >>> (b.extractLsb' 0 5).toNat).setWidth 32).reverse := by
        simp [exAlu]
  rw [this, shiftCount_eq h]
  refine BitVec.eq_of_getLsbD_eq fun i hi => ?_
  rw [BitVec.getLsbD_reverse, BitVec.getMsbD_eq_getLsbD, setWidth_append_shiftRight _ _ (by omega),
    BitVec.getLsbD_shiftLeft, decide_eq_true hi, Bool.true_and, Bool.true_and]
  by_cases hib : i < b.toNat
  · rw [if_neg (by omega)]
    simp [hib]
  · rw [if_pos (by omega), BitVec.getLsbD_reverse, BitVec.getMsbD_eq_getLsbD]
    have hlt : b.toNat + (31 - i) < 32 := by omega
    have hix : 31 - (b.toNat + (31 - i)) = i - b.toNat := by omega
    simp [hib, hlt, hix]

/-! ### Pieces of words -/

theorem getLsbD_append_append {k m n : ℕ} (a : BitVec k) (b : BitVec m) (c : BitVec n) (i : ℕ) :
    ((a ++ b) ++ c).getLsbD i =
      if i < m + n then (b ++ c).getLsbD i else a.getLsbD (i - (m + n)) := by
  simp only [BitVec.getLsbD_append]
  by_cases h₁ : i < n
  · simp [h₁, show i < m + n by omega]
  · by_cases h₂ : i - n < m
    · simp [h₁, h₂, show i < m + n by omega]
    · simp [h₁, h₂, show ¬ i < m + n by omega, show i - n - m = i - (m + n) by omega]

theorem datMove_eq (v : BitVec 17) :
    (v.setWidth 32).extractLsb' 0 17 ++ 0#15 = v.setWidth 32 <<< 15 := by
  refine BitVec.eq_of_getLsbD_eq fun i hi => ?_
  rw [BitVec.getLsbD_append, BitVec.getLsbD_shiftLeft, BitVec.getLsbD_extractLsb', Nat.zero_add,
    BitVec.getLsbD_setWidth]
  by_cases h : i < 15
  · simp [h]
  · simp [h, hi, show i - 15 < 17 by omega]

/-! ### Arithmetic -/

/-- What an instruction without a branch, a memory or MSR access, and an exception sends to
write-back. -/
theorem exec_of_alu {d : DecInsn} (hb : d.bru.any = false) (hl : d.lsu.any = false)
    (he : d.epu.any = false) (hf : d.fe.any = false) (regs : LReg → Word) :
    (d.exec regs).exc = false ∧ (d.exec regs).seTgt = d.pc + 1 ∧
      (d.exec regs).rfDout = exAlu d.alu (d.operand1 regs) (d.operand2 regs)
        (maddCO (d.operand1 regs) (d.operand2 regs) d.alu.sub).sum := by
  rcases hbus : d.bru with ⟨beq, bne, bgt, bgtu, ble, bleu, jmpreg, jmprel⟩
  rw [hbus] at hb
  simp only [BruOpc.any, BruOpc.isBcc, Bool.or_eq_false_iff] at hb
  obtain ⟨⟨⟨⟨⟨⟨⟨rfl, rfl⟩, rfl⟩, rfl⟩, rfl⟩, rfl⟩, rfl⟩, rfl⟩ := hb
  refine ⟨?_, ?_, ?_⟩ <;>
    simp [DecInsn.exec, Opp.exPipe, DecInsn.opp, Opp.bruOut, exBru, Opp.addOut, hbus, hl, he, hf]

/-- The operands and the destination of an arithmetic instruction. -/
structure AluInsn (d : DecInsn) (w : Word) (o : AluOpc) (imm : Option Word) : Prop where
  alu : d.alu = o
  bru : d.bru.any = false
  lsu : d.lsu.any = false
  epu : d.epu.any = false
  fe : d.fe = ⟨false, false, false, false, false, false⟩
  rs1 : o.mhi = false → d.lrs1Re = true ∧ d.lrs1 = (w.extractLsb' 12 5).toFin
  rs2 : imm = none → d.lrs2Re = true ∧ d.lrs2 = (w.extractLsb' 17 5).toFin
  imm : ∀ v, imm = some v → d.lrs2Re = false ∧ d.imm = v
  rd : d.lrd = (w.extractLsb' 0 5).toFin ∧ d.lrdWe = (d.lrd != 0)

namespace Em

/-- The bus of an arithmetic instruction. -/
def Op.aluBus : Op → AluOpc
  | .and | .andI => ⟨false, false, false, true, false, false, false, false, false⟩
  | .or | .orI => ⟨false, false, false, false, true, false, false, false, false⟩
  | .xor | .xorI => ⟨false, false, false, false, false, true, false, false, false⟩
  | .lsl | .lslI => ⟨false, false, false, false, false, false, true, false, false⟩
  | .lsr | .lsrI => ⟨false, false, false, false, false, false, false, true, false⟩
  | .asr | .asrI => ⟨false, false, false, false, false, false, false, false, true⟩
  | .add | .addI => ⟨true, false, false, false, false, false, false, false, false⟩
  | .sub => ⟨false, true, false, false, false, false, false, false, false⟩
  | .mhi => ⟨false, false, true, false, false, false, false, false, false⟩
  | _ => ⟨false, false, false, false, false, false, false, false, false⟩

/-- The second operand of an arithmetic instruction, where it is no register. -/
def Op.aluImm (w : Word) : Op → Option Word
  | .andI | .orI | .lslI | .lsrI | .asrI => some ((w.extractLsb' 17 15).zeroExtend 32)
  | .xorI | .addI => some ((w.extractLsb' 17 15).signExtend 32)
  | .mhi => some ((w.extractLsb' 15 17).zeroExtend 32)
  | _ => none

/-- The arithmetic instructions. -/
def Op.isAlu : Op → Bool
  | .and | .andI | .or | .orI | .xor | .xorI | .lsl | .lslI | .lsr | .lsrI | .add | .addI | .sub
  | .asr | .asrI | .mhi => true
  | _ => false

end Em

open Em in
theorem aluInsn_of_op {w : Word} {o : Op} (ho : o.isAlu = true)
    (h : w.extractLsb' 5 7 = BitVec.ofNat 7 o.code) (pc : Pc) (upd : BpuUpd) :
    AluInsn (idDec true w false false false pc upd) w o.aluBus (o.aluImm w) := by
  set d := idDec true w false false false pc upd with hd
  have hi : idInst true w false false false = w := rfl
  refine ⟨?_, ?_, ?_, ?_, ?_, ?_, ?_, ?_, ?_⟩
  · change (opcDec (w.extractLsb' 5 7)).alu = _
    rw [h]
    cases o <;> first | exact Bool.noConfusion ho | rfl
  · change (opcDec (w.extractLsb' 5 7)).bru.any = _
    rw [h]
    cases o <;> first | exact Bool.noConfusion ho | rfl
  · change (opcDec (w.extractLsb' 5 7)).lsu.any = _
    rw [h]
    cases o <;> first | exact Bool.noConfusion ho | rfl
  · change (opcDec (w.extractLsb' 5 7)).epu.any = _
    rw [h]
    cases o <;> first | exact Bool.noConfusion ho | rfl
  · simp only [hd, idDec, hi, h]
    cases o <;> first | exact Bool.noConfusion ho | rfl
  · intro hm
    refine ⟨?_, rfl⟩
    simp only [hd, idDec, hi, h]
    cases o <;> first | exact Bool.noConfusion ho | exact Bool.noConfusion hm | rfl
  · intro hm
    constructor <;> simp only [hd, idDec, hi, h] <;> cases o <;>
      first | exact Bool.noConfusion ho | rfl | cases hm
  · intro v hm
    constructor
    · simp only [hd, idDec, hi, h]
      cases o <;> first | exact Bool.noConfusion ho | rfl | cases hm
    · simp only [hd, idDec, hi, h]
      cases o <;> first
        | exact Bool.noConfusion ho
        | cases hm; done
        | cases hm; simp [opcDec, Op.code, BruOpc.isBcc]
  · constructor <;> simp only [hd, idDec, hi, h] <;> cases o <;>
      first | exact Bool.noConfusion ho | rfl


namespace Em

/-! ### An emulator to try them on -/

/-- An emulator in which every register but `r1` is zero. -/
def oneReg (v : Word) : Cpu where
  r := Function.update (fun _ => 0) 1 v
  psr := ⟨false, false, false, true, false, false, false, false, false⟩
  epsr := ⟨false, false, false, true, false, false, false, false, false⟩
  epc := 0
  elsa := 0
  evect := 0
  dtlbL := fun _ => ⟨false, 0⟩
  dtlbH := fun _ => ⟨false, false, false, false, false, 0⟩
  mem := fun _ => 0
  dcache := fun _ => 0

/-- The default settings of `em/csrc/main.cc`. -/
def stdConfig : Config := ⟨16, true, 0x04, 0x0c, 0x18, 0x20⟩

/-- MSRs that cannot be read, and that ignore what is written. -/
def noMsr : MsrCode := ⟨fun c _ _ => some c, fun _ _ => none⟩

/-! ### Arithmetic instructions agree -/

/-- The word is no memory, MSR, barrier, trap, control transfer, multiply or divide instruction. -/
def AluWord (w : Word) : Prop := ∀ o, Op.ofCode (opcode w) = some o → o.isAlu = true

/-- The count of a shift is below 32. -/
def ShiftBelow (c : Cpu) (w : Word) : Prop :=
  match Op.ofCode (opcode w) with
  | some .lsl | some .lsr | some .asr => (c.getReg (rs2 w)).toNat < 32
  | some .lslI | some .lsrI | some .asrI => ((uimm15 w).setWidth 32).toNat < 32
  | _ => True

end Em

section Agree

open Em

variable {w : Word} {o : Op} {pc : Pc} {upd : BpuUpd} {c : Cpu}

/-- The value of an arithmetic instruction. -/
theorem rfDout_eq (ho : o.isAlu = true) (hc : Op.ofCode (opcode w) = some o) (hs : ShiftBelow c w)
    (M : MsrCode) :
    c.value M w o = some ((idDec true w false false false pc upd).exec c.getReg).rfDout := by
  have hi := aluInsn_of_op ho (opcode_of_some hc) pc upd
  have hfe : (idDec true w false false false pc upd).fe.any = false := by rw [hi.fe]; rfl
  rw [(exec_of_alu hi.bru hi.lsu hi.epu hfe c.getReg).2.2, hi.alu]
  set d := idDec true w false false false pc upd
  have h₁ : o.aluBus.mhi = false → d.operand1 c.getReg = c.getReg (rs1 w) := by
    intro hm
    rw [DecInsn.operand1, (hi.rs1 hm).1, (hi.rs1 hm).2, rs1_eq, if_pos rfl]
  have h₂ : o.aluImm w = none → d.operand2 c.getReg = c.getReg (rs2 w) := by
    intro hm
    rw [DecInsn.operand2, (hi.rs2 hm).1, (hi.rs2 hm).2, rs2_eq, if_pos rfl]
  have h₃ : ∀ v, o.aluImm w = some v → d.operand2 c.getReg = v := by
    intro v hm
    rw [DecInsn.operand2, (hi.imm v hm).1, (hi.imm v hm).2, if_neg Bool.false_ne_true]
  clear_value d
  rw [ShiftBelow, hc] at hs
  cases o with
  | and =>
      rw [h₁ rfl, h₂ rfl]
      simp [Cpu.value, exAlu, Op.aluBus]
  | andI =>
      rw [h₁ rfl, h₃ _ rfl]
      simp [Cpu.value, exAlu, Op.aluBus, uimm15_setWidth]
  | or =>
      rw [h₁ rfl, h₂ rfl]
      simp [Cpu.value, exAlu, Op.aluBus]
  | orI =>
      rw [h₁ rfl, h₃ _ rfl]
      simp [Cpu.value, exAlu, Op.aluBus, uimm15_setWidth]
  | xor =>
      rw [h₁ rfl, h₂ rfl]
      simp [Cpu.value, exAlu, Op.aluBus]
  | xorI =>
      rw [h₁ rfl, h₃ _ rfl]
      simp [Cpu.value, exAlu, Op.aluBus, simm15_signExtend]
  | lsl =>
      rw [h₁ rfl, h₂ rfl, exAlu_lsl (o := Op.lsl.aluBus) rfl _ _ _ hs, Cpu.value,
        Cpu.shift, if_pos hs]
  | lslI =>
      rw [h₁ rfl, h₃ _ rfl, ← uimm15_setWidth,
        exAlu_lsl (o := Op.lslI.aluBus) rfl _ _ _ hs, Cpu.value, Cpu.shift, if_pos hs]
  | lsr =>
      rw [h₁ rfl, h₂ rfl, exAlu_lsr (o := Op.lsr.aluBus) rfl _ _ _ hs, Cpu.value,
        Cpu.shift, if_pos hs]
  | lsrI =>
      rw [h₁ rfl, h₃ _ rfl, ← uimm15_setWidth,
        exAlu_lsr (o := Op.lsrI.aluBus) rfl _ _ _ hs, Cpu.value, Cpu.shift, if_pos hs]
  | asr =>
      rw [h₁ rfl, h₂ rfl, exAlu_asr (o := Op.asr.aluBus) rfl _ _ _ hs, Cpu.value,
        Cpu.shift, if_pos hs]
  | asrI =>
      rw [h₁ rfl, h₃ _ rfl, ← uimm15_setWidth,
        exAlu_asr (o := Op.asrI.aluBus) rfl _ _ _ hs, Cpu.value, Cpu.shift, if_pos hs]
  | add =>
      rw [h₁ rfl, h₂ rfl, show Op.add.aluBus.sub = false from rfl, maddCO_add]
      simp [Cpu.value, exAlu, Op.aluBus]
  | addI =>
      rw [h₁ rfl, h₃ _ rfl, show Op.addI.aluBus.sub = false from rfl, maddCO_add]
      simp [Cpu.value, exAlu, Op.aluBus, simm15_signExtend]
  | sub =>
      rw [h₁ rfl, h₂ rfl, show Op.sub.aluBus.sub = true from rfl, maddCO_sub]
      simp [Cpu.value, exAlu, Op.aluBus]
  | mhi =>
      rw [h₃ _ rfl]
      simp [Cpu.value, exAlu, Op.aluBus, uimm17_eq, datMove_eq]
  | _ => exact Bool.noConfusion ho

/-- Both levels leave an illegal instruction for the same vector. -/
theorem excFlushTgt_einsn {e : Epu} {x : EpuIn} {V : ExcVectors} {v evect : Word}
    (hV : V.einsn ++ (0 : BitVec 2) = v.setWidth 8)
    (hf : e.s1Fe = ⟨false, false, false, false, false, true⟩)
    (hx : x.edtm = false ∧ x.edpf = false ∧ x.ealign = false)
    (he : e.s1Evect = evect.extractLsb' 8 24) :
    Epu.pcWord (e.excFlushTgt x V) = (evect &&& 0xffffff00) ||| (v &&& 0xff) := by
  have h₁ : e.excFlushTgt x V = evect.extractLsb' 8 24 ++ V.einsn := by
    simp [Epu.excFlushTgt, hf, hx, he]
  have h₂ : ∀ i < 32, (0xffffff00 : Word).getLsbD i = decide (8 ≤ i) := by decide
  have h₃ : ∀ i < 32, (0xff : Word).getLsbD i = decide (i < 8) := by decide
  rw [h₁]
  refine BitVec.eq_of_getLsbD_eq fun i hi => ?_
  have h₄ := getLsbD_append_append (evect.extractLsb' 8 24) V.einsn (0 : BitVec 2) i
  rw [hV] at h₄
  rw [BitVec.getLsbD_or, BitVec.getLsbD_and, BitVec.getLsbD_and, h₂ i hi, h₃ i hi]
  refine h₄.trans ?_
  by_cases h8 : i < 8
  · simp [h8, show ¬ 8 ≤ i by omega]
  · simp [h8, show 8 ≤ i by omega, show i - 8 < 24 by omega]

/-- **Arithmetic instructions and illegal ones do the same at both levels**: the destination
register and its value, the next address, and the verdict. -/
theorem alu_agrees (C : Config) (M : MsrCode) (c : Cpu) (w : Word) (pc : Pc) (upd : BpuUpd)
    (hw : AluWord w) (hs : ShiftBelow c w) :
    let d := idDec true w false false false pc upd
    let out := d.exec c.getReg
    ∃ st, c.execute C M (Epu.pcWord pc) w = some st ∧
      d.fe = ⟨false, false, false, false, false, decide (st.exit = .handleException)⟩ ∧
      st.cpu.r = (if d.lrdWe then Function.update c.r d.lrd out.rfDout else c.r) ∧
      (out.exc = false → st.pcNxt = Epu.pcWord out.seTgt) ∧
      ∀ (e : Epu) (x : EpuIn) (V : ExcVectors), out.exc = true → e.s1Fe = Fe.ofWord out.opera →
        x.edtm = false ∧ x.edpf = false ∧ x.ealign = false → e.s1Evect = c.evect.extractLsb' 8 24 →
          V.einsn ++ (0 : BitVec 2) = C.vectEINSN.setWidth 8 →
            st.pcNxt = Epu.pcWord (e.excFlushTgt x V) := by
  intro d out
  cases hc : Op.ofCode (opcode w) with
  | none =>
      have hop := hc
      rw [opcode_eq] at hop
      obtain ⟨a₁, a₂, a₃, a₄, a₅, a₆, a₇, a₈⟩ := opcDec_of_none _ hop
      have hfe : d.fe = ⟨false, false, false, false, false, true⟩ := by
        change Fe.mk (opcDec (w.extractLsb' 5 7)).esyscall (opcDec (w.extractLsb' 5 7)).eret
          false false
          false (!((opcDec (w.extractLsb' 5 7)).alu.any || (opcDec (w.extractLsb' 5 7)).bru.any ||
            ((opcDec (w.extractLsb' 5 7)).lsu.load || (opcDec (w.extractLsb' 5 7)).lsu.store ||
              (opcDec (w.extractLsb' 5 7)).lsu.barr) || (opcDec (w.extractLsb' 5 7)).epu.any ||
            (opcDec (w.extractLsb' 5 7)).esyscall || (opcDec (w.extractLsb' 5 7)).eret)) = _
        rw [a₁, a₂, a₃, a₄, a₅, a₆, a₇, a₈]
        rfl
      have hwe : d.lrdWe = false := (idDec_wellFormed _ _ _ _ _ _ _).fe_we (by rw [hfe]; rfl)
      have hexc : out.exc = true := by
        change (true && d.fe.any) = true
        rw [hfe]
        rfl
      have hop' : out.opera = d.fe.toWord := by
        change (if out.exc = true then d.fe.toWord else _) = _
        rw [hexc, if_pos rfl]
      refine ⟨_, by rw [Cpu.execute, hc], ?_, ?_, ?_, ?_⟩
      · rw [hfe]
        rfl
      · rw [hwe]
        rfl
      · intro he
        rw [hexc] at he
        cases he
      · intro e x V _ he hx hev hV
        rw [hop', Fe.ofWord_toWord, hfe] at he
        exact (excFlushTgt_einsn hV he hx hev).symm
  | some o =>
      have ho := hw o hc
      have hi := aluInsn_of_op ho (opcode_of_some hc) pc upd
      have hfe : d.fe.any = false := by rw [hi.fe]; rfl
      obtain ⟨hexc, hnext, -⟩ := exec_of_alu hi.bru hi.lsu hi.epu hfe c.getReg
      have hval : c.value M w o = some (d.exec c.getReg).rfDout := rfDout_eq ho hc hs M
      have hst : c.execute C M (Epu.pcWord pc) w =
          some ((c.setReg (rd w) out.rfDout).break_ (Epu.pcWord pc)) := by
        have : c.execute C M (Epu.pcWord pc) w = (c.value M w o).map fun v =>
            (c.setReg (rd w) v).break_ (Epu.pcWord pc) := by
          rw [Cpu.execute, hc]
          cases o <;> first | exact Bool.noConfusion ho | rfl
        rw [this, hval]
        rfl
      refine ⟨_, hst, ?_, ?_, ?_, ?_⟩
      · exact hi.fe
      · rw [hi.rd.2, hi.rd.1, ← rd_eq]
        by_cases h0 : rd w = 0
        · simp [Cpu.break_, Cpu.setReg, h0]
        · simp [Cpu.break_, Cpu.setReg, h0]
      · intro _
        change Epu.pcWord pc + 4 = Epu.pcWord out.seTgt
        rw [hnext, Epu.pcWord_succ]
        rfl
      · intro e x V he
        rw [hexc] at he
        cases he

/-- `ASR_I r2, r1, 4` of a negative number. -/
theorem alu_agrees_asrI : ∃ st,
    (oneReg 0x80000000).execute stdConfig noMsr (Epu.pcWord 0x40) 0x81622 = some st ∧
      st.cpu.r 2 = 0xf8000000 ∧ st.pcNxt = 0x104 := by
  have hop : Op.ofCode (opcode 0x81622) = some .asrI := by decide
  have hw : AluWord 0x81622 := by
    intro o ho
    rw [hop, Option.some.injEq] at ho
    subst ho
    rfl
  have hs : ShiftBelow (oneReg 0x80000000) 0x81622 := by
    rw [ShiftBelow, hop]
    decide
  obtain ⟨st, h₁, -, h₂, h₃, -⟩ := alu_agrees stdConfig noMsr (oneReg 0x80000000) 0x81622 0x40
    ⟨0, 0, 0, false, 0, false⟩ hw hs
  refine ⟨st, h₁, ?_, ?_⟩
  · rw [h₂]
    decide
  · rw [h₃ (by decide)]
    decide

end Agree

/-! ### Control transfers -/

theorem signExtend_append_zero {k : ℕ} (v : BitVec k) (h : 0 < k) :
    ((v ++ (0 : BitVec 2)).signExtend 32).toNat % 4 = 0 := by
  have hx : ((v ++ (0 : BitVec 2)).signExtend 32).extractLsb' 0 2 = 0 := by
    refine BitVec.eq_of_getLsbD_eq fun i hi => ?_
    rw [BitVec.getLsbD_extractLsb', BitVec.getLsbD_signExtend, BitVec.getLsbD_append]
    simp [hi, show i < k + 2 by omega]
  have := congrArg BitVec.toNat hx
  rw [BitVec.extractLsb'_toNat, Nat.shiftRight_zero] at this
  simpa using this

/-- A displacement by whole words, on either side of the two low bits. -/
theorem pcWord_add (pc : Pc) {x : Word} (hx : x.toNat % 4 = 0) :
    Epu.pcWord (pc + x.extractLsb' 2 30) = Epu.pcWord pc + x := by
  refine BitVec.eq_of_toNat_eq ?_
  have h₁ := pc.isLt
  have h₂ := x.isLt
  simp only [Epu.pcWord, BitVec.toNat_append, BitVec.toNat_add, BitVec.extractLsb'_toNat,
    Nat.shiftLeft_eq, Nat.shiftRight_eq_div_pow]
  simp
  omega

theorem pcWord_extractLsb' {x : Word} (hx : x.toNat % 4 = 0) :
    Epu.pcWord (x.extractLsb' 2 30) = x := by
  refine BitVec.eq_of_toNat_eq ?_
  have h₂ := x.isLt
  simp only [Epu.pcWord, BitVec.toNat_append, BitVec.extractLsb'_toNat,
    Nat.shiftLeft_eq, Nat.shiftRight_eq_div_pow]
  simp
  omega

namespace Em

/-- The conditional branches. -/
def Op.isBcc : Op → Bool
  | .beq | .bne | .bgt | .bgtu | .ble | .bleu => true
  | _ => false

/-- The control transfers. -/
def Op.isTransfer (o : Op) : Bool := o.isBcc || o == .jmp || o == .jmpI || o == .jmpILnk

/-- The bus of a control transfer. -/
def Op.bruBus : Op → BruOpc
  | .beq => ⟨true, false, false, false, false, false, false, false⟩
  | .bne => ⟨false, true, false, false, false, false, false, false⟩
  | .bgt => ⟨false, false, true, false, false, false, false, false⟩
  | .bgtu => ⟨false, false, false, true, false, false, false, false⟩
  | .ble => ⟨false, false, false, false, true, false, false, false⟩
  | .bleu => ⟨false, false, false, false, false, true, false, false⟩
  | .jmp => ⟨false, false, false, false, false, false, true, false⟩
  | .jmpI | .jmpILnk => ⟨false, false, false, false, false, false, false, true⟩
  | _ => ⟨false, false, false, false, false, false, false, false⟩

end Em

open Em

/-- What the decoder makes of a control transfer. -/
structure BruInsn (d : DecInsn) (w : Word) (o : Op) : Prop where
  bru : d.bru = o.bruBus
  lsu : d.lsu.any = false
  epu : d.epu.any = false
  bcc : o.isBcc = true → d.lrs1Re = true ∧ d.lrs1 = (w.extractLsb' 12 5).toFin ∧ d.lrs2Re = true ∧
    d.lrs2 = (w.extractLsb' 0 5).toFin ∧
      d.imm = (w.extractLsb' 17 15 ++ (0 : BitVec 2)).signExtend 32 ∧ d.lrdWe = false
  jmp : o = .jmp → d.lrs1Re = true ∧ d.lrs1 = (w.extractLsb' 12 5).toFin ∧
    d.lrd = (w.extractLsb' 0 5).toFin ∧ d.lrdWe = (d.lrd != 0)
  tgt : o = .jmpI ∨ o = .jmpILnk → d.lrs2Re = false ∧
    d.imm = ((w.extractLsb' 12 20 ++ w.extractLsb' 0 5) ++ (0 : BitVec 2)).signExtend 32
  jmpI : o = .jmpI → d.lrdWe = false
  jmpILnk : o = .jmpILnk → d.lrdWe = true ∧ d.lrd = regnoLnk

theorem bruInsn_of_op {w : Word} {o : Op} (ho : o.isTransfer = true)
    (h : w.extractLsb' 5 7 = BitVec.ofNat 7 o.code) (pc : Pc) (upd : BpuUpd) :
    BruInsn (idDec true w false false false pc upd) w o := by
  set d := idDec true w false false false pc upd with hd
  have hi : idInst true w false false false = w := rfl
  refine ⟨?_, ?_, ?_, ?_, ?_, ?_, ?_, ?_⟩
  · change (opcDec (w.extractLsb' 5 7)).bru = _
    rw [h]
    cases o <;> first | exact Bool.noConfusion ho | rfl
  · change (opcDec (w.extractLsb' 5 7)).lsu.any = _
    rw [h]
    cases o <;> first | exact Bool.noConfusion ho | rfl
  · change (opcDec (w.extractLsb' 5 7)).epu.any = _
    rw [h]
    cases o <;> first | exact Bool.noConfusion ho | rfl
  · intro hb
    simp only [hd, idDec, hi, h]
    cases o <;> first | exact Bool.noConfusion hb | simp [opcDec, Op.code, BruOpc.isBcc]
  · rintro rfl
    simp only [hd, idDec, hi, h]
    simp [opcDec, Op.code, BruOpc.isBcc, Fe.any, BruOpc.any, AluOpc.any, EpuOpc.any]
  · rintro (rfl | rfl) <;> simp only [hd, idDec, hi, h] <;>
      simp [opcDec, Op.code, BruOpc.isBcc]
  · rintro rfl
    simp only [hd, idDec, hi, h]
    simp [opcDec, Op.code]
  · rintro rfl
    simp only [hd, idDec, hi, h]
    simp [opcDec, Op.code, BruOpc.isBcc, Fe.any, BruOpc.any, AluOpc.any, EpuOpc.any, regnoLnk]

section Transfer

variable {w : Word} {o : Op} {pc : Pc} {upd : BpuUpd} {c : Cpu}

/-- The conditions of the branch unit are those of C++. -/
theorem exBru_bcc (ho : o.isBcc = true) (pc : Pc) (imm a b : Word) (we : Bool) :
    let out := exBru true o.bruBus pc imm a b we (maddCO a b true)
    out.taken = Cpu.cc o a b ∧ (out.taken = true → out.tgt = pc + imm.extractLsb' 2 30) ∧
      out.doutValid = false := by
  have hlt := maddCO_lt a b
  have hc := maddCO_carry a b
  have hu : (!decide (b.toNat ≤ a.toNat)) = decide (a.toNat < b.toNat) := by
    rw [← decide_not, decide_eq_decide, not_le]
  have heq : (a == b) = decide (a.toNat = b.toNat) := by
    rw [beq_eq_decide, decide_eq_decide, BitVec.toNat_inj]
  have heqs : (a == b) = decide (a.toInt = b.toInt) := by
    rw [beq_eq_decide, decide_eq_decide, BitVec.toInt_inj]
  intro out
  have ht : out.taken = Cpu.cc o a b := by
    simp only [out, exBru, hlt, hc, hu]
    cases o with
    | beq => simp [Op.bruBus, Cpu.cc]
    | bne =>
        rw [Cpu.cc, bne]
        simp [Op.bruBus]
    | bgtu =>
        rw [heq, Bool.eq_iff_iff]
        simp [Op.bruBus, Cpu.cc]
        omega
    | bleu =>
        rw [heq, Bool.eq_iff_iff]
        simp [Op.bruBus, Cpu.cc]
        omega
    | bgt =>
        rw [heqs, Bool.eq_iff_iff]
        simp [Op.bruBus, Cpu.cc]
        omega
    | ble =>
        rw [heqs, Bool.eq_iff_iff]
        simp [Op.bruBus, Cpu.cc]
        omega
    | _ => exact Bool.noConfusion ho
  refine ⟨ht, fun h => ?_, ?_⟩
  · have hj : o.bruBus.jmpreg = false ∧ o.bruBus.jmprel = false := by
      cases o <;> first | exact Bool.noConfusion ho | exact ⟨rfl, rfl⟩
    simp only [out, exBru, hj, Bool.true_and, Bool.or_false] at h ⊢
    rw [if_pos h]
    simp
  · cases o <;> first | exact Bool.noConfusion ho | rfl

/-- What the pipe computes for a control transfer, from the branch unit. -/
theorem exec_of_bru {d : DecInsn} (hl : d.lsu.any = false) (he : d.epu.any = false)
    (regs : LReg → Word) :
    let b := d.opp.bruOut true (d.operand1 regs) (d.operand2 regs)
    (d.exec regs).seTgt = (if b.taken then b.tgt else d.pc + 1) ∧
      (b.doutValid = true → (d.exec regs).rfDout = Epu.pcWord (d.pc + 1)) ∧
      d.opp.addOut (d.operand1 regs) (d.operand2 regs) =
        maddCO (d.operand1 regs) (d.operand2 regs)
          (d.alu.sub || d.bru.beq || d.bru.bne || d.bru.bgtu ||
          d.bru.bgt || d.bru.bleu || d.bru.ble) := by
  refine ⟨rfl, fun h => ?_, ?_⟩
  · change (if (d.opp.bruOut true (d.operand1 regs) (d.operand2 regs)).doutValid = true then
      _ else _) = _
    rw [if_pos h]
    rfl
  · simp only [Opp.addOut, DecInsn.opp, hl, he, Bool.or_self, Bool.false_eq_true, if_false]

/-- The emulator and the branch unit agree about a control transfer: whether it is taken, where the
program goes on, and the registers. -/
def TransferAgrees (C : Config) (M : MsrCode) (c : Cpu) (w : Word) (pc : Pc)
    (upd : BpuUpd) : Prop :=
  let d := idDec true w false false false pc upd
  let out := d.exec c.getReg
  ∃ st, c.execute C M (Epu.pcWord pc) w = some st ∧
    (st.exit = .flushPc ↔
      (d.opp.bruOut true (d.operand1 c.getReg) (d.operand2 c.getReg)).taken = true) ∧
    st.pcNxt = Epu.pcWord out.seTgt ∧
    st.cpu.r = if d.lrdWe then Function.update c.r d.lrd out.rfDout else c.r

theorem bcc_agrees (C : Config) (M : MsrCode) (hc : Op.ofCode (opcode w) = some o)
    (ho : o.isBcc = true) : TransferAgrees C M c w pc upd := by
  have hi := bruInsn_of_op (by rw [Op.isTransfer, ho]; rfl) (opcode_of_some hc) pc upd
  obtain ⟨h₁, h₂, h₃, h₄, h₅, h₆⟩ := hi.bcc ho
  simp only [TransferAgrees]
  set d := idDec true w false false false pc upd with hd
  set out := d.exec c.getReg with hout
  obtain ⟨e₁, -, e₃⟩ := exec_of_bru (d := d) hi.lsu hi.epu c.getReg
  have hop₁ : d.operand1 c.getReg = c.getReg (rs1 w) := by
    rw [DecInsn.operand1, h₁, if_pos rfl, h₂, rs1_eq]
  have hop₂ : d.operand2 c.getReg = c.getReg (rd w) := by
    rw [DecInsn.operand2, h₃, if_pos rfl, h₄, rd_eq]
  have hsub : (d.alu.sub || d.bru.beq || d.bru.bne || d.bru.bgtu || d.bru.bgt || d.bru.bleu ||
      d.bru.ble) = true := by
    rw [hi.bru]
    cases o <;> first | exact Bool.noConfusion ho | simp [Op.bruBus]
  have hpc : d.pc = pc := rfl
  have hbr : d.opp.bruOut true (d.operand1 c.getReg) (d.operand2 c.getReg) =
      exBru true o.bruBus pc d.imm (c.getReg (rs1 w)) (c.getReg (rd w)) d.lrdWe
        (maddCO (c.getReg (rs1 w)) (c.getReg (rd w)) true) := by
    rw [Opp.bruOut, e₃, hsub, hop₁, hop₂, ← hi.bru]
    rfl
  obtain ⟨t₁, t₂, -⟩ := exBru_bcc ho pc d.imm (c.getReg (rs1 w)) (c.getReg (rd w)) d.lrdWe
  rw [hbr] at e₁ ⊢
  have hst : c.execute C M (Epu.pcWord pc) w =
      if Cpu.cc o (c.getReg (rs1 w)) (c.getReg (rd w)) then
        some ⟨c, Epu.pcWord pc + rel15SigExt (uimm15 w), .flushPc⟩
      else some (c.break_ (Epu.pcWord pc)) := by
    rw [Cpu.execute, hc]
    cases o <;> first | exact Bool.noConfusion ho | rfl
  cases hcc : Cpu.cc o (c.getReg (rs1 w)) (c.getReg (rd w)) with
  | true =>
      rw [hcc] at t₁ hst
      refine ⟨_, hst, ⟨fun _ => t₁, fun _ => rfl⟩, ?_, ?_⟩
      · rw [e₁, if_pos t₁, t₂ t₁, h₅, pcWord_add _ (signExtend_append_zero _ (by decide)),
          rel15SigExt_eq]
      · rw [h₆]
        rfl
  | false =>
      rw [hcc] at t₁ hst
      refine ⟨_, hst, ⟨fun h => ?_, fun h => ?_⟩, ?_, ?_⟩
      · cases h
      · rw [t₁] at h
        cases h
      · rw [e₁, t₁, hpc]
        exact (Epu.pcWord_succ pc).symm
      · rw [h₆]
        rfl

/-- A relative jump: the emulator adds the displacement of the word. -/
theorem jmpRel_agrees (C : Config) (M : MsrCode) (hc : Op.ofCode (opcode w) = some o)
    (ho : o = .jmpI ∨ o = .jmpILnk) : TransferAgrees C M c w pc upd := by
  have hi := bruInsn_of_op (by rcases ho with rfl | rfl <;> rfl) (opcode_of_some hc) pc upd
  obtain ⟨h₁, h₂⟩ := hi.tgt ho
  simp only [TransferAgrees]
  set d := idDec true w false false false pc upd with hd
  set out := d.exec c.getReg with hout
  obtain ⟨e₁, e₂, -⟩ := exec_of_bru (d := d) hi.lsu hi.epu c.getReg
  have hop₂ : d.operand2 c.getReg = d.imm := by
    rw [DecInsn.operand2, h₁, if_neg Bool.false_ne_true]
  have hpc : d.pc = pc := rfl
  have hbus : d.bru = ⟨false, false, false, false, false, false, false, true⟩ := by
    rw [hi.bru]
    rcases ho with rfl | rfl <;> rfl
  set b := d.opp.bruOut true (d.operand1 c.getReg) (d.operand2 c.getReg) with hb
  have ht : b.taken = true := by simp [hb, Opp.bruOut, exBru, DecInsn.opp, hbus]
  have htgt : b.tgt = pc + d.imm.extractLsb' 2 30 := by
    simp [hb, Opp.bruOut, exBru, DecInsn.opp, hbus, hop₂, hpc]
  have hdv : b.doutValid = d.lrdWe := by simp [hb, Opp.bruOut, exBru, DecInsn.opp, hbus]
  have hnxt : Epu.pcWord pc + rel25SigExt (parseRel25 w) = Epu.pcWord out.seTgt := by
    rw [e₁, if_pos ht, htgt, h₂, pcWord_add _ (signExtend_append_zero _ (by decide)),
      rel25SigExt_eq]
  rcases ho with rfl | rfl
  · refine ⟨_, by rw [Cpu.execute, hc], ⟨fun _ => ht, fun _ => rfl⟩, hnxt, ?_⟩
    rw [hi.jmpI rfl]
    rfl
  · obtain ⟨h₃, h₄⟩ := hi.jmpILnk rfl
    refine ⟨_, by rw [Cpu.execute, hc], ⟨fun _ => ht, fun _ => rfl⟩, hnxt, ?_⟩
    have hdout := e₂ (hdv.trans h₃)
    rw [h₃, if_pos rfl, h₄]
    change (c.setReg regnoLnk (Epu.pcWord pc + 4)).r = _
    rw [Cpu.setReg, if_neg (by decide), hdout, hpc, Epu.pcWord_succ]

/-- A jump through a register: the emulator links first and reads the base register afterwards. -/
theorem jmpReg_agrees_iff (C : Config) (M : MsrCode) (hc : Op.ofCode (opcode w) = some .jmp)
    (ha : (c.getReg (rs1 w)).toNat % 4 = 0) : TransferAgrees C M c w pc upd ↔
      ¬ (rd w = rs1 w ∧ rd w ≠ 0 ∧ c.getReg (rs1 w) ≠ Epu.pcWord pc + 4) := by
  have hi := bruInsn_of_op (o := .jmp) rfl (opcode_of_some hc) pc upd
  obtain ⟨h₁, h₂, h₃, h₄⟩ := hi.jmp rfl
  simp only [TransferAgrees]
  set d := idDec true w false false false pc upd with hd
  set out := d.exec c.getReg with hout
  obtain ⟨e₁, e₂, -⟩ := exec_of_bru (d := d) hi.lsu hi.epu c.getReg
  have hop₁ : d.operand1 c.getReg = c.getReg (rs1 w) := by
    rw [DecInsn.operand1, h₁, if_pos rfl, h₂, rs1_eq]
  have hbus : d.bru = ⟨false, false, false, false, false, false, true, false⟩ := hi.bru
  set b := d.opp.bruOut true (d.operand1 c.getReg) (d.operand2 c.getReg) with hb
  have ht : b.taken = true := by simp [hb, Opp.bruOut, exBru, DecInsn.opp, hbus]
  have htgt : b.tgt = (c.getReg (rs1 w)).extractLsb' 2 30 := by
    simp [hb, Opp.bruOut, exBru, DecInsn.opp, hbus, hop₁]
  have hdv : b.doutValid = d.lrdWe := by simp [hb, Opp.bruOut, exBru, DecInsn.opp, hbus]
  have hnxt : Epu.pcWord out.seTgt = c.getReg (rs1 w) := by
    rw [e₁, if_pos ht, htgt, pcWord_extractLsb' ha]
  have hst : c.execute C M (Epu.pcWord pc) w = some ⟨c.setReg (rd w) (Epu.pcWord pc + 4),
      (c.setReg (rd w) (Epu.pcWord pc + 4)).getReg (rs1 w), .flushPc⟩ := by rw [Cpu.execute, hc]
  have hr : (c.setReg (rd w) (Epu.pcWord pc + 4)).r =
      if d.lrdWe then Function.update c.r d.lrd out.rfDout else c.r := by
    rw [h₄, h₃, ← rd_eq]
    by_cases h0 : rd w = 0
    · simp [Cpu.setReg, h0]
    · have hwe : d.lrdWe = true := by
        rw [h₄, h₃, ← rd_eq, bne_iff_ne]
        exact h0
      rw [hout, e₂ (hdv.trans hwe), Epu.pcWord_succ, if_pos (bne_iff_ne.2 h0),
        Cpu.setReg, if_neg h0]
      rfl
  have hbase : (c.setReg (rd w) (Epu.pcWord pc + 4)).getReg (rs1 w) = c.getReg (rs1 w) ↔
      ¬ (rd w = rs1 w ∧ rd w ≠ 0 ∧ c.getReg (rs1 w) ≠ Epu.pcWord pc + 4) := by
    by_cases h0 : rd w = 0
    · simp [Cpu.setReg, h0]
    · by_cases hrs : rd w = rs1 w
      · simp [Cpu.setReg, Cpu.getReg, hrs, hrs ▸ h0]
        exact eq_comm
      · simp [Cpu.setReg, Cpu.getReg, h0, hrs, Function.update_of_ne (Ne.symm hrs)]
  rw [← hbase]
  constructor
  · rintro ⟨st, hs, -, hn, -⟩
    rw [hst, Option.some.injEq] at hs
    rw [← hs, hnxt] at hn
    exact hn
  · intro h
    exact ⟨_, hst, ⟨fun _ => ht, fun _ => rfl⟩, h.trans hnxt.symm, hr⟩

/-- **A control transfer does the same at both levels** unless it is a jump that links into its own
base register, which holds another address than the next one. -/
theorem transfer_agrees_iff (C : Config) (M : MsrCode) (c : Cpu) (w : Word) (o : Op) (pc : Pc)
    (upd : BpuUpd) (hc : Op.ofCode (opcode w) = some o) (ho : o.isTransfer = true)
    (ha : o = .jmp → (c.getReg (rs1 w)).toNat % 4 = 0) : TransferAgrees C M c w pc upd ↔
      ¬ (o = .jmp ∧ rd w = rs1 w ∧ rd w ≠ 0 ∧ c.getReg (rs1 w) ≠ Epu.pcWord pc + 4) := by
  by_cases hj : o = .jmp
  · subst hj
    rw [jmpReg_agrees_iff C M hc (ha rfl)]
    simp
  · have : TransferAgrees C M c w pc upd := by
      by_cases hb : o.isBcc = true
      · exact bcc_agrees C M hc hb
      · refine jmpRel_agrees C M hc ?_
        cases o <;> simp_all [Op.isTransfer, Op.isBcc]
    simp [this, hj]

/-- `JMP r1, r1` at zero, with 0x100 in `r1`: the emulator goes on at 4. -/
theorem jmp_own_base :
    ¬ TransferAgrees stdConfig noMsr (oneReg 0x100) 0x11a1 0 ⟨0, 0, 0, false, 0, false⟩ := by
  rw [jmpReg_agrees_iff stdConfig noMsr (by decide) (by decide)]
  decide

/-- `JMP r1, r1` with the next address in `r1`. -/
theorem transfer_agrees_iff_jmp :
    TransferAgrees stdConfig noMsr (oneReg 4) 0x11a1 0 ⟨0, 0, 0, false, 0, false⟩ :=
  (transfer_agrees_iff stdConfig noMsr (oneReg 4) 0x11a1 .jmp 0 ⟨0, 0, 0, false, 0, false⟩
    (by decide) (by decide) (by decide)).2 (by decide)

end Transfer

end NanoCpu
