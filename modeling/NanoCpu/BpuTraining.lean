/-
**What commit teaches the branch predictor** (`rtl/core/cmt.v`, `bpu.v`, `issue.v`).

When a branch goes, commit works out its outcome from the prediction and from whether the check of
the prediction failed.  That a taken branch went to another target than predicted also fails the
check, and is then taken for the other direction; and where the check has passed the predicted
target is reported, also for a branch that was rightly predicted not to be taken.  The counters
share the write enable of the target buffer, which is that of the jumps: a jump trains the counters,
and a conditional branch trains neither.

Main definitions:

* `DecInsn.branch`, `DecInsn.nextPc` — the outcome of a branch;
* `saturate`, `Bpu.phtWrite` — the counter after an outcome, and what is written into the table of
  counters;
* `Bpu.Trained` — what a branch should teach.

Main results:

* `taken_iff`, `npcAct_iff` — when the report is right;
* `Bpu.phtWrite_ne` — the counters are never trained as they should be;
* `Core.training_never` — so it is for every branch that commits.
-/

import NanoCpu.Core

set_option relaxedAutoImplicit false
set_option autoImplicit false

namespace NanoCpu

namespace DecInsn

variable (d : DecInsn) (regs : LReg → Word)

/-- Where the instruction branches to, if it does. -/
def branch : Option Pc := d.opp.branch (d.operand1 regs) (d.operand2 regs)

/-- The address of the instruction behind it in program order. -/
def nextPc : Pc := d.opp.actualNext (d.operand1 regs) (d.operand2 regs)

theorem nextPc_eq : d.nextPc regs = (d.branch regs).getD (d.pc + 1) := rfl

theorem exec_seTgt : (d.exec regs).seTgt = d.nextPc regs := d.opp.exPipe_seTgt _ _

theorem exec_fls : (d.exec regs).fls = true ↔
    d.branch regs ≠ if d.bpuUpd.taken then some d.bpuUpd.tgt else none := d.opp.exPipe_fls_iff _ _

end DecInsn

/-- The counter after an outcome. -/
def saturate (up : Bool) (count : BitVec 2) : BitVec 2 :=
  if up then if count = 3 then 3 else count + 1 else if count = 0 then 0 else count - 1

namespace Bpu

/-- What is written into the table of counters. -/
def phtWrite (w : BpuWb) : Option (ℕ × BitVec 2) :=
  if btbWe w then some (w.upd.phtAddr, phtDin w) else none

theorem next_btb (p b : ℕ) (u : Bpu) (re imme : Bool) (pc : ℕ → Pc) (w : BpuWb) :
    (u.next p b re imme pc w).btb = if btbWe w then
      Function.update u.btb w.upd.btbAddr ⟨w.upd.imme, w.npcAct, btbTag b w.pc, w.isBcc, true⟩ else
        u.btb := rfl

/-- What a branch that has read the registers `regs` should teach: its direction and its next
address are reported; a conditional branch, and nothing else, moves the counter of its prediction,
from the count that was read then; and if it is taken, the entry of its prediction maps its address
to its target. -/
structure Trained (b : ℕ) (d : DecInsn) (regs : LReg → Word) (w : BpuWb) (u : Bpu) : Prop where
  taken : w.taken = (d.branch regs).isSome
  npcAct : w.npcAct = d.nextPc regs
  pht : phtWrite w = if d.bru.isBcc then
    some (d.bpuUpd.phtAddr, saturate (d.branch regs).isSome d.bpuUpd.phtCount) else none
  btb : ∀ tgt, d.branch regs = some tgt →
    u.btb d.bpuUpd.btbAddr = ⟨d.bpuUpd.imme, tgt, btbTag b d.pc, d.bru.isBcc, true⟩

end Bpu

/-! ### The report -/

section

variable {d : DecInsn} {regs : LReg → Word} {fls : Bool}

/-- The direction is reported right unless the branch is taken, and was predicted to be taken to
another target. -/
theorem taken_iff (hf : fls = (d.exec regs).fls) :
    (d.bpuUpd.taken ^^ fls) = (d.branch regs).isSome ↔
      ¬ ∃ tgt, d.branch regs = some tgt ∧ d.bpuUpd.taken = true ∧ d.bpuUpd.tgt ≠ tgt := by
  have hiff := d.exec_fls regs
  rw [← hf] at hiff
  cases hb : d.branch regs with
  | none => cases ht : d.bpuUpd.taken <;> cases hfl : fls <;> simp_all
  | some tgt =>
      rw [hb] at hiff
      by_cases htgt : d.bpuUpd.tgt = tgt
      · cases ht : d.bpuUpd.taken <;> cases hfl : fls <;> simp_all
      · have htgt' : tgt ≠ d.bpuUpd.tgt := fun e => htgt e.symm
        cases ht : d.bpuUpd.taken <;> cases hfl : fls <;> simp [ht, hfl, htgt, htgt'] at hiff ⊢

/-- The next address is reported right unless the branch is not taken, and was predicted so, with a
target in the buffer that is not the next address. -/
theorem npcAct_iff (hf : fls = (d.exec regs).fls) :
    (if fls then d.nextPc regs else d.bpuUpd.tgt) = d.nextPc regs ↔
      ¬ (d.branch regs = none ∧ d.bpuUpd.taken = false ∧ d.bpuUpd.tgt ≠ d.pc + 1) := by
  have hiff := d.exec_fls regs
  rw [← hf] at hiff
  rw [DecInsn.nextPc_eq]
  cases hb : d.branch regs with
  | none => cases ht : d.bpuUpd.taken <;> cases hfl : fls <;> simp_all
  | some tgt => cases ht : d.bpuUpd.taken <;> cases hfl : fls <;> simp_all

end

/-- The buses of a branch exclude each other. -/
theorem opcDec_bru (op : BitVec 7) (h : (opcDec op).bru.isBcc = true) :
    (opcDec op).bru.jmpreg = false ∧ (opcDec op).bru.jmprel = false := by
  revert op
  decide

theorem idDec_bru {valid : Bool} {ins : BitVec 32} {eitm eipf irqAsync : Bool} {pc : Pc}
    {upd : BpuUpd} (h : (idDec valid ins eitm eipf irqAsync pc upd).bru.isBcc = true) :
    (idDec valid ins eitm eipf irqAsync pc upd).bru.jmpreg = false ∧
      (idDec valid ins eitm eipf irqAsync pc upd).bru.jmprel = false :=
  opcDec_bru _ h

/-- The counters are written for the branches that should not write them, and for no other. -/
theorem Bpu.phtWrite_ne {w : BpuWb} {bru : BruOpc} (q : ℕ × BitVec 2) (hw : w.wb = true)
    (hany : bru.any = true) (hbcc : bru.isBcc = true → bru.jmpreg = false ∧ bru.jmprel = false)
    (hreg : w.isBreg = bru.jmpreg) (hrel : w.isBrel = bru.jmprel) :
    phtWrite w ≠ if bru.isBcc then some q else none := by
  rw [phtWrite, btbWe, hw, hreg, hrel, Bool.true_and]
  cases hb : bru.isBcc with
  | true => simp [hbcc hb]
  | false =>
      rw [BruOpc.any, hb, Bool.false_or] at hany
      simp [hany]

/-! ### A branch that commits -/

namespace Core

variable {n : ℕ} [NeZero n] {C : CoreCfg} {s : Core n} {x : CoreIn} {h : CoreLog}
  {pcRst : Pc} {u : Bpu} {w : IqWord} {z : RInsn}

/-- The branch that commits. -/
def branchOf (h : CoreLog) : DecInsn := (h.trace.ins h.trace.log.head).d

/-- The registers that it has read. -/
def regsOf (h : CoreLog) : LReg → Word := seqRun (h.trace.retired.map Backend.retiredOf)

omit [NeZero n] in
/-- A branch only goes in lane 0, where the report is made. -/
theorem lane_of_branch {i : ℕ} (hi : i < 2) (hfire : s.be.fire C.D (s.beIn x) i = true)
    (hb : Cmt.cmtB (s.cmtIn C x) i = true) : i = 0 := by
  by_contra hne
  obtain rfl : i = 1 := by omega
  have hs := (Cmt.single_of_fire_one (x := s.cmtIn C x) hfire).2
  rw [Cmt.singleFu, hb, Bool.or_true] at hs
  cases hs

/-- What commit reports of it. -/
theorem bpuWb_eq (hP : 1 ≤ C.P) (hr : (observed n C pcRst u w z).Reach (s, h))
    (hfire : s.be.fire C.D (s.beIn x) 0 = true) (hb : Cmt.cmtB (s.cmtIn C x) 0 = true) :
    let d := branchOf h
    let fls := (d.exec (regsOf h)).fls
    s.bpuWb C x = ⟨true, d.bru.isBcc, d.bru.jmpreg, d.bru.jmprel, d.bpuUpd.taken ^^ fls, d.pc,
      if fls then d.nextPc (regsOf h) else d.bpuUpd.tgt, d.bpuUpd⟩ := by
  obtain ⟨-, htr, -⟩ := feeds_of_reach hP hr
  have hi := Backend.inv_of_reach htr
  have hval : s.be.rob.cmtValid 1 C.D 0 = true := Cmt.valid_of_fire (x := s.cmtIn C x) hfire
  obtain ⟨hpay, hfls, -, hvb⟩ := hi.head_exec hval
  rw [Backend.archRegs_eq htr] at hfls hvb
  rw [bpuWb, hpay, hfls, hvb, hfire, hb, DecInsn.exec_seTgt]
  rfl

theorem bru_branchOf (hP : 1 ≤ C.P) (hr : (observed n C pcRst u w z).Reach (s, h))
    (hfire : s.be.fire C.D (s.beIn x) 0 = true) (hb : Cmt.cmtB (s.cmtIn C x) 0 = true) :
    (branchOf h).bru.any = true ∧ ((branchOf h).bru.isBcc = true →
      (branchOf h).bru.jmpreg = false ∧ (branchOf h).bru.jmprel = false) ∧
        branchOf h = (h.log.word h.trace.log.head).decode true (h.irq h.trace.log.head) := by
  obtain ⟨-, htr, hfe⟩ := feeds_of_reach hP hr
  have hi := Backend.inv_of_reach htr
  have hval : s.be.rob.cmtValid 1 C.D 0 = true := Cmt.valid_of_fire (x := s.cmtIn C x) hfire
  obtain ⟨hlive, -⟩ := hi.order.ent_eq (i := 0) (by omega) hval
  have hd := hfe.renamed h.trace.log.head (Backend.lt_nextNum_of_live hlive)
  have hpay := hi.order.head_pay (i := 0) (by omega) hlive.2
  refine ⟨?_, fun hbcc => ?_, hd⟩
  · change ((s.be.head C.D 0).pay.isBcc || (s.be.head C.D 0).pay.isBreg ||
      (s.be.head C.D 0).pay.isBrel) = true at hb
    rw [hpay] at hb
    exact hb
  · rw [branchOf, hd] at hbcc ⊢
    exact idDec_bru hbcc

/-- The counters are wrong for any branch. -/
theorem not_trained (hP : 1 ≤ C.P) (hr : (observed n C pcRst u w z).Reach (s, h)) {i : ℕ}
    (hi : i < 2)
    (hfire : s.be.fire C.D (s.beIn x) i = true) (hb : Cmt.cmtB (s.cmtIn C x) i = true) :
    ¬ Bpu.Trained C.b (branchOf h) (regsOf h) (s.bpuWb C x) (s.next C x).fe.bpu := by
  obtain rfl := lane_of_branch hi hfire hb
  obtain ⟨hany, hexcl, -⟩ := bru_branchOf hP hr hfire hb
  have hrep := bpuWb_eq hP hr hfire hb
  intro ht
  exact Bpu.phtWrite_ne _ (congrArg BpuWb.wb hrep) hany hexcl (congrArg BpuWb.isBreg hrep)
    (congrArg BpuWb.isBrel hrep) ht.pht

/-- **No branch that commits teaches the predictor what it should.**  The direction and the next
address are reported right but for two cases; the counters are written by the jumps and only by
them; and the target buffer learns the jumps that are taken, and nothing of a conditional branch. -/
theorem training_never (hP : 1 ≤ C.P) (hr : (observed n C pcRst u w z).Reach (s, h)) {i : ℕ}
    (hi : i < 2)
    (hfire : s.be.fire C.D (s.beIn x) i = true) (hb : Cmt.cmtB (s.cmtIn C x) i = true) :
    let d := branchOf h
    let rep := s.bpuWb C x
    let bpu := (s.next C x).fe.bpu
    ¬ Bpu.Trained C.b d (regsOf h) rep bpu ∧ rep.wb = true ∧
      d.bpuUpd = (h.log.word h.trace.log.head).upd ∧
      (rep.taken = (d.branch (regsOf h)).isSome ↔
        ¬ ∃ tgt, d.branch (regsOf h) = some tgt ∧ d.bpuUpd.taken = true ∧ d.bpuUpd.tgt ≠ tgt) ∧
      (rep.npcAct = d.nextPc (regsOf h) ↔
        ¬ (d.branch (regsOf h) = none ∧ d.bpuUpd.taken = false ∧ d.bpuUpd.tgt ≠ d.pc + 1)) ∧
      (d.bru.isBcc = true → bpu.pht = s.fe.bpu.pht ∧ bpu.btb = s.fe.bpu.btb) ∧
      (d.bru.isBcc = false → ∀ tgt, d.branch (regsOf h) = some tgt →
        bpu.btb d.bpuUpd.btbAddr = ⟨d.bpuUpd.imme, tgt, Bpu.btbTag C.b d.pc, false, true⟩) := by
  have hnot := not_trained hP hr hi hfire hb
  obtain rfl := lane_of_branch hi hfire hb
  intro d rep bpu
  have hrep : rep = _ := bpuWb_eq hP hr hfire hb
  obtain ⟨hany, hexcl, hd⟩ := bru_branchOf hP hr hfire hb
  have hbpu : bpu = s.fe.bpu.next C.p C.b (s.fe.pCe C.P C.F (s.feIn C x)) (s.psr C x).imme
    (s.fe.s1iPc C.P C.F C.b (s.feIn C x)) rep := rfl
  have hwb : rep.wb = true := congrArg BpuWb.wb hrep
  have hreg : rep.isBreg = d.bru.jmpreg := congrArg BpuWb.isBreg hrep
  have hrel : rep.isBrel = d.bru.jmprel := congrArg BpuWb.isBrel hrep
  have hnpc : rep.npcAct = if (d.exec (regsOf h)).fls then d.nextPc (regsOf h) else d.bpuUpd.tgt :=
    congrArg BpuWb.npcAct hrep
  have hwe : Bpu.btbWe rep = (d.bru.jmpreg || d.bru.jmprel) := by
    rw [Bpu.btbWe, hwb, hreg, hrel, Bool.true_and]
  refine ⟨hnot, hwb, congrArg DecInsn.bpuUpd hd, ?_, ?_, fun hbcc => ?_, fun hbcc tgt ht => ?_⟩
  · rw [hrep]
    exact taken_iff rfl
  · rw [hnpc]
    exact npcAct_iff rfl
  · -- a conditional branch does not enable the tables
    have hoff : Bpu.btbWe rep = false := by
      rw [hwe, (hexcl hbcc).1, (hexcl hbcc).2]
      rfl
    rw [hbpu]
    exact ⟨by simp [Bpu.next, hoff], by simp [Bpu.next_btb, hoff]⟩
  · have hon : Bpu.btbWe rep = true := by
      have hbcc' : (branchOf h).bru.isBcc = false := hbcc
      rw [BruOpc.any, hbcc', Bool.false_or] at hany
      rw [hwe]
      exact hany
    have htgt : rep.npcAct = tgt := by
      have hright : ¬ (d.branch (regsOf h) = none ∧ d.bpuUpd.taken = false ∧
          d.bpuUpd.tgt ≠ d.pc + 1) := by
        rintro ⟨hnone, -⟩
        rw [ht] at hnone
        cases hnone
      rw [hnpc, (npcAct_iff rfl).2 hright, DecInsn.nextPc_eq, ht, Option.getD_some]
    have hupd : rep.upd = d.bpuUpd := congrArg BpuWb.upd hrep
    have hpc : rep.pc = d.pc := congrArg BpuWb.pc hrep
    have hisBcc : rep.isBcc = false := (congrArg BpuWb.isBcc hrep).trans hbcc
    rw [hbpu, Bpu.next_btb, if_pos hon, htgt, hupd, hpc, hisBcc, Function.update_self]

/-- The branch `BEQ r0, r0, +8`. -/
def beqWord : BitVec 32 := 0x40200

theorem beq_run :
    (chipRun (fun _ => beqWord) (fun _ => 0) 10).1.be.fire chip.D
    ((chipRun (fun _ => beqWord) (fun _ => 0) 10).1.beIn
        ((chipRun (fun _ => beqWord) (fun _ => 0) 10).1.memIn (fun _ => beqWord) 0)) 0 = true ∧
      Cmt.cmtB ((chipRun (fun _ => beqWord) (fun _ => 0) 10).1.cmtIn chip
        ((chipRun (fun _ => beqWord) (fun _ => 0) 10).1.memIn (fun _ => beqWord) 0)) 0 = true ∧
      (branchOf (chipRun (fun _ => beqWord) (fun _ => 0) 10).2).bru.isBcc = true := by
  decide +kernel

/-- The branch commits and leaves the tables as they are. -/
theorem training_never_beq :
    ∃ s h x, (observed 4 chip 0xc000000 Frontend.bpuRst Frontend.emptyWord emptyInsn).Reach (s, h) ∧
      s.be.fire chip.D (s.beIn x) 0 = true ∧ (branchOf h).bru.isBcc = true ∧
        ¬ Bpu.Trained chip.b (branchOf h) (regsOf h) (s.bpuWb chip x) (s.next chip x).fe.bpu ∧
          (s.next chip x).fe.bpu.pht = s.fe.bpu.pht := by
  have hr := chipRun_reach (fun _ => beqWord) (fun _ => 0) 10
  have hrun := beq_run
  generalize chipRun (fun _ => beqWord) (fun _ => 0) 10 = q at hr hrun
  have h := training_never (x := q.1.memIn (fun _ => beqWord) 0) (by decide) hr
    (by decide) hrun.1 hrun.2.1
  exact ⟨q.1, q.2, _, hr, hrun.1, hrun.2.2, h.1, (h.2.2.2.2.2.1 hrun.2.2).1⟩

/-- So it is not the case that every branch that commits trains the predictor. -/
theorem branch_untrained :
    ¬ ∀ (s : Core 4) (h : CoreLog) (x : CoreIn),
      (observed 4 chip 0xc000000 Frontend.bpuRst Frontend.emptyWord emptyInsn).Reach (s, h) →
        s.be.fire chip.D (s.beIn x) 0 = true → Cmt.cmtB (s.cmtIn chip x) 0 = true →
          Bpu.Trained chip.b (branchOf h) (regsOf h) (s.bpuWb chip x) (s.next chip x).fe.bpu := by
  intro hall
  have hr := chipRun_reach (fun _ => beqWord) (fun _ => 0) 10
  have hrun := beq_run
  generalize chipRun (fun _ => beqWord) (fun _ => 0) 10 = q at hr hrun
  exact not_trained (by decide) hr (by decide) hrun.1 hrun.2.1 (hall _ _ _ hr hrun.1 hrun.2.1)

end Core

end NanoCpu
