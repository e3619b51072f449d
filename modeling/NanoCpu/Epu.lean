/-
**The exception unit and the machine state registers** (`rtl/core/cmt_epu.v`, `cmt_psr.v`, the mask
register of `cmt_irqc.v`).

At commit the unit reads or writes a machine state register (MSR), or takes the exception that an
instruction carries.  A request is decoded in the first stage; the registers behind it then write
the MSR, raise the flush of an exception, or ask for the instructions behind a change of the address
space to be fetched again.  The exceptions of the load/store unit arrive at the second stage too.

The time-stamp counter, the interrupt request register and the identification registers of the other
units are inputs: nothing here depends on what they hold.

Main definitions:

* `Psr`, `PsrWr`, `Psr.next` — the registers of bank PS and SR; what the source bypasses to its
  readers is the value after the edge;
* `WmsrWe` — the write enables of the MSRs;
* `EpuReq`, `EpuIn` — the request with its decoding, and the inputs of one cycle;
* `Epu`, `Epu.next` — the unit;
* `Epu.excFlush`, `Epu.excFlushTgt`, `Epu.refetch`, `Epu.wbValid` — what it answers.
-/

import NanoCpu.Lsu

set_option relaxedAutoImplicit false
set_option autoImplicit false

namespace NanoCpu

/-! ### The registers of bank PS and SR -/

structure Psr where
  rm : Bool
  ire : Bool
  imme : Bool
  dmme : Bool
  ice : Bool
  dce : Bool
  epsr : BitVec 10
  epc : Word
  elsa : Word
  evect : BitVec 24
  sr : Fin 4 → Word

/-- What the exception unit does to the registers in one cycle. -/
structure PsrWr where
  save : Bool
  restore : Bool
  psrWe : Bool
  psrNxt : BitVec 10
  epsrWe : Bool
  epsrNxt : BitVec 10
  epcWe : Bool
  epcNxt : Word
  elsaWe : Bool
  elsaNxt : Word
  evectWe : Bool
  evectNxt : BitVec 24
  srWe : Fin 4 → Bool
  srNxt : Word

namespace Psr

def reset : Psr where
  rm := true
  ire := false
  imme := false
  dmme := false
  ice := false
  dce := false
  epsr := 0
  epc := 0
  elsa := 0
  evect := 0
  sr := fun _ => 0

/-- `{dce, ice, dmme, imme, ire, rm, 4'b0}`. -/
def pack (dce ice dmme imme ire rm : Bool) : BitVec 10 :=
  BitVec.ofBool dce ++ BitVec.ofBool ice ++ BitVec.ofBool dmme ++ BitVec.ofBool imme ++
    BitVec.ofBool ire ++ BitVec.ofBool rm ++ (0 : BitVec 4)

theorem pack_getLsbD (dce ice dmme imme ire rm : Bool) (j : ℕ) :
    (pack dce ice dmme imme ire rm).getLsbD j =
      ((rm && decide (j = 4)) || (ire && decide (j = 5)) || (imme && decide (j = 6)) ||
        (dmme && decide (j = 7)) || (ice && decide (j = 8)) || (dce && decide (j = 9))) := by
  by_cases hj : j < 10
  · interval_cases j <;> cases dce <;> cases ice <;> cases dmme <;> cases imme <;> cases ire <;>
      cases rm <;> rfl
  · rw [BitVec.getLsbD_of_ge _ _ (by omega)]
    simp [show j ≠ 4 by omega, show j ≠ 5 by omega, show j ≠ 6 by omega, show j ≠ 7 by omega,
      show j ≠ 8 by omega, show j ≠ 9 by omega]

/-- A bit of the PSR before an exception is taken (`msr_psr_*_nold`): bit `k` is written by a WMSR
or restored from the EPSR. -/
def nold (s : Psr) (w : PsrWr) (k : ℕ) (ff : Bool) : Bool :=
  if w.psrWe || w.restore then if w.restore then s.epsr.getLsbD k else w.psrNxt.getLsbD k else ff

/-- A bit that only a WMSR writes. -/
def wrBit (w : PsrWr) (k : ℕ) (ff : Bool) : Bool := if w.psrWe then w.psrNxt.getLsbD k else ff

/-- The registers after the edge. -/
def next (s : Psr) (w : PsrWr) : Psr where
  rm := s.nold w 4 s.rm || w.save
  ire := s.nold w 5 s.ire && !w.save
  imme := s.nold w 6 s.imme && !w.save
  dmme := s.nold w 7 s.dmme && !w.save
  ice := wrBit w 8 s.ice
  dce := wrBit w 9 s.dce
  epsr :=
    if w.save then pack (wrBit w 9 s.dce) (wrBit w 8 s.ice) (s.nold w 7 s.dmme) (s.nold w 6 s.imme)
      (s.nold w 5 s.ire) (s.nold w 4 s.rm)
    else if w.epsrWe then w.epsrNxt else s.epsr
  epc := ldff w.epcWe w.epcNxt s.epc
  elsa := ldff w.elsaWe w.elsaNxt s.elsa
  evect := ldff w.evectWe w.evectNxt s.evect
  sr := fun i => ldff (w.srWe i) w.srNxt (s.sr i)

/-- `msr_psr`. -/
def psr (s : Psr) : BitVec 10 := pack s.dce s.ice s.dmme s.imme s.ire s.rm

end Psr

/-! ### The request -/

/-- The write enables, packed with the offset inside the bank. -/
structure WmsrWe where
  psr : Bool
  epc : Bool
  epsr : Bool
  elsa : Bool
  evect : Bool
  immTlbl : Bool
  immTlbh : Bool
  dmmTlbl : Bool
  dmmTlbh : Bool
  irqcImr : Bool
  tscTsr : Bool
  tscTcr : Bool
  sr : Bool
  bankOff : BitVec 9
  deriving DecidableEq, Repr

/-- No write. -/
def WmsrWe.none : WmsrWe :=
  ⟨false, false, false, false, false, false, false, false, false, false, false, false, false, 0⟩

/-- Some register is written. -/
def WmsrWe.any (w : WmsrWe) : Bool :=
  w.psr || w.epc || w.epsr || w.elsa || w.evect || w.immTlbl || w.immTlbh || w.dmmTlbl ||
    w.dmmTlbh || w.irqcImr || w.tscTsr || w.tscTcr || w.sr

def Fe.none : Fe := ⟨false, false, false, false, false, false⟩

/-- The registers outside this module that an RMSR can read. -/
structure MsrRd where
  cpuid : Word
  coreid : Word
  immid : Word
  dmmid : Word
  icid : Word
  dcid : Word
  irr : Word
  tsr : Word
  tcr : Word

/-- The offsets `NCPU_MSR_BANK_*`. -/
inductive MsrBank
  | ps | imm | dmm | ic | dc | irqc | tsc | sr
  deriving DecidableEq, Repr

def MsrBank.addr : MsrBank → BitVec 5
  | ps => 0
  | imm => 1
  | dmm => 2
  | ic => 3
  | dc => 4
  | irqc => 6
  | tsc => 7
  | sr => 8

/-- The request of commit. -/
structure EpuReq where
  reqValid : Bool
  opc : EpuOpc
  exc : Bool
  fe : Fe
  pc : Pc
  npc : Pc
  addr : Word
  wdat : Word

/-- The inputs of one cycle; `edtm`, `edpf`, `ealign` and `vaddr` come from the load/store unit. -/
structure EpuIn extends EpuReq where
  rd : MsrRd
  edtm : Bool
  edpf : Bool
  ealign : Bool
  vaddr : Word
  pCeS1 : Bool
  pCeS2 : Bool

namespace EpuReq

variable (x : EpuReq)

def bankOff : BitVec 9 := x.addr.extractLsb' 0 9

def bank (b : MsrBank) : Bool := x.addr.extractLsb' 9 5 == b.addr

/-- A WMSR to bank `b`. -/
def wmsr (b : MsrBank) : Bool := x.reqValid && x.opc.wmsr && x.bank b

/-- `s1i_msr_ic_inv_we`. -/
def icInvWe : Bool := x.wmsr .ic && x.bankOff.getLsbD 1

/-- `msr_dcinv_we`. -/
def dcinvWe : Bool := x.wmsr .dc && x.bankOff.getLsbD 1

/-- `msr_dcfls_we`. -/
def dcflsWe : Bool := x.wmsr .dc && x.bankOff.getLsbD 2

/-- `s1i_wmsr_we`. -/
def wmsrWe : WmsrWe where
  psr := x.wmsr .ps && x.bankOff.getLsbD 0
  epc := x.wmsr .ps && x.bankOff.getLsbD 3
  epsr := x.wmsr .ps && x.bankOff.getLsbD 2
  elsa := x.wmsr .ps && x.bankOff.getLsbD 4
  evect := x.wmsr .ps && x.bankOff.getLsbD 6
  immTlbl := x.wmsr .imm && (x.bankOff.getLsbD 8 && !x.bankOff.getLsbD 7)
  immTlbh := x.wmsr .imm && (x.bankOff.getLsbD 8 && x.bankOff.getLsbD 7)
  dmmTlbl := x.wmsr .dmm && (x.bankOff.getLsbD 8 && !x.bankOff.getLsbD 7)
  dmmTlbh := x.wmsr .dmm && (x.bankOff.getLsbD 8 && x.bankOff.getLsbD 7)
  irqcImr := x.wmsr .irqc && x.bankOff.getLsbD 0
  tscTsr := x.wmsr .tsc && x.bankOff.getLsbD 0
  tscTcr := x.wmsr .tsc && x.bankOff.getLsbD 1
  sr := x.wmsr .sr
  bankOff := x.bankOff

/-- The exceptions of the request (`s1i_E*`). -/
def s1Fe : Fe where
  esyscall := x.reqValid && x.exc && x.fe.esyscall
  eret := x.reqValid && x.exc && x.fe.eret
  eitm := x.reqValid && x.exc && x.fe.eitm
  eipf := x.reqValid && x.exc && x.fe.eipf
  eirq := x.reqValid && x.exc && x.fe.eirq
  einsn := x.reqValid && x.exc && x.fe.einsn

/-- `s1i_refetch`: the address space or the mode changes. -/
def s1Refetch : Bool :=
  x.reqValid && (x.wmsrWe.psr || x.wmsrWe.immTlbl || x.wmsrWe.immTlbh || x.wmsrWe.dmmTlbl ||
    x.wmsrWe.dmmTlbh)

/-- `s1i_wb_valid`: a D-cache operation finishes in the load/store unit. -/
def s1WbValid : Bool := x.reqValid && !x.dcflsWe && !x.dcinvWe

/-- The OR of the selected words of a bank. -/
def readBits (l : List (Bool × Word)) : Word := l.foldl (fun a p => a ||| if p.1 then p.2 else 0) 0

/-- `pmux`: the lowest selected scratch register, the first one by default. -/
def readSr (sr : Fin 4 → Word) : Word :=
  if x.bankOff.getLsbD 0 then sr 0 else if x.bankOff.getLsbD 1 then sr 1
  else if x.bankOff.getLsbD 2 then sr 2 else if x.bankOff.getLsbD 3 then sr 3 else sr 0

end EpuReq

open EpuReq in
/-- `s1i_wb_dout`, from the registers as their bypasses show them. -/
def EpuIn.readMsr (x : EpuIn) (psr : Psr) (imr : Word) : Word :=
  let off := x.bankOff
  readBits
    [(x.bank .ps, readBits
        [(off.getLsbD 0, psr.psr.zeroExtend 32), (off.getLsbD 1, x.rd.cpuid),
          (off.getLsbD 2, psr.epsr.zeroExtend 32), (off.getLsbD 3, psr.epc),
            (off.getLsbD 4, psr.elsa), (off.getLsbD 5, x.rd.coreid)]),
      (x.bank .imm, readBits [(!off.getLsbD 8, x.rd.immid)]),
      (x.bank .dmm, readBits [(!off.getLsbD 8, x.rd.dmmid)]),
      (x.bank .ic, readBits [(off.getLsbD 0, x.rd.icid)]),
      (x.bank .dc, readBits [(off.getLsbD 0, x.rd.dcid)]),
      (x.bank .irqc, readBits [(off.getLsbD 0, imr), (off.getLsbD 1, x.rd.irr)]),
      (x.bank .tsc, readBits [(off.getLsbD 0, x.rd.tsr), (off.getLsbD 1, x.rd.tcr)]),
      (x.bank .sr, x.readSr psr.sr)]

/-! ### What a request writes -/

namespace EpuReq

variable {x : EpuReq}

theorem wmsr_of_not_valid (hx : x.reqValid = false) (b : MsrBank) : x.wmsr b = false := by
  simp [wmsr, hx]

theorem s1Fe_of_not_valid (hx : x.reqValid = false) : x.s1Fe = Fe.none := by
  simp [s1Fe, hx, Fe.none]

theorem s1Fe_of_not_exc (hx : x.exc = false) : x.s1Fe = Fe.none := by
  simp [s1Fe, hx, Fe.none]

/-- A register of bank `b` is written only by a WMSR to that bank. -/
theorem wmsrWe_any (h : x.wmsrWe.any = true) :
    ∃ b, b ≠ .ic ∧ b ≠ .dc ∧ x.wmsr b = true := by
  simp only [WmsrWe.any, wmsrWe, Bool.or_eq_true, Bool.and_eq_true] at h
  rcases h with (((((((((((h | h) | h) | h) | h) | h) | h) | h) | h) | h) | h) | h) | h
  · exact ⟨.ps, by decide, by decide, h.1⟩
  · exact ⟨.ps, by decide, by decide, h.1⟩
  · exact ⟨.ps, by decide, by decide, h.1⟩
  · exact ⟨.ps, by decide, by decide, h.1⟩
  · exact ⟨.ps, by decide, by decide, h.1⟩
  · exact ⟨.imm, by decide, by decide, h.1⟩
  · exact ⟨.imm, by decide, by decide, h.1⟩
  · exact ⟨.dmm, by decide, by decide, h.1⟩
  · exact ⟨.dmm, by decide, by decide, h.1⟩
  · exact ⟨.irqc, by decide, by decide, h.1⟩
  · exact ⟨.tsc, by decide, by decide, h.1⟩
  · exact ⟨.tsc, by decide, by decide, h.1⟩
  · exact ⟨.sr, by decide, by decide, h⟩

/-- An address is in one bank. -/
theorem wmsr_unique {b b' : MsrBank} (h : x.wmsr b = true) (h' : x.wmsr b' = true) :
    b = b' := by
  simp only [wmsr, bank, Bool.and_eq_true, beq_iff_eq] at h h'
  have : b.addr = b'.addr := h.2.symm.trans h'.2
  revert this
  cases b <;> cases b' <;> decide

theorem s1Refetch_wmsrWe (h : x.s1Refetch = true) : x.wmsrWe.any = true := by
  simp only [s1Refetch, Bool.and_eq_true, Bool.or_eq_true] at h
  simp only [WmsrWe.any, Bool.or_eq_true]
  tauto

/-- A D-cache operation writes no register. -/
theorem wmsrWe_any_of_dcop (h : x.dcinvWe = true ∨ x.dcflsWe = true) :
    x.wmsrWe.any = false := by
  by_contra hne
  obtain ⟨b, -, hb, hw⟩ := wmsrWe_any (by simpa using hne)
  have hdc : x.wmsr .dc = true := by
    rcases h with h | h <;> simp only [dcinvWe, dcflsWe, Bool.and_eq_true] at h <;>
      exact h.1
  exact hb (wmsr_unique hw hdc)

theorem wmsrWe_any_of_not_valid (hx : x.reqValid = false) : x.wmsrWe.any = false := by
  by_contra hne
  obtain ⟨b, -, -, hw⟩ := wmsrWe_any (by simpa using hne)
  rw [wmsr_of_not_valid hx] at hw
  cases hw

theorem s1Refetch_eq_false (h : x.wmsrWe.any = false) : x.s1Refetch = false := by
  by_contra hne
  rw [s1Refetch_wmsrWe (by simpa using hne)] at h
  cases h

end EpuReq

/-! ### The unit -/

/-- The vectors of the exceptions (`CONFIG_E*_VECTOR` without the two lowest bits). -/
structure ExcVectors where
  edtm : BitVec 6
  edpf : BitVec 6
  ealign : BitVec 6
  esyscall : BitVec 6
  eitm : BitVec 6
  eipf : BitVec 6
  eirq : BitVec 6
  einsn : BitVec 6

/-- The registers behind the first stage, the MSRs, and the interrupt mask. -/
structure Epu where
  s1WbValid : Bool
  wbDout : Word
  wbDoutSel : Bool
  s1Fe : Fe
  s1Refetch : Bool
  s1WmsrWe : WmsrWe
  s1WmsrDat : Word
  s1Epc : Pc
  s1Nepc : Pc
  s1Evect : BitVec 24
  psr : Psr
  imr : Word

namespace Epu

def reset : Epu where
  s1WbValid := false
  wbDout := 0
  wbDoutSel := false
  s1Fe := Fe.none
  s1Refetch := false
  s1WmsrWe := WmsrWe.none
  s1WmsrDat := 0
  s1Epc := 0
  s1Nepc := 0
  s1Evect := 0
  psr := Psr.reset
  imr := BitVec.allOnes 32

variable (s : Epu) (x : EpuIn)

/-- The write enables that reach the MSRs in this cycle. -/
def commitWe : WmsrWe := if x.pCeS2 then s.s1WmsrWe else WmsrWe.none

/-- `msr_psr_save`: an exception is taken. -/
def psrSave : Bool :=
  x.pCeS2 && (s.s1Fe.esyscall || s.s1Fe.eitm || s.s1Fe.eipf || s.s1Fe.einsn || x.edtm || x.edpf ||
    x.ealign || s.s1Fe.eirq)

/-- The address of an instruction as a word. -/
def pcWord (pc : Pc) : Word := pc ++ (0 : BitVec 2)

theorem pcWord_succ (pc : Pc) : pcWord (pc + 1) = pcWord pc + 4 := by
  refine BitVec.eq_of_toNat_eq ?_
  have := pc.isLt
  simp only [pcWord, BitVec.toNat_append, BitVec.toNat_add]
  simp [Nat.shiftLeft_eq]
  omega

def psrWr : PsrWr :=
  let we := s.commitWe x
  let setElsaAsPc := s.s1Fe.eitm || s.s1Fe.eipf || s.s1Fe.einsn
  let setElsa := setElsaAsPc || x.edtm || x.edpf || x.ealign
  { save := s.psrSave x
    restore := x.pCeS2 && s.s1Fe.eret
    psrWe := we.psr
    psrNxt := s.s1WmsrDat.setWidth 10
    epsrWe := we.epsr
    epsrNxt := s.s1WmsrDat.setWidth 10
    epcWe := s.psrSave x || we.epc
    epcNxt := if we.epc then s.s1WmsrDat
      else if s.s1Fe.esyscall then pcWord s.s1Nepc else pcWord s.s1Epc
    elsaWe := setElsa || we.elsa
    elsaNxt := if setElsa then if setElsaAsPc then pcWord s.s1Epc else x.vaddr else s.s1WmsrDat
    evectWe := we.evect
    evectNxt := s.s1WmsrDat.extractLsb' 8 24
    srWe := fun i => we.bankOff.getLsbD i && we.sr
    srNxt := s.s1WmsrDat }

/-- The MSRs after the edge, which are also what is read in this cycle. -/
def psrNext : Psr := s.psr.next (s.psrWr x)

def imrNext : Word := ldff (s.commitWe x).irqcImr s.s1WmsrDat s.imr

/-- The writes of the data TLB. -/
def dmmTlbl : TlbWr tlbP :=
  ⟨(s.commitWe x).dmmTlbl, (s.commitWe x).bankOff.setWidth tlbP, s.s1WmsrDat⟩

def dmmTlbh : TlbWr tlbP :=
  ⟨(s.commitWe x).dmmTlbh, (s.commitWe x).bankOff.setWidth tlbP, s.s1WmsrDat⟩

/-- The writes of the instruction TLB. -/
def immTlbl : TlbWr tlbP :=
  ⟨(s.commitWe x).immTlbl, (s.commitWe x).bankOff.setWidth tlbP, s.s1WmsrDat⟩

def immTlbh : TlbWr tlbP :=
  ⟨(s.commitWe x).immTlbh, (s.commitWe x).bankOff.setWidth tlbP, s.s1WmsrDat⟩

def next : Epu where
  s1WbValid := ldff x.pCeS1 x.s1WbValid s.s1WbValid
  wbDout := ldff x.pCeS1 (x.readMsr (s.psrNext x) (s.imrNext x)) s.wbDout
  wbDoutSel := ldff x.pCeS1 x.opc.rmsr s.wbDoutSel
  s1Fe := ldff x.pCeS1 x.s1Fe s.s1Fe
  s1Refetch := ldff x.pCeS1 x.s1Refetch s.s1Refetch
  s1WmsrWe := ldff x.pCeS1 x.wmsrWe s.s1WmsrWe
  s1WmsrDat := ldff x.pCeS1 x.wdat s.s1WmsrDat
  s1Epc := ldff x.pCeS1 x.pc s.s1Epc
  s1Nepc := ldff x.pCeS1 x.npc s.s1Nepc
  s1Evect := ldff x.pCeS1 (s.psrNext x).evect s.s1Evect
  psr := s.psrNext x
  imr := s.imrNext x

/-- `exc_flush`. -/
def excFlush : Bool :=
  x.pCeS2 && (x.edtm || x.edpf || x.ealign || s.s1Fe.esyscall || s.s1Fe.eret || s.s1Fe.eitm ||
    s.s1Fe.eipf || s.s1Fe.eirq || s.s1Fe.einsn)

/-- `exc_flush_tgt`. -/
def excFlushTgt (V : ExcVectors) : Pc :=
  let vec (b : Bool) (v : BitVec 6) : Pc := if b then s.s1Evect ++ v else 0
  vec x.edtm V.edtm ||| vec x.edpf V.edpf ||| vec x.ealign V.ealign |||
    vec s.s1Fe.esyscall V.esyscall |||
    (if s.s1Fe.eret then (s.psrNext x).epc.extractLsb' 2 30 else 0) ||| vec s.s1Fe.eitm V.eitm |||
    vec s.s1Fe.eipf V.eipf ||| vec s.s1Fe.eirq V.eirq ||| vec s.s1Fe.einsn V.einsn

/-- `refetch`. -/
def refetch : Bool := x.pCeS2 && s.s1Refetch

/-- `epu_wb_valid`. -/
def wbValid : Bool := s.s1WbValid && x.pCeS2

end Epu

/-! ### Cycles without a write -/

theorem Epu.commitWe_of_none {e : Epu} (h : e.s1WmsrWe.any = false) (x : EpuIn) :
    (e.commitWe x).any = false := by
  rw [commitWe]
  split_ifs
  · exact h
  · rfl

theorem WmsrWe.eq_of_any {w : WmsrWe} (h : w.any = false) :
    ∃ b, w = { WmsrWe.none with bankOff := b } := by
  refine ⟨w.bankOff, ?_⟩
  simp only [any, Bool.or_eq_false_iff] at h
  cases w
  simp_all [WmsrWe.none]

/-- Without an exception and without a write the registers stay. -/
theorem Epu.psrNext_eq {e : Epu} {x : EpuIn} (hf : e.s1Fe = Fe.none) (hw : e.s1WmsrWe.any = false)
    (h₁ : x.edtm = false) (h₂ : x.edpf = false) (h₃ : x.ealign = false) : e.psrNext x = e.psr := by
  obtain ⟨b, hc⟩ := WmsrWe.eq_of_any (commitWe_of_none hw x)
  simp only [psrNext, psrWr, psrSave, hc, hf, h₁, h₂, h₃, Fe.none, WmsrWe.none]
  simp [Psr.next, Psr.nold, Psr.wrBit]

end NanoCpu
