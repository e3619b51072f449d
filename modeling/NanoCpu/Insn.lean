/-
**Decoded instructions** (`rtl/core/id_dec.v`, `rtl/core/ncpu64k_config.vh`).

The decoder turns an instruction word into one-hot opcode buses for the functional units, the
exceptions raised in front of the back-end, an immediate and the register numbers.  Everything
behind the decoder works on these buses and never sees the word again, so what the buses can look
like together is a fact about the decoder that the back-end relies on.

Main definitions:

* `AluOpc`, `BruOpc`, `LsuOpc`, `EpuOpc`, `Fe` — the opcode buses and the exception bits;
* `BpuUpd` — what the branch predictor hands along with an instruction;
* `DecInsn` — a decoded instruction as it leaves the decoder;
* `idDec` — the decoder.

Main results:

* `DecInsn.WellFormed` — how the buses exclude each other;
* `idDec_wellFormed` — every word decodes to a well-formed instruction.
-/

import NanoCpu.Rtl

set_option relaxedAutoImplicit false
set_option autoImplicit false

namespace NanoCpu

/-- A logical register number (`NCPU_LRF_AW`). -/
abbrev LReg := Fin 32

/-- A physical register number (`NCPU_PRF_AW`). -/
abbrev PReg := Fin 64

/-! ### The opcode buses -/

structure AluOpc where
  add : Bool
  sub : Bool
  mhi : Bool
  and : Bool
  or : Bool
  xor : Bool
  lsl : Bool
  lsr : Bool
  asr : Bool
  deriving DecidableEq, Repr

structure BruOpc where
  beq : Bool
  bne : Bool
  bgt : Bool
  bgtu : Bool
  ble : Bool
  bleu : Bool
  jmpreg : Bool
  jmprel : Bool
  deriving DecidableEq, Repr

structure LsuOpc where
  load : Bool
  store : Bool
  barr : Bool
  signExt : Bool
  size : BitVec 3
  deriving DecidableEq, Repr

structure EpuOpc where
  wmsr : Bool
  rmsr : Bool
  deriving DecidableEq, Repr

/-- The exceptions known when an instruction is decoded. -/
structure Fe where
  esyscall : Bool
  eret : Bool
  eitm : Bool
  eipf : Bool
  eirq : Bool
  einsn : Bool
  deriving DecidableEq, Repr

def AluOpc.any (o : AluOpc) : Bool :=
  o.add || o.sub || o.mhi || o.and || o.or || o.xor || o.lsl || o.lsr || o.asr

/-- A conditional branch. -/
def BruOpc.isBcc (o : BruOpc) : Bool := o.beq || o.bne || o.bgt || o.bgtu || o.ble || o.bleu

def BruOpc.any (o : BruOpc) : Bool := o.isBcc || o.jmpreg || o.jmprel

def LsuOpc.any (o : LsuOpc) : Bool := o.load || o.store || o.barr || o.signExt || o.size != 0

def EpuOpc.any (o : EpuOpc) : Bool := o.wmsr || o.rmsr

def Fe.any (f : Fe) : Bool := f.esyscall || f.eret || f.eitm || f.eipf || f.eirq || f.einsn

/-- The bits of the exception bus, as they travel in the place of an operand. -/
def Fe.toWord (f : Fe) : Word :=
  BitVec.ofBool f.einsn ++ BitVec.ofBool f.eirq ++ BitVec.ofBool f.eipf ++ BitVec.ofBool f.eitm ++
    BitVec.ofBool f.eret ++ BitVec.ofBool f.esyscall |>.zeroExtend 32

def Fe.ofWord (w : Word) : Fe where
  esyscall := w.getLsbD 0
  eret := w.getLsbD 1
  eitm := w.getLsbD 2
  eipf := w.getLsbD 3
  eirq := w.getLsbD 4
  einsn := w.getLsbD 5

@[simp] theorem Fe.ofWord_toWord (f : Fe) : Fe.ofWord f.toWord = f := by
  obtain ⟨a, b, c, d, e, g⟩ := f
  cases a <;> cases b <;> cases c <;> cases d <;> cases e <;> cases g <;> rfl

/-- What the branch predictor hands along: the counter and the addresses its tables were read at,
the MMU bit of the entry, and the predicted target and direction. -/
structure BpuUpd where
  phtCount : BitVec 2
  phtAddr : ℕ
  btbAddr : ℕ
  imme : Bool
  tgt : Pc
  taken : Bool
  deriving DecidableEq, Repr

/-- An instruction as it leaves the decoder. -/
structure DecInsn where
  alu : AluOpc
  bru : BruOpc
  lsu : LsuOpc
  epu : EpuOpc
  fe : Fe
  bpuUpd : BpuUpd
  pc : Pc
  imm : Word
  lrs1 : LReg
  lrs1Re : Bool
  lrs2 : LReg
  lrs2Re : Bool
  lrd : LReg
  lrdWe : Bool
  deriving DecidableEq, Repr

/-- How the buses of a decoded instruction exclude each other. -/
structure DecInsn.WellFormed (d : DecInsn) : Prop where
  lsu_any : d.lsu.any = true → d.lsu.load = true ∨ d.lsu.store = true ∨ d.lsu.barr = true
  lsu_epu : d.lsu.any = true → d.epu.any = false
  fe_lsu : d.fe.any = true → d.lsu.any = false
  fe_epu : d.fe.any = true → d.epu.any = false
  fe_we : d.fe.any = true → d.lrdWe = false
  store_we : d.lsu.store = true ∨ d.lsu.barr = true ∨ d.epu.wmsr = true → d.lrdWe = false
  load_store : d.lsu.load = true → d.lsu.store = false
  bru_lsu : d.bru.any = true → d.lsu.any = false ∧ d.epu.any = false ∧ d.fe.any = false
  we_lrd : d.lrdWe = true → d.lrd ≠ 0

/-! ### The decoder -/

/-- The buses decoded from the opcode alone. -/
structure OpcDec where
  alu : AluOpc
  bru : BruOpc
  lsu : LsuOpc
  epu : EpuOpc
  esyscall : Bool
  eret : Bool

/-- The opcode part of `id_dec`. -/
def opcDec (op : BitVec 7) : OpcDec where
  alu :=
    { and := op == 0x00 || op == 0x01
      or := op == 0x02 || op == 0x03
      xor := op == 0x04 || op == 0x05
      lsl := op == 0x06 || op == 0x07
      lsr := op == 0x08 || op == 0x09
      asr := op == 0x30 || op == 0x31
      add := op == 0x0a || op == 0x0b
      sub := op == 0x0c
      mhi := op == 0x37 }
  bru :=
    { beq := op == 0x10
      bne := op == 0x11
      bgt := op == 0x12
      bgtu := op == 0x13
      ble := op == 0x14
      bleu := op == 0x15
      jmprel := op == 0x0f || op == 0x0e
      jmpreg := op == 0x0d }
  lsu :=
    { size :=
        if op == 0x1d || op == 0x1c || op == 0x1e then 0
        else if op == 0x1a || op == 0x19 || op == 0x1b then 1
        else if op == 0x17 || op == 0x18 then 2
        else 0
      signExt := op == 0x1d || op == 0x1a
      load := op == 0x1d || op == 0x1c || op == 0x1a || op == 0x19 || op == 0x17
      store := op == 0x1e || op == 0x1b || op == 0x18
      barr := op == 0x20 }
  epu := { wmsr := op == 0x23, rmsr := op == 0x24 }
  esyscall := op == 0x21
  eret := op == 0x22

/-- The link register (`NCPU_REGNO_LNK`). -/
def regnoLnk : LReg := 1

/-- The instruction word, replaced by a NOP if it was not fetched properly or an interrupt takes its
place. -/
def idInst (valid : Bool) (ins : BitVec 32) (eitm eipf irqAsync : Bool) : BitVec 32 :=
  if !(eitm || eipf) && !irqAsync && valid then ins else 0

/-- `id_dec`.  The exceptions of the fetch are a TLB miss (`eitm`) and a page fault (`eipf`). -/
def idDec (valid : Bool) (ins : BitVec 32) (eitm eipf irqAsync : Bool) (pc : Pc) (upd : BpuUpd) :
    DecInsn :=
  let inst := idInst valid ins eitm eipf irqAsync
  let op := inst.extractLsb' 5 7
  let fRd := inst.extractLsb' 0 5
  let fRs1 := inst.extractLsb' 12 5
  let fRs2 := inst.extractLsb' 17 5
  let fImm15 := inst.extractLsb' 17 15
  let fImm17 := inst.extractLsb' 15 17
  let fRel25 := inst.extractLsb' 12 20 ++ inst.extractLsb' 0 5
  let o := opcDec op
  let isBcc := o.bru.isBcc
  let einsn := !(o.alu.any || o.bru.any || (o.lsu.load || o.lsu.store || o.lsu.barr) || o.epu.any ||
    o.esyscall || o.eret)
  let fe : Fe :=
    { esyscall := o.esyscall, eret := o.eret, eitm := eitm && !irqAsync, eipf := eipf && !irqAsync,
      eirq := irqAsync, einsn := einsn }
  let insnRs1Imm15 := op == 0x01 || op == 0x03 || op == 0x05 || op == 0x07 || op == 0x09 ||
    op == 0x31 || op == 0x0b || o.lsu.load || o.epu.rmsr
  let insnRdRs1Imm15 := o.lsu.store || o.epu.wmsr
  let insnUimm17 := o.alu.mhi
  let insnRel25 := o.bru.jmprel
  let useSimm15 := op == 0x05 || op == 0x0b || o.lsu.load || o.lsu.store
  let insnNoRops := o.alu.mhi || o.lsu.barr || o.esyscall || o.eret || o.bru.jmprel
  let notWb := op == 0x0e || isBcc || o.lsu.store || o.lsu.barr || o.epu.wmsr || fe.any
  let rfWaddr : LReg := if op == 0x0f then regnoLnk else fRd.toFin
  let readRdAsRs2 := o.lsu.store || o.epu.wmsr || isBcc
  let imm15 := if useSimm15 then fImm15.signExtend 32 else fImm15.zeroExtend 32
  let rel15 := (fImm15 ++ (0 : BitVec 2)).signExtend 32
  let rel25 := (fRel25 ++ (0 : BitVec 2)).signExtend 32
  let uimm17 := fImm17.zeroExtend 32
  { alu := o.alu
    bru := o.bru
    lsu := o.lsu
    epu := o.epu
    fe := fe
    bpuUpd := upd
    pc := pc
    imm := (if insnRs1Imm15 || insnRdRs1Imm15 then imm15 else 0) |||
      (if isBcc then rel15 else 0) |||
      (if insnRel25 then rel25 else 0) ||| (if insnUimm17 then uimm17 else 0)
    lrs1 := fRs1.toFin
    lrs1Re := !insnNoRops
    lrs2 := if readRdAsRs2 then fRd.toFin else fRs2.toFin
    lrs2Re := (!insnRs1Imm15 && !insnUimm17 && !insnRel25 && !insnNoRops) || readRdAsRs2
    lrd := rfWaddr
    lrdWe := !notWb && rfWaddr != 0 }

/-- How the buses of an opcode exclude each other, checked for each of the 128 opcodes. -/
theorem opcDec_exclusive (op : BitVec 7) :
    ((opcDec op).lsu.any = true → (opcDec op).lsu.load = true ∨ (opcDec op).lsu.store = true ∨
        (opcDec op).lsu.barr = true) ∧
      ((opcDec op).lsu.any = true → (opcDec op).epu.any = false ∧ (opcDec op).bru.any = false ∧
        (opcDec op).esyscall = false ∧ (opcDec op).eret = false) ∧
      ((opcDec op).epu.any = true → (opcDec op).bru.any = false ∧ (opcDec op).esyscall = false ∧
        (opcDec op).eret = false) ∧
      ((opcDec op).lsu.load = true → (opcDec op).lsu.store = false) ∧
      ((opcDec op).bru.any = true → (opcDec op).esyscall = false ∧ (opcDec op).eret = false) := by
  revert op
  decide +kernel

/-- Opcode zero, which a masked instruction decodes as, is an AND. -/
theorem opcDec_zero : (opcDec 0).lsu.any = false ∧ (opcDec 0).epu.any = false ∧
    (opcDec 0).bru.any = false := by
  decide

section IdDec

variable (valid : Bool) (ins : BitVec 32) (eitm eipf irqAsync : Bool) (pc : Pc) (upd : BpuUpd)

/-- The buses are those of some opcode, and an exception excludes the functional units. -/
theorem idDec_buses :
    let d := idDec valid ins eitm eipf irqAsync pc upd
    ∃ op, d.bru = (opcDec op).bru ∧ d.lsu = (opcDec op).lsu ∧ d.epu = (opcDec op).epu ∧
      (d.fe.any = true → d.lsu.any = false ∧ d.epu.any = false ∧ d.bru.any = false) := by
  intro d
  cases hm : !(eitm || eipf) && !irqAsync && valid with
  | false =>
      have hop : (idInst valid ins eitm eipf irqAsync).extractLsb' 5 7 = 0 := by
        rw [idInst, hm, if_neg Bool.false_ne_true]
        decide
      have hl : d.lsu = (opcDec 0).lsu := by simp only [d, idDec, hop]
      have he : d.epu = (opcDec 0).epu := by simp only [d, idDec, hop]
      have hb : d.bru = (opcDec 0).bru := by simp only [d, idDec, hop]
      refine ⟨0, hb, hl, he, fun _ => ?_⟩
      rw [hl, he, hb]
      exact opcDec_zero
  | true =>
      simp only [Bool.and_eq_true, Bool.not_eq_true', Bool.or_eq_false_iff] at hm
      obtain ⟨⟨⟨rfl, rfl⟩, rfl⟩, rfl⟩ := hm
      refine ⟨ins.extractLsb' 5 7, rfl, rfl, rfl, fun hfe => ?_⟩
      obtain ⟨h₁, h₂, h₃, -, h₅⟩ := opcDec_exclusive (ins.extractLsb' 5 7)
      have hl : d.lsu = (opcDec (ins.extractLsb' 5 7)).lsu := rfl
      have he : d.epu = (opcDec (ins.extractLsb' 5 7)).epu := rfl
      have hb : d.bru = (opcDec (ins.extractLsb' 5 7)).bru := rfl
      have hf : d.fe = ⟨(opcDec (ins.extractLsb' 5 7)).esyscall,
        (opcDec (ins.extractLsb' 5 7)).eret, false, false, false, d.fe.einsn⟩ := rfl
      have hi : d.fe.einsn = !((opcDec (ins.extractLsb' 5 7)).alu.any ||
        (opcDec (ins.extractLsb' 5 7)).bru.any || ((opcDec (ins.extractLsb' 5 7)).lsu.load ||
        (opcDec (ins.extractLsb' 5 7)).lsu.store || (opcDec (ins.extractLsb' 5 7)).lsu.barr) ||
        (opcDec (ins.extractLsb' 5 7)).epu.any || (opcDec (ins.extractLsb' 5 7)).esyscall ||
        (opcDec (ins.extractLsb' 5 7)).eret) := rfl
      rw [hf, hi] at hfe
      rw [hl, he, hb]
      generalize opcDec (ins.extractLsb' 5 7) = o at *
      grind [Fe.any]

/-- **Every word decodes to a well-formed instruction.** -/
theorem idDec_wellFormed : (idDec valid ins eitm eipf irqAsync pc upd).WellFormed := by
  obtain ⟨op, hb, hl, he, hfe⟩ := idDec_buses valid ins eitm eipf irqAsync pc upd
  obtain ⟨h₁, h₂, h₃, h₄, h₅⟩ := opcDec_exclusive op
  set d := idDec valid ins eitm eipf irqAsync pc upd with hd
  have hw : d.lrdWe = (!((idInst valid ins eitm eipf irqAsync).extractLsb' 5 7 == 0x0e ||
    d.bru.isBcc || d.lsu.store || d.lsu.barr || d.epu.wmsr || d.fe.any) && d.lrd != 0) := rfl
  refine ⟨?_, ?_, fun h => (hfe h).1, fun h => (hfe h).2.1, ?_, ?_, ?_, ?_, ?_⟩
  · rwa [hl]
  · rw [hl, he]
    exact fun h => (h₂ h).1
  · intro h
    rw [hw, h]
    simp
  · intro h
    rw [hw]
    rcases h with h | h | h <;> simp [h]
  · rwa [hl]
  · intro h
    refine ⟨?_, ?_, ?_⟩
    · rw [hb] at h
      rw [hl]
      by_contra hne
      simp [(h₂ (by simpa using hne)).2.1] at h
    · rw [hb] at h
      rw [he]
      by_contra hne
      simp [(h₃ (by simpa using hne)).1] at h
    · by_contra hne
      simp [(hfe (by simpa using hne)).2.2] at h
  · intro h
    rw [hw, Bool.and_eq_true, bne_iff_ne] at h
    exact h.2

end IdDec

end NanoCpu
