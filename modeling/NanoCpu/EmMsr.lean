/-
**The machine state registers of the reference model** (`em/csrc/msr.cc`, `tsc.cc`, `irqc.cc`,
`mmu.cc`, `cpu.cc`, `cpu.hh`).

`Em.Cpu` holds the registers that the execution of an instruction reads.  Here it is extended by
those that only the MSR instructions, the timer, the interrupts and the fetch see.  The code of the
caches behind `ICINV`, `DCINV` and `DCFLS` is a parameter (`CacheCode`).  What the emulator prints
is left out.

Main definitions:

* `Em.MsrConfig`, `Em.MsrCpu` — the parameters and the state;
* `Em.Msr` — a register, `Em.wmsrIndex`, `Em.rmsrIndex` — the register that an index names in
  `CPU::wmsr` and in `CPU::rmsr`;
* `Em.MsrCpu.wmsr`, `Em.MsrCpu.rmsr` — a write and a read;
* `Em.MsrCpu.tscClk`, `Em.MsrCpu.tscUpdateTcr` — the timer;
* `Em.MsrCpu.immuTranslateVma` — the translation of a fetch;
* `Em.Cause`, `Em.MsrCpu.stepRaise` — the calls of `raise_exception`.
-/

import NanoCpu.Em

set_option relaxedAutoImplicit false
set_option autoImplicit false

namespace NanoCpu

namespace Em

/-! ### The state -/

/-- `itlbl_s`. -/
structure ItlbL where
  v : Bool
  vpn : Word

/-- The fields of `itlbh_s` that translation reads. -/
structure ItlbH where
  ux : Bool
  rx : Bool
  nc : Bool
  ppn : Word

/-- `tcr_s`. -/
structure TcrS where
  cnt : Word
  en : Bool
  i : Bool
  p : Bool
  deriving DecidableEq

/-- The parameters of the emulator. -/
structure MsrConfig extends Config where
  immuTlbCount : ℕ
  immuEnableUncachedSeg : Bool
  irqTsc : ℕ
  vectEIRQ : Word
  vectEIPF : Word
  vectEITM : Word
  vectEALIGN : Word
  enableIcache : Bool
  enableDcache : Bool
  enableDbg : Bool
  immuTlbCountLog2 : Word
  dmmuTlbCountLog2 : Word
  icachePWays : Word
  icachePSets : Word
  icachePLine : Word
  dcachePWays : Word
  dcachePSets : Word
  dcachePLine : Word

/-- The state with the rest of `msr_s`. -/
structure MsrCpu extends Cpu where
  itlbL : ℕ → ItlbL
  itlbH : ℕ → ItlbH
  tsr : Word
  tcr : TcrS
  imr : Word
  irr : Word
  sr : ℕ → Word

/-- `Cache::invalidate` and `Cache::flush` of the two caches. -/
structure CacheCode where
  icInvalidate : MsrCpu → Word → MsrCpu
  dcInvalidate : MsrCpu → Word → MsrCpu
  dcFlush : MsrCpu → Word → MsrCpu

/-- The settings of `Args` in `main.cc`. -/
def MsrConfig.default : MsrConfig where
  dmmuTlbCount := 16
  dmmuEnableUncachedSeg := true
  vectEINSN := 0x04
  vectESYSCALL := 0x0c
  vectEDPF := 0x18
  vectEDTM := 0x20
  immuTlbCount := 16
  immuEnableUncachedSeg := true
  irqTsc := 0
  vectEIRQ := 0x08
  vectEIPF := 0x14
  vectEITM := 0x1c
  vectEALIGN := 0x24
  enableIcache := true
  enableDcache := true
  enableDbg := true
  immuTlbCountLog2 := 4
  dmmuTlbCountLog2 := 4
  icachePWays := 1
  icachePSets := 4
  icachePLine := 6
  dcachePWays := 1
  dcachePSets := 4
  dcachePLine := 6

/-- Memory that is all zero. -/
def MsrCpu.zero : MsrCpu where
  r := fun _ => 0
  psr := ⟨false, false, false, false, false, false, false, false, false⟩
  epsr := ⟨false, false, false, false, false, false, false, false, false⟩
  epc := 0
  elsa := 0
  evect := 0
  dtlbL := fun _ => ⟨false, 0⟩
  dtlbH := fun _ => ⟨false, false, false, false, false, 0⟩
  mem := fun _ => 0
  dcache := fun _ => 0
  itlbL := fun _ => ⟨false, 0⟩
  itlbH := fun _ => ⟨false, false, false, 0⟩
  tsr := 0
  tcr := ⟨0, false, false, false⟩
  imr := 0
  irr := 0
  sr := fun _ => 0

/-- `msr_s::reset`: it leaves the other registers, `TCR` among them, as they are. -/
def MsrCpu.reset (c : MsrCpu) : MsrCpu :=
  { c with
    psr := ⟨false, false, false, true, false, false, false, false, false⟩
    evect := 0
    tsr := 0
    imr := 0xffffffff
    irr := 0 }

/-- The code of caches that are not enabled. -/
def CacheCode.disabled : CacheCode := ⟨fun c _ => c, fun c _ => c, fun c _ => c⟩

/-! ### Packing and unpacking -/

/-- `msr_unpack_bit` of every bit of the PSR. -/
def PsrS.unpack (val : Word) : PsrS where
  cy := val.getLsbD 1
  ov := val.getLsbD 2
  oe := val.getLsbD 3
  rm := val.getLsbD 4
  ire := val.getLsbD 5
  imme := val.getLsbD 6
  dmme := val.getLsbD 7
  ice := val.getLsbD 8
  dce := val.getLsbD 9

/-- `msr_pack_bit`. -/
def packBit (b : Bool) (sh : ℕ) : Word := (if b then 1 else 0 : Word) <<< sh

/-- `msr_pack_bit` of every bit of the PSR. -/
def PsrS.pack (p : PsrS) : Word :=
  packBit p.cy 1 ||| packBit p.ov 2 ||| packBit p.oe 3 ||| packBit p.rm 4 ||| packBit p.ire 5 |||
    packBit p.imme 6 ||| packBit p.dmme 7 ||| packBit p.ice 8 ||| packBit p.dce 9

/-- `val_pack_field`. -/
def packField (mask : Word) (sh : ℕ) (val : Word) : Word := (val <<< sh) &&& mask

/-- `MSR_ITLBL_VPN` and the other page numbers. -/
def unpackPage (val : Word) : Word := (val &&& ~~~(0x1fff : Word)) >>> 13

def TcrS.unpack (val : Word) : TcrS where
  cnt := val &&& 0x0fffffff
  en := val.getLsbD 28
  i := val.getLsbD 29
  p := val.getLsbD 30

def TcrS.pack (t : TcrS) : Word :=
  packField 0x0fffffff 0 t.cnt ||| packBit t.en 28 ||| packBit t.i 29 ||| packBit t.p 30

def ItlbL.unpack (val : Word) : ItlbL := ⟨val.getLsbD 0, unpackPage val⟩

def ItlbH.unpack (val : Word) : ItlbH :=
  ⟨val.getLsbD 3, val.getLsbD 4, val.getLsbD 7, unpackPage val⟩

def DtlbL.unpack (val : Word) : DtlbL := ⟨val.getLsbD 0, unpackPage val⟩

def DtlbH.unpack (val : Word) : DtlbH :=
  ⟨val.getLsbD 3, val.getLsbD 4, val.getLsbD 5, val.getLsbD 6, val.getLsbD 7, unpackPage val⟩

/-! ### Bits of packed registers -/

theorem packBit_getLsbD (b : Bool) (sh j : ℕ) (h : sh < 32) :
    (packBit b sh).getLsbD j = (b && decide (j = sh)) := by
  cases b with
  | false => simp [packBit]
  | true =>
      simp only [packBit, if_true, BitVec.ofNat_eq_ofNat, BitVec.getLsbD_shiftLeft,
        BitVec.getLsbD_one, Bool.true_and]
      rw [Bool.eq_iff_iff]
      simp only [Bool.and_eq_true, Bool.not_eq_true', decide_eq_true_eq, decide_eq_false_iff_not]
      omega

/-- Two words agree in their low bits. -/
theorem low_eq_iff {n : ℕ} (a b : Word) :
    a.extractLsb' 0 n = b.extractLsb' 0 n ↔ ∀ j < n, a.getLsbD j = b.getLsbD j := by
  constructor
  · intro h j hj
    have := congrArg (fun w : BitVec n => w.getLsbD j) h
    simpa [hj] using this
  · intro h
    apply BitVec.eq_of_getLsbD_eq
    intro j hj
    simpa [hj] using h j hj

/-- The mask of the field CNT. -/
theorem cntMask_getLsbD (j : ℕ) : (0x0fffffff#32).getLsbD j = decide (j < 28) := by
  by_cases hj : j < 32
  · interval_cases j <;> decide
  · rw [BitVec.getLsbD_of_ge _ _ (by omega)]
    simp
    omega

theorem and_cntMask_eq_iff (a b : Word) :
    a &&& 0x0fffffff = b &&& 0x0fffffff ↔ a.extractLsb' 0 28 = b.extractLsb' 0 28 := by
  rw [low_eq_iff]
  constructor
  · intro h j hj
    have := congrArg (fun w : Word => w.getLsbD j) h
    simpa [BitVec.getLsbD_and, cntMask_getLsbD, hj] using this
  · intro h
    apply BitVec.eq_of_getLsbD_eq
    intro j _
    by_cases hj : j < 28
    · simp only [BitVec.getLsbD_and, h j hj]
    · simp [BitVec.getLsbD_and, cntMask_getLsbD, hj]

theorem TcrS.pack_getLsbD (t : TcrS) (j : ℕ) :
    t.pack.getLsbD j =
      if j < 28 then t.cnt.getLsbD j else if j = 28 then t.en else if j = 29 then t.i
      else t.p && decide (j = 30) := by
  simp only [TcrS.pack, packField, BitVec.getLsbD_or, BitVec.getLsbD_and, BitVec.shiftLeft_zero,
    BitVec.ofNat_eq_ofNat, cntMask_getLsbD, packBit_getLsbD _ 28 j (by decide),
    packBit_getLsbD _ 29 j (by decide), packBit_getLsbD _ 30 j (by decide)]
  by_cases h28 : j < 28
  · simp [h28, show j ≠ 28 by omega, show j ≠ 29 by omega, show j ≠ 30 by omega]
  · by_cases h : j = 28 ∨ j = 29
    · rcases h with rfl | rfl <;> simp
    · simp [h28, show j ≠ 28 by omega, show j ≠ 29 by omega]

/-! ### The registers by their index -/

/-- The registers that the emulator knows. -/
inductive Msr
  | psr | cpuid | epsr | epc | elsa | coreid | evect
  | immid | itlbl (n : ℕ) | itlbh (n : ℕ)
  | dmmid | dtlbl (n : ℕ) | dtlbh (n : ℕ)
  | icid | icinv | dcid | dcinv | dcfls
  | numport | msgport | tscl | tsch
  | imr | irr | tsr | tcr
  | sr (n : ℕ)
  deriving DecidableEq, Repr

/-- The loop that decodes the one-hot number of a scratch register. -/
def srDecode : ℕ → ℕ → ℕ → Option ℕ
  | 0, _, _ => none
  | fuel + 1, index, i =>
      if index = 0 then none
      else if index % 2 = 1 then some i
      else srDecode fuel (index / 2) (i + 1)

/-- The register of bank SR that an index names; `MSR_SR_NUM` is 4. -/
def srIndex (index : ℕ) : Option Msr :=
  if 0x1000 ≤ index ∧ index ≤ 0x100f then (srDecode 16 (index - 0x1000) 0).map .sr else none

/-- The register of a TLB half whose first index is `base`. -/
def tlbIndex (base count : ℕ) (r : ℕ → Msr) (index : ℕ) : Option Msr :=
  if base ≤ index ∧ index < base + count then some (r (index - base)) else none

/-- The cases of `CPU::wmsr`; none is the panic at an invalid index. -/
def wmsrIndex (C : MsrConfig) (index : ℕ) : Option Msr :=
  if index = 0xa01 then some .numport
  else if index = 0xa02 then some .msgport
  else if index = 0x1 then some .psr
  else if index = 0x4 then some .epsr
  else if index = 0x8 then some .epc
  else if index = 0x10 then some .elsa
  else if index = 0x40 then some .evect
  else if index = 0x602 then some .icinv
  else if index = 0x802 then some .dcinv
  else if index = 0x804 then some .dcfls
  else if index = 0xe01 then some .tsr
  else if index = 0xe02 then some .tcr
  else if index = 0xc01 then some .imr
  else
    tlbIndex 0x300 C.immuTlbCount .itlbl index <|> tlbIndex 0x380 C.immuTlbCount .itlbh index <|>
      tlbIndex 0x500 C.dmmuTlbCount .dtlbl index <|> tlbIndex 0x580 C.dmmuTlbCount .dtlbh index <|>
      srIndex index

/-- The cases of `CPU::rmsr`. -/
def rmsrIndex (index : ℕ) : Option Msr :=
  if index = 0x1 then some .psr
  else if index = 0x2 then some .cpuid
  else if index = 0x4 then some .epsr
  else if index = 0x8 then some .epc
  else if index = 0x10 then some .elsa
  else if index = 0x40 then some .evect
  else if index = 0x20 then some .coreid
  else if index = 0x200 then some .immid
  else if index = 0x400 then some .dmmid
  else if index = 0x601 then some .icid
  else if index = 0x801 then some .dcid
  else if index = 0xe01 then some .tsr
  else if index = 0xe02 then some .tcr
  else if index = 0xc01 then some .imr
  else if index = 0xc02 then some .irr
  else if index = 0xa04 then some .tscl
  else if index = 0xa08 then some .tsch
  else srIndex index

/-- The effective index of WMSR and RMSR in `CPU::step`: `get_reg(rs1) | uimm15`, cut to
`msr_index_t`. -/
def msrIndex (base : Word) (imm : BitVec 15) : BitVec 16 := (base ||| imm.setWidth 32).setWidth 16

namespace MsrCpu

variable (c : MsrCpu) (C : MsrConfig)

/-! ### Interrupts and the timer -/

/-- `irqc_set_interrupt`. -/
def irqcSetInterrupt (channel : ℕ) (raise : Bool) : MsrCpu :=
  if raise then { c with irr := c.irr ||| ((1 : Word) <<< channel) }
  else { c with irr := c.irr &&& ~~~((1 : Word) <<< channel) }

/-- `irqc_handle_irqs` asks for an interrupt exception. -/
def irqcHandleIrqs : Bool := c.psr.ire && (c.irr &&& ~~~c.imr) != 0

/-- `tsc_update_tcr`. -/
def tscUpdateTcr : MsrCpu := c.irqcSetInterrupt C.irqTsc (c.tcr.p && c.tcr.i)

/-- `tsc_clk`: a clock edge of the timer. -/
def tscClk : MsrCpu :=
  if c.tcr.en then
    let c' := if c.tcr.i && (c.tsr &&& 0x0fffffff) == c.tcr.cnt then
        tscUpdateTcr { c with tcr := { c.tcr with p := true } } C
      else c
    { c' with tsr := c'.tsr + 1 }
  else c

/-! ### Writing and reading -/

/-- A write of a register. -/
def setMsr (K : CacheCode) (r : Msr) (val : Word) : MsrCpu :=
  match r with
  | .psr => { c with psr := PsrS.unpack val }
  | .epsr => { c with epsr := PsrS.unpack val }
  | .epc => { c with epc := val }
  | .elsa => { c with elsa := val }
  | .evect => { c with evect := val }
  | .icinv => K.icInvalidate c val
  | .dcinv => K.dcInvalidate c val
  | .dcfls => K.dcFlush c val
  | .tsr => { c with tsr := val }
  | .tcr => tscUpdateTcr { c with tcr := TcrS.unpack val } C
  | .imr => { c with imr := val }
  | .itlbl n => { c with itlbL := Function.update c.itlbL n (ItlbL.unpack val) }
  | .itlbh n => { c with itlbH := Function.update c.itlbH n (ItlbH.unpack val) }
  | .dtlbl n => { c with dtlbL := Function.update c.dtlbL n (DtlbL.unpack val) }
  | .dtlbh n => { c with dtlbH := Function.update c.dtlbH n (DtlbH.unpack val) }
  | .sr n => { c with sr := Function.update c.sr n val }
  | _ => c

/-- The value of a register. -/
def getMsr (r : Msr) : Word :=
  match r with
  | .psr => c.psr.pack
  | .cpuid =>
      packField 0x000000ff 0 1 ||| packField 0x0003ff00 8 0 ||| packBit true 18 |||
        packBit true 19 |||
        packBit C.enableIcache 20 ||| packBit C.enableDcache 21 ||| packBit C.enableDbg 22 |||
        packBit false 23 ||| packBit true 24 ||| packBit true 25
  | .epsr => c.epsr.pack
  | .epc => c.epc
  | .elsa => c.elsa
  | .evect => c.evect
  | .coreid => 0
  | .immid => packField 0x7 0 C.immuTlbCountLog2
  | .dmmid => packField 0x7 0 C.dmmuTlbCountLog2
  | .icid =>
      packField 0xf 0 C.icachePSets ||| packField 0xf0 4 C.icachePLine |||
        packField 0xf00 8 C.icachePWays
  | .dcid =>
      packField 0xf 0 C.dcachePSets ||| packField 0xf0 4 C.dcachePLine |||
        packField 0xf00 8 C.dcachePWays
  | .tsr => c.tsr
  | .tcr => c.tcr.pack
  | .imr => c.imr
  | .irr => c.irr
  | .tscl | .tsch => 0xffffffff
  | .sr n => c.sr n
  | _ => 0

/-- `CPU::wmsr`: the debug ports are open in every mode, the rest in root mode. -/
def wmsr (K : CacheCode) (index : BitVec 16) (val : Word) : Option MsrCpu :=
  match wmsrIndex C index.toNat with
  | some .numport => some c
  | some .msgport => some c
  | some r => some (if c.psr.rm then c.setMsr C K r val else c)
  | none => if c.psr.rm then none else some c

/-- `CPU::rmsr`. -/
def rmsr (index : BitVec 16) : Option Word :=
  if c.psr.rm then (rmsrIndex index.toNat).map (c.getMsr C) else some 0

/-! ### The fetch -/

/-- `immu_translate_vma`: the physical address, and whether it is uncached. -/
def immuTranslateVma (va : Word) : Except Cpu.MmuFault (Word × Bool) :=
  if c.psr.imme then
    let vpn := va >>> 13
    let l := c.itlbL (vpn.toNat &&& (C.immuTlbCount - 1))
    let h := c.itlbH (vpn.toNat &&& (C.immuTlbCount - 1))
    if l.v && l.vpn == vpn then
      if (c.psr.rm && !h.rx) || (!c.psr.rm && !h.ux) then .error .pageFault
      else
        let uncached := h.nc || (C.immuEnableUncachedSeg && !(h.ppn >>> 18).getLsbD 0)
        .ok ((h.ppn <<< 13) ||| (va &&& 0x1fff), uncached || !c.psr.ice)
    else .error .tlbMiss
  else .ok (va, (C.immuEnableUncachedSeg && va >>> 31 == 0) || !c.psr.ice)

end MsrCpu

/-! ### Exceptions -/

/-- The causes for which `CPU::step` raises an exception. -/
inductive Cause
  | eirq | eipf | eitm | ealign | edpf | edtm | esyscall | einsn
  deriving DecidableEq, Repr

def MsrConfig.vect (C : MsrConfig) : Cause → Word
  | .eirq => C.vectEIRQ
  | .eipf => C.vectEIPF
  | .eitm => C.vectEITM
  | .ealign => C.vectEALIGN
  | .edpf => C.vectEDPF
  | .edtm => C.vectEDTM
  | .esyscall => C.vectESYSCALL
  | .einsn => C.vectEINSN

/-- The test of `raise_exception`: these vectors set `ELSA`. -/
def MsrConfig.setsElsa (C : MsrConfig) (vector : Word) : Bool :=
  vector == C.vectEITM || vector == C.vectEIPF || vector == C.vectEINSN || vector == C.vectEDTM ||
    vector == C.vectEDPF || vector == C.vectEALIGN

/-- `raise_exception`, with its test of the vector. -/
def Cpu.raise (c : Cpu) (C : MsrConfig) (pc vector lsa : Word) (isSyscall : Bool) : Step :=
  c.raiseException pc vector (if C.setsElsa vector then some lsa else none) isSyscall

/-- The call of `raise_exception` in `CPU::step`, for an instruction at `pc` that accesses `va`. -/
def Cpu.stepRaise (c : Cpu) (C : MsrConfig) (pc va : Word) (k : Cause) : Step :=
  match k with
  | .eirq => c.raise C pc C.vectEIRQ 0 false
  | .eipf => c.raise C pc C.vectEIPF pc false
  | .eitm => c.raise C pc C.vectEITM pc false
  | .ealign => c.raise C pc C.vectEALIGN va false
  | .edpf => c.raise C pc C.vectEDPF va false
  | .edtm => c.raise C pc C.vectEDTM va false
  | .esyscall => c.raise C pc C.vectESYSCALL 0 true
  | .einsn => c.raise C pc C.vectEINSN pc false

end Em

end NanoCpu
