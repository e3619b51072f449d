/-
**The reference model** (`em/csrc/cpu.cc`, `isa.hh`, `mmu.cc`, `memory.hh`).

The emulator that the processor is compared with executes one instruction at a time.  This module is
the part of `CPU::step` that follows the fetch: the decoding of the word, and one case for each
opcode.  What the emulator prints, its call stack and its counters are left out; so is the code
behind the MSR instructions, which is a parameter (`MsrCode`).  The bytes that are seen through the
D-cache and those in memory are kept apart: `phy_readm*` and `phy_writem*` of `Memory` and `Cache`
do the same to either.

Main definitions:

* `Em.Cpu`, `Em.Config` — the state of the emulator, and its parameters;
* `Em.Op` — the opcodes;
* `Em.Bytes`, `Em.phyReadm32`, `Em.phyWritem32`, … — little-endian accesses to bytes;
* `Em.Cpu.dmmuTranslateVma` — address translation;
* `Em.Cpu.execute` — one instruction.
-/

import NanoCpu.Axi
import NanoCpu.Insn

set_option relaxedAutoImplicit false
set_option autoImplicit false

namespace NanoCpu

namespace Em

/-! ### Opcodes and fields -/

/-- The opcodes `INS32_OP_*` that the emulator executes. -/
inductive Op
  | and | andI | or | orI | xor | xorI | lsl | lslI | lsr | lsrI | add | addI | sub
  | jmp | jmpI | jmpILnk | beq | bne | bgt | bgtu | ble | bleu
  | ldwu | stw | ldhu | ldh | sth | ldbu | ldb | stb
  | barr | syscall | rete | wmsr | rmsr
  | asr | asrI | mul | div | divu | mod | modu | mhi
  deriving DecidableEq, Repr

def Op.code : Op → ℕ
  | and => 0x0
  | andI => 0x1
  | or => 0x2
  | orI => 0x3
  | xor => 0x4
  | xorI => 0x5
  | lsl => 0x6
  | lslI => 0x7
  | lsr => 0x8
  | lsrI => 0x9
  | add => 0xa
  | addI => 0xb
  | sub => 0xc
  | jmp => 0xd
  | jmpI => 0xe
  | jmpILnk => 0xf
  | beq => 0x10
  | bne => 0x11
  | bgt => 0x12
  | bgtu => 0x13
  | ble => 0x14
  | bleu => 0x15
  | ldwu => 0x17
  | stw => 0x18
  | ldhu => 0x19
  | ldh => 0x1a
  | sth => 0x1b
  | ldbu => 0x1c
  | ldb => 0x1d
  | stb => 0x1e
  | barr => 0x20
  | syscall => 0x21
  | rete => 0x22
  | wmsr => 0x23
  | rmsr => 0x24
  | asr => 0x30
  | asrI => 0x31
  | mul => 0x32
  | div => 0x33
  | divu => 0x34
  | mod => 0x35
  | modu => 0x36
  | mhi => 0x37

def Op.all : List Op :=
  [and, andI, or, orI, xor, xorI, lsl, lslI, lsr, lsrI, add, addI, sub, jmp, jmpI,
    jmpILnk, beq, bne,
    bgt, bgtu, ble, bleu, ldwu, stw, ldhu, ldh, sth, ldbu, ldb, stb, barr, syscall, rete,
      wmsr, rmsr, asr, asrI, mul, div, divu, mod, modu, mhi]

/-- The case of the `switch` that an opcode selects; none is the default. -/
def Op.ofCode (c : ℕ) : Option Op := Op.all.find? fun o => o.code == c

/-- `INS32_GET_BITS`. -/
def getBits (mask : Word) (sh : ℕ) (insn : Word) : Word := (insn &&& mask) >>> sh

def opcode (insn : Word) : ℕ := (getBits 0x00000fe0 5 insn).toNat

/-- A register number is below 32. -/
def regNo (w : Word) : LReg := Fin.ofNat 32 w.toNat

def rd (insn : Word) : LReg := regNo (getBits 0x0000001f 0 insn)

def rs1 (insn : Word) : LReg := regNo (getBits 0x0001f000 12 insn)

def rs2 (insn : Word) : LReg := regNo (getBits 0x003e0000 17 insn)

def uimm17 (insn : Word) : Word := getBits 0xffff8000 15 insn

/-- `uimm15` and `rel15`, 16-bit variables. -/
def uimm15 (insn : Word) : BitVec 16 := (getBits 0xfffe0000 17 insn).setWidth 16

/-- `simm15`, sign-extended inside 16 bits. -/
def simm15 (insn : Word) : BitVec 16 := (uimm15 insn ^^^ 0x4000) - 0x4000

/-- `ins32_parse_rel25`. -/
def parseRel25 (insn : Word) : Word :=
  (insn &&& (0x1f : Word)) ||| (((insn >>> 12) &&& (0xfffff : Word)) <<< 5)

def rel25SigExt (rel25 : Word) : Word := ((rel25 <<< 2) ^^^ 0x4000000) - 0x4000000

def rel15SigExt (rel15 : BitVec 16) : Word := ((rel15.setWidth 32 <<< 2) ^^^ 0x10000) - 0x10000

/-! ### Bytes -/

/-- The bytes behind `Memory`, or those seen through `Cache`. -/
abbrev Bytes := Word → Byte

def phyReadm8 (m : Bytes) (a : Word) : Byte := m a

def phyReadm16 (m : Bytes) (a : Word) : BitVec 16 :=
  ((m (a + 1)).setWidth 16 <<< 8) ||| (m a).setWidth 16

def phyReadm32 (m : Bytes) (a : Word) : Word :=
  ((m (a + 3)).setWidth 32 <<< 24) ||| ((m (a + 2)).setWidth 32 <<< 16) |||
    ((m (a + 1)).setWidth 32 <<< 8) ||| (m a).setWidth 32

def phyWritem8 (m : Bytes) (a : Word) (v : Byte) : Bytes := Function.update m a v

def phyWritem16 (m : Bytes) (a : Word) (v : BitVec 16) : Bytes :=
  phyWritem8 (phyWritem8 m a (v.setWidth 8)) (a + 1) ((v >>> 8).setWidth 8)

def phyWritem32 (m : Bytes) (a : Word) (v : Word) : Bytes :=
  phyWritem8 (phyWritem8 (phyWritem8 (phyWritem8 m a (v.setWidth 8)) (a + 1) ((v >>> 8).setWidth 8))
    (a + 2) ((v >>> 16).setWidth 8)) (a + 3) ((v >>> 24).setWidth 8)

/-! ### The state -/

/-- `psr_s`. -/
structure PsrS where
  cy : Bool
  ov : Bool
  oe : Bool
  rm : Bool
  ire : Bool
  imme : Bool
  dmme : Bool
  ice : Bool
  dce : Bool

/-- `dtlbl_s`. -/
structure DtlbL where
  v : Bool
  vpn : Word

/-- The fields of `dtlbh_s` that translation reads. -/
structure DtlbH where
  uw : Bool
  ur : Bool
  rw : Bool
  rr : Bool
  nc : Bool
  ppn : Word

/-- The parameters of the emulator. -/
structure Config where
  dmmuTlbCount : ℕ
  dmmuEnableUncachedSeg : Bool
  vectEINSN : Word
  vectESYSCALL : Word
  vectEDPF : Word
  vectEDTM : Word

/-- The registers, the MSRs of exceptions and translation, and the bytes. -/
structure Cpu where
  r : LReg → Word
  psr : PsrS
  epsr : PsrS
  epc : Word
  elsa : Word
  evect : Word
  dtlbL : ℕ → DtlbL
  dtlbH : ℕ → DtlbH
  mem : Bytes
  dcache : Bytes

/-- `CPU::wmsr` and `CPU::rmsr`, none where they panic. -/
structure MsrCode where
  wmsr : Cpu → BitVec 16 → Word → Option Cpu
  rmsr : Cpu → BitVec 16 → Option Word

/-- The label that a case leaves by. -/
inductive Exit
  | fetchNext | flushPc | handleException
  deriving DecidableEq, Repr

/-- What a step gives: the state, `pc_nxt`, and the label. -/
structure Step where
  cpu : Cpu
  pcNxt : Word
  exit : Exit

namespace Cpu

variable (c : Cpu)

def getReg (l : LReg) : Word := if l = 0 then 0 else c.r l

def setReg (l : LReg) (v : Word) : Cpu :=
  if l = 0 then c else { c with r := Function.update c.r l v }

/-- `raise_exception`; `lsa` is none where the vector is none of those that set `ELSA`. -/
def raiseException (pc vector : Word) (lsa : Option Word) (isSyscall : Bool) : Step where
  cpu :=
    { c with
      elsa := lsa.getD c.elsa
      epc := pc + if isSyscall then 4 else 0
      epsr := c.psr
      psr := { c.psr with rm := true, imme := false, dmme := false, ire := false } }
  pcNxt := (c.evect &&& 0xffffff00) ||| (vector &&& 0xff)
  exit := .handleException

inductive MmuFault
  | tlbMiss | pageFault
  deriving DecidableEq, Repr

/-- `dmmu_translate_vma`: the physical address, and whether it is uncached. -/
def dmmuTranslateVma (C : Config) (va : Word) (store : Bool) : Except MmuFault (Word × Bool) :=
  if c.psr.dmme then
    let vpn := va >>> 13
    let l := c.dtlbL (vpn.toNat &&& (C.dmmuTlbCount - 1))
    let h := c.dtlbH (vpn.toNat &&& (C.dmmuTlbCount - 1))
    if l.v && l.vpn == vpn then
      if (c.psr.rm && ((store && !h.rw) || (!store && !h.rr))) ||
          (!c.psr.rm && ((store && !h.uw) || (!store && !h.ur))) then
        .error .pageFault
      else
        let uncached := h.nc || (C.dmmuEnableUncachedSeg && !(h.ppn >>> 18).getLsbD 0)
        .ok ((h.ppn <<< 13) ||| (va &&& 0x1fff), uncached || !c.psr.dce)
    else .error .tlbMiss
  else .ok (va, (C.dmmuEnableUncachedSeg && va >>> 31 == 0) || !c.psr.dce)

/-- The bytes that an access goes to. -/
def bytes (uncached : Bool) : Bytes := if uncached then c.mem else c.dcache

def setBytes (uncached : Bool) (m : Bytes) : Cpu :=
  if uncached then { c with mem := m } else { c with dcache := m }

/-! ### The cases of the switch -/

/-- The exit of a case that breaks. -/
def break_ (pc : Word) : Step := ⟨c, pc + 4, .fetchNext⟩

/-- A load or a store of `size` bytes at `get_reg(rs1) + simm15`; `check_vma_align` panics. -/
def accessMem (C : Config) (pc insn : Word) (size : ℕ) (store : Bool)
    (k : Word → Bool → Step) : Option Step :=
  let va := c.getReg (rs1 insn) + (simm15 insn).signExtend 32
  if va.toNat % size ≠ 0 then none
  else
    match c.dmmuTranslateVma C va store with
    | .error .pageFault => some (c.raiseException pc C.vectEDPF (some va) false)
    | .error .tlbMiss => some (c.raiseException pc C.vectEDTM (some va) false)
    | .ok (pa, uncached) => some (k pa uncached)

/-- A load of `size` bytes, extended by `ext`. -/
def load (C : Config) (pc insn : Word) (size : ℕ) (ext : Bytes → Word → Word) : Option Step :=
  c.accessMem C pc insn size false fun pa uncached =>
    (c.setReg (rd insn) (ext (c.bytes uncached) pa)).break_ pc

/-- A store of `size` bytes of `get_reg(rd)`. -/
def store (C : Config) (pc insn : Word) (size : ℕ) (wr : Bytes → Word → Word → Bytes) :
    Option Step :=
  c.accessMem C pc insn size true fun pa uncached =>
    (c.setBytes uncached (wr (c.bytes uncached) pa (c.getReg (rd insn)))).break_ pc

/-- The condition of a branch. -/
def cc (op : Op) (a b : Word) : Bool :=
  match op with
  | .beq => a == b
  | .bne => a != b
  | .bgt => decide (a.toInt > b.toInt)
  | .bgtu => decide (a.toNat > b.toNat)
  | .ble => decide (a.toInt ≤ b.toInt)
  | .bleu => decide (a.toNat ≤ b.toNat)
  | _ => false

/-- A shift whose count is the value `b`, which C++ defines below 32. -/
def shift (f : ℕ → Word) (b : Word) : Option Word := if b.toNat < 32 then some (f b.toNat) else none

/-- A signed division, which is not defined where it overflows. -/
def signedDiv (f : Word → Word → Word) (a b : Word) : Option Word :=
  if b = 0 ∨ (a = BitVec.intMin 32 ∧ b = -1) then none else some (f a b)

/-- The cases that set `rd`, and the value they set it to. -/
def value (M : MsrCode) (insn : Word) : Op → Option Word
  | .and => some (c.getReg (rs1 insn) &&& c.getReg (rs2 insn))
  | .andI => some (c.getReg (rs1 insn) &&& (uimm15 insn).setWidth 32)
  | .or => some (c.getReg (rs1 insn) ||| c.getReg (rs2 insn))
  | .orI => some (c.getReg (rs1 insn) ||| (uimm15 insn).setWidth 32)
  | .xor => some (c.getReg (rs1 insn) ^^^ c.getReg (rs2 insn))
  | .xorI => some (c.getReg (rs1 insn) ^^^ (simm15 insn).signExtend 32)
  | .lsl => shift (c.getReg (rs1 insn) <<< ·) (c.getReg (rs2 insn))
  | .lslI => shift (c.getReg (rs1 insn) <<< ·) ((uimm15 insn).setWidth 32)
  | .lsr => shift (c.getReg (rs1 insn) >>> ·) (c.getReg (rs2 insn))
  | .lsrI => shift (c.getReg (rs1 insn) >>> ·) ((uimm15 insn).setWidth 32)
  | .add => some (c.getReg (rs1 insn) + c.getReg (rs2 insn))
  | .addI => some (c.getReg (rs1 insn) + (simm15 insn).signExtend 32)
  | .sub => some (c.getReg (rs1 insn) - c.getReg (rs2 insn))
  | .rmsr => M.rmsr c ((c.getReg (rs1 insn) ||| (uimm15 insn).setWidth 32).setWidth 16)
  | .asr => shift (c.getReg (rs1 insn)).sshiftRight (c.getReg (rs2 insn))
  | .asrI => shift (c.getReg (rs1 insn)).sshiftRight ((uimm15 insn).setWidth 32)
  | .mul => some (c.getReg (rs1 insn) * c.getReg (rs2 insn))
  | .div => signedDiv BitVec.sdiv (c.getReg (rs1 insn)) (c.getReg (rs2 insn))
  | .divu =>
      if c.getReg (rs2 insn) = 0 then none else some (c.getReg (rs1 insn) / c.getReg (rs2 insn))
  | .mod => signedDiv BitVec.srem (c.getReg (rs1 insn)) (c.getReg (rs2 insn))
  | .modu =>
      if c.getReg (rs2 insn) = 0 then none else some (c.getReg (rs1 insn) % c.getReg (rs2 insn))
  | .mhi => some (uimm17 insn <<< 15)
  | _ => none

/-- Decoding and execution in `CPU::step`; none where the emulator stops. -/
def execute (C : Config) (M : MsrCode) (pc insn : Word) : Option Step :=
  match Op.ofCode (opcode insn) with
  | none => some (c.raiseException pc C.vectEINSN (some pc) false)
  | some op =>
      match op with
      | .jmp =>
          let c' := c.setReg (rd insn) (pc + 4)
          some ⟨c', c'.getReg (rs1 insn), .flushPc⟩
      | .jmpI => some ⟨c, pc + rel25SigExt (parseRel25 insn), .flushPc⟩
      | .jmpILnk =>
          some ⟨c.setReg regnoLnk (pc + 4), pc + rel25SigExt (parseRel25 insn), .flushPc⟩
      | .beq | .bne | .bgt | .bgtu | .ble | .bleu =>
          if cc op (c.getReg (rs1 insn)) (c.getReg (rd insn)) then
            some ⟨c, pc + rel15SigExt (uimm15 insn), .flushPc⟩
          else some (c.break_ pc)
      | .ldwu => c.load C pc insn 4 phyReadm32
      | .stw => c.store C pc insn 4 phyWritem32
      | .ldhu => c.load C pc insn 2 fun m a => (phyReadm16 m a).setWidth 32
      | .ldh => c.load C pc insn 2 fun m a => ((phyReadm16 m a).setWidth 32 ^^^ 0x8000) - 0x8000
      | .sth => c.store C pc insn 2 fun m a v => phyWritem16 m a (v.setWidth 16)
      | .ldbu => c.load C pc insn 1 fun m a => (phyReadm8 m a).setWidth 32
      | .ldb => c.load C pc insn 1 fun m a => ((phyReadm8 m a).setWidth 32 ^^^ 0x80) - 0x80
      | .stb => c.store C pc insn 1 fun m a v => phyWritem8 m a (v.setWidth 8)
      | .barr => some (c.break_ pc)
      | .syscall =>
          if uimm15 insn = 0x90d ∨ uimm15 insn = 0xbad then none
          else some (c.raiseException pc C.vectESYSCALL none true)
      | .rete => some ⟨{ c with psr := c.epsr }, c.epc, .handleException⟩
      | .wmsr =>
          (M.wmsr c ((c.getReg (rs1 insn) ||| (uimm15 insn).setWidth 32).setWidth 16)
            (c.getReg (rd insn))).map fun c' => c'.break_ pc
      | op => (c.value M insn op).map fun v => (c.setReg (rd insn) v).break_ pc

end Cpu

end Em

end NanoCpu
