/-
**The load/store unit of commit** (`rtl/core/cmt_lsu.v`, `dmmu.v`).

A load or a store runs at commit, in three stages: the request goes to the D-cache and the data MMU;
the translated page number, the exceptions of the MMU and a misaligned address, which kill the
request, arrive a cycle later; the data of a load is aligned when the cache has it.  The MSR
operations on the D-cache take the same way with an address of their own.  The cache itself is not
part of this module: its stall request and its output are inputs here.

Main definitions:

* `Dmmu`, `Dmmu.next` — the TLB with its registered lookup, `Dmmu.edtm`, `Dmmu.edpf`, `Dmmu.ppn`,
  `Dmmu.uncached` — the answer;
* `LsuReq`, `LsuIn` — the request with what goes to the cache, and the inputs of one cycle;
* `Lsu`, `Lsu.next` — the registers between the stages.
-/

import NanoCpu.Insn
import NanoCpu.Rtl

set_option relaxedAutoImplicit false
set_option autoImplicit false

namespace NanoCpu

/-- A page number (`CONFIG_AW - CONFIG_P_PAGE_SIZE` bits). -/
abbrev Ppn := BitVec 19

/-- An index of a TLB of `2 ^ p` entries (`CONFIG_DTLB_P_SETS`, `CONFIG_ITLB_P_SETS`). -/
abbrev TlbIdx (p : ℕ) := BitVec p

/-- Both TLBs of the chip have 16 entries. -/
abbrev tlbP : ℕ := 4

/-- A write of one half of a TLB entry. -/
structure TlbWr (p : ℕ) where
  we : Bool
  idx : TlbIdx p
  nxt : Word

/-! ### The data MMU -/

/-- The two halves of the TLB, and the registers that a lookup loads. -/
structure Dmmu (p : ℕ) where
  tlbL : TlbIdx p → Word
  tlbH : TlbIdx p → Word
  dmmeFf : Bool
  rmFf : Bool
  weFf : Bool
  vpnFf : Ppn
  tlbLFf : Word
  tlbHFf : Word

namespace Dmmu

variable {p : ℕ}

def reset : Dmmu p where
  tlbL := fun _ => 0
  tlbH := fun _ => 0
  dmmeFf := false
  rmFf := false
  weFf := false
  vpnFf := 0
  tlbLFf := 0
  tlbHFf := 0

/-- A write port of one half of the TLB. -/
def write (t : TlbWr p) (m : TlbIdx p → Word) : TlbIdx p → Word :=
  if t.we then Function.update m t.idx t.nxt else m

def next (m : Dmmu p) (re : Bool) (vpn : Ppn) (we dmme rm : Bool) (tlbl tlbh : TlbWr p) :
    Dmmu p where
  tlbL := write tlbl m.tlbL
  tlbH := write tlbh m.tlbH
  dmmeFf := ldff re dmme m.dmmeFf
  rmFf := ldff re rm m.rmFf
  weFf := ldff re we m.weFf
  vpnFf := ldff re vpn m.vpnFf
  tlbLFf := ldff re (m.tlbL (vpn.extractLsb' 0 p)) m.tlbLFf
  tlbHFf := ldff re (m.tlbH (vpn.extractLsb' 0 p)) m.tlbHFf

variable (m : Dmmu p)

def tlbMiss : Bool := !(m.tlbLFf.getLsbD 0 && m.tlbLFf.extractLsb' 13 19 == m.vpnFf)

def permDenied : Bool :=
  (m.rmFf && ((m.weFf && !m.tlbHFf.getLsbD 5) || (!m.weFf && !m.tlbHFf.getLsbD 6))) ||
    (!m.rmFf && ((m.weFf && !m.tlbHFf.getLsbD 3) || (!m.weFf && !m.tlbHFf.getLsbD 4)))

/-- The TLB miss exception. -/
def edtm : Bool := m.tlbMiss && m.dmmeFf

/-- The page fault exception. -/
def edpf : Bool := m.permDenied && !m.tlbMiss && m.dmmeFf

def ppn : Ppn := if m.dmmeFf then m.tlbHFf.extractLsb' 13 19 else m.vpnFf

/-- `seg` is `CONFIG_DMMU_ENABLE_UNCACHED_SEG`: the lower half of the address space is uncached. -/
def uncached (seg : Bool) : Bool :=
  (m.dmmeFf && !m.tlbMiss && !m.permDenied && m.tlbHFf.getLsbD 7) ||
    (seg && !m.edtm && !m.edpf && !m.ppn.msb)

/-- The registers of a lookup, and with them the answer, stay until the next lookup. -/
theorem next_of_not_re (m : Dmmu p) (vpn : Ppn) (we dmme rm : Bool) (tlbl tlbh : TlbWr p) :
    (m.next false vpn we dmme rm tlbl tlbh).edtm = m.edtm ∧
      (m.next false vpn we dmme rm tlbl tlbh).edpf = m.edpf := ⟨rfl, rfl⟩

end Dmmu

/-! ### The request -/

/-- The request of commit, and the D-cache operation of the EPU. -/
structure LsuReq where
  reqValid : Bool
  opc : LsuOpc
  lsa : Word
  wdat : Word
  dcinvWe : Bool
  dcinvNxt : Word
  dcflsWe : Bool
  dcflsNxt : Word

/-- The inputs of one cycle: the request, the bits of the PSR, the TLB writes, and the clock enables
of the stages. -/
structure LsuIn extends LsuReq where
  psrDmme : Bool
  psrRm : Bool
  psrDce : Bool
  tlbl : TlbWr tlbP
  tlbh : TlbWr tlbP
  pCeS1 : Bool
  pCeS2 : Bool

namespace LsuReq

variable (x : LsuReq)

def dcop : Bool := x.dcinvWe || x.dcflsWe

/-- `s1i_valid`. -/
def valid : Bool := x.reqValid && (x.opc.load || x.opc.store || x.dcop)

/-- `s1i_dc_vaddr`. -/
def vaddr : Word := if x.dcinvWe then x.dcinvNxt else if x.dcflsWe then x.dcflsNxt else x.lsa

def misalign : Bool :=
  (x.opc.size == 2 && x.vaddr.extractLsb' 0 2 != 0) || (x.opc.size == 1 && x.vaddr.getLsbD 0)

/-- The store data, repeated over the word. -/
def dcWdat : Word :=
  (if x.opc.size == 2 then x.wdat else 0) |||
    (if x.opc.size == 1 then x.wdat.extractLsb' 0 16 ++ x.wdat.extractLsb' 0 16 else 0) |||
    (if x.opc.size == 0 then
      x.wdat.extractLsb' 0 8 ++ x.wdat.extractLsb' 0 8 ++ x.wdat.extractLsb' 0 8 ++
        x.wdat.extractLsb' 0 8
    else 0)

/-- The write byte mask. -/
def dcWmsk : BitVec 4 :=
  if x.opc.store then
    (if x.opc.size == 2 then 0b1111 else 0) |||
      (if x.opc.size == 1 then if x.vaddr.getLsbD 1 then 0b1100 else 0b0011 else 0) |||
      (if x.opc.size == 0 then (1 : BitVec 4) <<< (x.vaddr.extractLsb' 0 2).toNat else 0)
  else 0

end LsuReq

/-- `s1i_dc_req`: the request is held back until the pipeline moves. -/
def LsuIn.dcReq (x : LsuIn) : Bool := x.pCeS1 && x.valid

def LsuIn.tlbReq (x : LsuIn) : Bool := x.dcReq && !x.dcop

/-! ### The pipeline -/

/-- The registers behind the first (`s1`) and the second (`s2`) stage. -/
structure Lsu where
  s1Valid : Bool
  s1Size : BitVec 3
  s1SignExt : Bool
  s1Vaddr : Word
  s1Dcop : Bool
  s1Ealign : Bool
  s1PsrDce : Bool
  s2Valid : Bool
  s2Size : BitVec 3
  s2SignExt : Bool
  s2Vaddr : Word
  s2Edtm : Bool
  s2Edpf : Bool
  s2Ealign : Bool
  dmmu : Dmmu tlbP

namespace Lsu

def reset : Lsu where
  s1Valid := false
  s1Size := 0
  s1SignExt := false
  s1Vaddr := 0
  s1Dcop := false
  s1Ealign := false
  s1PsrDce := false
  s2Valid := false
  s2Size := 0
  s2SignExt := false
  s2Vaddr := 0
  s2Edtm := false
  s2Edpf := false
  s2Ealign := false
  dmmu := Dmmu.reset

def next (s : Lsu) (x : LsuIn) : Lsu where
  s1Valid := ldff x.pCeS1 x.valid s.s1Valid
  s1Size := ldff x.pCeS1 x.opc.size s.s1Size
  s1SignExt := ldff x.pCeS1 x.opc.signExt s.s1SignExt
  s1Vaddr := ldff x.pCeS1 x.vaddr s.s1Vaddr
  s1Dcop := ldff x.pCeS1 x.dcop s.s1Dcop
  s1Ealign := ldff x.pCeS1 x.misalign s.s1Ealign
  s1PsrDce := ldff x.pCeS1 x.psrDce s.s1PsrDce
  s2Valid := ldff x.pCeS2 s.s1Valid s.s2Valid
  s2Size := ldff x.pCeS2 s.s1Size s.s2Size
  s2SignExt := ldff x.pCeS2 s.s1SignExt s.s2SignExt
  s2Vaddr := ldff x.pCeS2 s.s1Vaddr s.s2Vaddr
  s2Edtm := ldff x.pCeS2 s.dmmu.edtm s.s2Edtm
  s2Edpf := ldff x.pCeS2 s.dmmu.edpf s.s2Edpf
  s2Ealign := ldff x.pCeS2 s.s1Ealign s.s2Ealign
  dmmu := s.dmmu.next x.tlbReq (x.vaddr.extractLsb' 13 19) x.opc.store x.psrDmme x.psrRm
    x.tlbl x.tlbh

variable (s : Lsu)

/-- `s2i_kill_req`: the cache drops the request of the stage before. -/
def killReq : Bool := s.dmmu.edtm || s.dmmu.edpf || s.s1Ealign

/-- `s2i_uncached`. -/
def uncached (seg : Bool) : Bool := s.dmmu.uncached seg || !s.s1PsrDce

/-- `s2i_dc_ppn`: the address of a D-cache operation is not translated. -/
def dcPpn : Ppn := if s.s1Dcop then s.s1Vaddr.extractLsb' 13 19 else s.dmmu.ppn

def edtm : Bool := s.s2Valid && s.s2Edtm

def edpf : Bool := s.s2Valid && s.s2Edpf

def ealign : Bool := s.s2Valid && s.s2Ealign

/-- Any exception of the unit. -/
def exc : Bool := s.edtm || s.edpf || s.ealign

/-- `lsu_wb_valid`. -/
def wbValid (pCeS3 : Bool) : Bool := s.s2Valid && pCeS3

/-- The byte and the half word that the address selects. -/
def dout8 (dout : Word) : BitVec 8 := dout.extractLsb' (8 * (s.s2Vaddr.extractLsb' 0 2).toNat) 8

def dout16 (dout : Word) : BitVec 16 :=
  if s.s2Vaddr.getLsbD 1 then dout.extractLsb' 16 16 else dout.extractLsb' 0 16

/-- `lsu_wb_dout` from the output of the cache. -/
def wbDout (dout : Word) : Word :=
  (if s.s2Size == 2 then dout else 0) |||
    (if s.s2Size == 1 then
      if s.s2SignExt then (s.dout16 dout).signExtend 32 else (s.dout16 dout).zeroExtend 32
    else 0) |||
    (if s.s2Size == 0 then
      if s.s2SignExt then (s.dout8 dout).signExtend 32 else (s.dout8 dout).zeroExtend 32
    else 0)

end Lsu

end NanoCpu
