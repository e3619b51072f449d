/-
**The address of a machine state register at both levels** (`rtl/core/ex_pipe.v`, `cmt_epu.v`,
`em/csrc/cpu.cc`, `msr.cc`).

WMSR and RMSR name a register by a base register and an immediate.  The circuit adds the two and
decodes a bank and the bits of the offset; the emulator takes their OR and compares it with
constants.

Main definitions:

* `msrAddr` — the address that the circuit computes, `msrOverlap` — the bits that base and immediate
  share;
* `EpuReq.writes`, `EpuReq.reads` — the registers that a request selects;
* `Em.Msr.addr` — the index of a register in `isa.hh`;
* `WriteAligned`, `ReadAligned` — the operands for which both levels mean the same register.

Main results:

* `opera_of_msr` — the address generator computes `msrAddr`;
* `EpuIn.readMsr_of_reads` — what is read is the register that is selected;
* `msr_addressing_iff` — the circuit selects exactly the emulator's register for these operands.
-/

import NanoCpu.Conform
import NanoCpu.Translate

set_option relaxedAutoImplicit false
set_option autoImplicit false

namespace NanoCpu

open Em

/-! ### The address -/

/-- The sum of the base and the immediate. -/
def msrAddr (base : Word) (imm : BitVec 15) : Word := base + imm.setWidth 32

/-- The bits that the base and the immediate share. -/
def msrOverlap (base : Word) (imm : BitVec 15) : BitVec 14 := base.setWidth 14 &&& imm.setWidth 14

/-- The words of WMSR (`0x23`) and RMSR (`0x24`). -/
def IsMsrWord (ins : BitVec 32) : Prop := ins.extractLsb' 5 7 = 0x23 ∨ ins.extractLsb' 5 7 = 0x24

/-- What the decoder makes of an MSR instruction. -/
theorem idDec_msr {ins : BitVec 32} (h : IsMsrWord ins) (pc : Pc) (upd : BpuUpd) :
    (idDec true ins false false false pc upd).imm = (ins.extractLsb' 17 15).setWidth 32 ∧
      (idDec true ins false false false pc upd).fe.any = false ∧
      (idDec true ins false false false pc upd).epu.any = true ∧
      (fun d : DecInsn => d.alu.sub || d.bru.beq || d.bru.bne || d.bru.bgtu || d.bru.bgt ||
        d.bru.bleu || d.bru.ble) (idDec true ins false false false pc upd) = false := by
  have himm : (idDec true ins false false false pc upd).imm =
      (ins.extractLsb' 17 15).zeroExtend 32 ||| 0 ||| 0 ||| 0 := by
    rcases h with h | h <;>
      simp only [idDec, idInst, Bool.or_false, Bool.not_false, Bool.and_true, if_true] <;>
        rw [h] <;> rfl
  refine ⟨by simpa using himm, ?_, ?_, ?_⟩ <;> rcases h with h | h <;>
    simp only [idDec, idInst, Bool.or_false, Bool.not_false, Bool.and_true, if_true] <;>
      rw [h] <;> rfl

/-- The address generator computes the sum. -/
theorem opera_of_msr {ins : BitVec 32} (h : IsMsrWord ins) (pc : Pc) (upd : BpuUpd)
    (base v : Word) : ((idDec true ins false false false pc upd).opp.exPipe true base v).opera =
      msrAddr base (ins.extractLsb' 17 15) := by
  obtain ⟨h₁, h₂, h₃, h₄⟩ := idDec_msr h pc upd
  generalize idDec true ins false false false pc upd = d at *
  simp only [Opp.exPipe, Opp.addOut, DecInsn.opp, h₁, h₂, h₃, h₄, Bool.or_true, if_true,
    Bool.and_false, Bool.false_eq_true, if_false, maddCO_add, msrAddr]

/-! ### Sums and carries -/

/-- The sum is the OR and the bits that both have. -/
theorem add_eq_or_add_and {w : ℕ} (x y : BitVec w) : x + y = (x ||| y) + (x &&& y) := by
  have hx : x = (x &&& ~~~y) + (x &&& y) := by
    rw [BitVec.add_eq_or_of_and_eq_zero]
    · ext i hi
      simp
      cases x[i] <;> cases y[i] <;> rfl
    · ext i hi
      simp
      cases x[i] <;> cases y[i] <;> simp
  have hor : x ||| y = (x &&& ~~~y) + y := by
    rw [BitVec.add_eq_or_of_and_eq_zero]
    · ext i hi
      simp
      cases x[i] <;> cases y[i] <;> rfl
    · ext i hi
      simp
  calc x + y = (x &&& ~~~y) + (x &&& y) + y := by rw [← hx]
    _ = (x &&& ~~~y) + y + (x &&& y) := by
      rw [BitVec.add_assoc, BitVec.add_comm (x &&& y), ← BitVec.add_assoc]
    _ = (x ||| y) + (x &&& y) := by rw [hor]

theorem eq_add_of_and_eq {w : ℕ} {a d : BitVec w} (h : a &&& d = d) : a = d + (a &&& ~~~d) := by
  rw [BitVec.add_eq_or_of_and_eq_zero]
  · ext i hi
    have hi' := congrArg (fun v : BitVec w => v[i]) h
    simp only [BitVec.getElem_and] at hi'
    simp only [BitVec.getElem_or, BitVec.getElem_and, BitVec.getElem_not]
    revert hi'
    cases a[i] <;> cases d[i] <;> simp
  · ext i hi
    simp only [BitVec.getElem_and, BitVec.getElem_not, BitVec.getElem_zero]
    cases a[i] <;> cases d[i] <;> rfl

/-- A sum that keeps the bits of the OR has no carries. -/
theorem and_eq_zero_of_add_and {w : ℕ} {x y : BitVec w} (h : (x + y) &&& (x ||| y) = x ||| y) :
    x &&& y = 0 := by
  have hc : x &&& y = (x + y) &&& ~~~(x ||| y) :=
    (BitVec.add_right_inj _).1 ((add_eq_or_add_and x y).symm.trans (eq_add_of_and_eq h))
  have hs : x &&& y = (x &&& y) &&& (x ||| y) := by
    ext i hi
    simp only [BitVec.getElem_or, BitVec.getElem_and]
    cases x[i] <;> cases y[i] <;> rfl
  rw [hs, hc]
  ext i hi
  simp only [BitVec.getElem_and, BitVec.getElem_not, BitVec.getElem_or]
  cases (x + y)[i] <;> cases x[i] <;> cases y[i] <;> simp

/-! ### What a request selects -/

/-- The selected registers of a list. -/
def selected (l : List (Bool × Msr)) : List Msr := (l.filter Prod.fst).map Prod.snd

/-- The request of an MSR instruction. -/
def msrReq (opc : EpuOpc) (addr : Word) : EpuReq where
  reqValid := true
  opc := opc
  exc := false
  fe := Fe.none
  pc := 0
  npc := 0
  addr := addr
  wdat := 0

namespace EpuReq

variable (x : EpuReq)

/-- A WMSR to the bank of the debug ports, which are there in simulation (`NCPU_ENABLE_MSGPORT`). -/
def wmsrDbg : Bool := x.reqValid && x.opc.wmsr && x.addr.extractLsb' 9 5 == 5

/-- The index of a write of a TLB of `2 ^ p` entries. -/
def tlbIdx (p : ℕ) : ℕ := (x.wmsrWe.bankOff.setWidth p : TlbIdx p).toNat

/-- The select lines of the writes and operations, with TLBs of `2 ^ pI` and of `2 ^ pD` entries. -/
def writeSel (pI pD : ℕ) : List (Bool × Msr) :=
  [(x.wmsrWe.psr, .psr), (x.wmsrWe.epsr, .epsr), (x.wmsrWe.epc, .epc), (x.wmsrWe.elsa, .elsa),
    (x.wmsrWe.evect, .evect), (x.wmsrWe.immTlbl, .itlbl (x.tlbIdx pI)),
    (x.wmsrWe.immTlbh, .itlbh (x.tlbIdx pI)), (x.wmsrWe.dmmTlbl, .dtlbl (x.tlbIdx pD)),
    (x.wmsrWe.dmmTlbh, .dtlbh (x.tlbIdx pD)), (x.icInvWe, .icinv),
    (x.dcinvWe, .dcinv), (x.dcflsWe, .dcfls), (x.wmsrDbg && x.bankOff.getLsbD 0, .numport),
    (x.wmsrDbg && x.bankOff.getLsbD 1, .msgport), (x.wmsrWe.irqcImr, .imr), (x.wmsrWe.tscTsr, .tsr),
    (x.wmsrWe.tscTcr, .tcr), (x.wmsrWe.bankOff.getLsbD 0 && x.wmsrWe.sr, .sr 0),
    (x.wmsrWe.bankOff.getLsbD 1 && x.wmsrWe.sr, .sr 1),
    (x.wmsrWe.bankOff.getLsbD 2 && x.wmsrWe.sr, .sr 2),
    (x.wmsrWe.bankOff.getLsbD 3 && x.wmsrWe.sr, .sr 3)]

/-- The registers that a request writes, or operates on. -/
def writes (pI pD : ℕ) : List Msr := selected (x.writeSel pI pD)

/-- The scratch register that `pmux` reads. -/
def srNo : Fin 4 :=
  if x.bankOff.getLsbD 0 then 0 else if x.bankOff.getLsbD 1 then 1 else
    if x.bankOff.getLsbD 2 then 2
  else if x.bankOff.getLsbD 3 then 3 else 0

/-- The select lines of the read-out. -/
def readSel : List (Bool × Msr) :=
  [(x.bank .ps && x.bankOff.getLsbD 0, .psr), (x.bank .ps && x.bankOff.getLsbD 1, .cpuid),
    (x.bank .ps && x.bankOff.getLsbD 2, .epsr), (x.bank .ps && x.bankOff.getLsbD 3, .epc),
    (x.bank .ps && x.bankOff.getLsbD 4, .elsa), (x.bank .ps && x.bankOff.getLsbD 5, .coreid),
    (x.bank .imm && !x.bankOff.getLsbD 8, .immid), (x.bank .dmm && !x.bankOff.getLsbD 8, .dmmid),
    (x.bank .ic && x.bankOff.getLsbD 0, .icid), (x.bank .dc && x.bankOff.getLsbD 0, .dcid),
    (x.bank .irqc && x.bankOff.getLsbD 0, .imr), (x.bank .irqc && x.bankOff.getLsbD 1, .irr),
    (x.bank .tsc && x.bankOff.getLsbD 0, .tsr), (x.bank .tsc && x.bankOff.getLsbD 1, .tcr),
    (x.bank .sr, .sr x.srNo)]

/-- The registers that a request reads. -/
def reads : List Msr := selected x.readSel

/-! ### The read-out -/

theorem readBits_cons (p : Bool × Word) (l : List (Bool × Word)) :
    readBits (p :: l) = (if p.1 then p.2 else 0) ||| readBits l := by
  have h : ∀ (l : List (Bool × Word)) (a : Word),
      l.foldl (fun a p => a ||| if p.1 then p.2 else 0) a = a ||| readBits l := by
    intro l
    induction l with
    | nil =>
        intro a
        simp [readBits]
    | cons q l ih =>
        intro a
        have hq : readBits (q :: l) = (if q.1 then q.2 else 0) ||| readBits l := by
          rw [readBits, List.foldl_cons, ih]
          simp
        rw [List.foldl_cons, ih, hq, BitVec.or_assoc]
  rw [readBits, List.foldl_cons, h]
  simp

/-- One selected register is read alone. -/
theorem readBits_of_selected {l : List (Bool × Msr)} {m : Msr} (f : Msr → Word)
    (h : selected l = [m]) : readBits (l.map fun p => (p.1, f p.2)) = f m := by
  have hnil : ∀ l : List (Bool × Msr), selected l = [] →
      readBits (l.map fun p => (p.1, f p.2)) = 0 := by
    intro l
    induction l with
    | nil => exact fun _ => rfl
    | cons p l ih =>
        intro hl
        obtain ⟨b, r⟩ := p
        cases b with
        | true => simp [selected] at hl
        | false =>
            rw [List.map_cons, readBits_cons, ih (by simpa [selected] using hl)]
            simp
  induction l with
  | nil => simp [selected] at h
  | cons p l ih =>
      obtain ⟨b, r⟩ := p
      rw [List.map_cons, readBits_cons]
      cases b with
      | true =>
          obtain ⟨rfl, hl⟩ : r = m ∧ selected l = [] := by simpa [selected] using h
          rw [hnil l hl]
          simp
      | false =>
          rw [ih (by simpa [selected] using h)]
          simp

end EpuReq

/-- The values that the read-out joins. -/
def EpuIn.msrVal (x : EpuIn) (psr : Psr) (imr : Word) : Msr → Word
  | .psr => psr.psr.zeroExtend 32
  | .cpuid => x.rd.cpuid
  | .epsr => psr.epsr.zeroExtend 32
  | .epc => psr.epc
  | .elsa => psr.elsa
  | .coreid => x.rd.coreid
  | .immid => x.rd.immid
  | .dmmid => x.rd.dmmid
  | .icid => x.rd.icid
  | .dcid => x.rd.dcid
  | .imr => imr
  | .irr => x.rd.irr
  | .tsr => x.rd.tsr
  | .tcr => x.rd.tcr
  | .sr n => psr.sr (Fin.ofNat 4 n)
  | _ => 0

/-- **What is read** is the register that is selected. -/
theorem EpuIn.readMsr_of_reads {x : EpuIn} {m : Msr} (h : x.reads = [m]) (psr : Psr) (imr : Word) :
    x.readMsr psr imr = x.msrVal psr imr m := by
  rw [← EpuReq.readBits_of_selected (x.msrVal psr imr) h]
  have hz (v : Word) : v ||| 0 = v := BitVec.or_zero
  have hand (a b : Bool) (v : Word) : (if a && b then v else 0) = if a then if b then v else
      0 else 0 := by
    cases a <;> cases b <;> rfl
  have hor (a : Bool) (v w : Word) :
      (if a then v ||| w else 0) = (if a then v else 0) ||| if a then w else 0 := by
    cases a <;> simp
  have hsr : x.readSr psr.sr = x.msrVal psr imr (.sr x.srNo) := by
    simp only [EpuReq.readSr, EpuReq.srNo, EpuIn.msrVal]
    split_ifs <;> rfl
  simp only [EpuIn.readMsr, EpuReq.readSel, List.map_cons, List.map_nil, EpuReq.readBits_cons, hsr,
    show EpuReq.readBits [] = 0 from rfl, hz]
  simp only [hand, hor, BitVec.or_assoc, EpuIn.msrVal]

/-! ### The index of a register -/

/-- The index of a register in `isa.hh`. -/
def Em.Msr.addr : Msr → ℕ
  | .psr => 0x1
  | .cpuid => 0x2
  | .epsr => 0x4
  | .epc => 0x8
  | .elsa => 0x10
  | .coreid => 0x20
  | .evect => 0x40
  | .immid => 0x200
  | .itlbl n => 0x300 + n
  | .itlbh n => 0x380 + n
  | .dmmid => 0x400
  | .dtlbl n => 0x500 + n
  | .dtlbh n => 0x580 + n
  | .icid => 0x601
  | .icinv => 0x602
  | .dcid => 0x801
  | .dcinv => 0x802
  | .dcfls => 0x804
  | .numport => 0xa01
  | .msgport => 0xa02
  | .tscl => 0xa04
  | .tsch => 0xa08
  | .imr => 0xc01
  | .irr => 0xc02
  | .tsr => 0xe01
  | .tcr => 0xe02
  | .sr n => 0x1000 + 2 ^ n

/-- What a WMSR to an address of 14 bits writes. -/
def writesAt (pI pD : ℕ) (a : BitVec 14) : List Msr :=
  (msrReq ⟨true, false⟩ (a.setWidth 32)).writes pI pD

/-- What an RMSR of an address of 14 bits reads. -/
def readsAt (a : BitVec 14) : List Msr := (msrReq ⟨false, true⟩ (a.setWidth 32)).reads

theorem or_of_ite_some {p : Prop} [Decidable p] {a m : Msr} {o : Option Msr}
    (h : (if p then some a else o) = some m) : p ∧ m = a ∨ o = some m := by
  split_ifs at h with hp
  · exact .inl ⟨hp, (Option.some.inj h).symm⟩
  · exact .inr h

theorem eq_of_tlbIndex {base count d : ℕ} {r : ℕ → Msr} {m : Msr}
    (h : tlbIndex base count r d = some m) : ∃ n < count, d = base + n ∧ m = r n := by
  simp only [tlbIndex, Option.ite_none_right_eq_some, Option.some.injEq] at h
  exact ⟨d - base, by omega, by omega, h.2.symm⟩

/-- The bank of a register is not that of the scratch registers. -/
theorem srIndex_eq_none {d : ℕ} (hd : d < 0x1000) : srIndex d = none := by
  rw [srIndex, if_neg (by omega)]

variable {pI pD : ℕ}

/-- A WMSR to a bank of the MMUs. -/
theorem EpuReq.writes_of_mmu (pI pD : ℕ) {x : EpuReq} (hv : x.reqValid = true)
    (hw : x.opc.wmsr = true) : (x.addr.extractLsb' 9 5 = 1 → x.writes pI pD =
      selected [(x.bankOff.getLsbD 8 && !x.bankOff.getLsbD 7, .itlbl (x.tlbIdx pI)),
        (x.bankOff.getLsbD 8 && x.bankOff.getLsbD 7, .itlbh (x.tlbIdx pI))]) ∧
    (x.addr.extractLsb' 9 5 = 2 → x.writes pI pD =
      selected [(x.bankOff.getLsbD 8 && !x.bankOff.getLsbD 7, .dtlbl (x.tlbIdx pD)),
        (x.bankOff.getLsbD 8 && x.bankOff.getLsbD 7, .dtlbh (x.tlbIdx pD))]) := by
  constructor <;> intro h <;>
    simp [writes, writeSel, wmsrWe, wmsr, icInvWe, dcinvWe, dcflsWe, wmsrDbg, bank,
      MsrBank.addr, selected, List.filter_cons, h, hv, hw]

/-- The entries of a TLB are numbered from a multiple of their number on. -/
theorem tlbNumber {p n c : ℕ} (hp : p ≤ 7) (h : n < 2 ^ p) (hc : c < 2) :
    ((BitVec.ofNat 9 (256 + 128 * c + n)).setWidth p).toNat = n := by
  have hn : n < 128 := lt_of_lt_of_le h (Nat.pow_le_pow_right (by decide) hp)
  obtain ⟨d, hd⟩ : 2 ^ p ∣ 256 + 128 * c := by
    have h7 : 2 ^ p ∣ 128 := Nat.pow_dvd_pow 2 hp
    exact (h7.mul_left 2).add (h7.mul_right c)
  rw [BitVec.toNat_setWidth, BitVec.toNat_ofNat, Nat.mod_eq_of_lt (a := 256 + 128 * c + n)
    (by omega), hd, Nat.mul_add_mod, Nat.mod_eq_of_lt h]

/-- The writes of the entries of one TLB, whose bank is the `b`-th of the MMUs. -/
theorem writesAt_entry {p b n : ℕ} {lo hi : ℕ → Msr} (hp : p ≤ 7) (hb : b < 2) (h : n < 2 ^ p)
    (hw : ∀ a : Word, let x := msrReq ⟨true, false⟩ a
      a.extractLsb' 9 5 = BitVec.ofNat 5 (1 + b) → x.writes pI pD =
        selected [(x.bankOff.getLsbD 8 && !x.bankOff.getLsbD 7, lo (x.tlbIdx p)),
          (x.bankOff.getLsbD 8 && x.bankOff.getLsbD 7, hi (x.tlbIdx p))]) :
    writesAt pI pD (BitVec.ofNat 14 (0x300 + 0x200 * b + n)) = [lo n] ∧
      writesAt pI pD (BitVec.ofNat 14 (0x380 + 0x200 * b + n)) = [hi n] := by
  have hn : n < 128 := lt_of_lt_of_le h (Nat.pow_le_pow_right (by decide) hp)
  have hbits : ∀ n < 128, (BitVec.ofNat 9 (256 + n)).getLsbD 8 = true ∧
      (BitVec.ofNat 9 (256 + n)).getLsbD 7 = false ∧
      (BitVec.ofNat 9 (384 + n)).getLsbD 8 = true ∧
        (BitVec.ofNat 9 (384 + n)).getLsbD 7 = true := by
    decide
  have haddr : ∀ n < 128, ∀ b < 2, ∀ c < 2,
      let a := (BitVec.ofNat 14 (0x300 + 0x80 * c + 0x200 * b + n)).setWidth 32
      a.extractLsb' 9 5 = BitVec.ofNat 5 (1 + b) ∧ a.extractLsb' 0 9 =
        BitVec.ofNat 9 (256 + 128 * c + n) := by
    decide +kernel
  obtain ⟨e₁, e₂, e₃, e₄⟩ := hbits n hn
  simp only [EpuReq.tlbIdx, EpuReq.wmsrWe, EpuReq.bankOff, msrReq] at hw
  constructor
  · obtain ⟨k₁, k₂⟩ := haddr n hn b hb 0 (by decide)
    refine (hw _ k₁).trans ?_
    rw [k₂, tlbNumber hp h (by decide)]
    simp only [Nat.mul_zero, Nat.add_zero, e₁, e₂]
    rfl
  · obtain ⟨k₁, k₂⟩ := haddr n hn b hb 1 (by decide)
    refine (hw _ k₁).trans ?_
    rw [k₂, tlbNumber hp h (by decide)]
    simp only [Nat.mul_one, Nat.reduceAdd, e₃, e₄]
    rfl

/-- The writes of TLB entries. -/
theorem writesAt_tlb (hI : pI ≤ 7) (hD : pD ≤ 7) {n : ℕ} :
    (n < 2 ^ pI → writesAt pI pD (BitVec.ofNat 14 (0x300 + n)) = [.itlbl n] ∧
      writesAt pI pD (BitVec.ofNat 14 (0x380 + n)) = [.itlbh n]) ∧
    (n < 2 ^ pD → writesAt pI pD (BitVec.ofNat 14 (0x500 + n)) = [.dtlbl n] ∧
      writesAt pI pD (BitVec.ofNat 14 (0x580 + n)) = [.dtlbh n]) := by
  have hmmu (a : Word) := EpuReq.writes_of_mmu pI pD (x := msrReq ⟨true, false⟩ a) rfl rfl
  exact ⟨fun h => writesAt_entry (b := 0) hI (by decide) h fun a => (hmmu a).1,
    fun h => writesAt_entry (b := 1) hD (by decide) h fun a => (hmmu a).2⟩

/-- A defined index below bank SR selects its register. -/
theorem writesAt_of_index (hI : pI ≤ 7) (hD : pD ≤ 7) {C : MsrConfig} {segI segD : Bool}
    {d : ℕ} {m : Msr} (hd : d < 0x1000)
    (hm : wmsrIndex (C.withMmu pI pD segI segD) d = some m) :
    m.addr = d ∧ writesAt pI pD (BitVec.ofNat 14 d) = [m] := by
  rw [wmsrIndex] at hm
  iterate 13
    rcases or_of_ite_some hm with ⟨rfl, rfl⟩ | hm
    · exact ⟨rfl, rfl⟩
  simp only [Option.orElse_eq_orElse, Option.orElse_eq_or, Option.or_eq_some_iff,
    srIndex_eq_none hd, reduceCtorEq, and_false, or_false] at hm
  rcases hm with hm | ⟨-, hm | ⟨-, hm | ⟨-, hm⟩⟩⟩
  · obtain ⟨n, hn, rfl, rfl⟩ := eq_of_tlbIndex hm
    exact ⟨rfl, ((writesAt_tlb hI hD).1 hn).1⟩
  · obtain ⟨n, hn, rfl, rfl⟩ := eq_of_tlbIndex hm
    exact ⟨rfl, ((writesAt_tlb hI hD).1 hn).2⟩
  · obtain ⟨n, hn, rfl, rfl⟩ := eq_of_tlbIndex hm
    exact ⟨rfl, ((writesAt_tlb hI hD).2 hn).1⟩
  · obtain ⟨n, hn, rfl, rfl⟩ := eq_of_tlbIndex hm
    exact ⟨rfl, ((writesAt_tlb hI hD).2 hn).2⟩

/-- A register that the emulator reads at an index below bank SR. -/
theorem readsAt_of_index {d : ℕ} {m : Msr} (hd : d < 0x1000) (hm : rmsrIndex d = some m) :
    m.addr = d ∧ (m ≠ .evect ∧ m ≠ .tscl ∧ m ≠ .tsch → readsAt (BitVec.ofNat 14 d) = [m]) := by
  rw [rmsrIndex] at hm
  iterate 17
    rcases or_of_ite_some hm with ⟨rfl, rfl⟩ | hm
    · decide +kernel
  rw [srIndex_eq_none hd] at hm
  cases hm

/-! ### An address has the bits of what it selects -/

theorem mem_selected {l : List (Bool × Msr)} {m : Msr} : m ∈ selected l ↔ (true, m) ∈ l := by
  simp [selected]

namespace EpuReq

variable {x : EpuReq}

/-- The bank and the offset. -/
theorem addr_split (x : EpuReq) : x.addr.setWidth 14 = x.addr.extractLsb' 9 5 ++ x.bankOff := by
  apply BitVec.eq_of_getLsbD_eq
  intro i hi
  rw [BitVec.getLsbD_append, bankOff]
  by_cases h : i < 9
  · simp [h, hi]
  · simp [h, hi, show i - 9 < 5 by omega, show 9 + (i - 9) = i by omega]

/-- A select line that needs a bank and some bits of the offset. -/
theorem and_addr_of_off {c : BitVec 5} {o : BitVec 9} {n : ℕ} (hn : BitVec.ofNat 14 n = c ++ o)
    (hb : x.addr.extractLsb' 9 5 = c) (ho : x.bankOff &&& o = o) :
    x.addr.setWidth 14 &&& BitVec.ofNat 14 n = BitVec.ofNat 14 n := by
  rw [hn, addr_split, hb, BitVec.and_append, BitVec.and_self, ho]

theorem and_twoPow_of_bit {w k : ℕ} {v : BitVec w} (h : v.getLsbD k = true) :
    v &&& BitVec.twoPow w k = BitVec.twoPow w k := by
  rw [BitVec.and_twoPow, if_pos h]

/-- The part of an offset that a TLB write decodes: the half, and the entry. -/
def tlbOff (p : ℕ) (off : BitVec 9) : BitVec 9 := (off &&& 0x180) ||| (off.setWidth p).setWidth 9

/-- The index of a TLB write is the part of the offset that is decoded. -/
theorem tlb_addr : ∀ p ≤ 7, ∀ off :
    BitVec 9, off &&& tlbOff p off = tlbOff p off ∧ (off.getLsbD 8 = true → (off.getLsbD 7 = false →
      BitVec.ofNat 14 (0x300 + (off.setWidth p).toNat) = (1 : BitVec 5) ++ tlbOff p off ∧
      BitVec.ofNat 14 (0x500 + (off.setWidth p).toNat) = (2 : BitVec 5) ++ tlbOff p off) ∧
    (off.getLsbD 7 = true →
      BitVec.ofNat 14 (0x380 + (off.setWidth p).toNat) = (1 : BitVec 5) ++ tlbOff p off ∧
      BitVec.ofNat 14 (0x580 + (off.setWidth p).toNat) = (2 : BitVec 5) ++ tlbOff p off)) := by
  decide +kernel

theorem bank_of_wmsr {b : MsrBank} (h : x.wmsr b = true) : x.addr.extractLsb' 9 5 = b.addr := by
  simp only [wmsr, bank, Bool.and_eq_true, beq_iff_eq] at h
  exact h.2

/-- An address that writes a register has the bits of its index. -/
theorem and_addr_of_writes (hI : pI ≤ 7) (hD : pD ≤ 7) {m : Msr} (hm : m ∈ x.writes pI pD)
    (hsr : ∀ n, m ≠ .sr n) : x.addr.setWidth 14 &&& BitVec.ofNat 14 m.addr =
      BitVec.ofNat 14 m.addr := by
  have htlb {p n : ℕ} {b : MsrBank} (hp : p ≤ 7) (hb : x.wmsr b = true)
      (hn : BitVec.ofNat 14 n = b.addr ++ tlbOff p x.bankOff) :
      x.addr.setWidth 14 &&& BitVec.ofNat 14 n = BitVec.ofNat 14 n :=
    and_addr_of_off hn (bank_of_wmsr hb) (tlb_addr p hp x.bankOff).1
  have hbit {b : MsrBank} {k n : ℕ} (h : true = (x.wmsr b && x.bankOff.getLsbD k))
      (hn : BitVec.ofNat 14 n = b.addr ++ BitVec.twoPow 9 k) :
      x.addr.setWidth 14 &&& BitVec.ofNat 14 n = BitVec.ofNat 14 n := by
    obtain ⟨hb, hk⟩ := Bool.and_eq_true_iff.1 h.symm
    exact and_addr_of_off hn (bank_of_wmsr hb) (and_twoPow_of_bit hk)
  have hdbg {k n : ℕ} (h : true = (x.wmsrDbg && x.bankOff.getLsbD k))
      (hn : BitVec.ofNat 14 n = (5 : BitVec 5) ++ BitVec.twoPow 9 k) :
      x.addr.setWidth 14 &&& BitVec.ofNat 14 n = BitVec.ofNat 14 n := by
    obtain ⟨hb, hk⟩ := Bool.and_eq_true_iff.1 h.symm
    simp only [wmsrDbg, Bool.and_eq_true, beq_iff_eq] at hb
    exact and_addr_of_off hn hb.2 (and_twoPow_of_bit hk)
  rw [writes, mem_selected] at hm
  simp only [writeSel, List.mem_cons, Prod.mk.injEq, List.not_mem_nil, or_false] at hm
  rcases hm with ⟨h, rfl⟩ | ⟨h, rfl⟩ | ⟨h, rfl⟩ | ⟨h, rfl⟩ | ⟨h, rfl⟩ | ⟨h, rfl⟩ |
    ⟨h, rfl⟩ | ⟨h, rfl⟩ |
    ⟨h, rfl⟩ | ⟨h, rfl⟩ | ⟨h, rfl⟩ | ⟨h, rfl⟩ | ⟨h, rfl⟩ | ⟨h, rfl⟩ | ⟨h, rfl⟩ |
      ⟨h, rfl⟩ | ⟨h, rfl⟩ | ⟨-, rfl⟩ | ⟨-, rfl⟩ | ⟨-, rfl⟩ | ⟨-, rfl⟩
  · exact hbit h (by decide)
  · exact hbit h (by decide)
  · exact hbit h (by decide)
  · exact hbit h (by decide)
  · exact hbit h (by decide)
  · obtain ⟨hb, h8, h7⟩ : x.wmsr .imm = true ∧ x.bankOff.getLsbD 8 = true ∧ x.bankOff.getLsbD 7 =
        false := by
      simpa [wmsrWe] using h.symm
    exact htlb hI hb (((tlb_addr pI hI _).2 h8).1 h7).1
  · obtain ⟨hb, h8, h7⟩ : x.wmsr .imm = true ∧ x.bankOff.getLsbD 8 = true ∧
        x.bankOff.getLsbD 7 = true := by
      simpa [wmsrWe] using h.symm
    exact htlb hI hb (((tlb_addr pI hI _).2 h8).2 h7).1
  · obtain ⟨hb, h8, h7⟩ : x.wmsr .dmm = true ∧ x.bankOff.getLsbD 8 = true ∧ x.bankOff.getLsbD 7 =
        false := by
      simpa [wmsrWe] using h.symm
    exact htlb hD hb (((tlb_addr pD hD _).2 h8).1 h7).2
  · obtain ⟨hb, h8, h7⟩ : x.wmsr .dmm = true ∧ x.bankOff.getLsbD 8 = true ∧
        x.bankOff.getLsbD 7 = true := by
      simpa [wmsrWe] using h.symm
    exact htlb hD hb (((tlb_addr pD hD _).2 h8).2 h7).2
  · exact hbit h (by decide)
  · exact hbit h (by decide)
  · exact hbit h (by decide)
  · exact hdbg h (by decide)
  · exact hdbg h (by decide)
  · exact hbit h (by decide)
  · exact hbit h (by decide)
  · exact hbit h (by decide)
  all_goals exact absurd rfl (hsr _)

/-- An address that reads a register has the bits of its index. -/
theorem and_addr_of_reads {m : Msr} (hm : m ∈ x.reads) (hsr : ∀ n, m ≠ .sr n) :
    x.addr.setWidth 14 &&& BitVec.ofNat 14 m.addr = BitVec.ofNat 14 m.addr := by
  have hbit {b : MsrBank} {k n : ℕ} (h : true = (x.bank b && x.bankOff.getLsbD k))
      (hn : BitVec.ofNat 14 n = b.addr ++ BitVec.twoPow 9 k) :
      x.addr.setWidth 14 &&& BitVec.ofNat 14 n = BitVec.ofNat 14 n := by
    obtain ⟨hb, hk⟩ := Bool.and_eq_true_iff.1 h.symm
    exact and_addr_of_off hn (by simpa [bank] using hb) (and_twoPow_of_bit hk)
  have hid {b : MsrBank} {k n : ℕ} (h : true = (x.bank b && !x.bankOff.getLsbD k))
      (hn : BitVec.ofNat 14 n = b.addr ++ (0 : BitVec 9)) :
      x.addr.setWidth 14 &&& BitVec.ofNat 14 n = BitVec.ofNat 14 n := by
    obtain ⟨hb, -⟩ := Bool.and_eq_true_iff.1 h.symm
    exact and_addr_of_off hn (by simpa [bank] using hb) BitVec.and_zero
  rw [reads, mem_selected] at hm
  simp only [readSel, List.mem_cons, Prod.mk.injEq, List.not_mem_nil, or_false] at hm
  rcases hm with ⟨h, rfl⟩ | ⟨h, rfl⟩ | ⟨h, rfl⟩ | ⟨h, rfl⟩ | ⟨h, rfl⟩ | ⟨h, rfl⟩ |
    ⟨h, rfl⟩ | ⟨h, rfl⟩ | ⟨h, rfl⟩ | ⟨h, rfl⟩ | ⟨h, rfl⟩ | ⟨h, rfl⟩ | ⟨h, rfl⟩ | ⟨h, rfl⟩ | ⟨-, rfl⟩
  iterate 6 exact hbit h (by decide)
  · exact hid h (by decide)
  · exact hid h (by decide)
  iterate 6 exact hbit h (by decide)
  · exact absurd rfl (hsr _)

end EpuReq
/-! ### The scratch registers -/

/-- The scratch registers of a mask. -/
def srSel (t : BitVec 4) : List Msr :=
  selected [(t.getLsbD 0, .sr 0), (t.getLsbD 1, .sr 1), (t.getLsbD 2, .sr 2), (t.getLsbD 3, .sr 3)]

/-- The scratch register that a mask reads. -/
def srFirst (t : BitVec 4) : ℕ :=
  if t.getLsbD 0 then 0 else if t.getLsbD 1 then 1 else if t.getLsbD 2 then 2 else
    if t.getLsbD 3 then 3 else 0

namespace EpuReq

variable {x : EpuReq}

/-- No other bank is selected. -/
theorem bank_of_sr (h : x.addr.extractLsb' 9 5 = 8) : x.bank .sr = true ∧ x.bank .ps = false ∧
    x.bank .imm = false ∧ x.bank .dmm = false ∧ x.bank .ic = false ∧ x.bank .dc = false ∧
    x.bank .irqc = false ∧ x.bank .tsc = false := by
  simp only [bank, h]
  decide

theorem bankOff_getLsbD (x : EpuReq) {k : ℕ} (hk : k < 4) :
    x.bankOff.getLsbD k = (x.addr.setWidth 4).getLsbD k := by
  simp [bankOff, hk, show k < 9 by omega]

theorem writes_of_sr (pI pD : ℕ) (hv : x.reqValid = true) (hw : x.opc.wmsr = true)
    (h : x.addr.extractLsb' 9 5 = 8) : x.writes pI pD = srSel (x.addr.setWidth 4) := by
  obtain ⟨h₀, h₁, h₂, h₃, h₄, h₅, h₆, h₇⟩ := bank_of_sr h
  have hd : x.wmsrDbg = false := by
    simp only [wmsrDbg, h]
    simp
  simp only [writes, writeSel, wmsrWe, wmsr, icInvWe, dcinvWe, dcflsWe, hd, h₀, h₁, h₂, h₃, h₄, h₅,
    h₆, h₇, hv, hw,
    bankOff_getLsbD x (show 0 < 4 by decide), bankOff_getLsbD x (show 1 < 4 by decide),
    bankOff_getLsbD x (show 2 < 4 by decide), bankOff_getLsbD x (show 3 < 4 by decide),
      selected, srSel]
  simp

theorem reads_of_sr (h : x.addr.extractLsb' 9 5 = 8) :
    x.reads = [.sr (srFirst (x.addr.setWidth 4))] := by
  obtain ⟨h₀, h₁, h₂, h₃, h₄, h₅, h₆, h₇⟩ := bank_of_sr h
  simp only [reads, readSel, h₀, h₁, h₂, h₃, h₄, h₅, h₆, h₇, selected, srNo, srFirst,
    bankOff_getLsbD x (show 0 < 4 by decide), bankOff_getLsbD x (show 1 < 4 by decide),
    bankOff_getLsbD x (show 2 < 4 by decide), bankOff_getLsbD x (show 3 < 4 by decide)]
  simp
  split_ifs <;> rfl

theorem sr_of_writes {n : ℕ} (h : .sr n ∈ x.writes pI pD) : x.addr.extractLsb' 9 5 = 8 := by
  rw [writes, mem_selected] at h
  simp only [writeSel, List.mem_cons, Prod.mk.injEq, List.not_mem_nil, or_false, reduceCtorEq,
    and_false, false_or] at h
  have hw : x.wmsr .sr = true := by
    rcases h with ⟨h, -⟩ | ⟨h, -⟩ | ⟨h, -⟩ | ⟨h, -⟩ <;> exact (Bool.and_eq_true_iff.1 h.symm).2
  exact bank_of_wmsr hw

theorem sr_of_reads {n : ℕ} (h : .sr n ∈ x.reads) : x.addr.extractLsb' 9 5 = 8 := by
  rw [reads, mem_selected] at h
  simp only [readSel, List.mem_cons, Prod.mk.injEq, List.not_mem_nil, or_false,
    reduceCtorEq, and_false, false_or] at h
  exact beq_iff_eq.1 h.1.symm

end EpuReq

/-- The lowest bit that is set. -/
def lowBit (o : BitVec 4) : BitVec 4 := o &&& -o

/-- A word with bits in the bank SR and its four registers. -/
def srWord (p : BitVec 1) (u : BitVec 4) : BitVec 14 :=
  (p ++ (0 : BitVec 8) ++ u : BitVec 13).setWidth 14

theorem eq_srWord {x : BitVec 14} (h : x &&& 0x2ff0 = 0) :
    x = srWord (x.extractLsb' 12 1) (x.setWidth 4) := by
  apply BitVec.eq_of_getLsbD_eq
  intro i hi
  have hb : (x.getLsbD i && (0x2ff0#14).getLsbD i) = false := by
    rw [← BitVec.getLsbD_and]
    exact (congrArg (fun w : BitVec 14 => w.getLsbD i) h).trans (by simp)
  revert hb
  simp only [srWord, BitVec.getLsbD_setWidth, BitVec.getLsbD_append, BitVec.getLsbD_extractLsb', hi,
    decide_true, Bool.true_and]
  interval_cases i <;> simp

/-- The bank of a sum, and its mask. -/
theorem srWord_add : ∀ (p q : BitVec 1) (u v : BitVec 4),
    ((srWord p u + srWord q v).extractLsb' 9 5 = 8 ↔ p ^^^ q = 1) ∧
      (srWord p u + srWord q v).setWidth 4 = u + v := by
  decide +kernel

theorem srIndex_mask : ∀ o : BitVec 4, ∀ m ∈ srIndex (0x1000 + o.toNat),
    m = .sr (srFirst o) ∧ ∀ t, srSel t = [m] ↔ t = lowBit o := by
  decide +kernel

/-- The masks that read the register of the lowest bit. -/
theorem srFirst_add : ∀ u v : BitVec 4, u ||| v ≠ 0 → (srFirst (u + v) = srFirst (u ||| v) ↔
    u &&& v &&& lowBit (u ||| v) = 0 ∨ (u ||| v = 15 ∧ u &&& v = 1)) := by
  decide +kernel

/-! ### Both levels -/

/-- The request of an MSR instruction with the base and the value that it reads. -/
def msrInsnReq (ins : BitVec 32) (pc : Pc) (upd : BpuUpd) (base v : Word) : EpuReq :=
  msrReq (idDec true ins false false false pc upd).epu
    ((idDec true ins false false false pc upd).opp.exPipe true base v).opera

/-- The low bits of the OR. -/
def msrOr (base : Word) (imm : BitVec 15) : BitVec 14 := base.setWidth 14 ||| imm.setWidth 14

/-- The operands for which a WMSR means the emulator's register: no bit is shared, or, in bank SR,
the shared bits and those of the OR add up to its lowest one. -/
def WriteAligned (base : Word) (imm : BitVec 15) : Prop :=
  if (msrOr base imm).extractLsb' 9 5 = MsrBank.sr.addr then
    (msrOverlap base imm).getLsbD 12 = false ∧
      (msrOr base imm).setWidth 4 + (msrOverlap base imm).setWidth 4 =
        lowBit ((msrOr base imm).setWidth 4)
  else msrOverlap base imm = 0

/-- The operands for which an RMSR means the emulator's register: no bit is shared, or, in bank SR,
not the lowest one of the OR, unless all carries go out of the four. -/
def ReadAligned (base : Word) (imm : BitVec 15) : Prop :=
  if (msrOr base imm).extractLsb' 9 5 = MsrBank.sr.addr then
    (msrOverlap base imm).getLsbD 12 = false ∧
      ((msrOverlap base imm).setWidth 4 &&& lowBit ((msrOr base imm).setWidth 4) = 0 ∨
        ((msrOr base imm).setWidth 4 = 15 ∧ (msrOverlap base imm).setWidth 4 = 1))
  else msrOverlap base imm = 0

instance (base : Word) (imm : BitVec 15) : Decidable (WriteAligned base imm) :=
  inferInstanceAs (Decidable (ite _ _ _))

instance (base : Word) (imm : BitVec 15) : Decidable (ReadAligned base imm) :=
  inferInstanceAs (Decidable (ite _ _ _))

theorem msrInsnReq_eq {ins : BitVec 32} (h : IsMsrWord ins) (pc : Pc) (upd : BpuUpd)
    (base v : Word) : msrInsnReq ins pc upd base v =
      msrReq ⟨ins.extractLsb' 5 7 == 0x23, ins.extractLsb' 5 7 == 0x24⟩
        (msrAddr base (ins.extractLsb' 17 15)) := by
  rw [msrInsnReq, opera_of_msr h]
  rfl

theorem msrAddr_low (base : Word) (imm : BitVec 15) :
    (msrAddr base imm).setWidth 14 = base.setWidth 14 + imm.setWidth 14 := by
  rw [msrAddr, BitVec.setWidth_add _ _ (by decide), BitVec.setWidth_setWidth_of_le _ (by decide)]

/-- An index that is in range has no other bits. -/
theorem msrIndex_toNat {base : Word} {imm : BitVec 15} (h : (msrIndex base imm).toNat < 0x2000) :
    (msrIndex base imm).toNat = (msrOr base imm).toNat := by
  have hor : msrOr base imm = (msrIndex base imm).setWidth 14 := by
    rw [msrOr, msrIndex, BitVec.setWidth_setWidth_of_le _ (by decide), BitVec.setWidth_or,
      BitVec.setWidth_setWidth_of_le _ (by decide)]
  rw [hor, BitVec.toNat_setWidth, Nat.mod_eq_of_lt (by omega)]

/-- Only the 14 low bits of the address are decoded. -/
theorem decoded_low (addr : Word) :
    ((addr.setWidth 14).setWidth 32).extractLsb' 0 9 = addr.extractLsb' 0 9 ∧
      ((addr.setWidth 14).setWidth 32).extractLsb' 9 5 = addr.extractLsb' 9 5 := by
  constructor <;> apply BitVec.eq_of_getLsbD_eq <;> intro i hi
  · simp [hi, show i < 14 by omega, show i < 32 by omega]
  · simp [hi, show 9 + i < 14 by omega, show 9 + i < 32 by omega]

theorem writes_msrReq (addr : Word) :
    (msrReq ⟨true, false⟩ addr).writes pI pD = writesAt pI pD (addr.setWidth 14) := by
  obtain ⟨h₁, h₂⟩ := decoded_low addr
  simp only [writesAt, EpuReq.writes, EpuReq.writeSel, EpuReq.wmsrWe, EpuReq.wmsr, EpuReq.bank,
    EpuReq.bankOff, EpuReq.tlbIdx,
    EpuReq.icInvWe, EpuReq.dcinvWe, EpuReq.dcflsWe, EpuReq.wmsrDbg, msrReq, h₁, h₂]

theorem reads_msrReq (addr : Word) :
    (msrReq ⟨false, true⟩ addr).reads = readsAt (addr.setWidth 14) := by
  obtain ⟨h₁, h₂⟩ := decoded_low addr
  simp only [readsAt, EpuReq.reads, EpuReq.readSel, EpuReq.bank, EpuReq.bankOff, EpuReq.srNo,
    msrReq, h₁, h₂]
  rfl

/-- A register below bank SR is not a scratch register. -/
theorem Em.Msr.ne_sr_of_addr {m : Msr} (h : m.addr < 0x1000) (n : ℕ) : m ≠ .sr n := by
  rintro rfl
  exact absurd h (Nat.not_lt.2 (Nat.le_add_right 0x1000 (2 ^ n)))

/-- The index of a WMSR is below bank SR or a scratch register. -/
theorem wmsrIndex_cases (hI : pI ≤ 7) (hD : pD ≤ 7) {C : MsrConfig} {segI segD : Bool}
    {d : ℕ} {m : Msr}
    (hm : wmsrIndex (C.withMmu pI pD segI segD) d = some m) : d < 0x1000 ∨ srIndex d = some m := by
  by_cases hd : d < 0x1000
  · exact .inl hd
  · right
    rw [wmsrIndex] at hm
    iterate 13
      rcases or_of_ite_some hm with ⟨rfl, rfl⟩ | hm
      · omega
    have htlb {p : ℕ} (hp : p ≤ 7) (base : ℕ) (r : ℕ → Msr) (h : base ≤ 0x580) :
        tlbIndex base (2 ^ p) r d = none := by
      have h7 : 2 ^ p ≤ 2 ^ 7 := Nat.pow_le_pow_right (by decide) hp
      rw [tlbIndex, if_neg (by omega)]
    simpa [Em.MsrConfig.withMmu, htlb hI, htlb hD] using hm

theorem rmsrIndex_cases {d : ℕ} {m : Msr} (hm : rmsrIndex d = some m) :
    d < 0x1000 ∨ srIndex d = some m := by
  by_cases hd : d < 0x1000
  · exact .inl hd
  · right
    rw [rmsrIndex] at hm
    iterate 17
      rcases or_of_ite_some hm with ⟨rfl, rfl⟩ | hm
      · omega
    exact hm

/-- The bank of an index. -/
theorem bank_sr_iff (d : BitVec 14) :
    d.extractLsb' 9 5 = MsrBank.sr.addr ↔ 0x1000 ≤ d.toNat ∧ d.toNat < 0x1200 := by
  have hlt := d.isLt
  have h8 : MsrBank.sr.addr.toNat = 8 := rfl
  rw [← BitVec.toNat_inj, BitVec.extractLsb'_toNat, Nat.shiftRight_eq_div_pow, h8]
  omega

/-- What no read-out selects. -/
theorem EpuReq.reads_ne {x : EpuReq} {m : Msr} (hm : m ∈ x.reads) :
    m ≠ .evect ∧ m ≠ .tscl ∧ m ≠ .tsch := by
  rw [EpuReq.reads, mem_selected] at hm
  simp only [EpuReq.readSel, List.mem_cons, Prod.mk.injEq, List.not_mem_nil, or_false] at hm
  refine ⟨?_, ?_, ?_⟩ <;> rintro rfl <;> simp at hm

section Sum

variable {x y : BitVec 14} {m : Msr}

/-- Below bank SR a sum selects the register of the OR when it has no carries. -/
theorem writesAt_add_iff (hI : pI ≤ 7) (hD : pD ≤ 7) {C : MsrConfig} {segI segD : Bool}
    (hd : (x ||| y).toNat < 0x1000)
    (hm : wmsrIndex (C.withMmu pI pD segI segD) (x ||| y).toNat = some m) :
    writesAt pI pD (x + y) = [m] ↔ x &&& y = 0 := by
  obtain ⟨ha, hw⟩ := writesAt_of_index hI hD hd hm
  have hor : BitVec.ofNat 14 m.addr = x ||| y := by rw [ha, BitVec.ofNat_toNat, BitVec.setWidth_eq]
  constructor
  · intro h
    have hmem : m ∈ writesAt pI pD (x + y) := by rw [h]; exact List.mem_singleton_self m
    have := EpuReq.and_addr_of_writes hI hD hmem (Msr.ne_sr_of_addr (by omega))
    rw [hor] at this
    exact and_eq_zero_of_add_and (by simpa [msrReq] using this)
  · intro h
    rw [BitVec.add_eq_or_of_and_eq_zero _ _ h, ← hor, ha]
    exact hw

theorem readsAt_add_iff (hd : (x ||| y).toNat < 0x1000) (hm : rmsrIndex (x ||| y).toNat = some m)
    (hn : m ≠ .evect ∧ m ≠ .tscl ∧ m ≠ .tsch) : readsAt (x + y) = [m] ↔ x &&& y = 0 := by
  obtain ⟨ha, hr⟩ := readsAt_of_index hd hm
  have hor : BitVec.ofNat 14 m.addr = x ||| y := by rw [ha, BitVec.ofNat_toNat, BitVec.setWidth_eq]
  constructor
  · intro h
    have hmem : m ∈ readsAt (x + y) := by rw [h]; exact List.mem_singleton_self m
    have := EpuReq.and_addr_of_reads hmem (Msr.ne_sr_of_addr (by omega))
    rw [hor] at this
    exact and_eq_zero_of_add_and (by simpa [msrReq] using this)
  · intro h
    rw [BitVec.add_eq_or_of_and_eq_zero _ _ h, ← hor, ha]
    exact hr hn

/-- What two words have together. -/
theorem srWord_bits : ∀ (p q : BitVec 1) (u v : BitVec 4),
    srWord p u ||| srWord q v = srWord (p ||| q) (u ||| v) ∧
      srWord p u &&& srWord q v = srWord (p &&& q) (u &&& v) := by
  decide +kernel

theorem srWord_low : ∀ (p : BitVec 1) (u : BitVec 4),
    (srWord p u).setWidth 4 = u ∧ (srWord p u).getLsbD 12 = p.getLsbD 0 ∧
      ((srWord p u).extractLsb' 9 5 = MsrBank.sr.addr ↔ p = 1) := by
  decide +kernel

/-- The operands of a scratch register. -/
theorem srWord_of_srIndex (hm : srIndex (x ||| y).toNat = some m) :
    ∃ (p q : BitVec 1) (u v : BitVec 4), x = srWord p u ∧ y = srWord q v ∧ p ||| q = 1 ∧
      u ||| v ≠ 0 ∧ m = .sr (srFirst (u ||| v)) ∧ ∀ t, srSel t = [m] ↔ t = lowBit (u ||| v) := by
  have hr : 0x1000 ≤ (x ||| y).toNat ∧ (x ||| y).toNat ≤ 0x100f := by
    by_contra h
    rw [srIndex, if_neg h] at hm
    cases hm
  obtain ⟨o, ho⟩ : ∃ o : BitVec 4, x ||| y = srWord 1 o := by
    refine ⟨BitVec.ofNat 4 ((x ||| y).toNat - 0x1000), ?_⟩
    have h : ∀ n < 16, BitVec.ofNat 14 (0x1000 + n) = srWord 1 (BitVec.ofNat 4 n) := by decide
    rw [← h _ (by omega), show 0x1000 + ((x ||| y).toNat - 0x1000) = (x ||| y).toNat by omega,
      BitVec.ofNat_toNat, BitVec.setWidth_eq]
  have hmask : ∀ o : BitVec 4, srWord 1 o &&& 0x2ff0 = 0 := by decide
  have hz : (x &&& 0x2ff0) ||| (y &&& 0x2ff0) = 0 := by
    rw [← BitVec.and_or_distrib_right, ho, hmask]
  have hx := eq_srWord (BitVec.or_eq_zero_iff.1 hz).1
  have hy := eq_srWord (BitVec.or_eq_zero_iff.1 hz).2
  have hinj : ∀ (p : BitVec 1) (u o : BitVec 4), srWord p u = srWord 1 o → p = 1 ∧ o = u := by
    decide +kernel
  have hnat : ∀ o : BitVec 4, (srWord 1 o).toNat = 0x1000 + o.toNat := by decide
  have hnone : srIndex (0x1000 + (0 : BitVec 4).toNat) = none := by decide
  generalize x.extractLsb' 12 1 = p, x.setWidth 4 = u at hx
  generalize y.extractLsb' 12 1 = q, y.setWidth 4 = v at hy
  subst hx hy
  obtain ⟨hpq, rfl⟩ := hinj _ _ o (((srWord_bits p q u v).1).symm.trans ho)
  rw [ho, hnat] at hm
  obtain ⟨h₁, h₂⟩ := srIndex_mask _ m hm
  refine ⟨p, q, u, v, rfl, rfl, hpq, ?_, h₁, h₂⟩
  intro h0
  rw [h0, hnone] at hm
  cases hm

end Sum

theorem oneBit_xor : ∀ p q : BitVec 1, p ||| q = 1 →
    (p ^^^ q = 1 ↔ (p &&& q).getLsbD 0 = false) := by
  decide

/-- What a sum of scratch register operands selects. -/
theorem writesAt_srWord (p q : BitVec 1) (u v : BitVec 4) {n : ℕ} :
    writesAt pI pD (srWord p u + srWord q v) = [.sr n] ↔ p ^^^ q = 1 ∧ srSel (u + v) = [.sr n] := by
  obtain ⟨hb, hs⟩ := srWord_add p q u v
  generalize srWord p u + srWord q v = a at *
  have hbank : (a.setWidth 32).extractLsb' 9 5 = a.extractLsb' 9 5 := by
    apply BitVec.eq_of_getLsbD_eq
    intro i hi
    simp [hi, show 9 + i < 32 by omega]
  have hw (h8 : a.extractLsb' 9 5 = 8) : writesAt pI pD a = srSel (u + v) := by
    have := EpuReq.writes_of_sr pI pD (x := msrReq ⟨true, false⟩ (a.setWidth 32)) rfl rfl
      (hbank.trans h8)
    rw [writesAt, this, ← hs]
    simp [msrReq]
  constructor
  · intro h
    have hmem : Msr.sr n ∈ writesAt pI pD a := by
      rw [h]
      exact List.mem_singleton_self _
    have h8 :=
      hbank.symm.trans (EpuReq.sr_of_writes (x := msrReq ⟨true, false⟩ (a.setWidth 32)) hmem)
    exact ⟨hb.1 h8, (hw h8).symm.trans h⟩
  · rintro ⟨h8, h⟩
    exact (hw (hb.2 h8)).trans h

theorem readsAt_srWord (p q : BitVec 1) (u v : BitVec 4) {n : ℕ} :
    readsAt (srWord p u + srWord q v) = [.sr n] ↔ p ^^^ q = 1 ∧ srFirst (u + v) = n := by
  obtain ⟨hb, hs⟩ := srWord_add p q u v
  generalize srWord p u + srWord q v = a at *
  have hbank : (a.setWidth 32).extractLsb' 9 5 = a.extractLsb' 9 5 := by
    apply BitVec.eq_of_getLsbD_eq
    intro i hi
    simp [hi, show 9 + i < 32 by omega]
  have hr (h8 : a.extractLsb' 9 5 = 8) : readsAt a = [.sr (srFirst (u + v))] := by
    have := EpuReq.reads_of_sr (x := msrReq ⟨false, true⟩ (a.setWidth 32)) (hbank.trans h8)
    rw [readsAt, this, ← hs]
    simp [msrReq]
  constructor
  · intro h
    have hmem : Msr.sr n ∈ readsAt a := by
      rw [h]
      exact List.mem_singleton_self _
    have h8 :=
      hbank.symm.trans (EpuReq.sr_of_reads (x := msrReq ⟨false, true⟩ (a.setWidth 32)) hmem)
    rw [hr h8] at h
    exact ⟨hb.1 h8, by simpa using h⟩
  · rintro ⟨h8, rfl⟩
    exact hr (hb.2 h8)

/-- The shared bits and the OR of scratch register operands. -/
theorem srWord_operands {base : Word} {imm : BitVec 15} {p q : BitVec 1} {u v : BitVec 4}
    (hx : base.setWidth 14 = srWord p u) (hy : imm.setWidth 14 = srWord q v) (hpq : p ||| q = 1) :
    (msrOr base imm).extractLsb' 9 5 = MsrBank.sr.addr ∧ (msrOr base imm).setWidth 4 = u ||| v ∧
      (msrOverlap base imm).setWidth 4 = u &&& v ∧
      ((msrOverlap base imm).getLsbD 12 = false ↔ p ^^^ q = 1) := by
  have hor : msrOr base imm = srWord 1 (u ||| v) := by
    rw [msrOr, hx, hy, (srWord_bits p q u v).1, hpq]
  have hand : msrOverlap base imm = srWord (p &&& q) (u &&& v) := by
    rw [msrOverlap, hx, hy, (srWord_bits p q u v).2]
  rw [hor, hand, (srWord_low (p &&& q) _).2.1]
  exact ⟨(srWord_low 1 _).2.2.2 rfl, (srWord_low _ _).1, (srWord_low _ _).1,
    (oneBit_xor p q hpq).symm⟩

theorem srIndex_lt {d : ℕ} {m : Msr} (h : srIndex d = some m) : d < 0x2000 := by
  by_contra hge
  rw [srIndex, if_neg (by omega)] at h
  cases h

/-- **The operands of WMSR.** -/
theorem writes_msrAddr_iff (hI : pI ≤ 7) (hD : pD ≤ 7) {C : MsrConfig} {segI segD : Bool}
    {base : Word} {imm : BitVec 15} {m : Msr}
    (hm : wmsrIndex (C.withMmu pI pD segI segD) (msrIndex base imm).toNat = some m) :
    (msrReq ⟨true, false⟩ (msrAddr base imm)).writes pI pD = [m] ↔ WriteAligned base imm := by
  have hlt : (msrIndex base imm).toNat < 0x2000 := by
    rcases wmsrIndex_cases hI hD hm with h | h
    · omega
    · exact srIndex_lt h
  rw [msrIndex_toNat hlt] at hm
  rw [writes_msrReq, msrAddr_low, WriteAligned]
  rcases wmsrIndex_cases hI hD hm with hd | hsr
  · rw [if_neg (by rw [bank_sr_iff]; omega)]
    exact writesAt_add_iff hI hD hd hm
  · obtain ⟨p, q, u, v, hx, hy, hpq, -, rfl, h₂⟩ := srWord_of_srIndex hsr
    obtain ⟨hb, ho, ha, hp⟩ := srWord_operands hx hy hpq
    rw [if_pos hb, ho, ha, hp, ← add_eq_or_add_and, ← h₂, hx, hy]
    exact writesAt_srWord p q u v

/-- **The operands of RMSR.** -/
theorem reads_msrAddr_iff {base : Word} {imm : BitVec 15} {m : Msr}
    (hm : rmsrIndex (msrIndex base imm).toNat = some m) :
    (msrReq ⟨false, true⟩ (msrAddr base imm)).reads = [m] ↔
      (m ≠ .evect ∧ m ≠ .tscl ∧ m ≠ .tsch) ∧ ReadAligned base imm := by
  have hlt : (msrIndex base imm).toNat < 0x2000 := by
    rcases rmsrIndex_cases hm with h | h
    · omega
    · exact srIndex_lt h
  rw [msrIndex_toNat hlt] at hm
  rw [reads_msrReq, msrAddr_low, ReadAligned]
  rcases rmsrIndex_cases hm with hd | hsr
  · rw [if_neg (by rw [bank_sr_iff]; omega)]
    by_cases hn : m ≠ .evect ∧ m ≠ .tscl ∧ m ≠ .tsch
    · rw [readsAt_add_iff hd hm hn, and_iff_right hn]
      rfl
    · -- the circuit has no read-out for these
      refine ⟨fun h => absurd ?_ hn, fun h => absurd h.1 hn⟩
      have hmem : m ∈ readsAt (base.setWidth 14 + imm.setWidth 14) := by
        rw [h]
        exact List.mem_singleton_self m
      exact EpuReq.reads_ne hmem
  · obtain ⟨p, q, u, v, hx, hy, hpq, h0, rfl, -⟩ := srWord_of_srIndex hsr
    obtain ⟨hb, ho, ha, hp⟩ := srWord_operands hx hy hpq
    rw [if_pos hb, ho, ha, hp, ← srFirst_add u v h0, hx, hy, and_iff_right (by simp)]
    exact readsAt_srWord p q u v

/-- **The address of an MSR at both levels.**  For every base and immediate whose index names a
register, the circuit selects that register and no other for exactly these operands.  The TLBs have
`2 ^ pI` and `2 ^ pD` entries, which fit into their ranges. -/
theorem msr_addressing_iff (hI : pI ≤ 7) (hD : pD ≤ 7) (C : MsrConfig) (segI segD : Bool)
    (ins : BitVec 32) (pc : Pc) (upd : BpuUpd) (base v : Word) :
    (ins.extractLsb' 5 7 = 0x23 → ∀ m,
      wmsrIndex (C.withMmu pI pD segI segD) (msrIndex base (ins.extractLsb' 17 15)).toNat = some m →
      ((msrInsnReq ins pc upd base v).writes pI pD = [m] ↔
        WriteAligned base (ins.extractLsb' 17 15))) ∧
    (ins.extractLsb' 5 7 = 0x24 → ∀ m,
      rmsrIndex (msrIndex base (ins.extractLsb' 17 15)).toNat = some m →
      ((msrInsnReq ins pc upd base v).reads = [m] ↔
        (m ≠ .evect ∧ m ≠ .tscl ∧ m ≠ .tsch) ∧ ReadAligned base (ins.extractLsb' 17 15))) := by
  constructor
  · intro hop m hm
    rw [msrInsnReq_eq (.inl hop), hop]
    exact writes_msrAddr_iff hI hD hm
  · intro hop m hm
    rw [msrInsnReq_eq (.inr hop), hop]
    exact reads_msrAddr_iff hm

/-- WMSR to IMR through a base in `r1`, and RMSR of SR0. -/
theorem msr_addressing_imr :
    (msrInsnReq 0x00020460 0 ⟨0, 0, 0, false, 0, false⟩ 0xc00 5).writes tlbP tlbP = [.imr] ∧
      (msrInsnReq 0x00020480 0 ⟨0, 0, 0, false, 0, false⟩ 0x1000 5).reads = [.sr 0] := by
  have hp : tlbP ≤ 7 := by decide
  constructor
  · exact ((msr_addressing_iff hp hp MsrConfig.default true true 0x00020460 0
      ⟨0, 0, 0, false, 0, false⟩ 0xc00 5).1 (by decide) .imr (by decide +kernel)).2 (by decide)
  · exact ((msr_addressing_iff hp hp MsrConfig.default true true 0x00020480 0
      ⟨0, 0, 0, false, 0, false⟩ 0x1000 5).2 (by decide) (.sr 0) (by decide +kernel)).2 (by decide)

/-- With the base 1 and the immediate 1 the emulator writes the PSR, the circuit nothing. -/
theorem msr_carry_misses :
    wmsrIndex (MsrConfig.default.withMmu tlbP tlbP true true) (msrIndex 1 1).toNat = some .psr ∧
      (msrInsnReq 0x00020460 0 ⟨0, 0, 0, false, 0, false⟩ 1 5).writes tlbP tlbP = [] := by
  decide +kernel

end NanoCpu
