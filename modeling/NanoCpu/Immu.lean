/-
**The instruction MMU** (`rtl/core/immu.v`).

A fetch request looks its page up in a direct-mapped TLB and has the answer a cycle later.

Main definitions:

* `Immu`, `Immu.next` — the TLB with its registered lookup;
* `Immu.eitm`, `Immu.eipf`, `Immu.ppn`, `Immu.uncached` — the answer;
* `DecInsn.Fetched` — an instruction with the exceptions that a lookup reports.

Main results:

* `DecInsn.Fetched.fe_unique` — an instruction carries at most one exception of the front-end.
-/

import NanoCpu.Lsu

set_option relaxedAutoImplicit false
set_option autoImplicit false

namespace NanoCpu

/-- The two halves of the TLB, and the registers that a lookup loads. -/
structure Immu (p : ℕ) where
  tlbL : TlbIdx p → Word
  tlbH : TlbIdx p → Word
  immeFf : Bool
  rmFf : Bool
  vpnFf : Ppn
  tlbLFf : Word
  tlbHFf : Word

namespace Immu

variable {p : ℕ}

def reset : Immu p := ⟨fun _ => 0, fun _ => 0, false, false, 0, 0, 0⟩

def next (m : Immu p) (re : Bool) (vpn : Ppn) (imme rm : Bool) (tlbl tlbh : TlbWr p) : Immu p where
  tlbL := Dmmu.write tlbl m.tlbL
  tlbH := Dmmu.write tlbh m.tlbH
  immeFf := ldff re imme m.immeFf
  rmFf := ldff re rm m.rmFf
  vpnFf := ldff re vpn m.vpnFf
  tlbLFf := ldff re (m.tlbL (vpn.extractLsb' 0 p)) m.tlbLFf
  tlbHFf := ldff re (m.tlbH (vpn.extractLsb' 0 p)) m.tlbHFf

variable (m : Immu p)

def tlbMiss : Bool := !(m.tlbLFf.getLsbD 0 && m.tlbLFf.extractLsb' 13 19 == m.vpnFf)

def permDenied : Bool := (m.rmFf && !m.tlbHFf.getLsbD 4) || (!m.rmFf && !m.tlbHFf.getLsbD 3)

/-- The TLB miss exception. -/
def eitm : Bool := m.tlbMiss && m.immeFf

/-- The page fault exception. -/
def eipf : Bool := m.permDenied && !m.tlbMiss && m.immeFf

def ppn : Ppn := if m.immeFf then m.tlbHFf.extractLsb' 13 19 else m.vpnFf

/-- `seg` is `CONFIG_IMMU_ENABLE_UNCACHED_SEG`. -/
def uncached (seg : Bool) : Bool :=
  (m.immeFf && !m.tlbMiss && !m.permDenied && m.tlbHFf.getLsbD 7) ||
    (seg && !m.eitm && !m.eipf && !m.ppn.msb)

theorem not_eitm_and_eipf : (m.eitm && m.eipf) = false := by
  rw [eitm, eipf]
  cases m.tlbMiss <;> simp

end Immu

/-! ### Exceptions of the front-end -/

/-- The exceptions of the front-end, by number. -/
def Fe.get (f : Fe) : Fin 6 → Bool
  | 0 => f.esyscall
  | 1 => f.eret
  | 2 => f.eitm
  | 3 => f.eipf
  | 4 => f.eirq
  | 5 => f.einsn

/-- At most one exception. -/
def Fe.Unique (f : Fe) : Prop := ∀ i j, f.get i = true → f.get j = true → i = j

/-- The instruction comes from a fetch: the exceptions of the fetch are those of a lookup. -/
def DecInsn.Fetched (d : DecInsn) : Prop :=
  ∃ (m : Immu tlbP) (valid : Bool) (ins : BitVec 32) (irqAsync : Bool) (pc : Pc) (upd : BpuUpd),
    d = idDec valid ins m.eitm m.eipf irqAsync pc upd

theorem DecInsn.Fetched.wellFormed {d : DecInsn} (h : d.Fetched) : d.WellFormed := by
  obtain ⟨m, valid, ins, irq, pc, upd, rfl⟩ := h
  exact idDec_wellFormed _ _ _ _ _ _ _

/-- How the exceptions of one opcode exclude each other. -/
theorem opcDec_exc (op : BitVec 7) :
    ¬ ((opcDec op).esyscall = true ∧ (opcDec op).eret = true) := by
  revert op
  decide +kernel

/-- **An instruction carries at most one exception of the front-end**: an interrupt and an exception
of the fetch turn the word into a NOP. -/
theorem DecInsn.Fetched.fe_unique {d : DecInsn} (h : d.Fetched) : d.fe.Unique := by
  obtain ⟨m, valid, ins, irq, pc, upd, rfl⟩ := h
  have hm := m.not_eitm_and_eipf
  generalize m.eitm = eitm at *
  generalize m.eipf = eipf at *
  set op := (idInst valid ins eitm eipf irq).extractLsb' 5 7 with hop
  have hfe : (idDec valid ins eitm eipf irq pc upd).fe =
      ⟨(opcDec op).esyscall, (opcDec op).eret, eitm && !irq, eipf && !irq, irq,
        !((opcDec op).alu.any || (opcDec op).bru.any ||
          ((opcDec op).lsu.load || (opcDec op).lsu.store ||
          (opcDec op).lsu.barr) || (opcDec op).epu.any || (opcDec op).esyscall ||
            (opcDec op).eret)⟩ := rfl
  rw [hfe]
  cases hmask : eitm || eipf || irq with
  | true =>
      -- the word is masked: it decodes as an AND
      have h0 : op = 0 := by
        have : (!(eitm || eipf) && !irq && valid) = false := by
          revert hmask
          cases eitm <;> cases eipf <;> cases irq <;> simp
        rw [hop, idInst, this, if_neg Bool.false_ne_true]
        decide
      rw [h0]
      intro i j hi hj
      revert hi hj hm
      cases eitm <;> cases eipf <;> cases irq <;> revert i j <;> decide
  | false =>
      simp only [Bool.or_eq_false_iff] at hmask
      obtain ⟨⟨rfl, rfl⟩, rfl⟩ := hmask
      have hx := opcDec_exc op
      generalize opcDec op = o at *
      intro i j hi hj
      fin_cases i <;> fin_cases j <;> simp_all [Fe.get]

end NanoCpu
