/-
**Exception entry and return at both levels** (`rtl/core/cmt_epu.v`, `cmt_psr.v`, `em/csrc/cpu.cc`).

An exception saves the PSR in the EPSR and the address of the instruction in the EPC, enters the
root mode with translation and interrupts off, and goes to the vector of its cause.  The return
takes the PSR and the address back.  In the circuit every field has its own multiplexer; the
emulator assigns whole records.

Main definitions:

* `Psr.bypass` — what the registers show in the cycle in which they are written;
* `PsrMatch` — the fields of the PSR and of its companions hold the same values at both levels;
* `Em.Cause.exc` — a cause of the emulator as the circuit knows it;
* `Cmt.EntryRegs` — the registers of the exception unit are those of the oldest instruction.

Main results:

* `Backend.entryRegs_of_reach` — they are so in every reachable state;
* `Backend.entry_agrees` — exception entry is that of `raise_exception`;
* `Backend.eret_restores_iff` — a return restores the context exactly if the cache enables are those
  of the EPSR and the address is that of a word.
-/

import NanoCpu.ExcCause
import NanoCpu.EmMsr

set_option relaxedAutoImplicit false
set_option autoImplicit false
set_option linter.unusedSectionVars false

namespace NanoCpu

/-! ### The bypasses of the registers -/

/-- The outputs of `cmt_psr` in a cycle: every register shows the value that is being written. -/
def Psr.bypass (s : Psr) (w : PsrWr) : Psr where
  rm := if w.psrWe || w.restore || w.save then
      (if w.restore then s.epsr.getLsbD 4 else w.psrNxt.getLsbD 4) || w.save else s.rm
  ire := if w.psrWe || w.restore || w.save then
      (if w.restore then s.epsr.getLsbD 5 else w.psrNxt.getLsbD 5) && !w.save else s.ire
  imme := if w.psrWe || w.restore || w.save then
      (if w.restore then s.epsr.getLsbD 6 else w.psrNxt.getLsbD 6) && !w.save else s.imme
  dmme := if w.psrWe || w.restore || w.save then
      (if w.restore then s.epsr.getLsbD 7 else w.psrNxt.getLsbD 7) && !w.save else s.dmme
  ice := if w.psrWe then w.psrNxt.getLsbD 8 else s.ice
  dce := if w.psrWe then w.psrNxt.getLsbD 9 else s.dce
  epsr := if w.epsrWe || w.save then
      if w.save then
        Psr.pack (Psr.wrBit w 9 s.dce) (Psr.wrBit w 8 s.ice) (s.nold w 7 s.dmme) (s.nold w 6 s.imme)
          (s.nold w 5 s.ire) (s.nold w 4 s.rm)
      else w.epsrNxt
    else s.epsr
  epc := if w.epcWe then w.epcNxt else s.epc
  elsa := if w.elsaWe then w.elsaNxt else s.elsa
  evect := if w.evectWe then w.evectNxt else s.evect
  sr := fun i => if w.srWe i then w.srNxt else s.sr i

/-- What is shown in a cycle is what the registers hold after it. -/
theorem Psr.bypass_eq_next (s : Psr) (w : PsrWr) : s.bypass w = s.next w := by
  simp only [bypass, next, nold, wrBit, ldff]
  congr 1
  · cases w.psrWe <;> cases w.restore <;> cases w.save <;> simp
  · cases w.psrWe <;> cases w.restore <;> cases w.save <;> simp
  · cases w.psrWe <;> cases w.restore <;> cases w.save <;> simp
  · cases w.psrWe <;> cases w.restore <;> cases w.save <;> simp
  · cases w.epsrWe <;> cases w.save <;> simp

/-! ### The registers of an exception -/

/-- The registers of the exception unit are those of the instruction `h` that it works on, and the
vector base is the one in force. -/
structure Cmt.EntryRegs (c : Cmt) (h : CmtHead) : Prop where
  evect : c.epu.s1Evect = c.epu.psr.evect
  epc : c.pending = true → c.epu.s1Epc = h.pay.pc
  nepc : c.pending = true → c.epu.s1Nepc = h.pay.pc + 1

namespace Cmt

variable {c : Cmt} {x : CmtIn}

/-- A stall of the D-cache holds the vector base. -/
theorem evect_next_stall (hd : x.dcStall = true) :
    (c.epu.psrNext (c.epuIn x)).evect = c.epu.psr.evect := by
  have hce : (c.epuIn x).pCeS2 = false := by simp [epuIn, pCeS2, hd]
  simp [Epu.psrNext, Psr.next, Epu.psrWr, Epu.commitWe, hce, WmsrWe.none]

/-- The first stage stands still with the D-cache, or in a cycle in which the units are empty. -/
theorem evect_next_of_not_pCeS1 {v : Bool} {h : CmtHead} (hi : c.Inv v h) (hc : c.pCeS1 x = false) :
    (c.epu.psrNext (c.epuIn x)).evect = c.epu.psr.evect := by
  cases hd : x.dcStall with
  | true => exact evect_next_stall hd
  | false =>
      have hnp : c.pending = false := by
        by_contra hne
        have hp : c.pending = true := Bool.eq_true_of_not_eq_false hne
        rw [pCeS1_eq_pCeS2 (epuReqValid_of_pending hp), pCeS2, hd] at hc
        cases hc
      rw [(hi.quiet hnp).psrNext]

theorem EntryRegs.next {h' : CmtHead} (he : c.EntryRegs (x.head 0))
    (hi : c.Inv (x.valid 0) (x.head 0))
    (hk : (c.next x).pending = true → h' = x.head 0) : (c.next x).EntryRegs h' := by
  cases hc : c.pCeS1 x with
  | true =>
      refine ⟨?_, fun hp => ?_, fun hp => ?_⟩
      · change ldff (c.pCeS1 x) _ _ = _
        rw [hc]
        rfl
      · change ldff (c.pCeS1 x) (x.head 0).pay.pc _ = _
        rw [hc, hk hp]
        rfl
      · change ldff (c.pCeS1 x) ((x.head 0).pay.pc + 1) _ = _
        rw [hc, hk hp]
        rfl
  | false =>
      -- nothing is handed over, so the instruction has been there before
      have hpend : (c.next x).pending = true → c.pending = true := by
        intro hp
        by_contra hne
        simp [Cmt.next, Bool.eq_false_of_not_eq_true hne, hc] at hp
      refine ⟨?_, fun hp => ?_, fun hp => ?_⟩
      · change ldff (c.pCeS1 x) _ _ = (c.epu.psrNext (c.epuIn x)).evect
        rw [hc, evect_next_of_not_pCeS1 hi hc]
        exact he.evect
      · change ldff (c.pCeS1 x) _ _ = _
        rw [hc, hk hp]
        exact he.epc (hpend hp)
      · change ldff (c.pCeS1 x) _ _ = _
        rw [hc, hk hp]
        exact he.nepc (hpend hp)

end Cmt

namespace Backend

variable {n : ℕ} [NeZero n] {D : ℕ} {s : Backend n} {t : Trace} {x : BackendIn} {z : RInsn}

theorem entryRegs_of_reach (h : (traced n D z).Reach (s, t)) : s.cmt.EntryRegs (s.head D 0) := by
  have : (traced n D z).Reach (s, t) ∧ s.cmt.EntryRegs (s.head D 0) := by
    refine Machine.Reach.inv
      (P := fun q => (traced n D z).Reach q ∧ q.1.cmt.EntryRegs (q.1.head D 0))
      ⟨Machine.Reach.reset, ⟨rfl, fun h => ?_, fun h => ?_⟩⟩ ?_ h
    · cases h
    · cases h
    · rintro ⟨s, t⟩ x ⟨hr, he⟩ hx
      refine ⟨Machine.Reach.tick hr hx, ?_⟩
      have hi := inv_of_reach hr
      obtain ⟨num, hp, hv⟩ := hi.place
      exact Cmt.EntryRegs.next (x := s.cmtIn D x) he hi.cmt fun hpend =>
        (hi.order.head_next hp hv hi.cmt hx.1 hpend).2
  exact this.2

end Backend

/-! ### Both levels -/

/-- The fields that both levels have hold the same values. -/
structure PsrMatch (p : Psr) (e : Em.Cpu) : Prop where
  rm : p.rm = e.psr.rm
  ire : p.ire = e.psr.ire
  imme : p.imme = e.psr.imme
  dmme : p.dmme = e.psr.dmme
  ice : p.ice = e.psr.ice
  dce : p.dce = e.psr.dce
  epsrRm : p.epsr.getLsbD 4 = e.epsr.rm
  epsrIre : p.epsr.getLsbD 5 = e.epsr.ire
  epsrImme : p.epsr.getLsbD 6 = e.epsr.imme
  epsrDmme : p.epsr.getLsbD 7 = e.epsr.dmme
  epsrIce : p.epsr.getLsbD 8 = e.epsr.ice
  epsrDce : p.epsr.getLsbD 9 = e.epsr.dce
  epc : p.epc = e.epc
  elsa : p.elsa = e.elsa
  evect : p.evect = e.evect.extractLsb' 8 24

/-- The cause in the circuit. -/
def Em.Cause.exc : Em.Cause → ExcCause
  | .eirq => .eirq
  | .eipf => .eipf
  | .eitm => .eitm
  | .ealign => .ealign
  | .edpf => .edpf
  | .edtm => .edtm
  | .esyscall => .esyscall
  | .einsn => .einsn

/-- The causes that the load/store unit reports. -/
def Em.Cause.ofLsu : Em.Cause → Bool
  | .ealign | .edpf | .edtm => true
  | _ => false

theorem Psr.pack_bits (dce ice dmme imme ire rm : Bool) :
    (Psr.pack dce ice dmme imme ire rm).getLsbD 4 = rm ∧
      (Psr.pack dce ice dmme imme ire rm).getLsbD 5 = ire ∧
      (Psr.pack dce ice dmme imme ire rm).getLsbD 6 = imme ∧
      (Psr.pack dce ice dmme imme ire rm).getLsbD 7 = dmme ∧
      (Psr.pack dce ice dmme imme ire rm).getLsbD 8 = ice ∧
      (Psr.pack dce ice dmme imme ire rm).getLsbD 9 = dce := by
  refine ⟨?_, ?_, ?_, ?_, ?_, ?_⟩ <;> rw [Psr.pack_getLsbD] <;> simp

/-- The registers after reset. -/
theorem PsrMatch.of_reset {p : Psr}
    (h : (p.psr, p.epsr, p.epc, p.elsa, p.evect) = (0x10, 0, 0, 0, 0)) :
    PsrMatch p Em.MsrCpu.zero.reset.toCpu := by
  simp only [Prod.mk.injEq] at h
  obtain ⟨h₁, h₂, h₃, h₄, h₅⟩ := h
  obtain ⟨p₄, p₅, p₆, p₇, p₈, p₉⟩ := Psr.pack_bits p.dce p.ice p.dmme p.imme p.ire p.rm
  rw [show Psr.pack p.dce p.ice p.dmme p.imme p.ire p.rm = 0x10 from h₁] at p₄ p₅ p₆ p₇ p₈ p₉
  refine ⟨p₄.symm, p₅.symm, p₆.symm, p₇.symm, p₈.symm, p₉.symm, ?_, ?_, ?_, ?_, ?_, ?_, h₃,
    h₄, h₅⟩ <;>
    rw [h₂] <;> rfl

namespace Cmt

variable {c : Cmt} {x : CmtIn}

/-- `a` is the only active cause. -/
def Only (c : Cmt) (a : ExcCause) : Prop := ∀ b, c.excCond b = decide (b = a)

theorem Only.excUnique {a : ExcCause} (h : c.Only a) : c.ExcUnique := by
  intro b b' hb hb'
  rw [h] at hb hb'
  rw [of_decide_eq_true hb, of_decide_eq_true hb']

theorem Only.conds {a : ExcCause} (h : c.Only a) :
    c.lsu.edtm = decide (.edtm = a) ∧ c.lsu.edpf = decide (.edpf = a) ∧
      c.lsu.ealign = decide (.ealign = a) ∧
      c.epu.s1Fe = ⟨decide (.esyscall = a), decide (.eret = a), decide (.eitm = a),
        decide (.eipf = a),
        decide (.eirq = a), decide (.einsn = a)⟩ := by
  refine ⟨h .edtm, h .edpf, h .ealign, ?_⟩
  rw [← h .esyscall, ← h .eret, ← h .eitm, ← h .eipf, ← h .eirq, ← h .einsn]
  rfl

theorem only_of_conds {a : ExcCause} (h : (c.lsu.edtm, c.lsu.edpf, c.lsu.ealign, c.epu.s1Fe) =
    (decide (.edtm = a), decide (.edpf = a), decide (.ealign = a), ⟨decide (.esyscall = a),
      decide (.eret = a), decide (.eitm = a), decide (.eipf = a), decide (.eirq = a),
      decide (.einsn = a)⟩)) : c.Only a := by
  simp only [Prod.mk.injEq] at h
  obtain ⟨h₁, h₂, h₃, h₄⟩ := h
  intro b
  cases b <;> simp only [excCond, h₁, h₂, h₃, h₄]

/-- **The registers after an exception** are those after `raise_exception`. -/
theorem psrNext_raise {k : Em.Cause} (ho : c.Only k.exc) (hw : c.epu.s1WmsrWe.any = false)
    (hd : x.dcStall = false) {pc : Pc} {va : Word} (hpc : c.epu.s1Epc = pc)
    (hnpc : c.epu.s1Nepc = pc + 1)
    (hva : k.ofLsu = true → c.lsu.s2Vaddr = va) {e : Em.Cpu} (hm : PsrMatch c.epu.psr e) :
    PsrMatch (c.epu.psrNext (c.epuIn x)) (e.stepRaise .default (Epu.pcWord pc) va k).cpu := by
  obtain ⟨h₁, h₂, h₃, hf⟩ := ho.conds
  obtain ⟨b, hc⟩ := WmsrWe.eq_of_any (Epu.commitWe_of_none hw (c.epuIn x))
  have hce : (c.epuIn x).pCeS2 = true := by simp [epuIn, pCeS2, hd]
  obtain ⟨p₄, p₅, p₆, p₇, p₈, p₉⟩ := Psr.pack_bits c.epu.psr.dce c.epu.psr.ice c.epu.psr.dmme
    c.epu.psr.imme c.epu.psr.ire c.epu.psr.rm
  have hedtm : (c.epuIn x).edtm = c.lsu.edtm := rfl
  have hedpf : (c.epuIn x).edpf = c.lsu.edpf := rfl
  have heal : (c.epuIn x).ealign = c.lsu.ealign := rfl
  have hv : (c.epuIn x).vaddr = c.lsu.s2Vaddr := rfl
  have hsave : (c.epu.psrWr (c.epuIn x)).save = true := by
    simp only [Epu.psrWr, Epu.psrSave, hce, hf, hedtm, hedpf, heal, h₁, h₂, h₃]
    cases k <;> rfl
  have hrest : (c.epu.psrWr (c.epuIn x)).restore = false := by
    simp only [Epu.psrWr, hf]
    cases k <;> simp [Em.Cause.exc]
  have hps : (c.epu.psrWr (c.epuIn x)).psrWe = false := by
    simp only [Epu.psrWr, hc]
    rfl
  have hev : (c.epu.psrWr (c.epuIn x)).evectWe = false := by
    simp only [Epu.psrWr, hc]
    rfl
  have hepc : (c.epu.psrNext (c.epuIn x)).epc =
      Epu.pcWord pc + if k = .esyscall then 4 else 0 := by
    have hwe : (c.epu.psrWr (c.epuIn x)).epcWe = true := by
      have : c.epu.psrSave (c.epuIn x) = true := hsave
      simp [Epu.psrWr, this]
    change ldff _ _ _ = _
    rw [hwe, ldff_true]
    simp only [Epu.psrWr, hc, hf, hpc, hnpc, WmsrWe.none, Epu.pcWord_succ]
    cases k <;> simp [Em.Cause.exc]
  have helsa : (c.epu.psrNext (c.epuIn x)).elsa =
      if k.ofLsu then va else if k = .eirq ∨ k = .esyscall then c.epu.psr.elsa else
        Epu.pcWord pc := by
    change ldff _ _ _ = _
    simp only [Epu.psrWr, hc, hf, hpc, hedtm, hedpf, heal, hv, h₁, h₂, h₃, WmsrWe.none]
    cases k
    case ealign => simp [Em.Cause.exc, Em.Cause.ofLsu, hva rfl]
    case edpf => simp [Em.Cause.exc, Em.Cause.ofLsu, hva rfl]
    case edtm => simp [Em.Cause.exc, Em.Cause.ofLsu, hva rfl]
    all_goals simp [Em.Cause.exc, Em.Cause.ofLsu]
  have hepsr : (c.epu.psrNext (c.epuIn x)).epsr =
    Psr.pack c.epu.psr.dce c.epu.psr.ice c.epu.psr.dmme
      c.epu.psr.imme c.epu.psr.ire c.epu.psr.rm := by
    simp [Epu.psrNext, Psr.next, Psr.nold, Psr.wrBit, hsave, hrest, hps]
  have hevect : (c.epu.psrNext (c.epuIn x)).evect = c.epu.psr.evect := by
    change ldff _ _ _ = _
    rw [hev, ldff_false]
  have hpsr : (c.epu.psrNext (c.epuIn x)).rm = true ∧ (c.epu.psrNext (c.epuIn x)).ire = false ∧
      (c.epu.psrNext (c.epuIn x)).imme = false ∧ (c.epu.psrNext (c.epuIn x)).dmme = false ∧
      (c.epu.psrNext (c.epuIn x)).ice = c.epu.psr.ice ∧
      (c.epu.psrNext (c.epuIn x)).dce = c.epu.psr.dce := by
    simp [Epu.psrNext, Psr.next, Psr.wrBit, hsave, hps]
  obtain ⟨q₁, q₂, q₃, q₄, q₅, q₆⟩ := hpsr
  have hstep : ∃ lsa, (e.stepRaise .default (Epu.pcWord pc) va k).cpu =
      { e with
        elsa := lsa
        epc := Epu.pcWord pc + if k = .esyscall then 4 else 0
        epsr := e.psr
        psr := { e.psr with rm := true, imme := false, dmme := false, ire := false } } ∧
      lsa = if k.ofLsu then va else if k = .eirq ∨ k = .esyscall then e.elsa else
        Epu.pcWord pc := by
    cases k <;> exact ⟨_, rfl, rfl⟩
  obtain ⟨lsa, hcpu, hlsa⟩ := hstep
  rw [hcpu]
  refine ⟨q₁, q₂, q₃, q₄, q₅.trans hm.ice, q₆.trans hm.dce, ?_, ?_, ?_, ?_, ?_, ?_, hepc, ?_,
    hevect.trans hm.evect⟩
  · rw [hepsr, p₄]
    exact hm.rm
  · rw [hepsr, p₅]
    exact hm.ire
  · rw [hepsr, p₆]
    exact hm.imme
  · rw [hepsr, p₇]
    exact hm.dmme
  · rw [hepsr, p₈]
    exact hm.ice
  · rw [hepsr, p₉]
    exact hm.dce
  · rw [helsa, hm.elsa]
    exact hlsa.symm

/-- **The target of an exception** is that of `raise_exception`. -/
theorem excFlushTgt_raise {k : Em.Cause} (ho : c.Only k.exc) (hev : c.epu.s1Evect = c.epu.psr.evect)
    {e : Em.Cpu} (hm : PsrMatch c.epu.psr e) (pc va : Word) :
    Epu.pcWord (c.epu.excFlushTgt (c.epuIn x) Backend.vectors) =
      (e.stepRaise .default pc va k).pcNxt := by
  have ha : c.excCond k.exc = true := by rw [ho, decide_eq_true rfl]
  rw [excFlushTgt_eq ho.excUnique ha]
  have hvec : (w : BitVec 6) → (v : Word) → w ++ (0 : BitVec 2) = v.extractLsb' 0 8 →
      Epu.pcWord (c.epu.s1Evect ++ w) = (e.evect &&& 0xffffff00) ||| (v &&& 0xff) := by
    intro w v hw
    rw [hev, hm.evect]
    apply BitVec.eq_of_getLsbD_eq
    intro j hj
    have hlo : (0xff#32).getLsbD j = decide (j < 8) := by
      interval_cases j <;> rfl
    have hhi : (0xffffff00#32).getLsbD j = !decide (j < 8) := by
      interval_cases j <;> rfl
    have hwj := congrArg (fun b : BitVec 8 => b.getLsbD j) hw
    simp only [BitVec.getLsbD_append, BitVec.getLsbD_extractLsb'] at hwj
    simp only [Epu.pcWord, BitVec.getLsbD_append, BitVec.getLsbD_or, BitVec.getLsbD_and,
      BitVec.ofNat_eq_ofNat, hlo, hhi, BitVec.getLsbD_extractLsb']
    by_cases h8 : j < 8
    · by_cases h2 : j < 2
      · simpa [h2, h8] using hwj
      · simpa [h2, h8, show j - 2 < 6 by omega] using hwj
    · simp [h8, show ¬ j < 2 by omega, show ¬ j - 2 < 6 by omega, show j - 2 - 6 < 24 by omega,
        show 8 + (j - 2 - 6) = j by omega]
  cases k <;> exact hvec _ _ (by decide)

/-- What is active in an instruction that the units work on writes no register. -/
theorem Flight.wmsrWe_of_excCond {h : CmtHead} {g : CmtStage} (hf : c.Flight h g)
    (hw : h.WellFormed) {a : ExcCause} (ha : c.excCond a = true) : c.epu.s1WmsrWe.any = false := by
  by_cases hg : g = .epu
  · subst hg
    have hsv : c.lsu.s2Valid = false := hf.s2Valid
    obtain ⟨i, -, hgi⟩ := feNum_of_excCond hsv ha
    rw [show c.epu.s1Fe = h.epuReq.s1Fe from hf.fe] at hgi
    have hexc : h.exc = true := (get_s1Fe hgi).1
    by_contra hne
    rw [hf.wmsrWe rfl] at hne
    obtain ⟨b, -, -, hb⟩ := EpuReq.wmsrWe_any (Bool.eq_true_of_not_eq_false hne)
    rw [hw.not_exc_of_wmsr hb] at hexc
    cases hexc
  · exact hf.wmsrWe_any hg

end Cmt

namespace Backend

variable {n : ℕ} [NeZero n] {D : ℕ} {s : Backend n} {t : Trace} {x : BackendIn} {z : RInsn}

/-- What holds when an exception or a return is taken. -/
theorem flight_of_excFlush (h : (traced n D z).Reach (s, t))
    (hx : s.cmt.excFlush (s.cmtIn D x) = true) :
    s.cmt.pending = true ∧ s.cmt.seFls = false ∧ x.dcStall = false ∧
      s.cmt.epu.s1WmsrWe.any = false ∧
      (s.cmt.lsu.s2Valid = true → s.cmt.lsu.s2Vaddr = (s.head D 0).lsuReq.vaddr) := by
  have hi := inv_of_reach h
  have hfin := hi.cmt.pipeFinish_of_excFlush hx
  have hp := hi.cmt.pending_of_pipeFinish hfin
  obtain ⟨g, hg⟩ := hi.cmt.flight hp
  obtain ⟨num, -, hv⟩ := hi.place
  obtain ⟨a, ha⟩ := Cmt.excCond_of_excFlush hx
  refine ⟨hp, hi.cmt.se hp, ?_, hg.wmsrWe_of_excCond
    (hi.order.head_wellFormed hv (hi.cmt.valid hp)) ha, fun hs => ?_⟩
  · rw [hg.excFlush] at hx
    simp only [Bool.and_eq_true, Bool.not_eq_true'] at hx
    exact hx.1
  · rw [hg.s2Valid, decide_eq_true_eq] at hs
    exact (hg.lsu2 hs).2.2.1

/-- **Exception entry agrees**: when the only active cause is `k`, the registers after the edge,
what they show to the fetch in the same cycle, and the target of the flush are those of
`raise_exception` as `CPU::step` calls it for `k`. -/
theorem entry_agrees (h : (traced n D z).Reach (s, t)) (hx : s.cmt.excFlush (s.cmtIn D x) = true)
    {k : Em.Cause} (hk : s.cmt.Only k.exc) {e : Em.Cpu} (hm : PsrMatch s.cmt.epu.psr e) :
    let r := e.stepRaise .default (Epu.pcWord (s.head D 0).pay.pc) (s.head D 0).lsuReq.vaddr k
    PsrMatch (s.next D x).cmt.epu.psr r.cpu ∧
      PsrMatch (s.cmt.epu.psr.bypass (s.cmt.epu.psrWr (s.cmt.epuIn (s.cmtIn D x)))) r.cpu ∧
      Epu.pcWord (s.cmt.flushTgt (s.cmtIn D x) vectors) = r.pcNxt := by
  obtain ⟨hp, hs, hd, hw, hva⟩ := flight_of_excFlush h hx
  have hr := entryRegs_of_reach h
  have hva' : k.ofLsu = true → s.cmt.lsu.s2Vaddr = (s.head D 0).lsuReq.vaddr := by
    intro hl
    apply hva
    by_contra hne
    have hc : s.cmt.excCond k.exc = true := by rw [hk, decide_eq_true rfl]
    have hs2 := Bool.eq_false_of_not_eq_true hne
    cases k <;> simp [Em.Cause.ofLsu] at hl <;>
      simp [Em.Cause.exc, Cmt.excCond, Lsu.edtm, Lsu.edpf, Lsu.ealign, hs2] at hc
  have hnext := Cmt.psrNext_raise (x := s.cmtIn D x) hk hw hd (hr.epc hp) (hr.nepc hp) hva' hm
  refine ⟨hnext, ?_, ?_⟩
  · rw [Psr.bypass_eq_next]
    exact hnext
  · rw [Cmt.flushTgt, if_neg (by rw [hs]; exact Bool.false_ne_true)]
    exact Cmt.excFlushTgt_raise hk hr.evect hm _ _

/-- A list of inputs that the front-end may deliver. -/
theorem reach_of_delivers {l : List BackendIn} (h : ∀ x ∈ l, x.Delivers) :
    (traced n D z).Reach ((traced n D z).run l) :=
  Machine.reach_run fun _ _ hx => ⟨h _ (List.mem_of_getElem? hx), trivial⟩

/-- An instruction that comes alone, with the cycles that it takes. -/
def spaced (d : DecInsn) : List BackendIn :=
  soloIn d emptyInsn.d :: List.replicate 9 (quietIn emptyInsn.d)

theorem spaced_delivers {d : DecInsn} (hd : d.WellFormed) : ∀ x ∈ spaced d, x.Delivers := by
  intro x hx
  have hf : emptyInsn.d.lrdWe = false := by decide
  rcases List.mem_cons.1 hx with rfl | hx
  · exact (soloIn_alone d hf).delivers hd
  · rw [List.eq_of_mem_replicate hx]
    exact (quietIn_quiet hf).delivers

/-- The first seven cycles of a system call, after which it is being taken. -/
def ecallRun : List BackendIn := (spaced ecall).take 7

theorem entry_agrees_ecall :
    ∃ s t, (traced 4 3 emptyInsn).Reach (s, t) ∧
      s.cmt.excFlush (s.cmtIn 3 (quietIn emptyInsn.d)) = true ∧
      PsrMatch (s.next 3 (quietIn emptyInsn.d)).cmt.epu.psr
        (Em.MsrCpu.zero.reset.stepRaise .default (Epu.pcWord (s.head 3 0).pay.pc)
          (s.head 3 0).lsuReq.vaddr .esyscall).cpu := by
  have hr : (traced 4 3 emptyInsn).Reach ((traced 4 3 emptyInsn).run ecallRun) :=
    reach_of_delivers fun x hx =>
      spaced_delivers (idDec_wellFormed _ _ _ _ _ _ _) x (List.mem_of_mem_take hx)
  have hx : ((traced 4 3 emptyInsn).run ecallRun).1.cmt.excFlush
      (((traced 4 3 emptyInsn).run ecallRun).1.cmtIn 3 (quietIn emptyInsn.d)) = true := by
    decide +kernel
  have hk : ((traced 4 3 emptyInsn).run ecallRun).1.cmt.Only .esyscall :=
    Cmt.only_of_conds (by decide +kernel)
  have hm : PsrMatch ((traced 4 3 emptyInsn).run ecallRun).1.cmt.epu.psr
      Em.MsrCpu.zero.reset.toCpu := by
    have hz : (((traced 4 3 emptyInsn).run ecallRun).1.cmt.epu.psr.psr,
        ((traced 4 3 emptyInsn).run ecallRun).1.cmt.epu.psr.epsr,
        ((traced 4 3 emptyInsn).run ecallRun).1.cmt.epu.psr.epc,
        ((traced 4 3 emptyInsn).run ecallRun).1.cmt.epu.psr.elsa,
        ((traced 4 3 emptyInsn).run ecallRun).1.cmt.epu.psr.evect) = (0x10, 0, 0, 0, 0) := by
      decide +kernel
    exact PsrMatch.of_reset hz
  exact ⟨_, _, hr, hx, (entry_agrees hr hx (k := .esyscall) hk hm).1⟩

/-! ### The return -/

end Backend

/-- `INS32_OP_RETE`. -/
def Em.Cpu.rete (e : Em.Cpu) : Em.Step := ⟨{ e with psr := e.epsr }, e.epc, .handleException⟩

theorem Em.Cpu.execute_rete {e : Em.Cpu} {C : Em.Config} {M : Em.MsrCode} {pc insn : Word}
    (h : Em.Op.ofCode (Em.opcode insn) = some .rete) : e.execute C M pc insn = some e.rete := by
  rw [execute, h]
  rfl

/-- Every field of the PSR is that of the EPSR. -/
structure Psr.Restored (p p' : Psr) : Prop where
  rm : p'.rm = p.epsr.getLsbD 4
  ire : p'.ire = p.epsr.getLsbD 5
  imme : p'.imme = p.epsr.getLsbD 6
  dmme : p'.dmme = p.epsr.getLsbD 7
  ice : p'.ice = p.epsr.getLsbD 8
  dce : p'.dce = p.epsr.getLsbD 9

/-- The cache enables are those that the EPSR holds. -/
def Psr.CachesAsSaved (p : Psr) : Prop := p.ice = p.epsr.getLsbD 8 ∧ p.dce = p.epsr.getLsbD 9

theorem pcWord_extract_iff (w : Word) :
    Epu.pcWord (w.extractLsb' 2 30) = w ↔ w.extractLsb' 0 2 = 0 := by
  constructor
  · intro h
    rw [← h, Epu.pcWord]
    apply BitVec.eq_of_getLsbD_eq
    intro j hj
    have hz : (w.extractLsb' 2 30 ++ 0#2).getLsbD j = false := by
      rw [BitVec.getLsbD_append, if_pos hj]
      simp
    simpa [hj] using hz
  · intro h
    apply BitVec.eq_of_getLsbD_eq
    intro j hj
    simp only [Epu.pcWord, BitVec.getLsbD_append, BitVec.getLsbD_extractLsb']
    by_cases h2 : j < 2
    · have := congrArg (fun b : BitVec 2 => b.getLsbD j) h
      simp only [BitVec.getLsbD_extractLsb', h2] at this
      simpa [h2] using this.symm
    · simp [h2, show j - 2 < 30 by omega, show 2 + (j - 2) = j by omega]

/-- The registers after a return. -/
theorem Cmt.psrNext_eret {c : Cmt} {x : CmtIn} (ho : c.Only .eret) (hw : c.epu.s1WmsrWe.any = false)
    (hd : x.dcStall = false) :
    c.epu.psrNext (c.epuIn x) =
      { c.epu.psr with
        rm := c.epu.psr.epsr.getLsbD 4
        ire := c.epu.psr.epsr.getLsbD 5
        imme := c.epu.psr.epsr.getLsbD 6
        dmme := c.epu.psr.epsr.getLsbD 7 } := by
  obtain ⟨h₁, h₂, h₃, hf⟩ := ho.conds
  obtain ⟨b, hc⟩ := WmsrWe.eq_of_any (Epu.commitWe_of_none hw (c.epuIn x))
  have hce : (c.epuIn x).pCeS2 = true := by simp [epuIn, pCeS2, hd]
  have hedtm : (c.epuIn x).edtm = false := h₁
  have hedpf : (c.epuIn x).edpf = false := h₂
  have heal : (c.epuIn x).ealign = false := h₃
  simp [Epu.psrNext, Psr.next, Psr.nold, Psr.wrBit, Epu.psrWr, Epu.psrSave, hc, hce, hf, hedtm,
    hedpf, heal, WmsrWe.none]

namespace Backend

variable {n : ℕ} [NeZero n] {D : ℕ} {s : Backend n} {t : Trace} {x : BackendIn} {z : RInsn}

/-- **A return restores the context** exactly if the cache enables are those that the EPSR holds,
and the EPC is the address of a word: then every field of the PSR is that of the EPSR and the fetch
goes on at the EPC, as after `INS32_OP_RETE`.  In particular the PSR `p₀` that an exception has
saved comes back whole exactly if the handler has left the cache enables as they were. -/
theorem eret_restores_iff (h : (traced n D z).Reach (s, t))
    (hx : s.cmt.excFlush (s.cmtIn D x) = true) (hk : s.cmt.Only .eret) :
    let p := s.cmt.epu.psr
    let p' := (s.next D x).cmt.epu.psr
    let tgt := Epu.pcWord (s.cmt.flushTgt (s.cmtIn D x) vectors)
    (p.Restored p' ∧ tgt = p.epc ↔ p.CachesAsSaved ∧ p.epc.extractLsb' 0 2 = 0) ∧
      (∀ e : Em.Cpu, PsrMatch p e →
        (PsrMatch p' e.rete.cpu ∧ tgt = e.rete.pcNxt ↔ p.CachesAsSaved ∧
          p.epc.extractLsb' 0 2 = 0)) ∧
      ∀ p₀ : Psr, p.epsr = p₀.psr → (p'.psr = p₀.psr ↔ p.ice = p₀.ice ∧ p.dce = p₀.dce) := by
  obtain ⟨-, hs, hd, hw, -⟩ := flight_of_excFlush h hx
  have hnext : (s.next D x).cmt.epu.psr = _ := Cmt.psrNext_eret (x := s.cmtIn D x) hk hw hd
  have htgt : s.cmt.flushTgt (s.cmtIn D x) vectors = s.cmt.epu.psr.epc.extractLsb' 2 30 := by
    have ha : s.cmt.excCond .eret = true := by rw [hk, decide_eq_true rfl]
    rw [Cmt.flushTgt, if_neg (by rw [hs]; exact Bool.false_ne_true),
      Cmt.excFlushTgt_eq hk.excUnique ha, Cmt.excTgt, Cmt.psrNext_eret hk hw hd]
  intro p p' tgt
  have hp' : p' = _ := hnext
  have htg : tgt = p.epc ↔ p.epc.extractLsb' 0 2 = 0 := by
    rw [show tgt = Epu.pcWord (p.epc.extractLsb' 2 30) from congrArg Epu.pcWord htgt]
    exact pcWord_extract_iff p.epc
  refine ⟨?_, fun e hm => ?_, fun p₀ h₀ => ?_⟩
  · rw [htg]
    refine and_congr_left fun _ => ⟨fun hr => ?_, fun hc => ?_⟩
    · exact ⟨by simpa [hp'] using hr.ice, by simpa [hp'] using hr.dce⟩
    · rw [hp']
      exact ⟨rfl, rfl, rfl, rfl, hc.1, hc.2⟩
  · have hpc : e.rete.pcNxt = p.epc := hm.epc.symm
    rw [hpc, htg]
    refine and_congr_left fun _ => ⟨fun hr => ?_, fun hc => ?_⟩
    · have h₁ := hr.ice
      have h₂ := hr.dce
      rw [hp'] at h₁ h₂
      exact ⟨h₁.trans hm.epsrIce.symm, h₂.trans hm.epsrDce.symm⟩
    · rw [hp']
      exact ⟨hm.epsrRm, hm.epsrIre, hm.epsrImme, hm.epsrDmme, hc.1.trans hm.epsrIce,
        hc.2.trans hm.epsrDce, hm.epsrRm, hm.epsrIre, hm.epsrImme, hm.epsrDmme, hm.epsrIce,
          hm.epsrDce, hm.epc, hm.elsa, hm.evect⟩
  · obtain ⟨p₄, p₅, p₆, p₇, p₈, p₉⟩ := Psr.pack_bits p₀.dce p₀.ice p₀.dmme p₀.imme p₀.ire p₀.rm
    have hb : p'.psr = Psr.pack p.dce p.ice p₀.dmme p₀.imme p₀.ire p₀.rm := by
      rw [hp', Psr.psr]
      change Psr.pack p.dce p.ice (p.epsr.getLsbD 7) (p.epsr.getLsbD 6) (p.epsr.getLsbD 5)
        (p.epsr.getLsbD 4) = _
      rw [h₀, Psr.psr, p₄, p₅, p₆, p₇]
    rw [hb, Psr.psr]
    constructor
    · intro he
      obtain ⟨-, -, -, -, r₈, r₉⟩ := Psr.pack_bits p.dce p.ice p₀.dmme p₀.imme p₀.ire p₀.rm
      rw [he, p₈] at r₈
      rw [he, p₉] at r₉
      exact ⟨r₈.symm, r₉.symm⟩
    · rintro ⟨h₁, h₂⟩
      rw [h₁, h₂]

/-- The instruction word `0x440`, a return. -/
def eret : DecInsn := idDec true 0x440 false false false 0 noUpd

/-- A system call whose handler returns at once, up to the return. -/
def returnRun : List BackendIn := spaced ecall ++ (spaced eret).take 7

theorem eret_restores_ecall :
    ∃ s t, (traced 4 3 emptyInsn).Reach (s, t) ∧
      s.cmt.excFlush (s.cmtIn 3 (quietIn emptyInsn.d)) = true ∧ s.cmt.Only .eret ∧
      s.cmt.epu.psr.Restored (s.next 3 (quietIn emptyInsn.d)).cmt.epu.psr := by
  have hr : (traced 4 3 emptyInsn).Reach ((traced 4 3 emptyInsn).run returnRun) := by
    refine reach_of_delivers fun x hx => ?_
    rcases List.mem_append.1 hx with hx | hx
    · exact spaced_delivers (idDec_wellFormed _ _ _ _ _ _ _) x hx
    · exact spaced_delivers (idDec_wellFormed _ _ _ _ _ _ _) x (List.mem_of_mem_take hx)
  have hx : ((traced 4 3 emptyInsn).run returnRun).1.cmt.excFlush
      (((traced 4 3 emptyInsn).run returnRun).1.cmtIn 3 (quietIn emptyInsn.d)) = true := by
    decide +kernel
  have hk : ((traced 4 3 emptyInsn).run returnRun).1.cmt.Only .eret :=
    Cmt.only_of_conds (by decide +kernel)
  refine ⟨_, _, hr, hx, hk, ((eret_restores_iff hr hx hk).1.2 ⟨⟨?_, ?_⟩, ?_⟩).1⟩
  · decide +kernel
  · decide +kernel
  · decide +kernel

/-- `ORI r1, r0, 0x110`: the root mode with the I-cache. -/
def oriIce : DecInsn := idDec true 0x2200061 false false false 0 noUpd

/-- A system call whose handler switches the I-cache on, up to the return. -/
def handlerRun : List BackendIn :=
  spaced ecall ++ spaced oriIce ++ spaced wmsrPsr ++ (spaced eret).take 7

/-- The handler of a system call switches the I-cache on and returns: the I-cache stays on, although
the saved PSR has it off. -/
theorem eret_leaves_icache :
    ∃ s t, (traced 4 3 emptyInsn).Reach (s, t) ∧
      s.cmt.excFlush (s.cmtIn 3 (quietIn emptyInsn.d)) = true ∧ s.cmt.Only .eret ∧
      ¬ s.cmt.epu.psr.Restored (s.next 3 (quietIn emptyInsn.d)).cmt.epu.psr := by
  have hr : (traced 4 3 emptyInsn).Reach ((traced 4 3 emptyInsn).run handlerRun) := by
    refine reach_of_delivers fun x hx => ?_
    simp only [handlerRun, List.mem_append] at hx
    rcases hx with ((hx | hx) | hx) | hx
    · exact spaced_delivers (idDec_wellFormed _ _ _ _ _ _ _) x hx
    · exact spaced_delivers (idDec_wellFormed _ _ _ _ _ _ _) x hx
    · exact spaced_delivers (idDec_wellFormed _ _ _ _ _ _ _) x hx
    · exact spaced_delivers (idDec_wellFormed _ _ _ _ _ _ _) x (List.mem_of_mem_take hx)
  refine ⟨_, _, hr, by decide +kernel, Cmt.only_of_conds (by decide +kernel), fun h => ?_⟩
  have hi := h.ice
  revert hi
  decide +kernel

end Backend

end NanoCpu
