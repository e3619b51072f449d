/-
**One cause for every exception.**

The exceptions come from the decoder, the instruction MMU, the data MMU and the alignment check, and
commit joins their vectors with a plain OR.  This is right as long as only one of them is active.
It is, except for one case: the alignment check and the data MMU look at the same access, and
neither gives way to the other.

Main definitions:

* `ExcCause`, `Cmt.excCond`, `Cmt.excTgt` — the causes, their conditions and their targets;
* `LsuIn.faults` — the TLB entry of an access misses or denies it;
* `Backend.alignedOrMapped` — the back-end under programs without a misaligned access that faults.

Main results:

* `Cmt.excFlushTgt_eq` — with one active cause the target is that of the cause;
* `Backend.exc_unique` — without such an access there is one cause at most;
* `Backend.misaligned_and_denied` — a misaligned access to a page that denies it has two.
-/

import NanoCpu.Solo
import NanoCpu.Immu

set_option relaxedAutoImplicit false
set_option autoImplicit false
set_option linter.unusedSectionVars false

namespace NanoCpu

/-! ### Causes -/

inductive ExcCause
  | edtm | edpf | ealign | esyscall | eret | eitm | eipf | eirq | einsn
  deriving DecidableEq, Repr

namespace Cmt

variable {c : Cmt} {x : CmtIn}

/-- The registers that the assertions of the exception unit count. -/
def excCond (c : Cmt) : ExcCause → Bool
  | .edtm => c.lsu.edtm
  | .edpf => c.lsu.edpf
  | .ealign => c.lsu.ealign
  | .esyscall => c.epu.s1Fe.esyscall
  | .eret => c.epu.s1Fe.eret
  | .eitm => c.epu.s1Fe.eitm
  | .eipf => c.epu.s1Fe.eipf
  | .eirq => c.epu.s1Fe.eirq
  | .einsn => c.epu.s1Fe.einsn

/-- Where a cause goes: `EVECT` joined with its vector, or the saved address for a return. -/
def excTgt (c : Cmt) (x : CmtIn) (V : ExcVectors) : ExcCause → Pc
  | .edtm => c.epu.s1Evect ++ V.edtm
  | .edpf => c.epu.s1Evect ++ V.edpf
  | .ealign => c.epu.s1Evect ++ V.ealign
  | .esyscall => c.epu.s1Evect ++ V.esyscall
  | .eret => (c.epu.psrNext (c.epuIn x)).epc.extractLsb' 2 30
  | .eitm => c.epu.s1Evect ++ V.eitm
  | .eipf => c.epu.s1Evect ++ V.eipf
  | .eirq => c.epu.s1Evect ++ V.eirq
  | .einsn => c.epu.s1Evect ++ V.einsn

/-- At most one cause is active. -/
def ExcUnique (c : Cmt) : Prop := ∀ a b, c.excCond a = true → c.excCond b = true → a = b

theorem excCond_of_excFlush (h : c.excFlush x = true) : ∃ a, c.excCond a = true := by
  simp only [excFlush, Epu.excFlush, epuIn, Bool.and_eq_true, Bool.or_eq_true] at h
  rcases h.2 with ((((((((h | h) | h) | h) | h) | h) | h) | h) | h)
  · exact ⟨.edtm, h⟩
  · exact ⟨.edpf, h⟩
  · exact ⟨.ealign, h⟩
  · exact ⟨.esyscall, h⟩
  · exact ⟨.eret, h⟩
  · exact ⟨.eitm, h⟩
  · exact ⟨.eipf, h⟩
  · exact ⟨.eirq, h⟩
  · exact ⟨.einsn, h⟩

/-- **With one active cause the target is that of the cause.** -/
theorem excFlushTgt_eq (hu : c.ExcUnique) {a : ExcCause} (ha : c.excCond a = true)
    (V : ExcVectors) : c.epu.excFlushTgt (c.epuIn x) V = c.excTgt x V a := by
  have hne : ∀ b, b ≠ a → c.excCond b = false := by
    intro b hb
    by_contra hne
    exact hb (hu b a (Bool.eq_true_of_not_eq_false hne) ha)
  have h₁ := hne .edtm
  have h₂ := hne .edpf
  have h₃ := hne .ealign
  have h₄ := hne .esyscall
  have h₅ := hne .eret
  have h₆ := hne .eitm
  have h₇ := hne .eipf
  have h₈ := hne .eirq
  have h₉ := hne .einsn
  simp only [excCond] at h₁ h₂ h₃ h₄ h₅ h₆ h₇ h₈ h₉
  cases a <;> simp only [excCond] at ha <;>
    simp [Epu.excFlushTgt, epuIn, excTgt, ha, h₁, h₂, h₃, h₄, h₅, h₆, h₇, h₈, h₉]

end Cmt

/-! ### Accesses that fault -/

/-- The TLB entry that the address of a request selects misses it or denies it. -/
def LsuIn.faults (x : LsuIn) (m : Dmmu tlbP) : Bool :=
  let m' := m.next true (x.vaddr.extractLsb' 13 19) x.opc.store x.psrDmme x.psrRm x.tlbl x.tlbh
  m'.edtm || m'.edpf

/-- A load or a store with a misaligned address is handed over, and its page faults. -/
def Cmt.doubleFault (c : Cmt) (x : CmtIn) : Bool :=
  (c.lsuIn x).dcReq && !(c.lsuIn x).dcop && (c.lsuIn x).misalign && (c.lsuIn x).faults c.lsu.dmmu

/-- No access in the stages of the load/store unit is misaligned and faults. -/
structure Lsu.SingleFault (l : Lsu) : Prop where
  s1 : l.s1Valid = true → l.s1Ealign = true → l.dmmu.edtm = false ∧ l.dmmu.edpf = false
  s2 : l.s2Valid = true → l.s2Ealign = true → l.s2Edtm = false ∧ l.s2Edpf = false

theorem Dmmu.not_edtm_and_edpf {p : ℕ} (m : Dmmu p) : ¬ (m.edtm = true ∧ m.edpf = true) := by
  rw [edtm, edpf]
  cases m.tlbMiss <;> simp

/-- A D-cache operation is never misaligned. -/
theorem CmtHead.WellFormed.misalign_of_dcop {h : CmtHead} (hw : h.WellFormed)
    (hd : h.lsuReq.dcop = true) : h.lsuReq.misalign = false := by
  have hepu : h.pay.epu.any = true := by
    simp only [LsuReq.dcop, lsuReq, EpuReq.dcinvWe, EpuReq.dcflsWe, EpuReq.wmsr, epuReq,
      Bool.or_eq_true, Bool.and_eq_true] at hd
    rcases hd with hd | hd <;> simp [EpuOpc.any, hd.1.1.2]
  have hl : h.pay.lsu.any = false := by
    by_contra hne
    rw [hw.lsu_epu (by simpa using hne)] at hepu
    cases hepu
  have hs : h.lsuReq.opc.size = 0 := by
    simp only [LsuOpc.any, Bool.or_eq_false_iff, bne_eq_false_iff_eq] at hl
    exact hl.2
  rw [LsuReq.misalign, hs]
  rfl

theorem Lsu.SingleFault.next {c : Cmt} {x : CmtIn} (h : c.lsu.SingleFault)
    (hw : x.valid 0 = true → (x.head 0).WellFormed) (hx : c.doubleFault x = false) :
    (c.next x).lsu.SingleFault := by
  constructor
  · intro hv he
    change ldff (c.pCeS1 x) (c.lsuIn x).valid c.lsu.s1Valid = true at hv
    change ldff (c.pCeS1 x) (c.lsuIn x).misalign c.lsu.s1Ealign = true at he
    cases hc : c.pCeS1 x with
    | false =>
        rw [hc] at hv he
        have ht : (c.lsuIn x).tlbReq = false := by
          simp [LsuIn.tlbReq, LsuIn.dcReq, show (c.lsuIn x).pCeS1 = false from hc]
        obtain ⟨h₁, h₂⟩ := h.s1 hv he
        simp only [Cmt.next, Lsu.next, ht]
        exact ⟨h₁, h₂⟩
    | true =>
        rw [hc, ldff_true] at hv he
        have hreq : (c.lsuIn x).dcReq = true := by
          rw [LsuIn.dcReq, show (c.lsuIn x).pCeS1 = true from hc, hv]
          rfl
        have hdc : (c.lsuIn x).dcop = false := by
          by_contra hne
          have hd : (c.lsuIn x).dcop = true := Bool.eq_true_of_not_eq_false hne
          -- what is handed over is the request of the oldest instruction
          have hl : c.lsuReqValid x = true := by
            have : (c.lsuReqIn x).valid = true := hv
            rw [LsuReq.valid, Bool.and_eq_true] at this
            exact this.1
          simp only [Cmt.lsuReqValid, Bool.and_eq_true, Bool.not_eq_true'] at hl
          have hp : c.pipeReq x = true := by
            rw [Cmt.pipeReq, hl.1.2, hl.2]
            rfl
          have heq := (Cmt.reqIn_of_pipeReq hl.1.1 hp).2
          have he' : (c.lsuReqIn x).misalign = true := he
          have hd' : (c.lsuReqIn x).dcop = true := hd
          rw [heq] at he' hd'
          rw [(hw (Cmt.valid_of_pipeReq hp)).misalign_of_dcop hd'] at he'
          cases he'
        have ht : (c.lsuIn x).tlbReq = true := by rw [LsuIn.tlbReq, hreq, hdc]; rfl
        rw [Cmt.doubleFault, hreq, hdc, he] at hx
        simp only [Bool.not_false, Bool.true_and, LsuIn.faults, Bool.or_eq_false_iff] at hx
        simp only [Cmt.next, Lsu.next, ht]
        exact hx
  · intro hv he
    change ldff (Cmt.pCeS2 x) c.lsu.s1Valid c.lsu.s2Valid = true at hv
    change ldff (Cmt.pCeS2 x) c.lsu.s1Ealign c.lsu.s2Ealign = true at he
    change ldff (Cmt.pCeS2 x) c.lsu.dmmu.edtm c.lsu.s2Edtm = false ∧
      ldff (Cmt.pCeS2 x) c.lsu.dmmu.edpf c.lsu.s2Edpf = false
    cases hc : Cmt.pCeS2 x with
    | false =>
        rw [hc] at hv he
        exact h.s2 hv he
    | true =>
        rw [hc, ldff_true] at hv he
        exact h.s1 hv he

/-! ### The cause of an exception -/

/-- The number of a cause among the exceptions of the front-end. -/
def ExcCause.feNum : ExcCause → Option (Fin 6)
  | .esyscall => some 0
  | .eret => some 1
  | .eitm => some 2
  | .eipf => some 3
  | .eirq => some 4
  | .einsn => some 5
  | _ => none

theorem ExcCause.feNum_inj {a b : ExcCause} {i : Fin 6} (ha : a.feNum = some i)
    (hb : b.feNum = some i) : a = b := by
  revert i
  cases a <;> cases b <;> decide

namespace Cmt

variable {c : Cmt} {h : CmtHead} {a : ExcCause}

/-- An access that has not come to the second stage raises nothing. -/
theorem feNum_of_excCond (hs : c.lsu.s2Valid = false) (ha : c.excCond a = true) :
    ∃ i, a.feNum = some i ∧ c.epu.s1Fe.get i = true := by
  cases a <;> simp only [excCond, Lsu.edtm, Lsu.edpf, Lsu.ealign, hs, Bool.false_and] at ha
  · cases ha
  · cases ha
  · cases ha
  · exact ⟨0, rfl, ha⟩
  · exact ⟨1, rfl, ha⟩
  · exact ⟨2, rfl, ha⟩
  · exact ⟨3, rfl, ha⟩
  · exact ⟨4, rfl, ha⟩
  · exact ⟨5, rfl, ha⟩

theorem not_excCond (hs : c.lsu.s2Valid = false) (hf : c.epu.s1Fe = Fe.none) :
    c.excCond a = false := by
  by_contra hne
  obtain ⟨i, -, hi⟩ := feNum_of_excCond hs (Bool.eq_true_of_not_eq_false hne)
  rw [hf] at hi
  fin_cases i <;> cases hi

/-- What the exception unit takes over of an exception of the front-end. -/
theorem get_s1Fe {r : EpuReq} {i : Fin 6} (hi : r.s1Fe.get i = true) :
    r.exc = true ∧ r.fe.get i = true := by
  fin_cases i <;> simp_all [EpuReq.s1Fe, Fe.get]

/-- The causes of an instruction that the units work on. -/
theorem Flight.cause_unique {g : CmtStage} (hf : c.Flight h g) (hw : h.WellFormed)
    (hfe : h.exc = true → (Fe.ofWord h.vbank.opera).Unique) (hl : c.lsu.SingleFault) :
    c.ExcUnique ∧ ∀ a, c.excCond a = true → c.epu.s1WmsrWe.psr = false := by
  have hnone : ∀ w : WmsrWe, w.any = false → w.psr = false := by
    intro w hw
    simp only [WmsrWe.any, Bool.or_eq_false_iff] at hw
    tauto
  cases g with
  | lsu1 =>
      have h0 : ∀ a, c.excCond a = false := fun a => not_excCond hf.s2Valid hf.fe
      refine ⟨fun a b ha => ?_, fun a ha => ?_⟩ <;> rw [h0] at ha <;> cases ha
  | nowhere =>
      have h0 : ∀ a, c.excCond a = false := fun a => not_excCond hf.s2Valid hf.fe
      refine ⟨fun a b ha => ?_, fun a ha => ?_⟩ <;> rw [h0] at ha <;> cases ha
  | lsu2 =>
      refine ⟨fun a b ha hb => ?_, fun a _ => hnone _ (hf.wmsrWe_any (by simp))⟩
      have hv : c.lsu.s2Valid = true := hf.s2Valid
      have hfe : c.epu.s1Fe = Fe.none := hf.fe
      obtain ⟨-, -, -, -, e₁, e₂⟩ := hf.lsu2 rfl
      have hx := c.lsu.dmmu.not_edtm_and_edpf
      have hs := hl.s2 hv
      rw [← e₁, ← e₂] at hx
      cases a <;> cases b <;>
        simp only [excCond, Lsu.edtm, Lsu.edpf, Lsu.ealign, hv, hfe, Fe.none,
          Bool.true_and] at ha hb <;>
        simp_all
  | epu =>
      have hsv : c.lsu.s2Valid = false := hf.s2Valid
      have hfe' : c.epu.s1Fe = h.epuReq.s1Fe := hf.fe
      refine ⟨fun a b ha hb => ?_, fun a ha => ?_⟩
      · obtain ⟨i, hi, hgi⟩ := feNum_of_excCond hsv ha
        obtain ⟨j, hj, hgj⟩ := feNum_of_excCond hsv hb
        rw [hfe'] at hgi hgj
        obtain ⟨hexc, hgi⟩ := get_s1Fe hgi
        obtain ⟨-, hgj⟩ := get_s1Fe hgj
        obtain rfl := hfe hexc i j hgi hgj
        exact ExcCause.feNum_inj hi hj
      · obtain ⟨i, -, hgi⟩ := feNum_of_excCond hsv ha
        rw [hfe'] at hgi
        have hexc : h.exc = true := (get_s1Fe hgi).1
        by_contra hne
        have hps : h.epuReq.wmsr .ps = true := by
          rw [hf.wmsrWe rfl] at hne
          have := Bool.eq_true_of_not_eq_false hne
          simp only [EpuReq.wmsrWe, Bool.and_eq_true] at this
          exact this.1
        rw [hw.not_exc_of_wmsr hps] at hexc
        cases hexc

end Cmt

namespace Backend

variable {n : ℕ} [NeZero n] {D : ℕ} {s : Backend n} {t : Trace} {x : BackendIn} {z : RInsn}

/-- The back-end with a front-end that fetches through the instruction MMU, under programs without a
misaligned access that faults. -/
def alignedOrMapped (n : ℕ) [NeZero n] (D : ℕ) (z : RInsn) :
    Machine (Backend n × Trace) BackendIn :=
  tracedIf n D z fun s x =>
    (∀ i < x.rnPushSize, (x.rnInsn i).Fetched) ∧ s.cmt.doubleFault (s.cmtIn D x) = false

theorem singleFault_of_reach (h : (alignedOrMapped n D z).Reach (s, t)) :
    s.cmt.lsu.SingleFault := by
  have : (alignedOrMapped n D z).Reach (s, t) ∧ s.cmt.lsu.SingleFault := by
    refine Machine.Reach.inv (P := fun q => (alignedOrMapped n D z).Reach q ∧
      q.1.cmt.lsu.SingleFault) ⟨Machine.Reach.reset, ⟨fun h => ?_, fun h => ?_⟩⟩ ?_ h
    · cases h
    · cases h
    · rintro ⟨s, t⟩ x ⟨hr, hs⟩ hx
      refine ⟨Machine.Reach.tick hr hx, ?_⟩
      have hi := inv_of_reach (traced_of_tracedIf hr)
      obtain ⟨num, -, hv⟩ := hi.place
      exact Lsu.SingleFault.next (x := s.cmtIn D x) hs (hi.order.head_wellFormed hv) hx.2.2
  exact this.2

/-- What commit sees of an exception of the front-end is what the decoder has found. -/
theorem Inv.head_fe (hi : s.Inv D t) (hval : s.rob.cmtValid 1 D 0 = true)
    (hexc : (s.head D 0).exc = true) :
    Fe.ofWord (s.head D 0).vbank.opera = (t.ins t.log.head).d.fe := by
  obtain ⟨-, -, he, hvb⟩ := hi.head_exec hval
  rw [he] at hexc
  have hany : (t.ins t.log.head).d.fe.any = true := hexc
  rw [hvb]
  simp only [DecInsn.exec, Opp.exPipe, DecInsn.opp, Bool.true_and, hany, if_true]
  exact Fe.ofWord_toWord _

/-- **Exactly one cause for every exception.**  Where no misaligned access faults, at most one cause
is active, none while the PSR is written, and the target of an exception is that of its cause. -/
theorem exc_unique (h : (alignedOrMapped n D z).Reach (s, t)) :
    s.cmt.ExcUnique ∧ (∀ a, s.cmt.excCond a = true → s.cmt.epu.s1WmsrWe.psr = false) ∧
      ∀ (x : BackendIn) (V : ExcVectors), s.cmt.excFlush (s.cmtIn D x) = true →
        ∃ a, s.cmt.excCond a = true ∧
          s.cmt.epu.excFlushTgt (s.cmt.epuIn (s.cmtIn D x)) V = s.cmt.excTgt (s.cmtIn D x) V a := by
  have hi := inv_of_reach (traced_of_tracedIf h)
  have hl := singleFault_of_reach h
  have key : s.cmt.ExcUnique ∧ ∀ a, s.cmt.excCond a = true → s.cmt.epu.s1WmsrWe.psr = false := by
    cases hp : s.cmt.pending with
    | false =>
        have hq := hi.cmt.quiet hp
        have h0 : ∀ a, s.cmt.excCond a = false := fun a => Cmt.not_excCond hq.s2Valid hq.fe
        refine ⟨fun a b ha => ?_, fun a ha => ?_⟩ <;> rw [h0] at ha <;> cases ha
    | true =>
        obtain ⟨g, hg⟩ := hi.cmt.flight hp
        have hval := hi.cmt.valid hp
        obtain ⟨num, -, hv⟩ := hi.place
        refine hg.cause_unique (hi.order.head_wellFormed hv hval) (fun hexc => ?_) hl
        have hlive := (hi.order.ent_eq (i := 0) (by omega) hval).1
        have hfe : (t.ins t.log.head).d.fe.Unique :=
          ins_of_reach (P := fun d => d.fe.Unique)
            (fun _ _ hx i hi => (hx.1 i hi).fe_unique) h le_rfl (lt_nextNum_of_live hlive)
        rw [hi.head_fe hval hexc]
        exact hfe
  refine ⟨key.1, key.2, fun x V hx => ?_⟩
  obtain ⟨a, ha⟩ := Cmt.excCond_of_excFlush hx
  exact ⟨a, ha, Cmt.excFlushTgt_eq key.1 ha V⟩

/-! ### A program with two causes -/

section TwoCauses

variable {q : Backend n × Trace} {d f : DecInsn} {R : List (RInsn × Word)}

/-- The vectors of `rtl/soc/ysyx/ysyx_210479.v`. -/
def vectors : ExcVectors where
  edtm := 0x20 / 4
  edpf := 0x18 / 4
  ealign := 0x24 / 4
  esyscall := 0xc / 4
  eitm := 0x1c / 4
  eipf := 0x14 / 4
  eirq := 0x8 / 4
  einsn := 0x4 / 4

/-- `ori r1, r0, 0x81`. -/
def ori : DecInsn := idDec true 0x1020061 false false false 0 noUpd

/-- `wmsr` of `r1` to the lower half of entry 0 of the data TLB. -/
def wmsrTlbl : DecInsn := idDec true 0xa000461 false false false 0 noUpd

/-- `wmsr` of `r1` to the PSR. -/
def wmsrPsr : DecInsn := idDec true 0x20461 false false false 0 noUpd

/-- `ldw r2, [r0 + 1]`. -/
def ldwOdd : DecInsn := idDec true 0x202e2 false false false 0 noUpd

theorem seqRun_prog {r u v : RInsn} {a b c : Word} (d₁ : r.d = ori) (d₂ : u.d = wmsrTlbl)
    (d₃ : v.d = wmsrPsr) :
    seqRun ([(r, a)].map retiredOf) = seqRun [⟨ori, 0⟩] ∧
      seqRun ([(r, a), (u, b)].map retiredOf) = seqRun [⟨ori, 0⟩] ∧
      seqRun ([(r, a), (u, b), (v, c)].map retiredOf) = seqRun [⟨ori, 0⟩] := by
  have w₂ : wmsrTlbl.lrdWe = false := by decide
  have w₃ : wmsrPsr.lrdWe = false := by decide
  have w₁ : ori.isMem = false := by decide
  rw [← d₁] at w₁ ⊢
  rw [← d₂] at w₂
  rw [← d₃] at w₃
  refine ⟨seqRun_cons w₁ (by simp) a, seqRun_cons w₁ ?_ a, seqRun_cons w₁ ?_ a⟩
  · simp [retiredOf, w₂]
  · simp [retiredOf, w₂, w₃]

/-- The misaligned load, once the data MMU is on and denies page zero. -/
theorem Between.ldwOdd (h : q.1.Between z D R q.2) (hf : f.lrdWe = false)
    (hR : seqRun (R.map retiredOf) = seqRun [⟨ori, 0⟩]) (hp : q.1.cmt.epu.psr.dmme = true)
    (hl : q.1.cmt.lsu.dmmu.tlbL 0 = 0x81) (hh : q.1.cmt.lsu.dmmu.tlbH 0 = 0) :
    (run D q (alone ldwOdd f) 8).1.Busy z D Backend.ldwOdd R .lsu2 (run D q (alone ldwOdd f) 8).2 ∧
      (run D q (alone ldwOdd f) 8).1.cmt.excCond .edpf = true ∧
      (run D q (alone ldwOdd f) 8).1.cmt.excCond .ealign = true ∧
      (run D q (alone ldwOdd f) 8).1.cmt.excCond .edtm = false := by
  have hq : (quietIn f).Quiet := quietIn_quiet hf
  have hd : Backend.ldwOdd.WellFormed := idDec_wellFormed _ _ _ _ _ _ _
  obtain ⟨hrdy, hm, -⟩ := h.empty.solo (u := alone Backend.ldwOdd f) h.pending h.seFls hd
    (soloIn_alone _ hf) fun _ => hq
  have hm₆ := (hm 6 le_rfl).2
  have hreq := hrdy.request (by decide) hq (by
    simp [Cmt.pCeS1, Cmt.icinvStallReq, Cmt.icinvWe, EpuReq.icInvWe, cmtIn, quietIn])
  obtain ⟨e₁, e₂, -, -, e₅, e₆⟩ := hrdy.solo.head_eq hrdy.valid
  rw [hR] at e₆
  set s₆ := (run D q (alone Backend.ldwOdd f) 6).1 with hs₆
  set x₆ := s₆.cmtIn D (quietIn f) with hx₆
  -- the request
  have hopc : Backend.ldwOdd.lsu = ⟨true, false, false, false, 2⟩ := by decide
  have hlsa : (Backend.ldwOdd.exec (seqRun [⟨ori, 0⟩])).opera = 1 := by decide
  have hepu : Backend.ldwOdd.epu = ⟨false, false⟩ ∧ Backend.ldwOdd.fe.any = false := by decide
  have hl₆ : (s₆.head D 0).lsuReq = ⟨true, ⟨true, false, false, false, 2⟩, 1,
      (Backend.ldwOdd.exec (seqRun [⟨ori, 0⟩])).operb, false,
      (Backend.ldwOdd.exec (seqRun [⟨ori, 0⟩])).operb, false,
      (Backend.ldwOdd.exec (seqRun [⟨ori, 0⟩])).operb⟩ := by
    rw [CmtHead.lsuReq, CmtHead.needsPipe, CmtHead.epuReq, e₁, e₂, e₅, e₆, hopc, hepu.1,
      hepu.2, hlsa]
    rfl
  have hstage : (s₆.head D 0).startStage = .lsu1 := by
    rw [CmtHead.startStage, hl₆]
    rfl
  have hn₆ : s₆.cmt.pipeReq x₆ = true := (hrdy.pipeReq _).trans (by decide)
  have hce : s₆.cmt.pCeS1 x₆ = true := by
    simp [Cmt.pCeS1, Cmt.icinvStallReq, Cmt.icinvWe, EpuReq.icInvWe, hx₆, cmtIn, quietIn]
  have hin : s₆.cmt.lsuReqIn x₆ = (s₆.head D 0).lsuReq :=
    (Cmt.reqIn_of_pipeReq hrdy.pending hn₆).2
  have hb₇ := hreq.1
  rw [hstage] at hb₇
  -- the lookup
  have htlb : (s₆.cmt.lsuIn x₆).tlbReq = true := by
    change (s₆.cmt.pCeS1 x₆ && (s₆.cmt.lsuReqIn x₆).valid && !(s₆.cmt.lsuReqIn x₆).dcop) = true
    rw [hce, hin, hl₆]
    rfl
  have hva : (s₆.cmt.lsuIn x₆).vaddr = 1 := by
    change (s₆.cmt.lsuReqIn x₆).vaddr = 1
    rw [hin, hl₆]
    rfl
  have hdm : (s₆.cmt.lsuIn x₆).psrDmme = true := by
    change (s₆.cmt.epu.psrNext (s₆.cmt.epuIn x₆)).dmme = true
    rw [(hrdy.solo.inv.cmt.quiet hrdy.pending).psrNext,
      show s₆.cmt.epu.psr = q.1.cmt.epu.psr from congrArg Prod.fst hm₆, hp]
  have hlook : (s₆.next D (quietIn f)).cmt.lsu.dmmu.edpf = true ∧
      (s₆.next D (quietIn f)).cmt.lsu.dmmu.edtm = false := by
    have el : s₆.cmt.lsu.dmmu.tlbL = q.1.cmt.lsu.dmmu.tlbL := congrArg (fun m => m.2.2.1) hm₆
    have eh : s₆.cmt.lsu.dmmu.tlbH = q.1.cmt.lsu.dmmu.tlbH := congrArg (fun m => m.2.2.2) hm₆
    have hdmmu : (s₆.next D (quietIn f)).cmt.lsu.dmmu =
        s₆.cmt.lsu.dmmu.next (s₆.cmt.lsuIn x₆).tlbReq ((s₆.cmt.lsuIn x₆).vaddr.extractLsb' 13 19)
          (s₆.cmt.lsuIn x₆).opc.store (s₆.cmt.lsuIn x₆).psrDmme (s₆.cmt.lsuIn x₆).psrRm
          (s₆.cmt.lsuIn x₆).tlbl (s₆.cmt.lsuIn x₆).tlbh := rfl
    rw [hdmmu, htlb, hva, hdm]
    generalize (s₆.cmt.lsuIn x₆).opc.store = we
    generalize (s₆.cmt.lsuIn x₆).psrRm = rm
    have h0 : (BitVec.extractLsb' 0 tlbP (BitVec.extractLsb' 13 19 (1 : Word))) = 0 := by decide
    simp only [Dmmu.edpf, Dmmu.edtm, Dmmu.permDenied, Dmmu.tlbMiss, Dmmu.next, ldff_true, h0,
      el, eh, hl, hh]
    cases we <;> cases rm <;> decide
  have hal : (s₆.next D (quietIn f)).cmt.lsu.s1Ealign = true := by
    change ldff (s₆.cmt.pCeS1 x₆) (s₆.cmt.lsuReqIn x₆).misalign _ = true
    rw [hce, hin, hl₆]
    rfl
  have hb₈ := hb₇.next_lsu hq rfl
  have hs₈ : (run D q (alone Backend.ldwOdd f) 8).1 = (s₆.next D (quietIn f)).next D (quietIn f) :=
    rfl
  have hv : ((s₆.next D (quietIn f)).next D (quietIn f)).cmt.lsu.s2Valid = true :=
    hb₈.flight.s2Valid
  have h₁ : ((s₆.next D (quietIn f)).next D (quietIn f)).cmt.lsu.s2Edpf = true := hlook.1
  have h₂ : ((s₆.next D (quietIn f)).next D (quietIn f)).cmt.lsu.s2Ealign = true := hal
  have h₃ : ((s₆.next D (quietIn f)).next D (quietIn f)).cmt.lsu.s2Edtm = false := hlook.2
  refine ⟨hb₈, ?_, ?_, ?_⟩
  · rw [hs₈, Cmt.excCond, Lsu.edpf, hv, h₁]
    rfl
  · rw [hs₈, Cmt.excCond, Lsu.ealign, hv, h₂]
    rfl
  · rw [hs₈, Cmt.excCond, Lsu.edtm, h₃, Bool.and_false]

/-- Three instructions enable the data MMU with an entry without permissions, the fourth is a load
from address one. -/
theorem Between.twoCauses (h : q.1.Between z D [] q.2) (hf : f.lrdWe = false)
    (hl : q.1.cmt.lsu.dmmu.tlbL = fun _ => 0) (hh : q.1.cmt.lsu.dmmu.tlbH = fun _ => 0) :
    let q₁ := run D q (alone ori f) 7
    let q₂ := run D q₁ (alone wmsrTlbl f) 9
    let q₃ := run D q₂ (alone wmsrPsr f) 9
    let q₄ := run D q₃ (alone Backend.ldwOdd f) 8
    (∃ R, q₄.1.Busy z D Backend.ldwOdd R .lsu2 q₄.2) ∧ q₄.1.cmt.excCond .edpf = true ∧
      q₄.1.cmt.excCond .ealign = true ∧ q₄.1.cmt.excCond .edtm = false := by
  intro q₁ q₂ q₃ q₄
  -- the register
  obtain ⟨r₁, a₁, d₁, h₁, m₁⟩ := h.step (d := ori) (idDec_wellFormed _ _ _ _ _ _ _) hf (by decide)
    (by decide)
  obtain ⟨l₁, u₁⟩ := Cmt.tlb_of_msrs m₁
  rw [hl] at l₁
  rw [hh] at u₁
  change q₁.1.Between z D _ q₁.2 at h₁
  change q₁.1.cmt.lsu.dmmu.tlbL = _ at l₁
  change q₁.1.cmt.lsu.dmmu.tlbH = _ at u₁
  clear_value q₁
  -- the entry
  have hr₁ := (seqRun_prog (a := a₁) (b := 0) (c := 0) d₁ (u := ⟨wmsrTlbl, 0, 0, 0, 0⟩) rfl
    (v := ⟨wmsrPsr, 0, 0, 0, 0⟩) rfl).1
  obtain ⟨r₂, a₂, d₂, h₂, -, -, l₂, u₂⟩ :=
    h₁.wmsr (d := wmsrTlbl) (idDec_wellFormed _ _ _ _ _ _ _) hf
    (by decide) (by decide) (congrArg wmsrTlbl.exec hr₁) (by decide)
  rw [l₁, if_pos (by decide)] at l₂
  rw [u₁, if_neg (by decide)] at u₂
  change q₂.1.Between z D _ q₂.2 at h₂
  change q₂.1.cmt.lsu.dmmu.tlbL = _ at l₂
  change q₂.1.cmt.lsu.dmmu.tlbH = _ at u₂
  clear_value q₂
  -- the PSR
  have hr₂ := (seqRun_prog (a := a₁) (b := a₂) (c := 0) d₁ d₂ (v := ⟨wmsrPsr, 0, 0, 0, 0⟩) rfl).2.1
  obtain ⟨r₃, a₃, d₃, h₃, -, p₃, l₃, u₃⟩ :=
    h₂.wmsr (d := wmsrPsr) (idDec_wellFormed _ _ _ _ _ _ _) hf
    (by decide) (by decide) (congrArg wmsrPsr.exec hr₂) (by decide)
  rw [if_pos (by decide)] at p₃
  rw [l₂, if_neg (by decide)] at l₃
  rw [u₂, if_neg (by decide)] at u₃
  change q₃.1.Between z D _ q₃.2 at h₃
  change q₃.1.cmt.epu.psr.dmme = _ at p₃
  change q₃.1.cmt.lsu.dmmu.tlbL = _ at l₃
  change q₃.1.cmt.lsu.dmmu.tlbH = _ at u₃
  clear_value q₃
  -- the load
  have hr₃ := (seqRun_prog (a := a₁) (b := a₂) (c := a₃) d₁ d₂ d₃).2.2
  obtain ⟨hb, c₁, c₂, c₃⟩ := h₃.ldwOdd hf hr₃ (p₃.trans (by decide)) (by rw [l₃]; decide)
    (by rw [u₃])
  exact ⟨⟨_, hb⟩, c₁, c₂, c₃⟩

end TwoCauses

theorem setWidth_append_right {a b : ℕ} (v : BitVec a) (w : BitVec b) :
    (v ++ w).setWidth b = w := by
  refine BitVec.eq_of_getLsbD_eq fun i hi => ?_
  simp [BitVec.getLsbD_append, hi]

/-- **A misaligned access to a page that denies it has two causes**, and goes where neither vector
points. -/
theorem misaligned_and_denied :
    let f := emptyInsn.d
    let q₁ := run 3 (reset 4 emptyInsn, Trace.reset emptyInsn) (alone ori f) 7
    let q₂ := run 3 q₁ (alone wmsrTlbl f) 9
    let q₃ := run 3 q₂ (alone wmsrPsr f) 9
    let q := run 3 q₃ (alone ldwOdd f) 8
    (traced 4 3 emptyInsn).Reach q ∧ q.1.cmt.excCond .edpf = true ∧ q.1.cmt.excCond .ealign = true ∧
      q.1.cmt.excFlush (q.1.cmtIn 3 (quietIn f)) = true ∧
      ∀ a, a ≠ .eret → q.1.cmt.epu.excFlushTgt (q.1.cmt.epuIn (q.1.cmtIn 3 (quietIn f))) vectors ≠
        q.1.cmt.excTgt (q.1.cmtIn 3 (quietIn f)) vectors a := by
  intro f q₁ q₂ q₃ q
  have h₀ : (reset 4 emptyInsn).Between emptyInsn 3 [] (Trace.reset emptyInsn) :=
    ⟨empty_reset 4 3 emptyInsn, rfl, rfl⟩
  obtain ⟨⟨R, hb⟩, h₁, h₂, h₃⟩ :=
    Between.twoCauses (q := (reset 4 emptyInsn, Trace.reset emptyInsn))
    (f := f) h₀ (by decide) rfl rfl
  change q.1.Busy emptyInsn 3 ldwOdd R .lsu2 q.2 at hb
  change q.1.cmt.excCond .edpf = true at h₁
  change q.1.cmt.excCond .ealign = true at h₂
  change q.1.cmt.excCond .edtm = false at h₃
  clear_value q
  have hfe : q.1.cmt.epu.s1Fe = Fe.none := hb.flight.fe
  have e₁ : q.1.cmt.lsu.edpf = true := h₁
  have e₂ : q.1.cmt.lsu.ealign = true := h₂
  have e₃ : q.1.cmt.lsu.edtm = false := h₃
  refine ⟨hb.solo.reach, h₁, h₂, ?_, fun a ha => ?_⟩
  · simp [Cmt.excFlush, Epu.excFlush, Cmt.epuIn, Cmt.pCeS2, cmtIn, quietIn, e₁]
  · have htgt : q.1.cmt.epu.excFlushTgt (q.1.cmt.epuIn (q.1.cmtIn 3 (quietIn f))) vectors =
        (q.1.cmt.epu.s1Evect ++ vectors.edpf) ||| (q.1.cmt.epu.s1Evect ++ vectors.ealign) := by
      simp [Epu.excFlushTgt, Cmt.epuIn, e₁, e₂, e₃, hfe, Fe.none]
    rw [htgt]
    intro he
    have hlow : ∀ v : BitVec 6, (q.1.cmt.epu.s1Evect ++ v).setWidth 6 = v := by
      intro v
      exact setWidth_append_right q.1.cmt.epu.s1Evect v
    have he' := congrArg (BitVec.setWidth 6) he
    rw [BitVec.setWidth_or, hlow, hlow] at he'
    cases a <;> first | exact ha rfl | (rw [Cmt.excTgt, hlow] at he'; revert he'; decide)

/-! ### A system call -/

/-- The instruction word `0x420`, a system call. -/
def ecall : DecInsn := idDec true 0x420 false false false 0 noUpd

/-- An access that is not translated does not fault. -/
theorem doubleFault_of_dmme {c : Cmt} {x : CmtIn} (h : (c.epu.psrNext (c.epuIn x)).dmme = false) :
    c.doubleFault x = false := by
  have hd : (c.lsuIn x).psrDmme = false := h
  simp [Cmt.doubleFault, LsuIn.faults, Dmmu.edtm, Dmmu.edpf, Dmmu.next, ldff_true, hd]

/-- A system call as the first instruction: one cause is active, and the flush goes to its
vector. -/
theorem exc_unique_ecall :
    ∃ s t, (alignedOrMapped 4 3 emptyInsn).Reach (s, t) ∧ s.cmt.excCond .esyscall = true ∧
      ∃ a, s.cmt.excCond a = true ∧
        s.cmt.epu.excFlushTgt (s.cmt.epuIn (s.cmtIn 3 (quietIn emptyInsn.d))) vectors =
          s.cmt.excTgt (s.cmtIn 3 (quietIn emptyInsn.d)) vectors a := by
  have hwf : ecall.WellFormed := idDec_wellFormed _ _ _ _ _ _ _
  have hfl : emptyInsn.d.lrdWe = false := by decide
  have hq : (quietIn emptyInsn.d).Quiet := quietIn_quiet hfl
  obtain ⟨hrdy, hm, -⟩ := (empty_reset 4 3 emptyInsn).solo
    (q := (reset 4 emptyInsn, Trace.reset emptyInsn)) (u := alone ecall emptyInsn.d) rfl rfl hwf
    (soloIn_alone _ hfl) fun _ => hq
  set r := fun k => run 3 (reset 4 emptyInsn, Trace.reset emptyInsn)
    (alone ecall emptyInsn.d) k with hr
  have hreach : ∀ k ≤ 7, (alignedOrMapped 4 3 emptyInsn).Reach (r k) := by
    intro k
    induction k with
    | zero => exact fun _ => Machine.Reach.reset
    | succ k ih =>
        intro hk
        have hidle := hm k (by omega)
        have hreach := ih (by omega)
        have hquiet := (inv_of_reach (traced_of_tracedIf hreach)).cmt.quiet hidle.1
        refine Machine.Reach.tick (x := alone ecall emptyInsn.d k) hreach ⟨?_, ?_, ?_⟩
        · cases k with
          | zero => exact (soloIn_alone _ hfl).delivers hwf
          | succ k => exact hq.delivers
        · intro i hi
          cases k with
          | zero =>
              obtain rfl : i = 0 := Nat.lt_one_iff.1 hi
              exact ⟨Immu.reset, true, 0x420, false, 0, noUpd, rfl⟩
          | succ k => exact absurd hi (Nat.not_lt_zero i)
        · refine doubleFault_of_dmme ?_
          rw [hquiet.psrNext, show (r k).1.cmt.epu.psr = _ from congrArg Prod.fst hidle.2]
          rfl
  have hce : (r 6).1.cmt.pCeS1 ((r 6).1.cmtIn 3 (quietIn emptyInsn.d)) = true := by
    simp [Cmt.pCeS1, Cmt.icinvStallReq, Cmt.icinvWe, EpuReq.icInvWe, cmtIn, quietIn]
  obtain ⟨hb, hhead⟩ := hrdy.request (by decide) hq hce
  change (r 7).1.Busy _ _ _ _ _ (r 7).2 at hb
  change (r 7).1.head 3 0 = (r 6).1.head 3 0 at hhead
  obtain ⟨e₁, e₂, e₃, -, e₅, e₆⟩ := hrdy.solo.head_eq hrdy.valid
  change ((r 6).1.head 3 0).pay.lsu = _ at e₁
  change ((r 6).1.head 3 0).pay.epu = _ at e₂
  change ((r 6).1.head 3 0).exc = _ at e₅
  change ((r 6).1.head 3 0).vbank = _ at e₆
  have hr₇ := hreach 7 le_rfl
  generalize r 7 = q₇ at *
  generalize (r 6).1.head 3 0 = hd at *
  have hl : ecall.lsu = ⟨false, false, false, false, 0⟩ ∧ ecall.epu = ⟨false, false⟩ ∧
    ecall.fe.any = true := by decide
  have hop : (Fe.ofWord (ecall.exec (seqRun ([].map retiredOf))).opera).esyscall = true := by decide
  have hreq : hd.epuReq.s1Fe.esyscall = true := by
    rw [EpuReq.s1Fe, CmtHead.epuReq, e₅, e₆, hl.2.2]
    simpa using hop
  have hstage : hd.startStage = .epu := by
    simp [CmtHead.startStage, LsuReq.valid, LsuReq.dcop, CmtHead.lsuReq, CmtHead.epuReq,
      EpuReq.dcinvWe, EpuReq.dcflsWe, EpuReq.wmsr, EpuReq.s1WbValid, e₁, e₂, e₅, hl]
  rw [hstage] at hb
  have hcond : q₇.1.cmt.excCond .esyscall = true := by
    rw [Cmt.excCond, hb.flight.fe, if_pos rfl, hhead]
    exact hreq
  refine ⟨q₇.1, q₇.2, hr₇, hcond, (exc_unique hr₇).2.2 (quietIn emptyInsn.d) vectors ?_⟩
  rw [hb.flight.excFlush, hhead]
  simp [Fe.any, hreq, cmtIn, quietIn]

end Backend

end NanoCpu
