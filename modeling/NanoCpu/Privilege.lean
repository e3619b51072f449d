/-
**MSRs and the user mode.**

Nothing in the exception unit looks at the mode: a WMSR writes and an RMSR reads whatever its
address selects.  What keeps user mode out are the addresses that select nothing.

Main definitions:

* `EpuReq.selects` — the address of a request selects a register or an operation of a cache;
* `Backend.userBarred` — the back-end under programs whose user mode keeps to other addresses.

Main results:

* `Backend.user_isolated` — such a program changes no register in user mode, and reads zero;
* `Backend.user_becomes_root` — one that does not may write its mode.
-/

import NanoCpu.ExcCause

set_option relaxedAutoImplicit false
set_option autoImplicit false
set_option linter.unusedSectionVars false

namespace NanoCpu

/-! ### What an address selects -/

namespace EpuReq

variable (r : EpuReq)

/-- A register that an RMSR can read is selected. -/
def readable : Bool :=
  (r.bank .ps && (r.bankOff.getLsbD 0 || r.bankOff.getLsbD 1 || r.bankOff.getLsbD 2 ||
      r.bankOff.getLsbD 3 || r.bankOff.getLsbD 4 || r.bankOff.getLsbD 5)) ||
    (r.bank .imm && !r.bankOff.getLsbD 8) || (r.bank .dmm && !r.bankOff.getLsbD 8) ||
    (r.bank .ic && r.bankOff.getLsbD 0) || (r.bank .dc && r.bankOff.getLsbD 0) ||
    (r.bank .irqc && (r.bankOff.getLsbD 0 || r.bankOff.getLsbD 1)) ||
    (r.bank .tsc && (r.bankOff.getLsbD 0 || r.bankOff.getLsbD 1)) || r.bank .sr

/-- The request writes a register, works on a cache, or reads a register. -/
def selects : Bool :=
  r.wmsrWe.any || r.icInvWe || r.dcinvWe || r.dcflsWe || (r.reqValid && r.opc.rmsr && r.readable)

theorem selects_of_not_valid {r : EpuReq} (hr : r.reqValid = false) : r.selects = false := by
  simp [selects, wmsrWe_any_of_not_valid hr, icInvWe, dcinvWe, dcflsWe, wmsr_of_not_valid hr, hr]

end EpuReq

theorem EpuReq.readBits_eq_zero {l : List (Bool × Word)} (h : ∀ p ∈ l, p.1 = true → p.2 = 0) :
    EpuReq.readBits l = 0 := by
  have key : ∀ (l : List (Bool × Word)) (a : Word), (∀ p ∈ l, p.1 = true → p.2 = 0) →
      l.foldl (fun a p => a ||| if p.1 then p.2 else 0) a = a := by
    intro l
    induction l with
    | nil => exact fun a _ => rfl
    | cons p l ih =>
        intro a hl
        have hp : (if p.1 then p.2 else 0) = (0 : Word) := by
          split_ifs with h1
          · exact hl p List.mem_cons_self h1
          · rfl
        rw [List.foldl_cons, hp, show a ||| (0 : Word) = a by simp]
        exact ih a fun p' h' => hl p' (List.mem_cons_of_mem _ h')
  exact key l 0 h

theorem EpuReq.readBits_of_not {l : List (Bool × Word)} (h : ∀ p ∈ l, p.1 = false) :
    EpuReq.readBits l = 0 := by
  refine readBits_eq_zero fun p hp hb => ?_
  rw [h p hp] at hb
  cases hb

/-- What is not selected is read as zero. -/
theorem EpuIn.readMsr_eq_zero {x : EpuIn} (h : x.readable = false) (psr : Psr) (imr : Word) :
    x.readMsr psr imr = 0 := by
  simp only [EpuReq.readable, Bool.or_eq_false_iff, Bool.and_eq_false_iff] at h
  obtain ⟨⟨⟨⟨⟨⟨⟨h₁, h₂⟩, h₃⟩, h₄⟩, h₅⟩, h₆⟩, h₇⟩, h₈⟩ := h
  have leg : ∀ {b : Bool} {P : Prop}, b = true → b = false ∨ P → P := by
    intro b P hb h
    exact h.resolve_left (by simp [hb])
  refine EpuReq.readBits_eq_zero fun p hp hb => ?_
  simp only [List.mem_cons, List.not_mem_nil, or_false] at hp
  rcases hp with rfl | rfl | rfl | rfl | rfl | rfl | rfl | rfl
  · obtain ⟨⟨⟨⟨⟨b₀, b₁⟩, b₂⟩, b₃⟩, b₄⟩, b₅⟩ := leg hb h₁
    refine EpuReq.readBits_of_not ?_
    simp only [List.forall_mem_cons, b₀, b₁, b₂, b₃, b₄, b₅, List.not_mem_nil, false_imp_iff,
      implies_true, and_self]
  · exact EpuReq.readBits_of_not (List.forall_mem_singleton.2 (leg hb h₂))
  · exact EpuReq.readBits_of_not (List.forall_mem_singleton.2 (leg hb h₃))
  · exact EpuReq.readBits_of_not (List.forall_mem_singleton.2 (leg hb h₄))
  · exact EpuReq.readBits_of_not (List.forall_mem_singleton.2 (leg hb h₅))
  · obtain ⟨b₀, b₁⟩ := leg hb h₆
    refine EpuReq.readBits_of_not ?_
    simp only [List.forall_mem_cons, b₀, b₁, List.not_mem_nil, false_imp_iff,
      implies_true, and_self]
  · obtain ⟨b₀, b₁⟩ := leg hb h₇
    refine EpuReq.readBits_of_not ?_
    simp only [List.forall_mem_cons, b₀, b₁, List.not_mem_nil, false_imp_iff,
      implies_true, and_self]
  · exact absurd (hb.symm.trans h₈) Bool.noConfusion

/-! ### The mode while an instruction is in the units -/

namespace Cmt

variable {c : Cmt} {x : CmtIn}

/-- A stall of the D-cache holds the mode. -/
theorem rm_next_stall (hd : x.dcStall = true) : (c.next x).epu.psr.rm = c.epu.psr.rm := by
  have hce : (c.epuIn x).pCeS2 = false := by simp [epuIn, pCeS2, hd]
  change (c.epu.psrNext (c.epuIn x)).rm = _
  simp [Epu.psrNext, Psr.next, Psr.nold, Epu.psrWr, Epu.psrSave, Epu.commitWe, hce, WmsrWe.none]

/-- So does an instruction that has not finished. -/
theorem Inv.rm_next (hi : c.Inv (x.valid 0) (x.head 0)) (hp : (c.next x).pending = true) :
    (c.next x).epu.psr.rm = c.epu.psr.rm := by
  by_cases hq : c.pending = true
  · obtain ⟨g, hg⟩ := hi.flight hq
    cases hd : x.dcStall with
    | true => exact rm_next_stall hd
    | false =>
        have hnf : c.pipeFinish x = false := by simpa [Cmt.next, hq] using hp
        rw [hg.pipeFinish x, hd] at hnf
        have hge : g ≠ .epu := by
          rintro rfl
          simp at hnf
        have hg2 : g ≠ .lsu2 := by
          rintro rfl
          simp at hnf
        have hs2 : c.lsu.s2Valid = false := by rw [hg.s2Valid, decide_eq_false hg2]
        have hfe : c.epu.s1Fe = Fe.none := by rw [hg.fe, if_neg hge]
        exact congrArg Psr.rm (psrNext_eq hfe (hg.wmsrWe_any hge) hs2 x)
  · exact congrArg Psr.rm ((hi.quiet (Bool.eq_false_of_not_eq_true hq)).psrNext x)

end Cmt

/-! ### The user mode -/

namespace Backend

variable {n : ℕ} [NeZero n] {D : ℕ} {s : Backend n} {t : Trace} {x : BackendIn} {z : RInsn}

/-- The back-end under programs that never ask for a register or an operation of a cache in user
mode. -/
def userBarred (n : ℕ) [NeZero n] (D : ℕ) (z : RInsn) : Machine (Backend n × Trace) BackendIn :=
  tracedIf n D z fun s x =>
    s.cmt.epu.psr.rm = false → (s.cmt.epuReqIn (s.cmtIn D x)).selects = false

/-- What is in the units in user mode selects nothing, and has read zero. -/
def Barred (D : ℕ) (s : Backend n) : Prop :=
  s.cmt.pending = true → s.cmt.epu.psr.rm = false → (s.head D 0).pay.epu.any = true →
    (s.head D 0).epuReq.selects = false ∧ ((s.head D 0).pay.epu.rmsr = true → s.cmt.epu.wbDout = 0)

end Backend

/-- A request that selects nothing goes to the exception unit, and writes nothing there. -/
theorem Cmt.Flight.of_not_selects {c : Cmt} {h : CmtHead} {g : CmtStage} (hf : c.Flight h g)
    (hs : h.epuReq.selects = false) (hw : h.WellFormed) (he : h.pay.epu.any = true) : g = .epu := by
  simp only [EpuReq.selects, Bool.or_eq_false_iff] at hs
  obtain ⟨⟨⟨⟨-, -⟩, h₁⟩, h₂⟩, -⟩ := hs
  have hl : h.pay.lsu.any = false := by
    by_contra hne
    rw [hw.lsu_epu (Bool.eq_true_of_not_eq_false hne)] at he
    cases he
  have hst : h.startStage = .epu := by
    have hls : h.pay.lsu.load = false ∧ h.pay.lsu.store = false := by
      simp only [LsuOpc.any, Bool.or_eq_false_iff] at hl
      exact ⟨hl.1.1.1.1, hl.1.1.1.2⟩
    have hv : h.lsuReq.valid = false := by
      simp [LsuReq.valid, LsuReq.dcop, CmtHead.lsuReq, hls, h₁, h₂]
    have hb : h.epuReq.s1WbValid = true := by
      rw [EpuReq.s1WbValid, h₁, h₂, show h.epuReq.reqValid = true by simp [CmtHead.epuReq, he]]
      rfl
    rw [CmtHead.startStage, if_neg (by simp [hv]), if_pos hb]
  have := hf.start
  rw [hst] at this
  by_cases h2 : g = .lsu2
  · rw [if_pos h2] at this
    cases this
  · rw [if_neg h2] at this
    exact this.symm

namespace Backend

variable {n : ℕ} [NeZero n] {D : ℕ} {s : Backend n} {t : Trace} {x : BackendIn} {z : RInsn}

theorem Barred.next (hb : s.Barred D) (h : s.Inv D t) (hx : x.Delivers)
    (hu : s.cmt.epu.psr.rm = false → (s.cmt.epuReqIn (s.cmtIn D x)).selects = false) :
    (s.next D x).Barred D := by
  intro hp hrm hany
  obtain ⟨num, hpl, hv⟩ := h.place
  have hci : s.cmt.Inv ((s.cmtIn D x).valid 0) ((s.cmtIn D x).head 0) := h.cmt
  have hp' : (s.cmt.next (s.cmtIn D x)).pending = true := hp
  have hrm' : s.cmt.epu.psr.rm = false := (hci.rm_next hp').symm.trans hrm
  rw [(h.order.head_next hpl hv h.cmt hx hp).2] at hany ⊢
  by_cases hq : s.cmt.pending = true
  · -- the instruction waits for the D-cache, and the registers behind the first stage with it
    obtain ⟨h₁, h₂⟩ := hb hq hrm' hany
    obtain ⟨g, hg⟩ := hci.flight hq
    obtain rfl := hg.of_not_selects h₁ (h.order.head_wellFormed hv (hci.valid hq)) hany
    have hst : x.dcStall = true := by
      have hnf : s.cmt.pipeFinish (s.cmtIn D x) = false := by simpa [Cmt.next, hq] using hp'
      rw [hg.pipeFinish] at hnf
      simpa [cmtIn] using hnf
    refine ⟨h₁, fun hr => ?_⟩
    have hce : s.cmt.pCeS1 (s.cmtIn D x) = false := by simp [Cmt.pCeS1, cmtIn, hst]
    change ldff (s.cmt.pCeS1 (s.cmtIn D x)) _ s.cmt.epu.wbDout = 0
    rw [hce]
    exact h₂ hr
  · -- the request is made in this cycle
    have hq' : s.cmt.pending = false := Bool.eq_false_of_not_eq_true hq
    have hreq : s.cmt.pipeReq (s.cmtIn D x) = true ∧ s.cmt.pCeS1 (s.cmtIn D x) = true := by
      simpa [Cmt.next, hq'] using hp'
    have hin : s.cmt.epuReqIn (s.cmtIn D x) = (s.head D 0).epuReq :=
      (Cmt.reqIn_of_pipeReq hq' hreq.1).1
    have hsel := hu hrm'
    rw [hin] at hsel
    refine ⟨hsel, fun hr => ?_⟩
    have hread : (s.head D 0).epuReq.readable = false := by
      simp only [EpuReq.selects, Bool.or_eq_false_iff] at hsel
      simpa [CmtHead.epuReq, EpuOpc.any, hr] using hsel.2
    change ldff (s.cmt.pCeS1 (s.cmtIn D x)) ((s.cmt.epuIn (s.cmtIn D x)).readMsr _ _) _ = 0
    rw [hreq.2, ldff_true]
    refine EpuIn.readMsr_eq_zero ?_ _ _
    change (s.cmt.epuReqIn (s.cmtIn D x)).readable = false
    rw [hin]
    exact hread

theorem barred_of_reach (h : (userBarred n D z).Reach (s, t)) : s.Barred D := by
  have key : s.Inv D t ∧ s.Barred D := by
    refine Machine.Reach.inv (P := fun q => q.1.Inv D q.2 ∧ q.1.Barred D) ⟨inv_reset n D z, ?_⟩ ?_ h
    · intro hp
      cases hp
    · rintro ⟨s, t⟩ x ⟨hi, hb⟩ hx
      exact ⟨Inv.next hi hx.1, hb.next hi hx.1 hx.2⟩
  exact key.2

/-- **User mode changes no register and reads zero**, as long as no WMSR or RMSR that reaches the
head of the reorder buffer in user mode selects a register or an operation of a cache. -/
theorem user_isolated (h : (userBarred n D z).Reach (s, t))
    (hx : (userBarred n D z).allowed (s, t) x)
    (hrm : s.cmt.epu.psr.rm = false) (he : (s.head D 0).pay.epu.any = true) :
    (s.next D x).cmt.msrs = s.cmt.msrs ∧
      (s.cmt.epu.commitWe (s.cmt.epuIn (s.cmtIn D x))).any = false ∧
      s.cmt.icinvWe (s.cmtIn D x) = false ∧ (s.cmt.lsuReqIn (s.cmtIn D x)).dcop = false ∧
      (s.cmt.pipeFinish (s.cmtIn D x) = true → (s.head D 0).pay.epu.rmsr = true →
        s.cmt.prfWdataLsuEpu (s.cmtIn D x) = 0) := by
  have hi := inv_of_reach (traced_of_tracedIf h)
  obtain ⟨num, -, hval⟩ := hi.place
  by_cases hq : s.cmt.pending = true
  · obtain ⟨h₁, h₂⟩ := barred_of_reach h hq hrm he
    obtain ⟨g, hg⟩ := hi.cmt.flight hq
    have hwf := hi.order.head_wellFormed hval (hi.cmt.valid hq)
    obtain rfl := hg.of_not_selects h₁ hwf he
    have hno : (s.cmt.epuReqIn (s.cmtIn D x)).reqValid = false := Cmt.epuReqValid_of_pending hq
    have hexc : (s.head D 0).exc = false := by
      by_contra hne
      rw [hwf.exc_epu (Bool.eq_true_of_not_eq_false hne)] at he
      cases he
    have hfe : s.cmt.epu.s1Fe = Fe.none := by
      rw [hg.fe, if_pos rfl]
      exact EpuReq.s1Fe_of_not_exc hexc
    have hwe : s.cmt.epu.s1WmsrWe.any = false := by
      simp only [EpuReq.selects, Bool.or_eq_false_iff] at h₁
      rw [hg.wmsrWe rfl]
      exact h₁.1.1.1.1
    refine ⟨Cmt.msrs_next hfe hwe hg.s2Valid _, Epu.commitWe_of_none hwe _, ?_, ?_, fun _ hr => ?_⟩
    · rw [Cmt.icinvWe, EpuReq.icInvWe, EpuReq.wmsr_of_not_valid hno]
      rfl
    · simp [Cmt.lsuReqIn, LsuReq.dcop, EpuReq.dcinvWe, EpuReq.dcflsWe, EpuReq.wmsr_of_not_valid hno]
    · rw [Cmt.prfWdataLsuEpu, hg.wbDoutSel, hr, if_pos rfl, h₂ hr]
  · have hquiet := hi.cmt.quiet (Bool.eq_false_of_not_eq_true hq)
    have hsel := hx.2 hrm
    simp only [EpuReq.selects, Bool.or_eq_false_iff] at hsel
    obtain ⟨⟨⟨⟨-, h₁⟩, h₂⟩, h₃⟩, -⟩ := hsel
    refine ⟨hquiet.msrs_next _, Epu.commitWe_of_none hquiet.wmsrWe _, ?_, ?_, fun hf => ?_⟩
    · rw [Cmt.icinvWe, h₁, Bool.false_and]
    · change ((s.cmt.epuReqIn (s.cmtIn D x)).dcinvWe || (s.cmt.epuReqIn (s.cmtIn D x)).dcflsWe) =
        false
      rw [h₂, h₃]
      rfl
    · rw [hquiet.pipeFinish] at hf
      cases hf

/-! ### A user that becomes root -/

/-- `wmsr` of `r0` to the PSR: the program leaves the privileged mode. -/
def wmsrUser : DecInsn := idDec true 0x20460 false false false 0 noUpd

/-- `ori r1, r0, 0x10`. -/
def oriRm : DecInsn := idDec true 0x200061 false false false 0 noUpd

/-- `rmsr r2` from an address that selects nothing. -/
def rmsrNone : DecInsn := idDec true 0x1000482 false false false 0 noUpd

section UserMode

variable {q : Backend n × Trace} {f : DecInsn}

/-- The first instruction enters the user mode. -/
theorem Between.user (h : q.1.Between z D [] q.2) (hf : f.lrdWe = false) :
    let q₁ := run D q (alone wmsrUser f) 9
    (∃ r a, r.d = wmsrUser ∧ q₁.1.Between z D [(r, a)] q₁.2) ∧ q₁.1.cmt.epu.psr.rm = false := by
  intro q₁
  obtain ⟨r, a, hd, hb, hrm, -⟩ := h.wmsr (d := wmsrUser) (idDec_wellFormed _ _ _ _ _ _ _) hf
    (by decide) (by decide) rfl (by decide)
  rw [if_pos (by decide)] at hrm
  exact ⟨⟨r, a, hd, hb⟩, hrm.trans (by decide)⟩

/-- The third one leaves it. -/
theorem Between.root (h : q.1.Between z D [] q.2) (hf : f.lrdWe = false) :
    let q₁ := run D q (alone wmsrUser f) 9
    let q₂ := run D q₁ (alone oriRm f) 7
    let q₃ := run D q₂ (alone wmsrPsr f) 9
    (traced n D z).Reach q₂ ∧ q₂.1.cmt.epu.psr.rm = false ∧ (traced n D z).Reach q₃ ∧
      (∃ r a, r.d = wmsrPsr ∧ q₃.2.retired = q₂.2.retired ++ [(r, a)]) ∧
      q₃.1.cmt.epu.psr.rm = true := by
  intro q₁ q₂ q₃
  obtain ⟨⟨r₁, a₁, d₁, h₁⟩, hrm₁⟩ := h.user hf
  change q₁.1.Between z D _ q₁.2 at h₁
  change q₁.1.cmt.epu.psr.rm = false at hrm₁
  clear_value q₁
  have hwe : wmsrUser.lrdWe = false := by decide
  have hr₁ : seqRun ([(r₁, a₁)].map retiredOf) = seqRun [] := by
    rw [← d₁] at hwe
    exact seqFrom_of_not_lrdWe (List.forall_mem_singleton.2 hwe) _
  -- the register
  obtain ⟨r₂, a₂, d₂, h₂, m₂⟩ :=
    h₁.step (d := oriRm) (idDec_wellFormed _ _ _ _ _ _ _) hf (by decide) (by rw [hr₁]; decide)
  change q₂.1.Between z D _ q₂.2 at h₂
  change q₂.1.cmt.msrs = _ at m₂
  clear_value q₂
  have hrm₂ : q₂.1.cmt.epu.psr.rm = false := (congrArg (fun m => m.1.rm) m₂).trans hrm₁
  have hr₂ : seqRun (([(r₁, a₁)] ++ [(r₂, a₂)]).map retiredOf) = seqRun [⟨oriRm, 0⟩] := by
    have hmem : oriRm.isMem = false := by decide
    rw [List.map_append, seqRun_append, hr₁, ← d₂]
    rw [← d₂] at hmem
    exact seqRun_cons (l := []) hmem (by simp) a₂
  -- the PSR
  obtain ⟨r₃, a₃, d₃, h₃, hrm₃, -⟩ := h₂.wmsr (d := wmsrPsr) (idDec_wellFormed _ _ _ _ _ _ _) hf
    (by decide) (by decide) (congrArg wmsrPsr.exec hr₂) (by decide)
  rw [if_pos (by decide)] at hrm₃
  refine ⟨h₂.empty.reach, hrm₂, h₃.empty.reach, ⟨r₃, a₃, d₃, ?_⟩, hrm₃.trans (by decide)⟩
  rw [h₂.empty.retired]
  exact h₃.empty.retired

end UserMode

/-- **A user that becomes root**: in user mode a WMSR writes the PSR, and the program is
privileged. -/
theorem user_becomes_root :
    let f := emptyInsn.d
    let q₁ := run 3 (reset 4 emptyInsn, Trace.reset emptyInsn) (alone wmsrUser f) 9
    let q₂ := run 3 q₁ (alone oriRm f) 7
    let q₃ := run 3 q₂ (alone wmsrPsr f) 9
    (traced 4 3 emptyInsn).Reach q₂ ∧ q₂.1.cmt.epu.psr.rm = false ∧
      (traced 4 3 emptyInsn).Reach q₃ ∧
      (∃ r a, r.d = wmsrPsr ∧ q₃.2.retired = q₂.2.retired ++ [(r, a)]) ∧
      q₃.1.cmt.epu.psr.rm = true :=
  Between.root (q := (reset 4 emptyInsn, Trace.reset emptyInsn)) (f := emptyInsn.d)
    ⟨empty_reset 4 3 emptyInsn, rfl, rfl⟩ (by decide)

/-- Without a valid lane nothing is asked. -/
theorem selects_of_not_valid (hv : s.rob.cmtValid 1 D 0 = false) (x : BackendIn) :
    (s.cmt.epuReqIn (s.cmtIn D x)).selects = false := by
  refine EpuReq.selects_of_not_valid ?_
  simp [Cmt.epuReqIn, Cmt.epuReqValid, Cmt.ready2Fire, cmtIn, hv]

/-- The user mode is entered from reset. -/
theorem userBarred_user (n : ℕ) [NeZero n] (D : ℕ) (z : RInsn) {f : DecInsn}
    (hf : f.lrdWe = false) :
    (userBarred n D z).Reach (run D (reset n z, Trace.reset z) (alone wmsrUser f) 9) := by
  have h₀ : (reset n z).Between z D [] (Trace.reset z) := ⟨empty_reset n D z, rfl, rfl⟩
  have hwf : wmsrUser.WellFormed := idDec_wellFormed _ _ _ _ _ _ _
  set q := (reset n z, Trace.reset z) with hq
  obtain ⟨hb, hreq, -, -, hm⟩ :=
    Between.epu (q := q) (d := wmsrUser) h₀ hwf hf (by decide) (by decide) rfl (by decide)
  have hexc : (run D q (alone wmsrUser f) 7).1.cmt.excFlush
      ((run D q (alone wmsrUser f) 7).1.cmtIn D (quietIn f)) = false := by
    rw [hb.flight.excFlush, hreq, EpuReq.s1Fe_of_not_exc rfl]
    rfl
  obtain ⟨r, a, -, he, -⟩ := hb.finish (quietIn_quiet hf) rfl hexc
  refine tracedIf_run (q := q) Machine.Reach.reset fun j hj => ⟨?_, fun hrm => ?_⟩
  · cases j with
    | zero => exact (soloIn_alone _ hf).delivers hwf
    | succ j => exact (quietIn_quiet hf).delivers
  · obtain hj' | rfl : j ≤ 7 ∨ j = 8 := by omega
    · rw [show (run D q (alone wmsrUser f) j).1.cmt.epu.psr = _ from
        congrArg Prod.fst (hm j hj')] at hrm
      cases hrm
    · exact selects_of_not_valid (cmtValid_of_empty (inv_of_reach he.reach).order he.tail.symm) _

/-- An RMSR in user mode that selects nothing is isolated. -/
theorem user_isolated_rmsr :
    ∃ (s : Backend 4) (t : Trace), (userBarred 4 3 emptyInsn).Reach (s, t) ∧
      s.cmt.epu.psr.rm = false ∧ (s.head 3 0).pay.epu.rmsr = true ∧
      (s.next 3 (quietIn emptyInsn.d)).cmt.msrs = s.cmt.msrs ∧
      s.cmt.pipeFinish (s.cmtIn 3 (quietIn emptyInsn.d)) = true ∧
      s.cmt.prfWdataLsuEpu (s.cmtIn 3 (quietIn emptyInsn.d)) = 0 := by
  have hf : emptyInsn.d.lrdWe = false := by decide
  have hwf : rmsrNone.WellFormed := idDec_wellFormed _ _ _ _ _ _ _
  have hq : (quietIn emptyInsn.d).Quiet := quietIn_quiet hf
  obtain ⟨⟨r, a, hd, hb⟩, hrm⟩ := Between.user (q := (reset 4 emptyInsn, Trace.reset emptyInsn))
    (D := 3) ⟨empty_reset 4 3 emptyInsn, rfl, rfl⟩ hf
  have hreach := userBarred_user 4 3 emptyInsn hf
  generalize run 3 (reset 4 emptyInsn, Trace.reset emptyInsn) (alone wmsrUser emptyInsn.d) 9 =
    q at *
  have hR : seqRun ([(r, a)].map retiredOf) = seqRun [] := by
    have hwe : wmsrUser.lrdWe = false := by decide
    rw [← hd] at hwe
    exact seqFrom_of_not_lrdWe (List.forall_mem_singleton.2 hwe) _
  obtain ⟨hrdy, -, hval⟩ := hb.empty.solo (u := alone rmsrNone emptyInsn.d) hb.pending hb.seFls hwf
    (soloIn_alone _ hf) fun _ => hq
  obtain ⟨hbusy, hreq, hreq₆, -, hm⟩ := hb.epu (d := rmsrNone) hwf hf (by decide) (by decide)
    (congrArg rmsrNone.exec hR) (by decide)
  have hsel : (wmsrReq rmsrNone (rmsrNone.exec (seqRun []))).selects = false := by decide
  have hreach₇ : (userBarred 4 3 emptyInsn).Reach (run 3 q (alone rmsrNone emptyInsn.d) 7) := by
    refine tracedIf_run hreach fun j hj => ⟨?_, fun _ => ?_⟩
    · cases j with
      | zero => exact (soloIn_alone _ hf).delivers hwf
      | succ j => exact hq.delivers
    · obtain hj' | rfl : j < 6 ∨ j = 6 := by omega
      · exact selects_of_not_valid (hval j hj') _
      · exact (congrArg EpuReq.selects hreq₆).trans hsel
  have hrm₇ := (congrArg (fun m => m.1.rm) (hm 7 le_rfl)).trans hrm
  generalize run 3 q (alone rmsrNone emptyInsn.d) 7 = q₇ at *
  have hepu : (q₇.1.head 3 0).pay.epu = rmsrNone.epu := congrArg EpuReq.opc hreq
  have hopc : rmsrNone.epu = ⟨false, true⟩ := by decide
  have hr : (q₇.1.head 3 0).pay.epu.rmsr = true := by rw [hepu, hopc]
  have hfin : q₇.1.cmt.pipeFinish (q₇.1.cmtIn 3 (quietIn emptyInsn.d)) = true := by
    rw [hbusy.flight.pipeFinish]
    rfl
  have hno : (q₇.1.cmt.epuReqIn (q₇.1.cmtIn 3 (quietIn emptyInsn.d))).selects = false :=
    EpuReq.selects_of_not_valid (Cmt.epuReqValid_of_pending hbusy.pending)
  obtain ⟨h₁, -, -, -, h₂⟩ := user_isolated hreach₇ (x := quietIn emptyInsn.d)
    ⟨hq.delivers, fun _ => hno⟩ hrm₇ (by rw [hepu, hopc]; rfl)
  exact ⟨q₇.1, q₇.2, hreach₇, hrm₇, hr, h₁, hfin, h₂ hfin hr⟩

end Backend

end NanoCpu
