/-
**The commit unit** (`rtl/core/cmt.v`).

Commit looks at the two oldest instructions of the reorder buffer.  Two instructions without side
effects go together.  An instruction of the load/store unit or the exception unit goes alone: a
state machine hands it to the units once and waits until one of them writes back.  A failed
prediction, and an instruction behind which the program has to be fetched again, raise the flush of
the core one cycle after they have gone; an exception raises it in the place of its own commit.

Main definitions:

* `RobPay` — the payload of the reorder buffer, `CmtHead` — an instruction as commit sees it;
* `Cmt`, `CmtIn`, `Cmt.next` — the unit, with the load/store unit and the exception unit;
* `Cmt.Quiet`, `Cmt.Flight` — the units are empty; they work on the oldest instruction;
* `Cmt.Inv` — the invariant of the state machine.

Main results:

* `Cmt.Inv.next` — the invariant is kept as long as the reorder buffer holds on to the oldest
  instruction;
* `Cmt.Inv.hold` — the oldest instruction neither goes nor is flushed while the units work on it.
-/

import NanoCpu.Rob
import NanoCpu.Epu

set_option relaxedAutoImplicit false
set_option autoImplicit false

namespace NanoCpu

/-- The payload of the reorder buffer. -/
structure RobPay where
  epu : EpuOpc
  lsu : LsuOpc
  bpuUpd : BpuUpd
  pc : Pc
  lrd : LReg
  prd : PReg
  prdWe : Bool
  pfree : PReg
  isBcc : Bool
  isBrel : Bool
  isBreg : Bool
  deriving DecidableEq

/-- An instruction as commit sees it: the payload, and what it has written back. -/
structure CmtHead where
  pay : RobPay
  fls : Bool
  exc : Bool
  vbank : VBank

/-- The state of the unit: the state machine is in `S_PENDING` or in `S_IDLE`, the flush of the last
cycle's commit with its target, and the two functional units. -/
structure Cmt where
  pending : Bool
  seFls : Bool
  seTgt : Pc
  lsu : Lsu
  epu : Epu

/-- The inputs of one cycle: the lanes of the reorder buffer, the D-cache, the I-cache, and the MSRs
of other units. -/
structure CmtIn where
  valid : ℕ → Bool
  head : ℕ → CmtHead
  dcStall : Bool
  dcDout : Word
  icinvReady : Bool
  rd : MsrRd

namespace Cmt

def reset : Cmt := ⟨false, false, 0, Lsu.reset, Epu.reset⟩

variable (c : Cmt) (x : CmtIn)

/-! ### The requests -/

def lsuReq (i : ℕ) : Bool := !c.seFls && (x.head i).pay.lsu.any

def epuReq (i : ℕ) : Bool := !c.seFls && ((x.head i).pay.epu.any || (x.head i).exc)

def cmtB (i : ℕ) : Bool := (x.head i).pay.isBcc || (x.head i).pay.isBreg || (x.head i).pay.isBrel

def singleFu (i : ℕ) : Bool := c.lsuReq x i || c.epuReq x i || (x.head i).fls || cmtB x i

/-- `cmt_mask`: two instructions go together only if neither stands alone. -/
def mask (i : ℕ) : Bool := if i = 0 then true else !c.singleFu x 0 && !c.singleFu x 1

def ready2Fire (i : ℕ) : Bool := x.valid i && c.mask x i

def pipeReq : Bool := c.ready2Fire x 0 && (c.lsuReq x 0 || c.epuReq x 0)

def lsuReqValid : Bool := !c.pending && c.ready2Fire x 0 && (c.lsuReq x 0 || c.epuReq x 0)

def epuReqValid : Bool := !c.pending && c.ready2Fire x 0 && c.epuReq x 0

/-- What the exception unit is asked. -/
def epuReqIn : EpuReq where
  reqValid := c.epuReqValid x
  opc := (x.head 0).pay.epu
  exc := (x.head 0).exc
  fe := Fe.ofWord (x.head 0).vbank.opera
  pc := (x.head 0).pay.pc
  npc := (x.head 0).pay.pc + 1
  addr := (x.head 0).vbank.opera
  wdat := (x.head 0).vbank.operb

/-! ### The clock enables -/

/-- `msr_icinv_we`, the request to the I-cache. -/
def icinvWe : Bool := (c.epuReqIn x).icInvWe && !x.dcStall

def icinvStallReq : Bool := c.icinvWe x && !x.icinvReady

def pCeS1 : Bool := !x.dcStall && !c.icinvStallReq x

/-- `p_ce_s2`, `p_ce_s3`. -/
def pCeS2 : Bool := !x.dcStall

def epuIn : EpuIn :=
  { c.epuReqIn x with
    rd := x.rd
    edtm := c.lsu.edtm
    edpf := c.lsu.edpf
    ealign := c.lsu.ealign
    vaddr := c.lsu.s2Vaddr
    pCeS1 := c.pCeS1 x
    pCeS2 := pCeS2 x }

/-- What the load/store unit is asked. -/
def lsuReqIn : LsuReq where
  reqValid := c.lsuReqValid x
  opc := (x.head 0).pay.lsu
  lsa := (x.head 0).vbank.opera
  wdat := (x.head 0).vbank.operb
  dcinvWe := (c.epuReqIn x).dcinvWe
  dcinvNxt := (x.head 0).vbank.operb
  dcflsWe := (c.epuReqIn x).dcflsWe
  dcflsNxt := (x.head 0).vbank.operb

/-- The bits of the PSR are the bypassed ones. -/
def lsuIn : LsuIn :=
  { c.lsuReqIn x with
    psrDmme := (c.epu.psrNext (c.epuIn x)).dmme
    psrRm := (c.epu.psrNext (c.epuIn x)).rm
    psrDce := (c.epu.psrNext (c.epuIn x)).dce
    tlbl := c.epu.dmmTlbl (c.epuIn x)
    tlbh := c.epu.dmmTlbh (c.epuIn x)
    pCeS1 := c.pCeS1 x
    pCeS2 := pCeS2 x }

/-! ### Flush and commit -/

def excFlush : Bool := c.epu.excFlush (c.epuIn x)

def flush : Bool := c.seFls || c.excFlush x

def flushTgt (V : ExcVectors) : Pc :=
  if c.seFls then c.seTgt else c.epu.excFlushTgt (c.epuIn x) V

def lsuWbValid : Bool := c.lsu.wbValid (pCeS2 x)

def epuWbValid : Bool := c.epu.wbValid (c.epuIn x)

def pipeFinish : Bool := c.lsuWbValid x || c.epuWbValid x

def cmtCe : Bool := !c.pipeReq x || c.pipeFinish x

def fire (i : ℕ) : Bool := c.ready2Fire x i && (c.cmtCe x && !c.flush x)

/-- `cmt_pop_size`: the number of lanes that fire. -/
def popSize : ℕ := (c.fire x 0).toNat + (c.fire x 1).toNat

/-- The write port of the physical register file. -/
def prfWeLsuEpu : Bool := c.pipeFinish x && !c.flush x && (x.head 0).pay.prdWe

def prfWdataLsuEpu : Word := if c.epu.wbDoutSel then c.epu.wbDout else c.lsu.wbDout x.dcDout

/-- The state after the clock edge. -/
def next : Cmt where
  pending :=
    if c.pending then !c.pipeFinish x
    else c.pipeReq x && c.pCeS1 x
  seFls := ldff (c.fire x 0 || c.seFls)
    (((x.head 0).fls || c.epu.refetch (c.epuIn x)) && !c.seFls) c.seFls
  seTgt := ldff (c.fire x 0)
    (if (x.head 0).fls then (x.head 0).vbank.flsTgt else (x.head 0).pay.pc + 1) c.seTgt
  lsu := c.lsu.next (c.lsuIn x)
  epu := c.epu.next (c.epuIn x)

end Cmt

/-! ### The oldest instruction -/

namespace CmtHead

variable (h : CmtHead)

/-- The instruction has to wait for a functional unit. -/
def needsPipe : Bool := h.pay.lsu.any || (h.pay.epu.any || h.exc)

/-- The request that the instruction makes of the exception unit. -/
def epuReq : EpuReq where
  reqValid := h.pay.epu.any || h.exc
  opc := h.pay.epu
  exc := h.exc
  fe := Fe.ofWord h.vbank.opera
  pc := h.pay.pc
  npc := h.pay.pc + 1
  addr := h.vbank.opera
  wdat := h.vbank.operb

/-- The request that the instruction makes of the load/store unit. -/
def lsuReq : LsuReq where
  reqValid := h.needsPipe
  opc := h.pay.lsu
  lsa := h.vbank.opera
  wdat := h.vbank.operb
  dcinvWe := h.epuReq.dcinvWe
  dcinvNxt := h.vbank.operb
  dcflsWe := h.epuReq.dcflsWe
  dcflsNxt := h.vbank.operb

/-- What decoding and execution guarantee of an instruction that reaches commit. -/
structure WellFormed : Prop where
  lsu_any : h.pay.lsu.any = true →
    h.pay.lsu.load = true ∨ h.pay.lsu.store = true ∨ h.pay.lsu.barr = true
  lsu_epu : h.pay.lsu.any = true → h.pay.epu.any = false
  exc_lsu : h.exc = true → h.pay.lsu.any = false
  exc_epu : h.exc = true → h.pay.epu.any = false
  exc_fe : h.exc = true → (Fe.ofWord h.vbank.opera).any = true

end CmtHead

/-! ### The state machine -/

/-- How far the units have come with an instruction: it is in the first or the second stage of the
load/store unit, in the exception unit, or in none of them. -/
inductive CmtStage
  | lsu1 | lsu2 | epu | nowhere
  deriving DecidableEq, Repr

/-- Where an instruction is when it has just been handed over. -/
def CmtHead.startStage (h : CmtHead) : CmtStage :=
  if h.lsuReq.valid then .lsu1 else if h.epuReq.s1WbValid then .epu else .nowhere

namespace CmtHead

variable {h : CmtHead}

/-- A load or a store asks nothing of the exception unit. -/
theorem WellFormed.epuReq_of_lsu (hw : h.WellFormed) (hl : h.pay.lsu.any = true) :
    h.epuReq.reqValid = false := by
  have hx : h.exc = false := by
    by_contra hne
    rw [hw.exc_lsu (by simpa using hne)] at hl
    cases hl
  simp [epuReq, hw.lsu_epu hl, hx]

/-- An MSR operation is no exception. -/
theorem WellFormed.not_exc_of_wmsr (hw : h.WellFormed) {b : MsrBank} (hb : h.epuReq.wmsr b = true) :
    h.exc = false := by
  by_contra hne
  have := hw.exc_epu (by simpa using hne)
  simp only [EpuReq.wmsr, epuReq, Bool.and_eq_true] at hb
  simp [EpuOpc.any, hb.1.2] at this

theorem lsuAny_of_mem (hm : h.pay.lsu.load = true ∨ h.pay.lsu.store = true) :
    h.pay.lsu.any = true := by
  rcases hm with hm | hm <;> simp [LsuOpc.any, hm]

/-- What goes to the load/store unit raises no exception and writes no register in the exception
unit. -/
theorem WellFormed.epuReq_of_lsuReq (hw : h.WellFormed) (hl : h.lsuReq.valid = true) :
    h.epuReq.s1WbValid = false ∧ h.epuReq.s1Fe = Fe.none ∧ h.epuReq.wmsrWe.any = false := by
  simp only [LsuReq.valid, Bool.and_eq_true, Bool.or_eq_true] at hl
  rcases hl.2 with hm | hd
  · have hr := hw.epuReq_of_lsu (lsuAny_of_mem hm)
    exact ⟨by simp [EpuReq.s1WbValid, hr], EpuReq.s1Fe_of_not_valid hr,
      EpuReq.wmsrWe_any_of_not_valid hr⟩
  · simp only [LsuReq.dcop, Bool.or_eq_true] at hd
    have hdc : h.epuReq.wmsr .dc = true := by
      rcases hd with hd | hd <;>
        simp only [lsuReq, EpuReq.dcinvWe, EpuReq.dcflsWe, Bool.and_eq_true] at hd <;> exact hd.1
    refine ⟨?_, EpuReq.s1Fe_of_not_exc (hw.not_exc_of_wmsr hdc), EpuReq.wmsrWe_any_of_dcop hd⟩
    rcases hd with hd | hd <;> simp only [lsuReq] at hd <;> simp [EpuReq.s1WbValid, hd]

/-- What is handed to neither unit is a barrier. -/
theorem WellFormed.barr_of_nowhere (hw : h.WellFormed) (hn : h.needsPipe = true)
    (hs : h.startStage = .nowhere) :
    h.pay.lsu.barr = true ∧ h.pay.lsu.load = false ∧ h.pay.lsu.store = false := by
  have hl : h.lsuReq.valid = false := by
    by_contra hne
    rw [startStage, if_pos (by simpa using hne)] at hs
    cases hs
  have he : h.epuReq.s1WbValid = false := by
    by_contra hne
    rw [startStage, if_neg (by simp [hl]), if_pos (by simpa using hne)] at hs
    cases hs
  simp only [LsuReq.valid, show h.lsuReq.reqValid = true from hn, Bool.true_and,
    Bool.or_eq_false_iff] at hl
  have hv : h.epuReq.reqValid = false := by
    have hd := hl.2
    simp only [LsuReq.dcop, lsuReq, Bool.or_eq_false_iff] at hd
    simpa [EpuReq.s1WbValid, hd.1, hd.2] using he
  have hany : h.pay.lsu.any = true := by
    simp only [needsPipe, Bool.or_eq_true] at hn
    rcases hn with hn | hn
    · exact hn
    · simp only [epuReq, Bool.or_eq_false_iff] at hv
      rcases hn with hn | hn
      · rw [hv.1] at hn
        cases hn
      · rw [hv.2] at hn
        cases hn
  have h₁ : h.pay.lsu.load = false := hl.1.1
  have h₂ : h.pay.lsu.store = false := hl.1.2
  rcases hw.lsu_any hany with hm | hm | hm
  · rw [h₁] at hm
    cases hm
  · rw [h₂] at hm
    cases hm
  · exact ⟨hm, h₁, h₂⟩

end CmtHead

namespace Cmt

/-- The units are empty. -/
structure Quiet (c : Cmt) : Prop where
  s1Valid : c.lsu.s1Valid = false
  s2Valid : c.lsu.s2Valid = false
  wbValid : c.epu.s1WbValid = false
  fe : c.epu.s1Fe = Fe.none
  refetch : c.epu.s1Refetch = false
  wmsrWe : c.epu.s1WmsrWe.any = false

/-- The units work on the instruction `h`, and have come to stage `g`. -/
structure Flight (c : Cmt) (h : CmtHead) (g : CmtStage) : Prop where
  start : h.startStage = if g = .lsu2 then .lsu1 else g
  s1Valid : c.lsu.s1Valid = decide (g = .lsu1)
  s2Valid : c.lsu.s2Valid = decide (g = .lsu2)
  wbValid : c.epu.s1WbValid = decide (g = .epu)
  wbDoutSel : c.epu.wbDoutSel = h.pay.epu.rmsr
  fe : c.epu.s1Fe = if g = .epu then h.epuReq.s1Fe else Fe.none
  refetch : c.epu.s1Refetch = (decide (g = .epu) && h.epuReq.s1Refetch)
  wmsrWe : g = .epu → c.epu.s1WmsrWe = h.epuReq.wmsrWe
  wmsrWe_any : g ≠ .epu → c.epu.s1WmsrWe.any = false
  lsu1 : g = .lsu1 → c.lsu.s1Size = h.pay.lsu.size ∧ c.lsu.s1SignExt = h.pay.lsu.signExt ∧
    c.lsu.s1Vaddr = h.lsuReq.vaddr ∧ c.lsu.s1Dcop = h.lsuReq.dcop ∧
    c.lsu.s1Ealign = h.lsuReq.misalign
  lsu2 : g = .lsu2 → c.lsu.s2Size = h.pay.lsu.size ∧ c.lsu.s2SignExt = h.pay.lsu.signExt ∧
    c.lsu.s2Vaddr = h.lsuReq.vaddr ∧ c.lsu.s2Ealign = h.lsuReq.misalign ∧
    c.lsu.s2Edtm = c.lsu.dmmu.edtm ∧ c.lsu.s2Edpf = c.lsu.dmmu.edpf

/-- The invariant of the state machine, where `v` says whether lane 0 is valid and `h` is what it
shows. -/
structure Inv (c : Cmt) (v : Bool) (h : CmtHead) : Prop where
  quiet : c.pending = false → c.Quiet
  se : c.pending = true → c.seFls = false
  valid : c.pending = true → v = true
  needs : c.pending = true → h.needsPipe = true
  flight : c.pending = true → ∃ g, c.Flight h g

variable {c : Cmt} {x : CmtIn}

/-! ### What a cycle requests -/

theorem epuReqValid_of_pending (hp : c.pending = true) : c.epuReqValid x = false := by
  simp [epuReqValid, hp]

theorem lsuReqValid_of_pending (hp : c.pending = true) : c.lsuReqValid x = false := by
  simp [lsuReqValid, hp]

/-- Without a request nothing is handed over. -/
theorem lsuReqValid_eq_false (hp : c.pipeReq x = false) : c.lsuReqValid x = false := by
  simp only [pipeReq] at hp
  rw [lsuReqValid, Bool.and_assoc, hp, Bool.and_false]

theorem epuReqValid_eq_false (hl : c.lsuReqValid x = false) : c.epuReqValid x = false := by
  simp only [lsuReqValid, epuReqValid] at *
  cases h : c.epuReq x 0 <;> simp_all

theorem pipeReq_eq (hs : c.seFls = false) (hv : x.valid 0 = true) :
    c.pipeReq x = (x.head 0).needsPipe := by
  simp [pipeReq, ready2Fire, mask, lsuReq, epuReq, hs, hv, CmtHead.needsPipe]

theorem seFls_of_pipeReq (hp : c.pipeReq x = true) : c.seFls = false := by
  simp only [pipeReq, lsuReq, epuReq, Bool.and_eq_true, Bool.or_eq_true] at hp
  rcases hp.2 with h | h <;> simpa using h.1

theorem valid_of_pipeReq (hp : c.pipeReq x = true) : x.valid 0 = true := by
  simp only [pipeReq, ready2Fire, Bool.and_eq_true] at hp
  exact hp.1.1

/-- A request is handed over as the oldest instruction makes it. -/
theorem reqIn_of_pipeReq (hi : c.pending = false) (hp : c.pipeReq x = true) :
    c.epuReqIn x = (x.head 0).epuReq ∧ c.lsuReqIn x = (x.head 0).lsuReq := by
  have hs := seFls_of_pipeReq hp
  have hv := valid_of_pipeReq hp
  have he : c.epuReqIn x = (x.head 0).epuReq := by
    simp [epuReqIn, CmtHead.epuReq, epuReqValid, ready2Fire, mask, epuReq, hi, hs, hv]
  refine ⟨he, ?_⟩
  simp [lsuReqIn, CmtHead.lsuReq, lsuReqValid, ready2Fire, mask, lsuReq, epuReq, hi, hs, hv, he,
    CmtHead.needsPipe]

/-- The I-cache is only asked along with a request. -/
theorem pCeS1_eq_pCeS2 (he : c.epuReqValid x = false) : c.pCeS1 x = pCeS2 x := by
  have : (c.epuReqIn x).icInvWe = false := by
    rw [EpuReq.icInvWe, EpuReq.wmsr_of_not_valid (x := c.epuReqIn x) he, Bool.false_and]
  simp [pCeS1, pCeS2, icinvStallReq, icinvWe, this]

theorem lsuIn_valid_eq_false (hl : c.lsuReqValid x = false) : (c.lsuIn x).valid = false := by
  change (c.lsuReqIn x).valid = false
  have : (c.lsuReqIn x).reqValid = false := hl
  rw [LsuReq.valid, this, Bool.false_and]

/-! ### Empty units -/

namespace Quiet

theorem pipeFinish (h : c.Quiet) (x : CmtIn) : c.pipeFinish x = false := by
  simp [Cmt.pipeFinish, lsuWbValid, Lsu.wbValid, h.s2Valid, epuWbValid, Epu.wbValid, h.wbValid]

theorem excFlush (h : c.Quiet) (x : CmtIn) : c.excFlush x = false := by
  simp [Cmt.excFlush, Epu.excFlush, epuIn, Lsu.edtm, Lsu.edpf, Lsu.ealign, h.s2Valid, h.fe, Fe.none]

theorem epu_refetch (h : c.Quiet) (x : CmtIn) : c.epu.refetch (c.epuIn x) = false := by
  simp [Epu.refetch, h.refetch]

/-- Empty units stay empty when nothing is handed over, or when the pipeline does not move. -/
theorem next (h : c.Quiet) (hq : c.lsuReqValid x = false ∨ c.pCeS1 x = false) :
    (c.next x).Quiet := by
  have hlsu : ∀ d : Bool, (c.lsuReqValid x = false → d = false) →
      ldff (c.pCeS1 x) d false = false := by
    intro d hd
    rcases hq with hq | hq
    · rw [hd hq]
      cases c.pCeS1 x <;> rfl
    · rw [hq]
      rfl
  have hval : c.lsuReqValid x = false → (c.epuReqIn x).reqValid = false := epuReqValid_eq_false
  refine ⟨?_, ?_, ?_, ?_, ?_, ?_⟩
  · change ldff (c.pCeS1 x) (c.lsuIn x).valid c.lsu.s1Valid = false
    rw [h.s1Valid]
    exact hlsu _ lsuIn_valid_eq_false
  · change ldff (pCeS2 x) c.lsu.s1Valid c.lsu.s2Valid = false
    rw [h.s1Valid, h.s2Valid]
    cases pCeS2 x <;> rfl
  · change ldff (c.pCeS1 x) (c.epuReqIn x).s1WbValid c.epu.s1WbValid = false
    rw [h.wbValid]
    refine hlsu _ fun hl => ?_
    rw [EpuReq.s1WbValid, hval hl, Bool.false_and, Bool.false_and]
  · change ldff (c.pCeS1 x) (c.epuReqIn x).s1Fe c.epu.s1Fe = Fe.none
    rw [h.fe]
    rcases hq with hq | hq
    · rw [EpuReq.s1Fe_of_not_valid (hval hq)]
      cases c.pCeS1 x <;> rfl
    · rw [hq]
      rfl
  · change ldff (c.pCeS1 x) (c.epuReqIn x).s1Refetch c.epu.s1Refetch = false
    rw [h.refetch]
    exact hlsu _ fun hl => EpuReq.s1Refetch_eq_false (EpuReq.wmsrWe_any_of_not_valid (hval hl))
  · change (ldff (c.pCeS1 x) (c.epuReqIn x).wmsrWe c.epu.s1WmsrWe).any = false
    rcases hq with hq | hq
    · cases c.pCeS1 x
      · exact h.wmsrWe
      · exact EpuReq.wmsrWe_any_of_not_valid (hval hq)
    · rw [hq]
      exact h.wmsrWe

end Quiet

/-! ### Working units -/

namespace Flight

variable {h : CmtHead} {g : CmtStage}

theorem pipeFinish (hf : c.Flight h g) (x : CmtIn) :
    c.pipeFinish x = (!x.dcStall && (decide (g = .lsu2) || decide (g = .epu))) := by
  simp only [Cmt.pipeFinish, lsuWbValid, Lsu.wbValid, hf.s2Valid, epuWbValid, Epu.wbValid,
    hf.wbValid, epuIn, pCeS2]
  cases g <;> cases x.dcStall <;> rfl

/-- The exceptions of a cycle are those of the instruction that finishes in it. -/
theorem excFlush (hf : c.Flight h g) (x : CmtIn) :
    c.excFlush x = (!x.dcStall &&
      ((decide (g = .lsu2) && c.lsu.exc) || (decide (g = .epu) && h.epuReq.s1Fe.any))) := by
  have hs := hf.s2Valid
  have hfe := hf.fe
  simp only [Cmt.excFlush, Epu.excFlush, epuIn, pCeS2, Lsu.exc, Lsu.edtm, Lsu.edpf,
    Lsu.ealign, hs, hfe]
  cases g
  · simp [Fe.none]
  · simp [Fe.none]
  · simp [Fe.any, Bool.or_assoc]
  · simp [Fe.none]

theorem pipeFinish_of_excFlush (hf : c.Flight h g) (he : c.excFlush x = true) :
    c.pipeFinish x = true := by
  rw [hf.excFlush] at he
  rw [hf.pipeFinish]
  cases g <;> simp_all

/-- The units stand still with the D-cache. -/
theorem next_stall (hf : c.Flight h g) (hp : c.pending = true) (hd : x.dcStall = true) :
    (c.next x).Flight h g := by
  have h₂ : pCeS2 x = false := by simp [pCeS2, hd]
  have h₁ : c.pCeS1 x = false := by
    rw [pCeS1_eq_pCeS2 (epuReqValid_of_pending hp), h₂]
  have hl : (c.next x).lsu = { c.lsu with dmmu := (c.next x).lsu.dmmu } := by
    simp [next, Lsu.next, lsuIn, h₁, h₂]
  have hm : (c.next x).lsu.dmmu.edtm = c.lsu.dmmu.edtm ∧
      (c.next x).lsu.dmmu.edpf = c.lsu.dmmu.edpf := by
    have : (c.lsuIn x).tlbReq = false := by simp [LsuIn.tlbReq, LsuIn.dcReq, lsuIn, h₁]
    simp only [next, Lsu.next, this]
    exact Dmmu.next_of_not_re _ _ _ _ _ _ _
  have he : (c.next x).epu.s1WbValid = c.epu.s1WbValid ∧ (c.next x).epu.wbDoutSel =
      c.epu.wbDoutSel ∧
      (c.next x).epu.s1Fe = c.epu.s1Fe ∧ (c.next x).epu.s1Refetch = c.epu.s1Refetch ∧
      (c.next x).epu.s1WmsrWe = c.epu.s1WmsrWe := by
    simp [next, Epu.next, epuIn, h₁]
  obtain ⟨e₁, e₂, e₃, e₄, e₅⟩ := he
  refine ⟨hf.start, ?_, ?_, ?_, ?_, ?_, ?_, ?_, ?_, ?_, ?_⟩
  · rw [hl]
    exact hf.s1Valid
  · rw [hl]
    exact hf.s2Valid
  · rw [e₁]
    exact hf.wbValid
  · rw [e₂]
    exact hf.wbDoutSel
  · rw [e₃]
    exact hf.fe
  · rw [e₄]
    exact hf.refetch
  · rw [e₅]
    exact hf.wmsrWe
  · rw [e₅]
    exact hf.wmsrWe_any
  · intro hg
    rw [hl]
    exact hf.lsu1 hg
  · intro hg
    rw [hm.1, hm.2, hl]
    exact hf.lsu2 hg

/-- While an instruction is worked on nothing follows it into the units. -/
theorem next_behind (hp : c.pending = true) (hd : x.dcStall = false) :
    (c.next x).lsu.s1Valid = false ∧ (c.next x).lsu.s2Valid = c.lsu.s1Valid ∧
      (c.next x).epu.s1WbValid = false ∧ (c.next x).epu.s1Fe = Fe.none ∧
      (c.next x).epu.s1Refetch = false ∧ (c.next x).epu.s1WmsrWe.any = false ∧
      (c.next x).epu.wbDoutSel = (x.head 0).pay.epu.rmsr := by
  have h₂ : pCeS2 x = true := by simp [pCeS2, hd]
  have hr : (c.epuReqIn x).reqValid = false := epuReqValid_of_pending hp
  have h₁ : c.pCeS1 x = true := by rw [pCeS1_eq_pCeS2 hr, h₂]
  refine ⟨?_, ?_, ?_, ?_, ?_, ?_, ?_⟩
  · change ldff (c.pCeS1 x) (c.lsuIn x).valid c.lsu.s1Valid = false
    rw [h₁, lsuIn_valid_eq_false (lsuReqValid_of_pending hp), ldff_true]
  · change ldff (pCeS2 x) c.lsu.s1Valid c.lsu.s2Valid = c.lsu.s1Valid
    rw [h₂, ldff_true]
  · change ldff (c.pCeS1 x) (c.epuReqIn x).s1WbValid c.epu.s1WbValid = false
    rw [h₁, EpuReq.s1WbValid, hr]
    rfl
  · change ldff (c.pCeS1 x) (c.epuReqIn x).s1Fe c.epu.s1Fe = Fe.none
    rw [h₁, EpuReq.s1Fe_of_not_valid hr, ldff_true]
  · change ldff (c.pCeS1 x) (c.epuReqIn x).s1Refetch c.epu.s1Refetch = false
    rw [h₁, EpuReq.s1Refetch_eq_false (EpuReq.wmsrWe_any_of_not_valid hr), ldff_true]
  · change (ldff (c.pCeS1 x) (c.epuReqIn x).wmsrWe c.epu.s1WmsrWe).any = false
    rw [h₁, ldff_true]
    exact EpuReq.wmsrWe_any_of_not_valid hr
  · change ldff (c.pCeS1 x) (x.head 0).pay.epu.rmsr c.epu.wbDoutSel = _
    rw [h₁, ldff_true]

/-- When an instruction finishes the units are empty. -/
theorem next_finish (hf : c.Flight h g) (hp : c.pending = true) (hd : x.dcStall = false)
    (hg : g = .lsu2 ∨ g = .epu) : (c.next x).Quiet := by
  obtain ⟨h₁, h₂, h₃, h₄, h₅, h₆, -⟩ := next_behind hp hd
  refine ⟨h₁, ?_, h₃, h₄, h₅, h₆⟩
  rw [h₂, hf.s1Valid]
  rcases hg with rfl | rfl <;> rfl

/-- An instruction in the first stage of the load/store unit moves on to the second. -/
theorem next_lsu (hf : c.Flight (x.head 0) .lsu1) (hp : c.pending = true)
    (hd : x.dcStall = false) : (c.next x).Flight (x.head 0) .lsu2 := by
  obtain ⟨h₁, h₂, h₃, h₄, h₅, h₆, h₇⟩ := next_behind hp hd
  have hc : pCeS2 x = true := by simp [pCeS2, hd]
  have ht : (c.lsuIn x).tlbReq = false := by
    rw [LsuIn.tlbReq, LsuIn.dcReq, lsuIn_valid_eq_false (lsuReqValid_of_pending hp), Bool.and_false,
      Bool.false_and]
  obtain ⟨e₁, e₂, e₃, -, e₅⟩ := hf.lsu1 rfl
  refine ⟨by simpa using hf.start, by simpa using h₁, ?_, by simpa using h₃, h₇, by simpa using h₄,
    by simpa using h₅, ?_, fun _ => h₆, ?_, fun _ => ?_⟩
  · rw [h₂, hf.s1Valid]
    rfl
  · intro hg
    cases hg
  · intro hg
    cases hg
  · simp only [next, Lsu.next, ht, show (c.lsuIn x).pCeS2 = true from hc, ldff_true, e₁, e₂, e₃, e₅,
      true_and]
    exact ⟨rfl, rfl⟩

/-- A barrier stays nowhere. -/
theorem next_nowhere (hf : c.Flight (x.head 0) .nowhere) (hp : c.pending = true)
    (hd : x.dcStall = false) : (c.next x).Flight (x.head 0) .nowhere := by
  obtain ⟨h₁, h₂, h₃, h₄, h₅, h₆, h₇⟩ := next_behind hp hd
  refine ⟨hf.start, by simpa using h₁, ?_, by simpa using h₃,
    h₇, by simpa using h₄, by simpa using h₅, ?_, fun _ => h₆, ?_, ?_⟩
  · rw [h₂, hf.s1Valid]
    rfl
  · intro hg
    cases hg
  · intro hg
    cases hg
  · intro hg
    cases hg

/-- The hand-over. -/
theorem of_request (hq : c.Quiet) (hi : c.pending = false) (hp : c.pipeReq x = true)
    (hc : c.pCeS1 x = true) (hw : (x.head 0).WellFormed) :
    (c.next x).Flight (x.head 0) (x.head 0).startStage := by
  obtain ⟨he, hl⟩ := reqIn_of_pipeReq hi hp
  set h := x.head 0 with hh
  have hs1 : (c.next x).lsu.s1Valid = h.lsuReq.valid := by
    change ldff (c.pCeS1 x) (c.lsuReqIn x).valid c.lsu.s1Valid = _
    rw [hc, hl, ldff_true]
  have hs2 : (c.next x).lsu.s2Valid = false := by
    change ldff (pCeS2 x) c.lsu.s1Valid c.lsu.s2Valid = false
    rw [hq.s1Valid, hq.s2Valid]
    cases pCeS2 x <;> rfl
  have hwb : (c.next x).epu.s1WbValid = h.epuReq.s1WbValid := by
    change ldff (c.pCeS1 x) (c.epuReqIn x).s1WbValid c.epu.s1WbValid = _
    rw [hc, he, ldff_true]
  have hfe : (c.next x).epu.s1Fe = h.epuReq.s1Fe := by
    change ldff (c.pCeS1 x) (c.epuReqIn x).s1Fe c.epu.s1Fe = _
    rw [hc, he, ldff_true]
  have hrf : (c.next x).epu.s1Refetch = h.epuReq.s1Refetch := by
    change ldff (c.pCeS1 x) (c.epuReqIn x).s1Refetch c.epu.s1Refetch = _
    rw [hc, he, ldff_true]
  have hwe : (c.next x).epu.s1WmsrWe = h.epuReq.wmsrWe := by
    change ldff (c.pCeS1 x) (c.epuReqIn x).wmsrWe c.epu.s1WmsrWe = _
    rw [hc, he, ldff_true]
  have hsel : (c.next x).epu.wbDoutSel = h.pay.epu.rmsr := by
    change ldff (c.pCeS1 x) (x.head 0).pay.epu.rmsr c.epu.wbDoutSel = _
    rw [hc, ldff_true]
  have hreg : (c.next x).lsu.s1Size = h.pay.lsu.size ∧ (c.next x).lsu.s1SignExt =
      h.pay.lsu.signExt ∧
      (c.next x).lsu.s1Vaddr = h.lsuReq.vaddr ∧ (c.next x).lsu.s1Dcop = h.lsuReq.dcop ∧
      (c.next x).lsu.s1Ealign = h.lsuReq.misalign := by
    rw [← hl]
    simp only [next, Lsu.next, show (c.lsuIn x).pCeS1 = true from hc, ldff_true]
    exact ⟨rfl, rfl, rfl, rfl, rfl⟩
  by_cases hv : h.lsuReq.valid = true
  · obtain ⟨w₁, w₂, w₃⟩ := hw.epuReq_of_lsuReq hv
    have hst : h.startStage = .lsu1 := by simp [CmtHead.startStage, hv]
    rw [hst]
    exact ⟨hst, by simp [hs1, hv], by simp [hs2], by simp [hwb, w₁], hsel, by simp [hfe, w₂],
      by simp [hrf, EpuReq.s1Refetch_eq_false w₃], by simp, fun _ => hwe ▸ w₃,
        fun _ => hreg, by simp⟩
  · have hv' : h.lsuReq.valid = false := by simpa using hv
    by_cases hb : h.epuReq.s1WbValid = true
    · have hst : h.startStage = .epu := by simp [CmtHead.startStage, hv', hb]
      rw [hst]
      exact ⟨hst, by simp [hs1, hv'], by simp [hs2], by simp [hwb, hb], hsel, by simp [hfe],
        by simp [hrf], fun _ => hwe, by simp, by simp, by simp⟩
    · have hst : h.startStage = .nowhere := by simp [CmtHead.startStage, hv', hb]
      have hn : h.needsPipe = true := by
        rw [← pipeReq_eq (seFls_of_pipeReq hp) (valid_of_pipeReq hp)]
        exact hp
      have hr : h.epuReq.reqValid = false := by
        refine hw.epuReq_of_lsu ?_
        have := (hw.barr_of_nowhere hn hst).1
        simp [LsuOpc.any, this]
      rw [hst]
      exact ⟨hst, by simp [hs1, hv'], by simp [hs2], by simp [hwb, hb], hsel,
        by simp [hfe, EpuReq.s1Fe_of_not_valid hr],
        by simp [hrf, EpuReq.s1Refetch_eq_false (EpuReq.wmsrWe_any_of_not_valid hr)], by simp,
        fun _ => hwe ▸ EpuReq.wmsrWe_any_of_not_valid hr, by simp, by simp⟩

end Flight

/-! ### The invariant -/

namespace Inv

/-- Nothing finishes while the state machine is idle. -/
theorem pending_of_pipeFinish {v : Bool} {h : CmtHead} (hi : c.Inv v h)
    (hf : c.pipeFinish x = true) : c.pending = true := by
  by_contra hne
  rw [(hi.quiet (by simpa using hne)).pipeFinish] at hf
  cases hf

/-- An exception is taken in the cycle in which its instruction finishes. -/
theorem pipeFinish_of_excFlush {v : Bool} {h : CmtHead} (hi : c.Inv v h)
    (he : c.excFlush x = true) : c.pipeFinish x = true := by
  by_cases hp : c.pending = true
  · obtain ⟨g, hg⟩ := hi.flight hp
    exact hg.pipeFinish_of_excFlush he
  · rw [(hi.quiet (by simpa using hp)).excFlush] at he
    cases he

theorem pipeReq_of_pending (hi : c.Inv (x.valid 0) (x.head 0)) (hp : c.pending = true) :
    c.pipeReq x = true := by
  rw [pipeReq_eq (hi.se hp) (hi.valid hp), hi.needs hp]

/-- The oldest instruction neither goes nor is flushed before the units have finished it. -/
theorem stays (hi : c.Inv (x.valid 0) (x.head 0)) (hq : c.pipeReq x = true)
    (hf : c.pipeFinish x = false) : c.fire x 0 = false ∧ c.flush x = false := by
  have hx : c.excFlush x = false := by
    by_contra hne
    rw [hi.pipeFinish_of_excFlush (by simpa using hne)] at hf
    cases hf
  exact ⟨by simp [fire, cmtCe, hq, hf], by simp [flush, hx, seFls_of_pipeReq hq]⟩

/-- The oldest instruction neither goes nor is flushed while the units work on it. -/
theorem hold (hi : c.Inv (x.valid 0) (x.head 0)) (hp : (c.next x).pending = true) :
    c.fire x 0 = false ∧ c.flush x = false := by
  by_cases hq : c.pending = true
  · simp only [next, hq, if_true, Bool.not_eq_true'] at hp
    exact hi.stays (hi.pipeReq_of_pending hq) hp
  · simp only [next, hq, Bool.false_eq_true, if_false, Bool.and_eq_true] at hp
    exact hi.stays hp.1 ((hi.quiet (by simpa using hq)).pipeFinish x)

/-- The invariant is kept, as long as the oldest instruction stays while the units work on it. -/
theorem next (hi : c.Inv (x.valid 0) (x.head 0)) (hw : x.valid 0 = true → (x.head 0).WellFormed)
    {v : Bool} {h : CmtHead} (hk : (c.next x).pending = true → v = true ∧ h = x.head 0) :
    (c.next x).Inv v h := by
  have hnp : (c.next x).pending = if c.pending then !c.pipeFinish x else c.pipeReq x && c.pCeS1 x :=
    rfl
  by_cases hp : c.pending = true
  · obtain ⟨g, hg⟩ := hi.flight hp
    rw [hp, if_pos rfl, hg.pipeFinish x] at hnp
    have hse : (c.next x).pending = true → (c.next x).seFls = false := by
      intro h'
      change ldff (c.fire x 0 || c.seFls) _ c.seFls = false
      rw [(hi.hold h').1, hi.se hp]
      rfl
    refine ⟨fun hq => ?_, hse, fun h' => (hk h').1, fun h' => ?_, fun h' => ?_⟩
    · -- the state machine leaves `S_PENDING` when the instruction finishes
      rw [hnp] at hq
      simp only [Bool.not_eq_false', Bool.and_eq_true, Bool.not_eq_true', Bool.or_eq_true,
        decide_eq_true_eq] at hq
      exact hg.next_finish hp hq.1 hq.2
    · rw [(hk h').2]
      exact hi.needs hp
    · rw [(hk h').2]
      by_cases hd : x.dcStall = true
      · exact ⟨g, hg.next_stall hp hd⟩
      · have hd' : x.dcStall = false := by simpa using hd
        rw [hnp, hd'] at h'
        cases g with
        | lsu1 => exact ⟨.lsu2, hg.next_lsu hp hd'⟩
        | lsu2 => simp at h'
        | epu => simp at h'
        | nowhere => exact ⟨.nowhere, hg.next_nowhere hp hd'⟩
  · have hp' : c.pending = false := by simpa using hp
    have hq := hi.quiet hp'
    rw [hp', if_neg Bool.false_ne_true] at hnp
    refine ⟨fun h' => ?_, fun h' => ?_, fun h' => (hk h').1, fun h' => ?_, fun h' => ?_⟩
    · refine hq.next ?_
      rw [hnp, Bool.and_eq_false_iff] at h'
      exact h'.imp lsuReqValid_eq_false id
    · rw [hnp, Bool.and_eq_true] at h'
      have hf := (hi.hold (x := x) (by rw [hnp, h'.1, h'.2]; rfl)).1
      change ldff (c.fire x 0 || c.seFls) _ c.seFls = false
      rw [hf, seFls_of_pipeReq h'.1]
      rfl
    · rw [(hk h').2]
      rw [hnp, Bool.and_eq_true] at h'
      rw [← pipeReq_eq (seFls_of_pipeReq h'.1) (valid_of_pipeReq h'.1)]
      exact h'.1
    · rw [(hk h').2]
      rw [hnp, Bool.and_eq_true] at h'
      exact ⟨_, Flight.of_request hq hp' h'.1 h'.2 (hw (valid_of_pipeReq h'.1))⟩

end Inv

theorem inv_reset (v : Bool) (h : CmtHead) : reset.Inv v h where
  quiet _ := ⟨rfl, rfl, rfl, rfl, rfl, rfl⟩
  se h' := by cases h'
  valid h' := by cases h'
  needs h' := by cases h'
  flight h' := by cases h'

/-! ### What goes -/

theorem valid_of_fire {i : ℕ} (h : c.fire x i = true) : x.valid i = true := by
  simp only [fire, ready2Fire, Bool.and_eq_true] at h
  exact h.1.1

theorem flush_of_fire {i : ℕ} (h : c.fire x i = true) : c.flush x = false := by
  simp only [fire, Bool.and_eq_true, Bool.not_eq_true'] at h
  exact h.2.2

theorem seFls_of_not_flush (h : c.flush x = false) : c.seFls = false := by
  simp only [flush, Bool.or_eq_false_iff] at h
  exact h.1

/-- The second lane goes only if neither lane stands alone. -/
theorem single_of_fire_one (h : c.fire x 1 = true) :
    c.singleFu x 0 = false ∧ c.singleFu x 1 = false := by
  simp only [fire, ready2Fire, mask, one_ne_zero, if_false, Bool.and_eq_true,
    Bool.not_eq_true'] at h
  exact h.1.2

theorem needsPipe_of_single {i : ℕ} (hs : c.seFls = false) (h : c.singleFu x i = false) :
    (x.head i).needsPipe = false := by
  simp only [singleFu, lsuReq, epuReq, hs, Bool.not_false, Bool.true_and, Bool.or_eq_false_iff] at h
  simp [CmtHead.needsPipe, h.1.1.1, h.1.1.2.1, h.1.1.2.2]

theorem fire_zero_of_fire_one (hv : x.valid 1 = true → x.valid 0 = true) (h : c.fire x 1 = true) :
    c.fire x 0 = true := by
  have h0 := hv (valid_of_fire h)
  have hce : (c.cmtCe x && !c.flush x) = true := by
    simp only [fire, Bool.and_eq_true] at h ⊢
    exact h.2
  simp [fire, ready2Fire, mask, h0, hce]

/-- The lanes that go are the lowest ones. -/
theorem fire_eq (hv : x.valid 1 = true → x.valid 0 = true) {i : ℕ} (hi : i < 2) :
    c.fire x i = decide (i < c.popSize x) := by
  have h10 := fire_zero_of_fire_one (c := c) hv
  rw [popSize]
  interval_cases i <;> cases h0 : c.fire x 0 <;> cases h1 : c.fire x 1 <;> simp_all

theorem popSize_le : c.popSize x ≤ 2 := by
  rw [popSize]
  cases c.fire x 0 <;> cases c.fire x 1 <;> decide

/-- A lane that goes and needs a functional unit is lane 0 in the cycle in which the unit
finishes. -/
theorem finish_of_fire {i : ℕ} (hi : i < 2) (h : c.fire x i = true)
    (hn : (x.head i).needsPipe = true) : i = 0 ∧ c.pipeFinish x = true := by
  have hs := seFls_of_not_flush (flush_of_fire h)
  obtain rfl | rfl : i = 0 ∨ i = 1 := by omega
  · refine ⟨rfl, ?_⟩
    have hp : c.pipeReq x = true := by rw [pipeReq_eq hs (valid_of_fire h), hn]
    simp only [fire, cmtCe, hp, Bool.and_eq_true, Bool.or_eq_true] at h
    simpa using h.2.1
  · rw [needsPipe_of_single hs (single_of_fire_one h).2] at hn
    cases hn

/-- When an instruction finishes without an exception it goes, alone. -/
theorem Inv.fire_of_finish (hi : c.Inv (x.valid 0) (x.head 0)) (hf : c.pipeFinish x = true)
    (hx : c.flush x = false) : c.fire x 0 = true ∧ c.fire x 1 = false := by
  have hp := hi.pending_of_pipeFinish hf
  refine ⟨by simp [fire, ready2Fire, mask, hi.valid hp, cmtCe, hf, hx], ?_⟩
  by_contra hne
  have h1 : c.fire x 1 = true := by simpa using hne
  have := needsPipe_of_single (seFls_of_not_flush hx) (single_of_fire_one h1).1
  rw [hi.needs hp] at this
  cases this

end Cmt

/-! ### The registers of commit -/

/-- The MSRs that commit keeps: the PSR and its bank, the interrupt mask, and the data TLB. -/
def Cmt.msrs (c : Cmt) : Psr × Word × (TlbIdx tlbP → Word) × (TlbIdx tlbP → Word) :=
  (c.epu.psr, c.epu.imr, c.lsu.dmmu.tlbL, c.lsu.dmmu.tlbH)

section MsrsNext

variable {c : Cmt}

theorem Cmt.psrNext_eq (hf : c.epu.s1Fe = Fe.none) (hw : c.epu.s1WmsrWe.any = false)
    (hs : c.lsu.s2Valid = false) (x : CmtIn) : c.epu.psrNext (c.epuIn x) = c.epu.psr := by
  refine Epu.psrNext_eq hf hw ?_ ?_ ?_ <;> simp [epuIn, Lsu.edtm, Lsu.edpf, Lsu.ealign, hs]

/-- Without an exception and without a write the registers stay. -/
theorem Cmt.msrs_next (hf : c.epu.s1Fe = Fe.none) (hw : c.epu.s1WmsrWe.any = false)
    (hs : c.lsu.s2Valid = false) (x : CmtIn) : (c.next x).msrs = c.msrs := by
  obtain ⟨b, hc⟩ := WmsrWe.eq_of_any (Epu.commitWe_of_none hw (c.epuIn x))
  have h₁ : (c.next x).epu.psr = c.epu.psr := psrNext_eq hf hw hs x
  have h₂ : (c.next x).epu.imr = c.epu.imr := by
    change Epu.imrNext _ _ = _
    rw [Epu.imrNext, hc]
    rfl
  have h₃ : (c.next x).lsu.dmmu.tlbL = c.lsu.dmmu.tlbL := by
    change Dmmu.write (c.epu.dmmTlbl (c.epuIn x)) _ = _
    rw [Epu.dmmTlbl, hc]
    rfl
  have h₄ : (c.next x).lsu.dmmu.tlbH = c.lsu.dmmu.tlbH := by
    change Dmmu.write (c.epu.dmmTlbh (c.epuIn x)) _ = _
    rw [Epu.dmmTlbh, hc]
    rfl
  rw [msrs, h₁, h₂, h₃, h₄, msrs]

theorem Cmt.Quiet.psrNext (h : c.Quiet) (x : CmtIn) : c.epu.psrNext (c.epuIn x) = c.epu.psr :=
  psrNext_eq h.fe h.wmsrWe h.s2Valid x

/-- Empty units change no register. -/
theorem Cmt.Quiet.msrs_next (h : c.Quiet) (x : CmtIn) : (c.next x).msrs = c.msrs :=
  Cmt.msrs_next h.fe h.wmsrWe h.s2Valid x

end MsrsNext

theorem Cmt.tlb_of_msrs {c c' : Cmt} (h : c.msrs = c'.msrs) :
    c.lsu.dmmu.tlbL = c'.lsu.dmmu.tlbL ∧ c.lsu.dmmu.tlbH = c'.lsu.dmmu.tlbH := by
  simp only [Cmt.msrs, Prod.mk.injEq] at h
  exact h.2.2

end NanoCpu
