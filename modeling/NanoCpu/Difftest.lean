/-
**What the chip reports to the co-simulation** (`rtl/core/difftest.v`, `ncpu64k.v`, `rn_rat.v`).

The reorder buffer does not keep the words of the instructions, so the monitor carries them beside
the pipeline: in registers beside the decoder and rename, and in a memory with the addresses of the
reorder buffer.  The register that a commit writes is found in an inverse of the map of the
architectural registers, and its value in the register file, one cycle later.

Beside the core with its log this shows what commit does: an event of a cycle is reported in the
next one, with the word that was fetched for the instruction.

Main definitions:

* `Difftest`, `Difftest.next` — the monitor;
* `Difftest.report` — the arguments of `dpic_commit_inst` for one channel;
* `Report.Shows` — a report shows an event.

Main results:

* `Difftest.carries_of_reach` — the words that the monitor carries are those of the instructions;
* `Difftest.reports_events` — **the reports of a cycle show the events of the cycle before**, in
  every run.
-/

import NanoCpu.CommittedValues
import NanoCpu.Lockstep

set_option relaxedAutoImplicit false
set_option autoImplicit false
set_option linter.unusedSectionVars false

namespace NanoCpu

/-- The registers of `difftest.v`, the inverse map of `rn_rat.v`, and `dft_cmtf_prd` of
`ncpu64k.v`. -/
structure Difftest where
  rnIns : ℕ → Word
  issueIns : ℕ → Word
  robIns : ℕ × ℕ → Word
  aratInv : PReg → LReg
  commitValid : ℕ → Bool
  commitExcp : Bool
  commitExcpVect : BitVec 8
  commitPc : ℕ → Pc
  commitIns : ℕ → Word
  commitRfWe : ℕ → Bool
  cmtfPrd : ℕ → PReg

/-- The arguments of `dpic_commit_inst`. -/
structure Report where
  pc : Word
  insn : Word
  wen : Bool
  wnum : LReg
  wdata : Word
  excp : Bool
  excpVect : Word
  deriving DecidableEq

namespace Difftest

variable {n : ℕ} [NeZero n] (C : CoreCfg) (s : Core n) (x : CoreIn) (d : Difftest)

/-- After reset; `z` stands for what reset leaves undefined. -/
def reset (z : Difftest) : Difftest :=
  { z with
    aratInv := fun _ => 0
    commitValid := fun _ => false
    commitExcp := false
    commitExcpVect := 0
    commitRfWe := fun _ => false }

/-- `cmt_dft_fire`: an exception is reported as well. -/
def dftFire (i : ℕ) : Bool := s.be.cmt.ready2Fire
    (s.cmtIn C x) i && (s.be.cmt.cmtCe (s.cmtIn C x) && !s.be.cmt.seFls)

/-- `cmt_ins`. -/
def cmtIns (i : ℕ) : Word := d.robIns (s.be.rob.headL 1 i, (s.be.rob.cmtBank 1 i).que.rptr C.D)

def next : Difftest where
  rnIns := ldff (s.idCe C x) (fun i => (s.fe.buf.idOut C.P i).ins) d.rnIns
  issueIns := ldff (s.be.issuePCe C.D (s.beIn x)) d.rnIns d.issueIns
  robIns := rfWrite (fun i => decide (i < s.be.robPushSize C.D (s.beIn x)))
    (fun i => (s.be.rob.freeBank 1 i, s.be.rob.freeId 1 C.D i)) d.issueIns 2 d.robIns
  aratInv := rfWrite (fun i => (s.be.head C.D i).pay.prdWe && s.be.fire C.D (s.beIn x) i)
    (fun i => (s.be.head C.D i).pay.prd) (fun i => (s.be.head C.D i).pay.lrd) 2 d.aratInv
  commitValid := dftFire C s x
  commitExcp := s.be.cmt.excFlush (s.cmtIn C x)
  commitExcpVect := (s.be.cmt.epu.excFlushTgt (s.be.cmt.epuIn (s.cmtIn C x)) C.V).extractLsb' 0 6 ++
    0#2
  commitPc := fun i => (s.be.head C.D i).pay.pc
  commitIns := cmtIns C s d
  commitRfWe := fun i => (s.be.head C.D i).pay.prdWe
  cmtfPrd := fun i => (s.be.head C.D i).pay.prd

/-- Channel `i`, none if it is not valid; the register file is that of the core in the same
cycle. -/
def report (i : ℕ) : Option Report :=
  if d.commitValid i then
    some
      { pc := Epu.pcWord (d.commitPc i)
        insn := d.commitIns i
        wen := d.commitRfWe i
        wnum := d.aratInv (d.cmtfPrd i)
        wdata := s.be.prf.regfile (d.cmtfPrd i)
        excp := decide (i = 0) && d.commitExcp
        excpVect := if i = 0 then d.commitExcpVect.setWidth 32 else 0 }
  else none

/-- The core with its log and the monitor. -/
def monitored (n : ℕ) [NeZero n] (C : CoreCfg) (pcRst : Pc) (u : Bpu) (w : IqWord) (z : RInsn)
    (z' : Difftest) : Machine ((Core n × CoreLog) × Difftest) CoreIn :=
  (Core.observed n C pcRst u w z).observe (reset z') (fun d q x => d.next C q.1 x) fun _ _ _ => True

variable {C s x d} {h : CoreLog} {pcRst : Pc} {u : Bpu} {w : IqWord} {z : RInsn} {z' : Difftest}

/-! ### The words beside the pipeline -/

/-- The words that the monitor carries are those that were fetched for the instructions. -/
structure Carries (C : CoreCfg) (s : Core n) (h : CoreLog) (d : Difftest) : Prop where
  rn : ∀ i < s.id.rnPushSize, d.rnIns i = (h.log.word (s.be.nextNum h.trace + i)).ins
  issue : ∀ i < s.be.rn.issuePushSize, d.issueIns i = (h.log.word (h.trace.log.tail + i)).ins
  rob : ∀ m, h.trace.log.Live m → d.robIns (robBank 1 m, robId 1 C.D m) = (h.log.word m).ins

/-- A flush leaves nothing behind. -/
theorem Carries.next_flush (h : CoreLog) (d : Difftest) (hf : s.flush C x = true) :
    Carries C (s.next C x) (Core.logNext C h s x) (d.next C s x) := by
  have hid : (s.next C x).id.rnPushSize = 0 := by simp [Core.next, Core.idNext, hf, ldff]
  have hrn : (s.next C x).be.rn.issuePushSize = 0 := (Backend.rn_next_flush hf).1
  obtain ⟨-, ht⟩ := Backend.Trace.next_log_flush (s := s.be) (D := C.D) (x := s.beIn x)
      (t := h.trace) hf
  refine ⟨fun i hi => ?_, fun i hi => ?_, fun m hm => ?_⟩
  · rw [hid] at hi
    exact absurd hi (Nat.not_lt_zero i)
  · rw [hrn] at hi
    exact absurd hi (Nat.not_lt_zero i)
  · have hlt : m < (h.trace.next C.D s.be (s.beIn x)).log.tail := hm.2
    omega

/-- What is pushed is written beside the reorder buffer, and the other words stay. -/
theorem robIns_next (hi : s.be.Inv C.D h.trace) (hc : Carries C s h d)
    (hf : s.flush C x = false) {m : ℕ} (hm : (Core.logNext C h s x).trace.log.Live m) :
    (d.next C s x).robIns (robBank 1 m, robId 1 C.D m) = (h.log.word m).ins := by
  obtain ⟨ho, -, num, hp, -⟩ := hi
  have hprot := ho.protocol hp (x := s.beIn x)
  have hsize := ho.size_le
  have hpush : s.be.robPushSize C.D (s.beIn x) ≤ s.be.rn.issuePushSize := by
    rw [Backend.robPushSize]
    split_ifs <;> omega
  have hfit := ho.rob.fits_push hprot
  have hlive := RobLog.live_next (l := h.trace.log) (x := s.be.robIn C.D (s.beIn x))
      (D := C.D) hf hm
  have hle := ho.rob.le
  refine rfWrite_eq_of_forall (fun j hj hw ha => ?_) ?_
  · -- a write to the slot is that of the instruction
    rw [decide_eq_true_eq] at hw
    rw [ho.rob.freeBank_eq, ho.rob.freeId_eq hj, Prod.mk.injEq] at ha
    have hmt : m < h.trace.log.tail + s.be.robPushSize C.D (s.beIn x) := by
      rcases hlive with ⟨-, hlt⟩ | ⟨-, hlt⟩
      · omega
      · exact hlt
    have heq := hfit.slot_inj (show h.trace.log.head ≤ h.trace.log.tail + j by omega)
      (show h.trace.log.tail + j < _ from Nat.add_lt_add_left hw _)
      (show h.trace.log.head ≤ m by rcases hlive with ⟨hlt, -⟩ | ⟨hlt, -⟩ <;> omega) hmt ha.1 ha.2
    rw [← heq]
    exact hc.issue j (by omega)
  · rcases hlive with ⟨hge, hlt⟩ | ⟨hge, hlt⟩
    · exact Or.inl (hc.rob m ⟨by omega, hlt⟩)
    · obtain ⟨j, rfl⟩ := Nat.exists_eq_add_of_le hge
      have hj : j < s.be.robPushSize C.D (s.beIn x) := by
        change _ < h.trace.log.tail + s.be.robPushSize C.D (s.beIn x) at hlt
        omega
      refine Or.inr ⟨j, by omega, decide_eq_true hj, ?_⟩
      rw [ho.rob.freeBank_eq, ho.rob.freeId_eq (by omega)]

/-- A cycle without a flush. -/
theorem Carries.next_move (hP : 1 ≤ C.P) (hw : s.fe.Fetches C.P C.F h.log)
    (hi : s.be.Inv C.D h.trace)
    (hfe : s.Feeds C h) (hc : Carries C s h d) (hf : s.flush C x = false) :
    Carries C (s.next C x) (Core.logNext C h s x) (d.next C s x) := by
  have hpop := hfe.popped
  have hle := hw.buf.le
  have hword : ∀ m < h.log.popped, (Core.logNext C h s x).log.word m = h.log.word m :=
    fun m hm => FetchLog.next_word_old (by omega)
  have hn : (s.next C x).be.nextNum (Core.logNext C h s x).trace =
      s.be.nextNum h.trace + if s.idCe C x then s.id.rnPushSize else 0 := Backend.nextNum_next hf
  have hnum : s.be.nextNum h.trace = h.trace.log.tail + s.be.rn.issuePushSize := rfl
  have htail : (Core.logNext C h s x).trace.log.tail =
      h.trace.log.tail + if s.idCe C x then s.be.rn.issuePushSize else 0 :=
        Backend.Trace.next_tail hf
  have hiss : (s.next C x).be.rn.issuePushSize =
      if s.idCe C x then s.id.rnPushSize else s.be.rn.issuePushSize := Backend.next_issuePushSize hf
  refine ⟨fun i hlt => ?_, fun i hlt => ?_, fun m hm => ?_⟩
  · rw [hn]
    cases hce : s.idCe C x with
    | false =>
        have hid : (s.next C x).id = s.id := by simp [Core.next, Core.idNext, hf, hce, ldff]
        have hd : (d.next C s x).rnIns = d.rnIns := by simp [next, hce, ldff]
        rw [hid] at hlt
        rw [hd, if_neg Bool.false_ne_true, Nat.add_zero, hword _ (by omega)]
        exact hc.rn i hlt
    | true =>
        -- the decoder takes the words that the buffer shows
        have hsz : (s.next C x).id.rnPushSize = s.fe.idPopCnt C.P (s.feIn C x) := by
          simp [Core.next, Core.idNext, hf, hce, ldff]
        have hd : (d.next C s x).rnIns i = (s.fe.buf.idOut C.P i).ins := by simp [next, hce, ldff]
        obtain ⟨h2, hcnt⟩ := hw.popCnt_le (x := s.feIn C x) hP
        have h2P : 2 ≤ 2 ^ C.P := Nat.le_self_pow (by omega) 2
        rw [hsz] at hlt
        have hold : (Core.logNext C h s x).log.word (h.log.popped + i) =
          h.log.word (h.log.popped + i) :=
          FetchLog.next_word_old (by omega)
        rw [hd, hw.buf.out_eq (by omega) (by omega), if_pos rfl, ← hpop, hold]
  · rw [htail]
    rw [hiss] at hlt
    cases hce : s.idCe C x with
    | false =>
        have hce' : s.be.issuePCe C.D (s.beIn x) = false := hce
        have hd : (d.next C s x).issueIns = d.issueIns := by simp [next, hce', ldff]
        rw [hce, if_neg Bool.false_ne_true] at hlt
        rw [hd, if_neg Bool.false_ne_true, Nat.add_zero, hword _ (by omega)]
        exact hc.issue i hlt
    | true =>
        have hce' : s.be.issuePCe C.D (s.beIn x) = true := hce
        have hd : (d.next C s x).issueIns = d.rnIns := by simp [next, hce', ldff]
        rw [hce, if_pos rfl] at hlt
        rw [hd, if_pos rfl, ← hnum, hword _ (by omega)]
        exact hc.rn i hlt
  · have hlt : m < h.log.popped := by
      have := hm.2
      rw [htail] at this
      split_ifs at this <;> omega
    rw [hword m hlt]
    exact robIns_next hi hc hf hm

/-- **The monitor carries the words of the instructions** in every reachable state. -/
theorem carries_of_reach (hP : 1 ≤ C.P) (hr : (monitored n C pcRst u w z z').Reach ((s, h), d)) :
    Carries C s h d := by
  have key : (Core.observed n C pcRst u w z).Reach (s, h) ∧ Carries C s h d := by
    refine Machine.Reach.inv (M := monitored n C pcRst u w z z')
      (P := fun q => (Core.observed n C pcRst u w z).Reach q.1 ∧ Carries C q.1.1 q.1.2 q.2) ?_ ?_ hr
    · refine ⟨Machine.Reach.reset, fun i hi => ?_, fun i hi => ?_, fun m hm => ?_⟩
      · exact absurd hi (Nat.not_lt_zero i)
      · exact absurd hi (Nat.not_lt_zero i)
      · exact absurd hm.2 (Nat.not_lt_zero m)
    · rintro ⟨⟨s, h⟩, d⟩ x ⟨hq, hc⟩ ⟨hx, -⟩
      obtain ⟨hfront, hback, hfe⟩ := Core.feeds_of_reach hP hq
      refine ⟨Machine.Reach.tick hq hx, ?_⟩
      cases hf : s.flush C x with
      | true => exact Carries.next_flush h d hf
      | false =>
          exact hc.next_move hP (Frontend.fetches_of_reach hP hfront)
            (Backend.inv_of_reach hback) hfe hf
  exact key.2

end Difftest

/-! ### The reports -/

/-- The report shows an event: of the instruction with the word `w`, with the registers `regs`
before it. -/
structure Report.Shows (r : Report) (w : IqWord) (regs : LReg → Word) (e : Event) : Prop where
  pc : r.pc = Epu.pcWord w.pc
  insn : r.insn = w.ins
  commit : ∀ i ans, e = .commit i ans → r.excp = false ∧ r.wen = i.lrdWe ∧
    (i.lrdWe = true → r.wnum = i.lrd ∧ r.wdata = i.result regs ans)
  except : ∀ tgt, e = .except tgt → r.excp = true ∧ r.excpVect = (Epu.pcWord tgt) &&& 0xff

namespace Difftest

variable {n : ℕ} [NeZero n] {C : CoreCfg} {s : Core n} {x : CoreIn} {d : Difftest} {h : CoreLog}
  {pcRst : Pc} {u : Bpu} {w : IqWord} {z : RInsn} {z' : Difftest} {i : ℕ}

/-- Without a flush what is reported is what goes. -/
theorem dftFire_of_move (hf : s.flush C x = false) (hi : i < 2) :
    dftFire C s x i = decide (i < s.be.popSize C.D (s.beIn x)) := by
  have hse : s.be.cmt.seFls = false := Cmt.seFls_of_not_flush hf
  have hfl : s.be.cmt.flush (s.cmtIn C x) = false := hf
  rw [← Backend.fire_eq hi]
  change _ = s.be.cmt.fire (s.cmtIn C x) i
  rw [dftFire, Cmt.fire, hse, hfl]

/-- A flush of the last commit reports nothing. -/
theorem dftFire_of_seFls (hse : s.be.cmt.seFls = true) : dftFire C s x i = false := by
  simp [dftFire, hse]

/-- An exception is reported of the oldest instruction, which is alone. -/
theorem dftFire_of_excFlush (hc : s.be.cmt.Inv (s.be.rob.cmtValid 1 C.D 0) (s.be.head C.D 0))
    (he : s.be.cmt.excFlush (s.cmtIn C x) = true) :
    s.be.rob.cmtValid 1 C.D 0 = true ∧ dftFire C s x 0 = true ∧ dftFire C s x 1 = false := by
  have hfin := hc.pipeFinish_of_excFlush he
  have hp := hc.pending_of_pipeFinish hfin
  have hreq : s.be.cmt.pipeReq (s.cmtIn C x) = true :=
    Cmt.Inv.pipeReq_of_pending (x := s.cmtIn C x) hc hp
  have hse := hc.se hp
  refine ⟨hc.valid hp, ?_, ?_⟩
  · have hr : s.be.cmt.ready2Fire (s.cmtIn C x) 0 = true := by
      rw [Cmt.pipeReq, Bool.and_eq_true] at hreq
      exact hreq.1
    simp [dftFire, Cmt.cmtCe, hr, hfin, hse]
  · have hm : s.be.cmt.mask (s.cmtIn C x) 1 = false := by
      rw [Cmt.pipeReq, Bool.and_eq_true] at hreq
      simp [Cmt.mask, Cmt.singleFu, hreq.2]
    simp [dftFire, Cmt.ready2Fire, hm]

/-- The word of a commit lane. -/
theorem Carries.cmtIns_eq (hc : Carries C s h d) (ho : s.be.Order C.D h.trace) (hi : i < 2)
    (hl : h.trace.log.head + i < h.trace.log.tail) :
    cmtIns C s d i = (h.log.word (h.trace.log.head + i)).ins := by
  rw [cmtIns, ho.rob.headL_eq, ho.rob.rptr_eq hi]
  exact hc.rob _ ⟨Nat.le_add_right _ _, hl⟩

/-- The address of a commit lane. -/
theorem head_pc (hfe : s.Feeds C h) (ho : s.be.Order C.D h.trace) (hi : i < 2)
    (hl : h.trace.log.head + i < h.trace.log.tail) :
    (s.be.head C.D i).pay.pc = (h.log.word (h.trace.log.head + i)).pc := by
  rw [ho.head_pay hi hl]
  change (h.trace.ins (h.trace.log.head + i)).d.pc = _
  rw [hfe.renamed _ (Backend.lt_nextNum_of_live ⟨Nat.le_add_right _ _, hl⟩)]
  rfl

/-- The inverse map names the register of an instruction that goes. -/
theorem aratInv_next (ho : s.be.Order C.D h.trace) (hi : i < s.be.popSize C.D (s.beIn x))
    (hwe : (h.trace.ins (h.trace.log.head + i)).d.lrdWe = true) :
    (d.next C s x).aratInv (h.trace.ins (h.trace.log.head + i)).prd =
    (h.trace.ins (h.trace.log.head + i)).d.lrd := by
  have hle : s.be.popSize C.D (s.beIn x) ≤ 2 := Backend.popSize_le
  have hpay : ∀ j < s.be.popSize C.D (s.beIn x), (s.be.head C.D j).pay =
    (h.trace.ins (h.trace.log.head + j)).pay :=
    fun j hj => ho.head_pay (by omega) (ho.live_of_lt hj).2.2
  have hlt : ∀ j < s.be.popSize C.D (s.beIn x), h.trace.log.head + j < s.be.nextNum h.trace :=
    fun j hj => Backend.lt_nextNum_of_live (ho.live_of_lt hj).2
  refine rfWrite_eq_of_forall (fun j hj hw ha => ?_) (Or.inr ⟨i, by omega, ?_, ?_⟩)
  · -- two instructions have different registers
    rw [Bool.and_eq_true, Backend.fire_eq hj, decide_eq_true_eq] at hw
    rw [hpay j hw.2] at hw ha ⊢
    have hij : j = i := by
      by_contra hne
      rcases Nat.lt_or_gt_of_ne hne with hji | hij
      · exact ho.chain.distinct _ _ (Nat.le_add_right _ _) (Nat.add_lt_add_left hji _)
          (hlt i hi) hw.1 hwe ha
      · exact ho.chain.distinct _ _ (Nat.le_add_right _ _) (Nat.add_lt_add_left hij _)
          (hlt j hw.2) hwe hw.1 ha.symm
    rw [hij]
    rfl
  · rw [hpay i hi, Backend.fire_of_lt hi, Bool.and_true]
    exact hwe
  · rw [hpay i hi]
    rfl

/-- The register file holds the value of an instruction that goes. -/
theorem regfile_next (hinv : s.be.Inv C.D h.trace) (hi : i < s.be.popSize C.D (s.beIn x))
    (hwe : (h.trace.ins (h.trace.log.head + i)).d.lrdWe = true) :
    (s.next C x).be.prf.regfile (h.trace.ins (h.trace.log.head + i)).prd =
      (h.trace.ins (h.trace.log.head + i)).d.result (s.be.regsAt C.D h.trace (s.beIn x) i)
        (s.be.cmt.prfWdataLsuEpu (s.cmtIn C x)) := by
  have hlive := (hinv.order.live_of_lt hi).2
  have h0 : (h.trace.ins (h.trace.log.head + i)).prd ≠ 0 :=
    (hinv.order.chain.alloc _ hlive.1 (Backend.lt_nextNum_of_live hlive) hwe).1
  have hval := Backend.val_of_popped hinv hi hwe
  rw [Prf.val, if_neg h0] at hval
  exact hval

/-- The report of an instruction that goes. -/
theorem report_of_popped (hc : Carries C s h d) (hinv : s.be.Inv C.D h.trace) (hfe : s.Feeds C h)
    (hi : i < s.be.popSize C.D (s.beIn x)) :
    ∃ r, (d.next C s x).report (s.next C x) i = some r ∧
      r.Shows (h.log.word (h.trace.log.head + i)) (s.be.regsAt C.D h.trace (s.beIn x) i)
        (.shown (h.trace.ins (h.trace.log.head + i)).d
          (s.be.cmt.prfWdataLsuEpu (s.cmtIn C x))) := by
  have hle : s.be.popSize C.D (s.beIn x) ≤ 2 := Backend.popSize_le
  have hf : s.flush C x = false := Backend.flush_of_popped hi
  have hl := (hinv.order.live_of_lt hi).2.2
  have hpay := hinv.order.head_pay (show i < 2 by omega) hl
  have hv : (d.next C s x).commitValid i = true := by
    change dftFire C s x i = true
    rw [dftFire_of_move hf (by omega), decide_eq_true hi]
  have hex : (d.next C s x).commitExcp = false := by
    have hfl : s.be.cmt.flush (s.cmtIn C x) = false := hf
    rw [Cmt.flush, Bool.or_eq_false_iff] at hfl
    exact hfl.2
  have hprd : (d.next C s x).cmtfPrd i = (h.trace.ins (h.trace.log.head + i)).prd :=
    congrArg RobPay.prd hpay
  refine ⟨_, if_pos hv, ?_, ?_, ?_, fun tgt he => by cases he⟩
  · exact congrArg Epu.pcWord (head_pc hfe hinv.order (by omega) hl)
  · exact hc.cmtIns_eq hinv.order (by omega) hl
  · rintro ins ans he
    injection he with h₁ h₂
    subst h₁ h₂
    refine ⟨by simp only [hex, Bool.and_false], congrArg RobPay.prdWe hpay, fun hwe => ?_⟩
    simp only [hprd]
    refine ⟨aratInv_next hinv.order hi hwe, (regfile_next hinv hi hwe).trans ?_⟩
    exact (DecInsn.result_heard hwe _ _).symm

/-- The low byte of an address. -/
theorem excpVect_eq (tgt : Pc) :
    (tgt.extractLsb' 0 6 ++ (0#2 : BitVec 2)).setWidth 32 = Epu.pcWord tgt &&& 0xff := by
  refine BitVec.eq_of_getLsbD_eq fun i hi => ?_
  rw [Epu.pcWord, BitVec.getLsbD_setWidth, BitVec.getLsbD_and, BitVec.getLsbD_append,
    BitVec.getLsbD_append, BitVec.getLsbD_extractLsb']
  rcases Nat.lt_or_ge i 8 with h8 | h8
  · have hone : (0xff : Word).getLsbD i = true := by
      interval_cases i <;> rfl
    rw [hone, Bool.and_true, decide_eq_true hi, Bool.true_and]
    split_ifs
    · rfl
    · simp [show i - 2 < 6 by omega]
  · have hzero : (0xff : Word).getLsbD i = false := by
      interval_cases i <;> rfl
    rw [hzero, Bool.and_false]
    simp [show ¬ i < 2 by omega, show ¬ i - 2 < 6 by omega]

/-- **The reports of a cycle show the events of the cycle before**: each of them in its channel,
with the word that was fetched for the instruction and its address, and nothing else. -/
theorem reports_events (hP : 1 ≤ C.P) (hr : (monitored n C pcRst u w z z').Reach ((s, h), d))
    (x : CoreIn) (hi : i < 2) :
    match (Core.events C s h x)[i]? with
    | none => (d.next C s x).report (s.next C x) i = none
    | some e => ∃ r, (d.next C s x).report (s.next C x) i = some r ∧
        r.Shows (h.log.word (h.trace.log.head + i)) (s.be.regsAt C.D h.trace (s.beIn x) i) e := by
  have hc := carries_of_reach hP hr
  obtain ⟨hfront, hback, hfe⟩ := Core.feeds_of_reach hP (Machine.Reach.of_observe hr)
  have hinv := Backend.inv_of_reach hback
  have hnone : dftFire C s x i = false → (d.next C s x).report (s.next C x) i = none := fun hv => by
    rw [report,
      if_neg (by rw [show (d.next C s x).commitValid i = false from hv]; exact Bool.false_ne_true)]
  cases hf : s.flush C x with
  | false =>
      rw [Core.events_of_move hf, List.getElem?_map]
      by_cases hlt : i < s.be.popSize C.D (s.beIn x)
      · rw [List.getElem?_range hlt]
        exact report_of_popped hc hinv hfe hlt
      · rw [List.getElem?_eq_none (by rw [List.length_range]; omega)]
        exact hnone (by rw [dftFire_of_move hf hi, decide_eq_false hlt])
  | true =>
      cases hse : s.be.cmt.seFls with
      | true =>
          rw [Core.events, hf, hse, if_pos rfl, if_pos rfl]
          exact hnone (dftFire_of_seFls hse)
      | false =>
          have hx : s.be.cmt.excFlush (s.cmtIn C x) = true := by
            have hfl : s.be.cmt.flush (s.cmtIn C x) = true := hf
            rwa [Cmt.flush, hse, Bool.false_or] at hfl
          obtain ⟨hv, h0, h1⟩ := dftFire_of_excFlush hinv.cmt hx
          have hl := (hinv.order.ent_eq (i := 0) (by omega) hv).1.2
          rw [Core.events, hf, hse, if_pos rfl, if_neg Bool.false_ne_true]
          obtain rfl | rfl : i = 0 ∨ i = 1 := by omega
          · refine ⟨_, if_pos h0, ?_, ?_, fun ins ans he => (by cases he), fun tgt he => ?_⟩
            · exact congrArg Epu.pcWord (head_pc hfe hinv.order (by omega) hl)
            · exact hc.cmtIns_eq hinv.order (by omega) hl
            · injection he with he
              subst he
              refine ⟨by simp only [decide_true, Bool.true_and]; exact hx, ?_⟩
              rw [Cmt.flushTgt, hse, if_neg Bool.false_ne_true]
              exact excpVect_eq _
          · exact hnone h1

/-! ### The reports of a run -/

/-- The calls of `dpic_commit_inst` in a cycle. -/
def reports (d : Difftest) (s : Core n) : List Report := (List.range 2).filterMap (d.report s)

/-- The valid channels are the lowest ones. -/
theorem getElem?_reports {l : List Event}
    (hv : ∀ i < 2, (d.report s i).isSome = decide (i < l.length)) (hl : l.length ≤ 2) :
    (d.reports s).length = l.length ∧ ∀ k < l.length, (d.reports s)[k]? = d.report s k := by
  have h0 := hv 0 (by omega)
  have h1 := hv 1 (by omega)
  rw [reports, show List.range 2 = [0, 1] from rfl]
  rcases hm : l.length with _ | _ | m
  · rw [hm] at h0 h1
    simp_all
  · rw [hm] at h0 h1
    obtain ⟨r, hr⟩ := Option.isSome_iff_exists.1 (h0.trans (by simp))
    have hnone : d.report s 1 = none := by simpa using h1
    refine ⟨by simp [hr, hnone], fun k hk => ?_⟩
    obtain rfl : k = 0 := by omega
    simp [hr, hnone]
  · obtain rfl : m = 0 := by omega
    rw [hm] at h0 h1
    obtain ⟨r, hr⟩ := Option.isSome_iff_exists.1 (h0.trans (by simp))
    obtain ⟨r', hr'⟩ := Option.isSome_iff_exists.1 (h1.trans (by simp))
    refine ⟨by simp [hr, hr'], fun k hk => ?_⟩
    obtain rfl | rfl : k = 0 ∨ k = 1 := by omega
    · simp [hr, hr']
    · simp [hr, hr']

end Difftest

/-- The report tells what a program does at a point: the instruction at its address and what is
written, or the exception. -/
structure Report.Tells (r : Report) (P : Program) (p : Point) (e : Event) : Prop where
  pc : r.pc = Epu.pcWord p.pc
  commit : ∀ i ans, e = .commit i ans → r.insn = P p.pc ∧ r.excp = false ∧ r.wen = i.lrdWe ∧
    (i.lrdWe = true → r.wnum = i.lrd ∧ r.wdata = i.result p.regs ans)
  except : ∀ tgt, e = .except tgt → r.excp = true ∧ r.excpVect = Epu.pcWord tgt &&& 0xff

namespace Difftest

variable {n : ℕ} [NeZero n] {C : CoreCfg} {s : Core n} {x : CoreIn} {d : Difftest} {h : CoreLog}
  {pcRst : Pc}
  {u : Bpu} {w : IqWord} {z : RInsn} {z' : Difftest} {i : ℕ} {P : Program} {l : List Event}
    {rs : List Report}

/-- The core on a program with the monitor, and the reports of the cycles that are over. -/
def reporting (n : ℕ) [NeZero n] (C : CoreCfg) (pcRst : Pc) (u : Bpu) (w : IqWord) (z : RInsn)
    (z' : Difftest)
    (P : Program) : Machine (((Core n × CoreLog) × List Event) × Difftest × List Report) CoreIn :=
  (Core.onProgram n C pcRst u w z P).observe (reset z', [])
    (fun g q x => (g.1.next C q.1.1 x, g.2 ++ g.1.reports q.1.1)) fun _ _ _ => True

/-- A run of the program with the monitor. -/
theorem parts_of_reporting (hr : (reporting n C pcRst u w z z' P).Reach (((s, h), l), d, rs)) :
    (Core.onProgram n C pcRst u w z P).Reach ((s, h), l) ∧ (monitored n C pcRst u w z z').Reach
    ((s, h), d) := by
  refine Machine.Reach.inv (M := reporting n C pcRst u w z z' P)
    (P := fun q => (Core.onProgram n C pcRst u w z P).Reach q.1 ∧
      (monitored n C pcRst u w z z').Reach (q.1.1, q.2.1))
        ⟨Machine.Reach.reset, Machine.Reach.reset⟩ ?_ hr
  rintro ⟨⟨q, l⟩, d, rs⟩ x ⟨h₁, h₂⟩ ⟨hx, -⟩
  exact ⟨Machine.Reach.tick h₁ hx, Machine.Reach.tick (x := x) h₂ ⟨hx.1, trivial⟩⟩

/-- The word of an instruction that goes is that of the program. -/
theorem word_of_popped (hw : s.fe.Fetches C.P C.F h.log) (hfe : s.Feeds C h)
    (hi : s.be.Inv C.D h.trace) (hh : Core.Holds P h.log) (hk : i < s.be.popSize C.D (s.beIn x)) :
    (h.log.word (h.trace.log.head + i)).ins = P (h.log.word (h.trace.log.head + i)).pc := by
  obtain ⟨hlt, hd⟩ := Core.word_of_lt hw hfe hi hk
  have h2 : s.be.popSize C.D (s.beIn x) ≤ 2 := Backend.popSize_le
  have hnone := hi.fe_of_fire (x := s.beIn x) (i := i) (by omega) (Backend.fire_of_lt hk)
  rw [hd] at hnone
  have hfault : (h.log.word (h.trace.log.head + i)).eitm = false ∧
      (h.log.word (h.trace.log.head + i)).eipf = false := by
    simp only [IqWord.decode, idDec, Fe.any, Bool.or_eq_false_iff, Bool.and_eq_false_imp] at hnone
    grind
  exact hh _ hlt hfault.1 hfault.2

/-- The report of an event tells what the program does. -/
theorem tells_of_event (hP : 1 ≤ C.P) (hr : (Core.onProgram n C pcRst u w z P).Reach ((s, h), l))
    (hm : (monitored n C pcRst u w z z').Reach ((s, h), d)) (x : CoreIn) (hi : i < 2) {e : Event}
    (he : (Core.events C s h x)[i]? = some e) :
    ∃ r, (d.next C s x).report (s.next C x) i = some r ∧
      r.Tells P ((⟨pcRst, fun _ => 0⟩ : Point).run (l ++ (Core.events C s h x).take i)) e := by
  have hp := Core.path_of_reach hP (Core.running_of_onProgram hr List.prefix_rfl)
  have hcore : (Core.observed n C pcRst u w z).Reach (s, h) := Machine.Reach.of_observe hm
  obtain ⟨hfront, hback, hfe⟩ := Core.feeds_of_reach hP hcore
  have hw := Frontend.fetches_of_reach hP hfront
  have hinv := Backend.inv_of_reach hback
  have hev := reports_events hP hm x hi
  rw [he] at hev
  obtain ⟨r, hrep, hs⟩ := hev
  refine ⟨r, hrep, ?_⟩
  cases hf : s.flush C x with
  | false =>
      have hlt : i < s.be.popSize C.D (s.beIn x) := by
        have := (List.getElem?_eq_some_iff.1 he).1
        rwa [Core.events_of_move hf, List.length_map, List.length_range] at this
      have hse : i = 0 ∨ (s.next C x).be.cmt.seFls = false := by
        refine i.eq_zero_or_pos.imp_right fun h0 => ?_
        by_contra hne
        have := (hinv.goes_to (x := s.beIn x) (Bool.eq_true_of_not_eq_false hne)).1
        omega
      have hpc := hp.pc_run hfe hw hinv hf hlt.le hse
      rw [← hw.chain _ (Core.word_of_lt hw hfe hinv hlt).1] at hpc
      have hregs := hp.regs_run hf hlt.le
      refine ⟨by rw [hs.pc, hpc], fun ins ans hc => ?_, hs.except⟩
      obtain ⟨h₁, h₂, h₃⟩ := hs.commit ins ans hc
      rw [hs.insn, hpc, hregs]
      exact ⟨word_of_popped hw hfe hinv hp.holds hlt, h₁, h₂, h₃⟩
  | true =>
      cases hse : s.be.cmt.seFls with
      | true =>
          rw [Core.events, hf, hse, if_pos rfl, if_pos rfl] at he
          cases he
      | false =>
          have hx : s.be.cmt.excFlush (s.cmtIn C x) = true := by
            have hfl : s.be.cmt.flush (s.cmtIn C x) = true := hf
            rwa [Cmt.flush, hse, Bool.false_or] at hfl
          have hl := (hinv.order.ent_eq (i := 0) (by omega) (dftFire_of_excFlush hinv.cmt hx).1).1
          have hpush : h.trace.log.head < h.log.pushed := by
            have h₁ := Backend.lt_nextNum_of_live (s := s.be) hl
            have h₂ := hfe.popped
            have h₃ := hw.buf.le
            omega
          have hev : Core.events C s h x = [.except (s.be.cmt.flushTgt (s.cmtIn C x) C.V)] := by
            rw [Core.events, hf, hse, if_pos rfl, if_neg Bool.false_ne_true]
          obtain rfl : i = 0 := by
            have := (List.getElem?_eq_some_iff.1 he).1
            rw [hev, List.length_singleton] at this
            omega
          have hpc := hp.pc
          rw [hse, if_neg Bool.false_ne_true, ← hw.chain _ hpush] at hpc
          refine ⟨by rw [hs.pc, List.take_zero, List.append_nil, hpc, Nat.add_zero],
            fun ins ans hc => ?_, hs.except⟩
          rw [hev] at he
          subst hc
          cases he

/-- The reports tell the events, one for one. -/
def Told (P : Program) (p : Point) (l : List Event) (rs : List Report) : Prop :=
  rs.length = l.length ∧ ∀ (k : ℕ) (r : Report) (e : Event), rs[k]? = some r → l[k]? = some e →
    r.Tells P (p.run (l.take k)) e

/-- The reports of one more cycle. -/
theorem Told.append {p : Point} {l l' : List Event} {rs rs' : List Report} (ht : Told P p l rs)
    (hlen : rs'.length = l'.length)
      (hnew : ∀ (j : ℕ) (r : Report) (e : Event), rs'[j]? = some r → l'[j]? = some e →
      r.Tells P (p.run (l ++ l'.take j)) e) :
    Told P p (l ++ l') (rs ++ rs') := by
  obtain ⟨hrs, htell⟩ := ht
  refine ⟨by rw [List.length_append, List.length_append, hrs, hlen], fun k r e hk he => ?_⟩
  rcases Nat.lt_or_ge k l.length with hlt | hge
  · rw [List.getElem?_append_left (by rw [hrs]; exact hlt)] at hk
    rw [List.getElem?_append_left hlt] at he
    rw [List.take_append_of_le_length hlt.le]
    exact htell k r e hk he
  · obtain ⟨j, rfl⟩ := Nat.exists_eq_add_of_le hge
    rw [List.getElem?_append_right (by rw [hrs]; omega), hrs, Nat.add_sub_cancel_left] at hk
    rw [List.getElem?_append_right (Nat.le_add_right _ _), Nat.add_sub_cancel_left] at he
    rw [List.take_length_add_append]
    exact hnew j r e hk he

/-- At most two events in a cycle. -/
theorem events_length_le {x : CoreIn} : (Core.events C s h x).length ≤ 2 := by
  rw [Core.events]
  split_ifs
  · exact Nat.zero_le _
  · exact Nat.le_succ _
  · rw [List.length_map, List.length_range]
    exact Backend.popSize_le

/-- As many reports as events, each from the lane of its event. -/
theorem reports_next (hP : 1 ≤ C.P) (hr : (monitored n C pcRst u w z z').Reach ((s, h), d))
    (x : CoreIn) : ((d.next C s x).reports (s.next C x)).length = (Core.events C s h x).length ∧
      ∀ j < (Core.events C s h x).length,
        ((d.next C s x).reports (s.next C x))[j]? = (d.next C s x).report (s.next C x) j := by
  refine getElem?_reports (fun i hi => ?_) events_length_le
  have hrep := reports_events hP hr x hi
  by_cases hlt : i < (Core.events C s h x).length
  · rw [List.getElem?_eq_getElem hlt] at hrep
    obtain ⟨r, hr, -⟩ := hrep
    rw [hr, decide_eq_true hlt, Option.isSome_some]
  · rw [List.getElem?_eq_none (Nat.le_of_not_lt hlt)] at hrep
    rw [show (d.next C s x).report (s.next C x) i = none from hrep, decide_eq_false hlt,
      Option.isSome_none]

/-- Everything that is reported is told. -/
theorem told_of_reach (hP : 1 ≤ C.P)
    (hr : (reporting n C pcRst u w z z' P).Reach (((s, h), l), d, rs)) :
    Told P ⟨pcRst, fun _ => 0⟩ l (rs ++ d.reports s) := by
  refine (Machine.Reach.inv (M := reporting n C pcRst u w z z' P)
    (P := fun q => (reporting n C pcRst u w z z' P).Reach q ∧
      Told P ⟨pcRst, fun _ => 0⟩ q.1.2 (q.2.2 ++ q.2.1.reports q.1.1.1))
    ⟨Machine.Reach.reset, rfl, fun k r e _ he => ?_⟩ ?_ hr).2
  · have hnil : ([] : List Event)[k]? = some e := he
    rw [List.getElem?_nil] at hnil
    cases hnil
  rintro ⟨⟨⟨s, h⟩, l⟩, d, rs⟩ x ⟨hq, ht⟩ hx
  obtain ⟨hon, hmon⟩ := parts_of_reporting hq
  obtain ⟨hlen, hget⟩ := reports_next hP hmon x
  refine ⟨Machine.Reach.tick hq hx, Told.append ht hlen fun j r e hk he => ?_⟩
  change ((d.next C s x).reports (s.next C x))[j]? = some r at hk
  change (Core.events C s h x)[j]? = some e at he
  have hj := (List.getElem?_eq_some_iff.1 he).1
  rw [hget j hj] at hk
  have hev : (Core.events C s h x).length ≤ 2 := events_length_le (x := x)
  obtain ⟨r', hr', htells⟩ := tells_of_event hP hon hmon x (by omega) he
  obtain rfl := Option.some.inj (hk.symm.trans hr')
  exact htells

/-- **What is reported is what the program does.**  In every run of a program on the core the calls
to the co-simulation are, one for one and in order, the events of commit: none is lost, made twice
or out of place, and each tells the address, the instruction, the register and the value of the
program at this point. -/
theorem reports_run (hP : 1 ≤ C.P)
    (hr : (reporting n C pcRst u w z z' P).Reach (((s, h), l), d, rs)) :
    (rs ++ d.reports s).length = l.length ∧ ∀ (k : ℕ) (r : Report) (e : Event),
      (rs ++ d.reports s)[k]? = some r →
      l[k]? = some e → r.Tells P ((⟨pcRst, fun _ => 0⟩ : Point).run (l.take k)) e := by
  exact told_of_reach hP hr

/-! ### A load, a store and a branch -/

/-- What the monitor holds before reset. -/
def unknown : Difftest where
  rnIns := fun _ => 0
  issueIns := fun _ => 0
  robIns := fun _ => 0
  aratInv := fun _ => 0
  commitValid := fun _ => false
  commitExcp := false
  commitExcpVect := 0
  commitPc := fun _ => 0
  commitIns := fun _ => 0
  commitRfWe := fun _ => false
  cmtfPrd := fun _ => 0

/-- The chip with the monitor. -/
def mixing : Machine (((Core 4 × CoreLog) × List Event) × Difftest × List Report) CoreIn :=
  reporting 4 chip 0xc000000 Frontend.bpuRst Frontend.emptyWord emptyInsn unknown Core.mixed

def mixed : ℕ → ((Core 4 × CoreLog) × List Event) × Difftest × List Report
  | 0 => mixing.reset
  | k + 1 => mixing.next (mixed k) ((mixed k).1.1.1.timedIn Core.mixed 0x11223344 Tsc.reset)

theorem reach_mixed (k : ℕ) : mixing.Reach (mixed k) := by
  induction k with
  | zero => exact Machine.Reach.reset
  | succ k ih => exact Machine.Reach.tick ih ⟨⟨trivial, fun _ _ _ _ => rfl⟩, trivial⟩

/-- The second report is of the instruction that takes the loaded value, at the point behind the
load. -/
theorem reports_run_mixed :
    ∃ r e, ((mixed 26).2.2 ++ (mixed 26).2.1.reports (mixed 26).1.1.1)[1]? = some r ∧
      (mixed 26).1.2[1]? = some e ∧ r.wnum = 2 ∧ r.wdata = 0x11223345 ∧
      r.Tells Core.mixed ((⟨0xc000000, fun _ => 0⟩ : Point).run ((mixed 26).1.2.take 1)) e := by
  have hr := reach_mixed 26
  obtain ⟨hl, hw⟩ : (mixed 26).1.2.length = 4 ∧
      (((mixed 26).2.2 ++ (mixed 26).2.1.reports (mixed 26).1.1.1)[1]?.map fun r =>
        (r.wnum, r.wdata)) = some (2, 0x11223345) := by
    decide +kernel
  revert hr hl hw
  generalize mixed 26 = q
  obtain ⟨⟨⟨s, h⟩, l⟩, d, rs⟩ := q
  intro hr hl hw
  have hl' : l.length = 4 := hl
  obtain ⟨-, htells⟩ := reports_run (by decide) hr
  obtain ⟨r, hget, hrw⟩ := Option.map_eq_some_iff.1 hw
  injection hrw with h₁ h₂
  obtain ⟨e, he⟩ : ∃ e, l[1]? = some e := ⟨_, List.getElem?_eq_getElem (by omega)⟩
  exact ⟨r, e, hget, he, h₁, h₂, htells 1 r e hget he⟩

end Difftest

end NanoCpu
