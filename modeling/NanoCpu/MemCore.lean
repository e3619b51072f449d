/-
**The core with its data memory runs a program** (`rtl/core/ncpu64k.v` with `cmt_lsu.v`, `dcache.v`
and a memory behind the AXI port, against `CPU::step` of `em/csrc/cpu.cc`).

From reset on, with translation and the caches off, the core with its load/store unit, its D-cache
and a correct memory executes a program of plain instructions one after the other on a memory of
bytes: whatever the branch predictor holds and however long the caches and the bus take, what has
committed is the program up to there.  The emulator does the same, so that the two have the same
registers, the same next address and the same bytes after the same number of instructions.

Main definitions:

* `CmtHead.Shows` — the oldest instruction with its operands;
* `DataCore.onProgram` — the core with its data memory on a program;
* `DataCore.Along` — the core is where the program is.

Main results:

* `Cmt.Calm.excFlush`, `Cmt.Calm.psrNext` — a plain instruction raises no exception and writes no
  MSR;
* `DataCore.along_of_reach` — the core is where the program is;
* `DataCore.runs_program` — **the core runs the program on byte memory**;
* `DataCore.agrees_with_emulator` — **and so does the emulator**.
-/

import NanoCpu.MemProgram
import NanoCpu.Precise
import NanoCpu.Translate

set_option relaxedAutoImplicit false
set_option autoImplicit false
set_option linter.unusedSectionVars false

namespace NanoCpu

open Em

/-! ### The oldest instruction -/

namespace CmtHead

variable {h : CmtHead} {d : DecInsn} {regs : LReg → Word} {a : LsuAcc}

/-- What commit sees of an instruction that has been executed without an exception. -/
structure Shows (h : CmtHead) (d : DecInsn) (regs : LReg → Word) : Prop where
  lsu : h.pay.lsu = d.lsu
  epu : h.pay.epu = d.epu
  exc : h.exc = false
  opera : h.vbank.opera = (d.exec regs).opera
  operb : h.vbank.operb = (d.exec regs).operb

section Plain

variable (hs : h.Shows d regs) (hp : d.Plain regs)

include hs hp

theorem Shows.epuReq : h.epuReq.reqValid = false := by
  rw [CmtHead.epuReq, hs.exc, hs.epu, hp.epu]
  rfl

theorem Shows.wmsr (b : MsrBank) : h.epuReq.wmsr b = false :=
  EpuReq.wmsr_of_not_valid (hs.epuReq hp) b

theorem Shows.dcop : h.lsuReq.dcinvWe = false ∧ h.lsuReq.dcflsWe = false := by
  simp [CmtHead.lsuReq, EpuReq.dcinvWe, EpuReq.dcflsWe, hs.wmsr hp]

theorem Shows.needsPipe : h.needsPipe = (d.access regs).isSome := by
  rw [CmtHead.needsPipe, hs.exc, hs.epu, hp.epu, hs.lsu, Bool.or_false, Bool.or_false,
    hp.access_isSome, DecInsn.isMem, hp.epu, Bool.or_false]

theorem Shows.valid : h.lsuReq.valid = h.needsPipe := by
  have hd := hs.dcop hp
  rw [LsuReq.valid, LsuReq.dcop, hd.1, hd.2, show h.lsuReq.opc = d.lsu from hs.lsu, Bool.or_self,
    Bool.or_false, ← hp.mem]
  change (h.needsPipe && d.lsu.any) = h.needsPipe
  rw [CmtHead.needsPipe, hs.exc, hs.epu, hp.epu, hs.lsu]
  simp

theorem Shows.startStage (hn : h.needsPipe = true) : h.startStage = .lsu1 := by
  rw [CmtHead.startStage, hs.valid hp, if_pos hn]

theorem Shows.vaddr : h.lsuReq.vaddr = (d.exec regs).opera := by
  have hd := hs.dcop hp
  rw [LsuReq.vaddr, hd.1, hd.2, if_neg Bool.false_ne_true, if_neg Bool.false_ne_true]
  exact hs.opera

/-- The request is that of the access. -/
theorem Shows.access (ha : d.access regs = some a) :
    h.lsuReq.access a.addr = a ∧ h.lsuReq.vaddr = a.addr := by
  rw [hs.vaddr hp]
  rw [DecInsn.access] at ha
  split_ifs at ha
  rw [← Option.some.inj ha]
  refine ⟨?_, rfl⟩
  rw [LsuReq.access, show h.lsuReq.opc = d.lsu from hs.lsu, show h.lsuReq.wdat = _ from hs.operb]

theorem Shows.isAccess (ha : d.access regs = some a) : h.lsuReq.IsAccess := by
  have hok := (hp.ok a ha).size
  rw [← (hs.access hp ha).1] at hok
  refine ⟨?_, hok⟩
  rw [show h.lsuReq.opc = d.lsu from hs.lsu]
  refine hp.load ?_
  have := hp.access_isSome
  rw [ha, DecInsn.isMem, hp.epu, Bool.or_false] at this
  exact this.symm

/-- An aligned access passes the check. -/
theorem Shows.misalign (ha : d.access regs = some a) : h.lsuReq.misalign = false := by
  have hok := hp.ok a ha
  obtain ⟨e₁, e₂⟩ := hs.access hp ha
  rw [LsuReq.misalign, e₂, show h.lsuReq.opc.size = a.size by rw [← e₁]; rfl]
  have hal := hok.aligned
  obtain ⟨r, hr, hmod, -, h0⟩ := LsuReq.low_bits a.addr
  rw [hr]
  rcases LsuAcc.bytes_cases hok with ⟨hz, hb⟩ | ⟨hz, hb⟩ | ⟨hz, hb⟩ <;> rw [hb] at hal <;> rw [hz]
  · rfl
  · have hr2 : r.toNat % 2 = 0 := by omega
    have hlow : ∀ r : BitVec 2, r.toNat % 2 = 0 →
        ((1 : BitVec 3) == 2 && r != 0 || (1 : BitVec 3) == 1 && r.getLsbD 0) = false := by decide
    rw [h0, hlow r hr2]
  · have hr4 : r = 0 := BitVec.eq_of_toNat_eq (by rw [← hmod, hal]; rfl)
    rw [hr4]
    rfl

end Plain

end CmtHead

/-! ### The units at work on it -/

namespace Cmt

variable {c : Cmt} {x : CmtIn} {v : Bool} {h : CmtHead} {d : DecInsn} {regs : LReg → Word}
  {a : LsuAcc}

/-- Translation, the D-cache and interrupts are off. -/
structure Off (c : Cmt) : Prop where
  psr : c.epu.psr = Psr.reset
  dmme : c.lsu.dmmu.dmmeFf = false
  dce : c.lsu.s1PsrDce = false

/-- What the units hold raises no exception and writes no MSR. -/
structure Calm (c : Cmt) : Prop where
  fe : c.epu.s1Fe = Fe.none
  wmsrWe : c.epu.s1WmsrWe.any = false
  refetch : c.epu.s1Refetch = false
  edtm : c.lsu.edtm = false
  edpf : c.lsu.edpf = false
  ealign : c.lsu.ealign = false

theorem Calm.excFlush (hc : c.Calm) (x : CmtIn) : c.excFlush x = false := by
  simp [Cmt.excFlush, Epu.excFlush, epuIn, hc.fe, hc.edtm, hc.edpf, hc.ealign, Fe.none]

theorem Calm.psrNext (hc : c.Calm) (x : CmtIn) : c.epu.psrNext (c.epuIn x) = c.epu.psr :=
  Epu.psrNext_eq hc.fe hc.wmsrWe hc.edtm hc.edpf hc.ealign

theorem Calm.flush (hc : c.Calm) (x : CmtIn) : c.flush x = c.seFls := by
  rw [Cmt.flush, hc.excFlush, Bool.or_false]

theorem Quiet.calm (hq : c.Quiet) : c.Calm where
  fe := hq.fe
  wmsrWe := hq.wmsrWe
  refetch := hq.refetch
  edtm := by rw [Lsu.edtm, hq.s2Valid]; rfl
  edpf := by rw [Lsu.edpf, hq.s2Valid]; rfl
  ealign := by rw [Lsu.ealign, hq.s2Valid]; rfl

/-- A plain instruction is in one of the stages of the load/store unit. -/
theorem Flight.plain_stage {g : CmtStage} (hf : c.Flight h g) (hs : h.Shows d regs)
    (hp : d.Plain regs) (hn : h.needsPipe = true) : g = .lsu1 ∨ g = .lsu2 := by
  have := hf.start
  rw [hs.startStage hp hn] at this
  cases g
  · exact Or.inl rfl
  · exact Or.inr rfl
  · cases this
  · cases this

/-- The units work on plain instructions only. -/
theorem Inv.calm (hi : c.Inv v h) (ho : c.Off) (hs : c.pending = true → h.Shows d regs)
    (hp : d.Plain regs) : c.Calm := by
  cases hpend : c.pending with
  | false => exact (hi.quiet hpend).calm
  | true =>
      obtain ⟨g, hg⟩ := hi.flight hpend
      have hn := hi.needs hpend
      have hsh := hs hpend
      have hg' := hg.plain_stage hsh hp hn
      have hne : g ≠ .epu := by rcases hg' with rfl | rfl <;> exact fun h => by cases h
      obtain ⟨a, ha⟩ := Option.isSome_iff_exists.1 ((hsh.needsPipe hp).symm.trans hn)
      have hmmu : c.lsu.dmmu.edtm = false ∧ c.lsu.dmmu.edpf = false := by
        simp [Dmmu.edtm, Dmmu.edpf, ho.dmme]
      have hs2 : c.lsu.s2Valid = true → g = .lsu2 := by
        rw [hg.s2Valid]
        exact of_decide_eq_true
      refine ⟨by rw [hg.fe, if_neg hne],
        hg.wmsrWe_any hne, by rw [hg.refetch, decide_eq_false hne]; rfl, ?_, ?_, ?_⟩
      · by_contra hx
        simp only [Lsu.edtm, Bool.and_eq_true, Bool.not_eq_false] at hx
        obtain ⟨-, -, -, -, e, -⟩ := hg.lsu2 (hs2 hx.1)
        rw [e, hmmu.1] at hx
        cases hx.2
      · by_contra hx
        simp only [Lsu.edpf, Bool.and_eq_true, Bool.not_eq_false] at hx
        obtain ⟨-, -, -, -, -, e⟩ := hg.lsu2 (hs2 hx.1)
        rw [e, hmmu.2] at hx
        cases hx.2
      · by_contra hx
        simp only [Lsu.ealign, Bool.and_eq_true, Bool.not_eq_false] at hx
        obtain ⟨-, -, -, e, -⟩ := hg.lsu2 (hs2 hx.1)
        rw [e, hsh.misalign hp ha] at hx
        cases hx.2

/-- Nothing is switched on. -/
theorem Off.next (ho : c.Off) (hc : c.Calm) (x : CmtIn) : (c.next x).Off := by
  have hpsr := hc.psrNext x
  rw [ho.psr] at hpsr
  refine ⟨hpsr, ?_, ?_⟩
  · change ldff _ (c.epu.psrNext (c.epuIn x)).dmme c.lsu.dmmu.dmmeFf = false
    rw [hpsr, ho.dmme]
    cases (c.lsuIn x).tlbReq <;> rfl
  · change ldff _ (c.epu.psrNext (c.epuIn x)).dce c.lsu.s1PsrDce = false
    rw [hpsr, ho.dce]
    cases (c.lsuIn x).pCeS1 <;> rfl

/-- The request of a cycle is that of a plain instruction. -/
theorem request_plain (hs : c.pipeReq x = true → (x.head 0).Shows d regs) (hp : d.Plain regs) :
    (c.lsuIn x).dcop = false ∧
      ((c.lsuIn x).valid = true → c.pending = false ∧ (c.lsuIn x).toLsuReq = (x.head 0).lsuReq ∧
        c.pipeReq x = true ∧ ∃ a, d.access regs = some a) := by
  have hno : c.epuReqValid x = false := by
    by_contra hne
    have hne' : c.epuReqValid x = true := by simpa using hne
    simp only [epuReqValid, epuReq, Bool.and_eq_true, Bool.not_eq_true'] at hne'
    have hpr : c.pipeReq x = true := by
      rw [pipeReq, hne'.1.2]
      simp [epuReq, hne'.2]
    have hsh := hs hpr
    have := hsh.epuReq hp
    rw [show (x.head 0).epuReq.reqValid = _ from rfl] at this
    rw [show ((x.head 0).pay.epu.any || (x.head 0).exc) = false from this] at hne'
    cases hne'.2.2
  have hdcop : (c.lsuIn x).dcop = false := by
    have hw : ∀ b, (c.epuReqIn x).wmsr b = false := EpuReq.wmsr_of_not_valid (x := c.epuReqIn x) hno
    change ((c.epuReqIn x).dcinvWe || (c.epuReqIn x).dcflsWe) = false
    simp [EpuReq.dcinvWe, EpuReq.dcflsWe, hw]
  refine ⟨hdcop, fun hv => ?_⟩
  have hreq : c.lsuReqValid x = true := by
    by_contra hne
    rw [lsuIn_valid_eq_false (Bool.eq_false_of_not_eq_true hne)] at hv
    cases hv
  have hpend : c.pending = false := by
    by_contra hne
    rw [lsuReqValid_of_pending (Bool.eq_true_of_not_eq_false hne)] at hreq
    cases hreq
  have hpr : c.pipeReq x = true := by
    by_contra hne
    rw [lsuReqValid_eq_false (Bool.eq_false_of_not_eq_true hne)] at hreq
    cases hreq
  have hsh := hs hpr
  refine ⟨hpend, (reqIn_of_pipeReq hpend hpr).2, hpr, Option.isSome_iff_exists.1 ?_⟩
  rw [← hsh.needsPipe hp, ← hsh.valid hp, ← (reqIn_of_pipeReq hpend hpr).2]
  exact hv

end Cmt

/-! ### Fetching without translation -/

namespace Core

variable {n : ℕ} [NeZero n] {C : CoreCfg} {s : Core n} {x : CoreIn} {h : CoreLog} {P : Program}
  {W : List Event → Answer} {p : Point} {l : List Event}

/-- Nothing that is fetched has a fault, and no interrupt was pending when it was decoded. -/
structure Untranslated (s : Core n) (h : CoreLog) : Prop where
  imme : s.fe.immu.immeFf = false
  eitm : s.fe.s2oEitm = false
  eipf : s.fe.s2oEipf = false
  word : ∀ k < h.log.pushed, (h.log.word k).eitm = false ∧ (h.log.word k).eipf = false
  irq : ∀ k < h.log.popped, h.irq k = false

theorem Untranslated.next (hu : s.Untranslated h) (hc : s.be.cmt.Calm) (ho : s.be.cmt.Off)
    (x : CoreIn) : (s.next C x).Untranslated (logNext C h s x) := by
  have hpsr : s.psr C x = Psr.reset := (hc.psrNext (s.cmtIn C x)).trans ho.psr
  have himmu : s.fe.immu.eitm = false ∧ s.fe.immu.eipf = false := by
    simp [Immu.eitm, Immu.eipf, hu.imme]
  refine ⟨?_, ?_, ?_, fun k hk => ?_, fun k hk => ?_⟩
  · change ldff _ (s.psr C x).imme s.fe.immu.immeFf = false
    rw [hpsr, hu.imme]
    cases s.fe.pCe C.P C.F (s.feIn C x) <;> rfl
  · change ldff _ s.fe.immu.eitm s.fe.s2oEitm = false
    rw [himmu.1, hu.eitm]
    cases s.fe.pCe C.P C.F (s.feIn C x) <;> rfl
  · change ldff _ s.fe.immu.eipf s.fe.s2oEipf = false
    rw [himmu.2, hu.eipf]
    cases s.fe.pCe C.P C.F (s.feIn C x) <;> rfl
  · change k < (h.log.next C.P C.F s.fe (s.feIn C x)).pushed at hk
    change ((h.log.next C.P C.F s.fe (s.feIn C x)).word k).eitm = false ∧
      ((h.log.next C.P C.F s.fe (s.feIn C x)).word k).eipf = false
    rw [FetchLog.next] at hk
    simp only at hk
    split at hk
    · exact absurd hk (Nat.not_lt_zero k)
    · rcases Nat.lt_or_ge k h.log.pushed with hlt | hge
      · rw [FetchLog.next_word_old hlt]
        exact hu.word k hlt
      · obtain ⟨j, rfl⟩ := Nat.exists_eq_add_of_le hge
        rw [FetchLog.next_word_new (by omega)]
        exact ⟨hu.eitm, hu.eipf⟩
  · change k < (h.log.next C.P C.F s.fe (s.feIn C x)).popped at hk
    rw [FetchLog.next] at hk
    simp only at hk
    split at hk
    · exact absurd hk (Nat.not_lt_zero k)
    · rcases Nat.lt_or_ge k h.log.popped with hlt | hge
      · rw [logNext_irq_old hlt]
        exact hu.irq k hlt
      · change (if _ then s.irqAsync C x else h.irq k) = false
        rw [if_pos ⟨hge, hk⟩, irqAsync, hpsr]
        exact Bool.and_false _

section Head

variable (hw : s.fe.Fetches C.P C.F h.log) (hfe : s.Feeds C h) (hi : s.be.Inv C.D h.trace)
  (hp : OnPath P W p s h l) (hu : s.Untranslated h) (hse : s.be.cmt.seFls = false)

section Oldest

variable (hlt : h.trace.log.head < s.be.nextNum h.trace)

include hw hfe hp hu hse hlt

/-- The oldest instruction is the next one of the program. -/
theorem head_plain : (h.trace.ins h.trace.log.head).d.plain = P.insn (p.run l).pc := by
  have hpop := hfe.popped
  have hle := hw.buf.le
  have hpush : h.trace.log.head < h.log.pushed := by omega
  obtain ⟨h₁, h₂⟩ := hu.word _ hpush
  have hpc := hp.pc
  rw [hse, if_neg Bool.false_ne_true, ← hw.chain _ hpush] at hpc
  rw [hfe.renamed _ hlt, IqWord.decode, hu.irq _ (by omega), h₁, h₂, hp.holds _ hpush h₁ h₂, hpc]
  rfl

end Oldest

variable (hv : s.be.rob.cmtValid 1 C.D 0 = true)

include hw hfe hi hp hu hv hse

/-- Commit sees it with the operands that the program has there. -/
theorem head_shows (hpl : (P.insn (p.run l).pc).fe.any = false) :
    (s.be.head C.D 0).Shows (P.insn (p.run l).pc) (p.run l).regs := by
  have hlt := Backend.lt_nextNum_of_live (s := s.be) (hi.order.ent_eq (i := 0) (by omega) hv).1
  rw [Nat.add_zero] at hlt
  have hplain := head_plain hw hfe hp hu hse hlt
  obtain ⟨hpay, -, hexc, hvb⟩ := hi.head_exec hv
  rw [← hp.regs] at hexc hvb
  have hd : (h.trace.ins h.trace.log.head).d.fe.any = false := by
    rw [← hplain] at hpl
    exact hpl
  refine ⟨?_, ?_, ?_, ?_, ?_⟩
  · rw [hpay, ← hplain]
    rfl
  · rw [hpay, ← hplain]
    rfl
  · rw [hexc]
    exact hd
  · rw [hvb, ← hplain]
    rfl
  · rw [hvb, ← hplain]
    rfl

end Head

end Core

/-! ### The core with its data memory on a program -/

/-- The start of a program, with the contents of the memory. -/
def MemPoint.start (pcRst : Pc) (m₀ : ℕ → Byte) : MemPoint :=
  ⟨⟨pcRst, fun _ => 0⟩, fun v => m₀ v.toNat⟩

namespace DataCore

variable {n k : ℕ} [NeZero n] [NeZero k]

/-- The core with its data memory in front of a correct memory, on a program, with what commit has
done. -/
def onProgram (n k : ℕ) [NeZero n] [NeZero k] (C : CoreCfg) (S : ℕ) (seg : Bool)
    (pcRst : Pc) (u : Bpu)
    (w : IqWord) (z : RInsn) (pay : Fin k → ℕ × ℕ → ℕ → Byte) (m₀ : ℕ → Byte) (P : Program) :
    Machine ((DataCore n k × CoreLog) × List Event) (DataCoreIn k) where
  reset := ((⟨Core.reset n pcRst u w z, Dcache.reset pay, AxiMem.idle m₀⟩,
    (Core.observed n C pcRst u w z).reset.2), [])
  allowed q x := q.1.1.mem.Answers x.axi ∧ Core.Fetched P C q.1.1.core (q.1.1.coreIn x)
  next q x := ((q.1.1.next C S seg x, Core.logNext C q.1.2 q.1.1.core (q.1.1.coreIn x)),
    q.2 ++ Core.events C q.1.1.core q.1.2 (q.1.1.coreIn x))

variable {C : CoreCfg} {S : ℕ} {seg : Bool} {s : DataCore n k} {x : DataCoreIn k} {h : CoreLog}
  {pcRst : Pc} {u : Bpu} {w : IqWord} {z : RInsn} {pay : Fin k → ℕ × ℕ → ℕ → Byte}
  {m₀ : ℕ → Byte} {P : Program} {l : List Event} {t : LsuHist}

/-- The parts of a reachable state. -/
theorem parts_of_onProgram (hP : 1 ≤ C.P)
    (hr : (onProgram n k C S seg pcRst u w z pay m₀ P).Reach ((s, h), l)) :
    (Core.onProgram n C pcRst u w z P).Reach ((s.core, h), l) ∧
      (DataSide.machine n k C.D S seg z pay m₀).Reach s.side := by
  refine Machine.Reach.inv (M := onProgram n k C S seg pcRst u w z pay m₀ P)
    (P := fun q => (Core.onProgram n C pcRst u w z P).Reach ((q.1.1.core, q.1.2), q.2) ∧
      (DataSide.machine n k C.D S seg z pay m₀).Reach q.1.1.side)
    ⟨Machine.Reach.reset, Machine.Reach.reset⟩ ?_ hr
  rintro ⟨⟨s, h⟩, l⟩ x ⟨h₁, h₂⟩ ⟨hm, hf⟩
  obtain ⟨-, -, hfe⟩ := Core.feeds_of_reach hP h₁.of_observe
  refine ⟨Machine.Reach.tick h₁ ⟨trivial, hf⟩, Machine.Reach.tick (x := s.sideIn x) h₂ ⟨?_, hm⟩⟩
  exact hfe.delivers (x := s.coreIn x)

/-- The core is where the program is: it has executed the instructions of `l`, and the load/store
unit is at work for the next one. -/
structure Along (C : CoreCfg) (S : ℕ) (seg : Bool) (pay : Fin k → ℕ × ℕ → ℕ → Byte) (m : MemPoint)
    (m₀ : ℕ → Byte) (P : Program) (s : DataCore n k) (h : CoreLog) (l : List Event)
    (t : LsuHist) : Prop where
  point : m.toPoint.run l = (P.memAt m l.length).toPoint
  commits : ∀ k e, l[k]? = some e → ∃ ans, e = Event.commit (P.insnAt m k) ans
  accs : t.accs = P.accesses m l.length
  lanes : (LsuSide.lanes k S seg pay m₀ true).Reach (s.side.side, t)
  off : s.core.be.cmt.Off
  untranslated : s.core.Untranslated h
  req : s.core.be.cmt.lsu.s1Valid = true → t.req = some (s.core.be.head C.D 0).lsuReq ∧
    s.core.be.cmt.lsu.dmmu.vpnFf = (s.core.be.head C.D 0).lsuReq.vaddr.extractLsb' 13 19
  acc : s.core.be.cmt.lsu.s2Valid = true → t.acc = P.accessAt m l.length

section Cycle

variable {m : MemPoint} (hm : m = MemPoint.start pcRst m₀) (hP : 1 ≤ C.P)
  (hr : (onProgram n k C S seg pcRst u w z pay m₀ P).Reach ((s, h), l))
  (hA : s.Along C S seg pay m m₀ P h l t) (hpl : P.PlainAt m l.length)

include hm hP hr hA hpl

/-- The oldest instruction is the next one of the program, with its operands. -/
theorem Along.shows (hv : s.core.be.rob.cmtValid 1 C.D 0 = true)
    (hse : s.core.be.cmt.seFls = false) :
    (s.core.be.head C.D 0).Shows (P.insnAt m l.length) (P.memAt m l.length).regs := by
  obtain ⟨hc, -⟩ := parts_of_onProgram hP hr
  obtain ⟨hfront, htr, hfe⟩ := Core.feeds_of_reach hP hc.of_observe
  have hpath := Core.path_of_reach hP (Core.running_of_onProgram hc List.prefix_rfl)
  rw [show (⟨pcRst, fun _ => 0⟩ : Point) = m.toPoint by rw [hm]; rfl] at hpath
  have hsh := Core.head_shows (Frontend.fetches_of_reach hP hfront) hfe
    (Backend.inv_of_reach htr) hpath hA.untranslated hse hv (by rw [hA.point]; exact hpl.fe)
  rwa [hA.point] at hsh

theorem Along.shows_of_pending (hp : s.core.be.cmt.pending = true) :
    (s.core.be.head C.D 0).Shows (P.insnAt m l.length) (P.memAt m l.length).regs := by
  obtain ⟨hc, -⟩ := parts_of_onProgram hP hr
  obtain ⟨-, htr, -⟩ := Core.feeds_of_reach hP hc.of_observe
  have hi := (Backend.inv_of_reach htr).cmt
  exact hA.shows hm hP hr hpl (hi.valid hp) (hi.se hp)

theorem Along.calm : s.core.be.cmt.Calm := by
  obtain ⟨hc, -⟩ := parts_of_onProgram hP hr
  obtain ⟨-, htr, -⟩ := Core.feeds_of_reach hP hc.of_observe
  exact (Backend.inv_of_reach htr).cmt.calm hA.off (hA.shows_of_pending hm hP hr hpl) hpl

/-- What the load/store unit is asked in a cycle. -/
theorem Along.request (x : DataCoreIn k) :
    (s.side.sideIn C.D (s.sideIn x)).q.dcop = false ∧
      ((s.side.sideIn C.D (s.sideIn x)).q.dcReq = true →
        (s.side.sideIn C.D (s.sideIn x)).q.toLsuReq = (s.core.be.head C.D 0).lsuReq ∧
          (s.side.sideIn C.D (s.sideIn x)).q.IsAccess) := by
  have hsh : s.core.be.cmt.pipeReq (s.side.cmtIn C.D (s.sideIn x)) = true →
      (s.core.be.head C.D 0).Shows (P.insnAt m l.length) (P.memAt m l.length).regs := fun hpr =>
    hA.shows hm hP hr hpl (Cmt.valid_of_pipeReq hpr) (Cmt.seFls_of_pipeReq hpr)
  obtain ⟨h₁, h₂⟩ := Cmt.request_plain (x := s.side.cmtIn C.D (s.sideIn x)) hsh hpl
  refine ⟨h₁, fun hd => ?_⟩
  rw [LsuIn.dcReq, Bool.and_eq_true] at hd
  obtain ⟨-, heq, hpr, a, ha⟩ := h₂ hd.2
  refine ⟨heq, ?_⟩
  have hacc := (hsh hpr).isAccess hpl ha
  rw [show (s.core.be.head C.D 0).lsuReq = (s.side.sideIn C.D (s.sideIn x)).q.toLsuReq from
    heq.symm] at hacc
  exact hacc

/-- The load/store unit and the cache take a step of an access that is not cached. -/
theorem Along.lanes_next (hx : s.mem.Answers x.axi) :
    (LsuSide.lanes k S seg pay m₀ true).Reach
      ((s.next C S seg x).side.side, t.next seg s.side.side (s.side.sideIn C.D (s.sideIn x))) := by
  obtain ⟨hc, -⟩ := parts_of_onProgram hP hr
  obtain ⟨-, htr, -⟩ := Core.feeds_of_reach hP hc.of_observe
  obtain ⟨h₁, h₂⟩ := hA.request hm hP hr hpl x
  refine Machine.Reach.tick (x := s.side.sideIn C.D (s.sideIn x)) hA.lanes
    ⟨⟨DataSide.polite (Backend.inv_of_reach htr).cmt, hx⟩, ⟨h₁, fun hd => (h₂ hd).2⟩, fun _ _ => ?_⟩
  change (s.core.be.cmt.lsu.dmmu.uncached seg || !s.core.be.cmt.lsu.s1PsrDce) = true
  rw [hA.off.dce]
  exact Bool.or_true _

/-- The load/store unit is at work only while the oldest instruction stays, and nothing commits
then. -/
theorem Along.events_of_busy (hb : (s.next C S seg x).side.busy = true) :
    s.side.leaves C.D (s.sideIn x) = false ∧ Core.events C s.core h (s.coreIn x) = [] ∧
      s.core.be.rob.cmtValid 1 C.D 0 = true := by
  obtain ⟨hc, -⟩ := parts_of_onProgram hP hr
  obtain ⟨-, htr, -⟩ := Core.feeds_of_reach hP hc.of_observe
  have hi := Backend.inv_of_reach htr
  rw [side_next, DataSide.busy_next (s := s.side) hi, Bool.or_eq_true, Bool.and_eq_true,
    Bool.not_eq_true'] at hb
  have hl : s.side.leaves C.D (s.sideIn x) = false ∧ s.core.be.rob.cmtValid 1 C.D 0 = true := by
    rcases hb with ha | ⟨hb, hl⟩
    · obtain ⟨-, h₁, h₂, -⟩ := DataSide.of_asks (s := s.side) hi ha
      exact ⟨h₁, h₂⟩
    · exact ⟨hl, hi.cmt.valid (DataSide.pending_of_busy (s := s.side) hi hb)⟩
  refine ⟨hl.1, ?_, hl.2⟩
  have hl' := hl.1
  rw [DataSide.leaves, Bool.or_eq_false_iff, decide_eq_false_iff_not, not_not] at hl'
  have hpop : s.core.be.popSize C.D (s.core.beIn (s.coreIn x)) = 0 := hl'.2
  rw [Core.events_of_move (C := C) (s := s.core) (x := s.coreIn x) hl'.1, hpop]
  rfl

/-- The oldest instruction is still there when its request is in the first stage. -/
theorem Along.req_next (h1 : (s.next C S seg x).core.be.cmt.lsu.s1Valid = true) :
    (t.next seg s.side.side (s.side.sideIn C.D (s.sideIn x))).req =
        some ((s.next C S seg x).core.be.head C.D 0).lsuReq ∧
      (s.next C S seg x).core.be.cmt.lsu.dmmu.vpnFf =
        ((s.next C S seg x).core.be.head C.D 0).lsuReq.vaddr.extractLsb' 13 19 := by
  obtain ⟨hc, hside⟩ := parts_of_onProgram hP hr
  obtain ⟨-, htr, hfe⟩ := Core.feeds_of_reach hP hc.of_observe
  have hi := Backend.inv_of_reach htr
  have hq := DataSide.polite (s := s.side) (x := s.sideIn x) hi.cmt
  have hlink := DataSide.link_of_reach hside
  have hbusy : (s.next C S seg x).side.busy = true := Bool.or_eq_true_iff.2 (Or.inl h1)
  obtain ⟨hl, -, hv⟩ := hA.events_of_busy hm hP hr hpl hbusy
  have hdel : (s.side.coreIn (s.sideIn x)).Delivers := hfe.delivers (x := s.coreIn x)
  have hhead : (s.next C S seg x).core.be.head C.D 0 = s.core.be.head C.D 0 := by
    have : (s.side.next C.D S seg (s.sideIn x)).core.head C.D 0 = s.side.core.head C.D 0 :=
      DataSide.head_next_of_stays hi hdel hv hl
    rwa [← side_next] at this
  have hst : s.side.side.dc.state = .idle := by
    by_contra hne
    have hs1 := (LsuSide.next_of_stall (S := S) seg hq hne).1
    exact hne (hlink.idle (hs1.symm.trans h1))
  have hreq : (s.side.sideIn C.D (s.sideIn x)).q.dcReq = true :=
    (hq.s1_next (S := S) seg hst).symm.trans h1
  obtain ⟨hdc, hd⟩ := hA.request hm hP hr hpl x
  obtain ⟨heq, -⟩ := hd hreq
  rw [hhead, ← heq]
  constructor
  · rw [LsuHist.next, hreq]
    rfl
  · have ht : (s.side.sideIn C.D (s.sideIn x)).q.tlbReq = true := by
      rw [LsuIn.tlbReq, hreq, hdc]
      rfl
    change ldff (s.side.sideIn C.D (s.sideIn x)).q.tlbReq _ _ = _
    rw [ht]
    rfl

/-- Where an access is when the unit is at work. -/
theorem Along.stage (h1 : s.core.be.cmt.lsu.s1Valid = true) : ∃ a, P.accessAt m l.length = some a ∧
    s.core.be.cmt.lsu.killReq = false ∧ s.core.be.cmt.lsu.s1Dcop = false ∧
      (s.core.be.head C.D 0).lsuReq.access a.addr = a ∧ (s.core.be.head C.D 0).lsuReq.vaddr =
        a.addr := by
  obtain ⟨hc, -⟩ := parts_of_onProgram hP hr
  obtain ⟨-, htr, -⟩ := Core.feeds_of_reach hP hc.of_observe
  have hi := Backend.inv_of_reach htr
  have hp : s.core.be.cmt.pending = true :=
    DataSide.pending_of_busy (s := s.side) hi (Bool.or_eq_true_iff.2 (Or.inl h1))
  have hsh := hA.shows_of_pending hm hP hr hpl hp
  obtain ⟨g, hg⟩ := hi.cmt.flight hp
  have hn := hi.cmt.needs hp
  obtain ⟨a, ha⟩ := Option.isSome_iff_exists.1 ((hsh.needsPipe hpl).symm.trans hn)
  obtain rfl : g = .lsu1 := by
    rw [hg.s1Valid] at h1
    exact of_decide_eq_true h1
  obtain ⟨-, -, -, hdc, hal⟩ := hg.lsu1 rfl
  obtain ⟨hacc, hva⟩ := hsh.access hpl ha
  refine ⟨a, ha, ?_, ?_, hacc, hva⟩
  · rw [Lsu.killReq, hal, hsh.misalign hpl ha]
    simp [Dmmu.edtm, Dmmu.edpf, hA.off.dmme]
  · have hd := hsh.dcop hpl
    rw [hdc, LsuReq.dcop, hd.1, hd.2]
    rfl

/-- The access that comes to the second stage is that of the program. -/
theorem Along.acc_next (hS : S ≤ 7) (h2 : (s.next C S seg x).core.be.cmt.lsu.s2Valid = true) :
    (t.next seg s.side.side (s.side.sideIn C.D (s.sideIn x))).acc = P.accessAt m l.length := by
  obtain ⟨hc, hside⟩ := parts_of_onProgram hP hr
  obtain ⟨-, htr, -⟩ := Core.feeds_of_reach hP hc.of_observe
  have hi := Backend.inv_of_reach htr
  have hq := DataSide.polite (s := s.side) (x := s.sideIn x) hi.cmt
  have hlink := DataSide.link_of_reach hside
  obtain ⟨hnoted, -⟩ := LsuSide.noted_of_reach hS hA.lanes
  cases h1 : s.side.side.lsu.s1Valid with
  | true =>
      obtain ⟨a, ha, hkill, hdcop, hacc, hva⟩ := hA.stage hm hP hr hpl h1
      obtain ⟨hreq, hvpn⟩ := hA.req h1
      obtain ⟨q, hq', -, -, hs1o, -⟩ := hnoted.req h1
      have hqv : q.vaddr = a.addr := by
        rw [hreq, Option.some.injEq] at hq'
        rw [← hva, hq']
      have hpa : s.dc.s2iPaddr (s.side.dcIn C.D seg (s.sideIn x)) = a.addr := by
        have hvpo : s.dc.s1o.vpo = a.addr.extractLsb' 0 13 := by
          rw [← hqv]
          exact congrArg DcReq.vpo hs1o
        have hppn : s.core.be.cmt.lsu.dcPpn = a.addr.extractLsb' 13 19 := by
          rw [Lsu.dcPpn, hdcop, if_neg Bool.false_ne_true, Dmmu.ppn, hA.off.dmme,
            if_neg Bool.false_ne_true, hvpn, hva]
        rw [Dcache.s2iPaddr, hvpo, show (s.side.dcIn C.D seg (s.sideIn x)).ppn = _ from hppn]
        exact addr_page a.addr
      rw [ha, ← hacc, ← hpa]
      have hkill' : s.side.side.lsu.killReq = false := hkill
      rw [LsuHist.next, h1, hkill', hreq]
      rfl
  | false =>
      have hst : s.side.side.dc.state ≠ .idle := by
        intro hst
        have hs2 := (LsuSide.next_of_idle (S := S) seg hq hst).1
        rw [h1] at hs2
        rw [show (s.next C S seg x).core.be.cmt.lsu.s2Valid = false from hs2] at h2
        cases h2
      have hs2 : s.core.be.cmt.lsu.s2Valid = true :=
        (LsuSide.next_of_stall (S := S) seg hq hst).2.1.symm.trans h2
      rw [LsuSide.acc_next_of_not h1, if_pos (by simpa [Dcache.stallReq] using hst), hA.acc hs2]

/-- An access in the second stage, which is done when the cache does not stall. -/
theorem Along.done (h2 : s.core.be.cmt.lsu.s2Valid = true) :
    (∃ a, P.accessAt m l.length = some a) ∧ (s.dc.stallReq = false →
      s.side.popSize C.D (s.sideIn x) = 1 ∧ s.core.be.cmt.prfWdataLsuEpu
        (s.core.cmtIn C (s.coreIn x)) = s.core.be.cmt.lsu.wbDout s.dc.dout) := by
  obtain ⟨hc, -⟩ := parts_of_onProgram hP hr
  obtain ⟨-, htr, -⟩ := Core.feeds_of_reach hP hc.of_observe
  have hi := Backend.inv_of_reach htr
  have hp : s.core.be.cmt.pending = true :=
    DataSide.pending_of_busy (s := s.side) hi (Bool.or_eq_true_iff.2 (Or.inr h2))
  have hsh := hA.shows_of_pending hm hP hr hpl hp
  obtain ⟨g, hg⟩ := hi.cmt.flight hp
  obtain rfl : g = .lsu2 := by
    rw [hg.s2Valid] at h2
    exact of_decide_eq_true h2
  refine ⟨Option.isSome_iff_exists.1 ((hsh.needsPipe hpl).symm.trans (hi.cmt.needs hp)),
    fun hst => ?_⟩
  have hfin : s.core.be.cmt.pipeFinish (s.core.cmtIn C (s.coreIn x)) = true := by
    rw [hg.pipeFinish]
    change (!s.dc.stallReq && _) = true
    rw [hst]
    rfl
  have hfl : s.core.be.cmt.flush (s.core.cmtIn C (s.coreIn x)) = false := by
    rw [(hA.calm hm hP hr hpl).flush, hi.cmt.se hp]
  obtain ⟨h₁, h₂⟩ := Cmt.Inv.fire_of_finish (x := s.core.cmtIn C (s.coreIn x)) hi.cmt hfin hfl
  constructor
  · change s.core.be.cmt.popSize (s.core.cmtIn C (s.coreIn x)) = 1
    rw [Cmt.popSize, h₁, h₂]
    rfl
  · rw [Cmt.prfWdataLsuEpu, hg.wbDoutSel, hsh.epu, show (P.insnAt m l.length).epu.rmsr = false by
      have := hpl.epu
      simp only [EpuOpc.any, Bool.or_eq_false_iff] at this
      simp [this]]
    rfl

/-- What a load returns is what the memory of the program holds. -/
theorem Along.answer (hS : S ≤ 7) (hx : s.mem.Answers x.axi) {a : LsuAcc}
    (ha : P.accessAt m l.length = some a)
    (h2 : s.core.be.cmt.lsu.s2Valid = true) (hst : s.dc.stallReq = false) :
    (t.next seg s.side.side (s.side.sideIn C.D (s.sideIn x))).accs = t.accs ++ [a] ∧
      (a.store = false → s.core.be.cmt.lsu.wbDout s.dc.dout =
        a.emValue (P.memAt m l.length).mem) := by
  obtain ⟨-, -, hans⟩ := LsuSide.noted_of_reach hS hA.lanes
  obtain ⟨-, -, hans'⟩ := LsuSide.noted_of_reach hS (hA.lanes_next hm hP hr hpl hx)
  have hacc : t.acc = some a := (hA.acc h2).trans ha
  have hwb : s.side.side.lsu.wbValid (s.side.sideIn C.D (s.sideIn x)).q.pCeS2 = true := by
    change (s.core.be.cmt.lsu.s2Valid && !s.dc.stallReq) = true
    rw [h2, hst]
    rfl
  have hdone : (t.next seg s.side.side (s.side.sideIn C.D (s.sideIn x))).done =
      t.done ++ [(a, s.core.be.cmt.lsu.wbDout s.dc.dout)] := by
    rw [LsuHist.next, hwb, hacc]
    rfl
  have haccs : (t.next seg s.side.side (s.side.sideIn C.D (s.sideIn x))).accs = t.accs ++ [a] := by
    rw [LsuHist.accs, hdone, List.map_append]
    rfl
  refine ⟨haccs, fun hld => ?_⟩
  rw [haccs, emAnswers_append, ← hans, LsuHist.answers, hdone, List.map_append,
    ← LsuHist.answers] at hans'
  have hlast := List.append_cancel_left hans'
  simp only [List.map_cons, List.map_nil, hld, Bool.false_eq_true, if_false, List.cons.injEq,
    Option.some.injEq, and_true] at hlast
  rw [hlast, Program.mem_memAt, ← hA.accs, hm]
  rfl

/-- An access that commits is in the second stage, and the cache has finished it. -/
theorem Along.of_fire (hpop : s.side.popSize C.D (s.sideIn x) ≠ 0) {a : LsuAcc}
    (ha : P.accessAt m l.length = some a) :
    s.core.be.cmt.lsu.s2Valid = true ∧ s.dc.stallReq = false := by
  obtain ⟨hc, -⟩ := parts_of_onProgram hP hr
  obtain ⟨-, htr, -⟩ := Core.feeds_of_reach hP hc.of_observe
  have hi := Backend.inv_of_reach htr
  have hfire : s.core.be.cmt.fire (s.core.cmtIn C (s.coreIn x)) 0 = true :=
    Backend.fire_of_lt (s := s.core.be) (D := C.D) (x := s.core.beIn (s.coreIn x))
      (Nat.pos_of_ne_zero hpop)
  have hsh := hA.shows hm hP hr hpl (Cmt.valid_of_fire hfire)
    (Cmt.seFls_of_not_flush (Cmt.flush_of_fire hfire))
  have hn : ((s.core.cmtIn C (s.coreIn x)).head 0).needsPipe = true :=
    (hsh.needsPipe hpl).trans (congrArg Option.isSome ha)
  obtain ⟨-, hfin⟩ := Cmt.finish_of_fire (by omega) hfire hn
  obtain ⟨g, hg⟩ := hi.cmt.flight (hi.cmt.pending_of_pipeFinish hfin)
  have hg' := hg.plain_stage hsh hpl hn
  rw [hg.pipeFinish, Bool.and_eq_true, Bool.not_eq_true'] at hfin
  rw [hg.s2Valid]
  refine ⟨?_, hfin.1⟩
  rcases hg' with rfl | rfl
  · simp at hfin
  · rfl

/-- The accesses that are done in a cycle. -/
theorem Along.accs_next (hS : S ≤ 7) (hx : s.mem.Answers x.axi) :
    (t.next seg s.side.side (s.side.sideIn C.D (s.sideIn x))).accs =
      t.accs ++ if s.side.popSize C.D (s.sideIn x) = 0 then [] else
      (P.accessAt m l.length).toList := by
  obtain ⟨hc, hside⟩ := parts_of_onProgram hP hr
  obtain ⟨-, htr, -⟩ := Core.feeds_of_reach hP hc.of_observe
  have hi := Backend.inv_of_reach htr
  have hq := DataSide.polite (s := s.side) (x := s.sideIn x) hi.cmt
  obtain ⟨hnoted, -⟩ := LsuSide.noted_of_reach hS hA.lanes
  cases h2 : s.core.be.cmt.lsu.s2Valid with
  | true =>
      obtain ⟨⟨a, ha⟩, hd⟩ := hA.done hm hP hr hpl (x := x) h2
      cases hst : s.dc.stallReq with
      | true =>
          have hpop : s.side.popSize C.D (s.sideIn x) = 0 := by
            by_contra hne
            have hidle : s.side.dc.state ≠ .idle := by
              change s.dc.state ≠ .idle
              simpa [Dcache.stallReq] using hst
            have hl := DataSide.stays_of_stall (s := s.side) (D := C.D) (x := s.sideIn x) hi
              (Bool.or_eq_true_iff.2 (Or.inr h2)) hidle
            simp [DataSide.leaves, hne] at hl
          rw [hnoted.accs_next hq, if_pos (show s.side.side.dc.stallReq = true from hst),
            if_pos hpop, List.append_nil]
      | false =>
          rw [(hA.answer hm hP hr hpl hS hx ha h2 hst).1, (hd hst).1, ha]
          rfl
  | false =>
      have hacc : t.acc = none := hnoted.acc_none_of_s2 h2
      have hleft : (t.next seg s.side.side (s.side.sideIn C.D (s.sideIn x))).accs = t.accs := by
        rw [hnoted.accs_next hq, hacc]
        simp
      rw [hleft]
      split_ifs with hpop
      · rw [List.append_nil]
      · -- an instruction that commits without an access has none
        have hno : P.accessAt m l.length = none := by
          by_contra hne
          obtain ⟨a, ha⟩ := Option.ne_none_iff_exists'.1 hne
          rw [(hA.of_fire hm hP hr hpl hpop ha).1] at h2
          cases h2
        rw [hno]
        simp

section Move

variable (hx : (onProgram n k C S seg pcRst u w z pay m₀ P).allowed ((s, h), l) x)
  (hfl : s.core.flush C (s.coreIn x) = false)

include hx hfl

/-- The instruction in a lane that goes is the one of the program, if those before it are. -/
theorem Along.lane {j : ℕ} (hj : j < s.side.popSize C.D (s.sideIn x))
    (hpt : m.toPoint.run ((l ++ Core.events C s.core h (s.coreIn x)).take (l.length + j)) =
      (P.memAt m (l.length + j)).toPoint) :
    let e := Event.shown (P.insnAt m (l.length + j))
      (s.core.be.cmt.prfWdataLsuEpu (s.core.cmtIn C (s.coreIn x)))
    (h.trace.ins (h.trace.log.head + j)).d.plain = P.insnAt m (l.length + j) ∧
      (l ++ Core.events C s.core h (s.coreIn x))[l.length + j]? = some e ∧
      (l ++ Core.events C s.core h (s.coreIn x)).take (l.length + j + 1) =
        (l ++ Core.events C s.core h (s.coreIn x)).take (l.length + j) ++ [e] := by
  intro e
  have hr' : (onProgram n k C S seg pcRst u w z pay m₀ P).Reach
      ((s.next C S seg x, Core.logNext C h s.core (s.coreIn x)),
        l ++ Core.events C s.core h (s.coreIn x)) :=
    Machine.Reach.tick hr hx
  obtain ⟨hc', -⟩ := parts_of_onProgram hP hr'
  have hfol := (Core.path_of_reach hP (Core.running_of_onProgram hc' List.prefix_rfl)).follows
  rw [show (⟨pcRst, fun _ => 0⟩ : Point) = m.toPoint by rw [hm]; rfl] at hfol
  have hev := Core.events_of_move (h := h) hfl
  set ev := Core.events C s.core h (s.coreIn x) with hevd
  have hlen : ev.length = s.side.popSize C.D (s.sideIn x) := by
    rw [hev, List.length_map, List.length_range]
    rfl
  obtain ⟨hget, htake⟩ := hfol.getElem (k := l.length + j) (by rw [List.length_append]; omega)
  rw [hpt] at hget htake
  have hcommit : (l ++ ev)[l.length + j]? =
    some (.shown (h.trace.ins (h.trace.log.head + j)).d.plain
      (s.core.be.cmt.prfWdataLsuEpu (s.core.cmtIn C (s.coreIn x)))) := by
    rw [List.getElem?_append_right (Nat.le_add_right _ _), Nat.add_sub_cancel_left, hev,
      List.getElem?_map,
      List.getElem?_range (show j < s.core.be.popSize C.D (s.core.beIn (s.coreIn x)) from hj)]
    rfl
  have heq := Option.some.inj (hcommit.symm.trans hget)
  have hins : (h.trace.ins (h.trace.log.head + j)).d.plain = P.insnAt m (l.length + j) := by
    cases hw : Core.answersOf (l ++ ev) ((l ++ ev).take (l.length + j)) with
    | commit a =>
        rw [hw] at heq
        injection heq
    | except tgt =>
        rw [hw] at heq
        cases heq
  rw [← heq, hins] at htake
  rw [hins] at hcommit
  exact ⟨hins, hcommit, htake⟩

/-- The instruction in a lane that goes needs no unit, or it has got what the memory of the program
holds. -/
theorem Along.lane_answer (hS : S ≤ 7) {j : ℕ} (hj : j < s.side.popSize C.D (s.sideIn x))
    (hpt : m.toPoint.run ((l ++ Core.events C s.core h (s.coreIn x)).take (l.length + j)) =
      (P.memAt m (l.length + j)).toPoint) :
    (P.insnAt m (l.length + j)).isMem = false ∨ j = 0 ∧ ∃ a, P.accessAt m (l.length + j) = some a ∧
      (a.store = false → s.core.be.cmt.prfWdataLsuEpu (s.core.cmtIn C (s.coreIn x)) =
        a.emValue (P.memAt m (l.length + j)).mem) := by
  have h2 : s.side.popSize C.D (s.sideIn x) ≤ 2 := Backend.popSize_le
  obtain rfl | rfl : j = 0 ∨ j = 1 := by omega
  · rw [Nat.add_zero]
    cases ha : P.accessAt m l.length with
    | none =>
        left
        have := hpl.access_isSome
        rw [show (P.insnAt m l.length).access (P.memAt m l.length).regs = none from ha] at this
        exact this.symm
    | some a =>
        obtain ⟨h2, hst⟩ := hA.of_fire hm hP hr hpl (x := x) (by omega) ha
        obtain ⟨-, hd⟩ := hA.done hm hP hr hpl (x := x) h2
        refine Or.inr ⟨rfl, a, rfl, fun hld => ?_⟩
        rw [(hd hst).2]
        exact (hA.answer hm hP hr hpl hS hx.1 ha h2 hst).2 hld
  · -- two instructions that go together need no unit
    left
    obtain ⟨hc, -⟩ := parts_of_onProgram hP hr
    obtain ⟨-, htr, -⟩ := Core.feeds_of_reach hP hc.of_observe
    have hfire : s.core.be.cmt.fire (s.core.cmtIn C (s.coreIn x)) 1 = true :=
      Backend.fire_of_lt (s := s.core.be) (D := C.D) (x := s.core.beIn (s.coreIn x)) (i := 1) hj
    have hn : (s.core.be.head C.D 1).needsPipe = false :=
      Cmt.needsPipe_of_single (Cmt.seFls_of_not_flush (Cmt.flush_of_fire hfire))
        (Cmt.single_of_fire_one hfire).2
    obtain ⟨hpay, -⟩ := (Backend.inv_of_reach htr).lane_out (i := 1) (by omega)
      (Cmt.valid_of_fire hfire)
    rw [CmtHead.needsPipe, hpay, Bool.or_eq_false_iff, Bool.or_eq_false_iff] at hn
    rw [← (hA.lane hm hP hr hpl hx hfl hj hpt).1]
    change (_ || _) = false
    rw [Bool.or_eq_false_iff]
    exact ⟨hn.1, hn.2.1⟩

/-- The program after the lanes. -/
theorem Along.points (hS : S ≤ 7) {j : ℕ} (hj : j ≤ s.side.popSize C.D (s.sideIn x)) :
    m.toPoint.run ((l ++ Core.events C s.core h (s.coreIn x)).take (l.length + j)) =
      (P.memAt m (l.length + j)).toPoint := by
  induction j with
  | zero =>
      rw [Nat.add_zero, List.take_left]
      exact hA.point
  | succ j ih =>
      have hpt := ih (by omega)
      rw [← Nat.add_assoc, (hA.lane hm hP hr hpl hx hfl hj hpt).2.2, Point.run_snoc, hpt]
      rw [Point.after_shown]
      exact Program.after_memAt ((hA.lane_answer hm hP hr hpl hx hfl hS hj hpt).imp_right And.right)

/-- Only the first lane has an access. -/
theorem Along.accesses_move (hS : S ≤ 7) {j : ℕ} (hj : j ≤ s.side.popSize C.D (s.sideIn x)) :
    P.accesses m (l.length + j) = P.accesses m l.length ++ if j = 0 then [] else
    (P.accessAt m l.length).toList := by
  induction j with
  | zero => simp
  | succ j ih =>
      rw [← Nat.add_assoc, Program.accesses, ih (by omega), if_neg (Nat.succ_ne_zero j)]
      rcases hA.lane_answer hm hP hr hpl hx hfl hS hj
        (hA.points hm hP hr hpl hx hfl hS (by omega)) with hno | ⟨rfl, -⟩
      · cases j with
        | zero => simp
        | succ j =>
            rw [if_neg (Nat.succ_ne_zero j), Program.accessAt_eq_none hno, Option.toList_none,
              List.append_nil]
      · simp

end Move

/-- **The instructions of a cycle** are the next ones of the program. -/
theorem Along.move (hS : S ≤ 7)
    (hx : (onProgram n k C S seg pcRst u w z pay m₀ P).allowed ((s, h), l) x) :
    m.toPoint.run (l ++ Core.events C s.core h (s.coreIn x)) =
      (P.memAt m (l ++ Core.events C s.core h (s.coreIn x)).length).toPoint ∧
    P.accesses m (l ++ Core.events C s.core h (s.coreIn x)).length =
      P.accesses m l.length ++
        (if s.side.popSize C.D (s.sideIn x) = 0 then [] else (P.accessAt m l.length).toList) ∧
    ∀ k e, (l ++ Core.events C s.core h (s.coreIn x))[k]? = some e →
      ∃ ans, e = Event.commit (P.insnAt m k) ans := by
  cases hfl : s.core.flush C (s.coreIn x) with
  | true =>
      have hse : s.core.be.cmt.seFls = true := by
        rw [← (hA.calm hm hP hr hpl).flush (s.core.cmtIn C (s.coreIn x))]
        exact hfl
      have hev : Core.events C s.core h (s.coreIn x) = [] := by
        rw [Core.events, hfl, if_pos rfl, hse, if_pos rfl]
      have hpop : s.side.popSize C.D (s.sideIn x) = 0 :=
        Backend.popSize_of_flush (s := s.core.be) (x := s.core.beIn (s.coreIn x)) hfl
      rw [hev, List.append_nil, if_pos hpop, List.append_nil]
      exact ⟨hA.point, rfl, hA.commits⟩
  | false =>
      have hlen : (l ++ Core.events C s.core h (s.coreIn x)).length =
          l.length + s.side.popSize C.D (s.sideIn x) := by
        rw [Core.events_of_move hfl, List.length_append, List.length_map, List.length_range]
        rfl
      have hpt := hA.points hm hP hr hpl hx hfl hS le_rfl
      rw [← hlen, List.take_length] at hpt
      refine ⟨hpt, ?_, fun i e he => ?_⟩
      · rw [hlen]
        exact hA.accesses_move hm hP hr hpl hx hfl hS le_rfl
      · rcases Nat.lt_or_ge i l.length with hlt | hge
        · rw [List.getElem?_append_left hlt] at he
          exact hA.commits i e he
        · obtain ⟨j, rfl⟩ := Nat.exists_eq_add_of_le hge
          have hj : j < s.side.popSize C.D (s.sideIn x) := by
            have := (List.getElem?_eq_some_iff.1 he).1
            omega
          have hget := (hA.lane hm hP hr hpl hx hfl hj (hA.points hm hP hr hpl hx hfl hS hj.le)).2.1
          exact ⟨_, Option.some.inj (he.symm.trans hget)⟩

/-- **One cycle.** -/
theorem Along.next (hS : S ≤ 7)
    (hx : (onProgram n k C S seg pcRst u w z pay m₀ P).allowed ((s, h), l) x) :
    (s.next C S seg x).Along C S seg pay m m₀ P (Core.logNext C h s.core (s.coreIn x))
      (l ++ Core.events C s.core h (s.coreIn x))
      (t.next seg s.side.side (s.side.sideIn C.D (s.sideIn x))) := by
  obtain ⟨h₁, h₂, h₃⟩ := hA.move hm hP hr hpl hS hx
  have hcalm := hA.calm hm hP hr hpl
  refine ⟨h₁, h₃, ?_, hA.lanes_next hm hP hr hpl hx.1, hA.off.next hcalm _,
    hA.untranslated.next hcalm hA.off _, hA.req_next hm hP hr hpl, fun hv => ?_⟩
  · rw [h₂, hA.accs_next hm hP hr hpl hS hx.1, hA.accs]
  · have hbusy : (s.next C S seg x).side.busy = true := Bool.or_eq_true_iff.2 (Or.inr hv)
    obtain ⟨-, hev, -⟩ := hA.events_of_busy hm hP hr hpl hbusy
    rw [hev, List.append_nil]
    exact hA.acc_next hm hP hr hpl hS hv

end Cycle

/-! ### Every run -/

theorem along_reset : (⟨Core.reset n pcRst u w z, Dcache.reset pay, AxiMem.idle m₀⟩ :
    DataCore n k).Along C S seg pay (MemPoint.start pcRst m₀) m₀ P
      (Core.observed n C pcRst u w z).reset.2 [] ⟨none, none, []⟩ where
  point := rfl
  commits k e he := by cases he
  accs := rfl
  lanes := Machine.Reach.reset
  off := ⟨rfl, rfl, rfl⟩
  untranslated := ⟨rfl, rfl, rfl, fun k hk => absurd hk (Nat.not_lt_zero k),
    fun k hk => absurd hk (Nat.not_lt_zero k)⟩
  req h1 := by cases h1
  acc h2 := by cases h2

/-- **The core is where the program is**, as long as the program is one of plain instructions. -/
theorem along_of_reach (hP : 1 ≤ C.P) (hS : S ≤ 7)
    (hr : (onProgram n k C S seg pcRst u w z pay m₀ P).Reach ((s, h), l))
    (hpl : ∀ k ≤ l.length, P.PlainAt (MemPoint.start pcRst m₀) k) :
    ∃ t, s.Along C S seg pay (MemPoint.start pcRst m₀) m₀ P h l t := by
  have key : ∀ q, (onProgram n k C S seg pcRst u w z pay m₀ P).Reach q →
      (∀ k ≤ q.2.length, P.PlainAt (MemPoint.start pcRst m₀) k) →
        ∃ t, q.1.1.Along C S seg pay (MemPoint.start pcRst m₀) m₀ P q.1.2 q.2 t := by
    intro q hq
    induction hq with
    | reset => exact fun _ => ⟨_, along_reset⟩
    | @tick q x hq hx ih =>
        intro hpl
        obtain ⟨⟨s, h⟩, l⟩ := q
        have hle : l.length ≤ (l ++ Core.events C s.core h (s.coreIn x)).length := by simp
        obtain ⟨t, hA⟩ := ih fun k hk => hpl k (le_trans hk hle)
        exact ⟨_, hA.next rfl hP hq (hpl l.length hle) hS hx⟩
  exact key _ hr hpl

section Agree

variable (hP : 1 ≤ C.P) (hr : (onProgram n k C S seg pcRst u w z pay m₀ P).Reach ((s, h), l))
  (hA : s.Along C S seg pay (MemPoint.start pcRst m₀) m₀ P h l t)

include hP hr hA

theorem Along.archRegs : s.core.be.archRegs =
    (P.memAt (MemPoint.start pcRst m₀) l.length).regs := by
  obtain ⟨hc, -⟩ := parts_of_onProgram hP hr
  have hpath := Core.path_of_reach hP (Core.running_of_onProgram hc List.prefix_rfl)
  have hpt : (⟨pcRst, fun _ => 0⟩ : Point).run l = _ := hA.point
  rw [← hpath.regs, hpt]

theorem Along.goesOn : s.core.goesOn h = (P.memAt (MemPoint.start pcRst m₀) l.length).pc := by
  obtain ⟨hc, -⟩ := parts_of_onProgram hP hr
  have hpath := Core.path_of_reach hP (Core.running_of_onProgram hc List.prefix_rfl)
  have hpt : (⟨pcRst, fun _ => 0⟩ : Point).run l = _ := hA.point
  rw [Core.goesOn, ← hpath.pc, hpt]

omit hP hr in
theorem Along.mem_eq (hS : S ≤ 7) (hv : s.core.be.cmt.lsu.s2Valid = false) (v : Word) :
    s.mem.mem v.toNat = (P.memAt (MemPoint.start pcRst m₀) l.length).mem v := by
  have hlanes := (LsuSide.lanes_agree hS hA.lanes).1.2 hv v
  rw [LsuSide.bytes, if_pos rfl, hA.accs] at hlanes
  rw [Program.mem_memAt]
  exact hlanes

/-- An emulator that has been where the program has been agrees with the core. -/
theorem Along.as_emulator {ι : Type} {A : Setup ι} {b : Bool} {c₀ : StepCpu ι} (hS : S ≤ 7)
    (hem : ∀ i ≤ l.length, ∃ c, c₀.after A b i = some c ∧
      c.Shows (P.memAt (MemPoint.start pcRst m₀) i)) :
    (∃ c, c₀.after A b l.length = some c ∧ c.getReg = s.core.be.archRegs ∧
      c.pc = Epu.pcWord (s.core.goesOn h) ∧
      (s.core.be.cmt.lsu.s2Valid = false → ∀ v : Word, c.mem v = s.mem.mem v.toNat)) ∧
    ∀ i e, l[i]? = some e → ∃ c ans, c₀.after A b i = some c ∧ e = .commit
    (P.insn (c.pc.extractLsb' 2 30)) ans := by
  constructor
  · obtain ⟨c, hca, hsh⟩ := hem l.length le_rfl
    refine ⟨c, hca, hsh.regs.trans (hA.archRegs hP hr).symm, ?_, fun hv v => ?_⟩
    · rw [hsh.pc, hA.goesOn hP hr]
    · rw [hsh.mem, hA.mem_eq hS hv v]
  · intro i e he
    obtain ⟨c, hca, hsh⟩ := hem i (List.getElem?_eq_some_iff.1 he).1.le
    obtain ⟨ans, he'⟩ := hA.commits i e he
    refine ⟨c, ans, hca, ?_⟩
    rw [he', hsh.pc, Epu.extractLsb'_pcWord]
    rfl

end Agree

/-- **The core runs the program on byte memory.**  As long as the program is one of plain
instructions, what has committed in any run of the core is the program up to there: the registers
and the address at which the core goes on are those of the program, and between two accesses the
memory is. -/
theorem runs_program (hP : 1 ≤ C.P) (hS : S ≤ 7)
    (hr : (onProgram n k C S seg pcRst u w z pay m₀ P).Reach ((s, h), l))
    (hpl : ∀ k ≤ l.length, P.PlainAt (MemPoint.start pcRst m₀) k) :
    let m := P.memAt (MemPoint.start pcRst m₀) l.length
    s.core.be.archRegs = m.regs ∧ s.core.goesOn h = m.pc ∧
      (s.core.be.cmt.lsu.s2Valid = false → ∀ v : Word, s.mem.mem v.toNat = m.mem v) ∧
        ∀ k e, l[k]? = some e → ∃ ans,
          e = Event.commit (P.insnAt (MemPoint.start pcRst m₀) k) ans := by
  obtain ⟨t, hA⟩ := along_of_reach hP hS hr hpl
  exact ⟨hA.archRegs hP hr, hA.goesOn hP hr, hA.mem_eq hS, hA.commits⟩

/-- **The core runs the program as the emulator does.**  As long as the emulator executes plain
instructions of the program, from reset on and with translation and the D-cache off, every run of
the core commits the instructions that the emulator executes; then both have the same registers, go
on at the same address, and between two accesses have the same bytes. -/
theorem agrees_with_emulator {ι : Type} {A : Setup ι} {b : Bool} {c₀ : StepCpu ι} (hP : 1 ≤ C.P)
    (hS : S ≤ 7) (hr : (onProgram n k C S seg pcRst u w z pay m₀ P).Reach ((s, h), l))
    (hc : c₀.Shows (MemPoint.start pcRst m₀))
    (hpl : ∀ k ≤ l.length, ∀ c, c₀.after A b k = some c → c.Plain A b P) :
    (∃ c, c₀.after A b l.length = some c ∧ c.getReg = s.core.be.archRegs ∧
      c.pc = Epu.pcWord (s.core.goesOn h) ∧
      (s.core.be.cmt.lsu.s2Valid = false → ∀ v : Word, c.mem v = s.mem.mem v.toNat)) ∧
    ∀ k e, l[k]? = some e → ∃ c ans, c₀.after A b k = some c ∧ e = .commit
    (P.insn (c.pc.extractLsb' 2 30)) ans := by
  obtain ⟨hem, hplain⟩ := StepCpu.after_memAt (N := l.length + 1) hc fun k hk => hpl k (by omega)
  obtain ⟨t, hA⟩ := along_of_reach hP hS hr fun k hk => hplain k (by omega)
  exact hA.as_emulator hP hr hS fun k hk => hem k (by omega)

/-! ### Loads -/

/-- The program of loads, `LDBU r1, [r0 + 5]` over and over. -/
def loads : Program := fun _ => 0xa0381

/-- The program in memory, behind eight bytes that are their addresses. -/
def loadMem (p : ℕ) : Byte :=
  if p < 8 then BitVec.ofNat 8 p else ((0xa0381 : Word) >>> (8 * (p % 4))).setWidth 8

/-- A cycle in which the I-cache shows the program, and the memory answers at once. -/
def loadIn (s : DataCore 4 cacheWays) : DataCoreIn cacheWays where
  icStall := false
  ins := fun i => loads (s.core.fe.s2oPc i)
  icinvReady := true
  rd := ⟨0, 0, 0, 0, 0, 0, 0, 0, 0⟩
  axi := AxiIn.prompt s.mem
  unc := fun _ _ => 0

/-- The chip after some cycles. -/
def loadRun : ℕ → (DataCore 4 cacheWays × CoreLog) × List Event
  | 0 => (onProgram 4 cacheWays chip 0 false 0xc000000 Frontend.bpuRst Frontend.emptyWord emptyInsn
    (fun _ _ _ => 0) loadMem loads).reset
  | k + 1 =>
      (onProgram 4 cacheWays chip 0 false 0xc000000 Frontend.bpuRst Frontend.emptyWord emptyInsn
        (fun _ _ _ => 0) loadMem loads).next (loadRun k) (loadIn (loadRun k).1.1)

theorem loadRun_reach (k : ℕ) :
    (onProgram 4 cacheWays chip 0 false 0xc000000 Frontend.bpuRst Frontend.emptyWord emptyInsn
      (fun _ _ _ => 0) loadMem loads).Reach (loadRun k) := by
  induction k with
  | zero => exact Machine.Reach.reset
  | succ k ih =>
      exact Machine.Reach.tick (x := loadIn (loadRun k).1.1) ih
        ⟨AxiMem.answers_prompt _, fun _ _ _ _ => rfl⟩

/-- The emulator at reset with the same bytes. -/
def loader : StepCpu Unit :=
  { MsrCpu.zero.reset with mem := fun v => loadMem v.toNat, icache := (), pc := 0x30000000 }

theorem shows_loader : loader.Shows (MemPoint.start 0xc000000 loadMem) where
  regs := by
    funext i
    decide +revert
  pc := rfl
  mem := rfl
  dmme := rfl
  dce := rfl

/-- The emulator executes two loads. -/
theorem plain_loader {c : StepCpu Unit}
    (hc : c = loader ∨ loader.after Dpi.plainSetup false 1 = some c) :
    c.Plain Dpi.plainSetup false loads := by
  have hmap : ∀ o : Option (Stepped Unit),
      (o.map fun r => (r.event.excp, r.event.insn, r.npc.toNat % 4)) = some (false, 0xa0381, 0) →
        ∃ r, o = some r ∧ r.event.excp = false ∧ r.event.insn = 0xa0381 ∧ r.npc.toNat % 4 = 0 := by
    intro o
    cases o <;> simp
  obtain ⟨r, hr, he, hi, hn⟩ := hmap (c.step Dpi.plainSetup c.pc false Dpi.plainSetup.event) <| by
    rcases hc with rfl | hc
    · decide +kernel
    · obtain rfl := Option.some.inj hc
      decide +kernel
  exact ⟨r, hr, he, hi, hn, fun h => absurd h.1 (by simp only [loads]; decide), .ldbu,
    by simp only [loads]; decide, rfl⟩

theorem plainAt_loads {k : ℕ} (hk : k ≤ 1) :
    loads.PlainAt (MemPoint.start 0xc000000 loadMem) k := by
  refine (StepCpu.after_memAt (A := Dpi.plainSetup) (b := false) (N := 2) shows_loader fun k hk c
    hc => ?_).2 k (by omega)
  refine plain_loader ?_
  obtain rfl | rfl : k = 0 ∨ k = 1 := by omega
  · exact Or.inl (Option.some.inj hc).symm
  · exact Or.inr hc

/-- After sixteen cycles the first load has committed, and the register holds the byte. -/
theorem runs_program_load : (loadRun 16).2.length = 1 ∧ (loadRun 16).1.1.core.be.archRegs 1 = 5 ∧
    (loadRun 16).1.1.core.be.archRegs =
    (loads.memAt (MemPoint.start 0xc000000 loadMem) 1).regs := by
  have hr := loadRun_reach 16
  have hl : (loadRun 16).2.length = 1 := by decide +kernel
  have h5 : (loadRun 16).1.1.core.be.archRegs 1 = 5 := by decide +kernel
  refine ⟨hl, h5, ?_⟩
  revert hr hl
  generalize loadRun 16 = q
  obtain ⟨⟨s, h⟩, l⟩ := q
  intro hr hl
  have hl' : l.length = 1 := hl
  have key := (runs_program (by decide) (by decide) hr fun k hk => plainAt_loads (by omega)).1
  rwa [hl'] at key

/-- The emulator has it there, too. -/
theorem agrees_with_emulator_load :
    ∃ c, loader.after Dpi.plainSetup false 1 = some c ∧
      c.getReg = (loadRun 16).1.1.core.be.archRegs ∧ c.getReg 1 = 5 := by
  have hr := loadRun_reach 16
  have hl : (loadRun 16).2.length = 1 := by decide +kernel
  have h5 : (loadRun 16).1.1.core.be.archRegs 1 = 5 := by decide +kernel
  revert hr hl h5
  generalize loadRun 16 = q
  obtain ⟨⟨s, h⟩, l⟩ := q
  intro hr hl h5
  have hl' : l.length = 1 := hl
  have hplain : ∀ k ≤ l.length, ∀ c, loader.after Dpi.plainSetup false k = some c →
      c.Plain Dpi.plainSetup false loads := by
    intro k hk c hc
    refine plain_loader ?_
    obtain rfl | rfl : k = 0 ∨ k = 1 := by omega
    · exact Or.inl (Option.some.inj hc).symm
    · exact Or.inr hc
  obtain ⟨c, hc, hregs, -⟩ :=
    (agrees_with_emulator (by decide) (by decide) hr shows_loader hplain).1
  rw [hl'] at hc
  exact ⟨c, hc, hregs, by rw [hregs]; exact h5⟩

end DataCore

end NanoCpu
