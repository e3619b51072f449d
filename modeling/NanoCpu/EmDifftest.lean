/-
**The checker of the co-simulation** (`em/csrc/dpi-c.cc`, `CPU::step` of `cpu.cc`,
`rtl/core/difftest.v`).

After every cycle `dpic_step` gets the commits of the RTL, up to two, lets the emulator execute as
many instructions, and compares.  What the emulator cannot know it takes from the RTL first: the
requests of an interrupt, and the value of a read of `TSR`.  Here the checker is put beside the
reference it stands for, in which the requests arrive at the commits that take an interrupt and the
value at the reads of `TSR`.  The two give the same verdict as long as the checker recognises both,
which it does from the low byte of a target and from a base register that the commit may have
overwritten.

The code of the caches is a parameter, as in `EmMsr`; the devices and what is printed are left out.

Main definitions:

* `Em.StepCpu.step` — `CPU::step`;
* `Em.Commit`, `Em.Bundle` — what the RTL reports;
* `Em.Dpi.dpicStep`, `Em.Dpi.dpicRun` — the checker, over a bundle and over a run;
* `Em.Dpi.refCommit`, `Em.Dpi.AgreesRun` — the reference, and that the RTL agrees with it;
* `Em.Dpi.Recognised`, `Em.Dpi.RecognisedRun` — the checker recognises the interrupts and the reads
  of `TSR`.

Main results:

* `Em.Dpi.checkCommit_eq` — a recognised commit is checked against the reference;
* `Em.Dpi.readsTsr_iff_of_ne` — a read of `TSR` is recognised if it keeps its base register;
* `Em.Dpi.verdict_exact` — **the verdict of a recognised run is exact**.
-/

import NanoCpu.EmMsr

set_option relaxedAutoImplicit false
set_option autoImplicit false

namespace NanoCpu

namespace Em

/-! ### A step of the emulator -/

/-- What the emulator needs of the I-cache: a read, which fills lines from memory, and an
invalidation. -/
structure IcacheCode (ι : Type) where
  phyReadm32 : ι → Bytes → Word → ι × Word
  invalidate : ι → Word → ι

/-- `ArchEvent`. -/
structure ArchEvent where
  insn : Word
  excp : Bool

/-- The emulator and the checker as they are set up; `event` is what the local variable `emu_event`
holds before the step. -/
structure Setup (ι : Type) where
  C : MsrConfig
  K : CacheCode
  I : IcacheCode ι
  commitTimeoutMax : BitVec 64
  event : ArchEvent

/-- The state with the program counter and the I-cache. -/
structure StepCpu (ι : Type) extends MsrCpu where
  icache : ι
  pc : Word

/-- What `CPU::step` leaves behind. -/
structure Stepped (ι : Type) where
  cpu : StepCpu ι
  npc : Word
  event : ArchEvent

variable {ι : Type} (A : Setup ι)

namespace StepCpu

variable (c : StepCpu ι)

/-- `get_reg(rs1) | uimm15`, cut to `msr_index_t`. -/
def index (insn : Word) : BitVec 16 :=
  (c.getReg (rs1 insn) ||| (uimm15 insn).setWidth 32).setWidth 16

/-- `CPU::wmsr`; a write of `ICINV` reaches the I-cache. -/
def wmsr (index : BitVec 16) (val : Word) : Option (StepCpu ι) :=
  (c.toMsrCpu.wmsr A.C A.K index val).map fun c' =>
    { c with
      toMsrCpu := c'
      icache :=
        if wmsrIndex A.C index.toNat = some .icinv ∧ c.psr.rm = true then
          A.I.invalidate c.icache val
        else c.icache }

/-- The exits of `CPU::step`. -/
def leave (event : ArchEvent) (s : Step) : Stepped ι where
  cpu := { c with toCpu := s.cpu }
  npc := s.pcNxt
  event := if s.exit = .handleException then { event with excp := true } else event

/-- Decoding and execution. -/
def decodeExecute (pc insn : Word) (event : ArchEvent) : Option (Stepped ι) :=
  if Op.ofCode (opcode insn) = some .wmsr then
    (c.wmsr A (c.index insn) (c.getReg (rd insn))).map fun c' => ⟨c', pc + 4, event⟩
  else
    (c.toCpu.execute A.C.toConfig ⟨fun _ _ _ => none, fun _ i => c.rmsr A.C i⟩ pc insn).map
      (c.leave event)

/-- `CPU::step` from the translation of the fetch on; `check_vma_align` panics. -/
def stepInsn (pc : Word) (event : ArchEvent) : Option (Stepped ι) :=
  match c.immuTranslateVma A.C pc with
  | .error .pageFault => some (c.leave event (c.toCpu.stepRaise A.C pc 0 .eipf))
  | .error .tlbMiss => some (c.leave event (c.toCpu.stepRaise A.C pc 0 .eitm))
  | .ok (insnPa, insnUncached) =>
      if insnPa.toNat % 4 ≠ 0 then none
      else
        let f :=
          if insnUncached then (c.icache, Em.phyReadm32 c.mem insnPa)
          else A.I.phyReadm32 c.icache c.mem insnPa
        { c with icache := f.1 }.decodeExecute A pc f.2 { event with insn := f.2 }

/-- `CPU::step`; none where the emulator stops. -/
def step (pc : Word) (difftest : Bool) (event : ArchEvent) : Option (Stepped ι) :=
  let event := { event with excp := false }
  let c := if difftest then c else { c with toMsrCpu := c.tscClk A.C }
  if c.irqcHandleIrqs then some (c.leave event (c.toCpu.stepRaise A.C pc 0 .eirq))
  else c.stepInsn A pc event

end StepCpu

/-! ### What the RTL reports -/

/-- What `exc_flush` stands for at a commit: an interrupt, or any other exception or an ERET, with
the low byte of its target. -/
inductive ExcFlush
  | irq
  | other (vect : Word)
  deriving DecidableEq

/-- The arguments of `dpic_commit_inst`.  The decoder enables no write of `r0`; with an exception
the register is not read. -/
structure Commit where
  pc : Word
  insn : Word
  wen : Bool
  wnum : LReg
  wdata : Word
  exc : Option ExcFlush
  wnum_ne_zero : exc = none → wen = true → wnum ≠ 0

/-- The channels of a cycle, of which `none` is not valid, and the argument of `dpic_sync_irqc`. -/
structure Bundle where
  cycle : BitVec 64
  irqcIrr : Word
  ch : Fin 2 → Option Commit

namespace Commit

variable (k : Commit)

/-- `rtl_excp`. -/
def excp : Bool := k.exc.isSome

variable {k} in
theorem wnum_of_wen (he : k.excp = false) (hw : k.wen = true) : k.wnum ≠ 0 :=
  k.wnum_ne_zero (Option.isNone_iff_eq_none.1 (Option.isSome_eq_false_iff.1 he)) hw

/-- `rtl_excp_vect`, which is read of an exception only. -/
def excpVect (C : MsrConfig) : Word :=
  match k.exc with
  | some .irq => C.vectEIRQ
  | some (.other v) => v
  | none => 0

/-- The commit takes an interrupt. -/
def takesIrq : Bool := k.exc == some .irq

end Commit

/-- The commits of a bundle, in the order of the loop. -/
def Bundle.commits (b : Bundle) : List Commit := (List.finRange 2).filterMap b.ch

/-! ### The checker -/

/-- How a part of a run ends: with a state, with a mismatch, at the watchdog, or with the emulator,
which stops the simulation by itself. -/
inductive Outcome (σ : Type)
  | go (s : σ)
  | mismatch
  | timeout
  | stopped

/-- What follows is done if the run has not ended. -/
def Outcome.bind {σ : Type} (o : Outcome σ) (f : σ → Outcome σ) : Outcome σ :=
  match o with
  | .go s => f s
  | .mismatch => .mismatch
  | .timeout => .timeout
  | .stopped => .stopped

namespace Outcome

variable {σ : Type} (o : Outcome σ) (f g : σ → Outcome σ) (s : σ)

@[simp] theorem bind_go : (go s).bind f = f s := rfl

@[simp] theorem bind_mismatch : (mismatch : Outcome σ).bind f = .mismatch := rfl

@[simp] theorem bind_timeout : (timeout : Outcome σ).bind f = .timeout := rfl

@[simp] theorem bind_stopped : (stopped : Outcome σ).bind f = .stopped := rfl

theorem bind_bind : (o.bind f).bind g = o.bind fun s => (f s).bind g := by
  cases o <;> rfl

end Outcome

/-- The emulator and the static variables of `dpi-c.cc`. -/
structure Dpi (ι : Type) where
  emu : StepCpu ι
  rtlRegfile : LReg → Word
  lastCommitCycle : BitVec 64

namespace Dpi

variable (d : Dpi ι)

/-- The write of `rtl_regfile`. -/
def writeBack (k : Commit) : Dpi ι :=
  if k.excp = false ∧ k.wen = true then
    { d with rtlRegfile := Function.update d.rtlRegfile k.wnum k.wdata }
  else d

/-- `dpic_emu_CPU->msr_set_tsr`. -/
def msrSetTsr (val : Word) : Dpi ι := { d with emu := { d.emu with tsr := val } }

/-- `dpic_emu_CPU->irqc_set_irr`. -/
def irqcSetIrr (val : Word) : Dpi ι := { d with emu := { d.emu with irr := val } }

/-- The test of the checker: the instruction reads `TSR`.  The registers are those after the
commit. -/
def rtlReadsTsr (insn : Word) : Prop :=
  opcode insn = Op.rmsr.code ∧ d.rtlRegfile (rs1 insn) ||| (uimm15 insn).setWidth 32 = 0xe01

instance (insn : Word) : Decidable (d.rtlReadsTsr insn) :=
  inferInstanceAs (Decidable (_ ∧ _))

/-- What the emulator takes from the RTL before its step. -/
def sync (irr : Word) (k : Commit) : Dpi ι :=
  if k.excp then if k.excpVect A.C = A.C.vectEIRQ then d.irqcSetIrr irr else d
  else if d.rtlReadsTsr k.insn then d.msrSetTsr (d.rtlRegfile (rd k.insn)) else d

/-- The comparisons after the step. -/
def Matches (k : Commit) (event : ArchEvent) : Prop :=
  k.pc = d.emu.pc ∧ (k.excp = false → k.insn = event.insn) ∧ event.excp = k.excp

instance (k : Commit) (event : ArchEvent) : Decidable (d.Matches k event) :=
  inferInstanceAs (Decidable (_ ∧ _ ∧ _))

/-- The body of the loop of `dpic_step`. -/
def checkCommit (irr : Word) (k : Commit) : Outcome (Dpi ι) :=
  if k.excp = false ∧ k.wen = true ∧ k.wnum = 0 then .mismatch
  else
    let d := (d.writeBack k).sync A irr k
    match d.emu.step A d.emu.pc true A.event with
    | none => .stopped
    | some r =>
        if d.Matches k r.event then .go { d with emu := { r.cpu with pc := r.npc } } else .mismatch

/-- The loop; a mismatch breaks it. -/
def checkLoop (irr : Word) : List Commit → Dpi ι → Outcome (Dpi ι)
  | [], d => .go d
  | k :: ks, d => (d.checkCommit A irr k).bind (checkLoop irr ks)

/-- The registers of the RTL are those of the emulator. -/
def RegsAgree : Prop := ∀ i, d.rtlRegfile i = d.emu.getReg i

instance : Decidable d.RegsAgree := inferInstanceAs (Decidable (∀ _, _))

/-- The watchdog. -/
def timedOut (cycle : BitVec 64) : Bool := decide (A.commitTimeoutMax < cycle - d.lastCommitCycle)

/-- `dpic_step`. -/
def dpicStep (b : Bundle) : Outcome (Dpi ι) :=
  if d.timedOut A b.cycle then .timeout
  else if b.commits = [] then .go d
  else
    (checkLoop A b.irqcIrr b.commits { d with lastCommitCycle := b.cycle }).bind fun d =>
      if d.RegsAgree then .go d else .mismatch

/-- `dpic_step` of one bundle after the other, until the simulation ends. -/
def dpicRun : List Bundle → Dpi ι → Outcome (Dpi ι)
  | [], d => .go d
  | b :: bs, d => (d.dpicStep A b).bind (dpicRun bs)

/-! ### The reference -/

/-- The instruction reads `TSR` in `CPU::step`. -/
def readsTsr (insn : Word) : Prop := opcode insn = Op.rmsr.code ∧ d.emu.index insn = 0xe01

instance (insn : Word) : Decidable (d.readsTsr insn) := inferInstanceAs (Decidable (_ ∧ _))

/-- The step of the reference.  The emulator gets the requests if the commit takes an interrupt, and
otherwise does not look at them; and it gets the value that the RTL has read if the commit reads
`TSR`. -/
def refStep (irr : Word) (k : Commit) : Option (Stepped ι) :=
  let w := d.writeBack k
  match k.exc with
  | some .irq => (w.irqcSetIrr irr).emu.step A d.emu.pc true A.event
  | some (.other _) => w.emu.stepInsn A d.emu.pc { A.event with excp := false }
  | none =>
      (if d.readsTsr k.insn then w.msrSetTsr (w.rtlRegfile (rd k.insn)) else w).emu.stepInsn A
        d.emu.pc { A.event with excp := false }

/-- The registers of the RTL after a commit, and the emulator that has executed it. -/
def refCommit (irr : Word) (k : Commit) : Option (Dpi ι × ArchEvent) :=
  (d.refStep A irr k).map fun r =>
    ({ d.writeBack k with emu := { r.cpu with pc := r.npc } }, r.event)

/-- The commits agree with the reference as far as the emulator goes, and `P` holds at their end. -/
def Agrees (irr : Word) : List Commit → Dpi ι → (Dpi ι → Prop) → Prop
  | [], d, P => P d
  | k :: ks, d, P => ∀ q, d.refCommit A irr k = some q → d.Matches k q.2 ∧ Agrees irr ks q.1 P

/-- The commits of a run agree with the reference, and the registers do at the end of each
bundle. -/
def AgreesRun : List Bundle → Dpi ι → Prop
  | [], _ => True
  | b :: bs, d =>
      if d.timedOut A b.cycle then True
      else if b.commits = [] then AgreesRun bs d
      else
        Agrees A b.irqcIrr b.commits { d with lastCommitCycle := b.cycle } fun d =>
          d.RegsAgree ∧ AgreesRun bs d

/-! ### What the checker recognises -/

/-- The checker does before a commit what the reference does: only an interrupt has the vector of
interrupts in the target, no request is left that the emulator would respond to by itself, and the
reads of `TSR` are recognised. -/
structure Recognised (k : Commit) : Prop where
  vect : ∀ v, k.exc = some (.other v) → v ≠ A.C.vectEIRQ
  quiet : k.takesIrq = false → d.emu.irqcHandleIrqs = false
  tsr : k.exc = none → ((d.writeBack k).rtlReadsTsr k.insn ↔ d.readsTsr k.insn)

/-- All commits are recognised, as far as they agree with the reference, and `P` holds at their
end. -/
def RecognisedAll (irr : Word) : List Commit → Dpi ι → (Dpi ι → Prop) → Prop
  | [], d, P => P d
  | k :: ks, d, P =>
      d.Recognised A k ∧
        ∀ q, d.refCommit A irr k = some q → d.Matches k q.2 → RecognisedAll irr ks q.1 P

/-- All commits of a run are recognised. -/
def RecognisedRun : List Bundle → Dpi ι → Prop
  | [], _ => True
  | b :: bs, d =>
      if d.timedOut A b.cycle then True
      else if b.commits = [] then RecognisedRun bs d
      else
        RecognisedAll A b.irqcIrr b.commits { d with lastCommitCycle := b.cycle } fun d =>
          d.RegsAgree → RecognisedRun bs d

end Dpi

/-! ### A commit that is recognised -/

/-- Without a request that is left to it the emulator executes the instruction. -/
theorem StepCpu.step_of_quiet {c : StepCpu ι} (h : c.irqcHandleIrqs = false) (pc : Word)
    (event : ArchEvent) :
    c.step A pc true event = c.stepInsn A pc { event with excp := false } := by
  simp [StepCpu.step, h]

namespace Dpi

variable {A} {d : Dpi ι} {k : Commit} {irr : Word}

@[simp] theorem writeBack_emu : (d.writeBack k).emu = d.emu := by
  unfold writeBack
  split <;> rfl

@[simp] theorem sync_pc : (d.sync A irr k).emu.pc = d.emu.pc := by
  unfold sync
  split_ifs <;> rfl

@[simp] theorem sync_rtlRegfile : (d.sync A irr k).rtlRegfile = d.rtlRegfile := by
  unfold sync
  split_ifs <;> rfl

@[simp] theorem sync_lastCommitCycle : (d.sync A irr k).lastCommitCycle = d.lastCommitCycle := by
  unfold sync
  split_ifs <;> rfl

@[simp] theorem matches_writeBack {event : ArchEvent} :
    (d.writeBack k).Matches k event ↔ d.Matches k event := by
  rw [Matches, writeBack_emu, Matches]

@[simp] theorem matches_sync {event : ArchEvent} :
    (d.sync A irr k).Matches k event ↔ d.Matches k event := by
  rw [Matches, sync_pc, Matches]

/-- The checker and the reference take the same step. -/
theorem step_sync (h : d.Recognised A k) :
    ((d.writeBack k).sync A irr k).emu.step A d.emu.pc true A.event = d.refStep A irr k := by
  unfold refStep
  cases hk : k.exc with
  | none =>
      have hq : d.emu.irqcHandleIrqs = false := h.quiet (by simp [Commit.takesIrq, hk])
      simp only [sync, Commit.excp, hk, Option.isSome_none, Bool.false_eq_true, if_false]
      -- the value of `TSR` is not a request
      by_cases ht : d.readsTsr k.insn
      · rw [if_pos ((h.tsr hk).2 ht), if_pos ht]
        exact StepCpu.step_of_quiet A (by simpa [msrSetTsr, MsrCpu.irqcHandleIrqs] using hq) _ _
      · rw [if_neg (mt (h.tsr hk).1 ht), if_neg ht, writeBack_emu]
        exact StepCpu.step_of_quiet A hq _ _
  | some e =>
      cases e with
      | irq => simp [sync, Commit.excp, Commit.excpVect, hk]
      | other v =>
          have hq : d.emu.irqcHandleIrqs = false := h.quiet (by simp [Commit.takesIrq, hk])
          have hs : (d.writeBack k).sync A irr k = d.writeBack k := by
            simp [sync, Commit.excp, Commit.excpVect, hk, h.vect v hk]
          simp only [hs, writeBack_emu]
          exact StepCpu.step_of_quiet A hq _ _

/-- **A recognised commit is checked against the reference.** -/
theorem checkCommit_eq (h : d.Recognised A k) :
    d.checkCommit A irr k =
      match d.refCommit A irr k with
      | none => .stopped
      | some q => if d.Matches k q.2 then .go q.1 else .mismatch := by
  have hw : ¬(k.excp = false ∧ k.wen = true ∧ k.wnum = 0) :=
    fun hc => Commit.wnum_of_wen hc.1 hc.2.1 hc.2.2
  rw [checkCommit, if_neg hw]
  simp only [sync_pc, writeBack_emu, step_sync h, refCommit]
  cases d.refStep A irr k with
  | none => rfl
  | some r =>
      simp only [Option.map_some, matches_sync, matches_writeBack, sync_rtlRegfile,
        sync_lastCommitCycle]

/-- An index below the cut is not changed by it. -/
theorem setWidth_or_eq_iff {b : Word} (hb : b.toNat < 2 ^ 16) (imm v : BitVec 16) :
    (b ||| imm.setWidth 32).setWidth 16 = v ↔ b ||| imm.setWidth 32 = v.setWidth 32 := by
  have hlt : (b ||| imm.setWidth 32).toNat < 2 ^ 16 := by
    rw [BitVec.toNat_or]
    refine Nat.or_lt_two_pow hb ?_
    rw [BitVec.toNat_setWidth]
    exact lt_of_le_of_lt (Nat.mod_le _ _) imm.isLt
  rw [← BitVec.toNat_inj, ← BitVec.toNat_inj, BitVec.toNat_setWidth, Nat.mod_eq_of_lt hlt,
    BitVec.toNat_setWidth, Nat.mod_eq_of_lt (lt_trans v.isLt (by norm_num))]

/-- A read of `TSR` is recognised if the commit keeps the base register, which holds an index. -/
theorem readsTsr_iff_of_ne (hr : d.rtlRegfile (rs1 k.insn) = d.emu.getReg (rs1 k.insn))
    (hlt : (d.emu.getReg (rs1 k.insn)).toNat < 2 ^ 16) (hne : k.wen = true → k.wnum ≠ rs1 k.insn) :
    (d.writeBack k).rtlReadsTsr k.insn ↔ d.readsTsr k.insn := by
  have hkeep : (d.writeBack k).rtlRegfile (rs1 k.insn) = d.emu.getReg (rs1 k.insn) := by
    unfold writeBack
    split
    case isTrue h =>
        change Function.update d.rtlRegfile k.wnum k.wdata _ = _
        rw [Function.update_of_ne (hne h.2).symm, hr]
    case isFalse => exact hr
  rw [rtlReadsTsr, readsTsr, hkeep, StepCpu.index, setWidth_or_eq_iff hlt]
  rfl

/-! ### A run that is recognised -/

/-- The loop finds no mismatch, and neither does what follows, exactly if the commits agree with the
reference. -/
theorem checkLoop_ne_mismatch {ks : List Commit} {P Q : Dpi ι → Prop} {f : Dpi ι → Outcome (Dpi ι)}
    (hf : ∀ d, Q d → (f d ≠ .mismatch ↔ P d)) (h : RecognisedAll A irr ks d Q) :
    (checkLoop A irr ks d).bind f ≠ .mismatch ↔ Agrees A irr ks d P := by
  induction ks generalizing d with
  | nil => exact hf d h
  | cons k ks ih =>
      obtain ⟨hk, hks⟩ := h
      rw [checkLoop, Outcome.bind_bind, checkCommit_eq hk, Agrees]
      cases hr : d.refCommit A irr k with
      | none =>
          -- the emulator has stopped the simulation
          simp
      | some q =>
          by_cases hm : d.Matches k q.2
          · simp only [if_pos hm, Outcome.bind_go, ih (hks q hr hm)]
            simp [hm]
          · simp [hm]

/-- **The verdict of a recognised run is exact**: there is no mismatch exactly if the commits agree
with the reference. -/
theorem verdict_exact (bs : List Bundle) (d : Dpi ι) (h : RecognisedRun A bs d) :
    dpicRun A bs d ≠ .mismatch ↔ AgreesRun A bs d := by
  induction bs generalizing d with
  | nil => simp [dpicRun, AgreesRun]
  | cons b bs ih =>
      rw [dpicRun, AgreesRun, dpicStep]
      rw [RecognisedRun] at h
      by_cases ht : d.timedOut A b.cycle
      · simp [ht]
      · simp only [ht, if_false, Bool.false_eq_true] at h ⊢
        by_cases hb : b.commits = []
        · simp only [hb, if_true, Outcome.bind_go] at h ⊢
          exact ih d h
        · simp only [hb, if_false] at h ⊢
          rw [Outcome.bind_bind]
          refine checkLoop_ne_mismatch (fun d hd => ?_) h
          -- the registers are compared at the end of the bundle
          by_cases hr : d.RegsAgree
          · rw [if_pos hr, Outcome.bind_go, ih d (hd hr), and_iff_right hr]
          · simp [hr]

/-- The emulator without caches. -/
def plainSetup : Setup Unit where
  C := MsrConfig.default
  K := CacheCode.disabled
  I := ⟨fun i m a => (i, Em.phyReadm32 m a), fun i _ => i⟩
  commitTimeoutMax := 1000
  event := ⟨0, false⟩

/-- The start, with words in memory from the reset vector on. -/
def loaded (words : List Word) : Dpi Unit where
  emu :=
    { MsrCpu.zero.reset with
      mem := fun a => ((words.getD ((a - 0x80000000).toNat / 4) 0) >>> (8 * (a.toNat % 4))).setWidth
        8
      icache := ()
      pc := 0x80000000 }
  rtlRegfile := fun _ => 0
  lastCommitCycle := 0

/-- A bundle with one commit. -/
def single (cycle : BitVec 64) (irqcIrr : Word) (k : Commit) : Bundle :=
  ⟨cycle, irqcIrr, ![some k, none]⟩

@[simp] theorem commits_single (cycle : BitVec 64) (irr : Word) (k : Commit) :
    (single cycle irr k).commits = [k] := rfl

theorem agreesRun_single {cycle : BitVec 64} {bs : List Bundle} (ht : d.timedOut A cycle = false) :
    AgreesRun A (single cycle irr k :: bs) d ↔
      ∀ q, { d with lastCommitCycle := cycle }.refCommit A irr k = some q →
        d.Matches k q.2 ∧ q.1.RegsAgree ∧ AgreesRun A bs q.1 := by
  rw [AgreesRun,
    if_neg (by rw [show (single cycle irr k).cycle = cycle from rfl, ht]; exact Bool.false_ne_true),
    commits_single, if_neg (List.cons_ne_nil _ _)]
  rfl

theorem recognisedRun_single {cycle : BitVec 64}
    (hk : { d with lastCommitCycle := cycle }.Recognised A k) :
    RecognisedRun A [single cycle irr k] d := by
  rw [RecognisedRun, commits_single, if_neg (List.cons_ne_nil _ _)]
  split_ifs
  exact ⟨hk, fun _ _ _ _ => trivial⟩

/-- The commit of a read of `TSR` (5) by `rmsr rd, rs1, 0xe01` with `rs1` = 1. -/
def tsrCommit (rd : LReg) (h : rd ≠ 0) : Commit where
  pc := 0x80000000
  insn := 0x1c021480 ||| BitVec.ofNat 32 rd
  wen := true
  wnum := rd
  wdata := 5
  exc := none
  wnum_ne_zero _ _ := h

/-- A read of `TSR` into another register than its base. -/
theorem verdict_exact_tsr :
    dpicRun plainSetup [single 1 0 (tsrCommit 2 (by decide))]
    (loaded [0x1c021482]) ≠ .mismatch := by
  refine (verdict_exact _ _ (recognisedRun_single ⟨?_, ?_, ?_⟩)).2 ?_
  · intro v hv
    cases hv
  · intro _
    rfl
  · intro _
    exact readsTsr_iff_of_ne rfl (by decide +kernel) fun _ => by decide
  · rw [agreesRun_single rfl]
    intro q hq
    obtain rfl := Option.some.inj hq
    exact ⟨⟨rfl, fun _ => rfl, rfl⟩, by decide +kernel, trivial⟩

/-- A handler that is about to return to the address 0x80000008: interrupts are masked by `PSR.IRE`
only. -/
def inHandler (words : List Word) : Dpi Unit :=
  let c := (loaded words).emu
  { loaded words with
    emu :=
      { c with psr := { c.psr with ire := false }, epsr := { c.psr with
        ire := true }, epc := 0x80000008, imr := 0 } }

/-- The commit of `rete` with the target 0x80000008. -/
def reteCommit : Commit where
  pc := 0x80000000
  insn := 0x440
  wen := false
  wnum := 0
  wdata := 0
  exc := some (.other 8)
  wnum_ne_zero h := by cases h

/-- The commit of `and r0, r0, r0` at 0x80000008. -/
def nopCommit : Commit where
  pc := 0x80000008
  insn := 0
  wen := false
  wnum := 0
  wdata := 0
  exc := none
  wnum_ne_zero _ h := by cases h

/-- Two false alarms: a read of `TSR` into its base register, and a return to an address that ends
like the vector of interrupts while a request comes and goes. -/
theorem false_alarms :
    (AgreesRun plainSetup [single 1 0 (tsrCommit 1 (by decide))] (loaded [0x1c021481]) ∧
      dpicRun plainSetup [single 1 0 (tsrCommit 1 (by decide))] (loaded [0x1c021481]) = .mismatch) ∧
    AgreesRun plainSetup [single 1 1 reteCommit, single 2 0 nopCommit] (inHandler [0x440, 0, 0]) ∧
      dpicRun plainSetup [single 1 1 reteCommit, single 2 0 nopCommit] (inHandler [0x440, 0, 0]) =
        .mismatch := by
  refine ⟨⟨?_, ?_⟩, ?_, ?_⟩
  · rw [agreesRun_single rfl]
    intro q hq
    obtain rfl := Option.some.inj hq
    exact ⟨⟨rfl, fun _ => rfl, rfl⟩, by decide +kernel, trivial⟩
  · rfl
  · rw [agreesRun_single rfl]
    intro q hq
    obtain rfl := Option.some.inj hq
    refine ⟨⟨rfl, fun h => Bool.noConfusion (h : true = false), rfl⟩, by decide +kernel, ?_⟩
    rw [agreesRun_single rfl]
    intro q hq
    obtain rfl := Option.some.inj hq
    exact ⟨⟨rfl, fun _ => rfl, rfl⟩, by decide +kernel, trivial⟩
  · rfl

end Dpi

end Em

end NanoCpu
