/-
**The chip in the co-simulation** (`rtl/core/difftest.v` and `ncpu64k.v` against
`em/csrc/dpi-c.cc`).

In every cycle the monitor hands what the chip has committed to the checker, which lets the emulator
execute as many instructions and compares.  An alarm is worth something only if there is none
without a reason: as long as the emulator does what the program asks for there is no mismatch,
whatever the chip fetches ahead, executes out of order and flushes.

Main definitions:

* `Em.Commit.report` — what the checker gets of a commit;
* `Difftest.cosim` — the core on a program, the monitor and the checker;
* `Difftest.Followed` — the emulator executes what commits, without exceptions and reads of an MSR.

Main results:

* `Difftest.check_of_tells` — one report of an instruction that the emulator executes;
* `Difftest.no_false_alarm` — **there is no false alarm** in any run.
-/

import NanoCpu.Difftest
import NanoCpu.Ncpu64kProgress

set_option relaxedAutoImplicit false
set_option autoImplicit false
set_option linter.unusedSectionVars false

namespace NanoCpu

open Em

/-- The arguments of `dpic_commit_inst`. -/
def Em.Commit.report (C : MsrConfig) (k : Commit) : Report where
  pc := k.pc
  insn := k.insn
  wen := k.wen
  wnum := k.wnum
  wdata := k.wdata
  excp := k.excp
  excpVect := k.excpVect C

namespace Difftest

variable {ι : Type} {A : Setup ι} {n : ℕ} [NeZero n] {C : CoreCfg} {s : Core n} {d : Difftest}
  {h : CoreLog}
  {pcRst : Pc} {u : Bpu} {w : IqWord} {z : RInsn} {z' : Difftest} {P : Program} {l : List Event}
  {c₀ : StepCpu ι} {dp dp₀ : Dpi ι} {irr : Word}

/-- The core on a program, the monitor, and the checker, which gets in every cycle what the monitor
shows. -/
def cosim (A : Setup ι) (n : ℕ) [NeZero n] (C : CoreCfg) (pcRst : Pc) (u : Bpu) (w : IqWord)
    (z : RInsn) (z' : Difftest) (P : Program) (dp₀ : Dpi ι) :
    Machine ((((Core n × CoreLog) × List Event) × Difftest) × Outcome (Dpi ι))
    (CoreIn × Bundle) where
  reset := (((Core.onProgram n C pcRst u w z P).reset, reset z'), .go dp₀)
  allowed q x := (Core.onProgram n C pcRst u w z P).allowed q.1.1 x.1 ∧
    ∀ i : Fin 2, (x.2.ch i).map (Commit.report A.C) = q.1.2.report q.1.1.1.1 i
  next q x := (((Core.onProgram n C pcRst u w z P).next q.1.1 x.1, q.1.2.next C q.1.1.1.1 x.1),
    q.2.bind fun dp => dp.dpicStep A x.2)

variable (A P c₀) in
/-- The emulator executes what commits: no event is an exception or a read of an MSR, and the
emulator agrees in what the program does not decide. -/
def Followed (l : List Event) : Prop :=
  ∀ k e, l[k]? = some e → (∃ i ans, e = .commit i ans) ∧ ∀ c, c₀.after A true k = some c →
    c.Agrees A true P e ∧ opcode (P (c.pc.extractLsb' 2 30)) ≠ Op.rmsr.code

theorem Followed.of_prefix {l' : List Event} (hF : Followed A P c₀ l') (hl : l <+: l') :
    Followed A P c₀ l := by
  intro k e he
  obtain ⟨m, rfl⟩ := hl
  exact hF k e (by rwa [List.getElem?_append_left (List.getElem?_eq_some_iff.1 he).1])

instance (e : Event) : Decidable (∃ d ans, e = .commit d ans) :=
  match e with
  | .commit d ans => isTrue ⟨d, ans, rfl⟩
  | .except _ => isFalse fun ⟨_, _, h⟩ => nomatch h

/-! ### One commit -/

/-- The checker has the registers of the emulator. -/
def Level (c : StepCpu ι) (dp : Dpi ι) : Prop := dp.emu = c ∧ dp.rtlRegfile = c.getReg

/-- A report of an instruction that the emulator executes is no mismatch, and the registers stay the
same. -/
theorem check_of_tells (hK : A.K.KeepsRegs) {c : StepCpu ι} {p : Point} {k : Commit} {ans : Word}
    (hl : Level c dp) (hregs : c.getReg = p.regs) (hpc : c.pc = Epu.pcWord p.pc)
    (ht : (k.report A.C).Tells P p (P.event p (.commit ans))) (hfe : (P.insn p.pc).fe.any = false)
    (ha : c.Agrees A true P (P.event p (.commit ans))) (hop : opcode (P p.pc) ≠ Op.rmsr.code) :
    ∃ c' dp', dp.checkCommit A irr k = .go dp' ∧ c.runStep A true = some c' ∧ Level c' dp' := by
  obtain ⟨rfl, hrf⟩ := hl
  obtain ⟨r, hstep, hagr⟩ := ha
  obtain ⟨hev, -⟩ := StepCpu.step_event hK hregs hpc hstep hagr fun d a hd => by
    injection hd with hd
    rw [← hd]
    exact hfe
  obtain ⟨hex, hins, -⟩ := hagr
  rw [hpc, Epu.extractLsb'_pcWord] at hins
  obtain ⟨hinsn, hexcp, hwen, hwr⟩ := ht.commit _ _ rfl
  change k.insn = P p.pc at hinsn
  change k.excp = false at hexcp
  change k.wen = _ at hwen
  have hsync : (dp.writeBack k).sync A irr k = dp.writeBack k := by
    rw [Dpi.sync, hexcp, if_neg Bool.false_ne_true, if_neg]
    rw [Dpi.rtlReadsTsr, hinsn]
    exact fun hr => hop hr.1
  have hmatch : (dp.writeBack k).Matches k r.event := by
    refine ⟨?_, fun _ => hinsn.trans hins.symm, hex.trans hexcp.symm⟩
    rw [Dpi.writeBack_emu, hpc]
    exact ht.pc
  refine ⟨{ r.cpu with pc := r.npc }, { dp.writeBack k with emu := { r.cpu with pc := r.npc } }, ?_,
    ?_, rfl, ?_⟩
  · rw [Dpi.checkCommit, if_neg fun hc => Commit.wnum_of_wen hc.1 hc.2.1 hc.2.2, hsync]
    simp only [Dpi.writeBack_emu, hstep, hmatch, if_true]
  · rw [StepCpu.runStep, hstep, Option.map_some]
  · -- what the monitor shows is written to both files
    change (dp.writeBack k).rtlRegfile = r.cpu.getReg
    rw [hev]
    change _ = (P.insn p.pc).step p.regs ((P.insn p.pc).heard ans)
    cases hwe : (P.insn p.pc).lrdWe with
    | false =>
        rw [Dpi.writeBack, hwen, hwe, if_neg (by simp), hrf, hregs, DecInsn.step, hwe]
        rfl
    | true =>
        obtain ⟨hnum, hdat⟩ := hwr hwe
        change k.wnum = _ at hnum
        change k.wdata = _ at hdat
        rw [Dpi.writeBack, hwen, hwe, hexcp, if_pos ⟨rfl, rfl⟩, DecInsn.step, hwe, if_pos rfl, hnum,
          hdat, ← hregs, ← hrf]

/-! ### The commits of a cycle -/

/-- The emulator is where the program is. -/
theorem Followed.at (hK : A.K.KeepsRegs) (hP : 1 ≤ C.P)
    (hr : (Core.onProgram n C pcRst u w z P).Reach ((s, h), l)) (hF : Followed A P c₀ l)
    (hpc : c₀.pc = Epu.pcWord pcRst) (hz : ∀ i, c₀.getReg i = 0) {m : ℕ} (hm : m < l.length) :
    ∃ c ans, c₀.after A true m = some c ∧
      l[m]? = some (P.event ((⟨pcRst, fun _ => 0⟩ : Point).run (l.take m)) (.commit ans)) ∧
      c.getReg = ((⟨pcRst, fun _ => 0⟩ : Point).run (l.take m)).regs ∧
      c.pc = Epu.pcWord ((⟨pcRst, fun _ => 0⟩ : Point).run (l.take m)).pc ∧
      (P.insn ((⟨pcRst, fun _ => 0⟩ : Point).run (l.take m)).pc).fe.any = false := by
  have hp := Core.path_of_reach hP (Core.running_of_onProgram hr List.prefix_rfl)
  have hfe := Core.fe_of_onProgram hP hr
  obtain ⟨c, hc, hregs, hat⟩ := StepCpu.after_run (A := A) (b := true) hK hp.follows hfe
    (funext hz) hpc hm.le fun j _ e c he hc => ((hF j e he).2 c hc).1
  obtain ⟨hget, -⟩ := hp.follows.getElem hm
  obtain ⟨⟨i, ans, he⟩, -⟩ := hF m _ hget
  cases hans : Core.answersOf l (l.take m) with
  | commit a =>
      rw [hans] at hget
      exact ⟨c, a, hc, hget, hregs, hat, hfe _ _ (List.mem_of_getElem? hget)⟩
  | except t =>
      rw [hans] at he
      cases he

/-- The loop over the commits of a cycle. -/
theorem checkLoop_of_tells (hK : A.K.KeepsRegs) (hP : 1 ≤ C.P)
    (hr : (Core.onProgram n C pcRst u w z P).Reach ((s, h), l)) (hF : Followed A P c₀ l)
    (hpc : c₀.pc = Epu.pcWord pcRst) (hz : ∀ i, c₀.getReg i = 0) {ks : List Commit} {m : ℕ}
    {c : StepCpu ι}
    (hm : m + ks.length ≤ l.length) (hc : c₀.after A true m = some c) (hl : Level c dp)
    (ht : ∀ j k e, ks[j]? = some k → l[m + j]? = some e →
      (k.report A.C).Tells P ((⟨pcRst, fun _ => 0⟩ : Point).run (l.take (m + j))) e) :
    ∃ c' dp', Dpi.checkLoop A irr ks dp = .go dp' ∧ c₀.after A true (m + ks.length) = some c' ∧
      Level c' dp' := by
  induction ks generalizing m c dp with
  | nil => exact ⟨c, dp, rfl, hc, hl⟩
  | cons k ks ih =>
      rw [List.length_cons] at hm
      obtain ⟨c₁, ans, hc₁, hget, hregs, hat, hfe⟩ :=
        hF.at hK hP hr hpc hz (show m < l.length by omega)
      obtain rfl := Option.some.inj (hc₁.symm.trans hc)
      obtain ⟨ha, hop⟩ := (hF m _ hget).2 c₁ hc
      rw [hat, Epu.extractLsb'_pcWord] at hop
      obtain ⟨c', dp', hgo, hrun, hl'⟩ : ∃ c' dp', dp.checkCommit A irr k = .go dp' ∧
          c₁.runStep A true = some c' ∧
          Level c' dp' := check_of_tells hK hl hregs hat (ht 0 k _ rfl hget) hfe ha hop
      obtain ⟨c'', dp'', hgo', hafter, hl''⟩ := ih (m := m + 1) (by omega)
        (by rw [StepCpu.after, hc, Option.bind_some, hrun]) hl' fun j k' e hk he => by
          have := ht (j + 1) k' e hk (by rwa [show m + (j + 1) = m + 1 + j by omega])
          rwa [show m + (j + 1) = m + 1 + j by omega] at this
      refine ⟨c'', dp'', ?_, ?_, hl''⟩
      · rw [Dpi.checkLoop, hgo, Outcome.bind_go, hgo']
      · rw [List.length_cons, show m + (ks.length + 1) = m + 1 + ks.length by omega]
        exact hafter

/-- The commits of a bundle are the reports of the cycle. -/
theorem map_commits {b : Bundle}
    (hb : ∀ i : Fin 2, (b.ch i).map (Commit.report A.C) = d.report s i) :
    b.commits.map (Commit.report A.C) = d.reports s := by
  have h0 := hb 0
  have h1 := hb 1
  rw [Bundle.commits, reports, List.map_filterMap, show List.range 2 = [0, 1] from rfl,
    show List.finRange 2 = [0, 1] from rfl]
  simp only [List.filterMap_cons, List.filterMap_nil]
  rw [h0, h1]
  rfl

/-- One call of the checker: it goes on, or the watchdog barks. -/
theorem dpicStep_of_tells (hK : A.K.KeepsRegs) (hP : 1 ≤ C.P)
    (hr : (Core.onProgram n C pcRst u w z P).Reach ((s, h), l)) (hF : Followed A P c₀ l)
    (hpc : c₀.pc = Epu.pcWord pcRst) (hz : ∀ i, c₀.getReg i = 0) {b : Bundle} {m : ℕ}
    {c : StepCpu ι}
    (hm : m + b.commits.length ≤ l.length) (hc : c₀.after A true m = some c) (hl : Level c dp)
    (ht : ∀ j k e, b.commits[j]? = some k → l[m + j]? = some e →
      (k.report A.C).Tells P ((⟨pcRst, fun _ => 0⟩ : Point).run (l.take (m + j))) e) :
    dp.dpicStep A b = .timeout ∨ ∃ c' dp', dp.dpicStep A b = .go dp' ∧
      c₀.after A true (m + b.commits.length) = some c' ∧ Level c' dp' := by
  rw [Dpi.dpicStep]
  split_ifs with htime hnil
  · exact Or.inl rfl
  · rw [hnil]
    exact Or.inr ⟨c, dp, rfl, hc, hl⟩
  · obtain ⟨c', dp', hgo, hafter, hl'⟩ : ∃ c' dp',
        Dpi.checkLoop A b.irqcIrr b.commits { dp with lastCommitCycle := b.cycle } = .go dp' ∧
          c₀.after A true (m + b.commits.length) = some c' ∧ Level c' dp' :=
      checkLoop_of_tells hK hP hr hF hpc hz hm hc hl ht
    refine Or.inr ⟨c', dp', ?_, hafter, hl'⟩
    have hregs : dp'.RegsAgree := fun i => by rw [hl'.2, hl'.1]
    rw [hgo, Outcome.bind_go, if_pos hregs]

/-! ### Every run -/

/-- What holds in the co-simulation: the checker has executed what has been reported, or the
watchdog has ended the simulation. -/
def Sound (A : Setup ι) (n : ℕ) [NeZero n] (C : CoreCfg) (pcRst : Pc) (u : Bpu) (w : IqWord)
    (z : RInsn) (z' : Difftest) (P : Program) (c₀ : StepCpu ι)
    (q : (((Core n × CoreLog) × List Event) × Difftest) × Outcome (Dpi ι)) : Prop :=
  ∃ rs, (reporting n C pcRst u w z z' P).Reach (q.1.1, q.1.2, rs) ∧ (Followed A P c₀ q.1.1.2 →
    q.2 = .timeout ∨ ∃ c dp, q.2 = .go dp ∧ c₀.after A true rs.length = some c ∧ Level c dp)

theorem sound_of_reach (hK : A.K.KeepsRegs) (hP : 1 ≤ C.P) (hpc : c₀.pc = Epu.pcWord pcRst)
    (hz : ∀ i, c₀.getReg i = 0) (hl : Level c₀ dp₀)
    {q : (((Core n × CoreLog) × List Event) × Difftest) × Outcome (Dpi ι)}
    (hr : (cosim A n C pcRst u w z z' P dp₀).Reach q) : Sound A n C pcRst u w z z' P c₀ q := by
  refine Machine.Reach.inv (M := cosim A n C pcRst u w z z' P dp₀)
    (P := Sound A n C pcRst u w z z' P c₀)
    ⟨[], Machine.Reach.reset, fun _ => Or.inr ⟨c₀, dp₀, rfl, rfl, hl⟩⟩ ?_ hr
  rintro ⟨⟨⟨⟨s, h⟩, l⟩, d⟩, o⟩ ⟨x, b⟩ ⟨rs, hrs, hsound⟩ ⟨hx, hb⟩
  refine ⟨rs ++ d.reports s, Machine.Reach.tick (x := x) hrs ⟨hx, trivial⟩, fun hF => ?_⟩
  have hF' : Followed A P c₀ (l ++ Core.events C s h x) := hF
  have hFl : Followed A P c₀ l := hF'.of_prefix (List.prefix_append _ _)
  obtain ⟨hon, -⟩ := parts_of_reporting hrs
  obtain ⟨hlen, htells⟩ := told_of_reach hP hrs
  have hmap := map_commits hb
  have hcl : b.commits.length = (d.reports s).length := by rw [← hmap, List.length_map]
  rcases hsound hFl with ho | ⟨c, dp, ho, hc, hlv⟩
  · refine Or.inl ?_
    change o.bind _ = _
    rw [show o = .timeout from ho, Outcome.bind_timeout]
  · change o.bind _ = _ ∨ _
    rw [show o = .go dp from ho, Outcome.bind_go]
    rw [List.length_append] at hlen ⊢
    rw [← hcl] at hlen ⊢
    refine dpicStep_of_tells hK hP hon hFl hpc hz hlen.le hc hlv fun j k e hk he => ?_
    refine htells (rs.length + j) _ e ?_ he
    rw [List.getElem?_append_right (Nat.le_add_right _ _), Nat.add_sub_cancel_left, ← hmap,
      List.getElem?_map, hk, Option.map_some]

/-- Unless the watchdog has ended the simulation, the checker is level with the core. -/
theorem checked_of_reach (hK : A.K.KeepsRegs) (hP : 1 ≤ C.P) {o : Outcome (Dpi ι)}
    (hr : (cosim A n C pcRst u w z z' P dp₀).Reach ((((s, h), l), d), o))
    (hpc : dp₀.emu.pc = Epu.pcWord pcRst)
    (hz : ∀ i, dp₀.emu.getReg i = 0 ∧ dp₀.rtlRegfile i = 0) (hF : Followed A P dp₀.emu l) :
    o = .timeout ∨ ∃ dp, o = .go dp ∧ dp.RegsAgree ∧
      dp₀.emu.after A true (l.length - (d.reports s).length) = some dp.emu := by
  have hl : Level dp₀.emu dp₀ := ⟨rfl, funext fun i => (hz i).2.trans (hz i).1.symm⟩
  obtain ⟨rs, hrs, hsound⟩ := sound_of_reach hK hP hpc (fun i => (hz i).1) hl hr
  have hlen : (rs ++ d.reports s).length = l.length := (told_of_reach hP hrs).1
  rcases hsound hF with ho | ⟨c, dp, ho, hc, hlv⟩
  · exact Or.inl ho
  · refine Or.inr ⟨dp, ho, fun i => by rw [hlv.2, hlv.1], ?_⟩
    rw [List.length_append] at hlen
    rw [hlv.1, show l.length - (d.reports s).length = rs.length by omega]
    exact hc

/-- **There is no false alarm.**  In every run of a program on the core, as long as the emulator
executes what commits and none of it is an exception or a read of an MSR, the checker finds no
mismatch, and the emulator does not stop: unless the watchdog has ended the simulation, the checker
goes on, with the emulator behind the instructions that have been reported, and the same
registers. -/
theorem no_false_alarm (hK : A.K.KeepsRegs) (hP : 1 ≤ C.P) {o : Outcome (Dpi ι)}
    (hr : (cosim A n C pcRst u w z z' P dp₀).Reach ((((s, h), l), d), o))
    (hpc : dp₀.emu.pc = Epu.pcWord pcRst)
    (hz : ∀ i, dp₀.emu.getReg i = 0 ∧ dp₀.rtlRegfile i = 0) (hF : Followed A P dp₀.emu l) :
    o = .timeout ∨ ∃ dp, o = .go dp ∧ dp.RegsAgree ∧
      dp₀.emu.after A true (l.length - (d.reports s).length) = some dp.emu :=
  checked_of_reach hK hP hr hpc hz hF

/-! ### A load, a store and a branch -/

/-- What the checker gets of an instruction. -/
def instrCommit (r : Report) : Option Commit :=
  if h : r.wen = true → r.wnum ≠ 0 then
    some
      { pc := r.pc
        insn := r.insn
        wen := r.wen
        wnum := r.wnum
        wdata := r.wdata
        exc := none
        wnum_ne_zero := fun _ => h }
  else none

/-- The report is that of an instruction. -/
def instrReport (r : Report) : Bool := (!r.wen || r.wnum != 0) && !r.excp && r.excpVect == 0

/-- The commit brings the report of an instruction back. -/
theorem map_instrCommit {o : Option Report} (ho : o.all instrReport = true) :
    (o.bind instrCommit).map (Commit.report A.C) = o := by
  cases o with
  | none => rfl
  | some r =>
      obtain ⟨pc, insn, wen, wnum, wdata, excp, excpVect⟩ := r
      simp only [Option.all_some, instrReport, Bool.and_eq_true, Bool.or_eq_true, Bool.not_eq_true',
        bne_iff_ne, beq_iff_eq] at ho
      obtain ⟨⟨hw, rfl⟩, rfl⟩ := ho
      have hwn : wen = true → wnum ≠ 0 := fun h => hw.resolve_left (by simp [h])
      rw [Option.bind_some, instrCommit, dif_pos hwn, Option.map_some]
      rfl

/-- The chip with the program `mixed` in the co-simulation. -/
def checking : Machine ((((Core 4 × CoreLog) × List Event) × Difftest) × Outcome (Dpi Unit))
    (CoreIn × Bundle) :=
  cosim Dpi.plainSetup 4 chip 0xc000000 Frontend.bpuRst Frontend.emptyWord emptyInsn
    unknown Core.mixed ⟨Core.mixedStart, fun _ => 0, 0⟩

/-- The commits of a cycle. -/
def shown (q : (((Core 4 × CoreLog) × List Event) × Difftest) × Outcome (Dpi Unit)) : Bundle :=
  ⟨0, 0, fun i => (q.1.2.report q.1.1.1.1 i).bind instrCommit⟩

def checked : ℕ → (((Core 4 × CoreLog) × List Event) × Difftest) × Outcome (Dpi Unit)
  | 0 => checking.reset
  | k + 1 =>
      checking.next (checked k) ((checked k).1.1.1.1.timedIn Core.mixed 0x11223344 Tsc.reset,
        shown (checked k))

theorem reach_checked {k : ℕ}
    (h : ∀ j < k, ∀ i : Fin 2, ((checked j).1.2.report (checked j).1.1.1.1 i).all instrReport =
      true) : checking.Reach (checked k) := by
  induction k with
  | zero => exact Machine.Reach.reset
  | succ k ih =>
      exact Machine.Reach.tick (ih fun j hj => h j (by omega))
        ⟨⟨trivial, fun _ _ _ _ => rfl⟩, fun i => map_instrCommit (A := Dpi.plainSetup)
          (h k (Nat.lt_succ_self k) i)⟩

/-- After 27 cycles the checker has got the reports of the load, of the instruction that takes its
value and of the store, and finds nothing. -/
theorem no_false_alarm_mixed :
    3 ≤ (checked 27).1.1.2.length - ((checked 27).1.2.reports (checked 27).1.1.1.1).length ∧
      ((checked 27).2 = .timeout ∨ ∃ dp, (checked 27).2 = .go dp ∧ dp.RegsAgree ∧
        Core.mixedStart.after Dpi.plainSetup true
          ((checked 27).1.1.2.length - ((checked 27).1.2.reports (checked 27).1.1.1.1).length) =
            some dp.emu) := by
  obtain ⟨hin, hl, hF⟩ : (∀ j < 27, ∀ i : Fin 2,
        ((checked j).1.2.report (checked j).1.1.1.1 i).all instrReport = true) ∧
        3 ≤ (checked 27).1.1.2.length - ((checked 27).1.2.reports (checked 27).1.1.1.1).length ∧
        ∀ k < (checked 27).1.1.2.length, ∀ e ∈ (checked 27).1.1.2[k]?,
          (∃ d ans, e = .commit d ans) ∧
          ∀ c ∈ Core.mixedStart.after Dpi.plainSetup true k,
            c.Agrees Dpi.plainSetup true Core.mixed e ∧
            opcode (Core.mixed (c.pc.extractLsb' 2 30)) ≠ Op.rmsr.code := by
    decide +kernel
  refine ⟨hl, ?_⟩
  have hr : checking.Reach (checked 27) := reach_checked hin
  revert hr hF
  clear hin hl
  generalize checked 27 = q
  obtain ⟨⟨⟨⟨s, h⟩, l⟩, d⟩, o⟩ := q
  intro hF hr
  exact no_false_alarm ⟨fun _ _ => rfl, fun _ _ => rfl, fun _ _ => rfl⟩ (by decide) hr rfl
    (fun i => by decide +revert) fun k e he => hF k (List.getElem?_eq_some_iff.1 he).1 e he

end Difftest

end NanoCpu
