/-
**The co-simulation of the whole chip** (`rtl/core/ncpu64k.v` with `difftest.v` against
`em/csrc/dpi-c.cc`).

The core between its two buses commits what the emulator executes (`Ncpu64k`), and what the monitor
reports is what commits (`Difftest`).  So the checker, whose emulator starts with the same bytes in
memory, finds nothing: this is what a run of the test bench says of a program of plain instructions,
for all of them and for every timing of the buses.

Main results:

* `DataCore.points_of_reach` — every instruction that has committed left the registers of the
  program;
* `Ncpu64k.raises_no_alarm` — **the co-simulation of the chip raises no alarm**.
-/

import NanoCpu.Cosim

set_option relaxedAutoImplicit false
set_option autoImplicit false
set_option linter.unusedSectionVars false

namespace NanoCpu

open Em

/-! ### Behind every instruction -/

namespace DataCore

variable {n k : ℕ} [NeZero n] [NeZero k] {C : CoreCfg} {S : ℕ} {seg : Bool} {s : DataCore n k}
  {h : CoreLog}
  {pcRst : Pc} {u : Bpu} {w : IqWord} {z : RInsn} {pay : Fin k → ℕ × ℕ → ℕ → Byte} {m₀ : ℕ → Byte}
    {P : Program} {l : List Event}

/-- What has committed is the program instruction by instruction, also where two go in one cycle. -/
theorem points_of_reach (hP : 1 ≤ C.P) (hS : S ≤ 7)
    (hr : (onProgram n k C S seg pcRst u w z pay m₀ P).Reach ((s, h), l))
    (hpl : ∀ i ≤ l.length, P.PlainAt (MemPoint.start pcRst m₀) i) :
    ∀ i ≤ l.length, (MemPoint.start pcRst m₀).toPoint.run (l.take i) =
      (P.memAt (MemPoint.start pcRst m₀) i).toPoint := by
  have key : ∀ q, (onProgram n k C S seg pcRst u w z pay m₀ P).Reach q →
      (∀ i ≤ q.2.length, P.PlainAt (MemPoint.start pcRst m₀) i) →
        ∀ i ≤ q.2.length, (MemPoint.start pcRst m₀).toPoint.run (q.2.take i) =
          (P.memAt (MemPoint.start pcRst m₀) i).toPoint := by
    intro q hq
    induction hq with
    | reset =>
        intro _ i hi
        obtain rfl : i = 0 := Nat.le_zero.1 hi
        rfl
    | @tick q x hq hx ih =>
        obtain ⟨⟨s, h⟩, l⟩ := q
        intro hpl i hi
        change i ≤ (l ++ Core.events C s.core h (s.coreIn x)).length at hi
        have hle : l.length ≤ (l ++ Core.events C s.core h (s.coreIn x)).length := by simp
        have hpl' : ∀ i ≤ l.length, P.PlainAt (MemPoint.start pcRst m₀) i :=
          fun i hi => hpl i (le_trans hi hle)
        rcases Nat.lt_or_ge l.length i with hlt | hge
        · -- behind an instruction of this cycle
          obtain ⟨t, hA⟩ := along_of_reach hP hS hq hpl'
          obtain ⟨j, rfl⟩ := Nat.exists_eq_add_of_lt hlt
          have hcalm := hA.calm rfl hP hq (hpl' l.length le_rfl)
          have hfl : s.core.flush C (s.coreIn x) = false := by
            by_contra hne
            have hf := Bool.eq_true_of_not_eq_false hne
            have hse : s.core.be.cmt.seFls = true :=
              (hcalm.flush (s.core.cmtIn C (s.coreIn x))).symm.trans hf
            rw [Core.events, hf, hse, if_pos rfl, if_pos rfl, List.append_nil] at hi
            omega
          have hpop : j + 1 ≤ s.side.popSize C.D (s.sideIn x) := by
            rw [Core.events_of_move hfl, List.length_append, List.length_map,
              List.length_range] at hi
            change l.length + j + 1 ≤ l.length + s.side.popSize C.D (s.sideIn x) at hi
            omega
          exact hA.points rfl hP hq (hpl' l.length le_rfl) hx hfl hS hpop
        · change (MemPoint.start pcRst m₀).toPoint.run
            ((l ++ Core.events C s.core h (s.coreIn x)).take i) = _
          rw [List.take_append_of_le_length hge]
          exact ih hpl' i hge
  exact key _ hr hpl

/-- The emulator executes what commits. -/
theorem followed_of_reach {ι : Type} {A : Setup ι} {c₀ : StepCpu ι} (hP : 1 ≤ C.P) (hS : S ≤ 7)
    (hr : (onProgram n k C S seg pcRst u w z pay m₀ P).Reach ((s, h), l))
    (hc : c₀.Shows (MemPoint.start pcRst m₀))
    (hpl : ∀ i ≤ l.length, ∀ c, c₀.after A true i = some c → c.Plain A true P) :
    Difftest.Followed A P c₀ l := by
  obtain ⟨hem, hplain⟩ := StepCpu.after_memAt (N := l.length + 1) hc fun i hi => hpl i (by omega)
  obtain ⟨t, hA⟩ := along_of_reach hP hS hr fun i hi => hplain i (by omega)
  have hpts := points_of_reach hP hS hr fun i hi => hplain i (by omega)
  have hpath := Core.path_of_reach hP
    (Core.running_of_onProgram (parts_of_onProgram hP hr).1 List.prefix_rfl)
  intro i e he
  have hlt := (List.getElem?_eq_some_iff.1 he).1
  obtain ⟨ans, rfl⟩ := hA.commits i e he
  refine ⟨⟨_, _, rfl⟩, fun c hca => ?_⟩
  obtain ⟨c', hca', hsh⟩ := hem i (by omega)
  obtain rfl := Option.some.inj (hca'.symm.trans hca)
  obtain ⟨r, hstep, hex, hins, hal, hbase, op, hop, hpo⟩ := hpl i hlt.le c' hca
  refine ⟨⟨r, hstep, hex, hins, fun hm hwe => ?_, hbase, hal⟩, fun hc => ?_⟩
  · -- the emulator goes on behind the instruction
    obtain ⟨c₁, hc₁, hsh₁⟩ := hem (i + 1) (by omega)
    rw [StepCpu.after, hca, Option.bind_some, StepCpu.runStep, hstep, Option.map_some] at hc₁
    have hregs : r.cpu.getReg = (P.memAt (MemPoint.start pcRst m₀) (i + 1)).regs :=
      (congrArg (fun c : StepCpu ι => c.getReg) (Option.some.inj hc₁)).trans hsh₁.regs
    obtain ⟨hget, htake⟩ := hpath.follows.getElem hlt
    have hpt := hpts (i + 1) hlt
    rw [htake, Point.run_snoc, ← Option.some.inj (he.symm.trans hget)] at hpt
    have hreg := congrArg Point.regs hpt
    rw [hregs, ← show _ = (P.memAt (MemPoint.start pcRst m₀) (i + 1)).regs from hreg]
    change ans = (P.insnAt _ i).step _ ans (P.insnAt _ i).lrd
    rw [DecInsn.step, hwe, if_pos rfl, Function.update_self, DecInsn.result, hm, if_pos rfl]
  · have hrm : Op.ofCode (opcode (P (c'.pc.extractLsb' 2 30))) = some .rmsr := by
      rw [hc]
      decide
    rw [Option.some.inj (hop.symm.trans hrm)] at hpo
    cases hpo

end DataCore

namespace Ncpu64k

variable {ι : Type} {A : Setup ι} {n j k : ℕ} [NeZero n] [NeZero j] [NeZero k]
  {C : CoreCfg} {S S' : ℕ}
  {segI segD : Bool} {pcRst : Pc} {u : Bpu} {w : IqWord} {z : RInsn} {tagV : Fin j → ℕ → ℕ × Bool}
  {ipay : Fin j → ℕ × ℕ → ℕ → Byte} {dpay : Fin k → ℕ × ℕ → ℕ → Byte} {m₀ : ℕ → Byte}
    {z' : Difftest} {dp₀ : Dpi ι}
  {s : Ncpu64k n j k} {h : CoreLog} {t : FetchTags} {l : List Event} {d : Difftest}
    {o : Outcome (Dpi ι)}

/-- The chip with its memories, the monitor, and the checker, which gets in every cycle what the
monitor shows. -/
def cosim (A : Setup ι) (n j k : ℕ) [NeZero n] [NeZero j] [NeZero k] (C : CoreCfg) (S S' : ℕ)
    (segI segD : Bool)
    (pcRst : Pc) (u : Bpu) (w : IqWord) (z : RInsn) (tagV : Fin j → ℕ → ℕ × Bool)
    (ipay : Fin j → ℕ × ℕ → ℕ → Byte)
    (dpay : Fin k → ℕ × ℕ → ℕ → Byte) (m₀ : ℕ → Byte) (z' : Difftest) (dp₀ : Dpi ι) :
    Machine ((((Ncpu64k n j k × CoreLog × FetchTags) × List Event) × Difftest) × Outcome (Dpi ι))
      (Ncpu64kIn j k × Bundle) where
  reset :=
    (((machine n j k C S S' segI segD pcRst u w z tagV ipay dpay m₀).reset, Difftest.reset z'),
      .go dp₀)
  allowed q x := (machine n j k C S S' segI segD pcRst u w z tagV ipay dpay m₀).allowed q.1.1 x.1 ∧
    ∀ i : Fin 2, (x.2.ch i).map (Commit.report A.C) = q.1.2.report q.1.1.1.1.data.core i
  next q x := (((machine n j k C S S' segI segD pcRst u w z tagV ipay dpay m₀).next q.1.1 x.1,
    q.1.2.next C q.1.1.1.1.data.core (q.1.1.1.1.coreIn x.1)), q.2.bind fun dp => dp.dpicStep A x.2)

/-- The chip does what it does without the checker, and the core what it does on the program in
memory. -/
theorem parts_of_cosim (hP : C.P = 2) (hS : S ≤ 7) (hS' : S' ≤ 7)
    (hr : (cosim A n j k C S S' segI segD pcRst u w z tagV ipay dpay m₀ z' dp₀).Reach
      ((((s, h, t), l), d), o))
    (hpl : ∀ i ≤ l.length, (Program.ofMem m₀).PlainAt (MemPoint.start pcRst m₀) i) :
    (machine n j k C S S' segI segD pcRst u w z tagV ipay dpay m₀).Reach ((s, h, t), l) ∧
      (Difftest.cosim A n C pcRst u w z z' (Program.ofMem m₀) dp₀).Reach
      ((((s.data.core, h), l), d), o) := by
  have key : ∀ q, (cosim A n j k C S S' segI segD pcRst u w z tagV ipay dpay m₀ z' dp₀).Reach q →
      (∀ i ≤ q.1.1.2.length, (Program.ofMem m₀).PlainAt (MemPoint.start pcRst m₀) i) →
        (machine n j k C S S' segI segD pcRst u w z tagV ipay dpay m₀).Reach q.1.1 ∧
          (Difftest.cosim A n C pcRst u w z z' (Program.ofMem m₀) dp₀).Reach
            ((((q.1.1.1.1.data.core, q.1.1.1.2.1), q.1.1.2), q.1.2), q.2) := by
    intro q hq
    induction hq with
    | reset => exact fun _ => ⟨Machine.Reach.reset, Machine.Reach.reset⟩
    | @tick q x _ hx ih =>
        intro hpl
        obtain ⟨⟨⟨⟨s, h, t⟩, l⟩, d⟩, o⟩ := q
        have hle : l.length ≤ (l ++ Core.events C s.data.core h (s.coreIn x.1)).length := by simp
        have hpl' : ∀ i ≤ l.length, (Program.ofMem m₀).PlainAt (MemPoint.start pcRst m₀) i :=
          fun i hi => hpl i (le_trans hi hle)
        obtain ⟨hm, hc⟩ := ih hpl'
        obtain ⟨-, -, ht⟩ := data_of_reach hP hS hS' hm hpl'
        exact ⟨Machine.Reach.tick hm hx.1,
          Machine.Reach.tick (x := (s.coreIn x.1, x.2)) hc
            ⟨⟨trivial, fetched hP hS hm ht x.1⟩, hx.2⟩⟩
  exact key _ hr hpl

/-- **The co-simulation of the chip raises no alarm.**  The emulator of the checker starts with the
bytes that are in the memories of the chip, with translation and the caches off.  As long as it
executes plain instructions that nobody has written over since, the checker finds no mismatch and
the emulator does not stop, whatever the timing of the two buses: unless the watchdog has ended the
simulation, the checker has executed the instructions that have been reported, and both register
files agree. -/
theorem raises_no_alarm (hK : A.K.KeepsRegs) (hP : C.P = 2) (hS : S ≤ 7) (hS' : S' ≤ 7)
    (hr : (cosim A n j k C S S' segI segD pcRst u w z tagV ipay dpay m₀ z' dp₀).Reach
      ((((s, h, t), l), d), o))
    (hc : dp₀.emu.Shows (MemPoint.start pcRst m₀)) (hz : ∀ i, dp₀.rtlRegfile i = 0)
    (hpl : ∀ i ≤ l.length, ∀ c, dp₀.emu.after A true i = some c →
      c.Plain A true (Program.ofMem m₀)) :
    o = .timeout ∨ ∃ dp, o = .go dp ∧ dp.RegsAgree ∧
      dp₀.emu.after A true (l.length - (d.reports s.data.core).length) = some dp.emu := by
  obtain ⟨-, hplain⟩ := StepCpu.after_memAt (N := l.length + 1) hc fun i hi => hpl i (by omega)
  obtain ⟨hm, hco⟩ := parts_of_cosim hP hS hS' hr fun i hi => hplain i (by omega)
  obtain ⟨hd, -⟩ := data_of_reach hP hS hS' hm fun i hi => hplain i (by omega)
  have hF := DataCore.followed_of_reach (by omega) hS' hd hc hpl
  have hregs : ∀ i, dp₀.emu.getReg i = 0 := fun i => congrFun hc.regs i
  exact Difftest.checked_of_reach hK (by omega) hco hc.pc (fun i => ⟨hregs i, hz i⟩) hF

/-! ### A load, a store and a branch -/

/-- The program `mixed` in the memory of the chip. -/
def mixedMem (a : ℕ) : Byte := Core.mixed.bytes 0x11223344 (BitVec.ofNat 32 a)

/-- The chip with the program in its memory, and the emulator with the same bytes in its own. -/
def checking :
    Machine ((((Ncpu64k 4 cacheWays cacheWays × CoreLog × FetchTags) × List Event) × Difftest) ×
      Outcome (Dpi Unit)) (Ncpu64kIn cacheWays cacheWays × Bundle) :=
  cosim Dpi.plainSetup 4 cacheWays cacheWays chip 0 0 false false 0xc000000 Frontend.bpuRst
    Frontend.emptyWord
    emptyInsn (fun _ _ => (0, false)) (fun _ _ _ => 0) (fun _ _ _ => 0) mixedMem Difftest.unknown
    ⟨Core.mixedStart, fun _ => 0, 0⟩

/-- The commits of a cycle. -/
def shown (q : (((Ncpu64k 4 cacheWays cacheWays × CoreLog × FetchTags) × List Event) × Difftest) ×
    Outcome (Dpi Unit)) : Bundle :=
  ⟨0, 0, fun i => (q.1.2.report q.1.1.1.1.data.core i).bind Difftest.instrCommit⟩

def checked :
    ℕ → (((Ncpu64k 4 cacheWays cacheWays × CoreLog × FetchTags) × List Event) × Difftest) ×
      Outcome (Dpi Unit)
  | 0 => checking.reset
  | k + 1 => checking.next (checked k) (promptIn (checked k).1.1.1.1, shown (checked k))

theorem reach_checked {k : ℕ} (h : ∀ j < k, ∀ i : Fin 2,
    ((checked j).1.2.report (checked j).1.1.1.1.data.core i).all Difftest.instrReport = true) :
    checking.Reach (checked k) := by
  induction k with
  | zero => exact Machine.Reach.reset
  | succ k ih =>
      exact Machine.Reach.tick (ih fun j hj => h j (by omega))
        ⟨⟨AxiMem.answers_prompt _, AxiMem.answers_prompt _⟩,
          fun i => Difftest.map_instrCommit (A := Dpi.plainSetup) (h k (Nat.lt_succ_self k) i)⟩

theorem shows_mixed : Core.mixedStart.Shows (MemPoint.start 0xc000000 mixedMem) where
  regs := funext (by decide)
  pc := rfl
  mem := by
    funext v
    change Core.mixed.bytes 0x11223344 v = Core.mixed.bytes 0x11223344 (BitVec.ofNat 32 v.toNat)
    rw [BitVec.ofNat_toNat, BitVec.setWidth_eq]
  dmme := rfl
  dce := rfl

/-- After 48 cycles the checker has got the reports of the load, of the instruction that takes its
value, of the store and of the branch. -/
theorem checked_mixed :
    (∀ j < 48, ∀ i : Fin 2,
      ((checked j).1.2.report (checked j).1.1.1.1.data.core i).all Difftest.instrReport = true) ∧
    (checked 48).1.1.2.length = 4 ∧
    ((checked 48).1.2.reports (checked 48).1.1.1.1.data.core).length = 0 := by
  decide +kernel

/-- It finds nothing. -/
theorem raises_no_alarm_mixed :
    (checked 48).2 = .timeout ∨ ∃ dp, (checked 48).2 = .go dp ∧ dp.RegsAgree ∧
      Core.mixedStart.after Dpi.plainSetup true 4 = some dp.emu := by
  obtain ⟨hin, hl, hd⟩ := checked_mixed
  have hr : checking.Reach (checked 48) := reach_checked hin
  have hpl : ∀ i ≤ 4, ∀ c ∈ Core.mixedStart.after Dpi.plainSetup true i,
      c.Plain Dpi.plainSetup true (Program.ofMem mixedMem) := by
    decide +kernel
  clear hin
  revert hr hl hd
  generalize checked 48 = q
  obtain ⟨⟨⟨⟨s, h, t⟩, l⟩, d⟩, o⟩ := q
  intro hl hd hr
  have hl' : l.length = 4 := hl
  have hd' : (d.reports s.data.core).length = 0 := hd
  have key := raises_no_alarm ⟨fun _ _ => rfl, fun _ _ => rfl, fun _ _ => rfl⟩ rfl (Nat.zero_le 7)
    (Nat.zero_le 7) hr shows_mixed (fun _ => rfl) fun i hi c hc => hpl i (hl' ▸ hi) c hc
  rwa [hl', hd'] at key

end Ncpu64k

end NanoCpu
