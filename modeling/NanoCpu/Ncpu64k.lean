/-
**The core with both caches** (`rtl/core/ncpu64k.v`, against `CPU::step` of `em/csrc/cpu.cc`).

Here the core stands between its two buses: the I-cache fetches from one memory, the D-cache loads
from and stores to the other, and both memories held the same bytes at reset.  What the core
executes is then what its own memory holds, and nothing is left of its surroundings but the timing
of the buses, the MSRs of other units and what the predictor and the RAMs hold at reset.

Main definitions:

* `Ncpu64k`, `Ncpu64k.next` — the core with the caches and the memories;
* `Program.ofMem` — the program that a memory holds;
* `Ncpu64k.machine` — the machine with its observers.

Main results:

* `Ncpu64k.data_of_reach` — the caches fetch the program that the memory held at reset;
* `Ncpu64k.runs_as_emulator` — **the core runs the program in its memory as the emulator does**.
-/

import NanoCpu.FetchSide
import NanoCpu.MemCore

set_option relaxedAutoImplicit false
set_option autoImplicit false
set_option linter.unusedSectionVars false

namespace NanoCpu

open Em

/-- The program that a memory holds. -/
def Program.ofMem (m₀ : ℕ → Byte) : Program :=
  fun pc => Em.phyReadm32 (fun v => m₀ v.toNat) (Epu.pcWord pc)

/-- The core with its data side, and the I-cache with the memory behind it. -/
structure Ncpu64k (n j k : ℕ) where
  data : DataCore n k
  ic : Icache j
  imem : AxiMem

/-- The inputs of one cycle: the MSRs of other units, the two buses, and what the payload RAMs show
after a write. -/
structure Ncpu64kIn (j k : ℕ) where
  rd : MsrRd
  ibus : AxiIn
  iunc : Fin j → ℕ → Byte
  dbus : AxiIn
  dunc : Fin k → ℕ → Byte

namespace Ncpu64k

variable {n j k : ℕ} [NeZero n] [NeZero j] [NeZero k]

section Step

variable (C : CoreCfg) (S S' : ℕ) (segI segD : Bool) (s : Ncpu64k n j k) (x : Ncpu64kIn j k)

/-- The front-end with the I-cache. -/
def fetch : FetchSide j := ⟨s.data.core.fe, s.ic, s.imem⟩

/-- What the core with its data side sees. -/
def dataIn : DataCoreIn k := ⟨s.ic.stallReq, s.fetch.ins, s.ic.icinvReady, x.rd, x.dbus, x.dunc⟩

def coreIn : CoreIn := s.data.coreIn (s.dataIn x)

def cmtIn : CmtIn := s.data.core.cmtIn C (s.coreIn x)

/-- What the front-end with the I-cache sees. -/
def fetchIn : FetchSideIn j :=
  let f := s.data.core.feIn C (s.coreIn x)
  { flush := f.flush
    flushTgt := f.flushTgt
    idCe := f.idCe
    imme := f.imme
    rm := f.rm
    ice := f.ice
    tlbl := f.tlbl
    tlbh := f.tlbh
    bpuWb := f.bpuWb
    invWe := s.data.core.be.cmt.icinvWe (s.cmtIn C x)
    invLine := Dcache.setOf S (s.data.core.be.cmt.epuReqIn (s.cmtIn C x)).wdat.toNat
    axi := x.ibus
    unc := x.iunc }

def next : Ncpu64k n j k :=
  ⟨s.data.next C S' segD (s.dataIn x), s.ic.next S (s.fetch.icIn C.F C.b segI (s.fetchIn C S x)),
    s.imem.next s.ic.axiOut x.ibus⟩

end Step

variable {C : CoreCfg} {S S' : ℕ} {segI segD : Bool} {s : Ncpu64k n j k} {x : Ncpu64kIn j k}

/-- The fetch window is of four instructions. -/
theorem fetch_next (hP : C.P = 2) :
    (s.next C S S' segI segD x).fetch = s.fetch.next C.F C.p C.b S segI (s.fetchIn C S x) := by
  have hfe : (s.next C S S' segI segD x).data.core.fe =
      s.data.core.fe.next C.P C.F C.p C.b (s.data.core.feIn C (s.coreIn x)) := rfl
  rw [fetch, hfe, hP]
  rfl

/-- A word that was looked up without translation is the one at its PC. -/
theorem fetched_plain {F : ℕ → Byte} {g : FetchTag} {v : IqWord} (hg : g.imme = false)
    (hv : FetchSide.Fetched F g v) (hm : v.eitm = false) (hf : v.eipf = false) :
    v.ins = Program.ofMem F v.pc := by
  have hppn : (g.answer v.pc).ppn = pageOf (Epu.pcWord v.pc) := by
    rw [FetchTag.answer, hg]
    rfl
  rw [hv.ins hm hf, hppn, pcPaddr, addr_page]
  rfl

/-! ### Every run -/

/-- The core with its caches in front of two correct memories, with the log, the tags of the fetches
and what commit has done. -/
def machine (n j k : ℕ) [NeZero n] [NeZero j] [NeZero k] (C : CoreCfg) (S S' : ℕ) (segI segD : Bool)
    (pcRst : Pc)
    (u : Bpu) (w : IqWord) (z : RInsn) (tagV : Fin j → ℕ → ℕ × Bool)
    (ipay : Fin j → ℕ × ℕ → ℕ → Byte) (dpay : Fin k → ℕ × ℕ → ℕ → Byte) (m₀ : ℕ → Byte) :
    Machine ((Ncpu64k n j k × CoreLog × FetchTags) × List Event) (Ncpu64kIn j k) where
  reset := ((⟨⟨Core.reset n pcRst u w z, Dcache.reset dpay, AxiMem.idle m₀⟩, Icache.reset tagV ipay,
    AxiMem.idle m₀⟩, (Core.observed n C pcRst u w z).reset.2,
    ⟨FetchSide.noTag, FetchSide.noTag, fun _ => FetchSide.noTag, ⟨none, none⟩⟩), [])
  allowed q x := q.1.1.imem.Answers x.ibus ∧ q.1.1.data.mem.Answers x.dbus
  next q x :=
    ((q.1.1.next C S S' segI segD x, Core.logNext C q.1.2.1 q.1.1.data.core (q.1.1.coreIn x),
    q.1.1.fetch.tagsNext C.F C.b segI (q.1.1.fetchIn C S x) q.1.2.2 q.1.2.1.log),
    q.2 ++ Core.events C q.1.1.data.core q.1.2.1 (q.1.1.coreIn x))

section Runs

variable {pcRst : Pc} {u : Bpu} {w : IqWord} {z : RInsn} {tagV : Fin j → ℕ → ℕ × Bool}
  {ipay : Fin j → ℕ × ℕ → ℕ → Byte} {dpay : Fin k → ℕ × ℕ → ℕ → Byte} {m₀ : ℕ → Byte} {h : CoreLog}
  {t : FetchTags} {l : List Event}

/-- The front-end and the I-cache do what they do alone. -/
theorem fetch_of_reach (hP : C.P = 2)
    (hr : (machine n j k C S S' segI segD pcRst u w z tagV ipay dpay m₀).Reach ((s, h, t), l)) :
    (FetchSide.logged j C.F C.p C.b S segI pcRst u w FetchSide.noTag tagV ipay m₀).Reach
    (s.fetch, h.log, t) := by
  refine Machine.Reach.map (M := machine n j k C S S' segI segD pcRst u w z tagV ipay dpay m₀)
    (fun q => (q.1.1.fetch, q.1.2.1.log, q.1.2.2)) (fun q x => q.1.1.fetchIn C S x) rfl
    (fun q x _ _ hx => hx.1) (fun q x _ => ?_) hr
  refine Prod.ext (fetch_next hP) (Prod.ext ?_ rfl)
  change FetchLog.next C.P C.F _ _ _ = FetchLog.next 2 C.F _ _ _
  rw [hP]
  rfl

/-- What is pushed is the program in memory, if it was looked up without translation. -/
theorem fetched (hP : C.P = 2) (hS : S ≤ 7)
    (hr : (machine n j k C S S' segI segD pcRst u w z tagV ipay dpay m₀).Reach ((s, h, t), l))
    (ht : t.s2.imme = false) (x : Ncpu64kIn j k) :
    Core.Fetched (Program.ofMem m₀) C s.data.core (s.coreIn x) := by
  have hinv := FetchSide.inv_of_reach hS (fetch_of_reach hP hr)
  intro i hi
  change i < s.data.core.fe.iqPushCnt C.P C.F (s.fetch.feIn (s.fetchIn C S x)) at hi
  rw [hP] at hi
  intro v hm hf
  have hv : v = (s.fetch.fe.bufIn 2 C.F (s.fetch.feIn (s.fetchIn C S x))).iq
      (i + s.fetch.fe.s2oPushOffset) := by
    rw [← hP]
    rfl
  have hw := hinv.pushed hi
  rw [← hv] at hw
  exact fetched_plain ht hw hm hf

/-- **The core with its data side runs on the program that its memory held at reset**, as long as
this is one of plain instructions. -/
theorem data_of_reach (hP : C.P = 2) (hS : S ≤ 7) (hS' : S' ≤ 7)
    (hr : (machine n j k C S S' segI segD pcRst u w z tagV ipay dpay m₀).Reach ((s, h, t), l))
    (hpl : ∀ i ≤ l.length, (Program.ofMem m₀).PlainAt (MemPoint.start pcRst m₀) i) :
    (DataCore.onProgram n k C S' segD pcRst u w z dpay m₀ (Program.ofMem m₀)).Reach
      ((s.data, h), l) ∧ t.s1.imme = false ∧ t.s2.imme = false := by
  have hP1 : 1 ≤ C.P := by omega
  have key : ∀ q, (machine n j k C S S' segI segD pcRst u w z tagV ipay dpay m₀).Reach q →
      (∀ i ≤ q.2.length, (Program.ofMem m₀).PlainAt (MemPoint.start pcRst m₀) i) →
        (DataCore.onProgram n k C S' segD pcRst u w z dpay m₀ (Program.ofMem m₀)).Reach
          ((q.1.1.data, q.1.2.1), q.2) ∧ q.1.2.2.s1.imme = false ∧ q.1.2.2.s2.imme = false := by
    intro q hq
    induction hq with
    | reset => exact fun _ => ⟨Machine.Reach.reset, rfl, rfl⟩
    | @tick q x hq hx ih =>
        intro hpl
        obtain ⟨⟨s, h, t⟩, l⟩ := q
        have hle : l.length ≤ (l ++ Core.events C s.data.core h (s.coreIn x)).length := by simp
        obtain ⟨hd, h₁, h₂⟩ := ih fun i hi => hpl i (le_trans hi hle)
        obtain ⟨g, hA⟩ := DataCore.along_of_reach hP1 hS' hd fun i hi => hpl i (le_trans hi hle)
        -- translation is off in this cycle, too
        have hpsr : s.data.core.psr C (s.coreIn x) = Psr.reset :=
          ((hA.calm rfl hP1 hd (hpl l.length hle)).psrNext (s.cmtIn C x)).trans hA.off.psr
        have himme : (s.fetchIn C S x).imme = false := congrArg Psr.imme hpsr
        refine ⟨Machine.Reach.tick (x := s.dataIn x) hd ⟨hx.2, fetched hP hS hq h₂ x⟩, ?_, ?_⟩
        · change (ldff (s.fetch.fe.pCe 2 C.F _) (⟨_, (s.fetchIn C S x).imme, _⟩ : FetchTag)
            t.s1).imme = false
          rw [himme]
          cases s.fetch.fe.pCe 2 C.F (s.fetch.feIn (s.fetchIn C S x))
          · exact h₁
          · rfl
        · change (ldff (s.fetch.fe.pCe 2 C.F _) t.s1 t.s2).imme = false
          cases s.fetch.fe.pCe 2 C.F (s.fetch.feIn (s.fetchIn C S x))
          · exact h₂
          · exact h₁
  exact key _ hr hpl

theorem along_of_reach (hP : C.P = 2) (hS : S ≤ 7) (hS' : S' ≤ 7)
    (hr : (machine n j k C S S' segI segD pcRst u w z tagV ipay dpay m₀).Reach ((s, h, t), l))
    (hpl : ∀ i ≤ l.length, (Program.ofMem m₀).PlainAt (MemPoint.start pcRst m₀) i) :
    (DataCore.onProgram n k C S' segD pcRst u w z dpay m₀ (Program.ofMem m₀)).Reach
      ((s.data, h), l) ∧
      ∃ g, s.data.Along C S' segD dpay (MemPoint.start pcRst m₀) m₀ (Program.ofMem m₀) h l g := by
  obtain ⟨hd, -⟩ := data_of_reach hP hS hS' hr hpl
  exact ⟨hd, DataCore.along_of_reach (by omega) hS' hd hpl⟩

/-- **The core runs the program in its memory as the emulator does.**  Both start with the same
bytes in memory, with translation and the caches off.  As long as the emulator executes plain
instructions that nobody has written over since, every run of the core commits the instructions that
the emulator executes, whatever the timing of the two buses; then both have the same registers, go
on at the same address, and between two accesses have the same bytes. -/
theorem runs_as_emulator {ι : Type} {A : Setup ι} {b : Bool} {c₀ : StepCpu ι} (hP : C.P = 2)
    (hS : S ≤ 7)
    (hS' : S' ≤ 7) (hr : (machine n j k C S S' segI segD pcRst u w z tagV ipay dpay m₀).Reach
      ((s, h, t), l)) (hc : c₀.Shows (MemPoint.start pcRst m₀))
    (hpl : ∀ i ≤ l.length, ∀ c, c₀.after A b i = some c → c.Plain A b (Program.ofMem m₀)) :
    (∃ c, c₀.after A b l.length = some c ∧ c.getReg = s.data.core.be.archRegs ∧
      c.pc = Epu.pcWord (s.data.core.goesOn h) ∧
        (s.data.core.be.cmt.lsu.s2Valid = false → ∀ v : Word, c.mem v = s.data.mem.mem v.toNat)) ∧
      ∀ i e, l[i]? = some e → ∃ c ans, c₀.after A b i = some c ∧
        e = .commit ((Program.ofMem m₀).insn (c.pc.extractLsb' 2 30)) ans := by
  obtain ⟨hem, hplain⟩ := StepCpu.after_memAt (N := l.length + 1) hc fun i hi => hpl i (by omega)
  obtain ⟨hd, g, hA⟩ := along_of_reach hP hS hS' hr fun i hi => hplain i (by omega)
  exact hA.as_emulator (by omega) hd hS' fun i hi => hem i (by omega)

end Runs

/-! ### Loads from the same memory -/

/-- A cycle in which both memories answer at once. -/
def promptIn (s : Ncpu64k 4 cacheWays cacheWays) : Ncpu64kIn cacheWays cacheWays where
  rd := ⟨0, 0, 0, 0, 0, 0, 0, 0, 0⟩
  ibus := AxiIn.prompt s.imem
  iunc := fun _ _ => 0
  dbus := AxiIn.prompt s.data.mem
  dunc := fun _ _ => 0

/-- The chip with the loads in its memory. -/
def loading : Machine ((Ncpu64k 4 cacheWays cacheWays × CoreLog × FetchTags) × List Event)
    (Ncpu64kIn cacheWays cacheWays) :=
  machine 4 cacheWays cacheWays chip 0 0 false false 0xc000000 Frontend.bpuRst Frontend.emptyWord
    emptyInsn (fun _ _ => (0, false)) (fun _ _ _ => 0) (fun _ _ _ => 0) DataCore.loadMem

def loaded : ℕ → (Ncpu64k 4 cacheWays cacheWays × CoreLog × FetchTags) × List Event
  | 0 => loading.reset
  | i + 1 => loading.next (loaded i) (promptIn (loaded i).1.1)

theorem reach_loaded (i : ℕ) : loading.Reach (loaded i) := by
  induction i with
  | zero => exact Machine.Reach.reset
  | succ i ih =>
      exact Machine.Reach.tick (x := promptIn (loaded i).1.1) ih
        ⟨AxiMem.answers_prompt _, AxiMem.answers_prompt _⟩

/-- The emulator executes two loads of its memory. -/
theorem plain_loader {c : StepCpu Unit}
    (hc : c = DataCore.loader ∨ DataCore.loader.after Dpi.plainSetup false 1 = some c) :
    c.Plain Dpi.plainSetup false (Program.ofMem DataCore.loadMem) := by
  have hpc : Program.ofMem DataCore.loadMem (c.pc.extractLsb' 2 30) =
      DataCore.loads (c.pc.extractLsb' 2 30) := by
    rcases hc with rfl | hc
    · decide +kernel
    · have h4 : (DataCore.loader.after Dpi.plainSetup false 1).map (·.pc) = some 0x30000004 := by
        decide +kernel
      rw [hc] at h4
      rw [show c.pc = 0x30000004 from Option.some.inj h4]
      decide +kernel
  have hp := DataCore.plain_loader hc
  rw [StepCpu.Plain] at hp ⊢
  rwa [hpc]

/-- After 28 cycles the first load has been fetched and has committed, and the register holds the
byte. -/
theorem runs_as_emulator_loaded :
    ∃ c, DataCore.loader.after Dpi.plainSetup false 1 = some c ∧
      c.getReg = (loaded 28).1.1.data.core.be.archRegs ∧
      (loaded 28).1.1.data.core.be.archRegs 1 = 5 := by
  have hr := reach_loaded 28
  have hl : (loaded 28).2.length = 1 := by decide +kernel
  have h5 : (loaded 28).1.1.data.core.be.archRegs 1 = 5 := by decide +kernel
  generalize loaded 28 = q at hr hl h5 ⊢
  obtain ⟨⟨s, h, t⟩, l⟩ := q
  have hl' : l.length = 1 := hl
  have hplain : ∀ i ≤ l.length, ∀ c, DataCore.loader.after Dpi.plainSetup false i = some c →
      c.Plain Dpi.plainSetup false (Program.ofMem DataCore.loadMem) := by
    intro i hi c hc
    refine plain_loader ?_
    obtain rfl | rfl : i = 0 ∨ i = 1 := by omega
    · exact Or.inl (Option.some.inj hc).symm
    · exact Or.inr hc
  obtain ⟨c, hc, hregs, -⟩ :=
    (runs_as_emulator rfl (Nat.zero_le 7) (Nat.zero_le 7) hr DataCore.shows_loader hplain).1
  rw [hl'] at hc
  exact ⟨c, hc, hregs, h5⟩

end Ncpu64k

end NanoCpu
