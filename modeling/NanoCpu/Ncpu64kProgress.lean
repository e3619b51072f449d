/-
**The core between its two buses never hangs** (`rtl/core/ncpu64k.v`).

The caches come back from whatever they do, if the memories are fair (`StallEnds`), and then the
core goes on (`CoreProgress`).  What has to be looked at is where the three wait for one another:
commit waits for the I-cache when it asks it to invalidate a set, and the I-cache answers a cycle
later, while the D-cache has nothing to do.

Together with what the core does in every run (`Ncpu64k`) this is total correctness: the core
executes the program in its memory as the emulator does, and gets to every instruction that the
emulator gets to.

Main results:

* `Ncpu64k.never_hangs` — **the core commits or raises an exception again and again**, unless a
  barrier stands in the way;
* `Ncpu64k.executes_as_emulator` — **every instruction that the emulator executes is executed in the
  end**.
-/

import NanoCpu.CoreProgress
import NanoCpu.Ncpu64k
import NanoCpu.StallEnds

set_option relaxedAutoImplicit false
set_option autoImplicit false
set_option linter.unusedSectionVars false

open Filter

namespace NanoCpu

open Em

/-! ### Programs without a barrier -/

/-- A barrier is no plain instruction. -/
theorem Program.not_barr {P : Program} {pc : Pc} {regs : LReg → Word}
    (hp : (P.insn pc).Plain regs) : (P.insn pc).lsu.barr = false := by
  have key : ∀ op : BitVec 7, (opcDec op).lsu.barr = true →
      ((opcDec op).lsu.load || (opcDec op).lsu.store) = false := by decide
  by_contra hne
  rw [Bool.not_eq_false] at hne
  have hno := key _ hne
  have hany : (P.insn pc).lsu.any = true := by simp [LsuOpc.any, hne]
  rw [hp.mem] at hany
  exact absurd (hno.symm.trans hany) Bool.false_ne_true

/-- A core on a program of plain instructions does not meet a barrier. -/
theorem DataCore.Along.not_halted {n k : ℕ} [NeZero n] [NeZero k] {C : CoreCfg} {S : ℕ} {seg : Bool}
    {pcRst : Pc}
    {u : Bpu} {w : IqWord} {z : RInsn} {pay : Fin k → ℕ × ℕ → ℕ → Byte} {m₀ : ℕ → Byte}
    {P : Program} {s : DataCore n k} {h : CoreLog} {l : List Event} {t : LsuHist} (hP : 1 ≤ C.P)
    (hr : (onProgram n k C S seg pcRst u w z pay m₀ P).Reach ((s, h), l))
    (hA : s.Along C S seg pay (MemPoint.start pcRst m₀) m₀ P h l t)
    (hpl : P.PlainAt (MemPoint.start pcRst m₀) l.length) : ¬ s.core.Halted h := by
  rintro ⟨⟨hlt, hb⟩, hse⟩
  obtain ⟨hc, -⟩ := parts_of_onProgram hP hr
  obtain ⟨hfront, -, hfe⟩ := Core.feeds_of_reach hP hc.of_observe
  have hpath := Core.path_of_reach hP (Core.running_of_onProgram hc List.prefix_rfl)
  have hplain := Core.head_plain (Frontend.fetches_of_reach hP hfront) hfe hpath hA.untranslated hse
    (by rw [Backend.nextNum]; omega)
  have hpt : (⟨pcRst, fun _ => 0⟩ : Point).run l =
      (P.memAt (MemPoint.start pcRst m₀) l.length).toPoint := hA.point
  rw [hpt] at hplain
  have hno := Program.not_barr hpl
  rw [show (P.insn (P.memAt (MemPoint.start pcRst m₀) l.length).pc) = _ from hplain.symm] at hno
  exact absurd (hno.symm.trans hb) Bool.false_ne_true

namespace Ncpu64k

variable {n j k : ℕ} [NeZero n] [NeZero j] [NeZero k] {C : CoreCfg} {S S' : ℕ} {segI segD : Bool}
  {s : Ncpu64k n j k}
  {x y : Ncpu64kIn j k} {pcRst : Pc} {u : Bpu} {w : IqWord} {z : RInsn}
    {tagV : Fin j → ℕ → ℕ × Bool}
  {ipay : Fin j → ℕ × ℕ → ℕ → Byte} {dpay : Fin k → ℕ × ℕ → ℕ → Byte} {m₀ : ℕ → Byte} {h : CoreLog}
  {t : FetchTags} {l : List Event}

/-! ### The parts -/

theorem core_of_reach (hr : (machine n j k C S S' segI segD pcRst u w z tagV ipay dpay m₀).Reach
    ((s, h, t), l)) : (Core.observed n C pcRst u w z).Reach (s.data.core, h) :=
  Machine.Reach.map (M := machine n j k C S S' segI segD pcRst u w z tagV ipay dpay m₀)
    (N := Core.observed n C pcRst u w z) (fun q => (q.1.1.data.core, q.1.2.1))
      (fun q x => q.1.1.coreIn x) rfl (fun _ _ _ _ _ => trivial) (fun _ _ _ => rfl) hr

theorem side_of_reach (hP : 1 ≤ C.P)
    (hr : (machine n j k C S S' segI segD pcRst u w z tagV ipay dpay m₀).Reach ((s, h, t), l)) :
    (DataSide.machine n k C.D S' segD z dpay m₀).Reach s.data.side :=
  Machine.Reach.map (M := machine n j k C S S' segI segD pcRst u w z tagV ipay dpay m₀)
    (N := DataSide.machine n k C.D S' segD z dpay m₀) (fun q => q.1.1.data.side)
    (fun q x => q.1.1.data.sideIn (q.1.1.dataIn x)) rfl
    (fun q x hq _ hx => ⟨(Core.feeds_of_reach hP (core_of_reach hq)).2.2.delivers
      (x := q.1.1.coreIn x), hx.2⟩)
    (fun _ _ _ => rfl) hr

/-! ### The handshake with the I-cache -/

/-- When the D-cache does not stall, commit moves, or it has just asked the I-cache to invalidate a
set and moves in the next cycle. -/
theorem pCeS1_or_next (hP : 1 ≤ C.P)
    (hr : (machine n j k C S S' segI segD pcRst u w z tagV ipay dpay m₀).Reach ((s, h, t), l))
    (hd : s.data.dc.stallReq = false) :
    s.data.core.be.cmt.pCeS1 (s.cmtIn C x) = true ∨
      (s.next C S S' segI segD x).data.core.be.cmt.pCeS1
      ((s.next C S S' segI segD x).cmtIn C y) = true := by
  have hpce : ∀ {r : Ncpu64k n j k} {v : Ncpu64kIn j k}, r.data.dc.stallReq = false →
      (r.data.core.be.cmt.icinvWe (r.cmtIn C v) = true → r.ic.icinvReady = true) →
        r.data.core.be.cmt.pCeS1 (r.cmtIn C v) = true := by
    intro r v hst hready
    have hst' : (r.cmtIn C v).dcStall = false := hst
    rw [Cmt.pCeS1, hst', Cmt.icinvStallReq]
    cases hwe : r.data.core.be.cmt.icinvWe (r.cmtIn C v) with
    | false => rfl
    | true =>
        have : (r.cmtIn C v).icinvReady = true := hready hwe
        rw [this]
        rfl
  by_cases hwe : s.data.core.be.cmt.icinvWe (s.cmtIn C x) = true
  · by_cases hic : s.ic.state = .idle
    · right
      -- nothing is at work, so the D-cache stays idle, and the I-cache has left its first state
      obtain ⟨-, htr, -⟩ := Core.feeds_of_reach hP (core_of_reach hr)
      have hi := (Backend.inv_of_reach htr).cmt
      have hpend : s.data.core.be.cmt.pending = false := by
        by_contra hne
        have hno := Cmt.epuReqValid_of_pending (x := s.cmtIn C x) (Bool.eq_true_of_not_eq_false hne)
        rw [Cmt.icinvWe, EpuReq.icInvWe,
          EpuReq.wmsr_of_not_valid (x := s.data.core.be.cmt.epuReqIn (s.cmtIn C x)) hno] at hwe
        cases hwe
      have hlink := DataSide.link_of_reach (side_of_reach hP hr)
      have hreq : s.data.dc.s1o.req = false := hlink.req.trans (hi.quiet hpend).s1Valid
      have hidle : s.data.dc.state = .idle := by simpa [Dcache.stallReq] using hd
      refine hpce ?_ fun _ => ?_
      · have hst : (s.next C S S' segI segD x).data.dc.state = .idle := by
          change s.data.dc.stateNxt S' _ = _
          rw [Dcache.stateNxt, hidle]
          simp [hreq]
        rw [Dcache.stallReq, hst]
        rfl
      · have hst : (s.next C S S' segI segD x).ic.state = .invalidate := by
          change s.ic.stateNxt S _ = _
          rw [Icache.stateNxt, hic]
          exact if_pos hwe
        rw [Icache.icinvReady, Icache.fsmIdle, hst]
        rfl
    · refine Or.inl (hpce hd fun _ => ?_)
      simp [Icache.icinvReady, Icache.fsmIdle, hic]
  · exact Or.inl (hpce hd fun h => absurd h hwe)

/-! ### Fair memories -/

section Runs

variable {q : (Ncpu64k n j k × CoreLog × FetchTags) × List Event} {xs : ℕ → Ncpu64kIn j k}

/-- Neither memory lets its cache wait for ever. -/
structure Fair (q : ℕ → Ncpu64k n j k) (xs : ℕ → Ncpu64kIn j k) : Prop where
  fetch : AxiMem.Fair (fun i => (q i).imem) (fun i => (q i).ic.axiOut) fun i => (xs i).ibus
  data : AxiMem.Fair (fun i => (q i).data.mem) (fun i => (q i).data.dc.axiOut) fun i => (xs i).dbus

variable (hq : (machine n j k C S S' segI segD pcRst u w z tagV ipay dpay m₀).Reach q)
  (hx : (machine n j k C S S' segI segD pcRst u w z tagV ipay dpay m₀).Runs q xs)
  (hf :
    Fair
      (fun i => ((machine n j k C S S' segI segD pcRst u w z tagV ipay dpay m₀).after q xs i).1.1)
        xs)

include hq hx hf

theorem ic_ready : ∃ᶠ i in atTop,
    ((machine n j k C S S' segI segD pcRst u w z tagV ipay dpay m₀).after q xs i).1.1.ic.stallReq =
      false := by
  set M := machine n j k C S S' segI segD pcRst u w z tagV ipay dpay m₀ with hM
  have hmap := fun i => Machine.after_map (M := M) (N := Icache.machine j S tagV ipay m₀)
      (s := q) (x := xs)
    (fun r => (r.1.1.ic, r.1.1.imem))
      (fun r v => r.1.1.fetch.icIn C.F C.b segI (r.1.1.fetchIn C S v)) (fun _ _ => rfl) i
  have hr : (Icache.machine j S tagV ipay m₀).Reach (q.1.1.ic, q.1.1.imem) :=
    Machine.Reach.map (M := M) (fun r => (r.1.1.ic, r.1.1.imem))
      (fun r v => r.1.1.fetch.icIn C.F C.b segI (r.1.1.fetchIn C S v)) rfl (fun _ _ _ _ hv => hv.1)
      (fun _ _ _ => rfl) hq
  have h := @Icache.leadsTo_ready _ _ _ _ _ _ _
    (fun i => (M.after q xs i).1.1.fetch.icIn C.F C.b segI
      ((M.after q xs i).1.1.fetchIn C S (xs i))) hr (fun i => ?_) ?_
  · simpa only [← hmap] using h.frequently
  · rw [← hmap]
    exact (hx i).1
  · simp only [← hmap]
    exact hf.fetch

theorem dc_ready : ∃ᶠ i in atTop,
    ((machine n j k C S S' segI segD pcRst u w z tagV ipay dpay m₀).after q xs
      i).1.1.data.dc.stallReq = false := by
  set M := machine n j k C S S' segI segD pcRst u w z tagV ipay dpay m₀ with hM
  have hmap := fun i => Machine.after_map (M := M) (N := Dcache.machine k S' dpay m₀)
      (s := q) (x := xs) (fun r => (r.1.1.data.dc, r.1.1.data.mem))
    (fun r v => r.1.1.data.side.dcIn C.D segD (r.1.1.data.sideIn (r.1.1.dataIn v)))
      (fun _ _ => rfl) i
  have hr : (Dcache.machine k S' dpay m₀).Reach (q.1.1.data.dc, q.1.1.data.mem) :=
    Machine.Reach.map (M := M) (fun r => (r.1.1.data.dc, r.1.1.data.mem))
      (fun r v => r.1.1.data.side.dcIn C.D segD (r.1.1.data.sideIn (r.1.1.dataIn v))) rfl
      (fun _ _ _ _ hv => hv.2) (fun _ _ _ => rfl) hq
  have h := @Dcache.leadsTo_ready _ _ _ _ _ _ (fun i =>
    (M.after q xs i).1.1.data.side.dcIn C.D segD
      ((M.after q xs i).1.1.data.sideIn ((M.after q xs i).1.1.dataIn (xs i))))
    hr (fun i => ?_) ?_
  · simpa only [← hmap] using h.frequently
  · rw [← hmap]
    exact (hx i).2
  · simp only [← hmap]
    exact hf.data

/-- Commit moves again and again. -/
theorem commit_moves (hP : 1 ≤ C.P) : ∃ᶠ i in atTop,
    let r := (machine n j k C S S' segI segD pcRst u w z tagV ipay dpay m₀).after q xs i
    r.1.1.data.core.be.cmt.pCeS1 (r.1.1.cmtIn C (xs i)) = true := by
  have hd := dc_ready hq hx hf
  set M := machine n j k C S S' segI segD pcRst u w z tagV ipay dpay m₀ with hM
  refine frequently_atTop.2 fun i => ?_
  obtain ⟨i', hi, hst⟩ := frequently_atTop.1 hd i
  rcases pCeS1_or_next (x := xs i') (y := xs (i' + 1)) hP (hq.after hx i') hst with hc | hc
  · exact ⟨i', hi, hc⟩
  · exact ⟨i' + 1, by omega, hc⟩

theorem happens (hP : 1 ≤ C.P) (hD : C.D ≤ 3) : ∃ᶠ i in atTop,
    let r := (machine n j k C S S' segI segD pcRst u w z tagV ipay dpay m₀).after q xs i
    r.1.1.data.core.be.Happens C.D r.1.2.1.trace (r.1.1.data.core.beIn (r.1.1.coreIn (xs i))) := by
  have hic := ic_ready hq hx hf
  have hce := commit_moves hq hx hf hP
  set M := machine n j k C S S' segI segD pcRst u w z tagV ipay dpay m₀ with hM
  have hmap := fun i => Machine.after_map (M := M) (N := Core.observed n C pcRst u w z)
      (s := q) (x := xs)
    (fun r => (r.1.1.data.core, r.1.2.1)) (fun r v => r.1.1.coreIn v) (fun _ _ => rfl) i
  have h := @Core.happens _ _ _ _ _ _ _ _ (fun i => (M.after q xs i).1.1.coreIn (xs i)) hP hD
    (core_of_reach hq) hic ?_
  · simpa only [← hmap] using h
  · simp only [← hmap]
    exact hce

omit hf hx hq in
theorem length_le_after {i i' : ℕ} (hi : i ≤ i') :
    ((machine n j k C S S' segI segD pcRst u w z tagV ipay dpay m₀).after q xs i).2.length ≤
      ((machine n j k C S S' segI segD pcRst u w z tagV ipay dpay m₀).after q xs i').2.length := by
  induction i', hi using Nat.le_induction with
  | base => exact le_rfl
  | succ i' _ ih =>
      refine le_trans ih ?_
      rw [Machine.after]
      simp [machine]

/-- After each cycle the core commits or raises an exception once more, unless a barrier stands in
the way. -/
theorem grows (hP : 1 ≤ C.P) (hD : C.D ≤ 3) (i : ℕ) :
    let r := (machine n j k C S S' segI segD pcRst u w z tagV ipay dpay m₀).after q xs
    ∃ i', i ≤ i' ∧ ((r i').1.1.data.core.Halted (r i').1.2.1 ∨
      (r i).2.length < (r i').2.length) := by
  have hh := happens hq hx hf hP hD
  intro r
  obtain ⟨i', hi, hhap⟩ := frequently_atTop.1 hh (i + 1)
  obtain ⟨a, rfl⟩ : ∃ a, i' = a + 1 := ⟨i' - 1, by omega⟩
  have hle : (r i).2.length ≤ (r a).2.length := length_le_after (by omega)
  have hlen : ∀ b, (r (b + 1)).2.length = (r b).2.length +
      (Core.events C (r b).1.1.data.core (r b).1.2.1 ((r b).1.1.coreIn (xs b))).length :=
    fun b => List.length_append
  have hstep : (r (a + 1)).1.1.data.core = (r a).1.1.data.core.next C ((r a).1.1.coreIn (xs a)) ∧
      (r (a + 1)).1.2.1 = Core.logNext C (r a).1.2.1 (r a).1.1.data.core
        ((r a).1.1.coreIn (xs a)) := ⟨rfl, rfl⟩
  rcases Core.events_of_happens (s := (r a).1.1.data.core) (h := (r a).1.2.1)
    (x := (r a).1.1.coreIn (xs a))
    (y := (r (a + 1)).1.1.coreIn (xs (a + 1))) hhap with hst | hev | hev
  · exact ⟨a + 1, by omega, Or.inl hst⟩
  · refine ⟨a + 1, by omega, Or.inr ?_⟩
    have := List.length_pos_iff.2 hev
    rw [hlen a]
    omega
  · refine ⟨a + 2, by omega, Or.inr ?_⟩
    rw [← hstep.1, ← hstep.2] at hev
    have := List.length_pos_iff.2 hev
    rw [hlen (a + 1), hlen a]
    omega

/-- **The core commits or raises an exception again and again**, whatever program is in its memory
and whatever the timing of the two buses, as long as these are fair, unless a barrier stands in the
way. -/
theorem never_hangs (hP : 1 ≤ C.P) (hD : C.D ≤ 3) (N : ℕ) :
    ∃ i s h t l, (machine n j k C S S' segI segD pcRst u w z tagV ipay dpay m₀).after q xs i =
      ((s, h, t), l) ∧ (s.data.core.Halted h ∨ q.2.length + N ≤ l.length) := by
  have hgrow := grows hq hx hf hP hD
  induction N with
  | zero => exact ⟨0, _, _, _, _, rfl, Or.inr le_rfl⟩
  | succ N ih =>
      obtain ⟨i, s, h, t, l, hi, hst | hle⟩ := ih
      · exact ⟨i, s, h, t, l, hi, Or.inl hst⟩
      · obtain ⟨i', -, hst | hlt⟩ := hgrow i
        · exact ⟨i', _, _, _, _, rfl, Or.inl hst⟩
        · rw [hi] at hlt
          exact ⟨i', _, _, _, _, rfl, Or.inr (Nat.succ_le_of_lt (lt_of_le_of_lt hle hlt))⟩

end Runs

/-! ### Total correctness -/

section Total

variable {ι : Type} {A : Setup ι} {b : Bool} {c₀ : StepCpu ι} {xs : ℕ → Ncpu64kIn j k}

/-- On a program of plain instructions there is no barrier. -/
theorem not_halted (hP : C.P = 2) (hS : S ≤ 7) (hS' : S' ≤ 7)
    (hr : (machine n j k C S S' segI segD pcRst u w z tagV ipay dpay m₀).Reach ((s, h, t), l))
    (hpl : ∀ i ≤ l.length, (Program.ofMem m₀).PlainAt (MemPoint.start pcRst m₀) i) :
    ¬ s.data.core.Halted h := by
  obtain ⟨hd, g, hA⟩ := along_of_reach hP hS hS' hr hpl
  exact hA.not_halted (by omega) hd (hpl _ le_rfl)

/-- At most two instructions commit in a cycle. -/
theorem length_next_le (r : (Ncpu64k n j k × CoreLog × FetchTags) × List Event)
    (v : Ncpu64kIn j k) :
    ((machine n j k C S S' segI segD pcRst u w z tagV ipay dpay m₀).next r v).2.length ≤
      r.2.length + 2 := by
  have hle : (Core.events C r.1.1.data.core r.1.2.1 (r.1.1.coreIn v)).length ≤ 2 := by
    rw [Core.events]
    split_ifs
    · exact Nat.zero_le _
    · exact Nat.le_succ _
    · rw [List.length_map, List.length_range]
      exact Backend.popSize_le
  change (r.2 ++ Core.events C r.1.1.data.core r.1.2.1 (r.1.1.coreIn v)).length ≤ _
  rw [List.length_append]
  omega

/-- **The core executes every instruction that the emulator executes.**  Both start with the same
bytes in memory, with translation and the caches off.  As long as the emulator executes plain
instructions that nobody has written over since, the core gets to each of them in the end, if its
two memories are fair; and then both have the same registers, go on at the same address, and between
two accesses have the same bytes. -/
theorem executes_as_emulator (hP : C.P = 2) (hD : C.D ≤ 3) (hS : S ≤ 7) (hS' : S' ≤ 7)
    (hx : (machine n j k C S S' segI segD pcRst u w z tagV ipay dpay m₀).Runs
      (machine n j k C S S' segI segD pcRst u w z tagV ipay dpay m₀).reset xs)
    (hf : Fair (fun i => ((machine n j k C S S' segI segD pcRst u w z tagV ipay dpay m₀).after
      (machine n j k C S S' segI segD pcRst u w z tagV ipay dpay m₀).reset xs i).1.1) xs)
    (hc : c₀.Shows (MemPoint.start pcRst m₀)) (N : ℕ)
    (hpl : ∀ i ≤ N + 1, ∀ c, c₀.after A b i = some c → c.Plain A b (Program.ofMem m₀)) :
    ∃ i s h t l, (machine n j k C S S' segI segD pcRst u w z tagV ipay dpay m₀).after
        (machine n j k C S S' segI segD pcRst u w z tagV ipay dpay m₀).reset xs i = ((s, h, t), l) ∧
      N ≤ l.length ∧
        (∃ c, c₀.after A b l.length = some c ∧ c.getReg = s.data.core.be.archRegs ∧
          c.pc = Epu.pcWord (s.data.core.goesOn h) ∧
            (s.data.core.be.cmt.lsu.s2Valid = false → ∀ v : Word,
              c.mem v = s.data.mem.mem v.toNat)) ∧
          ∀ i e, l[i]? = some e → ∃ c ans, c₀.after A b i = some c ∧
            e = .commit ((Program.ofMem m₀).insn (c.pc.extractLsb' 2 30)) ans := by
  have hgo := grows Machine.Reach.reset hx hf (by omega) hD
  set M := machine n j k C S S' segI segD pcRst u w z tagV ipay dpay m₀ with hM
  have hreach : ∀ i, M.Reach (M.after M.reset xs i) := fun i => Machine.Reach.reset.after hx i
  obtain ⟨hem, hplain⟩ := StepCpu.after_memAt (N := N + 2) hc fun i hi => hpl i (by omega)
  -- each further instruction commits in the end
  have hall : ∀ a ≤ N, ∃ i, a ≤ (M.after M.reset xs i).2.length := by
    intro a ha
    induction a with
    | zero => exact ⟨0, Nat.zero_le _⟩
    | succ a ih =>
        obtain ⟨i, hi⟩ := ih (by omega)
        obtain ⟨i', -, hst | hlt⟩ := hgo i
        · refine ⟨i', ?_⟩
          by_contra hne
          exact not_halted hP hS hS' (hreach i') (fun m hm => hplain m (by omega)) hst
        · exact ⟨i', by omega⟩
  have hex := hall N le_rfl
  classical
  have hmin : (M.after M.reset xs (Nat.find hex)).2.length ≤ N + 1 := by
    rcases hi : Nat.find hex with _ | i
    · exact Nat.zero_le _
    · have hlt := Nat.find_min hex (m := i) (by omega)
      have hle : (M.after M.reset xs (i + 1)).2.length ≤ (M.after M.reset xs i).2.length + 2 :=
        length_next_le (M.after M.reset xs i) (xs i)
      omega
  refine ⟨Nat.find hex, _, _, _, _, rfl, Nat.find_spec hex, ?_⟩
  obtain ⟨hd, g, hA⟩ := along_of_reach hP hS hS' (hreach (Nat.find hex)) fun i hi =>
    hplain i (by omega)
  exact hA.as_emulator (by omega) hd hS' fun i hi => hem i (by omega)

end Total

/-! ### Memories of NOPs -/

/-- Zeros are NOPs. -/
theorem ofMem_zero : Program.ofMem (fun _ => 0) = fun _ => 0 := by
  funext pc
  simp [Program.ofMem, phyReadm32]

theorem accessAt_zero (m : MemPoint) (i : ℕ) : (Program.ofMem fun _ => 0).accessAt m i = none := by
  refine Program.accessAt_eq_none ?_
  rw [ofMem_zero]
  have hi := aluInsn_of_op (w := 0) (o := .and) rfl (by decide)
    (Program.memAt (fun _ => 0) m i).pc noUpd
  change (idDec true 0 false false false _ noUpd).isMem = false
  rw [DecInsn.isMem, hi.lsu, hi.epu]
  rfl

/-- The emulator at reset, with NOPs in memory. -/
def nops : StepCpu Unit :=
  { MsrCpu.zero.reset with mem := fun _ => 0, icache := (), pc := 0x30000000 }

/-- The emulator at an address of the NOPs. -/
def nopsAt (v : Word) : StepCpu Unit := { nops with pc := v }

theorem nops_step {v : Word} (hv : v.toNat % 4 = 0) :
    (nopsAt v).step Dpi.plainSetup v true Dpi.plainSetup.event =
      some ⟨nopsAt v, v + 4, Dpi.plainSetup.event⟩ := by
  have hirq : (nopsAt v).irqcHandleIrqs = false := rfl
  have hread : ∀ a, phyReadm32 (nopsAt v).mem a = 0 := fun a => by simp [phyReadm32, nopsAt, nops]
  obtain ⟨unc, ht⟩ : ∃ unc, (nopsAt v).immuTranslateVma Dpi.plainSetup.C v = .ok (v, unc) :=
    ⟨_, rfl⟩
  have hfetch : (if unc then ((nopsAt v).icache, phyReadm32 (nopsAt v).mem v)
      else Dpi.plainSetup.I.phyReadm32 (nopsAt v).icache (nopsAt v).mem v) = ((), 0) := by
    cases unc <;> exact Prod.ext rfl (hread v)
  rw [StepCpu.step, if_pos rfl, hirq, if_neg Bool.false_ne_true, StepCpu.stepInsn, ht]
  dsimp only
  rw [if_neg (not_not.2 hv), hfetch]
  rfl

/-- The address after `i` NOPs. -/
def nopPc (i : ℕ) : Word := 0x30000000 + 4 * BitVec.ofNat 32 i

theorem nopPc_mod (i : ℕ) : (nopPc i).toNat % 4 = 0 := by
  rw [nopPc]
  bv_omega

theorem nops_after (i : ℕ) : nops.after Dpi.plainSetup true i = some (nopsAt (nopPc i)) := by
  induction i with
  | zero => rfl
  | succ i ih =>
      have hpc : nopPc (i + 1) = nopPc i + 4 := by
        rw [nopPc, nopPc]
        bv_omega
      rw [StepCpu.after, ih, Option.bind_some, StepCpu.runStep]
      change ((nopsAt (nopPc i)).step Dpi.plainSetup (nopPc i) true Dpi.plainSetup.event).map _ = _
      rw [nops_step (nopPc_mod i), Option.map_some, hpc]
      rfl

theorem plain_nops {i : ℕ} {c : StepCpu Unit} (hc : nops.after Dpi.plainSetup true i = some c) :
    c.Plain Dpi.plainSetup true (Program.ofMem fun _ => 0) := by
  obtain rfl := Option.some.inj ((nops_after i).symm.trans hc)
  have hmod : (nopPc i + 4).toNat % 4 = 0 := by
    have := nopPc_mod i
    bv_omega
  rw [ofMem_zero]
  have hop : Op.ofCode (opcode 0) = some .and := by decide
  refine ⟨_, nops_step (nopPc_mod i), rfl, rfl, hmod, fun h => ?_, .and, hop, rfl⟩
  exact absurd (Option.some.inj (hop.symm.trans h.1)) (by decide)

theorem shows_nops : nops.Shows (MemPoint.start 0xc000000 fun _ => 0) where
  regs := funext (by decide)
  pc := by decide
  mem := rfl
  dmme := rfl
  dce := rfl

/-- The chip with NOPs in its memory. -/
def idling : Machine ((Ncpu64k 4 cacheWays cacheWays × CoreLog × FetchTags) × List Event)
    (Ncpu64kIn cacheWays cacheWays) :=
  machine 4 cacheWays cacheWays chip 0 0 false false 0xc000000 Frontend.bpuRst Frontend.emptyWord
    emptyInsn (fun _ _ => (0, false)) (fun _ _ _ => 0) (fun _ _ _ => 0) fun _ => 0

/-- Nothing goes over the bus of the D-cache. -/
theorem quiet_of_idling {q : (Ncpu64k 4 cacheWays cacheWays × CoreLog × FetchTags) × List Event}
    (hr : idling.Reach q) : q.1.1.data.dc.BusQuiet q.1.1.data.mem := by
  obtain ⟨⟨s, h, t⟩, l⟩ := q
  obtain ⟨-, hpl⟩ := StepCpu.after_memAt (N := l.length + 1) shows_nops fun i _ c hc =>
    plain_nops hc
  obtain ⟨hd, g, hA⟩ := along_of_reach rfl (Nat.zero_le 7) (Nat.zero_le 7) hr fun i hi =>
    hpl i (by omega)
  have h2 : s.data.core.be.cmt.lsu.s2Valid = false := by
    by_contra hne
    obtain ⟨⟨a, ha⟩, -⟩ := hA.done rfl (by decide) hd (hpl l.length (by omega))
        (x := s.dataIn (promptIn s)) (Bool.eq_true_of_not_eq_false hne)
    rw [accessAt_zero] at ha
    cases ha
  have hside := side_of_reach (by decide) hr
  have hdc : (Dcache.machine cacheWays 0 (fun _ _ _ => 0) fun _ => 0).Reach
    (s.data.dc, s.data.mem) :=
    Machine.Reach.map (M := idling) (fun r => (r.1.1.data.dc, r.1.1.data.mem))
      (fun r v => r.1.1.data.side.dcIn chip.D false (r.1.1.data.sideIn (r.1.1.dataIn v))) rfl
      (fun _ _ _ _ hv => hv.2) (fun _ _ _ => rfl) hr
  have hbus := (Dcache.ready_of_reach hdc).1
  rcases (DataSide.link_of_reach hside).quiet h2 with hst | hst
  · have hst' : s.data.dc.state = .boot := hst
    rwa [Dcache.Bus, hst'] at hbus
  · have hst' : s.data.dc.state = .idle := hst
    rwa [Dcache.Bus, hst'] at hbus

theorem bus_of_idling {q : (Ncpu64k 4 cacheWays cacheWays × CoreLog × FetchTags) × List Event}
    (hr : idling.Reach q) : q.1.1.ic.Bus q.1.1.imem :=
  (FetchSide.inv_of_reach (Nat.zero_le 7) (fetch_of_reach rfl hr)).ic.bus

/-- The inputs when both memories answer at once. -/
def idlingIn : ℕ → Ncpu64kIn cacheWays cacheWays :=
  idling.steered (fun q => promptIn q.1.1) idling.reset

theorem step_idling (q : (Ncpu64k 4 cacheWays cacheWays × CoreLog × FetchTags) × List Event)
    (hr : idling.Reach q) :
    idling.allowed q (promptIn q.1.1) ∧ idling.Reach (idling.next q (promptIn q.1.1)) := by
  have ha : idling.allowed q (promptIn q.1.1) := ⟨AxiMem.answers_prompt _, AxiMem.answers_prompt _⟩
  exact ⟨ha, Machine.Reach.tick hr ha⟩

theorem runs_idling : idling.Runs idling.reset idlingIn :=
  Machine.runs_steered Machine.Reach.reset step_idling

theorem fair_idling : Fair (fun i => (idling.after idling.reset idlingIn i).1.1) idlingIn := by
  have hr : ∀ i, idling.Reach (idling.after idling.reset idlingIn i) :=
    Machine.after_steered_inv Machine.Reach.reset fun q hq => (step_idling q hq).2
  refine ⟨AxiMem.fair_prompt (fun i => .inl (bus_of_idling (hr i)).write)
      (fun i b c hb => (bus_of_idling (hr i)).size_le hb) (fun i => ?_) fun i => rfl,
    AxiMem.fair_prompt (fun i => .inl (quiet_of_idling (hr i)).write) (fun i b c hb => ?_)
      (fun i => ?_) fun i => rfl⟩
  · rw [idlingIn, Machine.steered_eq]
    rfl
  · rw [(quiet_of_idling (hr i)).read.rd] at hb
    cases hb
  · rw [idlingIn, Machine.steered_eq]
    rfl

/-- From reset the chip goes on. -/
theorem never_hangs_idling :
    ∃ i s h t l, idling.after idling.reset idlingIn i = ((s, h, t), l) ∧
      (s.data.core.Halted h ∨ 0 + 1000 ≤ l.length) :=
  never_hangs Machine.Reach.reset runs_idling fair_idling (by decide) (by decide) 1000

/-- The chip gets to the thousandth NOP. -/
theorem executes_as_emulator_idling :
    ∃ i s h t l, idling.after idling.reset idlingIn i = ((s, h, t), l) ∧ 1000 ≤ l.length ∧
      ∃ c, nops.after Dpi.plainSetup true l.length = some c ∧
        c.getReg = s.data.core.be.archRegs := by
  obtain ⟨i, s, h, t, l, hi, hl, ⟨c, hc, hregs, -⟩, -⟩ :=
    executes_as_emulator (A := Dpi.plainSetup) (b := true) rfl
    (by decide) (Nat.zero_le 7) (Nat.zero_le 7) runs_idling fair_idling shows_nops 1000 fun _ _ c
      hc => plain_nops hc
  exact ⟨i, s, h, t, l, hi, hl, c, hc, hregs⟩

end Ncpu64k

end NanoCpu
