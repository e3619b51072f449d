/-
**The D-cache on the bus.**

The cache has at most one burst on the bus, and at most one direction is in use: it writes a victim
before it reads the new line.  What is on the bus follows from the state of the state machine, and
this holds whatever the cache is asked to do and however long the memory takes.

Main definitions:

* `Dcache.BusQuiet`, `Dcache.BusRefill`, `Dcache.BusWriteback`, `Dcache.BusUncachedRead`,
  `Dcache.BusUncachedWrite` — the bus in the different states;
* `Dcache.Bus` — the invariant.

Main results:

* `Dcache.BusRefill.next`, `Dcache.BusWriteback.next`, … — what one cycle of a burst does;
* `Dcache.Bus.next` — the invariant is kept.
-/

import NanoCpu.Dcache

set_option relaxedAutoImplicit false
set_option autoImplicit false
set_option linter.unusedSectionVars false

namespace NanoCpu

namespace Dcache

variable {n : ℕ} [NeZero n] {S : ℕ} {s : Dcache n} {m : AxiMem} {x : DcIn n}

/-! ### The registers of the bus -/

theorem next_arValid : (s.next S x).arValid = (s.arSet x || (s.arValid && !x.axi.arReady)) := by
  change ldff _ _ _ = _
  rw [arClr]
  cases s.arSet x <;> cases s.arValid <;> cases x.axi.arReady <;> rfl

theorem next_awValid : (s.next S x).awValid = (s.awSet || (s.awValid && !x.axi.awReady)) := by
  change ldff _ _ _ = _
  rw [awClr]
  cases s.awSet <;> cases s.awValid <;> cases x.axi.awReady <;> rfl

theorem next_wValid :
    (s.next S x).wValid = (s.awSet || (s.wValid && !(x.axi.wReady && s.wLast))) := by
  change ldff _ _ _ = _
  rw [wvalidClr, hdsAxiWLast, hdsAxiW]
  cases s.awSet <;> cases s.wValid <;> cases x.axi.wReady <;> cases s.wLast <;> rfl

theorem next_wLast :
    (s.next S x).wLast = (s.wlastSet x || (s.wLast && !(s.wValid && x.axi.wReady))) := by
  change ldff _ _ _ = _
  rw [wvalidClr, hdsAxiWLast, hdsAxiW]
  cases s.wlastSet x <;> cases s.wValid <;> cases x.axi.wReady <;> cases s.wLast <;> rfl

/-- The registers of the two stages stay while the pipeline is stalled. -/
theorem next_s1o_of_stall (h : s.state ≠ .idle) : (s.next S x).s1o = s.s1o := by
  have : s.pCe = false := by simp [pCe, stallReq, h]
  change ldff s.pCe _ _ = _
  rw [this]
  rfl

theorem next_s2o_of_stall (h : s.state ≠ .idle) : (s.next S x).s2o = s.s2o := by
  have : s.pCe = false := by simp [pCe, stallReq, h]
  change ldff s.pCe _ _ = _
  rw [this]
  rfl

theorem next_s1o_of_idle (h : s.state = .idle) : (s.next S x).s1o = s.s1oNxt S x := by
  have : s.pCe = true := by simp [pCe, stallReq, h]
  change ldff s.pCe _ _ = _
  rw [this]
  rfl

theorem next_s2o_of_idle (h : s.state = .idle) : (s.next S x).s2o = s.s2oNxt S x := by
  have : s.pCe = true := by simp [pCe, stallReq, h]
  change ldff s.pCe _ _ = _
  rw [this]
  rfl

/-! ### The invariant of the bus -/

/-- No burst is going on, and the counters are at their start. -/
structure BusQuiet (s : Dcache n) (m : AxiMem) : Prop where
  read : m.NoRead s.axiOut
  write : m.NoWrite s.axiOut
  wLast : s.wLast = false
  refillCnt : s.refillCnt = 0

/-- A line is read, and `c` of its words have come. -/
structure BusRefill (s : Dcache n) (m : AxiMem) (c : ℕ) : Prop where
  read : m.Reads s.axiOut ⟨s.arAddr, 15, 2⟩ c
  write : m.NoWrite s.axiOut
  wLast : s.wLast = false
  refillCnt : s.refillCnt = 4 * c

/-- A line is written, and `k` of its words have been sent. -/
structure BusWriteback (s : Dcache n) (m : AxiMem) (k : ℕ) : Prop where
  read : m.NoRead s.axiOut
  write : m.Writes s.axiOut ⟨s.awAddr, 15, 2⟩ k
  wLast : s.wLast = decide (k = 15)
  refillCnt : s.refillCnt = if k < 15 then 4 * (k + 1) else 0
  wbAddr : k < 16 → s.s2oWbAddr = 4 * k

structure BusUncachedRead (s : Dcache n) (m : AxiMem) : Prop where
  read : m.Reads s.axiOut ⟨s.arAddr, 0, s.s2o.size.toNat⟩ 0
  write : m.NoWrite s.axiOut
  wLast : s.wLast = false
  refillCnt : s.refillCnt = 0

structure BusUncachedWrite (s : Dcache n) (m : AxiMem) (k : ℕ) : Prop where
  read : m.NoRead s.axiOut
  write : m.Writes s.axiOut ⟨s.awAddr, 0, s.s2o.size.toNat⟩ k
  wLast : s.wLast = decide (k = 0)
  refillCnt : s.refillCnt = 0

/-- What is going on on the bus, by the state of the state machine. -/
def Bus (s : Dcache n) (m : AxiMem) : Prop :=
  match s.state with
  | .refill => ∃ c, s.BusRefill m c
  | .writeback => ∃ k, s.BusWriteback m k
  | .uncachedRead => s.BusUncachedRead m
  | .uncachedWrite => ∃ k, s.BusUncachedWrite m k
  | _ => s.BusQuiet m

theorem bus_reset (pay : Fin n → ℕ × ℕ → ℕ → Byte) (mem : ℕ → Byte) :
    (reset pay).Bus (AxiMem.idle mem) :=
  ⟨⟨rfl, rfl⟩, ⟨rfl, rfl, rfl, rfl, rfl⟩, rfl, rfl⟩

/-- A cycle without a request to the bus keeps it quiet. -/
theorem BusQuiet.next (h : s.BusQuiet m) (ha : m.Answers x.axi) (har : s.arSet x = false)
    (haw : s.awSet = false) (hst : s.state ≠ .refill) :
    (s.next S x).BusQuiet (m.next s.axiOut x.axi) := by
  have h₁ : s.arValid = false := h.read.arValid
  have h₂ : s.awValid = false := h.write.awValid
  have h₃ : s.wValid = false := h.write.wValid
  refine ⟨h.read.next ha ?_, h.write.next ha ?_ ?_, ?_, ?_⟩
  · change (s.next S x).arValid = false
    rw [next_arValid, har, h₁]
    rfl
  · change (s.next S x).awValid = false
    rw [next_awValid, haw, h₂]
    rfl
  · change (s.next S x).wValid = false
    rw [next_wValid, haw, h₃]
    rfl
  · rw [next_wLast, wlastSet, haw, hdsAxiW, h₃, h.wLast]
    simp
  · change s.refillCntNxt x = 0
    simp [refillCntNxt, s2iWbRe, haw, hdsAxiW, h₃, hst, h.refillCnt]

/-- The cycle that asks for a line. -/
theorem BusQuiet.next_ar (h : s.BusQuiet m) (ha : m.Answers x.axi) (har : s.arSet x = true)
    (haw : s.awSet = false) (hst : s.state ≠ .refill) :
    (s.next S x).arValid = true ∧
      (m.next s.axiOut x.axi).Reads (s.next S x).axiOut (s.next S x).axiOut.ar 0 ∧
      (m.next s.axiOut x.axi).NoWrite (s.next S x).axiOut ∧ (s.next S x).wLast = false ∧
      (s.next S x).refillCnt = 0 := by
  have h₂ : s.awValid = false := h.write.awValid
  have h₃ : s.wValid = false := h.write.wValid
  have hv : (s.next S x).arValid = true := by rw [next_arValid, har, Bool.true_or]
  refine ⟨hv, h.read.start ha hv, h.write.next ha ?_ ?_, ?_, ?_⟩
  · change (s.next S x).awValid = false
    rw [next_awValid, haw, h₂]
    rfl
  · change (s.next S x).wValid = false
    rw [next_wValid, haw, h₃]
    rfl
  · rw [next_wLast, wlastSet, haw, hdsAxiW, h₃, h.wLast]
    simp
  · change s.refillCntNxt x = 0
    simp [refillCntNxt, s2iWbRe, haw, hdsAxiW, h₃, hst, h.refillCnt]

/-- The cycle that starts to write a line: its first word is read from the payload RAM. -/
theorem BusQuiet.next_aw (h : s.BusQuiet m) (ha : m.Answers x.axi) (haw : s.awSet = true)
    (hst : s.state = .replace ∨ s.state = .flush) :
    (s.next S x).BusWriteback (m.next s.axiOut x.axi) 0 := by
  have h₁ : s.arValid = false := h.read.arValid
  have h₃ : s.wValid = false := h.write.wValid
  have har : s.arSet x = false := by
    rcases hst with hst | hst
    · simpa [arSet, awSet, hst] using haw
    · simp [arSet, hst]
  have hre : s.s2iWbRe x = true := by
    rcases hst with hst | hst <;> simp [s2iWbRe, haw, hst]
  have hst' : (s.next S x).state = .writeback := by
    change s.stateNxt S x = .writeback
    rcases hst with hst | hst <;> simpa [stateNxt, awSet, hst] using haw
  have hv : (s.next S x).awValid = true := by rw [next_awValid, haw, Bool.true_or]
  have hw : (s.next S x).wValid = true := by rw [next_wValid, haw, Bool.true_or]
  have hl : (s.next S x).wLast = false := by
    rw [next_wLast, wlastSet, hdsAxiW, h₃, h.wLast]
    rcases hst with hst | hst <;> simp [fsmUncachedReq, hst]
  have haw' : (s.next S x).axiOut.aw = ⟨(s.next S x).awAddr, 15, 2⟩ := by simp [axiOut, hst']
  refine ⟨h.read.next ha ?_, ?_, ?_, ?_, fun _ => ?_⟩
  · change (s.next S x).arValid = false
    rw [next_arValid, har, h₁]
    rfl
  · rw [← haw']
    refine h.write.start ha hv hw ?_
    rw [haw']
    exact hl
  · rw [hl]
    rfl
  · change s.refillCntNxt x = _
    simp [refillCntNxt, hre, h.refillCnt]
  · change ldff (s.s2iWbRe x) s.refillCnt s.s2oWbAddr = _
    rw [hre, h.refillCnt]
    rfl

/-- A cycle of a refill. -/
theorem BusRefill.next {c : ℕ} (h : s.BusRefill m c) (hst : s.state = .refill)
    (ha : m.Answers x.axi) :
    (s.hdsAxiR x = false ∧ (s.next S x).state = .refill ∧
        (s.next S x).BusRefill (m.next s.axiOut x.axi) c) ∨
      (s.hdsAxiR x = true ∧ c < 15 ∧ (s.next S x).state = .refill ∧
        (s.next S x).BusRefill (m.next s.axiOut x.axi) (c + 1)) ∨
      (s.hdsAxiR x = true ∧ c = 15 ∧ (s.next S x).state = .reload ∧
        (s.next S x).BusQuiet (m.next s.axiOut x.axi)) := by
  have h₂ : s.awValid = false := h.write.awValid
  have h₃ : s.wValid = false := h.write.wValid
  have haw : s.awSet = false := by simp [awSet, hst]
  have har : s.arSet x = false := by simp [arSet, hst]
  have hv : (s.next S x).arValid = (s.arValid && !x.axi.arReady) := by
    rw [next_arValid, har, Bool.false_or]
  have haddr : (s.next S x).arAddr = s.arAddr := by
    change ldff (s.arSet x) _ _ = _
    rw [har]
    rfl
  have hw : (m.next s.axiOut x.axi).NoWrite (s.next S x).axiOut := by
    refine h.write.next ha ?_ ?_
    · change (s.next S x).awValid = false
      rw [next_awValid, haw, h₂]
      rfl
    · change (s.next S x).wValid = false
      rw [next_wValid, haw, h₃]
      rfl
  have hl : (s.next S x).wLast = false := by
    rw [next_wLast, wlastSet, haw, hdsAxiW, h₃, h.wLast]
    simp
  have hre : s.s2iWbRe x = false := by simp [s2iWbRe, haw, hst]
  have hrr : s.axiOut.rReady = true := by simp [axiOut, rReady, hst]
  have hcnt : (s.next S x).refillCnt = if s.hdsAxiR x then (s.refillCnt + 4) % 64 else
      s.refillCnt := by
    change s.refillCntNxt x = _
    simp [refillCntNxt, hst, hre]
  have hle : c ≤ 15 := h.read.le
  have hdef : s.hdsAxiR x = (x.axi.rValid && s.axiOut.rReady) := rfl
  have hstn : (s.next S x).state = if s.hdsAxiRLast x then .reload else .refill := by
    change s.stateNxt S x = _
    simp [stateNxt, hst]
  cases hr : s.hdsAxiR x with
  | false =>
      have hst' : (s.next S x).state = .refill := by simp [hstn, hdsAxiRLast, hr]
      refine Or.inl ⟨rfl, hst', ?_, hw, hl, by rw [hcnt, hr, h.refillCnt]; rfl⟩
      rw [haddr]
      exact h.read.next_wait (by rw [← hdef, hr]) hv fun _ => by simp [axiOut, hst', haddr]
  | true =>
      obtain ⟨hv₀, hlast, -⟩ := h.read.data ha (by
        rw [hdef, Bool.and_eq_true] at hr
        exact hr.1)
      have hv' : (s.next S x).axiOut.arValid = false := by
        change (s.next S x).arValid = false
        rw [hv, show s.arValid = false from hv₀]
        rfl
      have hcnt' : (s.next S x).refillCnt = (4 * c + 4) % 64 := by rw [hcnt, hr, h.refillCnt]; rfl
      right
      cases hlr : x.axi.rLast with
      | false =>
          have hst' : (s.next S x).state = .refill := by simp [hstn, hdsAxiRLast, hr, hlr]
          have hne : c ≠ 15 := by
            rw [hlr] at hlast
            simpa using hlast
          refine Or.inl ⟨rfl, by omega, hst', ?_, hw, hl, by rw [hcnt']; omega⟩
          rw [haddr]
          exact h.read.next_beat ha (by rw [← hdef, hr]) hlr hv'
      | true =>
          have hst' : (s.next S x).state = .reload := by simp [hstn, hdsAxiRLast, hr, hlr]
          obtain ⟨hc, hq⟩ := h.read.next_last ha (by rw [← hdef, hr]) hlr hv'
          refine Or.inr ⟨rfl, hc, hst', hq, hw, hl, ?_⟩
          rw [hcnt', show c = 15 from hc]

/-- A cycle of a write-back. -/
theorem BusWriteback.next {k : ℕ} (h : s.BusWriteback m k) (hst : s.state = .writeback)
    (ha : m.Answers x.axi) :
    (s.hdsAxiB x = false ∧ (s.next S x).state = .writeback ∧
        (s.next S x).BusWriteback (m.next s.axiOut x.axi) (k + (s.hdsAxiW x).toNat)) ∨
      (s.hdsAxiB x = true ∧ k = 16 ∧ s.s2o.fls = true ∧ (s.next S x).state = .idle ∧
        (s.next S x).BusQuiet (m.next s.axiOut x.axi)) ∨
      (s.hdsAxiB x = true ∧ k = 16 ∧ s.s2o.fls = false ∧ (s.next S x).state = .refill ∧
        (s.next S x).BusRefill (m.next s.axiOut x.axi) 0) := by
  have h₁ : s.arValid = false := h.read.arValid
  have haw : s.awSet = false := by simp [awSet, hst]
  have hle : k ≤ 16 := h.write.le
  have hwv : s.wValid = decide (k ≤ 15) := h.write.wValid
  have hv : (s.next S x).awValid = (s.awValid && !x.axi.awReady) := by
    rw [next_awValid, haw, Bool.false_or]
  have haddr : (s.next S x).awAddr = s.awAddr := by
    change ldff s.awSet _ _ = _
    rw [haw]
    rfl
  have hw : (s.next S x).wValid = (s.wValid && !(x.axi.wReady && s.wLast)) := by
    rw [next_wValid, haw, Bool.false_or]
  have hre : s.s2iWbRe x = (s.hdsAxiW x && decide (k < 15)) := by
    rw [s2iWbRe, haw, hst, h.refillCnt]
    split_ifs with hk <;> simp [hk]
  have hdef : s.hdsAxiB x = (x.axi.bValid && s.axiOut.bReady) := Bool.and_comm _ _
  have hcnt : (s.next S x).refillCnt =
      if (s.hdsAxiW x && decide (k < 15)) = true then (s.refillCnt + 4) % 64 else s.refillCnt := by
    change s.refillCntNxt x = _
    simp [refillCntNxt, hst, hre]
  have hstn : (s.next S x).state =
      if s.hdsAxiB x then (if s.s2o.fls then .idle else .refill) else .writeback := by
    change s.stateNxt S x = _
    simp [stateNxt, hst]
  have hlast : (s.next S x).wLast = decide (k + (s.hdsAxiW x).toNat = 15) := by
    rw [next_wLast, wlastSet, hst, haw, h.wLast, h.refillCnt, hdsAxiW, hwv]
    cases x.axi.wReady
    · simp
    · by_cases hk : k < 15
      · simp [hk, show k ≤ 15 by omega]
        grind
      · by_cases hk' : k = 15
        · simp [hk']
        · simp [hk, hk', show ¬ k ≤ 15 by omega]
  cases hb : s.hdsAxiB x with
  | false =>
      have hst' : (s.next S x).state = .writeback := by simp [hstn, hb]
      have har : s.arSet x = false := by simp [arSet, hst, hb]
      refine Or.inl ⟨rfl, hst', h.read.next ha ?_, ?_, hlast, ?_, fun hk => ?_⟩
      · change (s.next S x).arValid = false
        rw [next_arValid, har, h₁]
        rfl
      · rw [haddr]
        refine h.write.next (by rw [← hdef, hb]) hv (fun _ => by simp [axiOut, hst', haddr]) hw
          fun _ => hlast
      · rw [hcnt, h.refillCnt]
        cases s.hdsAxiW x <;> by_cases hk : k < 15 <;> simp [hk]
        · split_ifs <;> omega
        · omega
      · change ldff (s.s2iWbRe x) s.refillCnt s.s2oWbAddr = _
        rw [hre, h.refillCnt]
        cases hh : s.hdsAxiW x
        · rw [hh] at hk
          exact h.wbAddr hk
        · rw [hh] at hk
          have : k < 15 := Nat.lt_of_succ_lt_succ hk
          simp [this]
  | true =>
      have hb' : (x.axi.bValid && s.axiOut.bReady) = true := by rw [← hdef, hb]
      obtain ⟨hav, hk, -⟩ := h.write.of_bValid ha (Bool.and_eq_true_iff.1 hb').1
      obtain rfl : k = 16 := hk
      have hwv' : s.wValid = false := by rw [hwv]; rfl
      have hnw : (m.next s.axiOut x.axi).NoWrite (s.next S x).axiOut := by
        refine h.write.next_last ha hb' ?_ ?_
        · change (s.next S x).awValid = false
          rw [hv, show s.awValid = false from hav]
          rfl
        · change (s.next S x).wValid = false
          rw [hw, hwv']
          rfl
      have hl : (s.next S x).wLast = false := by
        rw [hlast]
        exact decide_eq_false (by omega)
      have hc : (s.next S x).refillCnt = 0 := by
        rw [hcnt, h.refillCnt]
        simp
      right
      cases hf : s.s2o.fls with
      | true =>
          have hst' : (s.next S x).state = .idle := by simp [hstn, hb, hf]
          have har : s.arSet x = false := by simp [arSet, hst, hf]
          refine Or.inl ⟨rfl, rfl, rfl, hst', h.read.next ha ?_, hnw, hl, hc⟩
          change (s.next S x).arValid = false
          rw [next_arValid, har, h₁]
          rfl
      | false =>
          have hst' : (s.next S x).state = .refill := by simp [hstn, hb, hf]
          have har : s.arSet x = true := by simp [arSet, hst, hb, hf]
          refine Or.inr ⟨rfl, rfl, rfl, hst', ?_, hnw, hl, by rw [hc]⟩
          have : (m.next s.axiOut x.axi).Reads (s.next S x).axiOut (s.next S x).axiOut.ar 0 :=
            h.read.start ha
            (by change (s.next S x).arValid = true; rw [next_arValid, har, Bool.true_or])
          simpa [axiOut, hst'] using this

/-- An uncached access starts its only transaction. -/
theorem BusQuiet.next_uncached (h : s.BusQuiet m) (ha : m.Answers x.axi)
    (hst : s.state = .uncachedBoot) :
    ((s.next S x).state = .uncachedRead ∧ s.s2o.wmsk = 0 ∧
        (s.next S x).BusUncachedRead (m.next s.axiOut x.axi)) ∨
      ((s.next S x).state = .uncachedWrite ∧ s.s2o.wmsk ≠ 0 ∧
        (s.next S x).BusUncachedWrite (m.next s.axiOut x.axi) 0) := by
  have h₁ : s.arValid = false := h.read.arValid
  have h₃ : s.wValid = false := h.write.wValid
  have hs2 : (s.next S x).s2o = s.s2o := next_s2o_of_stall (by simp [hst])
  by_cases hm : s.s2o.wmsk = 0
  · have hst' : (s.next S x).state = .uncachedRead := by
      change s.stateNxt S x = _
      simp [stateNxt, hst, hm]
    have har : s.arSet x = true := by simp [arSet, hst, hm]
    have haw : s.awSet = false := by simp [awSet, hst, hm]
    obtain ⟨-, hr, hw, hl, hc⟩ := h.next_ar (S := S) ha har haw (by simp [hst])
    refine Or.inl ⟨hst', hm, ?_, hw, hl, hc⟩
    simpa [axiOut, hst'] using hr
  · have hst' : (s.next S x).state = .uncachedWrite := by
      change s.stateNxt S x = _
      simpa [stateNxt, hst] using hm
    have har : s.arSet x = false := by simpa [arSet, hst] using hm
    have haw : s.awSet = true := by simpa [awSet, hst] using hm
    have hv : (s.next S x).awValid = true := by rw [next_awValid, haw, Bool.true_or]
    have hw : (s.next S x).wValid = true := by rw [next_wValid, haw, Bool.true_or]
    have hl : (s.next S x).wLast = true := by
      rw [next_wLast, wlastSet, haw]
      simp [fsmUncachedReq, hst]
    have haw' : (s.next S x).axiOut.aw = ⟨(s.next S x).awAddr, 0, (s.next S x).s2o.size.toNat⟩ := by
      simp [axiOut, hst']
    refine Or.inr ⟨hst', hm, h.read.next ha ?_, ?_, ?_, ?_⟩
    · change (s.next S x).arValid = false
      rw [next_arValid, har, h₁]
      rfl
    · rw [← haw']
      refine h.write.start ha hv hw ?_
      rw [haw']
      exact hl
    · rw [hl]
      rfl
    · change s.refillCntNxt x = _
      simp [refillCntNxt, s2iWbRe, hst, h.refillCnt]

theorem BusUncachedRead.next (h : s.BusUncachedRead m) (hst : s.state = .uncachedRead)
    (ha : m.Answers x.axi) :
    (s.hdsAxiR x = false ∧ (s.next S x).state = .uncachedRead ∧
        (s.next S x).BusUncachedRead (m.next s.axiOut x.axi)) ∨
      (s.hdsAxiR x = true ∧ (s.next S x).state = .idle ∧
        (s.next S x).BusQuiet (m.next s.axiOut x.axi)) := by
  have h₂ : s.awValid = false := h.write.awValid
  have h₃ : s.wValid = false := h.write.wValid
  have haw : s.awSet = false := by simp [awSet, hst]
  have har : s.arSet x = false := by simp [arSet, hst]
  have hs2 : (s.next S x).s2o = s.s2o := next_s2o_of_stall (by simp [hst])
  have hv : (s.next S x).arValid = (s.arValid && !x.axi.arReady) := by
    rw [next_arValid, har, Bool.false_or]
  have haddr : (s.next S x).arAddr = s.arAddr := by
    change ldff (s.arSet x) _ _ = _
    rw [har]
    rfl
  have hw : (m.next s.axiOut x.axi).NoWrite (s.next S x).axiOut := by
    refine h.write.next ha ?_ ?_
    · change (s.next S x).awValid = false
      rw [next_awValid, haw, h₂]
      rfl
    · change (s.next S x).wValid = false
      rw [next_wValid, haw, h₃]
      rfl
  have hl : (s.next S x).wLast = false := by
    rw [next_wLast, wlastSet, haw, hdsAxiW, h₃, h.wLast]
    simp
  have hcnt : (s.next S x).refillCnt = 0 := by
    change s.refillCntNxt x = _
    simp [refillCntNxt, s2iWbRe, haw, hst, h.refillCnt]
  have hdef : s.hdsAxiR x = (x.axi.rValid && s.axiOut.rReady) := rfl
  have hstn : (s.next S x).state = if s.hdsAxiR x then .idle else .uncachedRead := by
    change s.stateNxt S x = _
    simp [stateNxt, hst]
  cases hr : s.hdsAxiR x with
  | false =>
      have hst' : (s.next S x).state = .uncachedRead := by simp [hstn, hr]
      refine Or.inl ⟨rfl, hst', ?_, hw, hl, hcnt⟩
      rw [haddr, hs2]
      exact h.read.next_wait (by rw [← hdef, hr]) hv fun _ => by simp [axiOut, hst', haddr, hs2]
  | true =>
      obtain ⟨hv₀, hlast, -⟩ := h.read.data ha (by
        rw [hdef, Bool.and_eq_true] at hr
        exact hr.1)
      refine Or.inr ⟨rfl, by simp [hstn, hr], ?_, hw, hl, hcnt⟩
      refine (h.read.next_last ha (by rw [← hdef, hr]) (by simpa using hlast) ?_).2
      change (s.next S x).arValid = false
      rw [hv, show s.arValid = false from hv₀]
      rfl

theorem BusUncachedWrite.next {k : ℕ} (h : s.BusUncachedWrite m k) (hst : s.state = .uncachedWrite)
    (ha : m.Answers x.axi) :
    (s.hdsAxiB x = false ∧ (s.next S x).state = .uncachedWrite ∧
        (s.next S x).BusUncachedWrite (m.next s.axiOut x.axi) (k + (s.hdsAxiW x).toNat)) ∨
      (s.hdsAxiB x = true ∧ k = 1 ∧ (s.next S x).state = .idle ∧
        (s.next S x).BusQuiet (m.next s.axiOut x.axi)) := by
  have h₁ : s.arValid = false := h.read.arValid
  have haw : s.awSet = false := by simp [awSet, hst]
  have har : s.arSet x = false := by simp [arSet, hst]
  have hle : k ≤ 1 := h.write.le
  have hwv : s.wValid = decide (k ≤ 0) := h.write.wValid
  have hs2 : (s.next S x).s2o = s.s2o := next_s2o_of_stall (by simp [hst])
  have hv : (s.next S x).awValid = (s.awValid && !x.axi.awReady) := by
    rw [next_awValid, haw, Bool.false_or]
  have haddr : (s.next S x).awAddr = s.awAddr := by
    change ldff s.awSet _ _ = _
    rw [haw]
    rfl
  have hw : (s.next S x).wValid = (s.wValid && !(x.axi.wReady && s.wLast)) := by
    rw [next_wValid, haw, Bool.false_or]
  have hcnt : (s.next S x).refillCnt = 0 := by
    change s.refillCntNxt x = _
    simp [refillCntNxt, s2iWbRe, haw, hst, h.refillCnt]
  have hr : (m.next s.axiOut x.axi).NoRead (s.next S x).axiOut := by
    refine h.read.next ha ?_
    change (s.next S x).arValid = false
    rw [next_arValid, har, h₁]
    rfl
  have hdef : s.hdsAxiB x = (x.axi.bValid && s.axiOut.bReady) := Bool.and_comm _ _
  have hstn : (s.next S x).state = if s.hdsAxiB x then .idle else .uncachedWrite := by
    change s.stateNxt S x = _
    simp [stateNxt, hst]
  have hlast : (s.next S x).wLast = decide (k + (s.hdsAxiW x).toNat = 0) := by
    rw [next_wLast, wlastSet, haw, h.wLast, hdsAxiW, hwv]
    cases x.axi.wReady <;> by_cases hk : k = 0 <;> simp [hst, hk]
  cases hb : s.hdsAxiB x with
  | false =>
      have hst' : (s.next S x).state = .uncachedWrite := by simp [hstn, hb]
      refine Or.inl ⟨rfl, hst', hr, ?_, hlast, hcnt⟩
      rw [haddr, hs2]
      exact h.write.next (by rw [← hdef, hb]) hv (fun _ => by simp [axiOut, hst', haddr, hs2]) hw
        fun _ => hlast
  | true =>
      have hb' : (x.axi.bValid && s.axiOut.bReady) = true := by rw [← hdef, hb]
      obtain ⟨hav, hk, -⟩ := h.write.of_bValid ha (Bool.and_eq_true_iff.1 hb').1
      obtain rfl : k = 1 := hk
      refine Or.inr ⟨rfl, rfl, by simp [hstn, hb], hr, h.write.next_last ha hb' ?_ ?_, ?_, hcnt⟩
      · change (s.next S x).awValid = false
        rw [hv, show s.awValid = false from hav]
        rfl
      · change (s.next S x).wValid = false
        rw [hw, hwv]
        rfl
      · rw [hlast]
        exact decide_eq_false (by omega)

theorem bus_of_quiet (hq : s.BusQuiet m) (h : s.state ≠ .refill ∧ s.state ≠ .writeback ∧
    s.state ≠ .uncachedRead ∧ s.state ≠ .uncachedWrite) : s.Bus m := by
  rw [Bus]
  cases hst : s.state <;> simp_all

/-- **The cache keeps to the rules of the bus**, whatever it is asked to do. -/
theorem Bus.next (h : s.Bus m) (ha : m.Answers x.axi) :
    (s.next S x).Bus (m.next s.axiOut x.axi) := by
  have hstn : (s.next S x).state = s.stateNxt S x := rfl
  -- the states in which the bus is quiet and stays so
  have quiet : s.BusQuiet m → s.state ≠ .refill → s.arSet x = false → s.awSet = false →
      (s.stateNxt S x ≠ .refill ∧ s.stateNxt S x ≠ .writeback ∧ s.stateNxt S x ≠ .uncachedRead ∧
        s.stateNxt S x ≠ .uncachedWrite) → (s.next S x).Bus (m.next s.axiOut x.axi) :=
    fun hq h₀ h₁ h₂ h₃ => bus_of_quiet (hq.next ha h₁ h₂ h₀) h₃
  cases hst : s.state with
  | boot =>
      rw [Bus, hst] at h
      refine quiet h (by simp [hst]) (by simp [arSet, hst]) (by simp [awSet, hst]) ?_
      simp only [stateNxt, hst]
      split_ifs <;> simp
  | idle =>
      rw [Bus, hst] at h
      refine quiet h (by simp [hst]) (by simp [arSet, hst]) (by simp [awSet, hst]) ?_
      simp only [stateNxt, hst]
      split_ifs <;> simp
  | invalidate =>
      rw [Bus, hst] at h
      exact quiet h (by simp [hst]) (by simp [arSet, hst]) (by simp [awSet, hst])
        (by simp [stateNxt, hst])
  | reload =>
      rw [Bus, hst] at h
      exact quiet h (by simp [hst]) (by simp [arSet, hst]) (by simp [awSet, hst])
        (by simp [stateNxt, hst])
  | flush =>
      rw [Bus, hst] at h
      cases hd : s.s2oMatchDirty with
      | true =>
          have hst' : (s.next S x).state = .writeback := by simp [hstn, stateNxt, hst, hd]
          rw [Bus, hst']
          exact ⟨0, BusQuiet.next_aw h ha (by simp [awSet, hst, hd]) (Or.inr hst)⟩
      | false =>
          exact quiet h (by simp [hst]) (by simp [arSet, hst]) (by simp [awSet, hst, hd])
            (by simp [stateNxt, hst, hd])
  | replace =>
      rw [Bus, hst] at h
      cases hd : s.s2o.freeDirty with
      | true =>
          have hst' : (s.next S x).state = .writeback := by simp [hstn, stateNxt, hst, hd]
          rw [Bus, hst']
          exact ⟨0, BusQuiet.next_aw h ha (by simp [awSet, hst, hd]) (Or.inl hst)⟩
      | false =>
          have hst' : (s.next S x).state = .refill := by simp [hstn, stateNxt, hst, hd]
          obtain ⟨-, hr, hw, hl, hc⟩ := BusQuiet.next_ar (S := S) h ha (by simp [arSet, hst, hd])
            (by simp [awSet, hst, hd]) (by simp [hst])
          rw [Bus, hst']
          exact ⟨0, by simpa [axiOut, hst'] using hr, hw, hl, hc⟩
  | refill =>
      rw [Bus, hst] at h
      obtain ⟨c, hc⟩ := h
      rcases hc.next (S := S) hst ha with ⟨-, hst', h'⟩ | ⟨-, -, hst', h'⟩ | ⟨-, -, hst', h'⟩
      · rw [Bus, hst']
        exact ⟨c, h'⟩
      · rw [Bus, hst']
        exact ⟨c + 1, h'⟩
      · rw [Bus, hst']
        exact h'
  | writeback =>
      rw [Bus, hst] at h
      obtain ⟨k, hk⟩ := h
      rcases hk.next (S := S) hst ha with ⟨-, hst', h'⟩ | ⟨-, -, -, hst', h'⟩ | ⟨-, -, -, hst', h'⟩
      · rw [Bus, hst']
        exact ⟨_, h'⟩
      · rw [Bus, hst']
        exact h'
      · rw [Bus, hst']
        exact ⟨0, h'⟩
  | uncachedBoot =>
      rw [Bus, hst] at h
      rcases BusQuiet.next_uncached (S := S) h ha hst with ⟨hst', -, h'⟩ | ⟨hst', -, h'⟩
      · rw [Bus, hst']
        exact h'
      · rw [Bus, hst']
        exact ⟨0, h'⟩
  | uncachedRead =>
      rw [Bus, hst] at h
      rcases BusUncachedRead.next (S := S) h hst ha with ⟨-, hst', h'⟩ | ⟨-, hst', h'⟩
      · rw [Bus, hst']
        exact h'
      · rw [Bus, hst']
        exact h'
  | uncachedWrite =>
      rw [Bus, hst] at h
      obtain ⟨k, hk⟩ := h
      rcases hk.next (S := S) hst ha with ⟨-, hst', h'⟩ | ⟨-, -, hst', h'⟩
      · rw [Bus, hst']
        exact ⟨_, h'⟩
      · rw [Bus, hst']
        exact h'

end Dcache

end NanoCpu
