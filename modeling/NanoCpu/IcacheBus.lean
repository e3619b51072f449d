/-
**The I-cache on the bus.**

The I-cache only reads.  It has at most one burst on the bus: a refill reads a line in one burst of
eight beats, an uncached fetch reads a window in four bursts of one beat, and the next of these is
asked for in the cycle in which the last one is answered.  This holds whatever is fetched, killed
and invalidated, and however long the memory takes.

Main definitions:

* `Icache.BusQuiet`, `Icache.BusRefill`, `Icache.BusUncached` — the bus in the different states;
* `Icache.Bus` — the invariant;
* `Icache.machine` — the cache with a memory behind it.

Main results:

* `Icache.BusRefill.next`, `Icache.BusUncached.next` — what one cycle of a burst does;
* `Icache.Bus.next` — the invariant is kept.
-/

import NanoCpu.Icache
import NanoCpu.Machine

set_option relaxedAutoImplicit false
set_option autoImplicit false
set_option linter.unusedSectionVars false

namespace NanoCpu

namespace Icache

variable {n : ℕ} [NeZero n] {S : ℕ} {s : Icache n} {m : AxiMem} {x : IcIn n}

/-! ### The registers -/

theorem next_arValid : (s.next S x).arValid = (s.arSet x || (s.arValid && !x.axi.arReady)) := by
  change ldff _ _ _ = _
  rw [arClr]
  cases s.arSet x <;> cases s.arValid <;> cases x.axi.arReady <;> rfl

theorem next_arAddr_of_arSet (h : s.arSet x = false) : (s.next S x).arAddr = s.arAddr := by
  change ldff (s.arSet x) _ _ = _
  rw [h]
  rfl

theorem pCe_of_state (h : s.state ≠ .idle) : s.pCe x = false := by
  simp [pCe, stallReq, fsmIdle, h]

/-- The request in the second stage stays while the pipeline is stalled. -/
theorem next_s2oPaddr (h : s.pCe x = false) : (s.next S x).s2oPaddr = s.s2oPaddr := by
  change ldff (s.pCe x) _ _ = _
  rw [h]
  rfl

/-- A refill follows the choice of a victim. -/
theorem of_next_refill (h : (s.next S x).state = .refill) :
    s.state = .replace ∨ s.state = .refill := by
  change s.stateNxt S x = _ at h
  cases hs : s.state <;> simp only [stateNxt, hs] at h <;> (try split_ifs at h) <;> simp_all

theorem of_next_reload (h : (s.next S x).state = .reload) : s.state = .refill := by
  change s.stateNxt S x = _ at h
  cases hs : s.state <;> simp only [stateNxt, hs] at h <;> (try split_ifs at h) <;> simp_all

theorem of_next_invalidate (h : (s.next S x).state = .invalidate) :
    s.state = .idle ∧ x.invWe = true := by
  change s.stateNxt S x = _ at h
  cases hs : s.state <;> simp only [stateNxt, hs] at h <;> (try split_ifs at h) <;> simp_all

theorem of_next_boot (h : (s.next S x).state = .boot) : s.state = .boot := by
  change s.stateNxt S x = _ at h
  cases hs : s.state <;> simp only [stateNxt, hs] at h <;> (try split_ifs at h) <;> simp_all

/-! ### The invariant of the bus -/

/-- No burst is going on, and the counters are at their start. -/
structure BusQuiet (s : Icache n) (m : AxiMem) : Prop where
  read : m.NoRead s.axiOut
  refillCnt : s.refillCnt = 0
  uncachedCnt : s.uncachedCnt = 0

/-- A line is read, and `c` of its beats have come. -/
structure BusRefill (s : Icache n) (m : AxiMem) (c : ℕ) : Prop where
  read : m.Reads s.axiOut ⟨s.arAddr, 7, 3⟩ c
  addr : s.arAddr = s.s2oPaddr.toNat / 64 * 64
  refillCnt : s.refillCnt = 8 * c
  uncachedCnt : s.uncachedCnt = 0

/-- A window is read around the cache, and `k` of its words have come. -/
structure BusUncached (s : Icache n) (m : AxiMem) (k : ℕ) : Prop where
  read : m.Reads s.axiOut ⟨s.arAddr, 0, 2⟩ 0
  addr : s.arAddr = s.s2oPaddr.toNat / 16 * 16 + 4 * k
  lt : k < 4
  refillCnt : s.refillCnt = 0
  uncachedCnt : s.uncachedCnt = 4 * k

/-- What is going on on the bus, by the state of the state machine. -/
def Reading (s : Icache n) (m : AxiMem) : Prop :=
  match s.state with
  | .refill => ∃ c, s.BusRefill m c
  | .uncachedRead => ∃ k, s.BusUncached m k
  | _ => s.BusQuiet m

structure Bus (s : Icache n) (m : AxiMem) : Prop where
  write : m.NoWrite s.axiOut
  reading : s.Reading m

theorem bus_reset (tagV : Fin n → ℕ → ℕ × Bool) (pay : Fin n → ℕ × ℕ → ℕ → Byte) (mem : ℕ → Byte) :
    (reset tagV pay).Bus (AxiMem.idle mem) :=
  ⟨⟨rfl, rfl, rfl, rfl, rfl⟩, ⟨rfl, rfl⟩, rfl, rfl⟩

theorem reading_of_quiet (hq : s.BusQuiet m) (h : s.state ≠ .refill ∧ s.state ≠ .uncachedRead) :
    s.Reading m := by
  rw [Reading]
  cases hst : s.state <;> simp_all

theorem Bus.quiet (h : s.Bus m) (hst : s.state ≠ .refill ∧ s.state ≠ .uncachedRead) :
    s.BusQuiet m := by
  have hr := h.reading
  rw [Reading] at hr
  cases hs : s.state <;> simp_all

/-! ### One cycle -/

/-- A cycle without a request to the bus keeps it quiet. -/
theorem BusQuiet.next (h : s.BusQuiet m) (ha : m.Answers x.axi) (har : s.arSet x = false)
    (hst : s.state ≠ .refill ∧ s.state ≠ .uncachedRead) :
    (s.next S x).BusQuiet (m.next s.axiOut x.axi) := by
  have hv : s.arValid = false := h.read.arValid
  refine ⟨h.read.next ha ?_, ?_, ?_⟩
  · change (s.next S x).arValid = false
    rw [next_arValid, har, hv]
    rfl
  · change s.refillCntNxt x = 0
    simp [refillCntNxt, hst.1, h.refillCnt]
  · change s.uncachedCntNxt x = 0
    simp [uncachedCntNxt, hst.2, h.uncachedCnt]

/-- The cycle that asks for a line. -/
theorem BusQuiet.next_replace (h : s.BusQuiet m) (ha : m.Answers x.axi) (hst : s.state = .replace) :
    (s.next S x).state = .refill ∧ (s.next S x).BusRefill (m.next s.axiOut x.axi) 0 := by
  have hst' : (s.next S x).state = .refill := by
    change s.stateNxt S x = _
    simp [stateNxt, hst]
  have har : s.arSet x = true := by simp [arSet, hst]
  have hpa : (s.next S x).s2oPaddr = s.s2oPaddr := next_s2oPaddr (pCe_of_state (by simp [hst]))
  have hread : (m.next s.axiOut x.axi).Reads (s.next S x).axiOut (s.next S x).axiOut.ar 0 := by
    refine h.read.start ha ?_
    change (s.next S x).arValid = true
    rw [next_arValid, har, Bool.true_or]
  refine ⟨hst', ?_, ?_, ?_, ?_⟩
  · simpa [axiOut, hst'] using hread
  · rw [hpa]
    change ldff (s.arSet x) (s.axiPaddrNxt x) _ = _
    rw [har, ldff_true]
    simp [axiPaddrNxt, fsmUncachedRdReq, hst]
  · change s.refillCntNxt x = 8 * 0
    simp [refillCntNxt, hst, h.refillCnt]
  · change s.uncachedCntNxt x = 0
    simp [uncachedCntNxt, hst, h.uncachedCnt]

/-- The cycle that asks for the first word of an uncached window. -/
theorem BusQuiet.next_uncached (h : s.BusQuiet m) (ha : m.Answers x.axi)
    (hst : s.state = .uncachedBoot) :
    (s.next S x).state = .uncachedRead ∧ (s.next S x).BusUncached (m.next s.axiOut x.axi) 0 := by
  have hst' : (s.next S x).state = .uncachedRead := by
    change s.stateNxt S x = _
    simp [stateNxt, hst]
  have hrq : s.fsmUncachedRdReq x = true := by simp [fsmUncachedRdReq, hst]
  have har : s.arSet x = true := by simp [arSet, hrq]
  have hpa : (s.next S x).s2oPaddr = s.s2oPaddr := next_s2oPaddr (pCe_of_state (by simp [hst]))
  have hcnt : s.uncachedCntNxt x = 0 := by simp [uncachedCntNxt, hst, h.uncachedCnt]
  have hread : (m.next s.axiOut x.axi).Reads (s.next S x).axiOut (s.next S x).axiOut.ar 0 := by
    refine h.read.start ha ?_
    change (s.next S x).arValid = true
    rw [next_arValid, har, Bool.true_or]
  refine ⟨hst', ?_, ?_, by omega, ?_, hcnt⟩
  · simpa [axiOut, hst'] using hread
  · rw [hpa]
    change ldff (s.arSet x) (s.axiPaddrNxt x) _ = _
    rw [har, ldff_true, axiPaddrNxt, hrq, if_pos rfl, hcnt]
  · change s.refillCntNxt x = 0
    simp [refillCntNxt, hst, h.refillCnt]

/-- A cycle of a refill. -/
theorem BusRefill.next {c : ℕ} (h : s.BusRefill m c) (hst : s.state = .refill)
    (ha : m.Answers x.axi) : (s.hdsAxiR x = false ∧ (s.next S x).state = .refill ∧
        (s.next S x).BusRefill (m.next s.axiOut x.axi) c) ∨
      (s.hdsAxiR x = true ∧ c < 7 ∧ (s.next S x).state = .refill ∧
        (s.next S x).BusRefill (m.next s.axiOut x.axi) (c + 1)) ∨
      (s.hdsAxiR x = true ∧ c = 7 ∧ (s.next S x).state = .reload ∧
        (s.next S x).BusQuiet (m.next s.axiOut x.axi)) := by
  have har : s.arSet x = false := by simp [arSet, fsmUncachedRdReq, hst]
  have hv : (s.next S x).arValid = (s.arValid && !x.axi.arReady) := by
    rw [next_arValid, har, Bool.false_or]
  have haddr : (s.next S x).arAddr = s.arAddr := next_arAddr_of_arSet har
  have hpa : (s.next S x).s2oPaddr = s.s2oPaddr := next_s2oPaddr (pCe_of_state (by simp [hst]))
  have hle : c ≤ 7 := h.read.le
  have hdef : s.hdsAxiR x = (x.axi.rValid && s.axiOut.rReady) := rfl
  have hstn : (s.next S x).state = if s.hdsAxiRLast x then .reload else .refill := by
    change s.stateNxt S x = _
    simp [stateNxt, hst]
  have hcnt : (s.next S x).refillCnt = if s.hdsAxiR x then (s.refillCnt + 8) % 64 else
      s.refillCnt := by
    change s.refillCntNxt x = _
    simp [refillCntNxt, hst]
  have hunc : (s.next S x).uncachedCnt = 0 := by
    change s.uncachedCntNxt x = 0
    simp [uncachedCntNxt, hst, h.uncachedCnt]
  cases hr : s.hdsAxiR x with
  | false =>
      have hst' : (s.next S x).state = .refill := by simp [hstn, hdsAxiRLast, hr]
      refine Or.inl
        ⟨rfl, hst', ?_, by rw [haddr, hpa, h.addr], by rw [hcnt, hr, h.refillCnt]; rfl, hunc⟩
      rw [haddr]
      exact h.read.next_wait (by rw [← hdef, hr]) hv fun _ => by simp [axiOut, hst', haddr]
  | true =>
      obtain ⟨hv₀, hlast, -⟩ := h.read.data ha (by
        rw [hdef, Bool.and_eq_true] at hr
        exact hr.1)
      have hv' : (s.next S x).axiOut.arValid = false := by
        change (s.next S x).arValid = false
        rw [hv, show s.arValid = false from hv₀]
        rfl
      have hcnt' : (s.next S x).refillCnt = (8 * c + 8) % 64 := by rw [hcnt, hr, h.refillCnt]; rfl
      right
      cases hlr : x.axi.rLast with
      | false =>
          have hst' : (s.next S x).state = .refill := by simp [hstn, hdsAxiRLast, hr, hlr]
          have hne : c ≠ 7 := by
            rw [hlr] at hlast
            simpa using hlast
          refine Or.inl
            ⟨rfl, by omega, hst', ?_, by rw [haddr, hpa, h.addr], by rw [hcnt']; omega, hunc⟩
          rw [haddr]
          exact h.read.next_beat ha (by rw [← hdef, hr]) hlr hv'
      | true =>
          have hst' : (s.next S x).state = .reload := by simp [hstn, hdsAxiRLast, hr, hlr]
          obtain ⟨hc, hq⟩ := h.read.next_last ha (by rw [← hdef, hr]) hlr hv'
          refine Or.inr ⟨rfl, hc, hst', hq, ?_, hunc⟩
          rw [hcnt', show c = 7 from hc]

/-- A cycle of an uncached fetch. -/
theorem BusUncached.next {k : ℕ} (h : s.BusUncached m k) (hst : s.state = .uncachedRead)
    (ha : m.Answers x.axi) :
    (s.hdsAxiR x = false ∧ (s.next S x).state = .uncachedRead ∧
        (s.next S x).BusUncached (m.next s.axiOut x.axi) k) ∨
      (s.hdsAxiR x = true ∧ k < 3 ∧ (s.next S x).state = .uncachedRead ∧
        (s.next S x).BusUncached (m.next s.axiOut x.axi) (k + 1)) ∨
      (s.hdsAxiR x = true ∧ k = 3 ∧ (s.next S x).state = .idle ∧
        (s.next S x).BusQuiet (m.next s.axiOut x.axi)) := by
  have hk := h.lt
  have hrq : s.fsmUncachedRdReq x = (decide (k < 3) && s.hdsAxiR x) := by
    simp only [fsmUncachedRdReq, hst, h.uncachedCnt]
    congr 1
    rw [← decide_not, decide_eq_decide]
    omega
  have har : s.arSet x = s.fsmUncachedRdReq x := by simp [arSet, hst]
  have hpa : (s.next S x).s2oPaddr = s.s2oPaddr := next_s2oPaddr (pCe_of_state (by simp [hst]))
  have hdef : s.hdsAxiR x = (x.axi.rValid && s.axiOut.rReady) := rfl
  have hstn : (s.next S x).state = if 3 ≤ k ∧ s.hdsAxiR x = true then .idle else .uncachedRead := by
    change s.stateNxt S x = _
    have : (16 ≤ s.uncachedCnt + 4) ↔ 3 ≤ k := by
      rw [h.uncachedCnt]
      omega
    simp [stateNxt, hst, this]
  have hcnt : (s.next S x).uncachedCnt = if s.hdsAxiR x then (4 * k + 4) % 16 else 4 * k := by
    change s.uncachedCntNxt x = _
    simp [uncachedCntNxt, hst, h.uncachedCnt]
  have href : (s.next S x).refillCnt = 0 := by
    change s.refillCntNxt x = 0
    simp [refillCntNxt, hst, h.refillCnt]
  cases hr : s.hdsAxiR x with
  | false =>
      have hst' : (s.next S x).state = .uncachedRead := by simp [hstn, hr]
      have har' : s.arSet x = false := by rw [har, hrq, hr, Bool.and_false]
      have haddr : (s.next S x).arAddr = s.arAddr := next_arAddr_of_arSet har'
      have hv : (s.next S x).arValid = (s.arValid && !x.axi.arReady) := by
        rw [next_arValid, har', Bool.false_or]
      refine Or.inl ⟨rfl, hst', ?_, by rw [haddr, hpa, h.addr], hk, href, by rw [hcnt, hr]; rfl⟩
      rw [haddr]
      exact h.read.next_wait (by rw [← hdef, hr]) hv fun _ => by simp [axiOut, hst', haddr]
  | true =>
      obtain ⟨hv₀, hlast, -⟩ := h.read.data ha (by
        rw [hdef, Bool.and_eq_true] at hr
        exact hr.1)
      have hlr : x.axi.rLast = true := by simpa using hlast
      right
      by_cases h3 : k < 3
      · have hst' : (s.next S x).state = .uncachedRead := by
          rw [hstn, if_neg (by omega)]
        have har' : s.arSet x = true := by rw [har, hrq, hr, decide_eq_true h3]; rfl
        have hv : (s.next S x).axiOut.arValid = true := by
          change (s.next S x).arValid = true
          rw [next_arValid, har', Bool.true_or]
        have hread := h.read.next_again ha (by rw [← hdef, hr]) hlr hv
        refine Or.inl ⟨rfl, h3, hst', ?_, ?_, by omega, href, ?_⟩
        · simpa [axiOut, hst'] using hread
        · rw [hpa]
          change ldff (s.arSet x) (s.axiPaddrNxt x) _ = _
          have hc : s.uncachedCntNxt x = (4 * k + 4) % 16 := by
            rw [show s.uncachedCntNxt x = (s.next S x).uncachedCnt from rfl, hcnt, hr]
            rfl
          rw [har', ldff_true, axiPaddrNxt, ← har, har', if_pos rfl, hc]
          omega
        · rw [hcnt, hr, if_pos rfl]
          omega
      · have hk3 : k = 3 := by omega
        have hst' : (s.next S x).state = .idle := by
          rw [hstn, if_pos ⟨by omega, hr⟩]
        have har' : s.arSet x = false := by rw [har, hrq, decide_eq_false h3, Bool.false_and]
        have hv : (s.next S x).axiOut.arValid = false := by
          change (s.next S x).arValid = false
          rw [next_arValid, har', show s.arValid = false from hv₀]
          rfl
        refine Or.inr ⟨rfl, hk3, hst', (h.read.next_last ha (by rw [← hdef, hr]) hlr hv).2, href,
          ?_⟩
        rw [hcnt, hr, hk3]
        rfl

/-- **The I-cache keeps to the rules of the bus**, whatever is fetched, killed and invalidated. -/
theorem Bus.next (h : s.Bus m) (ha : m.Answers x.axi) :
    (s.next S x).Bus (m.next s.axiOut x.axi) := by
  refine ⟨h.write.next ha rfl rfl, ?_⟩
  have hr := h.reading
  have hstn : (s.next S x).state = s.stateNxt S x := rfl
  -- the states in which the bus is quiet and stays so
  have quiet : s.BusQuiet m → (s.state ≠ .refill ∧ s.state ≠ .uncachedRead) → s.arSet x = false →
      (s.stateNxt S x ≠ .refill ∧ s.stateNxt S x ≠ .uncachedRead) →
        (s.next S x).Reading (m.next s.axiOut x.axi) :=
    fun hq h₀ h₁ h₂ => reading_of_quiet (hq.next ha h₁ h₀) h₂
  cases hst : s.state with
  | boot =>
      refine quiet (h.quiet (by simp [hst])) (by simp [hst])
        (by simp [arSet, fsmUncachedRdReq, hst]) ?_
      simp only [stateNxt, hst]
      split_ifs <;> simp
  | idle =>
      refine quiet (h.quiet (by simp [hst])) (by simp [hst])
        (by simp [arSet, fsmUncachedRdReq, hst]) ?_
      simp only [stateNxt, hst]
      split_ifs <;> simp
  | invalidate =>
      refine quiet (h.quiet (by simp [hst])) (by simp [hst])
        (by simp [arSet, fsmUncachedRdReq, hst]) ?_
      simp only [stateNxt, hst]
      split_ifs <;> simp
  | reload =>
      exact quiet (h.quiet (by simp [hst])) (by simp [hst]) (by simp [arSet, fsmUncachedRdReq, hst])
        (by simp [stateNxt, hst])
  | replace =>
      obtain ⟨hst', h'⟩ := BusQuiet.next_replace (S := S) (h.quiet (by simp [hst])) ha hst
      rw [Reading, hst']
      exact ⟨0, h'⟩
  | uncachedBoot =>
      obtain ⟨hst', h'⟩ := BusQuiet.next_uncached (S := S) (h.quiet (by simp [hst])) ha hst
      rw [Reading, hst']
      exact ⟨0, h'⟩
  | refill =>
      rw [Reading, hst] at hr
      obtain ⟨c, hc⟩ := hr
      rcases hc.next (S := S) hst ha with ⟨-, hst', h'⟩ | ⟨-, -, hst', h'⟩ | ⟨-, -, hst', h'⟩
      · rw [Reading, hst']
        exact ⟨c, h'⟩
      · rw [Reading, hst']
        exact ⟨c + 1, h'⟩
      · rw [Reading, hst']
        exact h'
  | uncachedRead =>
      rw [Reading, hst] at hr
      obtain ⟨k, hk⟩ := hr
      rcases hk.next (S := S) hst ha with ⟨-, hst', h'⟩ | ⟨-, -, hst', h'⟩ | ⟨-, -, hst', h'⟩
      · rw [Reading, hst']
        exact ⟨k, h'⟩
      · rw [Reading, hst']
        exact ⟨k + 1, h'⟩
      · rw [Reading, hst']
        exact h'

/-- The I-cache with a memory behind it. -/
def machine (n : ℕ) [NeZero n] (S : ℕ) (tagV : Fin n → ℕ → ℕ × Bool)
    (pay : Fin n → ℕ × ℕ → ℕ → Byte) (m₀ : ℕ → Byte) : Machine (Icache n × AxiMem) (IcIn n) where
  reset := (reset tagV pay, AxiMem.idle m₀)
  allowed q x := q.2.Answers x.axi
  next q x := (q.1.next S x, q.2.next q.1.axiOut x.axi)

end Icache

end NanoCpu
