/-
**The timer** (`rtl/core/cmt_tsc.v`) **beside the timer of the reference model** (`em/csrc/tsc.cc`).

The time-stamp counter `TSR` counts while it is enabled, and raises an interrupt when its low bits
are those of the control register `TCR`.  In the circuit a write of `TCR` is seen in its own cycle,
and the pending bit is the interrupt line itself; in the emulator the pending bit is a field of its
own.

Main definitions:

* `Tsc`, `TscIn`, `Tsc.next` — the circuit;
* `TscOp`, `TscStep` — a write of a cycle, and whether the emulator does it before its tick or after
  it;
* `Em.MsrCpu.tscCycle` — the cycle in the emulator;
* `Tsc.Agree` — the interrupt line and the values that are read are the same;
* `Tsc.Keeps` — the cycles that keep the two together.

Main results:

* `Tsc.agree_next_iff` — one cycle;
* `Tsc.agree_run_iff` — whole runs: the timers agree all along exactly if every cycle is one of
  those that keep them together;
* `Tsc.disabled_timer_fires` — a disabled timer on its compare value raises an interrupt in the
  circuit only.
-/

import NanoCpu.EmMsr
import NanoCpu.Machine

set_option relaxedAutoImplicit false
set_option autoImplicit false

namespace NanoCpu

/-! ### The circuit -/

structure Tsc where
  tcrFf : Word
  tsr : Word
  irq : Bool

/-- The writes of the exception unit. -/
structure TscIn where
  tsrWe : Bool
  tsrNxt : Word
  tcrWe : Bool
  tcrNxt : Word

namespace Tsc

def reset : Tsc := ⟨0, 0, false⟩

variable (s : Tsc) (x : TscIn)

/-- `msr_tsc_tcr_ff`: the pending bit is the interrupt line. -/
def msrTcrFf : Word := s.tcrFf.extractLsb' 31 1 ++ BitVec.ofBool s.irq ++ s.tcrFf.extractLsb' 0 30

/-- `msr_tsc_tcr`: a write is bypassed. -/
def msrTcr : Word := if x.tcrWe then x.tcrNxt else s.msrTcrFf

def tcrCnt : BitVec 28 := (s.msrTcr x).extractLsb' 0 28

def tcrEn : Bool := (s.msrTcr x).getLsbD 28

def tcrI : Bool := (s.msrTcr x).getLsbD 29

def tcrP : Bool := (s.msrTcr x).getLsbD 30

def irqSet : Bool := s.tsr.extractLsb' 0 28 == s.tcrCnt x && s.tcrI x

def irqClr : Bool := x.tcrWe && !s.tcrP x

def next : Tsc where
  tcrFf := ldff x.tcrWe x.tcrNxt s.tcrFf
  tsr := ldff (x.tsrWe || s.tcrEn x) (if x.tsrWe then x.tsrNxt else s.tsr + 1) s.tsr
  irq := ldff (s.irqSet x || s.irqClr x) (s.irqSet x && !s.irqClr x) s.irq

end Tsc

/-! ### Cycles at both levels -/

/-- The write of a cycle: one of the two registers, or none. -/
inductive TscOp
  | idle
  | tsr (val : Word)
  | tcr (val : Word)
  deriving DecidableEq

/-- A cycle.  The circuit writes and counts at the same edge; `first` says that the emulator writes
before the tick that belongs to this edge, and not after it. -/
structure TscStep where
  op : TscOp
  first : Bool
  deriving DecidableEq

def TscOp.toIn : TscOp → TscIn
  | idle => ⟨false, 0, false, 0⟩
  | tsr v => ⟨true, v, false, 0⟩
  | tcr v => ⟨false, 0, true, v⟩

def Tsc.cycle (s : Tsc) (x : TscStep) : Tsc := s.next x.op.toIn

namespace Em

/-- The cases `MSR_TSR` and `MSR_TCR` of `CPU::wmsr`. -/
def MsrCpu.tscWrite (C : MsrConfig) (K : CacheCode) (c : MsrCpu) : TscOp → MsrCpu
  | .idle => c
  | .tsr v => c.setMsr C K .tsr v
  | .tcr v => c.setMsr C K .tcr v

/-- A cycle: a tick, and the write before or after it. -/
def MsrCpu.tscCycle (C : MsrConfig) (K : CacheCode) (c : MsrCpu) (x : TscStep) : MsrCpu :=
  if x.first then (c.tscWrite C K x.op).tscClk C else (c.tscClk C).tscWrite C K x.op

/-! ### The timer of the emulator -/

variable {c : MsrCpu} {C : MsrConfig} {K : CacheCode}

theorem MsrCpu.irqcSetInterrupt_getLsbD (c : MsrCpu) {ch : ℕ} (h : ch < 32) (b : Bool) :
    (c.irqcSetInterrupt ch b).irr.getLsbD ch = b := by
  cases b <;> simp [irqcSetInterrupt, h]

/-- The counter matches, is enabled, and may interrupt. -/
def MsrCpu.tscHit (c : MsrCpu) : Bool :=
  c.tcr.en && (c.tcr.i && (c.tsr &&& 0x0fffffff) == c.tcr.cnt)

theorem MsrCpu.tscClk_tsr : (c.tscClk C).tsr = if c.tcr.en then c.tsr + 1 else c.tsr := by
  rw [tscClk]
  split_ifs <;> simp [tscUpdateTcr, irqcSetInterrupt] ; split_ifs <;> rfl

theorem MsrCpu.tscClk_tcr : (c.tscClk C).tcr = { c.tcr with p := c.tcr.p || c.tscHit } := by
  rw [tscClk, tscHit]
  cases he : c.tcr.en with
  | false => simp
  | true =>
      cases hh : c.tcr.i && (c.tsr &&& 0x0fffffff) == c.tcr.cnt with
      | false => simp
      | true =>
          simp only [if_true, tscUpdateTcr, irqcSetInterrupt]
          split_ifs <;> simp

theorem MsrCpu.tscClk_line (h : C.irqTsc < 32) :
    (c.tscClk C).irr.getLsbD C.irqTsc = (c.irr.getLsbD C.irqTsc || c.tscHit) := by
  rw [tscClk, tscHit]
  cases he : c.tcr.en with
  | false => simp
  | true =>
      cases hh : c.tcr.i && (c.tsr &&& 0x0fffffff) == c.tcr.cnt with
      | false => simp
      | true =>
          have hi : c.tcr.i = true := (Bool.and_eq_true _ _ ▸ hh).1
          simp only [if_true, tscUpdateTcr]
          rw [irqcSetInterrupt_getLsbD _ h]
          simp [hi]

/-- The field CNT fits, or the timer does not look at it. -/
def TcrS.CntOk (t : TcrS) : Prop := t.en = true → t.cnt &&& 0x0fffffff = t.cnt

theorem TcrS.cntOk_unpack (v : Word) : (TcrS.unpack v).CntOk := by
  intro _
  simp [unpack, BitVec.and_assoc]

theorem MsrCpu.tscHit_iff (h : c.tcr.CntOk) :
    c.tscHit = true ↔ c.tcr.en = true ∧ c.tcr.i = true ∧
      c.tsr.extractLsb' 0 28 = c.tcr.cnt.extractLsb' 0 28 := by
  simp only [tscHit, Bool.and_eq_true, beq_iff_eq]
  constructor
  · rintro ⟨he, hi, hm⟩
    rw [← h he] at hm
    exact ⟨he, hi, (and_cntMask_eq_iff _ _).1 hm⟩
  · rintro ⟨he, hi, hm⟩
    refine ⟨he, hi, ?_⟩
    rw [← h he]
    exact (and_cntMask_eq_iff _ _).2 hm

theorem MsrCpu.tscWrite_tcr (v : Word) :
    (c.tscWrite C K (.tcr v)).tcr = TcrS.unpack v ∧ (c.tscWrite C K (.tcr v)).tsr = c.tsr := by
  simp only [tscWrite, setMsr, tscUpdateTcr, irqcSetInterrupt]
  constructor <;> split_ifs <;> rfl

theorem MsrCpu.tscWrite_tcr_line (h : C.irqTsc < 32) (v : Word) :
    (c.tscWrite C K (.tcr v)).irr.getLsbD C.irqTsc = (v.getLsbD 30 && v.getLsbD 29) :=
  irqcSetInterrupt_getLsbD _ h _

theorem MsrCpu.cntOk_tscWrite (h : c.tcr.CntOk) (x : TscOp) : (c.tscWrite C K x).tcr.CntOk := by
  cases x with
  | idle => exact h
  | tsr v => exact h
  | tcr v =>
      rw [(tscWrite_tcr v).1]
      exact TcrS.cntOk_unpack v

theorem MsrCpu.cntOk_tscClk (h : c.tcr.CntOk) : (c.tscClk C).tcr.CntOk := by
  rw [tscClk_tcr]
  exact h

theorem MsrCpu.cntOk_tscCycle (h : c.tcr.CntOk) (x : TscStep) : (c.tscCycle C K x).tcr.CntOk := by
  rw [tscCycle]
  split_ifs
  · exact cntOk_tscClk (cntOk_tscWrite h x.op)
  · exact cntOk_tscWrite (cntOk_tscClk h) x.op

theorem MsrCpu.cntOk_run (h : c.tcr.CntOk) (l : List TscStep) :
    (l.foldl (MsrCpu.tscCycle C K) c).tcr.CntOk := by
  induction l generalizing c with
  | nil => exact h
  | cons x l ih => exact ih (cntOk_tscCycle h x)

end Em

namespace Tsc

variable {C : Em.MsrConfig} {K : Em.CacheCode} {s : Tsc} {c : Em.MsrCpu}

/-- The interrupt line is the same, and so are `TSR` and the fields CNT, EN, I and P of `TCR` as
RMSR reads them. -/
structure Agree (C : Em.MsrConfig) (s : Tsc) (c : Em.MsrCpu) : Prop where
  line : s.irq = c.irr.getLsbD C.irqTsc
  tsr : s.tsr = c.getMsr C .tsr
  tcr : s.msrTcrFf.extractLsb' 0 31 = (c.getMsr C .tcr).extractLsb' 0 31

/-- The counter is on the compare value. -/
def Match (s : Tsc) (tcr : Word) : Prop := s.tsr.extractLsb' 0 28 = tcr.extractLsb' 0 28

/-- The timer is disabled on its compare value, with its interrupt enabled and not yet pending. -/
def Stuck (s : Tsc) : Prop :=
  s.tcrFf.getLsbD 28 = false ∧ s.tcrFf.getLsbD 29 = true ∧ s.Match s.tcrFf ∧ s.irq = false

instance (s : Tsc) (v : Word) : Decidable (s.Match v) :=
  inferInstanceAs (Decidable (s.tsr.extractLsb' 0 28 = v.extractLsb' 0 28))

instance (s : Tsc) : Decidable s.Stuck :=
  inferInstanceAs (Decidable (_ ∧ _ ∧ _ ∧ _))

/-- The cycles that keep the two timers together.  The timer must not be stuck in a cycle that does
not write `TCR`.  A write of `TSR` comes after the tick, or the counter is off.  A write of `TCR`
that sets the pending bit has the interrupt enabled, and comes where the interrupt is pending or is
just being raised; one that clears it comes after a tick and leaves the counter on or off, or before
a tick that raises no interrupt. -/
def Keeps (s : Tsc) (x : TscStep) : Prop :=
  match x.op with
  | .idle => ¬ s.Stuck
  | .tsr _ => ¬ s.Stuck ∧ (x.first = true → s.tcrFf.getLsbD 28 = false)
  | .tcr v =>
      (v.getLsbD 30 = true → v.getLsbD 29 = true ∧ (s.irq = true ∨ s.Match v)) ∧
        if x.first then
          v.getLsbD 30 = false → ¬ (v.getLsbD 28 = true ∧ v.getLsbD 29 = true ∧ s.Match v)
        else v.getLsbD 28 = s.tcrFf.getLsbD 28

instance (s : Tsc) (x : TscStep) : Decidable (s.Keeps x) :=
  match x with
  | ⟨.idle, _⟩ => inferInstanceAs (Decidable (¬ s.Stuck))
  | ⟨.tsr _, b⟩ => inferInstanceAs (Decidable (¬ s.Stuck ∧ (b = true → s.tcrFf.getLsbD 28 = false)))
  | ⟨.tcr v, b⟩ =>
      inferInstanceAs (Decidable
        ((v.getLsbD 30 = true → v.getLsbD 29 = true ∧ (s.irq = true ∨ s.Match v)) ∧
          if b then
            v.getLsbD 30 = false → ¬ (v.getLsbD 28 = true ∧ v.getLsbD 29 = true ∧ s.Match v)
          else v.getLsbD 28 = s.tcrFf.getLsbD 28))

/-! ### The fields of the control register -/

theorem msrTcrFf_getLsbD (s : Tsc) {j : ℕ} (hj : j < 31) :
    s.msrTcrFf.getLsbD j = if j = 30 then s.irq else s.tcrFf.getLsbD j := by
  simp only [msrTcrFf, BitVec.getLsbD_append, BitVec.getLsbD_extractLsb']
  by_cases h : j = 30
  · subst h
    simp
  · simp [h, show j < 30 by omega]

theorem tcr_eq_iff (s : Tsc) (t : Em.TcrS) :
    s.msrTcrFf.extractLsb' 0 31 = t.pack.extractLsb' 0 31 ↔
      s.tcrFf.extractLsb' 0 28 = t.cnt.extractLsb' 0 28 ∧ s.tcrFf.getLsbD 28 = t.en ∧
        s.tcrFf.getLsbD 29 = t.i ∧ s.irq = t.p := by
  rw [Em.low_eq_iff, Em.low_eq_iff]
  constructor
  · intro h
    refine ⟨fun j hj => ?_, ?_, ?_, ?_⟩
    · have := h j (by omega)
      rwa [msrTcrFf_getLsbD s (by omega), Em.TcrS.pack_getLsbD, if_neg (by omega),
        if_pos hj] at this
    · have := h 28 (by decide)
      rw [msrTcrFf_getLsbD s (by decide), Em.TcrS.pack_getLsbD] at this
      simpa using this
    · have := h 29 (by decide)
      rw [msrTcrFf_getLsbD s (by decide), Em.TcrS.pack_getLsbD] at this
      simpa using this
    · have := h 30 (by decide)
      rw [msrTcrFf_getLsbD s (by decide), Em.TcrS.pack_getLsbD] at this
      simpa using this
  · rintro ⟨hc, he, hi, hp⟩ j hj
    rw [msrTcrFf_getLsbD s hj, Em.TcrS.pack_getLsbD]
    by_cases h28 : j < 28
    · rw [if_neg (by omega), if_pos h28]
      exact hc j h28
    · rcases (by omega : j = 28 ∨ j = 29 ∨ j = 30) with rfl | rfl | rfl
      · simpa using he
      · simpa using hi
      · simpa using hp

/-! ### One cycle -/

/-- The timers agree field by field. -/
theorem agree_iff : Agree C s c ↔
    s.irq = c.irr.getLsbD C.irqTsc ∧ s.tsr = c.tsr ∧
      s.tcrFf.extractLsb' 0 28 = c.tcr.cnt.extractLsb' 0 28 ∧ s.tcrFf.getLsbD 28 = c.tcr.en ∧
        s.tcrFf.getLsbD 29 = c.tcr.i ∧ s.irq = c.tcr.p := by
  constructor
  · rintro ⟨hl, ht, hc⟩
    exact ⟨hl, ht, (tcr_eq_iff s c.tcr).1 hc⟩
  · rintro ⟨hl, ht, hc⟩
    exact ⟨hl, ht, (tcr_eq_iff s c.tcr).2 hc⟩

/-- A cycle without a write of `TCR`. -/
theorem next_of_not_tcrWe {x : TscIn} (hx : x.tcrWe = false) :
    (s.next x).tcrFf = s.tcrFf ∧
      (s.next x).irq = (s.irq || (s.tsr.extractLsb' 0 28 == s.tcrFf.extractLsb' 0 28 &&
        s.tcrFf.getLsbD 29)) ∧
      (s.next x).tsr = if x.tsrWe then x.tsrNxt else if s.tcrFf.getLsbD 28 then s.tsr + 1 else
        s.tsr := by
  have hf : s.msrTcr x = s.msrTcrFf := by simp [msrTcr, hx]
  have hc : s.tcrCnt x = s.tcrFf.extractLsb' 0 28 := by
    rw [tcrCnt, hf]
    apply BitVec.eq_of_getLsbD_eq
    intro j hj
    simp [hj, msrTcrFf_getLsbD s (by omega : j < 31), show j ≠ 30 by omega]
  have he : s.tcrEn x = s.tcrFf.getLsbD 28 := by
    rw [tcrEn, hf, msrTcrFf_getLsbD s (by decide)]
    rfl
  have hi : s.tcrI x = s.tcrFf.getLsbD 29 := by
    rw [tcrI, hf, msrTcrFf_getLsbD s (by decide)]
    rfl
  refine ⟨?_, ?_, ?_⟩
  · simp [next, hx]
  · simp only [next, irqSet, irqClr, hx, hc, hi, Bool.false_and, Bool.or_false, Bool.not_false,
      Bool.and_true]
    cases h : s.tsr.extractLsb' 0 28 == s.tcrFf.extractLsb' 0 28 && s.tcrFf.getLsbD 29 <;>
      simp [ldff]
  · simp only [next, he]
    cases x.tsrWe <;> cases s.tcrFf.getLsbD 28 <;> simp [ldff]

/-- A write of `TCR`. -/
theorem next_of_tcr (v : Word) :
    (s.next (TscOp.tcr v).toIn).tcrFf = v ∧
      (s.next (TscOp.tcr v).toIn).irq = (v.getLsbD 30 &&
        (s.irq || (s.tsr.extractLsb' 0 28 == v.extractLsb' 0 28 && v.getLsbD 29))) ∧
      (s.next (TscOp.tcr v).toIn).tsr = if v.getLsbD 28 then s.tsr + 1 else s.tsr := by
  refine ⟨rfl, ?_, ?_⟩
  · simp only [next, TscOp.toIn, irqSet, irqClr, tcrCnt, tcrI, tcrP, msrTcr, if_true]
    cases v.getLsbD 30 <;> cases h : s.tsr.extractLsb' 0 28 == v.extractLsb' 0 28 &&
      v.getLsbD 29 <;>
      simp [ldff]
  · simp [next, TscOp.toIn, tcrEn, msrTcr, ldff]

open Em.MsrCpu in
/-- The tick of a cycle that leaves `TCR` alone: the pending bits stay the same exactly if the timer
is not stuck. -/
theorem irq_tick_iff (h : Agree C s c) (hc : c.tcr.CntOk) :
    (s.irq || (s.tsr.extractLsb' 0 28 == s.tcrFf.extractLsb' 0 28 && s.tcrFf.getLsbD 29)) =
      (c.tcr.p || c.tscHit) ↔ ¬ s.Stuck := by
  obtain ⟨-, ht, hcnt, he, hi, hp⟩ := agree_iff.1 h
  have hhit := tscHit_iff hc
  rw [← ht, ← hcnt, ← he, ← hi] at hhit
  rw [← hp, Stuck, Match]
  cases hq : s.irq with
  | true => simp
  | false =>
      by_cases hm : s.tsr.extractLsb' 0 28 = s.tcrFf.extractLsb' 0 28
      · cases hen : s.tcrFf.getLsbD 28 <;> cases hin : s.tcrFf.getLsbD 29 <;>
          cases hh : c.tscHit <;> simp_all
      · have hh : c.tscHit = false := by
          by_contra hne
          exact hm (hhit.1 (by simpa using hne)).2.2
        simp [hm, hh]

open Em.MsrCpu in
theorem agree_idle_iff (hC : C.irqTsc < 32) (h : Agree C s c) (hc : c.tcr.CntOk) :
    Agree C (s.next TscOp.idle.toIn) (c.tscClk C) ↔ ¬ s.Stuck := by
  obtain ⟨hl, ht, hcnt, he, hi, hp⟩ := agree_iff.1 h
  obtain ⟨hf, hq, hn⟩ := next_of_not_tcrWe (s := s) (x := TscOp.idle.toIn) rfl
  rw [← irq_tick_iff h hc, agree_iff, hf, hq, hn, tscClk_tcr, tscClk_tsr, tscClk_line hC, ← hl,
    ← ht, ← he, ← hp]
  exact ⟨fun h => h.1, fun h => ⟨h, rfl, hcnt, rfl, hi, h⟩⟩

open Em.MsrCpu in
theorem agree_tsr_iff (hC : C.irqTsc < 32) (h : Agree C s c) (hc : c.tcr.CntOk) (v : Word) :
    Agree C (s.next (TscOp.tsr v).toIn) ((c.tscClk C).tscWrite C K (.tsr v)) ↔ ¬ s.Stuck := by
  obtain ⟨hl, ht, hcnt, he, hi, hp⟩ := agree_iff.1 h
  obtain ⟨hf, hq, hn⟩ := next_of_not_tcrWe (s := s) (x := (TscOp.tsr v).toIn) rfl
  have h₁ : ((c.tscClk C).tscWrite C K (.tsr v)).tcr = (c.tscClk C).tcr := rfl
  have h₂ : ((c.tscClk C).tscWrite C K (.tsr v)).irr = (c.tscClk C).irr := rfl
  have h₃ : ((c.tscClk C).tscWrite C K (.tsr v)).tsr = v := rfl
  rw [← irq_tick_iff h hc, agree_iff, hf, hq, hn, h₁, h₂, h₃, tscClk_tcr, tscClk_line hC, ← hl,
    ← he, ← hp]
  exact ⟨fun h => h.1, fun h => ⟨h, rfl, hcnt, rfl, hi, h⟩⟩

open Em.MsrCpu in
theorem agree_tsr_first_iff (hC : C.irqTsc < 32) (h : Agree C s c) (v : Word) :
    Agree C (s.next (TscOp.tsr v).toIn) ((c.tscWrite C K (.tsr v)).tscClk C) ↔
      ¬ s.Stuck ∧ s.tcrFf.getLsbD 28 = false := by
  obtain ⟨hl, ht, hcnt, he, hi, hp⟩ := agree_iff.1 h
  obtain ⟨hf, hq, hn⟩ := next_of_not_tcrWe (s := s) (x := (TscOp.tsr v).toIn) rfl
  have h₁ : (c.tscWrite C K (.tsr v)).tcr = c.tcr := rfl
  have h₂ : (c.tscWrite C K (.tsr v)).irr = c.irr := rfl
  have h₃ : (c.tscWrite C K (.tsr v)).tsr = v := rfl
  have hh : (c.tscWrite C K (.tsr v)).tcr.en = false → (c.tscWrite C K (.tsr v)).tscHit =
      false := by
    intro hen
    simp [tscHit, hen]
  rw [agree_iff, hf, hq, hn, tscClk_tcr, tscClk_tsr, tscClk_line hC, h₁, h₂, h₃, ← hl, ← he, ← hp]
  rw [h₁, ← he] at hh
  cases hen : s.tcrFf.getLsbD 28 with
  | true => simp [TscOp.toIn]
  | false =>
      rw [hh hen, Bool.or_false]
      have hst : (s.irq || (s.tsr.extractLsb' 0 28 == s.tcrFf.extractLsb' 0 28 &&
          s.tcrFf.getLsbD 29)) = s.irq ↔ ¬ s.Stuck := by
        rw [Stuck, Match, hen]
        cases s.irq <;> cases s.tcrFf.getLsbD 29 <;> simp
      rw [hst]
      exact ⟨fun h => ⟨h.1, rfl⟩, fun h => ⟨h.1, rfl, hcnt, rfl, hi, h.1⟩⟩

open Em.MsrCpu in
theorem agree_tcr_iff (hC : C.irqTsc < 32) (h : Agree C s c) (v : Word) :
    Agree C (s.next (TscOp.tcr v).toIn) ((c.tscClk C).tscWrite C K (.tcr v)) ↔
      (v.getLsbD 30 = true → v.getLsbD 29 = true ∧ (s.irq = true ∨ s.Match v)) ∧
        v.getLsbD 28 = s.tcrFf.getLsbD 28 := by
  obtain ⟨-, ht, -, he, -, -⟩ := agree_iff.1 h
  obtain ⟨hf, hq, hn⟩ := next_of_tcr (s := s) v
  obtain ⟨hf', hn'⟩ := tscWrite_tcr (C := C) (K := K) (c := c.tscClk C) v
  have hcnt : v.extractLsb' 0 28 = (Em.TcrS.unpack v).cnt.extractLsb' 0 28 := by
    refine (Em.and_cntMask_eq_iff _ _).1 ?_
    simp [Em.TcrS.unpack, BitVec.and_assoc]
  rw [agree_iff, hf, hq, hn, hf', hn', tscWrite_tcr_line hC, tscClk_tsr, ← ht, ← he, ← hcnt]
  simp only [Em.TcrS.unpack, true_and, Match]
  cases v.getLsbD 28 <;> cases s.tcrFf.getLsbD 28 <;> cases v.getLsbD 30 <;>
    cases v.getLsbD 29 <;> simp

open Em.MsrCpu in
theorem agree_tcr_first_iff (hC : C.irqTsc < 32) (h : Agree C s c) (v : Word) :
    Agree C (s.next (TscOp.tcr v).toIn) ((c.tscWrite C K (.tcr v)).tscClk C) ↔
      (v.getLsbD 30 = true → v.getLsbD 29 = true ∧ (s.irq = true ∨ s.Match v)) ∧
        (v.getLsbD 30 = false → ¬ (v.getLsbD 28 = true ∧ v.getLsbD 29 = true ∧ s.Match v)) := by
  obtain ⟨-, ht, -, -, -, -⟩ := agree_iff.1 h
  obtain ⟨hf, hq, hn⟩ := next_of_tcr (s := s) v
  obtain ⟨hf', hn'⟩ := tscWrite_tcr (C := C) (K := K) (c := c) v
  have hcnt : v.extractLsb' 0 28 = (Em.TcrS.unpack v).cnt.extractLsb' 0 28 := by
    refine (Em.and_cntMask_eq_iff _ _).1 ?_
    simp [Em.TcrS.unpack, BitVec.and_assoc]
  have hhit := tscHit_iff (c := c.tscWrite C K (.tcr v)) (hf' ▸ Em.TcrS.cntOk_unpack v)
  have hb : (c.tscWrite C K (.tcr v)).tscHit = (v.getLsbD 28 && (v.getLsbD 29 &&
      s.tsr.extractLsb' 0 28 == v.extractLsb' 0 28)) := by
    rw [hf', hn', ← ht, ← hcnt] at hhit
    rw [Bool.eq_iff_iff, hhit]
    simp only [Em.TcrS.unpack, Bool.and_eq_true, beq_iff_eq]
  have key (m : Bool) (hm : m = true ↔ s.Match v) :
      ((v.getLsbD 30 && (s.irq || (m && v.getLsbD 29))) =
          (v.getLsbD 30 && v.getLsbD 29 || (v.getLsbD 28 && (v.getLsbD 29 && m))) ∧
        (v.getLsbD 30 && (s.irq || (m && v.getLsbD 29))) =
          (v.getLsbD 30 || (v.getLsbD 28 && (v.getLsbD 29 && m)))) ↔
      (v.getLsbD 30 = true → v.getLsbD 29 = true ∧ (s.irq = true ∨ s.Match v)) ∧
        (v.getLsbD 30 = false → ¬ (v.getLsbD 28 = true ∧ v.getLsbD 29 = true ∧ s.Match v)) := by
    rw [← hm]
    cases v.getLsbD 28 <;> cases v.getLsbD 29 <;> cases v.getLsbD 30 <;> simp
  rw [← key _ beq_iff_eq, agree_iff, hf, hq, hn, tscClk_tcr, tscClk_tsr, tscClk_line hC, hf', hn',
    tscWrite_tcr_line hC, hb, ← ht]
  exact ⟨fun h => ⟨h.1, h.2.2.2.2.2⟩, fun h => ⟨h.1, rfl, hcnt, rfl, rfl, h.2⟩⟩

/-- **One cycle**: two timers in agreement stay so exactly if the cycle is one of those that keep
them together. -/
theorem agree_next_iff (hC : C.irqTsc < 32) (h : Agree C s c) (hc : c.tcr.CntOk) (x : TscStep) :
    Agree C (s.cycle x) (c.tscCycle C K x) ↔ s.Keeps x := by
  obtain ⟨op, first⟩ := x
  cases op with
  | idle =>
      cases first with
      | true => exact agree_idle_iff hC h hc
      | false => exact agree_idle_iff hC h hc
  | tsr v =>
      cases first with
      | true =>
          refine (agree_tsr_first_iff (K := K) hC h v).trans ?_
          simp only [Keeps, forall_const]
      | false =>
          refine (agree_tsr_iff (K := K) hC h hc v).trans ?_
          simp only [Keeps, Bool.false_eq_true, false_implies, and_true]
  | tcr v =>
      cases first with
      | true => exact agree_tcr_first_iff (K := K) hC h v
      | false => exact agree_tcr_iff (K := K) hC h v

theorem agree_reset_iff (c : Em.MsrCpu) : Agree C reset c.reset ↔ c.tcr.pack = 0 := by
  have h₀ : reset.msrTcrFf = 0 := by decide
  constructor
  · intro h
    have ht := (Em.low_eq_iff _ _).1 h.tcr
    rw [h₀] at ht
    apply BitVec.eq_of_getLsbD_eq
    intro j hj
    by_cases hj' : j < 31
    · exact (ht j hj').symm
    · rw [Em.TcrS.pack_getLsbD]
      simp [show ¬ j < 28 by omega, show j ≠ 28 by omega, show j ≠ 29 by omega,
        show j ≠ 30 by omega]
  · intro h
    refine ⟨?_, rfl, ?_⟩
    · simp [reset, Em.MsrCpu.reset]
    · rw [h₀]
      exact congrArg (fun w : Word => w.extractLsb' 0 31) h.symm

theorem cntOk_of_agree_reset (h : Agree C reset c.reset) : c.reset.tcr.CntOk := by
  intro he
  rw [← (agree_iff.1 h).2.2.2.1] at he
  exact absurd he (by decide)

/-! ### Whole runs -/

/-- **Whole runs**: from reset the timers agree all along exactly if the emulator starts with an
empty control register, which its reset leaves as it is, and every cycle is one of those that keep
them together. -/
theorem agree_run_iff (hC : C.irqTsc < 32) (c : Em.MsrCpu) (l : List TscStep) :
    (∀ k, Agree C ((l.take k).foldl cycle reset)
        ((l.take k).foldl (Em.MsrCpu.tscCycle C K) c.reset)) ↔
      c.tcr.pack = 0 ∧ ∀ k x, l[k]? = some x → ((l.take k).foldl cycle reset).Keeps x := by
  -- the field CNT has to fit as long as the emulator looks at it
  have hR : ∀ s c x, Agree C s c ∧ c.tcr.CntOk →
      (Agree C (s.cycle x) (Em.MsrCpu.tscCycle C K c x) ∧ (Em.MsrCpu.tscCycle C K c x).tcr.CntOk ↔
        s.Keeps x) := by
    rintro s c x ⟨h, hc⟩
    rw [agree_next_iff hC h hc]
    exact and_iff_left (Em.MsrCpu.cntOk_tscCycle hc x)
  have hrun := Machine.lockstep_iff hR reset c.reset l
  constructor
  · intro h
    have ha : Agree C reset c.reset := h 0
    have hc := cntOk_of_agree_reset ha
    exact ⟨(agree_reset_iff c).1 ha, (hrun.1 fun k => ⟨h k, Em.MsrCpu.cntOk_run hc _⟩).2⟩
  · rintro ⟨hp, hk⟩ k
    have ha : Agree C reset c.reset := (agree_reset_iff c).2 hp
    exact (hrun.2 ⟨⟨ha, cntOk_of_agree_reset ha⟩, hk⟩ k).1

theorem agree_run_counts :
    Em.MsrConfig.default.irqTsc < 32 ∧
      ∀ k, Agree Em.MsrConfig.default
        (([⟨.tcr 0x30000002, true⟩, ⟨.idle, false⟩, ⟨.idle, false⟩, ⟨.tsr 7, false⟩] :
          List TscStep).take k
          |>.foldl cycle reset)
        (([⟨.tcr 0x30000002, true⟩, ⟨.idle, false⟩, ⟨.idle, false⟩, ⟨.tsr 7, false⟩] :
          List TscStep).take k
          |>.foldl (Em.MsrCpu.tscCycle .default .disabled) Em.MsrCpu.zero.reset) := by
  refine ⟨by decide, (agree_run_iff (by decide) Em.MsrCpu.zero _).2 ⟨by decide, ?_⟩⟩
  intro k x hx
  rcases k with _ | _ | _ | _ | k
  · obtain rfl : _ = x := by simpa using hx
    decide
  · obtain rfl : _ = x := by simpa using hx
    decide
  · obtain rfl : _ = x := by simpa using hx
    decide
  · obtain rfl : _ = x := by simpa using hx
    decide
  · simp at hx

/-- A disabled timer on its compare value raises an interrupt in the circuit, and none in the
emulator. -/
theorem disabled_timer_fires :
    ¬ ∀ (l : List TscStep) (k : ℕ), Agree Em.MsrConfig.default ((l.take k).foldl cycle reset)
      ((l.take k).foldl (Em.MsrCpu.tscCycle .default .disabled) Em.MsrCpu.zero.reset) := by
  intro h
  have hl := (h [⟨.tcr 0x20000000, false⟩, ⟨.idle, false⟩] 2).line
  revert hl
  decide

end Tsc

end NanoCpu
