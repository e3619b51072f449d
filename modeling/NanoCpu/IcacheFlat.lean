/-
**The I-cache is transparent.**

Requests come in with a page offset; one step of the pipeline later the page number, the kill and
the uncached signal follow, and another step later the window is at the output.  Over a memory that
does not change, every window of a request that was not killed is that of memory: whether it was in
the cache, was caught on the way into it, was read around it, or waited behind another request.

Main definitions:

* `FetchPipe` — the requests in the pipeline, as an observer sees them;
* `Icache.Out` — what is at the output, by the state of the state machine;
* `Icache.Inv` — the invariant;
* `Icache.fetches` — the cache with the observer.

Main results:

* `Icache.Inv.next` — the invariant is kept;
* `Icache.fetch_transparent` — what is delivered is what the memory holds.
-/

import NanoCpu.IcacheLines

set_option relaxedAutoImplicit false
set_option autoImplicit false
set_option linter.unusedSectionVars false

namespace NanoCpu

/-- The requests in the pipeline: the page offset of the one in the first stage, and the physical
address of the one at the output, with whether it was killed. -/
structure FetchPipe where
  stage1 : Option (BitVec 13)
  stage2 : Option (Word × Bool)

namespace Icache

variable {n : ℕ} [NeZero n] {S : ℕ} {s : Icache n} {m : AxiMem} {x : IcIn n} {F : ℕ → Byte}
  {g : FetchPipe}

/-- The pipeline takes a step when the cache is not stalled and the queue takes a window. -/
def pipeNext (g : FetchPipe) (s : Icache n) (x : IcIn n) : FetchPipe :=
  if s.pCe x then ⟨some x.vpo, g.stage1.map fun v => (x.ppn ++ v, x.kill)⟩ else g

/-! ### The invariant -/

/-- The output shows byte `j` of its window. -/
def Shows (F : ℕ → Byte) (s : Icache n) (j : ℕ) : Prop :=
  s.ins j = F (s.s2oPaddr.toNat / 16 * 16 + j)

/-- What is at the output. -/
def Out (F : ℕ → Byte) (s : Icache n) : Prop :=
  match s.state with
  | .idle | .reload => ∀ j < 16, s.Shows F j
  | .invalidate => s.s2oUncachedInflight = false → s.s2oMissInflight = false → ∀ j < 16, s.Shows F j
  | .refill => ∀ j < 16, windowOf s.s2oPaddr.toNat * 16 + j < s.refillCnt → s.Shows F j
  | .uncachedRead => ∀ j < s.uncachedCnt, s.Shows F j
  | _ => True

/-- The cache after reset, before all sets have been emptied. -/
structure Booting (S : ℕ) (s : Icache n) : Prop where
  s1oValid : s.s1oValid = false
  s2oValid : s.s2oValid = false
  s1oTagV : ∀ w, (s.s1oTagV w).2 = false
  reAddr : s.payReAddr = s.s1oPayloadAddr
  lt : s.bootCnt < 2 ^ S
  tagV : ∀ w, ∀ i < s.bootCnt, (s.tagV w i).2 = false

/-- The way and the set that a refill is writing. -/
def Refilling (S : ℕ) (s : Icache n) (w : Fin n) (i : ℕ) : Prop :=
  s.state = .refill ∧ s.s2oFsmFreeWay w = true ∧ i = Dcache.setOf S s.s2oPaddr.toNat

/-- The states in which the first stage shows what it has read. -/
def Reads (s : Icache n) : Prop :=
  s.state = .idle ∨ s.state = .invalidate ∨ s.state = .uncachedBoot ∨ s.state = .uncachedRead

structure Inv (S : ℕ) (F : ℕ → Byte) (s : Icache n) (m : AxiMem) (g : FetchPipe) : Prop where
  bus : s.Bus m
  mem : m.mem = F
  s1oLine : s.s1oLineAddr = Dcache.setOf S s.s1oVpo.toNat
  s1oPayload : s.s1oPayloadAddr = (Dcache.setOf S s.s1oVpo.toNat, windowOf s.s1oVpo.toNat)
  s2oLine : s.s2oLineAddr = Dcache.setOf S s.s2oPaddr.toNat
  boot : s.state = .boot → s.Booting S
  data : s.state ≠ .boot → ∀ w, ∀ i < 2 ^ S, (s.tagV w i).2 = true → ¬ s.Refilling S w i →
    s.Filled S F w i (s.tagV w i).1 64
  refill : s.state = .refill → ∀ w, s.s2oFsmFreeWay w = true →
    s.tagV w (Dcache.setOf S s.s2oPaddr.toNat) = (Dcache.tagOf S s.s2oPaddr.toNat, true) ∧
      s.Filled S F w (Dcache.setOf S s.s2oPaddr.toNat) (Dcache.tagOf S s.s2oPaddr.toNat) s.refillCnt
  snap : s.Reads → s.Snap S F
  stage1 : g.stage1 = if s.s1oValid then some s.s1oVpo else none
  stage2 : g.stage2.map Prod.fst = if s.s2oValid then some s.s2oPaddr else none
  out : g.stage2 = some (s.s2oPaddr, false) → s.Out F

/-! ### The registers of the pipeline -/

/-- What stays while the pipeline is stalled. -/
structure Held (s s' : Icache n) : Prop where
  s1oValid : s'.s1oValid = s.s1oValid
  s1oVpo : s'.s1oVpo = s.s1oVpo
  s1oLineAddr : s'.s1oLineAddr = s.s1oLineAddr
  s1oPayloadAddr : s'.s1oPayloadAddr = s.s1oPayloadAddr
  s2oLineAddr : s'.s2oLineAddr = s.s2oLineAddr
  s2oValid : s'.s2oValid = s.s2oValid
  s2oPaddr : s'.s2oPaddr = s.s2oPaddr

theorem held_next (h : s.pCe x = false) : s.Held (s.next S x) := by
  have hold : ∀ {α : Type} (d q : α), ldff (s.pCe x) d q = q := by
    intro α d q
    rw [h]
    rfl
  exact ⟨hold _ _, hold _ _, hold _ _, hold _ _, hold _ _, hold _ _, hold _ _⟩

/-- What the pipeline takes on in a step. -/
structure Stepped (S : ℕ) (s : Icache n) (x : IcIn n) (s' : Icache n) : Prop where
  s1oValid : s'.s1oValid = true
  s1oVpo : s'.s1oVpo = x.vpo
  s1oLineAddr : s'.s1oLineAddr = Dcache.setOf S x.vpo.toNat
  s1oPayloadAddr : s'.s1oPayloadAddr = (Dcache.setOf S x.vpo.toNat, windowOf x.vpo.toNat)
  s2oLineAddr : s'.s2oLineAddr = s.s1oLineAddr
  s2oValid : s'.s2oValid = s.s1oValid
  s2oPaddr : s'.s2oPaddr = s.s2iPaddr x

theorem idle_of_pCe (h : s.pCe x = true) : s.state = .idle := by
  simp only [pCe, stallReq, fsmIdle, Bool.and_eq_true, Bool.not_eq_true', Bool.not_eq_false',
    decide_eq_true_eq] at h
  exact h.1

theorem stepped_next (h : s.pCe x = true) : s.Stepped S x (s.next S x) := by
  have hst := idle_of_pCe h
  have load : ∀ {α : Type} (d q : α), ldff (s.pCe x) d q = d := by
    intro α d q
    rw [h]
    rfl
  refine ⟨load _ _, load _ _, (load _ _).trans ?_, (load _ _).trans ?_, load _ _,
    load _ _, load _ _⟩
  · simp [s1iLineAddr, hst]
  · simp [s1iPayloadAddr, hst]

theorem Inv.pipe_next (h : s.Inv S F m g) (hS : S ≤ 7) :
    (s.next S x).s1oLineAddr = Dcache.setOf S (s.next S x).s1oVpo.toNat ∧
    (s.next S x).s1oPayloadAddr =
      (Dcache.setOf S (s.next S x).s1oVpo.toNat, windowOf (s.next S x).s1oVpo.toNat) ∧
    (s.next S x).s2oLineAddr = Dcache.setOf S (s.next S x).s2oPaddr.toNat ∧
    (pipeNext g s x).stage1 = (if (s.next S x).s1oValid then some (s.next S x).s1oVpo else none) ∧
    (pipeNext g s x).stage2.map Prod.fst =
      if (s.next S x).s2oValid then some (s.next S x).s2oPaddr else none := by
  cases hce : s.pCe x with
  | false =>
      have hh := held_next (S := S) hce
      rw [hh.s1oLineAddr, hh.s1oPayloadAddr, hh.s2oLineAddr, hh.s1oVpo, hh.s2oPaddr, hh.s1oValid,
        hh.s2oValid, show pipeNext g s x = g by simp [pipeNext, hce]]
      exact ⟨h.s1oLine, h.s1oPayload, h.s2oLine, h.stage1, h.stage2⟩
  | true =>
      have hh := stepped_next (S := S) hce
      rw [hh.s1oLineAddr, hh.s1oPayloadAddr, hh.s2oLineAddr, hh.s1oVpo, hh.s2oPaddr, hh.s1oValid,
        hh.s2oValid]
      refine ⟨rfl, rfl, ?_, ?_, ?_⟩
      · rw [h.s1oLine, s2iPaddr, Dcache.setOf_page hS]
      · simp [pipeNext, hce]
      · rw [pipeNext, hce, if_pos rfl, h.stage1]
        cases s.s1oValid <;> rfl

/-! ### The RAMs -/

/-- The bytes that a beat of a refill brings. -/
theorem BusRefill.beat {c : ℕ} (hb : s.BusRefill m c) (hm : m.mem = F) (ha : m.Answers x.axi)
    (hR : s.hdsAxiR x = true) {l : ℕ} (hl : l < 8) :
    x.axi.rData l = F (s.s2oPaddr.toNat / 64 * 64 + 8 * c + l) := by
  have hrv : x.axi.rValid = true := by
    rw [hdsAxiR, Bool.and_eq_true] at hR
    exact hR.1
  obtain ⟨-, -, hd⟩ := hb.read.data ha hrv
  have := hd (s.arAddr + 8 * c + l) (by simp only [AxiBurst.beatAddr]; omega)
    (by simp only [AxiBurst.beatAddr]; omega)
  rw [← hm, ← hb.addr, ← this, hb.addr]
  congr 1
  omega

/-- The byte of an uncached window that a beat brings. -/
theorem BusUncached.beat {k : ℕ} (hb : s.BusUncached m k) (hm : m.mem = F) (ha : m.Answers x.axi)
    (hR : s.hdsAxiR x = true) {j : ℕ} (hj : j / 4 = k) :
    s.s1iUncachedDin x j = F (s.s2oPaddr.toNat / 16 * 16 + j) := by
  have hrv : x.axi.rValid = true := by
    rw [hdsAxiR, Bool.and_eq_true] at hR
    exact hR.1
  obtain ⟨-, -, hd⟩ := hb.read.data ha hrv
  have h4 := hb.lt
  have := hd (s.s2oPaddr.toNat / 16 * 16 + j) (by simp only [AxiBurst.beatAddr, hb.addr]; omega)
    (by simp only [AxiBurst.beatAddr, hb.addr]; omega)
  rw [← hm, ← this, s1iUncachedDin, Dcache.alignR, hb.addr]
  congr 1
  omega

theorem Inv.boot_next (h : s.Inv S F m g) (hst' : (s.next S x).state = .boot) :
    (s.next S x).Booting S := by
  have hst : s.state = .boot := of_next_boot hst'
  have hb := h.boot hst
  have hce : s.pCe x = false := pCe_of_state (by simp [hst])
  have hh := held_next (S := S) hce
  have hre : s.s1iTagVRe x = false := by simp [s1iTagVRe, hce, hst]
  have hlt : s.bootCnt + 1 < 2 ^ S := by
    have := hb.lt
    change s.stateNxt S x = _ at hst'
    simp only [stateNxt, hst] at hst'
    split_ifs at hst' with hc
    omega
  have hcnt : (s.next S x).bootCnt = s.bootCnt + 1 := Nat.mod_eq_of_lt hlt
  refine ⟨hh.s1oValid.trans hb.s1oValid, hh.s2oValid.trans hb.s2oValid, fun w => ?_, ?_,
    hcnt ▸ hlt, ?_⟩
  · change (ldff (s.s1iTagVRe x) _ (s.s1oTagV w)).2 = false
    rw [hre]
    exact hb.s1oTagV w
  · rw [hh.s1oPayloadAddr, ← hb.reAddr]
    change ldff (s.s1iTagVRe x) _ _ = _
    rw [hre]
    rfl
  · intro w i hi
    rw [hcnt] at hi
    change (if s.s1iTagVWe w = true ∧ i = s.s1iLineAddr S x then s.s1iReplaceTagV S else
      s.tagV w i).2 = false
    split_ifs with hc
    · simp [s1iReplaceTagV, hst]
    · refine hb.tagV w i ?_
      simp only [s1iTagVWe, s1iLineAddr, hst, decide_true, Bool.true_or, true_and] at hc
      omega

/-- When the boot is over no set holds a line. -/
theorem Inv.empty_next (h : s.Inv S F m g) (hst : s.state = .boot)
    (hst' : (s.next S x).state ≠ .boot) (w : Fin n)
    {i : ℕ} (hi : i < 2 ^ S) : ((s.next S x).tagV w i).2 = false := by
  have hb := h.boot hst
  have hlast : s.bootCnt + 1 = 2 ^ S := by
    by_contra hne
    refine hst' ?_
    change s.stateNxt S x = _
    simp [stateNxt, hst, hne]
  change (if s.s1iTagVWe w = true ∧ i = s.s1iLineAddr S x then s.s1iReplaceTagV S else
    s.tagV w i).2 = false
  split_ifs with hc
  · simp [s1iReplaceTagV, hst]
  · refine hb.tagV w i ?_
    simp only [s1iTagVWe, s1iLineAddr, hst, decide_true, Bool.true_or, true_and] at hc
    omega

/-- A cycle of a refill: what comes in goes to the ways of the victim. -/
theorem Inv.filled_refill (h : s.Inv S F m g) (hst : s.state = .refill) (ha : m.Answers x.axi)
    {w : Fin n} (hw : s.s2oFsmFreeWay w = true) :
    (s.next S x).tagV w (Dcache.setOf S s.s2oPaddr.toNat) =
      (Dcache.tagOf S s.s2oPaddr.toNat, true) ∧
      (((s.next S x).state = .refill ∧ (s.next S x).Filled S F w (Dcache.setOf S s.s2oPaddr.toNat)
          (Dcache.tagOf S s.s2oPaddr.toNat) (s.next S x).refillCnt) ∨
        ((s.next S x).state = .reload ∧ (s.next S x).Filled S F w (Dcache.setOf S s.s2oPaddr.toNat)
          (Dcache.tagOf S s.s2oPaddr.toNat) 64)) := by
  obtain ⟨htag, hfill⟩ := h.refill hst w hw
  have hr := h.bus.reading
  rw [Reading, hst] at hr
  obtain ⟨c, hb⟩ := hr
  rw [hb.refillCnt] at hfill
  refine ⟨by rw [next_tagV (by simp [hst]), htag], ?_⟩
  rcases hb.next (S := S) hst ha with ⟨-, hst', hb'⟩ | ⟨hR, -, hst', hb'⟩ | ⟨hR, hc, hst', -⟩
  · left
    rw [hb'.refillCnt]
    exact ⟨hst', hfill.next_wait hst hb.refillCnt⟩
  · left
    rw [hb'.refillCnt]
    exact ⟨hst', hfill.next_beat hst hb.refillCnt hw fun l hl => hb.beat h.mem ha hR hl⟩
  · right
    refine ⟨hst', ?_⟩
    have := hfill.next_beat hst hb.refillCnt hw fun l hl => hb.beat h.mem ha hR hl
    rwa [hc] at this

/-- What is valid after a cycle of a refill and is not being written is a line of memory. -/
theorem Inv.data_next (h : s.Inv S F m g) (ha : m.Answers x.axi) (hst' : (s.next S x).state ≠ .boot)
    (w : Fin n)
    {i : ℕ} (hi : i < 2 ^ S) (hv : ((s.next S x).tagV w i).2 = true)
    (hn : ¬ (s.next S x).Refilling S w i) :
    (s.next S x).Filled S F w i ((s.next S x).tagV w i).1 64 := by
  by_cases hb : s.state = .boot
  · rw [h.empty_next hb hst' w hi] at hv
    cases hv
  by_cases hr : s.state = .refill
  · have hpa : (s.next S x).s2oPaddr = s.s2oPaddr := next_s2oPaddr (pCe_of_state (by simp [hr]))
    have hfw : (s.next S x).s2oFsmFreeWay = s.s2oFsmFreeWay := next_s2oFsmFreeWay (by simp [hr])
    have htag : (s.next S x).tagV = s.tagV := next_tagV (by simp [hr])
    by_cases hc : s.s2oFsmFreeWay w = true ∧ i = Dcache.setOf S s.s2oPaddr.toNat
    · obtain ⟨hw, rfl⟩ := hc
      obtain ⟨htw, ⟨hst₁, -⟩ | ⟨-, hfill⟩⟩ := h.filled_refill hr ha hw
      · exact absurd ⟨hst₁, by rw [hfw, hw], by rw [hpa]⟩ hn
      · rw [htw]
        exact hfill
    · rw [htag] at hv ⊢
      have hrd := h.bus.reading
      rw [Reading, hr] at hrd
      obtain ⟨c, hbus⟩ := hrd
      exact (h.data hb w i hi hv fun hh => hc hh.2).next_refill hr hbus.refillCnt hc
  · have hnr : ¬ s.Refilling S w i := fun hh => hr hh.1
    by_cases hp : s.state = .replace
    · -- the victim is written from the next cycle on
      rw [next_tagV_replace hp] at hv ⊢
      have hrd := BusQuiet.next_replace (S := S) (h.bus.quiet (by simp [hp])) ha hp
      have hpa : (s.next S x).s2oPaddr = s.s2oPaddr := next_s2oPaddr (pCe_of_state (by simp [hp]))
      have hfw : (s.next S x).s2oFsmFreeWay = s.freeWay := by
        change ldff (decide (s.state = .replace)) _ _ = _
        rw [decide_eq_true hp]
        rfl
      split_ifs at hv ⊢ with hc
      · refine absurd ⟨hrd.1, by rw [hfw]; exact hc.1, ?_⟩ hn
        rw [hpa, hc.2, h.s2oLine]
      · exact (h.data hb w i hi hv hnr).next hr
    · have hsame := tagV_next_of_valid (S := S) (x := x) hp hv
      rw [hsame] at hv ⊢
      exact (h.data hb w i hi hv hnr).next hr

theorem Inv.refill_next (h : s.Inv S F m g) (ha : m.Answers x.axi)
    (hst' : (s.next S x).state = .refill) (w : Fin n) (hw : (s.next S x).s2oFsmFreeWay w = true) :
    (s.next S x).tagV w (Dcache.setOf S (s.next S x).s2oPaddr.toNat) =
        (Dcache.tagOf S (s.next S x).s2oPaddr.toNat, true) ∧
      (s.next S x).Filled S F w (Dcache.setOf S (s.next S x).s2oPaddr.toNat)
        (Dcache.tagOf S (s.next S x).s2oPaddr.toNat) (s.next S x).refillCnt := by
  rcases of_next_refill hst' with hst | hst
  · have hpa : (s.next S x).s2oPaddr = s.s2oPaddr := next_s2oPaddr (pCe_of_state (by simp [hst]))
    obtain ⟨-, hb⟩ := BusQuiet.next_replace (S := S) (h.bus.quiet (by simp [hst])) ha hst
    have hfw : s.freeWay w = true := by
      change ldff (decide (s.state = .replace)) s.freeWay s.s2oFsmFreeWay w = true at hw
      rwa [decide_eq_true hst, ldff_true] at hw
    rw [hpa, hb.refillCnt]
    refine ⟨?_, fun o ho => by omega⟩
    rw [next_tagV_replace hst, if_pos ⟨hfw, h.s2oLine.symm⟩]
  · have hpa : (s.next S x).s2oPaddr = s.s2oPaddr := next_s2oPaddr (pCe_of_state (by simp [hst]))
    rw [next_s2oFsmFreeWay (by simp [hst])] at hw
    obtain ⟨htw, ⟨-, hfill⟩ | ⟨hst₁, -⟩⟩ := h.filled_refill hst ha hw
    · rw [hpa]
      exact ⟨htw, hfill⟩
    · rw [hst₁] at hst'
      cases hst'

/-- The first stage shows what it has read. -/
theorem Inv.snap_next (h : s.Inv S F m g) (hst' : (s.next S x).Reads) : (s.next S x).Snap S F := by
  have hlt : ∀ a, Dcache.setOf S a < 2 ^ S := fun a => Nat.mod_lt _ (Nat.two_pow_pos S)
  have hwin : ∀ a, windowOf a < 4 := fun a => Nat.mod_lt _ (by omega)
  cases hce : s.pCe x with
  | true =>
      -- a step of the pipeline reads the set of the new request
      have hst := idle_of_pCe hce
      have hh := stepped_next (S := S) hce
      have hla : s.s1iLineAddr S x = Dcache.setOf S x.vpo.toNat := by simp [s1iLineAddr, hst]
      have hpa : s.s1iPayloadAddr S x = (Dcache.setOf S x.vpo.toNat, windowOf x.vpo.toNat) := by
        simp [s1iPayloadAddr, hst]
      refine snap_next_read (by simp [s1iTagVRe, hce]) (by simp [hst]) (by rw [hh.s1oLineAddr, hla])
        (by rw [hh.s1oPayloadAddr, hpa]) (by rw [hpa, hla]) (by rw [hpa]; exact hwin _)
          fun w hv => ?_
      rw [hla] at hv ⊢
      exact h.data (by simp [hst]) w _ (hlt _) hv fun hr => by simp [Refilling, hst] at hr
  | false =>
      have hh := held_next (S := S) hce
      by_cases hrl : s.state = .reload
      · -- the request behind a miss reads its set again
        have hla : s.s1iLineAddr S x = s.s1oLineAddr := by simp [s1iLineAddr, hrl]
        have hpa : s.s1iPayloadAddr S x = s.s1oPayloadAddr := by simp [s1iPayloadAddr, hrl]
        refine snap_next_read (by simp [s1iTagVRe, hrl]) (by simp [hrl])
          (by rw [hh.s1oLineAddr, hla])
          (by rw [hh.s1oPayloadAddr, hpa]) (by rw [hpa, hla, h.s1oPayload, h.s1oLine])
          (by rw [hpa, h.s1oPayload]; exact hwin _) fun w hv => ?_
        rw [hla] at hv ⊢
        exact h.data (by simp [hrl]) w _ (by rw [h.s1oLine]; exact hlt _) hv
          fun hr => by simp [Refilling, hrl] at hr
      · by_cases hb : s.state = .boot
        · have hbt := h.boot hb
          have hre : s.s1iTagVRe x = false := by simp [s1iTagVRe, hce, hb]
          have hra : (s.next S x).payReAddr = s.payReAddr := by
            change ldff (s.s1iTagVRe x) _ _ = _
            rw [hre]
            rfl
          refine ⟨by rw [hra, hh.s1oPayloadAddr, hbt.reAddr], fun w => ?_, fun w hv => ?_⟩
          · rw [next_pay (by simp [hb])]
            change (if decide (s.state = .refill) && s.s2oFsmFreeWay w then _ else
              s.pay w (s.payReAddrNxt S x)) = _
            rw [if_neg (by simp [hb])]
            rfl
          · change (ldff (s.s1iTagVRe x) _ (s.s1oTagV w)).2 = true at hv
            rw [hre] at hv
            exact absurd hv (by rw [ldff_false, hbt.s1oTagV w]; exact Bool.false_ne_true)
        · have hr : s.state ≠ .replace ∧ s.state ≠ .refill := by
            constructor
            · intro hst
              have : (s.next S x).state = .refill := by
                change s.stateNxt S x = _
                simp [stateNxt, hst]
              simp [Reads, this] at hst'
            · intro hst
              have : (s.next S x).state = .refill ∨ (s.next S x).state = .reload := by
                change s.stateNxt S x = _ ∨ s.stateNxt S x = _
                simp only [stateNxt, hst]
                split_ifs <;> simp
              rcases this with this | this <;> simp [Reads, this] at hst'
          refine (h.snap ?_).next hce ⟨hr.2, hrl⟩
          rw [Reads]
          cases hs : s.state <;> simp_all

/-! ### The output -/

theorem next_ins_of_hold
    (h : (s.pCe x || decide (s.state = .refill) || decide (s.state = .uncachedRead)) = false) :
    (s.next S x).ins = s.ins := by
  change ldff (s.pCe x || decide (s.state = .refill) || decide (s.state = .uncachedRead)) _ _ = _
  rw [h]
  rfl

theorem next_ins_of_load
    (h : (s.pCe x || decide (s.state = .refill) || decide (s.state = .uncachedRead)) = true) :
    (s.next S x).ins = s.s2iIns S x := by
  change ldff (s.pCe x || decide (s.state = .refill) || decide (s.state = .uncachedRead)) _ _ = _
  rw [h]
  rfl

/-- Where an idle cycle goes. -/
theorem idle_next (hst : s.state = .idle) :
    ((s.next S x).state = .invalidate ∧ (s.next S x).s2oUncachedInflight = s.s2iUncachedInflight x ∧
        (s.next S x).s2oMissInflight = s.s2iMissInflight S x) ∨
      ((s.next S x).state = .uncachedBoot ∧ s.s2iUncachedInflight x = true) ∨
      ((s.next S x).state = .replace ∧ s.s2iMissInflight S x = true) ∨
      ((s.next S x).state = .idle ∧ s.s2iUncachedInflight x = false ∧
        s.s2iMissInflight S x = false) := by
  have h₁ : (s.next S x).s2oUncachedInflight = s.s2iUncachedInflight x := by
    change ldff s.fsmIdle _ _ = _
    simp [fsmIdle, hst]
  have h₂ : (s.next S x).s2oMissInflight = s.s2iMissInflight S x := by
    change ldff s.fsmIdle _ _ = _
    simp [fsmIdle, hst]
  have hstn : (s.next S x).state = s.stateNxt S x := rfl
  rw [hstn, h₁, h₂, stateNxt, hst]
  cases x.invWe <;> cases s.s2iUncachedInflight x <;> cases s.s2iMissInflight S x <;> simp

/-- An idle cycle: a hit is at the output, and anything else goes on. -/
theorem Inv.out_idle (h : s.Inv S F m g) (hS : S ≤ 7) (hst : s.state = .idle)
    (hg : (pipeNext g s x).stage2 = some ((s.next S x).s2oPaddr, false)) : (s.next S x).Out F := by
  have shows : s.s2iUncachedInflight x = false → s.s2iMissInflight S x = false →
      ∀ j < 16, (s.next S x).Shows F j := by
    intro hu hm j hj
    cases hce : s.pCe x with
    | false =>
        have hh := held_next (S := S) hce
        rw [pipeNext, hce, if_neg Bool.false_ne_true, hh.s2oPaddr] at hg
        have hout := h.out hg
        rw [Out, hst] at hout
        rw [Shows, next_ins_of_hold (by simp [hce, hst]), hh.s2oPaddr]
        exact hout j hj
    | true =>
        have hh := stepped_next (S := S) hce
        rw [pipeNext, hce, if_pos rfl, h.stage1, hh.s2oPaddr] at hg
        have hv : s.s1oValid = true := by
          by_contra hne
          rw [if_neg hne] at hg
          cases hg
        rw [if_pos hv, Option.map_some, Option.some_inj, Prod.mk.injEq] at hg
        have hk : x.kill = false := hg.2
        have hun : x.uncached = false := by simpa [s2iUncachedInflight, hce, hv, hk] using hu
        have hhit : s.s2iHit S x = true := by simpa [s2iMissInflight, hce, hv, hk, hun] using hm
        rw [Shows, next_ins_of_load (by simp [hce]), hh.s2oPaddr]
        have : s.s2iIns S x j = s.s1oMatchPayload S x j := by simp [s2iIns, hst]
        rw [this]
        exact (h.snap (Or.inl hst)).match_payload hS h.s1oLine h.s1oPayload hhit hj
  rw [Out]
  rcases idle_next (S := S) (x := x) hst with ⟨hst', h₁, h₂⟩ | ⟨hst', -⟩ | ⟨hst', -⟩ |
    ⟨hst', h₁, h₂⟩
  · rw [hst']
    intro hu hm
    exact shows (h₁.symm.trans hu) (h₂.symm.trans hm)
  · rw [hst']
    trivial
  · rw [hst']
    trivial
  · rw [hst']
    exact shows h₁ h₂

/-- A cycle of a refill: the beats of the window are caught on their way. -/
theorem Inv.out_refill (h : s.Inv S F m g) (ha : m.Answers x.axi) (hst : s.state = .refill)
    (hout : s.Out F) : (s.next S x).Out F := by
  have hpa : (s.next S x).s2oPaddr = s.s2oPaddr := next_s2oPaddr (pCe_of_state (by simp [hst]))
  have hins : (s.next S x).ins = s.s2iIns S x := next_ins_of_load (by simp [hst])
  have hr := h.bus.reading
  rw [Reading, hst] at hr
  obtain ⟨c, hb⟩ := hr
  rw [Out, hst] at hout
  -- the bytes before the beat stay, and the beat brings the next eight
  have old : ∀ j < 16, windowOf s.s2oPaddr.toNat * 16 + j < 8 * c → (s.next S x).Shows F j := by
    intro j hj hlt
    rw [Shows, hins, hpa]
    have : s.s2iIns S x j = s.ins j := by
      simp only [s2iIns, hst, s2iRefillGetDat, s1iPayloadTgtWe, hb.refillCnt]
      rw [if_neg]
      simp only [decide_true, Bool.true_and, Bool.and_eq_true, decide_eq_true_eq, not_and]
      omega
    rw [this]
    exact hout j hj (by rw [hb.refillCnt]; exact hlt)
  have new : s.hdsAxiR x = true → ∀ j < 16, windowOf s.s2oPaddr.toNat * 16 + j < 8 * (c + 1) →
      (s.next S x).Shows F j := by
    intro hR j hj hlt
    by_cases hlt' : windowOf s.s2oPaddr.toNat * 16 + j < 8 * c
    · exact old j hj hlt'
    · have hw : windowOf s.s2oPaddr.toNat = c / 2 := by omega
      rw [Shows, hins, hpa]
      have : s.s2iIns S x j = x.axi.rData (j % 8) := by
        simp only [s2iIns, hst, s2iRefillGetDat, s1iPayloadTgtWe, s1iPayloadDin, hb.refillCnt]
        rw [if_pos]
        simp only [decide_true, Bool.true_and, Bool.and_eq_true, decide_eq_true_eq]
        omega
      rw [this, hb.beat h.mem ha hR (Nat.mod_lt _ (by omega))]
      congr 1
      rw [windowOf] at hw hlt hlt'
      omega
  rw [Out]
  rcases hb.next (S := S) hst ha with ⟨-, hst', hb'⟩ | ⟨hR, -, hst', hb'⟩ | ⟨hR, hc, hst', -⟩
  · rw [hst', hpa, hb'.refillCnt]
    exact old
  · rw [hst', hpa, hb'.refillCnt]
    exact new hR
  · rw [hst']
    intro j hj
    refine new hR j hj ?_
    rw [windowOf, hc]
    omega

/-- A cycle of an uncached fetch: every beat goes to its place in the window. -/
theorem Inv.out_uncachedRead (h : s.Inv S F m g) (ha : m.Answers x.axi)
    (hst : s.state = .uncachedRead) (hout : s.Out F) : (s.next S x).Out F := by
  have hpa : (s.next S x).s2oPaddr = s.s2oPaddr := next_s2oPaddr (pCe_of_state (by simp [hst]))
  have hins : (s.next S x).ins = s.s2iIns S x := next_ins_of_load (by simp [hst])
  have hr := h.bus.reading
  rw [Reading, hst] at hr
  obtain ⟨k, hb⟩ := hr
  have hlt := hb.lt
  rw [Out, hst] at hout
  have hsel : s.arAddr / 4 % 4 = k := by rw [hb.addr]; omega
  have old : ∀ j < 4 * k, (s.next S x).Shows F j := by
    intro j hj
    rw [Shows, hins, hpa]
    have : s.s2iIns S x j = s.ins j := by
      simp only [s2iIns, hst, s1iUncachedWe, hsel]
      rw [if_neg]
      simp only [decide_true, Bool.true_and, Bool.and_eq_true, decide_eq_true_eq, not_and]
      omega
    rw [this]
    exact hout j (by rw [hb.uncachedCnt]; exact hj)
  have new : s.hdsAxiR x = true → ∀ j < 4 * (k + 1), (s.next S x).Shows F j := by
    intro hR j hj
    by_cases hj' : j < 4 * k
    · exact old j hj'
    · rw [Shows, hins, hpa]
      have hwin : windowOf s.s2oPaddr.toNat = windowOf s.arAddr := by
        rw [windowOf, windowOf, hb.addr]
        omega
      have : s.s2iIns S x j = s.s1iUncachedDin x j := by
        simp only [s2iIns, hst, s1iUncachedWe, hsel, s2iUncachedGetDat, hwin]
        rw [if_pos]
        simp only [decide_true, Bool.true_and, decide_eq_true_eq]
        omega
      rw [this, hb.beat h.mem ha hR (by omega)]
  rw [Out]
  rcases hb.next (S := S) hst ha with ⟨-, hst', hb'⟩ | ⟨hR, -, hst', hb'⟩ | ⟨hR, hk, hst', -⟩
  · rw [hst', hb'.uncachedCnt]
    exact old
  · rw [hst', hb'.uncachedCnt]
    exact new hR
  · rw [hst']
    intro j hj
    exact new hR j (by omega)

/-- What is at the output after a cycle. -/
theorem Inv.out_next (h : s.Inv S F m g) (hS : S ≤ 7) (ha : m.Answers x.axi)
    (hg : (pipeNext g s x).stage2 = some ((s.next S x).s2oPaddr, false)) : (s.next S x).Out F := by
  by_cases hst : s.state = .idle
  · exact h.out_idle hS hst hg
  have hce : s.pCe x = false := pCe_of_state hst
  have hh := held_next (S := S) hce
  rw [pipeNext, hce, if_neg Bool.false_ne_true, hh.s2oPaddr] at hg
  have hout := h.out hg
  have hstn : (s.next S x).state = s.stateNxt S x := rfl
  have same : s.state ≠ .refill → s.state ≠ .uncachedRead → ∀ j, s.Shows F j →
      (s.next S x).Shows F j := by
    intro h₁ h₂ j hj
    rw [Shows, next_ins_of_hold (by simp [hce, h₁, h₂]), hh.s2oPaddr]
    exact hj
  cases hs : s.state with
  | idle => exact absurd hs hst
  | boot =>
      -- nothing has been asked for yet
      have := h.stage2
      rw [hg, (h.boot hs).s2oValid] at this
      cases this
  | replace =>
      obtain ⟨hst', hb⟩ := BusQuiet.next_replace (S := S) (h.bus.quiet (by simp [hs])) ha hs
      rw [Out, hst', hb.refillCnt]
      intro j _ hj
      omega
  | refill => exact h.out_refill ha hs hout
  | invalidate =>
      rw [Out, hs] at hout
      rw [Out, hstn]
      simp only [stateNxt, hs]
      cases hu : s.s2oUncachedInflight with
      | true => trivial
      | false =>
          cases hm : s.s2oMissInflight with
          | true => trivial
          | false => exact fun j hj => same (by simp [hs]) (by simp [hs]) j (hout hu hm j hj)
  | reload =>
      rw [Out, hs] at hout
      rw [Out, hstn]
      simp only [stateNxt, hs]
      exact fun j hj => same (by simp [hs]) (by simp [hs]) j (hout j hj)
  | uncachedBoot =>
      obtain ⟨hst', hb⟩ := BusQuiet.next_uncached (S := S) (h.bus.quiet (by simp [hs])) ha hs
      rw [Out, hst', hb.uncachedCnt]
      intro j hj
      omega
  | uncachedRead => exact h.out_uncachedRead ha hs hout

/-- **The invariant is kept.** -/
theorem Inv.next (h : s.Inv S F m g) (hS : S ≤ 7) (ha : m.Answers x.axi) :
    (s.next S x).Inv S F (m.next s.axiOut x.axi) (pipeNext g s x) := by
  obtain ⟨h₁, h₂, h₃, h₄, h₅⟩ := h.pipe_next (x := x) hS
  exact ⟨h.bus.next ha, h.bus.write.mem_next.trans h.mem, h₁, h₂, h₃, h.boot_next,
    fun hst w i hi hv hn => h.data_next ha hst w hi hv hn, h.refill_next ha, h.snap_next, h₄, h₅,
    h.out_next hS ha⟩

theorem inv_reset (tagV : Fin n → ℕ → ℕ × Bool) (pay : Fin n → ℕ × ℕ → ℕ → Byte) (F : ℕ → Byte) :
    (reset tagV pay).Inv S F (AxiMem.idle F) ⟨none, none⟩ where
  bus := bus_reset tagV pay F
  mem := rfl
  s1oLine := by simp [reset, Dcache.setOf]
  s1oPayload := by simp [reset, Dcache.setOf, windowOf]
  s2oLine := by simp [reset, Dcache.setOf]
  boot _ := ⟨rfl, rfl, fun _ => rfl, rfl, Nat.two_pow_pos S,
    fun w i hi => absurd hi (Nat.not_lt_zero i)⟩
  data hst := absurd rfl hst
  refill hst := by cases hst
  snap hst := by
    rcases hst with hst | hst | hst | hst
    all_goals cases hst
  stage1 := rfl
  stage2 := rfl
  out hg := by cases hg

/-! ### Runs -/

/-- The cache under any requests, with an observer of its pipeline. -/
def fetches (n : ℕ) [NeZero n] (S : ℕ) (tagV : Fin n → ℕ → ℕ × Bool)
    (pay : Fin n → ℕ × ℕ → ℕ → Byte)
    (m₀ : ℕ → Byte) : Machine ((Icache n × AxiMem) × FetchPipe) (IcIn n) :=
  (machine n S tagV pay m₀).observe ⟨none, none⟩ (fun g q x => pipeNext g q.1 x) fun _ _ _ => True

section

variable {tagV : Fin n → ℕ → ℕ × Bool} {pay : Fin n → ℕ × ℕ → ℕ → Byte} {m₀ : ℕ → Byte}

theorem inv_of_reach (hS : S ≤ 7) (hr : (fetches n S tagV pay m₀).Reach ((s, m), g)) :
    s.Inv S m₀ m g := by
  refine Machine.Reach.inv (M := fetches n S tagV pay m₀) (P := fun q => q.1.1.Inv S m₀ q.1.2 q.2)
    (inv_reset tagV pay m₀) ?_ hr
  rintro ⟨⟨s, m⟩, g⟩ x h ⟨ha, -⟩
  exact h.next hS ha

/-- **The I-cache is transparent**: when the pipeline is not stalled, the output is valid if there
is a request at it, and then, if the request was not killed, shows the window of memory at its
address.  The sets are indexed within a page. -/
theorem fetch_transparent (hS : S ≤ 7) (hr : (fetches n S tagV pay m₀).Reach ((s, m), g))
    (hst : s.stallReq = false) :
    s.s2oValid = g.stage2.isSome ∧
      ∀ a, g.stage2 = some (a, false) → ∀ j < 16, s.ins j = m₀ (a.toNat / 16 * 16 + j) := by
  have h := inv_of_reach hS hr
  have hidle : s.state = .idle := by simpa [stallReq, fsmIdle] using hst
  have h2 := h.stage2
  refine ⟨?_, fun a ha j hj => ?_⟩
  · cases hg : g.stage2 with
    | none =>
        rw [hg] at h2
        by_contra hne
        rw [if_pos (by simpa using hne)] at h2
        cases h2
    | some q =>
        rw [hg] at h2
        by_contra hne
        rw [if_neg (by simpa using hne)] at h2
        cases h2
  · rw [ha, Option.map_some] at h2
    have hv : a = s.s2oPaddr := by
      split_ifs at h2
      simpa using h2
    have hout := h.out (by rw [ha, hv])
    rw [Out, hidle] at hout
    rw [hv]
    exact hout j hj

end

/-- A fetch of the first window, with a prompt memory. -/
def promptFetch (m : AxiMem) : IcIn cacheWays :=
  ⟨true, 0, 0, false, false, false, 0, AxiIn.prompt m, fun _ _ => 0⟩

/-- Fetches of the first window, from a memory that holds at each address its last byte. -/
def countedFetches : ℕ → (Icache cacheWays × AxiMem) × FetchPipe
  | 0 => (fetches cacheWays 0 (fun _ _ => (0, false)) (fun _ _ _ => 0) (BitVec.ofNat 8)).reset
  | k + 1 =>
      (fetches cacheWays 0 (fun _ _ => (0, false)) (fun _ _ _ => 0) (BitVec.ofNat 8)).next
        (countedFetches k) (promptFetch (countedFetches k).1.2)

theorem reach_countedFetches (k : ℕ) :
    (fetches cacheWays 0 (fun _ _ => (0, false)) (fun _ _ _ => 0) (BitVec.ofNat 8)).Reach
    (countedFetches k) := by
  induction k with
  | zero => exact Machine.Reach.reset
  | succ k ih => exact Machine.Reach.tick ih ⟨AxiMem.answers_prompt _, trivial⟩

/-- The line has been read, and its first window is at the output. -/
theorem fetch_transparent_counted :
    (countedFetches 15).1.1.s2oValid = true ∧
      ∀ j < 16, (countedFetches 15).1.1.ins j = BitVec.ofNat 8 j := by
  have h := fetch_transparent (s := (countedFetches 15).1.1) (m := (countedFetches 15).1.2)
    (g := (countedFetches 15).2) (Nat.zero_le 7) (reach_countedFetches 15) (by decide +kernel)
  have hg : (countedFetches 15).2.stage2 = some (0, false) := by decide +kernel
  refine ⟨by rw [h.1, hg]; rfl, fun j hj => ?_⟩
  rw [h.2 0 hg j hj]
  simp

end Icache

end NanoCpu
