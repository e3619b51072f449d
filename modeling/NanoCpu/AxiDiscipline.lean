/-
**The caches as masters of the bus.**

What the two caches do on the bus under any requests, kills and invalidations, and with any delays
of the memory: they hold what they have raised until it is taken, start a burst when nothing is
outstanding only, take every beat of a read and put it where it belongs in the line, and send the
words of a line in order with the last one marked.

Main definitions:

* `Dcache.Disciplined`, `Icache.Disciplined` — the rules of the bus in one cycle;
* `Dcache.Orderly`, `Icache.Orderly` — the invariants.

Main results:

* `Dcache.Orderly.next`, `Icache.Orderly.next` — the invariants are kept;
* `axi_discipline` — both caches keep to the rules in every cycle of every run.
-/

import NanoCpu.AxiLog
import NanoCpu.DcacheFlat
import NanoCpu.IcacheLines

set_option relaxedAutoImplicit false
set_option autoImplicit false
set_option linter.unusedSectionVars false

/-- Nothing is outstanding. -/
structure AxiMem.Quiet (m : AxiMem) : Prop where
  rd : m.rd = none
  aw : m.aw = none
  w : m.w = []

theorem AxiMem.Reads.quiet {m : AxiMem} {o : AxiOut} {b : AxiBurst} {c : ℕ} (hr : m.Reads o b c)
    (hw : m.NoWrite o) (hv : o.arValid = true) : m.Quiet :=
  ⟨by rw [hr.rd, hv]; rfl, hw.aw, hw.w⟩

/-- A channel is raised when nothing is outstanding only. -/
structure AxiOut.Starts (o o' : AxiOut) (m : AxiMem) : Prop where
  ar : o.arValid = false → o'.arValid = true → m.Quiet
  aw : o.awValid = false → o'.awValid = true → m.Quiet
  w : o.wValid = false → o'.wValid = true → m.Quiet

namespace NanoCpu

open WriteBack

namespace Dcache

variable {n : ℕ} [NeZero n] {S : ℕ} {s : Dcache n} {m : AxiMem} {x : DcIn n} {L : AxiLog}

/-! ### The D-cache -/

theorem Bus.polite (h : s.Bus m) : (m.NoRead s.axiOut ∨ ∃ b c, m.Reads s.axiOut b c) ∧
    (m.NoWrite s.axiOut ∨ ∃ b k, m.Writes s.axiOut b k) := by
  rw [Bus] at h
  cases hst : s.state <;> rw [hst] at h
  case refill =>
    obtain ⟨c, h⟩ := h
    exact ⟨Or.inr ⟨_, _, h.read⟩, Or.inl h.write⟩
  case writeback =>
    obtain ⟨k, h⟩ := h
    exact ⟨Or.inl h.read, Or.inr ⟨_, _, h.write⟩⟩
  case uncachedRead => exact ⟨Or.inr ⟨_, _, h.read⟩, Or.inl h.write⟩
  case uncachedWrite =>
    obtain ⟨k, h⟩ := h
    exact ⟨Or.inl h.read, Or.inr ⟨_, _, h.write⟩⟩
  all_goals exact ⟨Or.inl h.read, Or.inl h.write⟩

/-- An address is raised in the two states that read. -/
theorem Bus.of_arValid (h : s.Bus m) (hv : s.arValid = true) :
    (s.state = .refill ∨ s.state = .uncachedRead) ∧ m.NoWrite s.axiOut ∧
      ∃ b, m.Reads s.axiOut b 0 := by
  have no : m.NoRead s.axiOut → False := fun hq => by
    have := hq.arValid
    rw [show s.axiOut.arValid = true from hv] at this
    cases this
  rw [Bus] at h
  cases hst : s.state <;> rw [hst] at h
  case refill =>
    obtain ⟨c, h⟩ := h
    obtain rfl : c = 0 := h.read.first hv
    exact ⟨Or.inl rfl, h.write, _, h.read⟩
  case uncachedRead => exact ⟨Or.inr rfl, h.write, _, h.read⟩
  case writeback =>
    obtain ⟨k, h⟩ := h
    exact (no h.read).elim
  case uncachedWrite =>
    obtain ⟨k, h⟩ := h
    exact (no h.read).elim
  all_goals exact (no h.read).elim

/-- A write address or write data is raised in the two states that write. -/
theorem Bus.of_write (h : s.Bus m) (hv : s.awValid = true ∨ s.wValid = true) :
    (s.state = .writeback ∨ s.state = .uncachedWrite) ∧ m.NoRead s.axiOut ∧
      ∃ k, m.Writes s.axiOut s.axiOut.aw k := by
  have no : m.NoWrite s.axiOut → False := fun hq => by
    rcases hv with hv | hv
    · have := hq.awValid
      rw [show s.axiOut.awValid = true from hv] at this
      cases this
    · have := hq.wValid
      rw [show s.axiOut.wValid = true from hv] at this
      cases this
  rw [Bus] at h
  cases hst : s.state <;> rw [hst] at h
  case writeback =>
    obtain ⟨k, h⟩ := h
    exact ⟨Or.inl rfl, h.read, k, by simpa [axiOut, hst] using h.write⟩
  case uncachedWrite =>
    obtain ⟨k, h⟩ := h
    exact ⟨Or.inr rfl, h.read, k, by simpa [axiOut, hst] using h.write⟩
  case refill =>
    obtain ⟨c, h⟩ := h
    exact (no h.write).elim
  all_goals exact (no h.write).elim

/-- A read address waits for the memory. -/
theorem Bus.keeps_ar (h : s.Bus m) (ha : m.Answers x.axi) (hv : s.arValid = true)
    (hr : x.axi.arReady = false) :
    (s.next S x).arValid = true ∧ (s.next S x).axiOut.ar = s.axiOut.ar := by
  obtain ⟨hst, -, b, hb⟩ := h.of_arValid hv
  have hrv := hb.not_rValid ha hv
  have har : s.arSet x = false := by rcases hst with hst | hst <;> simp [arSet, hst]
  have hR : s.hdsAxiR x = false := by rw [hdsAxiR, hrv, Bool.false_and]
  have hst' : (s.next S x).state = s.state := by
    change s.stateNxt S x = _
    rcases hst with hst | hst <;> simp [stateNxt, hst, hR, hdsAxiRLast]
  have hs2 : (s.next S x).s2o = s.s2o :=
    next_s2o_of_stall (by rcases hst with hst | hst <;> simp [hst])
  have haddr : (s.next S x).arAddr = s.arAddr := by
    change ldff (s.arSet x) _ _ = _
    rw [har]
    rfl
  refine ⟨by rw [next_arValid, har, hv, hr]; rfl, ?_⟩
  simp only [axiOut, hst', hs2, haddr]

/-- While the address or a beat of a write has not been taken, there is no response. -/
theorem Bus.not_bValid (h : s.Bus m) (ha : m.Answers x.axi)
    (hv : s.awValid = true ∨ s.wValid = true) : x.axi.bValid = false := by
  obtain ⟨-, -, k, hb⟩ := h.of_write hv
  by_contra hne
  obtain ⟨hav, hk, -⟩ := hb.of_bValid ha (by simpa using hne)
  rcases hv with hv | hv
  · rw [show s.awValid = false from hav] at hv
    cases hv
  · rw [show s.wValid = _ from hb.wValid, hk] at hv
    simp at hv

theorem Bus.next_write (h : s.Bus m) (ha : m.Answers x.axi)
    (hv : s.awValid = true ∨ s.wValid = true) :
    (s.next S x).state = s.state ∧ (s.next S x).s2o = s.s2o ∧ s.awSet = false ∧
      (s.next S x).awAddr = s.awAddr := by
  obtain ⟨hst, -, -⟩ := h.of_write hv
  have hB : s.hdsAxiB x = false := by rw [hdsAxiB, h.not_bValid ha hv, Bool.and_false]
  have haw : s.awSet = false := by rcases hst with hst | hst <;> simp [awSet, hst]
  refine ⟨?_, next_s2o_of_stall (by rcases hst with hst | hst <;> simp [hst]), haw, ?_⟩
  · change s.stateNxt S x = _
    rcases hst with hst | hst <;> simp [stateNxt, hst, hB]
  · change ldff s.awSet _ _ = _
    rw [haw]
    rfl

/-- A write address waits for the memory. -/
theorem Bus.keeps_aw (h : s.Bus m) (ha : m.Answers x.axi) (hv : s.awValid = true)
    (hr : x.axi.awReady = false) :
    (s.next S x).awValid = true ∧ (s.next S x).axiOut.aw = s.axiOut.aw := by
  obtain ⟨hst', hs2, haw, haddr⟩ := h.next_write (S := S) ha (Or.inl hv)
  refine ⟨by rw [next_awValid, haw, hv, hr]; rfl, ?_⟩
  simp only [axiOut, hst', hs2, haddr]

/-- A beat waits for the memory, with its data. -/
theorem Bus.keeps_w (h : s.Bus m) (hs : s.state = .writeback → ∃ a, s.Streams S m a)
    (ha : m.Answers x.axi) (hv : s.wValid = true) (hr : x.axi.wReady = false) :
    (s.next S x).wValid = true ∧ (s.next S x).wBeat = s.wBeat ∧ (s.next S x).wLast = s.wLast := by
  obtain ⟨hst', hs2, haw, -⟩ := h.next_write (S := S) ha (Or.inr hv)
  obtain ⟨hst, -, k, hb⟩ := h.of_write (Or.inr hv)
  have hW : s.hdsAxiW x = false := by rw [hdsAxiW, hr, Bool.and_false]
  have hu : s.fsmUncachedReq = false := by rcases hst with hst | hst <;> simp [fsmUncachedReq, hst]
  refine ⟨by rw [next_wValid, haw, hv, hr]; rfl, ?_, ?_⟩
  · rcases hst with hst | hst
    · -- the payload RAM shows the same word
      have hbus := h
      rw [Bus, hst] at hbus
      obtain ⟨k, hbus⟩ := hbus
      obtain ⟨a, hstr⟩ := hs hst
      have hk : k < 16 := by
        have := hbus.write.wValid
        rw [show s.axiOut.wValid = true from hv] at this
        have hle : k ≤ 15 := by simpa using this.symm
        omega
      have hB : s.hdsAxiB x = false := by rw [hdsAxiB, h.not_bValid ha (Or.inr hv), Bool.and_false]
      rcases hbus.next (S := S) hst ha with ⟨-, hst₁, hbus'⟩ | ⟨hB', -⟩ | ⟨hB', -⟩
      · have hstr' := hstr.next hst hbus hB
        rw [hW, Bool.toNat_false, Nat.add_zero] at hbus'
        have hslot : (s.next S x).slot S a = s.slot S a := by rw [slot, slot, hs2]
        have hc := contents_next (S := S) (s := s) (x := x) (s2iReady_of_state (by simp [hst]))
          (by simp [hst])
        rw [hstr'.wBeat hst₁ hbus' hk, hstr.wBeat hst hbus hk, hslot, hc]
      · rw [hB] at hB'
        cases hB'
      · rw [hB] at hB'
        cases hB'
    · have hd : (s.next S x).uncachedData = s.uncachedData := by
        funext l
        rw [uncachedData, uncachedData, hs2]
      have hm : (s.next S x).uncachedStrb = s.uncachedStrb := by
        funext l
        rw [uncachedStrb, uncachedStrb, hs2]
      simp [wBeat, hst', hst, hd, hm]
  · rw [next_wLast, wlastSet, hW, hu, hr]
    simp

/-- The beats `l` of a read, the last one first, are in their places of the line that is
replaced. -/
def Stored (S : ℕ) (s : Dcache n) (l : List (ℕ → Byte)) : Prop :=
  ∀ w, s.s2o.fsmFreeWay w = true → ∀ i f, l.reverse[i]? = some f → ∀ j < 4,
    s.pay w (setOf S s.s2o.paddr.toNat, i) j = f (4 * (i % 2) + j)

/-- What has been done of the burst that is going on. -/
def Work (S : ℕ) (s : Dcache n) (m : AxiMem) (L : AxiLog) : Prop :=
  match s.state with
  | .writeback => ∃ a, s.Streams S m a
  | .uncachedWrite => m.w = AxiBurst.beats (fun _ => ⟨s.uncachedData, s.uncachedStrb⟩) m.w.length
  | .refill => s.arAddr = s.s2o.paddr.toNat / 64 * 64 ∧ ∀ b c, m.rd = some (b, c) →
      ∃ l rest, L.reads = (b, l) :: rest ∧ l.length = c ∧ s.Stored S l
  | .reload => ∃ l rest, L.reads = (⟨s.s2o.paddr.toNat / 64 * 64, 15, 2⟩, l) :: rest ∧
      l.length = 16 ∧ s.Stored S l
  | _ => True

/-- The invariant of the cache with its log. -/
structure Orderly (S : ℕ) (s : Dcache n) (m : AxiMem) (L : AxiLog) : Prop where
  bus : s.Bus m
  log : L.Tracks m
  free : ∃ k, ∀ w, s.freeWay w = decide (w = k)
  way : s.state ≠ .boot → s.state ≠ .idle → ∃ k, ∀ w, s.s2o.fsmFreeWay w = decide (w = k)
  work : s.Work S m L

theorem orderly_reset (pay : Fin n → ℕ × ℕ → ℕ → Byte) (m₀ : ℕ → Byte) :
    (reset pay).Orderly S (AxiMem.idle m₀) AxiLog.empty :=
  ⟨bus_reset pay m₀, AxiLog.tracks_idle m₀, ⟨0, fun _ => rfl⟩, fun h => (h rfl).elim, trivial⟩

/-- A cycle that raises the address of a line. -/
theorem work_next_arSet (hst : s.state ≠ .idle) (hn : (s.next S x).state = .refill)
    (har : s.arSet x = true) (hp : s.axiPaddrNxt S = s.s2o.paddr.toNat / 64 * 64)
    (hb : (s.next S x).BusRefill (m.next s.axiOut x.axi) 0) :
    (s.next S x).Work S (m.next s.axiOut x.axi) (L.next s.axiOut x.axi) := by
  rw [Work, hn]
  refine ⟨?_, fun b c hrd => ?_⟩
  · rw [next_s2o_of_stall hst, ← hp]
    change ldff (s.arSet x) (s.axiPaddrNxt S) _ = _
    rw [har]
    rfl
  · have hv : (s.next S x).axiOut.arValid = true := by
      change (s.next S x).arValid = true
      rw [next_arValid, har, Bool.true_or]
    rw [hb.read.rd, hv] at hrd
    cases hrd

/-- The beats of a refill are stored one after the other. -/
theorem Stored.next_beat {l : List (ℕ → Byte)} (h : s.Stored S l) (hst : s.state = .refill)
    (hc : s.refillCnt = 4 * l.length) : (s.next S x).Stored S (x.axi.rData :: l) := by
  have hs2 : (s.next S x).s2o = s.s2o := next_s2o_of_stall (by simp [hst])
  intro w hw i f hf j hj
  rw [hs2] at hw ⊢
  rw [next_pay_refill hst hc w _ hj]
  rw [List.reverse_cons, List.getElem?_append, List.length_reverse] at hf
  split_ifs at hf with hi
  · rw [if_neg (by simp only [Prod.mk.injEq]; omega)]
    exact h w hw i f hf j hj
  · have hi0 : i = l.length := by
      have := (List.getElem?_eq_some_iff.1 hf).1
      simp only [List.length_singleton] at this
      omega
    rw [hi0, Nat.sub_self] at hf
    rw [if_pos ⟨hw, by rw [hi0]⟩, hi0]
    simp only [List.getElem?_cons_zero, Option.some_inj] at hf
    rw [← hf]

/-- The bus may show anything while there is no beat: what is written then is written again. -/
theorem Stored.next_wait {l : List (ℕ → Byte)} (h : s.Stored S l) (hst : s.state = .refill)
    (hc : s.refillCnt = 4 * l.length) : (s.next S x).Stored S l := by
  have hs2 : (s.next S x).s2o = s.s2o := next_s2o_of_stall (by simp [hst])
  intro w hw i f hf j hj
  have hi := (List.getElem?_eq_some_iff.1 hf).1
  rw [List.length_reverse] at hi
  rw [hs2] at hw ⊢
  rw [next_pay_refill hst hc w _ hj, if_neg (by simp only [Prod.mk.injEq]; omega)]
  exact h w hw i f hf j hj

/-- A cycle of a refill. -/
theorem Orderly.work_next_refill (h : s.Orderly S m L) (hst : s.state = .refill)
    (ha : m.Answers x.axi) :
    (s.next S x).Work S (m.next s.axiOut x.axi) (L.next s.axiOut x.axi) := by
  have hw := h.work
  have hbus := h.bus
  rw [Work, hst] at hw
  rw [Bus, hst] at hbus
  obtain ⟨c, hbus⟩ := hbus
  obtain ⟨haddr, hl⟩ := hw
  have hs2 : (s.next S x).s2o = s.s2o := next_s2o_of_stall (by simp [hst])
  have haddr' : (s.next S x).arAddr = s.arAddr := by
    change ldff (s.arSet x) _ _ = _
    rw [show s.arSet x = false by simp [arSet, hst]]
    rfl
  have hdef : s.hdsAxiR x = (x.axi.rValid && s.axiOut.rReady) := rfl
  rcases hbus.next (S := S) hst ha with ⟨hR, hst', -⟩ | ⟨hR, hc, hst', hbus'⟩ | ⟨hR, hc, hst', -⟩
  · -- no beat: the address may be taken
    rw [Work, hst', haddr', hs2]
    refine ⟨haddr, fun b' c' hrd => ?_⟩
    rw [hdef] at hR
    cases hv : s.axiOut.arValid && x.axi.arReady with
    | true =>
        simp only [AxiMem.next, hv, if_true, Option.some_inj, Prod.mk.injEq] at hrd
        refine ⟨[], L.reads, ?_, by simp [← hrd.2], fun w _ i f hf => by simp at hf⟩
        simp [AxiLog.next, hv, hR, hrd.1]
    | false =>
        simp only [AxiMem.next, hv, hR, Bool.false_eq_true, if_false] at hrd
        obtain ⟨l, rest, h₁, h₂, h₃⟩ := hl b' c' hrd
        refine ⟨l, rest, by simp [AxiLog.next, hv, hR, h₁], h₂, h₃.next_wait hst ?_⟩
        have hcc : c = c' := by
          have := hbus.read.rd
          rw [hrd] at this
          split_ifs at this
          simpa using (Prod.mk.inj (Option.some.inj this)).2.symm
        rw [hbus.refillCnt, h₂, hcc]
  all_goals
    have hrv : x.axi.rValid = true := by
      rw [hdef, Bool.and_eq_true] at hR
      exact hR.1
    obtain ⟨hv, hlast, -⟩ := hbus.read.data ha hrv
    have hrd : m.rd = some (⟨s.arAddr, 15, 2⟩, c) := by
      rw [hbus.read.rd, hv]
      rfl
    obtain ⟨l, rest, h₁, h₂, h₃⟩ := hl _ _ hrd
    have hstored : (s.next S x).Stored S (x.axi.rData :: l) :=
      h₃.next_beat hst (by rw [hbus.refillCnt, h₂])
    rw [hdef] at hR
    have hreads : (L.next s.axiOut x.axi).reads =
        (⟨s.arAddr, 15, 2⟩, x.axi.rData :: l) :: rest := by
      simp [AxiLog.next, hv, hR, h₁]
    rw [Work, hst', hs2]
  · refine ⟨by rw [haddr', haddr], fun b' c' hrd' => ?_⟩
    rw [hbus'.read.rd] at hrd'
    split_ifs at hrd'
    obtain ⟨rfl, rfl⟩ := Prod.mk.inj (Option.some.inj hrd')
    exact ⟨_, rest, by rw [hreads, haddr'], by rw [List.length_cons, h₂], hstored⟩
  · exact ⟨_, rest, by rw [hreads, haddr], by rw [List.length_cons, h₂, hc], hstored⟩

/-- A cycle of an uncached store. -/
theorem Orderly.work_next_uncachedWrite (h : s.Orderly S m L) (hst : s.state = .uncachedWrite)
    (ha : m.Answers x.axi) :
    (s.next S x).Work S (m.next s.axiOut x.axi) (L.next s.axiOut x.axi) := by
  have hw := h.work
  have hbus := h.bus
  rw [Work, hst] at hw
  rw [Bus, hst] at hbus
  obtain ⟨k, hbus⟩ := hbus
  have hs2 : (s.next S x).s2o = s.s2o := next_s2o_of_stall (by simp [hst])
  rcases hbus.next (S := S) hst ha with ⟨hB, hst', -⟩ | ⟨-, -, hst', -⟩
  · rw [Work, hst']
    have hd : (s.next S x).uncachedData = s.uncachedData := by
      funext l
      rw [uncachedData, uncachedData, hs2]
    have hm : (s.next S x).uncachedStrb = s.uncachedStrb := by
      funext l
      rw [uncachedStrb, uncachedStrb, hs2]
    have hB' : (x.axi.bValid && s.axiOut.bReady) = false := by
      rw [Bool.and_comm]
      exact hB
    dsimp only
    rw [hd, hm]
    cases hW : s.axiOut.wValid && x.axi.wReady with
    | false => simpa [AxiMem.next, hB', hW] using hw
    | true =>
        have hbeat : s.axiOut.w = ⟨s.uncachedData, s.uncachedStrb⟩ := by simp [axiOut, wBeat, hst]
        have hnext : (m.next s.axiOut x.axi).w = ⟨s.uncachedData, s.uncachedStrb⟩ :: m.w := by
          simp [AxiMem.next, hW, hbeat]
        rw [hnext, List.length_cons, AxiBurst.beats_succ, ← hw]
  · rw [Work, hst']
    trivial

theorem work_of_state (h : s.state ≠ .writeback ∧ s.state ≠ .uncachedWrite ∧ s.state ≠ .refill ∧
    s.state ≠ .reload) : s.Work S m L := by
  rw [Work]
  cases hst : s.state <;> simp_all

theorem Orderly.work_next (h : s.Orderly S m L) (ha : m.Answers x.axi) :
    (s.next S x).Work S (m.next s.axiOut x.axi) (L.next s.axiOut x.axi) := by
  have hw := h.work
  have hbus := h.bus
  have hstn : (s.next S x).state = s.stateNxt S x := rfl
  cases hst : s.state <;> rw [Bus, hst] at hbus
  case refill => exact h.work_next_refill hst ha
  case uncachedWrite => exact h.work_next_uncachedWrite hst ha
  case replace =>
    cases hd : s.s2o.freeDirty with
    | true =>
        have hst' : (s.next S x).state = .writeback := by simp [hstn, stateNxt, hst, hd]
        rw [Work, hst']
        exact ⟨_, Streams.start hbus ha (by simp [awSet, hst, hd]) (Or.inl hst)⟩
    | false =>
        have hst' : (s.next S x).state = .refill := by simp [hstn, stateNxt, hst, hd]
        have har : s.arSet x = true := by simp [arSet, hst, hd]
        obtain ⟨-, hr, hw', hl, hc⟩ := BusQuiet.next_ar (S := S) hbus ha har
          (by simp [awSet, hst, hd]) (by simp [hst])
        refine work_next_arSet (by simp [hst]) hst' har ?_
          ⟨by simpa [axiOut, hst'] using hr, hw', hl, hc⟩
        simp [axiPaddrNxt, fsmUncachedReq, hst, awSet, hd]
  case flush =>
    cases hd : s.s2oMatchDirty with
    | true =>
        have hst' : (s.next S x).state = .writeback := by simp [hstn, stateNxt, hst, hd]
        rw [Work, hst']
        exact ⟨_, Streams.start hbus ha (by simp [awSet, hst, hd]) (Or.inr hst)⟩
    | false => exact work_of_state (by simp [hstn, stateNxt, hst, hd])
  case writeback =>
    rw [Work, hst] at hw
    obtain ⟨a, hstr⟩ := hw
    obtain ⟨k, hbus⟩ := hbus
    rcases hbus.next (S := S) hst ha with ⟨hB, hst', -⟩ | ⟨-, -, -, hst', -⟩ |
      ⟨hB, -, hf, hst', hb'⟩
    · rw [Work, hst']
      exact ⟨a, hstr.next hst hbus hB⟩
    · exact work_of_state (by simp [hst'])
    · refine work_next_arSet (by simp [hst]) hst' (by simp [arSet, hst, hB, hf]) ?_ hb'
      simp [axiPaddrNxt, fsmUncachedReq, hst]
  case uncachedBoot =>
    rcases BusQuiet.next_uncached (S := S) hbus ha hst with ⟨hst', -, -⟩ | ⟨hst', -, hb'⟩
    · exact work_of_state (by simp [hst'])
    · rw [Work, hst', show (m.next s.axiOut x.axi).w = [] from
        List.eq_nil_of_length_eq_zero hb'.write.length]
      rfl
  case invalidate => exact work_of_state (by simp [hstn, stateNxt, hst])
  case reload => exact work_of_state (by simp [hstn, stateNxt, hst])
  all_goals
    refine work_of_state ?_
    rw [hstn, stateNxt, hst]
    dsimp only
    split_ifs <;> simp

theorem Orderly.next (h : s.Orderly S m L) (ha : m.Answers x.axi) :
    (s.next S x).Orderly S (m.next s.axiOut x.axi) (L.next s.axiOut x.axi) := by
  refine ⟨h.bus.next ha, h.log.next ha h.bus.polite.1 h.bus.polite.2, free_next h.free, ?_,
    h.work_next ha⟩
  intro hb hi
  by_cases hst : s.state = .idle
  · rw [next_s2o_of_idle hst]
    exact h.free
  · rw [next_s2o_of_stall hst]
    refine h.way (fun hboot => ?_) hst
    have hstn : (s.next S x).state = s.stateNxt S x := rfl
    rw [hstn, stateNxt, hboot] at hb hi
    dsimp only at hb hi
    split_ifs at hb hi
    · exact hi rfl
    · exact hb rfl

/-- The rules of the bus in one cycle of the D-cache. -/
structure Disciplined (S : ℕ) (s : Dcache n) (m : AxiMem) (L : AxiLog) (x : DcIn n) : Prop where
  /-- What is raised stays, with all that goes with it, until it is taken. -/
  keeps : s.axiOut.Keeps x.axi (s.next S x).axiOut
  /-- No burst starts before the response of the one before. -/
  starts : s.axiOut.Starts (s.next S x).axiOut (m.next s.axiOut x.axi)
  /-- Every burst has as many beats as its address said, and the last beat of a write is marked. -/
  log : L.Tracks m
  /-- After a refill, beat `i` of the burst is word `i` of the line, in one way. -/
  stored : s.state = .reload → (∃ w, ∀ w', s.s2o.fsmFreeWay w' = decide (w' = w)) ∧
    ∃ l rest, L.reads = (⟨s.s2o.paddr.toNat / 64 * 64, 15, 2⟩, l) :: rest ∧ l.length = 16 ∧
      s.Stored S l
  /-- A write-back sends the words of the line in the selected way, the first one first. -/
  carries : s.state = .writeback → s.axiOut.aw.len = 15 ∧
    L.ws.map Prod.fst = AxiBurst.beats (wordBeat ((s.contents S).data (s.slot S s.wbWay)))
      L.ws.length
  /-- An uncached store sends its only beat. -/
  carriesOne : s.state = .uncachedWrite → s.axiOut.aw.len = 0 ∧
    L.ws.map Prod.fst = AxiBurst.beats (fun _ => ⟨s.uncachedData, s.uncachedStrb⟩) L.ws.length
  counter : s.state = .idle → s.refillCnt = 0

theorem Orderly.starts (h : s.Orderly S m L) (ha : m.Answers x.axi) :
    s.axiOut.Starts (s.next S x).axiOut (m.next s.axiOut x.axi) := by
  have h' := h.next (S := S) ha
  -- a rising write is the first cycle of its burst
  have write : s.awSet = true → (m.next s.axiOut x.axi).Quiet := by
    intro haw
    have hbus := h.bus
    have line : s.state = .replace ∨ s.state = .flush → s.BusQuiet m →
        (m.next s.axiOut x.axi).Quiet := by
      intro hst hq
      have hb := BusQuiet.next_aw (S := S) hq ha haw hst
      have hv : (s.next S x).axiOut.awValid = true := by
        change (s.next S x).awValid = true
        rw [next_awValid, haw, Bool.true_or]
      exact ⟨hb.read.rd, by rw [hb.write.mAw, hv]; rfl,
        List.eq_nil_of_length_eq_zero hb.write.length⟩
    cases hst : s.state <;> rw [Bus, hst] at hbus
    case replace => exact line (Or.inl hst) hbus
    case flush => exact line (Or.inr hst) hbus
    case uncachedBoot =>
      rcases BusQuiet.next_uncached (S := S) hbus ha hst with ⟨hst', hm, -⟩ | ⟨hst', -, hb⟩
      · simp [awSet, hst, hm] at haw
      · have hv : (s.next S x).axiOut.awValid = true := by
          change (s.next S x).awValid = true
          rw [next_awValid, haw, Bool.true_or]
        exact ⟨hb.read.rd, by rw [hb.write.mAw, hv]; rfl,
          List.eq_nil_of_length_eq_zero hb.write.length⟩
    all_goals simp [awSet, hst] at haw
  refine ⟨fun _ hv' => ?_, fun hv hv' => write ?_, fun hv hv' => write ?_⟩
  · obtain ⟨-, hw, b, hr⟩ := h'.bus.of_arValid hv'
    exact hr.quiet hw hv'
  · change s.awValid = false at hv
    change (s.next S x).awValid = true at hv'
    rwa [next_awValid, hv, Bool.false_and, Bool.or_false] at hv'
  · change s.wValid = false at hv
    change (s.next S x).wValid = true at hv'
    rwa [next_wValid, hv, Bool.false_and, Bool.or_false] at hv'

theorem Orderly.disciplined (h : s.Orderly S m L) (ha : m.Answers x.axi) :
    s.Disciplined S m L x := by
  have hwork := h.work
  have hbus := h.bus
  have hlen : L.ws.length = m.w.length := by rw [← h.log.beats, List.length_map]
  refine ⟨⟨h.bus.keeps_ar ha, h.bus.keeps_aw ha, h.bus.keeps_w (fun hst => ?_) ha⟩,
    h.starts ha, h.log, fun hst => ?_, fun hst => ?_, fun hst => ?_, fun hst => ?_⟩
  · rwa [Work, hst] at hwork
  · rw [Work, hst] at hwork
    exact ⟨h.way (by simp [hst]) (by simp [hst]), hwork⟩
  · rw [Work, hst] at hwork
    obtain ⟨a, hs⟩ := hwork
    refine ⟨by simp [axiOut, hst], ?_⟩
    rw [h.log.beats, hlen, hs.sel]
    exact hs.w
  · rw [Work, hst] at hwork
    refine ⟨by simp [axiOut, hst], ?_⟩
    rw [h.log.beats, hlen]
    exact hwork
  · rw [Bus, hst] at hbus
    exact hbus.refillCnt

/-- The cache under any requests, with the log of its bus. -/
def logged (n : ℕ) [NeZero n] (S : ℕ) (pay : Fin n → ℕ × ℕ → ℕ → Byte) (m₀ : ℕ → Byte) :
    Machine ((Dcache n × AxiMem) × AxiLog) (DcIn n) :=
  (machine n S pay m₀).observe AxiLog.empty (fun L q x => L.next q.1.axiOut x.axi) fun _ _ _ => True

theorem orderly_of_reach {pay : Fin n → ℕ × ℕ → ℕ → Byte} {m₀ : ℕ → Byte}
    (h : (logged n S pay m₀).Reach ((s, m), L)) : s.Orderly S m L := by
  refine Machine.Reach.inv (M := logged n S pay m₀) (P := fun q => q.1.1.Orderly S q.1.2 q.2)
    (orderly_reset pay m₀) ?_ h
  rintro ⟨⟨s, m⟩, L⟩ x hs ⟨ha, -⟩
  exact hs.next ha

end Dcache

/-! ### The I-cache -/

namespace Icache

variable {n : ℕ} [NeZero n] {S : ℕ} {s : Icache n} {m : AxiMem} {x : IcIn n} {L : AxiLog}

/-- The beats `l` of a read, the last one first, are in their places of the line that is
replaced. -/
def Stored (S : ℕ) (s : Icache n) (l : List (ℕ → Byte)) : Prop :=
  ∀ w, s.s2oFsmFreeWay w = true → ∀ i f, l.reverse[i]? = some f → ∀ j < 8,
    s.pay w (Dcache.setOf S s.s2oPaddr.toNat, i / 2) (8 * (i % 2) + j) = f j

theorem Stored.next_beat {l : List (ℕ → Byte)} (h : s.Stored S l) (hst : s.state = .refill)
    (hc : s.refillCnt = 8 * l.length) : (s.next S x).Stored S (x.axi.rData :: l) := by
  have hpa : (s.next S x).s2oPaddr = s.s2oPaddr := next_s2oPaddr (pCe_of_state (by simp [hst]))
  intro w hw i f hf j hj
  rw [next_s2oFsmFreeWay (by simp [hst])] at hw
  rw [hpa, next_pay_refill hst hc]
  rw [List.reverse_cons, List.getElem?_append, List.length_reverse] at hf
  split_ifs at hf with hi
  · rw [if_neg (by simp only [Prod.mk.injEq]; omega)]
    exact h w hw i f hf j hj
  · have hi0 : i = l.length := by
      have := (List.getElem?_eq_some_iff.1 hf).1
      simp only [List.length_singleton] at this
      omega
    rw [hi0, Nat.sub_self] at hf
    rw [if_pos ⟨hw, by rw [hi0], by omega⟩]
    simp only [List.getElem?_cons_zero, Option.some_inj] at hf
    rw [← hf]
    congr 1
    omega

theorem Stored.next_wait {l : List (ℕ → Byte)} (h : s.Stored S l) (hst : s.state = .refill)
    (hc : s.refillCnt = 8 * l.length) : (s.next S x).Stored S l := by
  have hpa : (s.next S x).s2oPaddr = s.s2oPaddr := next_s2oPaddr (pCe_of_state (by simp [hst]))
  intro w hw i f hf j hj
  have hi := (List.getElem?_eq_some_iff.1 hf).1
  rw [List.length_reverse] at hi
  rw [next_s2oFsmFreeWay (by simp [hst])] at hw
  rw [hpa, next_pay_refill hst hc, if_neg (by simp only [Prod.mk.injEq]; omega)]
  exact h w hw i f hf j hj

/-- What has been done of the burst that is going on. -/
def Work (S : ℕ) (s : Icache n) (m : AxiMem) (L : AxiLog) : Prop :=
  match s.state with
  | .refill => ∀ b c, m.rd = some (b, c) →
      ∃ l rest, L.reads = (b, l) :: rest ∧ l.length = c ∧ s.Stored S l
  | .reload => ∃ l rest, L.reads = (⟨s.s2oPaddr.toNat / 64 * 64, 7, 3⟩, l) :: rest ∧
      l.length = 8 ∧ s.Stored S l
  | _ => True

/-- The invariant of the cache with its log. -/
structure Orderly (S : ℕ) (s : Icache n) (m : AxiMem) (L : AxiLog) : Prop where
  bus : s.Bus m
  log : L.Tracks m
  free : ∃ k, ∀ w, s.freeWay w = decide (w = k)
  way : s.state = .refill ∨ s.state = .reload → ∃ k, ∀ w, s.s2oFsmFreeWay w = decide (w = k)
  work : s.Work S m L

theorem Bus.polite (h : s.Bus m) : m.NoRead s.axiOut ∨ ∃ b c, m.Reads s.axiOut b c := by
  have hr := h.reading
  rw [Reading] at hr
  cases hst : s.state <;> rw [hst] at hr
  case refill =>
    obtain ⟨c, hr⟩ := hr
    exact Or.inr ⟨_, _, hr.read⟩
  case uncachedRead =>
    obtain ⟨k, hr⟩ := hr
    exact Or.inr ⟨_, _, hr.read⟩
  all_goals exact Or.inl hr.read

/-- An address is raised in the two states that read. -/
theorem Bus.of_arValid (h : s.Bus m) (hv : s.arValid = true) :
    (s.state = .refill ∨ s.state = .uncachedRead) ∧ ∃ b, m.Reads s.axiOut b 0 := by
  have no : s.BusQuiet m → False := fun hq => by
    have := hq.read.arValid
    rw [show s.axiOut.arValid = true from hv] at this
    cases this
  have hr := h.reading
  rw [Reading] at hr
  cases hst : s.state <;> rw [hst] at hr
  case refill =>
    obtain ⟨c, hr⟩ := hr
    obtain rfl : c = 0 := hr.read.first hv
    exact ⟨Or.inl rfl, _, hr.read⟩
  case uncachedRead =>
    obtain ⟨k, hr⟩ := hr
    exact ⟨Or.inr rfl, _, hr.read⟩
  all_goals exact (no hr).elim

theorem Bus.keeps (h : s.Bus m) (ha : m.Answers x.axi) :
    s.axiOut.Keeps x.axi (s.next S x).axiOut := by
  refine ⟨fun hv hr => ?_, fun hv => Bool.noConfusion hv, fun hv => Bool.noConfusion hv⟩
  obtain ⟨hst, b, hb⟩ := h.of_arValid hv
  have hR : s.hdsAxiR x = false := by rw [hdsAxiR, hb.not_rValid ha hv, Bool.false_and]
  have har : s.arSet x = false := by
    rcases hst with hst | hst <;> simp [arSet, fsmUncachedRdReq, hst, hR]
  have hst' : (s.next S x).state = s.state := by
    change s.stateNxt S x = _
    rcases hst with hst | hst <;> simp [stateNxt, hst, hR, hdsAxiRLast]
  refine ⟨?_, by simp only [axiOut, hst', next_arAddr_of_arSet har]⟩
  change (s.next S x).arValid = true
  rw [next_arValid, har, hr, show s.arValid = true from hv]
  rfl

theorem Orderly.work_next_refill (h : s.Orderly S m L) (hst : s.state = .refill)
    (ha : m.Answers x.axi) :
    (s.next S x).Work S (m.next s.axiOut x.axi) (L.next s.axiOut x.axi) := by
  have hl := h.work
  have hbus := h.bus.reading
  rw [Work, hst] at hl
  rw [Reading, hst] at hbus
  obtain ⟨c, hbus⟩ := hbus
  have hpa : (s.next S x).s2oPaddr = s.s2oPaddr := next_s2oPaddr (pCe_of_state (by simp [hst]))
  have haddr' : (s.next S x).arAddr = s.arAddr :=
    next_arAddr_of_arSet (by simp [arSet, fsmUncachedRdReq, hst])
  have hdef : s.hdsAxiR x = (x.axi.rValid && s.axiOut.rReady) := rfl
  rcases hbus.next (S := S) hst ha with ⟨hR, hst', -⟩ | ⟨hR, hc, hst', hbus'⟩ | ⟨hR, hc, hst', -⟩
  · -- no beat: the address may be taken
    rw [Work, hst']
    intro b' c' hrd
    rw [hdef] at hR
    cases hv : s.axiOut.arValid && x.axi.arReady with
    | true =>
        simp only [AxiMem.next, hv, if_true, Option.some_inj, Prod.mk.injEq] at hrd
        refine ⟨[], L.reads, ?_, by simp [← hrd.2], fun w _ i f hf => by simp at hf⟩
        simp [AxiLog.next, hv, hR, hrd.1]
    | false =>
        simp only [AxiMem.next, hv, hR, Bool.false_eq_true, if_false] at hrd
        obtain ⟨l, rest, h₁, h₂, h₃⟩ := hl b' c' hrd
        refine ⟨l, rest, by simp [AxiLog.next, hv, hR, h₁], h₂, h₃.next_wait hst ?_⟩
        have hcc : c = c' := by
          have := hbus.read.rd
          rw [hrd] at this
          split_ifs at this
          simpa using (Prod.mk.inj (Option.some.inj this)).2.symm
        rw [hbus.refillCnt, h₂, hcc]
  all_goals
    have hrv : x.axi.rValid = true := by
      rw [hdef, Bool.and_eq_true] at hR
      exact hR.1
    obtain ⟨hv, hlast, -⟩ := hbus.read.data ha hrv
    have hrd : m.rd = some (⟨s.arAddr, 7, 3⟩, c) := by
      rw [hbus.read.rd, hv]
      rfl
    obtain ⟨l, rest, h₁, h₂, h₃⟩ := hl _ _ hrd
    have hstored : (s.next S x).Stored S (x.axi.rData :: l) :=
      h₃.next_beat hst (by rw [hbus.refillCnt, h₂])
    rw [hdef] at hR
    have hreads : (L.next s.axiOut x.axi).reads = (⟨s.arAddr, 7, 3⟩, x.axi.rData :: l) :: rest := by
      simp [AxiLog.next, hv, hR, h₁]
    rw [Work, hst']
  · intro b' c' hrd'
    rw [hbus'.read.rd] at hrd'
    split_ifs at hrd'
    obtain ⟨rfl, rfl⟩ := Prod.mk.inj (Option.some.inj hrd')
    exact ⟨_, rest, by rw [hreads, haddr'], by rw [List.length_cons, h₂], hstored⟩
  · exact ⟨_, rest, by rw [hreads, hbus.addr, hpa], by rw [List.length_cons, h₂, hc], hstored⟩

theorem Orderly.next (h : s.Orderly S m L) (ha : m.Answers x.axi) :
    (s.next S x).Orderly S (m.next s.axiOut x.axi) (L.next s.axiOut x.axi) := by
  refine ⟨h.bus.next ha, h.log.next ha h.bus.polite (Or.inl h.bus.write), ?_, fun hst' => ?_, ?_⟩
  · obtain ⟨k, hk⟩ := h.free
    exact ⟨_, Dcache.rotate_eq hk⟩
  · by_cases hst : s.state = .replace
    · change ∃ k, ∀ w, ldff (decide (s.state = .replace)) s.freeWay s.s2oFsmFreeWay w = _
      rw [decide_eq_true hst]
      exact h.free
    · rw [next_s2oFsmFreeWay hst]
      rcases hst' with hst' | hst'
      · exact h.way (Or.inl ((of_next_refill hst').resolve_left hst))
      · exact h.way (Or.inl (of_next_reload hst'))
  · by_cases hst : s.state = .refill
    · exact h.work_next_refill hst ha
    · rw [Work]
      cases hs' : (s.next S x).state with
      | refill =>
          -- the address has just been raised
          intro b c hrd
          have hreplace : s.state = .replace := (of_next_refill hs').resolve_right hst
          obtain ⟨-, hb⟩ := BusQuiet.next_replace (S := S) (h.bus.quiet (by simp [hreplace]))
            ha hreplace
          have hv : (s.next S x).axiOut.arValid = true := by
            change (s.next S x).arValid = true
            rw [next_arValid, show s.arSet x = true by simp [arSet, hreplace], Bool.true_or]
          rw [hb.read.rd, hv] at hrd
          cases hrd
      | reload => exact (hst (of_next_reload hs')).elim
      | _ => trivial

/-- The rules of the bus in one cycle of the I-cache. -/
structure Disciplined (S : ℕ) (s : Icache n) (m : AxiMem) (L : AxiLog) (x : IcIn n) : Prop where
  keeps : s.axiOut.Keeps x.axi (s.next S x).axiOut
  starts : s.axiOut.Starts (s.next S x).axiOut (m.next s.axiOut x.axi)
  log : L.Tracks m
  /-- After a refill, beat `i` of the burst is at eight times `i` in the line, in one way. -/
  stored : s.state = .reload → (∃ w, ∀ w', s.s2oFsmFreeWay w' = decide (w' = w)) ∧
    ∃ l rest, L.reads = (⟨s.s2oPaddr.toNat / 64 * 64, 7, 3⟩, l) :: rest ∧ l.length = 8 ∧
      s.Stored S l
  counter : s.state = .idle → s.refillCnt = 0 ∧ s.uncachedCnt = 0

theorem Orderly.disciplined (h : s.Orderly S m L) (ha : m.Answers x.axi) :
    s.Disciplined S m L x := by
  have hwork := h.work
  refine ⟨h.bus.keeps ha, ⟨fun _ hv => ?_, fun _ hv => Bool.noConfusion hv,
    fun _ hv => Bool.noConfusion hv⟩, h.log, fun hst => ?_, fun hst => ?_⟩
  · have hbus' := (h.next (S := S) ha).bus
    obtain ⟨-, b, hr⟩ := hbus'.of_arValid hv
    exact hr.quiet hbus'.write hv
  · rw [Work, hst] at hwork
    exact ⟨h.way (Or.inr hst), hwork⟩
  · have hq := h.bus.quiet (by simp [hst])
    exact ⟨hq.refillCnt, hq.uncachedCnt⟩

/-- The cache under any requests, with the log of its bus. -/
def logged (n : ℕ) [NeZero n] (S : ℕ) (tagV : Fin n → ℕ → ℕ × Bool) (pay : Fin n → ℕ × ℕ → ℕ → Byte)
    (m₀ : ℕ → Byte) : Machine ((Icache n × AxiMem) × AxiLog) (IcIn n) :=
  (machine n S tagV pay m₀).observe AxiLog.empty (fun L q x => L.next q.1.axiOut x.axi)
    fun _ _ _ => True

theorem orderly_of_reach {tagV : Fin n → ℕ → ℕ × Bool} {pay : Fin n → ℕ × ℕ → ℕ → Byte}
    {m₀ : ℕ → Byte} (h : (logged n S tagV pay m₀).Reach ((s, m), L)) : s.Orderly S m L := by
  refine Machine.Reach.inv (M := logged n S tagV pay m₀) (P := fun q => q.1.1.Orderly S q.1.2 q.2)
    ?_ ?_ h
  · refine ⟨bus_reset tagV pay m₀, AxiLog.tracks_idle m₀, ⟨0, fun _ => rfl⟩, fun hst => ?_, trivial⟩
    rcases hst with hst | hst
    · cases hst
    · cases hst
  · rintro ⟨⟨s, m⟩, L⟩ x hs ⟨ha, -⟩
    exact hs.next ha

end Icache

/-! ### Both caches -/

section

variable {k n : ℕ} [NeZero k] [NeZero n] {S T : ℕ} {pay : Fin k → ℕ × ℕ → ℕ → Byte}
  {tagV : Fin n → ℕ → ℕ × Bool} {payI : Fin n → ℕ × ℕ → ℕ → Byte} {m₀ m₁ : ℕ → Byte}
  {d : Dcache k} {i : Icache n} {m mI : AxiMem} {L LI : AxiLog} {x : DcIn k} {y : IcIn n}

/-- **The caches keep to the rules of the bus**, under any requests, kills and invalidations and
with any delays of the memory. -/
theorem axi_discipline (hd : (Dcache.logged k S pay m₀).Reach ((d, m), L)) (hx : m.Answers x.axi)
    (hi : (Icache.logged n T tagV payI m₁).Reach ((i, mI), LI)) (hy : mI.Answers y.axi) :
    d.Disciplined S m L x ∧ i.Disciplined T mI LI y :=
  ⟨(Dcache.orderly_of_reach hd).disciplined hx, (Icache.orderly_of_reach hi).disciplined hy⟩

end

/-- A store that misses, and later an order to write its line back. -/
def storeThenFlush : ℕ → DcReq
  | 17 => Dcache.access 15 0x11223344 0x44
  | 50 => ⟨true, 2, 0, 0, 0x44, false, true⟩
  | _ => Dcache.noReq

def flushing : Machine ((Dcache 2 × AxiMem) × AxiLog) (DcIn 2) :=
  Dcache.logged 2 4 (fun _ _ _ => 0) fun _ => 0

/-- The D-cache with these requests, in front of a prompt memory. -/
def flushed : ℕ → (Dcache 2 × AxiMem) × AxiLog
  | 0 => flushing.reset
  | k + 1 =>
      flushing.next (flushed k) (Dcache.pageZero 2 (storeThenFlush k)
        (AxiIn.prompt (flushed k).1.2))

theorem reach_flushed (k : ℕ) : flushing.Reach (flushed k) := by
  induction k with
  | zero => exact Machine.Reach.reset
  | succ k ih => exact Machine.Reach.tick ih ⟨AxiMem.answers_prompt _, trivial⟩

/-- A fetch of the first window. -/
def fetchFirst (axi : AxiIn) : IcIn 2 := ⟨true, 0, 0, false, false, false, 0, axi, fun _ _ => 0⟩

def filling : Machine ((Icache 2 × AxiMem) × AxiLog) (IcIn 2) :=
  Icache.logged 2 4 (fun _ _ => (0, false)) (fun _ _ _ => 0) fun _ => 0

/-- The I-cache with fetches of the first window, in front of a prompt memory. -/
def filled : ℕ → (Icache 2 × AxiMem) × AxiLog
  | 0 => filling.reset
  | k + 1 => filling.next (filled k) (fetchFirst (AxiIn.prompt (filled k).1.2))

theorem reach_filled (k : ℕ) : filling.Reach (filled k) := by
  induction k with
  | zero => exact Machine.Reach.reset
  | succ k ih => exact Machine.Reach.tick ih ⟨AxiMem.answers_prompt _, trivial⟩

/-- The D-cache has sent nine words of the stored line, and then has to wait; the I-cache has just
read a line. -/
theorem axi_discipline_flushed :
    let q := flushed 62
    let r := filled 28
    (q.1.1.state = .writeback ∧ q.2.ws.length = 9 ∧ r.1.1.state = .reload) ∧
      q.1.1.Disciplined 4 q.1.2 q.2 (Dcache.pageZero 2 Dcache.noReq AxiIn.silent) ∧
        r.1.1.Disciplined 4 r.1.2 r.2 (fetchFirst (AxiIn.prompt r.1.2)) := by
  have hstate : (flushed 62).1.1.state = .writeback ∧ (flushed 62).2.ws.length = 9 ∧
      (filled 28).1.1.state = .reload := by decide +kernel
  exact ⟨hstate, axi_discipline (reach_flushed 62) (AxiMem.answers_silent _) (reach_filled 28)
    (AxiMem.answers_prompt _)⟩

end NanoCpu
