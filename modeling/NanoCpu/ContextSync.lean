/-
**Changes of context** (`s1i_refetch` in `rtl/core/cmt_epu.v`, `cmt_irqc.v`, the interrupt in
`id_dec.v`, the flush of `frontend.v`).

Translation happens when an instruction is fetched, and an interrupt is put in the place of an
instruction when it is decoded; the registers that control both change at commit.  A write of the
PSR or of a TLB flushes the core, as an exception and a return do, so whatever commits afterwards
was asked for afterwards.  A write of the interrupt mask does not, and an interrupt that the mask
has come to forbid, or whose request has gone, is taken all the same.

Main definitions:

* `Core.context` — the context changes in this cycle;
* `Core.irqTaken` — an interrupt is taken in this cycle;
* `Core.synced` — the core, with the cycle of the last change of context and the request of the last
  cycle;
* `Core.Kept` — a request is kept while an instruction is marked with it.

Main results:

* `Core.flush_of_context` — a change of context flushes the core now or in the next cycle;
* `Core.context_sync` — what commits was asked for after the last change of context, and as long as
  requests are kept an interrupt is taken only when it is enabled, requested and not masked;
* `Core.masked_irq_taken` — a program that masks the request before the instruction that is marked.
-/

import NanoCpu.ExcEntry
import NanoCpu.Squash

set_option relaxedAutoImplicit false
set_option autoImplicit false
set_option linter.unusedSectionVars false

namespace NanoCpu

/-! ### The registers of the context -/

/-- The write enables of the PSR and of the TLBs. -/
def WmsrWe.ctx (w : WmsrWe) : Bool := w.psr || w.immTlbl || w.immTlbh || w.dmmTlbl || w.dmmTlbh

theorem WmsrWe.any_of_ctx {w : WmsrWe} (h : w.ctx = true) : w.any = true := by
  simp only [ctx, Bool.or_eq_true] at h
  simp only [any, Bool.or_eq_true]
  tauto

/-- An enable of the context asks for a refetch. -/
theorem EpuReq.s1Refetch_of_ctx {r : EpuReq} (h : r.wmsrWe.ctx = true) : r.s1Refetch = true := by
  obtain ⟨b, -, -, hb⟩ := wmsrWe_any (WmsrWe.any_of_ctx h)
  have hv : r.reqValid = true := by
    simp only [wmsr, Bool.and_eq_true] at hb
    exact hb.1.1
  rw [s1Refetch, hv, Bool.true_and]
  exact h

/-- The enable of interrupts changes only with a write of the PSR, an exception or a return. -/
theorem Epu.ire_psrNext {e : Epu} {r : EpuIn} (hx : e.excFlush r = false)
    (hw : (e.commitWe r).psr = false) : (e.psrNext r).ire = e.psr.ire := by
  have hs : e.psrSave r = false := by
    by_contra hne
    have h1 := Bool.eq_true_of_not_eq_false hne
    simp only [psrSave, Bool.and_eq_true, Bool.or_eq_true] at h1
    have : e.excFlush r = true := by
      simp only [excFlush, Bool.and_eq_true, Bool.or_eq_true]
      tauto
    rw [hx] at this
    cases this
  have hr : (r.pCeS2 && e.s1Fe.eret) = false := by
    by_contra hne
    have h1 := Bool.eq_true_of_not_eq_false hne
    rw [Bool.and_eq_true] at h1
    have : e.excFlush r = true := by
      simp [excFlush, h1.1, h1.2]
    rw [hx] at this
    cases this
  simp [psrNext, Psr.next, psrWr, Psr.nold, hs, hr, hw]

namespace Core

variable {n : ℕ} [NeZero n] (C : CoreCfg) (s : Core n) (x : CoreIn)

/-- The context changes in this cycle: a WMSR writes the PSR or a TLB, or an exception is taken, or
a return. -/
def context : Bool := (s.be.cmt.epu.commitWe (s.epuIn C x)).ctx || s.be.cmt.excFlush (s.cmtIn C x)

/-- An interrupt is taken in this cycle. -/
def irqTaken : Bool := s.be.cmt.epu.s1Fe.eirq && !x.dcStall

end Core

/-- The cycle of the last change of context, and whether some interrupt was requested and not masked
in the last cycle. -/
structure CtxLog where
  changed : ℕ
  req : Bool

namespace Core

variable {n : ℕ} [NeZero n]

/-- The core beside which the changes of context are noted, under a promise. -/
def synced (n : ℕ) [NeZero n] (C : CoreCfg) (pcRst : Pc) (u : Bpu) (w : IqWord) (z : RInsn)
    (ok : CtxLog → Core n × CoreLog → CoreIn → Prop) :
    Machine ((Core n × CoreLog) × CtxLog) CoreIn :=
  (observed n C pcRst u w z).observe ⟨0, false⟩
    (fun c q x => ⟨if q.1.context C x then q.2.log.now else c.changed, q.1.irqReq C x⟩) ok

/-- Some instruction between the decoder and commit was marked with an interrupt when it was
decoded. -/
def Marked (h : CoreLog) : Prop := ∃ m, h.trace.log.head ≤ m ∧ m < h.log.popped ∧ h.irq m = true

/-- A request of the last cycle is still there, not masked, if an instruction is marked with it. -/
def Kept (C : CoreCfg) (c : CtxLog) (q : Core n × CoreLog) (x : CoreIn) : Prop :=
  c.req = true → Marked q.2 → q.1.irqReq C x = true

variable {C : CoreCfg} {s : Core n} {x : CoreIn} {h : CoreLog} {c : CtxLog} {pcRst : Pc} {u : Bpu}
  {w : IqWord} {z : RInsn} {ok : CtxLog → Core n × CoreLog → CoreIn → Prop}

/-! ### The flush behind a change of context -/

/-- **A change of context flushes the core**, now or in the next cycle. -/
theorem flush_of_context (hi : s.be.Inv C.D h.trace) (hc : s.context C x = true) :
    s.flush C x = true ∨ (s.next C x).be.cmt.seFls = true := by
  rw [context, Bool.or_eq_true] at hc
  rcases hc with hw | hx
  · by_cases hfl : s.flush C x = true
    · exact .inl hfl
    · right
      rw [Bool.not_eq_true] at hfl
      have hce : (s.epuIn C x).pCeS2 = true := by
        by_contra hne
        rw [Epu.commitWe, if_neg hne] at hw
        cases hw
      rw [Epu.commitWe, if_pos hce] at hw
      have hany := WmsrWe.any_of_ctx hw
      have hp : s.be.cmt.pending = true := by
        by_contra hne
        rw [(hi.cmt.quiet (by simpa using hne)).wmsrWe] at hany
        cases hany
      obtain ⟨g, hg⟩ := hi.cmt.flight hp
      have hgE : g = .epu := by
        by_contra hne
        rw [hg.wmsrWe_any hne] at hany
        cases hany
      subst hgE
      rw [hg.wmsrWe rfl] at hw
      have href : s.be.cmt.epu.refetch (s.epuIn C x) = true := by
        rw [Epu.refetch, hce, hg.refetch, EpuReq.s1Refetch_of_ctx hw]
        rfl
      have hfin : s.be.cmt.pipeFinish (s.cmtIn C x) = true := by
        have hwb : s.be.cmt.epu.s1WbValid = true := hg.wbValid
        rw [Cmt.pipeFinish, Cmt.epuWbValid, Epu.wbValid, hwb]
        change (_ || (true && (s.epuIn C x).pCeS2)) = true
        rw [hce]
        simp
      have hfire := (Cmt.Inv.fire_of_finish (x := s.cmtIn C x) hi.cmt hfin hfl).1
      have hse := hi.cmt.se hp
      change ldff (s.be.cmt.fire (s.cmtIn C x) 0 || s.be.cmt.seFls)
        (((s.be.head C.D 0).fls || s.be.cmt.epu.refetch (s.epuIn C x)) && !s.be.cmt.seFls)
        s.be.cmt.seFls = true
      rw [hfire, hse, href]
      simp [ldff]
  · left
    change (s.be.cmt.seFls || s.be.cmt.excFlush (s.cmtIn C x)) = true
    rw [hx, Bool.or_true]

/-! ### What commits after a change -/

/-- The core has been flushed since the last change of context, or is about to be. -/
structure Synced (s : Core n) (h : CoreLog) (c : CtxLog) : Prop where
  changed : c.changed ≤ h.log.flushAt ∨ s.be.cmt.seFls = true
  now : c.changed < h.log.now

theorem Synced.next (hs : Synced s h c) (hi : s.be.Inv C.D h.trace) :
    Synced (s.next C x) (logNext C h s x)
      ⟨if s.context C x then h.log.now else c.changed, s.irqReq C x⟩ := by
  have hnow := hs.now
  have hnow' : (logNext C h s x).log.now = h.log.now + 1 := rfl
  have hfl : (logNext C h s x).log.flushAt = if s.flush C x then h.log.now else h.log.flushAt := rfl
  refine ⟨?_, ?_⟩
  · rw [hfl]
    cases hf : s.flush C x with
    | true =>
        left
        rw [if_pos rfl]
        dsimp only
        split_ifs <;> omega
    | false =>
        cases hc : s.context C x with
        | true =>
            right
            exact (flush_of_context hi hc).resolve_left (by simp [hf])
        | false =>
            left
            have hse : s.be.cmt.seFls = false := by
              have : (s.be.cmt.seFls || s.be.cmt.excFlush (s.cmtIn C x)) = false := hf
              rw [Bool.or_eq_false_iff] at this
              exact this.1
            rcases hs.changed with h1 | h1
            · simpa using h1
            · rw [hse] at h1
              cases h1
  · rw [hnow']
    dsimp only
    split_ifs <;> omega

/-! ### Marks -/

/-- As long as an instruction is marked, interrupts are enabled, and there was a request in the last
cycle; or the core is about to be flushed. -/
def Pending (s : Core n) (h : CoreLog) (c : CtxLog) : Prop :=
  Marked h → s.be.cmt.seFls = true ∨ (s.be.cmt.epu.psr.ire = true ∧ c.req = true)

theorem Pending.next (hm : Pending s h c) (hi : s.be.Inv C.D h.trace) (hk : Kept C c (s, h) x) :
    Pending (s.next C x) (logNext C h s x)
      ⟨if s.context C x then h.log.now else c.changed, s.irqReq C x⟩ := by
  rintro ⟨m, hh, hlt, hirq⟩
  cases hf : s.flush C x with
  | true =>
      have hp : (logNext C h s x).log.popped = 0 := by
        have hfe : (s.feIn C x).flush = true := hf
        simp [logNext, FetchLog.next, hfe]
      omega
  | false =>
      have hse : s.be.cmt.seFls = false ∧ s.be.cmt.excFlush (s.cmtIn C x) = false := by
        have : (s.be.cmt.seFls || s.be.cmt.excFlush (s.cmtIn C x)) = false := hf
        simpa using this
      have hp : (logNext C h s x).log.popped = h.log.popped + s.fe.idPopCnt C.P (s.feIn C x) := by
        have hfe : (s.feIn C x).flush = false := hf
        simp [logNext, FetchLog.next, hfe]
      have hhead : (logNext C h s x).trace.log.head = h.trace.log.head + s.be.popSize C.D
        (s.beIn x) :=
        Backend.Trace.next_head hf
      rcases Nat.lt_or_ge m h.log.popped with hold | hnew
      · -- the mark was there before
        rw [logNext_irq_old hold] at hirq
        have hmk : Marked h := ⟨m, by omega, hold, hirq⟩
        obtain ⟨hire, hreq⟩ := (hm hmk).resolve_left (by simp [hse.1])
        cases hc : s.context C x with
        | true => exact .inl ((flush_of_context hi hc).resolve_left (by simp [hf]))
        | false =>
            right
            rw [context, Bool.or_eq_false_iff] at hc
            have hw : (s.be.cmt.epu.commitWe (s.epuIn C x)).psr = false := by
              have := hc.1
              simp only [WmsrWe.ctx, Bool.or_eq_false_iff] at this
              exact this.1.1.1.1
            have hpsr : (s.psr C x).ire = s.be.cmt.epu.psr.ire := Epu.ire_psrNext hse.2 hw
            exact ⟨hpsr.trans hire, hk hreq hmk⟩
      · obtain ⟨k, rfl⟩ := Nat.exists_eq_add_of_le hnew
        rw [logNext_irq_new (by omega), irqAsync, Bool.and_eq_true] at hirq
        exact .inr ⟨hirq.2, hirq.1⟩

/-- The instruction that an interrupt is taken for was marked with it. -/
theorem irq_of_irqTaken (hi : s.be.Inv C.D h.trace) (hfe : s.Feeds C h) (ht : s.irqTaken x = true) :
    s.be.cmt.pending = true ∧ h.trace.log.Live h.trace.log.head ∧ h.irq h.trace.log.head = true ∧
      s.be.cmt.epu.s1WmsrWe.any = false := by
  rw [irqTaken, Bool.and_eq_true] at ht
  have hp : s.be.cmt.pending = true := by
    by_contra hne
    have := ht.1
    rw [(hi.cmt.quiet (by simpa using hne)).fe] at this
    cases this
  obtain ⟨g, hg⟩ := hi.cmt.flight hp
  have hval := hi.cmt.valid hp
  obtain ⟨num, -, hv⟩ := hi.place
  have hE : g = .epu := by
    by_contra hne
    have := ht.1
    rw [hg.fe, if_neg hne] at this
    cases this
  have hs1 := ht.1
  rw [hg.fe, if_pos hE] at hs1
  have hs1' : ((s.be.head C.D 0).epuReq.reqValid && (s.be.head C.D 0).exc &&
      (Fe.ofWord (s.be.head C.D 0).vbank.opera).eirq) = true := hs1
  simp only [Bool.and_eq_true] at hs1'
  have hlive : h.trace.log.Live h.trace.log.head := (hi.order.ent_eq (i := 0) (by omega) hval).1
  rw [hi.head_fe hval hs1'.1.2, hfe.renamed _ (Backend.lt_nextNum_of_live hlive)] at hs1'
  refine ⟨hp, hlive, hs1'.2, ?_⟩
  exact hg.wmsrWe_of_excCond (hi.order.head_wellFormed hv hval) (a := .eirq) ht.1

/-! ### Every run -/

theorem observed_of_synced (hr : (synced n C pcRst u w z ok).Reach ((s, h), c)) :
    (observed n C pcRst u w z).Reach (s, h) :=
  Machine.Reach.of_observe hr

theorem synced_of_reach (hP : 1 ≤ C.P) (hr : (synced n C pcRst u w z ok).Reach ((s, h), c)) :
    Synced s h c := by
  suffices hs : ∀ q, (synced n C pcRst u w z ok).Reach q →
      (observed n C pcRst u w z).Reach q.1 ∧ Synced q.1.1 q.1.2 q.2 from (hs _ hr).2
  intro q hq
  refine Machine.Reach.inv (P := fun q => (observed n C pcRst u w z).Reach q.1 ∧
    Synced q.1.1 q.1.2 q.2) ?_ ?_ hq
  · exact ⟨Machine.Reach.reset, .inl le_rfl, Nat.zero_lt_one⟩
  · rintro ⟨⟨s, h⟩, c⟩ x ⟨hr, hs⟩ hx
    exact ⟨Machine.Reach.tick hr hx.1, hs.next (Backend.inv_of_reach (feeds_of_reach hP hr).2.1)⟩

theorem pending_of_reach (hP : 1 ≤ C.P) (hr : (synced n C pcRst u w z (Kept C)).Reach ((s, h), c)) :
    Pending s h c := by
  suffices hs : ∀ q, (synced n C pcRst u w z (Kept C)).Reach q →
      (observed n C pcRst u w z).Reach q.1 ∧ Pending q.1.1 q.1.2 q.2 from (hs _ hr).2
  intro q hq
  refine Machine.Reach.inv (P := fun q => (observed n C pcRst u w z).Reach q.1 ∧
    Pending q.1.1 q.1.2 q.2) ?_ ?_ hq
  · refine ⟨Machine.Reach.reset, ?_⟩
    rintro ⟨m, -, hm, -⟩
    exact absurd hm (Nat.not_lt_zero m)
  · rintro ⟨⟨s, h⟩, c⟩ x ⟨hr, hs⟩ hx
    exact ⟨Machine.Reach.tick hr hx.1,
      hs.next (Backend.inv_of_reach (feeds_of_reach hP hr).2.1) hx.2⟩

/-- **Changes of context, and interrupts.**  In every run, an instruction that commits, or that an
exception is taken for, was asked for after the last change of context, so it was translated by the
registers that are in force.  In every run in which a request stays as long as an instruction is
marked with it, an interrupt is taken only when interrupts are enabled and some request is not
masked. -/
theorem context_sync (hP : 1 ≤ C.P) :
    (∀ (s : Core n) h c, (synced n C pcRst u w z fun _ _ _ => True).Reach ((s, h), c) → ∀ x i,
      s.be.fire C.D (s.beIn x) i = true ∧ i < 2 ∨ i = 0 ∧ s.be.cmt.excFlush (s.cmtIn C x) = true →
      (h.trace.ins (h.trace.log.head + i)).d =
          (h.log.word (h.trace.log.head + i)).decode true (h.irq (h.trace.log.head + i)) ∧
        c.changed < h.log.wordAt (h.trace.log.head + i)) ∧
    ∀ (s : Core n) h c, (synced n C pcRst u w z (Kept C)).Reach ((s, h), c) → ∀ x,
      Kept C c (s, h) x → s.irqTaken x = true →
      s.be.cmt.epu.psr.ire = true ∧ x.rd.irr &&& ~~~s.be.cmt.epu.imr ≠ 0 := by
  refine ⟨fun s h c hr x i hx => ?_, fun s h c hr x hk ht => ?_⟩
  · have hro := observed_of_synced hr
    have hi := Backend.inv_of_reach (feeds_of_reach hP hro).2.1
    have key : h.trace.log.Live (h.trace.log.head + i) ∧ s.be.cmt.seFls = false := by
      rcases hx with ⟨hfire, hi2⟩ | ⟨rfl, hexc⟩
      · have hfl := Cmt.flush_of_fire hfire
        have hpop : i < s.be.popSize C.D (s.beIn x) := by
          rw [Backend.fire_eq hi2, decide_eq_true_eq] at hfire
          exact hfire
        refine ⟨(hi.order.live_of_lt hpop).2, ?_⟩
        have : (s.be.cmt.seFls || s.be.cmt.excFlush (s.cmtIn C x)) = false := hfl
        rw [Bool.or_eq_false_iff] at this
        exact this.1
      · have hp := (Backend.flight_of_excFlush (feeds_of_reach hP hro).2.1 hexc).1
        exact ⟨(hi.order.ent_eq (i := 0) (by omega) (hi.cmt.valid hp)).1, hi.cmt.se hp⟩
    have hf := fresh_of_lt hP hro (Backend.lt_nextNum_of_live key.1)
    refine ⟨hf.2.1, lt_of_le_of_lt ?_ hf.2.2⟩
    exact (synced_of_reach hP hr).changed.resolve_right (by simp [key.2])
  · have hro := observed_of_synced hr
    obtain ⟨-, ht', hfe⟩ := feeds_of_reach hP hro
    have hi := Backend.inv_of_reach ht'
    obtain ⟨hp, hlive, hirq, hw⟩ := irq_of_irqTaken hi hfe ht
    have hpop := hfe.popped
    have hlt := Backend.lt_nextNum_of_live (s := s.be) hlive
    have hmk : Marked h := ⟨_, le_rfl, by omega, hirq⟩
    obtain ⟨hire, hreq⟩ := (pending_of_reach hP hr hmk).resolve_left (by simp [hi.cmt.se hp])
    refine ⟨hire, ?_⟩
    have hq := hk hreq hmk
    have himr : s.be.cmt.epu.imrNext (s.epuIn C x) = s.be.cmt.epu.imr := by
      have hany := Epu.commitWe_of_none hw (s.epuIn C x)
      have h0 : (s.be.cmt.epu.commitWe (s.epuIn C x)).irqcImr = false := by
        simp only [WmsrWe.any, Bool.or_eq_false_iff] at hany
        exact hany.1.1.1.2
      rw [Epu.imrNext, h0, ldff, if_neg Bool.false_ne_true]
    have hq' : ((x.rd.irr &&& ~~~(s.be.cmt.epu.imrNext (s.epuIn C x))) != 0) = true := hq
    rwa [himr, bne_iff_ne] at hq'

/-! ### A request that is masked too late -/

/-- The program `WMSR IMR, r0; ORI r1, r0, 0x30; WMSR PSR, r1; WMSR IMR, r1`, and then NOPs:
interrupts are enabled, and then numbers 4 and 5 are masked. -/
def maskProgram (pc : Pc) : BitVec 32 :=
  match (pc - 0xc000000).toNat with
  | 0 => (0xC01 <<< 17) ||| 0x460
  | 1 => (0x30 <<< 17) ||| 0x61
  | 2 => (1 <<< 17) ||| 0x461
  | 3 => (0xC01 <<< 17) ||| 0x461
  | _ => 0

/-- Interrupt 4 is requested from the cycle on in which the instruction behind the last WMSR is
decoded. -/
def lateIrq (k : ℕ) : Word := if 21 ≤ k then 0x10 else 0

/-- The thirtieth cycle of the program. -/
theorem maskProgram_run :
    (chipRun maskProgram lateIrq 30).1.irqTaken
        ((chipRun maskProgram lateIrq 30).1.memIn maskProgram (lateIrq 30)) = true ∧
      (chipRun maskProgram lateIrq 30).1.be.cmt.excFlush
      ((chipRun maskProgram lateIrq 30).1.cmtIn chip
        ((chipRun maskProgram lateIrq 30).1.memIn maskProgram (lateIrq 30))) = true ∧
      (chipRun maskProgram lateIrq 30).1.be.cmt.epu.imr = 0x30 := by
  have h : ((chipRun maskProgram lateIrq 30).1.irqTaken
        ((chipRun maskProgram lateIrq 30).1.memIn maskProgram (lateIrq 30)),
      (chipRun maskProgram lateIrq 30).1.be.cmt.excFlush
        ((chipRun maskProgram lateIrq 30).1.cmtIn chip
        ((chipRun maskProgram lateIrq 30).1.memIn maskProgram (lateIrq 30))),
      (chipRun maskProgram lateIrq 30).1.be.cmt.epu.imr) = (true, true, 0x30) := by
    decide +kernel
  simp only [Prod.mk.injEq] at h
  exact h

theorem synced_of_chipRun (mem : Pc → BitVec 32) (irr : ℕ → Word) (k : ℕ) :
    ∃ c, (synced 4 chip 0xc000000 Frontend.bpuRst Frontend.emptyWord emptyInsn
      fun _ _ _ => True).Reach (((chipRun mem irr k).1, (chipRun mem irr k).2), c) :=
  Machine.Reach.observed _ _ (chipRun_reach mem irr k)

/-- The same without the last WMSR: interrupts are enabled, and no number is masked. -/
def enableProgram (pc : Pc) : BitVec 32 := if pc = 0xc000003 then 0 else maskProgram pc

/-- A request that does not go away is kept. -/
theorem kept_of_chipRun (mem : Pc → BitVec 32) (irr : ℕ → Word) {k : ℕ}
    (h : ∀ j < k, (chipRun mem irr j).1.irqReq chip
      ((chipRun mem irr j).1.memIn mem (irr j)) = true →
      (chipRun mem irr (j + 1)).1.irqReq chip
      ((chipRun mem irr (j + 1)).1.memIn mem (irr (j + 1))) = true) :
    ∃ c, (synced 4 chip 0xc000000 Frontend.bpuRst Frontend.emptyWord emptyInsn (Kept chip)).Reach
        (((chipRun mem irr k).1, (chipRun mem irr k).2), c) ∧
      (c.req = true → (chipRun mem irr k).1.irqReq chip ((chipRun mem irr k).1.memIn mem (irr k)) =
        true) := by
  induction k with
  | zero => exact ⟨⟨0, false⟩, Machine.Reach.reset, fun h => Bool.noConfusion h⟩
  | succ k ih =>
      obtain ⟨c, hr, hreq⟩ := ih fun j hj => h j (by omega)
      exact ⟨_, Machine.Reach.tick hr ⟨trivial, fun hc _ => hreq hc⟩, h k (Nat.lt_succ_self k)⟩

/-- The instruction that is interrupted in the first program was asked for after the WMSR that
enabled interrupts; and in the second one interrupts are enabled where it is interrupted, and the
request is not masked. -/
theorem context_sync_programs :
    (∃ s h c x, (synced 4 chip 0xc000000 Frontend.bpuRst Frontend.emptyWord emptyInsn
        fun _ _ _ => True).Reach ((s, h), c) ∧
      s.be.cmt.excFlush (s.cmtIn chip x) = true ∧ c.changed < h.log.wordAt h.trace.log.head) ∧
    ∃ s h c x, (synced 4 chip 0xc000000 Frontend.bpuRst Frontend.emptyWord emptyInsn
        (Kept chip)).Reach ((s, h), c) ∧
      s.irqTaken x = true ∧ s.be.cmt.epu.psr.ire = true ∧ x.rd.irr &&& ~~~s.be.cmt.epu.imr ≠ 0 := by
  constructor
  · obtain ⟨c, hc⟩ := synced_of_chipRun maskProgram lateIrq 30
    have hrun := maskProgram_run
    generalize chipRun maskProgram lateIrq 30 = q at hc hrun
    exact ⟨q.1, q.2, c, _, hc, hrun.2.1,
      ((context_sync (C := chip) (by decide)).1 _ _ _ hc _ 0 (.inr ⟨rfl, hrun.2.1⟩)).2⟩
  · obtain ⟨c, hc, hreq⟩ := kept_of_chipRun enableProgram lateIrq (k := 29) (by decide +kernel)
    have hrun : (chipRun enableProgram lateIrq 29).1.irqTaken
        ((chipRun enableProgram lateIrq 29).1.memIn enableProgram (lateIrq 29)) = true := by
          decide +kernel
    generalize chipRun enableProgram lateIrq 29 = q at hc hreq hrun
    exact ⟨q.1, q.2, c, _, hc, hrun,
      (context_sync (C := chip) (by decide)).2 _ _ _ hc _ (fun h _ => hreq h) hrun⟩

/-- **An interrupt that is masked is taken**: the instruction behind the WMSR was marked before the
WMSR had gone, and the WMSR does not flush it. -/
theorem masked_irq_taken :
    ∃ s h c x, (synced 4 chip 0xc000000 Frontend.bpuRst Frontend.emptyWord emptyInsn
        fun _ _ _ => True).Reach ((s, h), c) ∧
      s.irqTaken x = true ∧ x.rd.irr &&& ~~~s.be.cmt.epu.imr = 0 := by
  obtain ⟨c, hc⟩ := synced_of_chipRun maskProgram lateIrq 30
  have hrun := maskProgram_run
  generalize chipRun maskProgram lateIrq 30 = q at hc hrun
  refine ⟨q.1, q.2, c, _, hc, hrun.1, ?_⟩
  rw [hrun.2.2]
  change lateIrq 30 &&& ~~~(0x30 : Word) = 0
  decide

end Core

end NanoCpu
