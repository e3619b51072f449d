/-
**The state machine of commit and what is in flight.**

The state machine waits in `S_PENDING` for a write-back of the load/store unit or the exception
unit.  An instruction that asks for the state machine and is taken by neither unit makes it wait for
ever.  The memory barrier is such an instruction: its opcode is on the bus of the load/store unit,
which takes loads, stores and D-cache operations only.

Main definitions:

* `Cmt.inFlight` — the number of operations in the stages of the two units;
* `Backend.barrierFree` — the back-end under programs without a barrier.

Main results:

* `Backend.pending_iff_inFlight` — without barriers the state machine waits exactly when one
  operation is in flight;
* `Backend.barrier_wedges` — a barrier leaves the state machine waiting with nothing in flight.
-/

import NanoCpu.Watch

set_option relaxedAutoImplicit false
set_option autoImplicit false
set_option linter.unusedSectionVars false

namespace NanoCpu

/-- The operations in the two stages of the load/store unit and in the exception unit. -/
def Cmt.inFlight (c : Cmt) : ℕ :=
  c.lsu.s1Valid.toNat + c.lsu.s2Valid.toNat + c.epu.s1WbValid.toNat

theorem Cmt.Quiet.inFlight {c : Cmt} (h : c.Quiet) : c.inFlight = 0 := by
  simp [Cmt.inFlight, h.s1Valid, h.s2Valid, h.wbValid]

/-- What is handed over is in one stage, or in none. -/
theorem Cmt.Flight.inFlight {c : Cmt} {h : CmtHead} {g : CmtStage} (hf : c.Flight h g) :
    c.inFlight = if g = .nowhere then 0 else 1 := by
  rw [Cmt.inFlight, hf.s1Valid, hf.s2Valid, hf.wbValid]
  cases g <;> rfl

namespace Backend

variable {n : ℕ} [NeZero n] {D : ℕ} {s : Backend n} {t : Trace} {x : BackendIn} {z : RInsn}

/-! ### Programs without a barrier -/

/-- The back-end under programs without a barrier. -/
def barrierFree (n : ℕ) [NeZero n] (D : ℕ) (z : RInsn) : Machine (Backend n × Trace) BackendIn :=
  tracedIf n D z fun _ x => ∀ i < x.rnPushSize, (x.rnInsn i).lsu.barr = false

/-- **Without barriers the state machine waits exactly when one operation is in flight**, and every
request that is handed over starts one. -/
theorem pending_iff_inFlight (h : (barrierFree n D z).Reach (s, t)) :
    (s.cmt.pending = true ↔ s.cmt.inFlight = 1) ∧
      ∀ x : BackendIn, x.Delivers → (∀ i < x.rnPushSize, (x.rnInsn i).lsu.barr = false) →
        s.cmt.pending = false → s.cmt.pipeReq (s.cmtIn D x) = true →
        s.cmt.pCeS1 (s.cmtIn D x) = true → (s.next D x).cmt.inFlight = 1 := by
  have key : ∀ {s : Backend n} {t : Trace}, (barrierFree n D z).Reach (s, t) →
      (s.cmt.pending = true ↔ s.cmt.inFlight = 1) := by
    intro s t h
    have hi := inv_of_reach (traced_of_tracedIf h)
    constructor
    · intro hp
      obtain ⟨g, hg⟩ := hi.cmt.flight hp
      rw [hg.inFlight, if_neg]
      rintro rfl
      -- what is nowhere is a barrier
      have hval := hi.cmt.valid hp
      obtain ⟨num, -, hv⟩ := hi.place
      have hwf := hi.order.head_wellFormed hv hval
      have hbarr := (hwf.barr_of_nowhere (hi.cmt.needs hp) (by simpa using hg.start)).1
      have hlive := (hi.order.ent_eq (i := 0) (by omega) hval).1
      rw [hi.order.head_pay (i := 0) (by omega) hlive.2] at hbarr
      have := ins_of_reach (P := fun d => d.lsu.barr = false) (fun _ _ hx => hx) h
        (m := t.log.head + 0) hlive.1 (lt_nextNum_of_live hlive)
      rw [show (t.ins (t.log.head + 0)).pay.lsu = (t.ins (t.log.head + 0)).d.lsu from rfl] at hbarr
      rw [this] at hbarr
      cases hbarr
    · intro hf
      by_contra hne
      rw [(hi.cmt.quiet (by simpa using hne)).inFlight] at hf
      cases hf
  refine ⟨key h, fun x hx hb hp hreq hce => ?_⟩
  have h' : (barrierFree n D z).Reach (s.next D x, t.next D s x) := Machine.Reach.tick h ⟨hx, hb⟩
  refine (key h').1 ?_
  change (s.cmt.next (s.cmtIn D x)).pending = true
  simp [Cmt.next, hp, hreq, hce]

/-- The instruction word `0x420`, a system call. -/
def syscall : DecInsn := idDec true 0x420 false false false 0 noUpd

/-- The run of a system call, in which the state machine waits for one operation. -/
theorem pending_iff_inFlight_syscall :
    let q := solo 4 3 emptyInsn syscall emptyInsn.d 7
    (barrierFree 4 3 emptyInsn).Reach q ∧ q.1.cmt.pending = true ∧ q.1.cmt.inFlight = 1 := by
  have hwf : syscall.WellFormed := idDec_wellFormed _ _ _ _ _ _ _
  have hq : (quietIn emptyInsn.d).Quiet := quietIn_quiet (by decide)
  have hr : ∀ k, (barrierFree 4 3 emptyInsn).Reach (solo 4 3 emptyInsn syscall emptyInsn.d k) := by
    intro k
    induction k with
    | zero => exact Machine.Reach.reset
    | succ k ih =>
        cases k with
        | zero =>
            refine Machine.Reach.tick ih ⟨(soloIn_alone _ (by decide)).delivers hwf, fun i hi => ?_⟩
            obtain rfl : i = 0 := Nat.lt_one_iff.1 hi
            decide
        | succ k =>
            exact Machine.Reach.tick ih ⟨hq.delivers, fun i hi => absurd hi (Nat.not_lt_zero i)⟩
  have h := solo_ready 4 3 emptyInsn (f := emptyInsn.d) hwf (by decide)
  have hp := (h.request (by decide) hq rfl).1.pending
  exact ⟨hr 7, hp, ((pending_iff_inFlight (hr 7)).1).1 hp⟩

/-! ### The barrier -/

/-- A state machine that waits with nothing in flight waits for ever. -/
theorem stuck_next (h : s.Inv D t) (hx : x.Delivers) (hp : s.cmt.pending = true)
    (hz : s.cmt.inFlight = 0) :
    (s.next D x).cmt.pending = true ∧ (s.next D x).cmt.inFlight = 0 := by
  obtain ⟨g, hg⟩ := h.cmt.flight hp
  obtain rfl : g = .nowhere := by
    by_contra hne
    rw [hg.inFlight, if_neg hne] at hz
    cases hz
  have hfin : s.cmt.pipeFinish (s.cmtIn D x) = false := by
    rw [hg.pipeFinish]
    simp
  have hp' : (s.next D x).cmt.pending = true := by
    change (s.cmt.next (s.cmtIn D x)).pending = true
    simp [Cmt.next, hp, hfin]
  refine ⟨hp', ?_⟩
  obtain ⟨num, hpl, hv⟩ := h.place
  obtain ⟨g', hg'⟩ := (h.next hx).cmt.flight hp'
  rw [(h.order.head_next hpl hv h.cmt hx hp').2] at hg'
  have h₁ := hg.start
  have h₂ := hg'.start
  rw [hg'.inFlight, if_pos]
  rw [h₁] at h₂
  cases g' <;> simp at h₂ ⊢

/-- The instruction word `0x400`, a memory barrier. -/
def mbarr : DecInsn := idDec true 0x400 false false false 0 noUpd

/-- **A barrier wedges commit**: the state machine waits, with nothing in flight, in this state and
in every one that follows. -/
theorem barrier_wedges :
    ∃ s t, (traced 4 3 emptyInsn).Reach (s, t) ∧ s.cmt.pending = true ∧ s.cmt.inFlight = 0 ∧
      ∀ x : BackendIn, x.Delivers →
        (s.next 3 x).cmt.pending = true ∧ (s.next 3 x).cmt.inFlight = 0 := by
  have hwf : mbarr.WellFormed := idDec_wellFormed _ _ _ _ _ _ _
  have h := solo_ready 4 3 emptyInsn (f := emptyInsn.d) hwf (by decide)
  obtain ⟨hb, -⟩ := h.request (by decide) (quietIn_quiet (f := emptyInsn.d) (by decide)) rfl
  have hw : ((solo 4 3 emptyInsn mbarr emptyInsn.d 6).1.head 3 0).startStage = .nowhere := by
    obtain ⟨e₁, e₂, -, -, e₃, -⟩ := h.solo.head_eq h.valid
    have hl : mbarr.lsu.load = false ∧ mbarr.lsu.store = false ∧ mbarr.epu = ⟨false, false⟩ ∧
      mbarr.fe.any = false := by decide
    rw [CmtHead.startStage, LsuReq.valid, LsuReq.dcop]
    simp [CmtHead.lsuReq, CmtHead.epuReq, EpuReq.dcinvWe, EpuReq.dcflsWe, EpuReq.wmsr,
      EpuReq.s1WbValid, e₁, e₂, e₃, hl, EpuOpc.any]
  rw [hw] at hb
  have hz := hb.flight.inFlight
  exact ⟨_, _, hb.solo.reach, hb.pending, hz, fun x hx => stuck_next hb.solo.inv hx hb.pending hz⟩

end Backend

end NanoCpu
