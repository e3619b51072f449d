/-
**One instruction in the empty back-end.**

The shortest run that shows an instruction at commit: it is delivered alone when nothing is between
rename and commit, and nothing is delivered behind it.  It takes one cycle each in rename, issue,
selection, operand read, execution and write-back, whatever the caches do meanwhile.

Main definitions:

* `BackendIn.Quiet`, `BackendIn.Alone` — nothing is delivered; one instruction is delivered;
* `Backend.Empty`, `Backend.Solo` — no instruction, or one, is between rename and commit;
* `Backend.Between` — the back-end between two such instructions;
* `Backend.run` — the states along a sequence of inputs.

Main results:

* `Backend.Empty.solo` — an instruction that is delivered alone is at commit five cycles later;
* `Backend.Solo.stay`, `Backend.Solo.retire`, `Backend.Empty.of_flush` — how it waits, goes, or is
  flushed.
-/

import NanoCpu.Retire

set_option relaxedAutoImplicit false
set_option autoImplicit false
set_option linter.unusedSectionVars false

namespace NanoCpu

open Renaming

/-- Nothing is delivered, and the lanes show nothing that would take a register. -/
structure BackendIn.Quiet (x : BackendIn) : Prop where
  size : x.rnPushSize = 0
  valid : ∀ i, x.rnValid i = false
  lrdWe : ∀ i, (x.rnInsn i).lrdWe = false

/-- `d` is delivered alone. -/
structure BackendIn.Alone (x : BackendIn) (d : DecInsn) : Prop where
  size : x.rnPushSize = 1
  valid : ∀ i, x.rnValid i = decide (i < 1)
  insn : x.rnInsn 0 = d
  lrdWe : ∀ i, i ≠ 0 → (x.rnInsn i).lrdWe = false

theorem BackendIn.Quiet.delivers {x : BackendIn} (h : x.Quiet) : x.Delivers :=
  ⟨by rw [h.size]; omega, fun i => by rw [h.valid, h.size]; rfl,
    fun i hi => absurd hi (by rw [h.size]; omega)⟩

theorem BackendIn.Alone.delivers {x : BackendIn} {d : DecInsn} (h : x.Alone d) (hd : d.WellFormed) :
    x.Delivers := by
  refine ⟨by rw [h.size]; omega, fun i => by rw [h.valid, h.size], fun i hi => ?_⟩
  rw [h.size] at hi
  obtain rfl : i = 0 := by omega
  rw [h.insn]
  exact hd

/-- A cycle in which nothing is delivered and nothing stalls; `f` is what the lanes show. -/
def quietIn (f : DecInsn) : BackendIn :=
  ⟨fun _ => false, 0, fun _ => f, false, 0, true, ⟨0, 0, 0, 0, 0, 0, 0, 0, 0⟩⟩

/-- A cycle in which `d` is delivered alone. -/
def soloIn (d f : DecInsn) : BackendIn :=
  { quietIn f with
    rnValid := fun i => decide (i < 1)
    rnPushSize := 1
    rnInsn := fun i => if i = 0 then d else f }

theorem quietIn_quiet {f : DecInsn} (hf : f.lrdWe = false) : (quietIn f).Quiet :=
  ⟨rfl, fun _ => rfl, fun _ => hf⟩

theorem soloIn_alone (d : DecInsn) {f : DecInsn} (hf : f.lrdWe = false) : (soloIn d f).Alone d := by
  refine ⟨rfl, fun _ => rfl, rfl, fun i hi => ?_⟩
  rw [show (soloIn d f).rnInsn i = f from if_neg hi]
  exact hf

/-- What the predictor hands along when it predicts nothing. -/
def noUpd : BpuUpd := ⟨0, 0, 0, false, 0, false⟩

/-- An empty lane: no instruction, decoded as one. -/
def emptyInsn : RInsn := ⟨idDec false 0 false false false 0 noUpd, 0, 0, 0, 0⟩

namespace Backend

variable {n : ℕ} [NeZero n] {D : ℕ} {s : Backend n} {t : Trace} {x : BackendIn} {d : DecInsn}
  {z : RInsn} {R : List (RInsn × Word)}

/-! ### Idle cycles -/

/-- The state machine is idle, and the oldest instruction is not ready to go. -/
structure Calm (D : ℕ) (s : Backend n) (t : Trace) : Prop where
  inv : s.Inv D t
  pending : s.cmt.pending = false
  seFls : s.cmt.seFls = false
  valid : s.rob.cmtValid 1 D 0 = false

theorem Inv.flush_of_idle (h : s.Inv D t) (hp : s.cmt.pending = false) (hs : s.cmt.seFls = false)
    (x : BackendIn) : s.flush D x = false := by
  rw [Backend.flush, Cmt.flush, hs, (h.cmt.quiet hp).excFlush]
  rfl

theorem Calm.flush (h : s.Calm D t) (x : BackendIn) : s.flush D x = false :=
  h.inv.flush_of_idle h.pending h.seFls x

theorem Calm.fire (h : s.Calm D t) (x : BackendIn) : s.fire D x 0 = false := by
  by_contra hne
  have := Cmt.valid_of_fire (x := s.cmtIn D x) (Bool.eq_true_of_not_eq_false hne)
  rw [show (s.cmtIn D x).valid 0 = s.rob.cmtValid 1 D 0 from rfl, h.valid] at this
  cases this

theorem popSize_of_not_fire (h : s.fire D x 0 = false) : s.popSize D x = 0 := by
  rw [fire_eq (by omega)] at h
  simpa using h

theorem Calm.popSize (h : s.Calm D t) (x : BackendIn) : s.popSize D x = 0 :=
  popSize_of_not_fire (h.fire x)

theorem Calm.next (h : s.Calm D t) (x : BackendIn) :
    (s.next D x).cmt.pending = false ∧ (s.next D x).cmt.seFls = false := by
  constructor
  · have hreq : s.cmt.pipeReq (s.cmtIn D x) = false := by
      by_contra hne
      have := Cmt.valid_of_pipeReq (Bool.eq_true_of_not_eq_false hne)
      rw [show (s.cmtIn D x).valid 0 = s.rob.cmtValid 1 D 0 from rfl, h.valid] at this
      cases this
    change (s.cmt.next (s.cmtIn D x)).pending = false
    simp [Cmt.next, h.pending, hreq]
  · change ldff (s.fire D x 0 || s.cmt.seFls) _ s.cmt.seFls = false
    rw [h.fire x, h.seFls]
    rfl

/-- The first lane is never held up while the state machine is idle. -/
theorem Calm.ready (h : s.Calm D t) (x : BackendIn) :
    s.wbReady D x 0 = true ∧ s.exReady D x 0 = true ∧ s.roReady D x 0 = true := by
  have h₁ : s.wbReady D x 0 = true := by
    rw [wbReady_zero, Cmt.prfWeLsuEpu, (h.inv.cmt.quiet h.pending).pipeFinish]
    rfl
  have h₂ : s.exReady D x 0 = true := by
    rw [exReady, h₁]
    cases hb : (s.wb 0).buf.pending <;> simp [WbStage.exReady, HdsBuf.aready, hb]
  refine ⟨h₁, h₂, ?_⟩
  rw [roReady, h₂]
  cases hb : (s.ex 0).buf.pending <;> simp [ExStage.roReady, HdsBuf.aready, hb]

/-- Rename does not stall on instructions without a destination, or when a register is free. -/
theorem issuePCe_of_ready (hr : s.issueReady D = true)
    (hg : ∀ i < 2, (x.rnInsn i).lrdWe = true → s.rn.gs i = true) : s.issuePCe D x = true := by
  have hst : s.rn.flStallReq (s.rnIn D x) = false := by
    rw [Rename.flStallReq, List.any_eq_false]
    intro i hi hw
    rw [Bool.and_eq_true, Bool.not_eq_true'] at hw
    rw [hg i (List.mem_range.1 hi) hw.1] at hw
    exact Bool.noConfusion hw.2
  have hr' : (s.rnIn D x).issueReady = true := hr
  simp [issuePCe, Rename.pCe, Rename.stallReq, hst, hr']

theorem issueReady_of_empty (ho : s.Order D t) (he : t.log.head = t.log.tail)
    (hrs : ∀ i < 2, ∃ a, (s.rs i).freeVec a = true) : s.issueReady D = true := by
  rw [issueReady, List.all_eq_true]
  intro i hi
  obtain ⟨a, ha⟩ := hrs i (List.mem_range.1 hi)
  have : (s.rs i).full = false := by rw [Rs.full, priorityEncoderGs_of_mem ha]; rfl
  rw [this, ho.rob.ready_of_empty he]
  rfl

/-- With an empty log nothing is in a place. -/
theorem Inv.not_occ (h : s.Inv D t) (he : t.log.head = t.log.tail) (k : Loc n) : ¬ s.Occ k := by
  intro hk
  obtain ⟨num, hp, -⟩ := h.place
  have := hp.live k hk
  have h₁ := this.1
  have h₂ := this.2
  omega

theorem Inv.freeVec (h : s.Inv D t) (he : t.log.head = t.log.tail) (i : ℕ) (a : Fin n) :
    (s.rs i).freeVec a = true := Bool.eq_true_of_not_eq_false (h.not_occ he (.rs i a))

theorem cmtValid_of_empty (ho : s.Order D t) (he : t.log.head = t.log.tail) :
    s.rob.cmtValid 1 D 0 = false := by
  by_contra hne
  have := (ho.ent_eq (i := 0) (by omega) (Bool.eq_true_of_not_eq_false hne)).1.2
  omega

/-- There are more physical registers than logical ones: some register is always free for the first
lane when nothing is between rename and commit. -/
theorem Order.gs_of_empty (ho : s.Order D t) (he : s.nextNum t = t.log.head) :
    s.rn.gs 0 = true := by
  by_contra hne
  have hnone : ∀ p : PReg, s.rn.fl p = false := by
    intro p
    by_contra hp
    exact hne (priorityEncoderGs_of_mem (Bool.eq_true_of_not_eq_false hp))
  have hafl : ∀ p : PReg, p ≠ 0 → ∃ l, s.rn.arat l = p := by
    intro p hp
    by_contra hl
    push Not at hl
    have hfree := (ho.chain.part.free_iff p hp).2 hl
    have := (ho.chain.free_iff p).2 ⟨hfree, fun m hm hm' => by omega⟩
    rw [hnone p] at this
    cases this
  have hsurj : Function.Surjective fun o : Option LReg => o.elim 0 s.rn.arat := by
    intro p
    by_cases hp : p = 0
    · exact ⟨none, hp.symm⟩
    · obtain ⟨l, hl⟩ := hafl p hp
      exact ⟨some l, hl⟩
  have := Fintype.card_le_of_surjective _ hsurj
  simp at this

/-! ### Nothing, and one instruction, between rename and commit -/

/-- Nothing is between rename and commit. -/
structure Empty (z : RInsn) (D : ℕ) (R : List (RInsn × Word)) (s : Backend n)
    (t : Trace) : Prop where
  reach : (traced n D z).Reach (s, t)
  tail : t.log.tail = t.log.head
  size : s.rn.issuePushSize = 0
  retired : t.retired = R
  busy : s.rn.busytable 0 = false

/-- `d` alone is between rename and commit, and is in the log. -/
structure Solo (z : RInsn) (D : ℕ) (d : DecInsn) (R : List (RInsn × Word)) (s : Backend n)
    (t : Trace) : Prop where
  reach : (traced n D z).Reach (s, t)
  tail : t.log.tail = t.log.head + 1
  size : s.rn.issuePushSize = 0
  ins : (t.ins t.log.head).d = d
  retired : t.retired = R
  busy : s.rn.busytable 0 = false

theorem empty_reset (n : ℕ) [NeZero n] (D : ℕ) (z : RInsn) :
    (reset n z).Empty z D [] (Trace.reset z) :=
  ⟨Machine.Reach.reset, rfl, rfl, rfl, rfl⟩

/-- The register zero does not become busy while nothing takes a register. -/
theorem busy_next (hb : s.rn.busytable 0 = false) (hx : ∀ i < 2, (x.rnInsn i).lrdWe = true →
    s.rn.flPrd i ≠ 0) : (s.next D x).rn.busytable 0 = false := by
  cases hf : s.flush D x with
  | true => exact (rn_next_flush hf).2.2.2.2 0
  | false =>
      by_contra hne
      rcases (Rename.next_busytable (s := s.rn) (x := s.rnIn D x) hf 0).1
        (Bool.eq_true_of_not_eq_false hne) with ⟨j, hj, hw, he⟩ | ⟨hb', -⟩
      · exact hx j hj hw he
      · rw [hb] at hb'
        cases hb'

theorem busy_next_of_quiet (hx : x.Quiet) (hb : s.rn.busytable 0 = false) :
    (s.next D x).rn.busytable 0 = false :=
  busy_next hb fun i _ hw => by
    rw [hx.lrdWe] at hw
    cases hw

/-- A flush leaves nothing between rename and commit. -/
theorem Empty.of_flush (hr : (traced n D z).Reach (s, t)) (hx : x.Delivers)
    (hf : s.flush D x = true) : (s.next D x).Empty z D t.retired (t.next D s x) := by
  obtain ⟨hh, ht⟩ := Trace.next_log_flush (t := t) hf
  obtain ⟨h₁, -, -, -, h₂⟩ := rn_next_flush hf
  refine ⟨Machine.Reach.tick hr ⟨hx, trivial⟩, ht.trans hh.symm, h₁, ?_, h₂ 0⟩
  simp [Trace.next, popSize_of_flush hf]

/-- Without a delivery nothing comes. -/
theorem Empty.next (h : s.Empty z D R t) (hx : x.Quiet) :
    (s.next D x).Empty z D R (t.next D s x) := by
  cases hf : s.flush D x with
  | true =>
      rw [← h.retired]
      exact Empty.of_flush h.reach hx.delivers hf
  | false =>
      have hpop : s.popSize D x = 0 := by
        have := (inv_of_reach h.reach).order.head_popSize_le (x := x)
        have := h.tail
        omega
      refine ⟨Machine.Reach.tick h.reach ⟨hx.delivers, trivial⟩, ?_, ?_, ?_,
        busy_next_of_quiet hx h.busy⟩
      · rw [Trace.next_head hf, Trace.next_tail hf, hpop, robPushSize, h.size, h.tail]
        split_ifs <;> rfl
      · rw [next_issuePushSize hf, h.size, hx.size]
        split_ifs <;> rfl
      · simp [Trace.next, hpop, h.retired]

theorem Solo.inv (h : s.Solo z D d R t) : s.Inv D t := inv_of_reach h.reach

theorem Solo.regs (h : s.Solo z D d R t) : s.archRegs = seqRun (R.map retiredOf) := by
  rw [archRegs_eq h.reach, h.retired]

/-- The instruction waits. -/
theorem Solo.stay (h : s.Solo z D d R t) (hx : x.Quiet) (hf : s.flush D x = false)
    (hpop : s.popSize D x = 0) : (s.next D x).Solo z D d R (t.next D s x) := by
  have hps : s.robPushSize D x = 0 := by
    rw [robPushSize, h.size]
    split_ifs <;> rfl
  have hh : (t.next D s x).log.head = t.log.head := by rw [Trace.next_head hf, hpop, Nat.add_zero]
  refine ⟨Machine.Reach.tick h.reach ⟨hx.delivers, trivial⟩, ?_, ?_, ?_, ?_,
    busy_next_of_quiet hx h.busy⟩
  · rw [hh, Trace.next_tail hf, hps, h.tail]
  · rw [next_issuePushSize hf, h.size, hx.size]
    split_ifs <;> rfl
  · rw [hh, Trace.next_ins_of_lt]
    · exact h.ins
    · rw [nextNum, h.tail]
      omega
  · simp [Trace.next, hpop, h.retired]

/-- The instruction goes. -/
theorem Solo.retire (h : s.Solo z D d R t) (hx : x.Quiet) (hfire : s.fire D x 0 = true) :
    (s.next D x).Empty z D
      (R ++ [(t.ins t.log.head, s.cmt.prfWdataLsuEpu (s.cmtIn D x))]) (t.next D s x) := by
  have hf : s.flush D x = false := Cmt.flush_of_fire (x := s.cmtIn D x) hfire
  have hpop : s.popSize D x = 1 := by
    rw [fire_eq (by omega)] at hfire
    have hlt : 0 < s.popSize D x := of_decide_eq_true hfire
    have := h.inv.order.head_popSize_le (x := x)
    rw [h.tail] at this
    omega
  refine ⟨Machine.Reach.tick h.reach ⟨hx.delivers, trivial⟩, ?_, ?_, ?_,
    busy_next_of_quiet hx h.busy⟩
  · rw [Trace.next_head hf, Trace.next_tail hf, hpop, robPushSize, h.size, h.tail]
    split_ifs <;> rfl
  · rw [next_issuePushSize hf, h.size, hx.size]
    split_ifs <;> rfl
  · rw [Trace.next, hpop, h.retired]
    rfl

theorem Solo.calm (h : s.Solo z D d R t) (hp : s.cmt.pending = false) (hs : s.cmt.seFls = false)
    (he : (t.log.ent t.log.head).wb = none) : s.Calm D t := by
  refine ⟨h.inv, hp, hs, ?_⟩
  by_contra hne
  have := (h.inv.order.ent_eq (i := 0) (by omega) (Bool.eq_true_of_not_eq_false hne)).2
  rw [Nat.add_zero, he] at this
  cases this

/-! ### From rename to commit -/

/-- The instruction is on its way: it has not been written back, and commit is idle. -/
structure Away (z : RInsn) (D : ℕ) (d : DecInsn) (R : List (RInsn × Word)) (s : Backend n)
    (t : Trace) : Prop where
  solo : s.Solo z D d R t
  pending : s.cmt.pending = false
  seFls : s.cmt.seFls = false
  ent : (t.log.ent t.log.head).wb = none

theorem Away.calm (h : s.Away z D d R t) : s.Calm D t := h.solo.calm h.pending h.seFls h.ent

theorem Away.head_next (h : s.Away z D d R t) (x : BackendIn) :
    (t.next D s x).log.head = t.log.head := by
  rw [Trace.next_head (h.calm.flush x), h.calm.popSize, Nat.add_zero]

theorem Away.solo_next (h : s.Away z D d R t) (hx : x.Quiet) :
    (s.next D x).Solo z D d R (t.next D s x) :=
  h.solo.stay hx (h.calm.flush x) (h.calm.popSize x)

/-- The only instruction is in every place that is taken. -/
theorem Solo.num_eq (h : s.Solo z D d R t) {num : Loc n → ℕ} (hp : s.Place D t num) {k : Loc n}
    (hk : s.Occ k) : num k = t.log.head := by
  have h₁ := (hp.live k hk).1
  have h₂ := (hp.live k hk).2
  have := h.tail
  omega

/-- An instruction that has not been executed is not written back in this cycle. -/
theorem Away.next (h : s.Away z D d R t) {k : Loc n} (hk : s.Occ k) (hne : ∀ j, k ≠ .wb j)
    (hx : x.Quiet) : (s.next D x).Away z D d R (t.next D s x) := by
  obtain ⟨num, hp, -⟩ := h.solo.inv.place
  refine ⟨h.solo_next hx, (h.calm.next x).1, (h.calm.next x).2, ?_⟩
  have hn := wbLane_eq_none (x := x) h.solo.inv.order hp hk hne
  rw [h.solo.num_eq hp hk] at hn
  rw [h.head_next, Backend.ent_next (h.calm.flush _) (by rw [h.calm.popSize]; omega)
    (by rw [h.solo.tail]; omega), hn, h.ent]
  rfl

theorem Solo.away_of_occ (h : s.Solo z D d R t) (hp : s.cmt.pending = false)
    (hs : s.cmt.seFls = false) {k : Loc n} (hk : s.Occ k) (hne : ∀ j, k ≠ .wb j) :
    s.Away z D d R t := by
  obtain ⟨num, hpl, -⟩ := h.inv.place
  have hh := hpl.holds k hk
  rw [h.num_eq hpl hk] at hh
  refine ⟨h, hp, hs, ?_⟩
  cases k with
  | rs i a => exact hh.2.1
  | ex i => exact hh.2.1
  | wb j => exact absurd rfl (hne j)

/-- Its operands are there: they are architectural registers. -/
theorem Solo.src_ready (h : s.Solo z D d R t) :
    s.rn.busytable (t.ins t.log.head).prs1 = false ∧ s.rn.busytable (t.ins t.log.head).prs2 =
      false := by
  obtain ⟨num, -, hv⟩ := h.inv.place
  have hlt : t.log.head < s.nextNum t := by
    have := h.tail
    rw [nextNum]
    omega
  have key : ∀ l, s.rn.busytable (s.rn.arat l) = false := by
    intro l
    rcases hv.arat l with h0 | hb
    · rw [h0]
      exact h.busy
    · exact hb
  obtain ⟨e₁, e₂⟩ := h.inv.order.src t.log.head le_rfl hlt
  rw [Nat.sub_self] at e₁ e₂
  exact ⟨e₁ ▸ key _, e₂ ▸ key _⟩

/-- The instruction is selected, once it is in the reservation station. -/
theorem Away.select (h : s.Away z D d R t) {a : Fin n} (hk : s.Occ (.rs 0 a))
    (hr : (s.rs 0).hasRdyFf = false) (x : BackendIn) : ((s.next D x).rs 0).hasRdyFf = true := by
  obtain ⟨num, hp, -⟩ := h.solo.inv.place
  obtain ⟨-, -, -, h₁, h₂, -, -⟩ := hp.holds _ hk
  rw [h.solo.num_eq hp hk] at h₁ h₂
  obtain ⟨b₁, b₂⟩ := h.solo.src_ready
  have hfree : (s.rs 0).freeVec a = false := hk
  have hpop : (s.rsIn D x 0).pop = false := by
    change s.roRsPop D x 0 = false
    rw [roRsPop, hr, Bool.false_and]
  have hv : (s.rs 0).rdyVec (s.rsIn D x 0) a = true := by
    have e₁ : (s.rsIn D x 0).busytable ((s.rs 0).prs1Rf a) = false := by rw [h₁]; exact b₁
    have e₂ : (s.rsIn D x 0).busytable ((s.rs 0).prs2Rf a) = false := by rw [h₂]; exact b₂
    simp [Rs.rdyVec, Rs.freeVecByp, hfree, hpop, e₁, e₂]
  change ((s.rs 0).hasRdy (s.rsIn D x 0) && !s.flush D x) = true
  rw [h.calm.flush, Rs.hasRdy, priorityEncoderGs_of_mem hv]
  rfl

/-- Operand read. -/
theorem Away.read (h : s.Away z D d R t) (hr : (s.rs 0).hasRdyFf = true) (hx : x.Quiet) :
    (s.next D x).Away z D d R (t.next D s x) ∧ (s.next D x).Occ (.ex 0) := by
  obtain ⟨num, hp, -⟩ := h.solo.inv.place
  refine ⟨h.next (hp.rdy 0 hr).1 (by simp) hx, ?_⟩
  change ((s.ex 0).buf.next (s.flush D x) true (s.rs 0).hasRdyFf true (s.exReady D x 0)).pending =
    true
  have hro := (h.calm.ready x).2.2
  rw [roReady, ExStage.roReady] at hro
  simp [HdsBuf.next, h.calm.flush, hr, hro, ldff]

/-- Execution. -/
theorem Away.execute (h : s.Away z D d R t) (hk : s.Occ (.ex 0)) (hx : x.Quiet) :
    (s.next D x).Away z D d R (t.next D s x) ∧ (s.next D x).Occ (.wb 0) := by
  refine ⟨h.next hk (by simp) hx, ?_⟩
  change ((s.wb 0).buf.next (s.flush D x) true (s.ex 0).buf.pending true
    (s.wbReady D x 0)).pending = true
  have hro := (h.calm.ready x).2.1
  rw [exReady, WbStage.exReady] at hro
  have hpend : (s.ex 0).buf.pending = true := hk
  simp [HdsBuf.next, h.calm.flush, hpend, hro, ldff]

/-- Write-back. -/
theorem Away.writeBack (h : s.Away z D d R t) (hk : s.Occ (.wb 0)) (hx : x.Quiet) :
    (s.next D x).Solo z D d R (t.next D s x) ∧ (s.next D x).rob.cmtValid 1 D 0 = true := by
  have h' := h.solo_next hx
  refine ⟨h', ?_⟩
  obtain ⟨num, hp, -⟩ := h.solo.inv.place
  have hlane : (s.robIn D x).wbLane 1 D t.log.head = some 0 := by
    obtain ⟨-, -, -, hid, hbk, -⟩ := hp.holds _ hk
    rw [h.solo.num_eq hp hk] at hid hbk
    refine RobIn.wbLane_eq_some (by decide) ?_ hid
    have hv : (s.robIn D x).wbValid 0 = true := hk
    have hb : (s.robIn D x).wbRobBank 0 = robBank 1 t.log.head := hbk
    simp [RobIn.wbSel, RobIn.wbReady, hv, hb]
  have hent : ((t.next D s x).log.ent t.log.head).wb.isSome = true := by
    rw [Backend.ent_next (h.calm.flush _) (by rw [h.calm.popSize]; omega)
      (by rw [h.solo.tail]; omega), hlane]
    rfl
  rw [h'.inv.order.rob.cmtValid_iff (by decide)]
  intro j hj
  obtain rfl : j = 0 := by omega
  have := h'.tail
  refine ⟨by omega, ?_⟩
  rw [Nat.add_zero, h.head_next]
  exact hent

/-- Rename: the instruction goes to the issue register. -/
structure Issued (z : RInsn) (D : ℕ) (d : DecInsn) (R : List (RInsn × Word)) (s : Backend n)
    (t : Trace) : Prop where
  reach : (traced n D z).Reach (s, t)
  pending : s.cmt.pending = false
  seFls : s.cmt.seFls = false
  tail : t.log.tail = t.log.head
  size : s.rn.issuePushSize = 1
  ins : (t.ins t.log.head).d = d
  retired : t.retired = R
  busy : s.rn.busytable 0 = false

theorem Empty.rename (h : s.Empty z D R t) (hp : s.cmt.pending = false) (hs : s.cmt.seFls = false)
    (hx : x.Alone d) (hd : d.WellFormed) : (s.next D x).Issued z D d R (t.next D s x) := by
  have hi := inv_of_reach h.reach
  have hc : s.Calm D t := ⟨hi, hp, hs, cmtValid_of_empty hi.order h.tail.symm⟩
  have hgs : s.rn.gs 0 = true :=
    hi.order.gs_of_empty (by rw [nextNum, h.size, h.tail, Nat.add_zero])
  have hce : s.issuePCe D x = true := by
    refine issuePCe_of_ready (issueReady_of_empty hi.order h.tail.symm
      fun i _ => ⟨0, hi.freeVec h.tail.symm i 0⟩) fun i _ hw => ?_
    obtain rfl : i = 0 := by
      by_contra hne
      rw [hx.lrdWe i hne] at hw
      cases hw
    exact hgs
  have hf := hc.flush x
  have hacc : s.accepted D x = 1 := by
    change (if s.issuePCe D x then x.rnPushSize else 0) = 1
    rw [hce, if_pos rfl, hx.size]
  have hh : (t.next D s x).log.head = t.log.head := by
    rw [Trace.next_head hf, hc.popSize, Nat.add_zero]
  refine ⟨Machine.Reach.tick h.reach ⟨hx.delivers hd, trivial⟩, (hc.next x).1, (hc.next x).2,
    ?_, ?_, ?_, ?_, ?_⟩
  · rw [hh, Trace.next_tail hf, robPushSize, hce, if_pos rfl, h.size, h.tail]
    rfl
  · rw [next_issuePushSize hf, hce, if_pos rfl, hx.size]
  · have := Trace.next_ins_new (t := t) hf (k := 0) (by rw [hacc]; omega)
    rw [nextNum, h.size, h.tail] at this
    rw [hh]
    refine (congrArg RInsn.d this).trans ?_
    exact hx.insn
  · simp [Trace.next, hc.popSize, h.retired]
  · refine busy_next h.busy fun i _ hw => ?_
    obtain rfl : i = 0 := by
      by_contra hne
      rw [hx.lrdWe i hne] at hw
      cases hw
    intro h0
    have := Rename.flPrd_mem hgs
    rw [h0] at this
    exact hi.order.chain.not_free_zero this

/-- Issue: the instruction goes to the log and to the reservation station. -/
theorem Issued.issue (h : s.Issued z D d R t) (hx : x.Quiet) :
    (s.next D x).Away z D d R (t.next D s x) ∧ (s.next D x).Occ (.rs 0 (s.rs 0).freeAddr) ∧
      ((s.next D x).rs 0).hasRdyFf = false := by
  have hi := inv_of_reach h.reach
  have hc : s.Calm D t := ⟨hi, h.pending, h.seFls, cmtValid_of_empty hi.order h.tail.symm⟩
  have hf := hc.flush x
  have hce : s.issuePCe D x = true := by
    refine issuePCe_of_ready (issueReady_of_empty hi.order h.tail.symm
      fun i _ => ⟨0, hi.freeVec h.tail.symm i 0⟩) fun i _ hw => ?_
    rw [hx.lrdWe] at hw
    cases hw
  have hh : (t.next D s x).log.head = t.log.head := by
    rw [Trace.next_head hf, hc.popSize, Nat.add_zero]
  have hsolo : (s.next D x).Solo z D d R (t.next D s x) := by
    refine ⟨Machine.Reach.tick h.reach ⟨hx.delivers, trivial⟩, ?_, ?_, ?_, ?_,
      busy_next_of_quiet hx h.busy⟩
    · rw [hh, Trace.next_tail hf, robPushSize, hce, if_pos rfl, h.size, h.tail]
    · rw [next_issuePushSize hf, hce, if_pos rfl, hx.size]
    · rw [hh, Trace.next_ins_of_lt]
      · exact h.ins
      · rw [nextNum, h.size, h.tail]
        omega
    · simp [Trace.next, hc.popSize, h.retired]
  have hr₀ : (s.rs 0).hasRdyFf = false := by
    by_contra hne
    obtain ⟨num, hp, -⟩ := hi.place
    exact hi.not_occ h.tail.symm _ (hp.rdy 0 (Bool.eq_true_of_not_eq_false hne)).1
  have hocc : (s.next D x).Occ (.rs 0 (s.rs 0).freeAddr) := by
    have hpush : s.rsPush D x 0 = true := by
      rw [rsPush, hce, hi.order.issueValid, h.size]
      rfl
    change (s.flush D x || (s.roRsPop D x 0 && _) || (_ && !(s.rsPush D x 0 && _))) = false
    rw [hf, roRsPop, hr₀, hpush, beq_self_eq_true]
    simp
  refine ⟨hsolo.away_of_occ (hc.next x).1 (hc.next x).2 hocc (by simp), hocc, ?_⟩
  by_contra hne
  have hr : ((s.rs 0).hasRdy (s.rsIn D x 0) && !s.flush D x) = true :=
    Bool.eq_true_of_not_eq_false hne
  rw [Bool.and_eq_true] at hr
  have hm := Rs.rdyAddr_mem hr.1
  simp only [Rs.rdyVec, Rs.freeVecByp, hi.freeVec h.tail.symm, Bool.true_or, Bool.not_true,
    Bool.false_and] at hm
  cases hm

/-- The states along a sequence of inputs. -/
def run (D : ℕ) (q : Backend n × Trace) (xs : ℕ → BackendIn) : ℕ → Backend n × Trace
  | 0 => q
  | k + 1 => ((run D q xs k).1.next D (xs k), (run D q xs k).2.next D (run D q xs k).1 (xs k))

/-- Idle units leave the MSRs as they are. -/
theorem msrs_run {q : Backend n × Trace} {xs : ℕ → BackendIn} {k : ℕ}
    (h : ∀ j < k, (run D q xs j).1.cmt.Quiet) : (run D q xs k).1.cmt.msrs = q.1.cmt.msrs := by
  induction k with
  | zero => rfl
  | succ k ih =>
      rw [← ih fun j hj => h j (by omega)]
      exact (h k (by omega)).msrs_next _

/-- The instruction is ready to go, and the state machine is idle. -/
structure Ready (z : RInsn) (D : ℕ) (d : DecInsn) (R : List (RInsn × Word)) (s : Backend n)
    (t : Trace) : Prop where
  solo : s.Solo z D d R t
  valid : s.rob.cmtValid 1 D 0 = true
  pending : s.cmt.pending = false
  seFls : s.cmt.seFls = false

theorem tracedIf_run {ok : Backend n → BackendIn → Prop} {q : Backend n × Trace}
    {xs : ℕ → BackendIn} (h : (tracedIf n D z ok).Reach q) {k : ℕ}
    (hx : ∀ j < k, (xs j).Delivers ∧ ok (run D q xs j).1 (xs j)) :
    (tracedIf n D z ok).Reach (run D q xs k) := by
  induction k with
  | zero => exact h
  | succ k ih => exact Machine.Reach.tick (ih fun j hj => hx j (by omega)) (hx k (by omega))

/-- **An instruction that is delivered alone to the empty back-end is at commit five cycles later**;
the units of commit are idle meanwhile, and no MSR changes. -/
theorem Empty.solo {q : Backend n × Trace} {u : ℕ → BackendIn} (h : q.1.Empty z D R q.2)
    (hp : q.1.cmt.pending = false) (hs : q.1.cmt.seFls = false) (hd : d.WellFormed)
    (hx : (u 0).Alone d) (hq : ∀ k, (u (k + 1)).Quiet) :
    (run D q u 6).1.Ready z D d R (run D q u 6).2 ∧
      (∀ k ≤ 6, (run D q u k).1.cmt.pending = false ∧ (run D q u k).1.cmt.msrs = q.1.cmt.msrs) ∧
      ∀ k < 6, (run D q u k).1.rob.cmtValid 1 D 0 = false := by
  have h₁ : (run D q u 1).1.Issued z D d R (run D q u 1).2 := h.rename hp hs hx hd
  obtain ⟨h₂, ho₂, hr₂⟩ : (run D q u 2).1.Away z D d R (run D q u 2).2 ∧ _ := h₁.issue (hq 0)
  have h₃ : (run D q u 3).1.Away z D d R (run D q u 3).2 := h₂.next ho₂ (by simp) (hq 1)
  have hr₃ : ((run D q u 3).1.rs 0).hasRdyFf = true := h₂.select ho₂ hr₂ (u 2)
  obtain ⟨h₄, ho₄⟩ : (run D q u 4).1.Away z D d R (run D q u 4).2 ∧ _ := h₃.read hr₃ (hq 2)
  obtain ⟨h₅, ho₅⟩ : (run D q u 5).1.Away z D d R (run D q u 5).2 ∧ _ := h₄.execute ho₄ (hq 3)
  obtain ⟨h₆, hv⟩ := h₅.writeBack ho₅ (hq 4)
  have hidle : ∀ k ≤ 6, (run D q u k).1.cmt.pending = false ∧ (run D q u k).1.cmt.Quiet := by
    intro k hk
    interval_cases k
    · exact ⟨hp, (inv_of_reach h.reach).cmt.quiet hp⟩
    · exact ⟨h₁.pending, (inv_of_reach h₁.reach).cmt.quiet h₁.pending⟩
    · exact ⟨h₂.pending, h₂.solo.inv.cmt.quiet h₂.pending⟩
    · exact ⟨h₃.pending, h₃.solo.inv.cmt.quiet h₃.pending⟩
    · exact ⟨h₄.pending, h₄.solo.inv.cmt.quiet h₄.pending⟩
    · exact ⟨h₅.pending, h₅.solo.inv.cmt.quiet h₅.pending⟩
    · exact ⟨(h₅.calm.next _).1, h₆.inv.cmt.quiet (h₅.calm.next _).1⟩
  refine ⟨⟨h₆, hv, (h₅.calm.next _).1, (h₅.calm.next _).2⟩, fun k hk => ⟨(hidle k hk).1, ?_⟩,
    fun k hk => ?_⟩
  · exact msrs_run fun j hj => (hidle j (by omega)).2
  · interval_cases k
    · exact cmtValid_of_empty (inv_of_reach h.reach).order h.tail.symm
    · exact cmtValid_of_empty (inv_of_reach h₁.reach).order h₁.tail.symm
    · exact h₂.calm.valid
    · exact h₃.calm.valid
    · exact h₄.calm.valid
    · exact h₅.calm.valid

/-! ### At commit -/

/-- The oldest instruction as sequential execution sees it. -/
theorem Inv.head_exec (h : s.Inv D t) (hval : s.rob.cmtValid 1 D 0 = true) :
    let o := (t.ins t.log.head).d.exec s.archRegs
    (s.head D 0).pay = (t.ins t.log.head).pay ∧ (s.head D 0).fls = o.fls ∧
      (s.head D 0).exc = o.exc ∧ (s.head D 0).vbank = ⟨o.seTgt, o.operb, o.opera⟩ := by
  obtain ⟨ho, -, num, -, hv⟩ := h
  obtain ⟨hlive, hent⟩ := ho.ent_eq (i := 0) (by omega) hval
  rw [Nat.add_zero] at hlive hent
  have hpay := ho.head_pay (i := 0) (by omega) hlive.2
  rw [Nat.add_zero] at hpay
  obtain ⟨e₁, e₂⟩ := ho.src t.log.head le_rfl (lt_nextNum_of_live hlive)
  rw [Nat.sub_self] at e₁ e₂
  have hout : (t.ins t.log.head).out s.prf.val = (t.ins t.log.head).d.exec s.archRegs := by
    rw [RInsn.out, DecInsn.exec, RInsn.operand1, RInsn.operand2, DecInsn.operand1,
      DecInsn.operand2, e₁, e₂]
    rfl
  have hrec := (hv.wb _ _ hlive hent).2.1
  rw [RInsn.wbRec, hout] at hrec
  injection hrec with h₁ h₂ h₃
  exact ⟨hpay, h₁, h₂, h₃⟩

/-- Commit sees the instruction as it runs on the architectural registers. -/
theorem Solo.head_eq (h : s.Solo z D d R t) (hv : s.rob.cmtValid 1 D 0 = true) :
    let o := d.exec (seqRun (R.map retiredOf))
    (s.head D 0).pay.lsu = d.lsu ∧ (s.head D 0).pay.epu = d.epu ∧ (s.head D 0).pay.pc = d.pc ∧
      (s.head D 0).fls = o.fls ∧ (s.head D 0).exc = d.fe.any ∧
      (s.head D 0).vbank = ⟨o.seTgt, o.operb, o.opera⟩ := by
  obtain ⟨hpay, hfls, hexc, hvb⟩ := h.inv.head_exec hv
  rw [h.regs, h.ins] at hfls hexc hvb
  rw [hpay, ← h.ins]
  exact ⟨rfl, rfl, rfl, by rw [hfls, h.ins], by rw [hexc, h.ins]; rfl, by rw [hvb, h.ins]⟩

theorem Ready.flush (h : s.Ready z D d R t) (x : BackendIn) : s.flush D x = false :=
  h.solo.inv.flush_of_idle h.pending h.seFls x

theorem Ready.pipeReq (h : s.Ready z D d R t) (x : BackendIn) :
    s.cmt.pipeReq (s.cmtIn D x) = (d.lsu.any || (d.epu.any || d.fe.any)) := by
  obtain ⟨e₁, e₂, -, -, e₃, -⟩ := h.solo.head_eq h.valid
  rw [Cmt.pipeReq_eq h.seFls h.valid, show (s.cmtIn D x).head 0 = s.head D 0 from rfl,
    CmtHead.needsPipe, e₁, e₂, e₃]

/-- Where it needs no functional unit it goes at once. -/
theorem Ready.fire (h : s.Ready z D d R t) (hn : (d.lsu.any || (d.epu.any || d.fe.any)) = false)
    (x : BackendIn) : s.fire D x 0 = true := by
  have hreq := h.pipeReq x
  rw [hn] at hreq
  have hf : s.cmt.flush (s.cmtIn D x) = false := h.flush x
  have hval : (s.cmtIn D x).valid 0 = true := h.valid
  simp [Backend.fire, Cmt.fire, Cmt.ready2Fire, Cmt.mask, Cmt.cmtCe, hval, hreq, hf]

/-- It leaves the machine empty; where it fails its prediction a flush follows. -/
theorem Ready.next (h : s.Ready z D d R t) (hn : (d.lsu.any || (d.epu.any || d.fe.any)) = false)
    (hx : x.Quiet) :
    ∃ r a, r.d = d ∧ (s.next D x).Empty z D (R ++ [(r, a)]) (t.next D s x) ∧
      (s.next D x).cmt.pending = false ∧
      (s.next D x).cmt.seFls = (d.exec (seqRun (R.map retiredOf))).fls := by
  have hfire := h.fire hn x
  refine ⟨_, _, h.solo.ins, h.solo.retire hx hfire, ?_, ?_⟩
  · change (s.cmt.next (s.cmtIn D x)).pending = false
    simp [Cmt.next, h.pending, h.pipeReq x, hn]
  · change ldff (s.fire D x 0 || s.cmt.seFls) (((s.head D 0).fls ||
      s.cmt.epu.refetch (s.cmt.epuIn (s.cmtIn D x))) && !s.cmt.seFls) s.cmt.seFls = _
    rw [hfire, h.seFls, (h.solo.inv.cmt.quiet h.pending).epu_refetch,
      (h.solo.head_eq h.valid).2.2.2.1]
    simp

/-- The units work on the instruction, and have come to stage `g`. -/
structure Busy (z : RInsn) (D : ℕ) (d : DecInsn) (R : List (RInsn × Word)) (g : CmtStage)
    (s : Backend n) (t : Trace) : Prop where
  solo : s.Solo z D d R t
  valid : s.rob.cmtValid 1 D 0 = true
  pending : s.cmt.pending = true
  flight : s.cmt.Flight (s.head D 0) g

/-- Nothing else happens in a cycle after which the units work on the instruction. -/
theorem Solo.busy_next (h : s.Solo z D d R t) (hx : x.Quiet)
    (hp : (s.next D x).cmt.pending = true) :
    (s.next D x).Solo z D d R (t.next D s x) ∧ (s.next D x).rob.cmtValid 1 D 0 = true ∧
      (s.next D x).head D 0 = s.head D 0 := by
  obtain ⟨num, hpl, hv⟩ := h.inv.place
  obtain ⟨hfire, hf⟩ := Cmt.Inv.hold (x := s.cmtIn D x) h.inv.cmt hp
  obtain ⟨h₁, h₂⟩ := h.inv.order.head_next hpl hv h.inv.cmt hx.delivers hp
  exact ⟨h.stay hx hf (popSize_of_not_fire hfire), h₁, h₂⟩

/-- Where it needs a functional unit the state machine takes it, when the pipeline moves. -/
theorem Ready.request (h : s.Ready z D d R t) (hn : (d.lsu.any || (d.epu.any || d.fe.any)) = true)
    (hx : x.Quiet) (hc : s.cmt.pCeS1 (s.cmtIn D x) = true) :
    (s.next D x).Busy z D d R (s.head D 0).startStage (t.next D s x) ∧
      (s.next D x).head D 0 = s.head D 0 := by
  obtain ⟨num, -, hv⟩ := h.solo.inv.place
  have hreq := (h.pipeReq x).trans hn
  have hp : (s.next D x).cmt.pending = true := by
    change (s.cmt.next (s.cmtIn D x)).pending = true
    simp [Cmt.next, h.pending, hreq, hc]
  obtain ⟨h₁, h₂, h₃⟩ := h.solo.busy_next hx hp
  refine ⟨⟨h₁, h₂, hp, ?_⟩, h₃⟩
  rw [h₃]
  exact Cmt.Flight.of_request (x := s.cmtIn D x) (h.solo.inv.cmt.quiet h.pending) h.pending hreq hc
    (h.solo.inv.order.head_wellFormed hv h.valid)

/-- The request goes on to the second stage of the load/store unit. -/
theorem Busy.next_lsu (h : s.Busy z D d R .lsu1 t) (hx : x.Quiet) (hd : x.dcStall = false) :
    (s.next D x).Busy z D d R .lsu2 (t.next D s x) := by
  have hfin := h.flight.pipeFinish (s.cmtIn D x)
  have hp : (s.next D x).cmt.pending = true := by
    change (s.cmt.next (s.cmtIn D x)).pending = true
    simp [Cmt.next, h.pending, hfin]
  obtain ⟨h₁, h₂, h₃⟩ := h.solo.busy_next hx hp
  refine ⟨h₁, h₂, hp, ?_⟩
  rw [h₃]
  exact Cmt.Flight.next_lsu (x := s.cmtIn D x) h.flight h.pending hd

/-- The instruction finishes, and goes unless it raises an exception. -/
theorem Busy.finish (h : s.Busy z D d R .epu t) (hx : x.Quiet) (hd : x.dcStall = false)
    (he : s.cmt.excFlush (s.cmtIn D x) = false) :
    ∃ r a, r.d = d ∧ (s.next D x).Empty z D (R ++ [(r, a)]) (t.next D s x) ∧
      (s.next D x).cmt.pending = false ∧
      (s.next D x).cmt.seFls =
        ((d.exec (seqRun (R.map retiredOf))).fls || (s.head D 0).epuReq.s1Refetch) := by
  have hfin : s.cmt.pipeFinish (s.cmtIn D x) = true := by
    rw [h.flight.pipeFinish, show (s.cmtIn D x).dcStall = false from hd]
    rfl
  have hse := h.solo.inv.cmt.se h.pending
  have hfl : s.cmt.flush (s.cmtIn D x) = false := by rw [Cmt.flush, hse, he]; rfl
  have hfire : s.fire D x 0 = true :=
    (Cmt.Inv.fire_of_finish (x := s.cmtIn D x) h.solo.inv.cmt hfin hfl).1
  refine ⟨_, _, h.solo.ins, h.solo.retire hx hfire, ?_, ?_⟩
  · change (s.cmt.next (s.cmtIn D x)).pending = false
    simp [Cmt.next, h.pending, hfin]
  · change ldff (s.fire D x 0 || s.cmt.seFls) (((s.head D 0).fls ||
      s.cmt.epu.refetch (s.cmt.epuIn (s.cmtIn D x))) && !s.cmt.seFls) s.cmt.seFls = _
    have hrf : s.cmt.epu.refetch (s.cmt.epuIn (s.cmtIn D x)) = (s.head D 0).epuReq.s1Refetch := by
      have h₂ : Cmt.pCeS2 (s.cmtIn D x) = true := by
        rw [Cmt.pCeS2, show (s.cmtIn D x).dcStall = false from hd]
        rfl
      simp [Epu.refetch, Cmt.epuIn, h₂, h.flight.refetch]
    rw [hfire, hse, (h.solo.head_eq h.valid).2.2.2.1, hrf]
    simp

/-! ### The first instruction -/

/-- `d` is delivered alone, with nothing behind it. -/
def alone (d f : DecInsn) : ℕ → BackendIn
  | 0 => soloIn d f
  | _ + 1 => quietIn f

/-- The states after reset, when `d` is the first instruction. -/
def solo (n : ℕ) [NeZero n] (D : ℕ) (z : RInsn) (d f : DecInsn) (k : ℕ) : Backend n × Trace :=
  run D (reset n z, Trace.reset z) (alone d f) k

theorem solo_ready (n : ℕ) [NeZero n] (D : ℕ) (z : RInsn) {f : DecInsn} (hd : d.WellFormed)
    (hf : f.lrdWe = false) :
    (solo n D z d f 6).1.Ready z D d [] (solo n D z d f 6).2 :=
  ((empty_reset n D z).solo (q := (reset n z, Trace.reset z)) rfl rfl hd (soloIn_alone d hf)
    (u := alone d f) fun _ => quietIn_quiet hf).1

/-! ### One instruction after the other -/

variable {q : Backend n × Trace} {f : DecInsn}

/-- Between two instructions: nothing is inside, and commit is idle. -/
structure Between (z : RInsn) (D : ℕ) (R : List (RInsn × Word)) (s : Backend n)
    (t : Trace) : Prop where
  empty : s.Empty z D R t
  pending : s.cmt.pending = false
  seFls : s.cmt.seFls = false

/-- An instruction without side effects and without a failed prediction takes seven cycles. -/
theorem Between.step (h : q.1.Between z D R q.2) (hd : d.WellFormed) (hf : f.lrdWe = false)
    (hn : (d.lsu.any || (d.epu.any || d.fe.any)) = false)
    (hp : (d.exec (seqRun (R.map retiredOf))).fls = false) :
    ∃ r a, r.d = d ∧ (run D q (alone d f) 7).1.Between z D (R ++ [(r, a)])
      (run D q (alone d f) 7).2 ∧ (run D q (alone d f) 7).1.cmt.msrs = q.1.cmt.msrs := by
  obtain ⟨hr, hm, -⟩ := h.empty.solo (u := alone d f) h.pending h.seFls hd (soloIn_alone d hf)
    fun _ => quietIn_quiet hf
  obtain ⟨r, a, hrd, he, hp', hs'⟩ := hr.next hn (quietIn_quiet hf)
  refine ⟨r, a, hrd, ⟨he, hp', hs'.trans hp⟩, ?_⟩
  rw [← (hm 6 le_rfl).2]
  exact (hr.solo.inv.cmt.quiet hr.pending).msrs_next _

/-- Commit stays idle while nothing is inside, and a flush is over after one cycle. -/
theorem Empty.idle_next (h : s.Empty z D R t) (hp : s.cmt.pending = false) (x : BackendIn) :
    (s.next D x).cmt.pending = false ∧ (s.next D x).cmt.seFls = false := by
  have hval := cmtValid_of_empty (inv_of_reach h.reach).order h.tail.symm
  have hreq : s.cmt.pipeReq (s.cmtIn D x) = false := by
    by_contra hne
    have := Cmt.valid_of_pipeReq (Bool.eq_true_of_not_eq_false hne)
    rw [show (s.cmtIn D x).valid 0 = s.rob.cmtValid 1 D 0 from rfl, hval] at this
    cases this
  have hfire : s.fire D x 0 = false := by
    by_contra hne
    have := Cmt.valid_of_fire (x := s.cmtIn D x) (Bool.eq_true_of_not_eq_false hne)
    rw [show (s.cmtIn D x).valid 0 = s.rob.cmtValid 1 D 0 from rfl, hval] at this
    cases this
  constructor
  · change (s.cmt.next (s.cmtIn D x)).pending = false
    simp [Cmt.next, hp, hreq]
  · change ldff (s.fire D x 0 || s.cmt.seFls) (_ && !s.cmt.seFls) s.cmt.seFls = false
    rw [hfire]
    cases s.cmt.seFls <;> simp [ldff]

/-- The request that a WMSR makes of the exception unit. -/
def wmsrReq (d : DecInsn) (o : ExOut) : EpuReq :=
  ⟨true, d.epu, false, Fe.ofWord o.opera, d.pc, d.pc + 1, o.opera, o.operb⟩

/-- Seven cycles later an MSR operation is in the exception unit, with its request. -/
theorem Between.epu (h : q.1.Between z D R q.2) (hd : d.WellFormed) (hf : f.lrdWe = false)
    (hw : d.epu.any = true) (hfe : d.fe.any = false) {o : ExOut}
    (ho : d.exec (seqRun (R.map retiredOf)) = o)
    (hr : (wmsrReq d o).dcinvWe = false ∧ (wmsrReq d o).dcflsWe = false) :
    (run D q (alone d f) 7).1.Busy z D d R .epu (run D q (alone d f) 7).2 ∧
      ((run D q (alone d f) 7).1.head D 0).epuReq = wmsrReq d o ∧
      (run D q (alone d f) 6).1.cmt.epuReqIn ((run D q (alone d f) 6).1.cmtIn D (quietIn f)) =
        wmsrReq d o ∧
      (run D q (alone d f) 7).1.cmt.epu.s1WmsrDat = o.operb ∧
      ∀ k ≤ 7, (run D q (alone d f) k).1.cmt.msrs = q.1.cmt.msrs := by
  have hq : (quietIn f).Quiet := quietIn_quiet hf
  set r := wmsrReq d o with hrdef
  obtain ⟨hrdy, hm, -⟩ := h.empty.solo (u := alone d f) h.pending h.seFls hd (soloIn_alone d hf)
    fun _ => hq
  set s₆ := (run D q (alone d f) 6).1 with hs₆
  set t₆ := (run D q (alone d f) 6).2 with ht₆
  have hlsu : d.lsu.any = false := by
    by_contra hne
    have := hd.lsu_epu (Bool.eq_true_of_not_eq_false hne)
    rw [hw] at this
    cases this
  obtain ⟨e₁, e₂, e₃, e₄, e₅, e₆⟩ := hrdy.solo.head_eq hrdy.valid
  have hreq : (s₆.head D 0).epuReq = r := by
    rw [CmtHead.epuReq, e₂, e₃, e₅, e₆, hfe, hw]
    simp [hrdef, wmsrReq, ho]
  have hstage : (s₆.head D 0).startStage = .epu := by
    have hload : d.lsu.load = false ∧ d.lsu.store = false := by
      simp only [LsuOpc.any, Bool.or_eq_false_iff] at hlsu
      exact ⟨hlsu.1.1.1.1, hlsu.1.1.1.2⟩
    have hv : (s₆.head D 0).lsuReq.valid = false := by
      rw [LsuReq.valid, LsuReq.dcop, CmtHead.lsuReq, hreq, e₁]
      simp [hload, hr]
    have hb : (s₆.head D 0).epuReq.s1WbValid = true := by
      rw [hreq, EpuReq.s1WbValid, hr.1, hr.2]
      rfl
    rw [CmtHead.startStage, if_neg (by simp [hv]), if_pos hb]
  have hn : (d.lsu.any || (d.epu.any || d.fe.any)) = true := by rw [hw, hlsu, hfe]; rfl
  have hce : s₆.cmt.pCeS1 (s₆.cmtIn D (quietIn f)) = true := by
    simp [Cmt.pCeS1, Cmt.icinvStallReq, Cmt.icinvWe, EpuReq.icInvWe, cmtIn, quietIn]
  obtain ⟨hb, hhead⟩ := hrdy.request hn hq hce
  rw [hstage] at hb
  refine ⟨hb, (congrArg CmtHead.epuReq hhead).trans hreq, ?_, ?_, fun k hk => ?_⟩
  · rw [← hreq]
    exact (Cmt.reqIn_of_pipeReq hrdy.pending ((hrdy.pipeReq _).trans hn)).1
  · change ldff (s₆.cmt.pCeS1 (s₆.cmtIn D (quietIn f))) (s₆.head D 0).vbank.operb _ = _
    rw [hce, ldff_true, e₆, ho]
  · obtain hk | rfl : k ≤ 6 ∨ k = 7 := by omega
    · exact (hm k hk).2
    · rw [← (hm 6 le_rfl).2]
      exact (hrdy.solo.inv.cmt.quiet hrdy.pending).msrs_next _

/-- A WMSR takes nine cycles, with the flush that may follow it. -/
theorem Between.wmsr (h : q.1.Between z D R q.2) (hd : d.WellFormed) (hf : f.lrdWe = false)
    (hw : d.epu = ⟨true, false⟩) (hfe : d.fe.any = false) {o : ExOut}
    (ho : d.exec (seqRun (R.map retiredOf)) = o)
    (hr : (wmsrReq d o).dcinvWe = false ∧ (wmsrReq d o).dcflsWe = false) :
    ∃ r a, r.d = d ∧ (run D q (alone d f) 9).1.Between z D (R ++ [(r, a)])
      (run D q (alone d f) 9).2 ∧ (run D q (alone d f) 9).1.cmt.epu.psr.rm =
        (if (wmsrReq d o).wmsrWe.psr then o.operb.getLsbD 4 else q.1.cmt.epu.psr.rm) ∧
      (run D q (alone d f) 9).1.cmt.epu.psr.dmme =
        (if (wmsrReq d o).wmsrWe.psr then o.operb.getLsbD 7 else q.1.cmt.epu.psr.dmme) ∧
      (run D q (alone d f) 9).1.cmt.lsu.dmmu.tlbL =
        (if (wmsrReq d o).wmsrWe.dmmTlbl then
          Function.update q.1.cmt.lsu.dmmu.tlbL ((wmsrReq d o).bankOff.setWidth tlbP) o.operb
        else q.1.cmt.lsu.dmmu.tlbL) ∧
      (run D q (alone d f) 9).1.cmt.lsu.dmmu.tlbH =
        (if (wmsrReq d o).wmsrWe.dmmTlbh then
          Function.update q.1.cmt.lsu.dmmu.tlbH ((wmsrReq d o).bankOff.setWidth tlbP) o.operb
        else q.1.cmt.lsu.dmmu.tlbH) := by
  have hq : (quietIn f).Quiet := quietIn_quiet hf
  obtain ⟨hb, hreq, -, hdat, hmsrs⟩ := h.epu hd hf (by rw [hw]; rfl) hfe ho hr
  have hmsrs₇ := hmsrs 7 le_rfl
  set r := wmsrReq d o with hrdef
  set s₇ := (run D q (alone d f) 7).1 with hs₇
  -- the write
  have hexc : s₇.cmt.excFlush (s₇.cmtIn D (quietIn f)) = false := by
    rw [hb.flight.excFlush, hreq, EpuReq.s1Fe_of_not_exc rfl]
    rfl
  obtain ⟨rr, a, hrd, he, hp', -⟩ := hb.finish hq rfl hexc
  set s₈ := s₇.next D (quietIn f) with hs₈
  have hpce : Cmt.pCeS2 (s₇.cmtIn D (quietIn f)) = true := rfl
  have hwe : s₇.cmt.epu.commitWe (s₇.cmt.epuIn (s₇.cmtIn D (quietIn f))) = r.wmsrWe := by
    rw [Epu.commitWe, show (s₇.cmt.epuIn (s₇.cmtIn D (quietIn f))).pCeS2 = true from hpce,
      if_pos rfl, hb.flight.wmsrWe rfl, hreq]
  have hfe₇ : s₇.cmt.epu.s1Fe = Fe.none := by
    rw [hb.flight.fe, if_pos rfl, hreq, EpuReq.s1Fe_of_not_exc rfl]
  have hsv : s₇.cmt.lsu.s2Valid = false := hb.flight.s2Valid
  have hmode : s₈.cmt.epu.psr.rm =
      (if r.wmsrWe.psr then o.operb.getLsbD 4 else q.1.cmt.epu.psr.rm) ∧
      s₈.cmt.epu.psr.dmme = (if r.wmsrWe.psr then o.operb.getLsbD 7 else q.1.cmt.epu.psr.dmme) := by
    have hpsr : s₇.cmt.epu.psr = q.1.cmt.epu.psr := congrArg Prod.fst hmsrs₇
    have hx : (s₇.cmt.epuIn (s₇.cmtIn D (quietIn f))).edtm = false ∧
        (s₇.cmt.epuIn (s₇.cmtIn D (quietIn f))).edpf = false ∧
        (s₇.cmt.epuIn (s₇.cmtIn D (quietIn f))).ealign = false := by
      simp [Cmt.epuIn, Lsu.edtm, Lsu.edpf, Lsu.ealign, hsv]
    change (s₇.cmt.epu.psrNext (s₇.cmt.epuIn (s₇.cmtIn D (quietIn f)))).rm = _ ∧
      (s₇.cmt.epu.psrNext (s₇.cmt.epuIn (s₇.cmtIn D (quietIn f)))).dmme = _
    simp only [Epu.psrNext, Psr.next, Epu.psrWr, hwe, Epu.psrSave, hfe₇, Fe.none, hx,
      hdat, Psr.nold, hpsr]
    simp
  have htl : s₈.cmt.lsu.dmmu.tlbL = if r.wmsrWe.dmmTlbl then
      Function.update q.1.cmt.lsu.dmmu.tlbL (r.bankOff.setWidth tlbP) o.operb
      else q.1.cmt.lsu.dmmu.tlbL := by
    have : s₇.cmt.lsu.dmmu.tlbL = q.1.cmt.lsu.dmmu.tlbL := congrArg (fun m => m.2.2.1) hmsrs₇
    change Dmmu.write (s₇.cmt.epu.dmmTlbl _) _ = _
    rw [Epu.dmmTlbl, hwe, hdat, this]
    rfl
  have hth : s₈.cmt.lsu.dmmu.tlbH = if r.wmsrWe.dmmTlbh then
      Function.update q.1.cmt.lsu.dmmu.tlbH (r.bankOff.setWidth tlbP) o.operb
      else q.1.cmt.lsu.dmmu.tlbH := by
    have : s₇.cmt.lsu.dmmu.tlbH = q.1.cmt.lsu.dmmu.tlbH := congrArg (fun m => m.2.2.2) hmsrs₇
    change Dmmu.write (s₇.cmt.epu.dmmTlbh _) _ = _
    rw [Epu.dmmTlbh, hwe, hdat, this]
    rfl
  -- the flush, if there is one
  have hm₉ : (s₈.next D (quietIn f)).cmt.msrs = s₈.cmt.msrs :=
    ((inv_of_reach he.reach).cmt.quiet hp').msrs_next _
  refine ⟨rr, a, hrd, ⟨he.next hq, ?_, ?_⟩, ?_, ?_, ?_, ?_⟩
  · exact (he.idle_next hp' _).1
  · exact (he.idle_next hp' _).2
  · rw [← hmode.1]
    exact congrArg (fun m => m.1.rm) hm₉
  · rw [← hmode.2]
    exact congrArg (fun m => m.1.dmme) hm₉
  · rw [← htl]
    exact congrArg (fun m => m.2.2.1) hm₉
  · rw [← hth]
    exact congrArg (fun m => m.2.2.2) hm₉

end Backend

end NanoCpu
