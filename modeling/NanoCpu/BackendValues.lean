/-
**Places and values in the back-end.**

One cycle keeps the invariant about where the instructions are and which registers are available.

Every instruction in a place after the cycle was in a place before, or has just been pushed; two
places never get theirs from the same one.  An available register never changes: it is either not
written, or written once more with the value it has, by a write-back that was accepted by the
register file and not by the reorder buffer.

Main results:

* `Backend.Inv.next` — the invariant is kept;
* `Backend.val_next_of_avail` — the value of an available register is final.
-/

import NanoCpu.BackendOrder

set_option relaxedAutoImplicit false
set_option autoImplicit false
set_option linter.unusedSectionVars false

namespace NanoCpu

open Renaming

namespace Backend

variable {n : ℕ} [NeZero n] {D : ℕ} {s : Backend n} {t : Trace} {x : BackendIn} {num : Loc n → ℕ}

/-! ### The write ports -/

/-- The result of a load or an MSR read is written only for an instruction of these units, when it
is about to go. -/
theorem lsuEpu_write (ho : s.Order D t) (hc : s.cmt.Inv (s.rob.cmtValid 1 D 0) (s.head D 0))
    (hv : s.Values t num) (hw : s.cmt.prfWeLsuEpu (s.cmtIn D x) = true) :
    s.cmt.pending = true ∧ s.flush D x = false ∧ s.popSize D x = 1 ∧
      t.log.Live t.log.head ∧ (t.ins t.log.head).d.lrdWe = true ∧
      (t.ins t.log.head).d.isMem = true ∧ (s.head D 0).pay.prd = (t.ins t.log.head).prd := by
  simp only [Cmt.prfWeLsuEpu, Bool.and_eq_true, Bool.not_eq_true'] at hw
  obtain ⟨⟨hfin, hfl⟩, hwe⟩ := hw
  have hp := hc.pending_of_pipeFinish hfin
  have hval : s.rob.cmtValid 1 D 0 = true := hc.valid hp
  obtain ⟨hlive, hwb⟩ := ho.ent_eq (i := 0) (by omega) hval
  rw [Nat.add_zero] at hlive hwb
  have hpay := ho.head_pay (i := 0) (by omega) hlive.2
  rw [Nat.add_zero] at hpay
  have hfire := Cmt.Inv.fire_of_finish (x := s.cmtIn D x) hc hfin hfl
  have hlrd : (t.ins t.log.head).d.lrdWe = true := by
    have : (s.head D 0).pay.prdWe = true := hwe
    rw [hpay] at this
    exact this
  have hmem : (t.ins t.log.head).d.isMem = true := by
    have hn := hc.needs hp
    have hwf := ho.wf t.log.head le_rfl (lt_of_lt_of_le hlive.2 (Nat.le_add_right _ _))
    have hexc : (s.head D 0).exc = (t.ins t.log.head).d.fe.any := by
      have := (hv.wb _ _ hlive hwb).2.1
      exact congrArg WbRec.exc this
    have hfe : (t.ins t.log.head).d.fe.any = false := by
      by_contra hne
      rw [hwf.fe_we (by simpa using hne)] at hlrd
      cases hlrd
    simp only [CmtHead.needsPipe, hexc, hfe, hpay, Bool.or_false] at hn
    exact hn
  refine ⟨hp, hfl, ?_, hlive, hlrd, hmem, by rw [hpay]; rfl⟩
  simp [popSize, Cmt.popSize, hfire.1, hfire.2]

/-- What a write port of the register file writes: the result of the instruction behind the
execution pipe, or on port 0 the result of the oldest instruction. -/
theorem port_cases (ho : s.Order D t) (hc : s.cmt.Inv (s.rob.cmtValid 1 D 0) (s.head D 0))
    (hp : s.Place D t num) (hv : s.Values t num) {j : ℕ} (hj : j < 2)
    (hw : (s.mux D x).prfWe s.wb j = true) :
    (s.Occ (.wb j) ∧ (t.ins (num (.wb j))).d.lrdWe = true ∧
        (t.ins (num (.wb j))).d.isMem = false ∧
        (s.mux D x).prfWaddr s.wb j = (t.ins (num (.wb j))).prd ∧
        (s.mux D x).prfWdata s.wb j = ((t.ins (num (.wb j))).out s.prf.val).rfDout) ∨
      (j = 0 ∧ s.cmt.prfWeLsuEpu (s.cmtIn D x) = true ∧
        (s.mux D x).prfWaddr s.wb j = (t.ins t.log.head).prd ∧
        (s.mux D x).prfWdata s.wb j = s.cmt.prfWdataLsuEpu (s.cmtIn D x)) := by
  have hex : (s.wb j).prfWeEx = true → (s.mux D x).prfWaddr s.wb j = (s.wb j).waddr →
      (s.mux D x).prfWdata s.wb j = (s.wb j).wdata →
      s.Occ (.wb j) ∧ (t.ins (num (.wb j))).d.lrdWe = true ∧
        (t.ins (num (.wb j))).d.isMem = false ∧
        (s.mux D x).prfWaddr s.wb j = (t.ins (num (.wb j))).prd ∧
        (s.mux D x).prfWdata s.wb j = ((t.ins (num (.wb j))).out s.prf.val).rfDout := by
    intro h ha hd
    simp only [WbStage.prfWeEx, Bool.and_eq_true] at h
    have hocc : s.Occ (.wb j) := h.2
    obtain ⟨-, -, -, -, -, e₁, e₂, e₃, -⟩ := hp.holds (.wb j) hocc
    rw [h.1] at e₂
    have e₂ := e₂.symm
    simp only [Bool.and_eq_true, Bool.not_eq_true'] at e₂
    exact ⟨hocc, e₂.2, e₂.1, ha.trans e₁, hd.trans e₃⟩
  by_cases h0 : j = 0 ∧ s.cmt.prfWeLsuEpu (s.cmtIn D x) = true
  · obtain ⟨rfl, hl⟩ := h0
    have hm : (s.mux D x).weLsuEpu = true := hl
    refine Or.inr ⟨rfl, hl, ?_, ?_⟩
    · rw [WbMux.prfWaddr, if_pos rfl, hm, if_pos rfl]
      exact (lsuEpu_write ho hc hv hl).2.2.2.2.2.2
    · rw [WbMux.prfWdata, if_pos rfl, hm, if_pos rfl]
      rfl
  · left
    obtain rfl | rfl : j = 0 ∨ j = 1 := by omega
    · have hm : (s.mux D x).weLsuEpu = false := by
        by_contra hne
        exact h0 ⟨rfl, Bool.eq_true_of_not_eq_false hne⟩
      rw [WbMux.prfWe, if_pos rfl, hm, if_neg Bool.false_ne_true] at hw
      refine hex hw ?_ ?_
      · rw [WbMux.prfWaddr, if_pos rfl, hm, if_neg Bool.false_ne_true]
      · rw [WbMux.prfWdata, if_pos rfl, hm, if_neg Bool.false_ne_true]
    · rw [WbMux.prfWe, if_neg one_ne_zero] at hw
      refine hex hw ?_ ?_
      · rw [WbMux.prfWaddr, if_neg one_ne_zero]
      · rw [WbMux.prfWdata, if_neg one_ne_zero]

/-- The stage behind execution pipe `j` writes, unless port 0 is taken. -/
theorem port_of_occ (hp : s.Place D t num) {j : ℕ} (ho : s.Occ (.wb j))
    (hw : (t.ins (num (.wb j))).d.lrdWe = true) (hm : (t.ins (num (.wb j))).d.isMem = false)
    (hl : j = 0 → s.cmt.prfWeLsuEpu (s.cmtIn D x) = false) :
    (s.mux D x).prfWe s.wb j = true ∧ (s.mux D x).prfWaddr s.wb j = (t.ins (num (.wb j))).prd := by
  obtain ⟨-, -, -, -, -, e₁, e₂, -⟩ := hp.holds (.wb j) ho
  have hex : (s.wb j).prfWeEx = true := by
    have : (s.wb j).buf.pending = true := ho
    simp [WbStage.prfWeEx, e₂, hw, hm, this]
  by_cases h0 : j = 0
  · subst h0
    have hm' : (s.mux D x).weLsuEpu = false := hl rfl
    rw [WbMux.prfWe, WbMux.prfWaddr, if_pos rfl, if_pos rfl, hm', if_neg Bool.false_ne_true,
      if_neg Bool.false_ne_true]
    exact ⟨hex, e₁⟩
  · rw [WbMux.prfWe, WbMux.prfWaddr, if_neg h0, if_neg h0]
    exact ⟨hex, e₁⟩

/-! ### Values are final -/

/-- A live instruction has a number. -/
theorem lt_nextNum_of_live {m : ℕ} (hm : t.log.Live m) : m < s.nextNum t :=
  lt_of_lt_of_le hm.2 (Nat.le_add_right _ _)

/-- The instruction that a register has been allocated to. -/
theorem Order.eq_of_prd_eq (ho : s.Order D t) {m m' : ℕ} (h₁ : t.log.head ≤ m)
    (h₂ : m < s.nextNum t)
    (h₁' : t.log.head ≤ m') (h₂' : m' < s.nextNum t) (hw : (t.ins m).d.lrdWe = true)
    (hw' : (t.ins m').d.lrdWe = true) (he : (t.ins m).prd = (t.ins m').prd) : m = m' := by
  rcases Nat.lt_trichotomy m m' with h | h | h
  · exact absurd he (ho.chain.distinct m m' h₁ h h₂' hw hw')
  · exact h
  · exact absurd he.symm (ho.chain.distinct m' m h₁' h h₂ hw' hw)

theorem next_val (p : PReg) :
    (s.next D x).prf.val p =
      if p = 0 then 0
      else rfWrite ((s.mux D x).prfWe s.wb) ((s.mux D x).prfWaddr s.wb)
      ((s.mux D x).prfWdata s.wb) 2 s.prf.regfile p := rfl

/-- The value of an available register is final. -/
theorem val_next_of_avail (ho : s.Order D t)
    (hc : s.cmt.Inv (s.rob.cmtValid 1 D 0) (s.head D 0)) (hp : s.Place D t num)
    (hv : s.Values t num) {p : PReg} (ha : s.rn.Avail p) :
    (s.next D x).prf.val p = s.prf.val p := by
  rw [next_val, Prf.val]
  by_cases h0 : p = 0
  · rw [if_pos h0, if_pos h0]
  · rw [if_neg h0, if_neg h0]
    refine rfWrite_eq_of_forall (fun j hj hw he => ?_) (Or.inl rfl)
    rcases port_cases ho hc hp hv hj hw with ⟨hocc, hwe, -, h₁, h₂⟩ | ⟨-, hl, h₁, -⟩
    · have hlive := hp.live _ hocc
      rw [h₁] at he
      have hval := (hv.prd _ hlive.1 (lt_nextNum_of_live hlive) hwe (he ▸ ha)).2.2
      rw [h₂, ← hval, he, Prf.val, if_neg h0]
    · -- the oldest instruction has not got its result yet
      obtain ⟨-, -, -, hlive, hwe, hmem, -⟩ := lsuEpu_write ho hc hv hl
      rw [h₁] at he
      have := (hv.prd _ hlive.1 (lt_nextNum_of_live hlive) hwe (he ▸ ha)).1
      rw [hmem] at this
      cases this

/-- What an instruction computes is final, once what it reads is there. -/
theorem out_next_of_srcAvail (ho : s.Order D t)
    (hc : s.cmt.Inv (s.rob.cmtValid 1 D 0) (s.head D 0)) (hp : s.Place D t num)
    (hv : s.Values t num) {r : RInsn} (ha : s.rn.SrcAvail r) :
    r.operand1 (s.next D x).prf.val = r.operand1 s.prf.val ∧
      r.operand2 (s.next D x).prf.val = r.operand2 s.prf.val ∧
      r.out (s.next D x).prf.val = r.out s.prf.val := by
  have h₁ : r.operand1 (s.next D x).prf.val = r.operand1 s.prf.val := by
    unfold RInsn.operand1
    split_ifs with h
    · exact val_next_of_avail ho hc hp hv (ha.1 h)
    · rfl
  have h₂ : r.operand2 (s.next D x).prf.val = r.operand2 s.prf.val := by
    unfold RInsn.operand2
    split_ifs with h
    · exact val_next_of_avail ho hc hp hv (ha.2 h)
    · rfl
  exact ⟨h₁, h₂, by rw [RInsn.out, h₁, h₂, RInsn.out]⟩

/-- What is written to the register of an instruction is its result. -/
theorem val_next_of_port (ho : s.Order D t)
    (hc : s.cmt.Inv (s.rob.cmtValid 1 D 0) (s.head D 0)) (hp : s.Place D t num)
    (hv : s.Values t num) {m : ℕ} (h₁ : t.log.head ≤ m) (h₂ : m < s.nextNum t)
    (hwe : (t.ins m).d.lrdWe = true)
    (hw : ∃ j < 2, (s.mux D x).prfWe s.wb j = true ∧
      (s.mux D x).prfWaddr s.wb j = (t.ins m).prd) :
    (s.next D x).prf.val (t.ins m).prd =
      if (t.ins m).d.isMem then s.cmt.prfWdataLsuEpu (s.cmtIn D x)
      else ((t.ins m).out s.prf.val).rfDout := by
  have h0 : (t.ins m).prd ≠ 0 := (ho.chain.alloc m h₁ h₂ hwe).1
  rw [next_val, if_neg h0]
  refine rfWrite_eq_of_forall (fun j hj hw he => ?_) (Or.inr hw)
  rcases port_cases ho hc hp hv hj hw with ⟨hocc, hwe', hmem, ha, hd⟩ | ⟨-, hl, ha, hd⟩
  · have hlive := hp.live _ hocc
    have : num (.wb j) = m := ho.eq_of_prd_eq hlive.1 (lt_nextNum_of_live hlive) h₁ h₂ hwe' hwe
      (ha.symm.trans he)
    rw [hd, ← this, hmem, if_neg Bool.false_ne_true]
  · obtain ⟨-, -, -, hlive, hwe', hmem, -⟩ := lsuEpu_write ho hc hv hl
    have : t.log.head = m := ho.eq_of_prd_eq hlive.1 (lt_nextNum_of_live hlive) h₁ h₂ hwe' hwe
      (ha.symm.trans he)
    rw [hd, ← this, hmem, if_pos rfl]

/-! ### Availability -/

/-- A taken register stays available, and becomes so when it is written. -/
theorem avail_next (hf : s.flush D x = false) {p : PReg} (hp : p = 0 ∨ s.rn.fl p = false)
    (ha : s.rn.Avail p ∨
      ∃ j < 2, (s.mux D x).prfWe s.wb j = true ∧ (s.mux D x).prfWaddr s.wb j = p) :
    (s.next D x).rn.Avail p := by
  by_cases h0 : p = 0
  · exact Or.inl h0
  right
  by_contra hne
  have hfree : s.rn.fl p = false := hp.resolve_left h0
  rcases (Rename.next_busytable (s := s.rn) (x := s.rnIn D x) hf p).1
      (Bool.eq_true_of_not_eq_false hne) with
    ⟨j, -, -, rfl⟩ | ⟨hb, hn⟩
  · -- only free registers are offered
    rcases Rename.flPrd_mem_or_zero (s := s.rn) j with h | h
    · rw [hfree] at h
      cases h
    · exact h0 h
  · rcases ha with (ha | ha) | ⟨j, hj, hw, he⟩
    · exact h0 ha
    · rw [hb] at ha
      cases ha
    · exact hn j hj hw he

/-- Where a register has become available it was written, and it was not offered. -/
theorem avail_of_next (hf : s.flush D x = false) {p : PReg} (h0 : p ≠ 0)
    (ha : (s.next D x).rn.Avail p) :
    (s.rn.Avail p ∨ ∃ j < 2, (s.mux D x).prfWe s.wb j = true ∧ (s.mux D x).prfWaddr s.wb j = p) ∧
      ∀ j < 2, (x.rnInsn j).lrdWe = true → s.rn.flPrd j ≠ p := by
  have hb : ¬ (s.next D x).rn.busytable p = true := by
    rw [ha.resolve_left h0]
    exact Bool.false_ne_true
  have hb' := mt (Rename.next_busytable (s := s.rn) (x := s.rnIn D x) hf p).2 hb
  push Not at hb'
  obtain ⟨h₁, h₂⟩ := hb'
  refine ⟨?_, fun j hj hw => h₁ j hj hw⟩
  by_cases hbp : s.rn.busytable p = true
  · exact Or.inr (h₂ hbp)
  · exact Or.inl (Or.inr (by simpa using hbp))

theorem Order.fl_mapFrom (ho : s.Order D t) {k : ℕ} (hk : t.log.head + k ≤ s.nextNum t) (l : LReg) :
    s.rn.fl (mapFrom (fun m => (t.ins m).ren) s.rn.arat t.log.head k l) = false := by
  simpa using ho.chain.not_free_mapFrom hk l

theorem Order.fl_prd (ho : s.Order D t) {m : ℕ} (h₁ : t.log.head ≤ m) (h₂ : m < s.nextNum t)
    (hw : (t.ins m).d.lrdWe = true) : s.rn.fl (t.ins m).prd = false := by
  by_contra hne
  exact ho.chain.free_ne_prd (Bool.eq_true_of_not_eq_false hne) h₁ h₂ hw rfl

/-- What an instruction reads stays available. -/
theorem Order.srcAvail_next (ho : s.Order D t) (hf : s.flush D x = false) {m : ℕ}
    (h₁ : t.log.head ≤ m) (h₂ : m < s.nextNum t) (ha : s.rn.SrcAvail (t.ins m)) :
    (s.next D x).rn.SrcAvail (t.ins m) := by
  obtain ⟨e₁, e₂⟩ := ho.src m h₁ h₂
  refine ⟨fun h => avail_next hf (Or.inr ?_) (Or.inl (ha.1 h)),
    fun h => avail_next hf (Or.inr ?_) (Or.inl (ha.2 h))⟩
  · rw [e₁]
    exact ho.fl_mapFrom (by omega) _
  · rw [e₂]
    exact ho.fl_mapFrom (by omega) _

/-! ### Where the instructions come from -/

/-- The stage behind execution pipe `i` takes an instruction. -/
def wbLoad (D : ℕ) (s : Backend n) (x : BackendIn) (i : ℕ) : Bool :=
  (s.ex i).buf.pending && s.exReady D x i

/-- The place that an instruction was in before the cycle, or the lane of issue it comes from. -/
def src (D : ℕ) (s : Backend n) (x : BackendIn) : Loc n → Loc n ⊕ ℕ
  | .rs i a => if s.rsPush D x i = true ∧ a = (s.rs i).freeAddr then .inr i else .inl (.rs i a)
  | .ex i => .inl (if s.roRsPop D x i = true then .rs i (s.rs i).rdyAddrFf else .ex i)
  | .wb i => .inl (if s.wbLoad D x i = true then .ex i else .wb i)

theorem occ_next_rs {i : ℕ} {a : Fin n} (ho : (s.next D x).Occ (.rs i a)) :
    ¬ (s.roRsPop D x i = true ∧ a = (s.rs i).rdyAddrFf) ∧
      ((s.rsPush D x i = true ∧ a = (s.rs i).freeAddr) ∨ s.Occ (.rs i a)) := by
  have h : (s.flush D x || (s.roRsPop D x i && a == (s.rs i).rdyAddrFf) ||
      ((s.rs i).freeVec a && !(s.rsPush D x i && a == (s.rs i).freeAddr))) = false := ho
  simp only [Bool.or_eq_false_iff, Bool.and_eq_false_iff, beq_eq_false_iff_ne, Bool.not_eq_false',
    Bool.and_eq_true, beq_iff_eq] at h
  refine ⟨?_, h.2.symm.imp id id⟩
  rintro ⟨h₁, h₂⟩
  rcases h.1.2 with h' | h'
  · rw [h₁] at h'
    cases h'
  · exact h' h₂

theorem occ_next_ex (hf : s.flush D x = false) {i : ℕ} (ho : (s.next D x).Occ (.ex i)) :
    s.roRsPop D x i = true ∨
      (s.roRsPop D x i = false ∧ s.Occ (.ex i) ∧ s.exReady D x i = false) := by
  have h : ((s.ex i).buf.next (s.flush D x) true (s.rs i).hasRdyFf true (s.exReady D x i)).pending =
    true := ho
  rw [hf] at h
  exact HdsBuf.pending_next h

theorem occ_next_wb (hf : s.flush D x = false) {i : ℕ} (ho : (s.next D x).Occ (.wb i)) :
    s.wbLoad D x i = true ∨
      (s.wbLoad D x i = false ∧ s.Occ (.wb i) ∧ s.wbReady D x i = false) := by
  have h : ((s.wb i).buf.next (s.flush D x) true (s.ex i).buf.pending true
    (s.wbReady D x i)).pending =
    true := ho
  rw [hf] at h
  exact HdsBuf.pending_next h

/-- An instruction in a place was in a place, or has just been pushed. -/
theorem occ_src (hp : s.Place D t num) (hf : s.flush D x = false) {k : Loc n}
    (hk : (s.next D x).Occ k) :
    (∃ k₀, s.src D x k = .inl k₀ ∧ s.Occ k₀) ∨ ∃ i, s.src D x k = .inr i ∧
      s.rsPush D x i = true := by
  cases k with
  | rs i a =>
      by_cases h : s.rsPush D x i = true ∧ a = (s.rs i).freeAddr
      · exact Or.inr ⟨i, if_pos h, h.1⟩
      · exact Or.inl ⟨.rs i a, if_neg h, (occ_next_rs hk).2.resolve_left h⟩
  | ex i =>
      left
      rcases occ_next_ex hf hk with h | ⟨h, ho, -⟩
      · refine ⟨.rs i (s.rs i).rdyAddrFf, by rw [src, if_pos h], (hp.rdy i ?_).1⟩
        simp only [roRsPop, Bool.and_eq_true] at h
        exact h.1
      · exact ⟨.ex i, by rw [src, if_neg (by simp [h])], ho⟩
  | wb i =>
      left
      rcases occ_next_wb hf hk with h | ⟨h, ho, -⟩
      · refine ⟨.ex i, by rw [src, if_pos h], ?_⟩
        simp only [wbLoad, Bool.and_eq_true] at h
        exact h.1
      · exact ⟨.wb i, by rw [src, if_neg (by simp [h])], ho⟩

/-- Two places never get their instructions from the same one. -/
theorem src_inj (hf : s.flush D x = false) {k k' : Loc n} (hk : (s.next D x).Occ k)
    (hk' : (s.next D x).Occ k') (he : s.src D x k = s.src D x k') : k = k' := by
  have hexw : ∀ i, s.wbLoad D x i = true → s.exReady D x i = true := by
    intro i h
    simp only [wbLoad, Bool.and_eq_true] at h
    exact h.2
  have hrs : ∀ {i a i'}, (s.next D x).Occ (.rs i a) → (s.next D x).Occ (.ex i') →
      s.src D x (.rs i a) ≠ s.src D x (.ex i') := by
    intro i a i' h h' e
    simp only [src] at e
    split_ifs at e with h₁ h₂
    · simp only [Sum.inl.injEq, Loc.rs.injEq] at e
      obtain ⟨rfl, rfl⟩ := e
      exact (occ_next_rs h).1 ⟨h₂, rfl⟩
    · simp at e
  have hrw : ∀ {i a i'}, s.src D x (.rs i a) ≠ s.src D x (.wb i') := by
    intro i a i' e
    simp only [src] at e
    split_ifs at e <;> simp at e
  have hew : ∀ {i i'}, (s.next D x).Occ (.ex i) → s.src D x (.ex i) ≠ s.src D x (.wb i') := by
    intro i i' h e
    simp only [src, Sum.inl.injEq] at e
    split_ifs at e with h₁ h₂ h₂
    obtain rfl : i = i' := by simpa using e
    rcases occ_next_ex hf h with h' | ⟨-, -, h'⟩
    · exact h₁ h'
    · rw [hexw i h₂] at h'
      cases h'
  cases k with
  | rs i a =>
      cases k' with
      | rs i' a' =>
          simp only [src] at he
          split_ifs at he with h₁ h₂ h₂
          · obtain rfl : i = i' := by simpa using he
            rw [h₁.2, h₂.2]
          · simpa using he
      | ex i' => exact absurd he (hrs hk hk')
      | wb i' => exact absurd he hrw
  | ex i =>
      cases k' with
      | rs i' a' => exact absurd he.symm (hrs hk' hk)
      | ex i' =>
          simp only [src, Sum.inl.injEq] at he
          split_ifs at he <;> simp at he <;> simp [he]
      | wb i' => exact absurd he (hew hk)
  | wb i =>
      cases k' with
      | rs i' a' => exact absurd he.symm hrw
      | ex i' => exact absurd he.symm (hew hk')
      | wb i' =>
          simp only [src, Sum.inl.injEq] at he
          split_ifs at he <;> simp at he <;> simp [he]

/-! ### Write-back -/

/-- The lowest lane only waits for the register file. -/
theorem wbReady_zero : s.wbReady D x 0 = !s.cmt.prfWeLsuEpu (s.cmtIn D x) := by
  simp only [wbReady, WbMux.wbReady, if_true, RobIn.wbReady, List.range_zero, List.all_nil,
    Bool.and_true]
  rfl

/-- A lane that has to wait: lane 0 for the register file, another one for the reorder buffer. -/
theorem lsuEpu_of_wait {i : ℕ} (hw : s.wbReady D x i = false)
    (hr : (s.robIn D x).wbReady i = true) : i = 0 ∧ s.cmt.prfWeLsuEpu (s.cmtIn D x) = true := by
  by_cases hi : i = 0
  · subst hi
    rw [wbReady_zero] at hw
    exact ⟨rfl, by simpa using hw⟩
  · rw [wbReady, WbMux.wbReady, if_neg hi, hr] at hw
    cases hw

/-- The write-back that reaches an instruction comes from the place it is in. -/
theorem wbLane_eq (ho : s.Order D t) (hp : s.Place D t num) {m j : ℕ} (hm : t.log.Live m)
    (h : (s.robIn D x).wbLane 1 D m = some j) :
    j < 2 ∧ s.Occ (.wb j) ∧ num (.wb j) = m ∧ (s.robIn D x).wbReady j = true := by
  obtain ⟨hj, hs, hid⟩ := RobIn.wbLane_spec h
  simp only [RobIn.wbSel, Bool.and_eq_true, beq_iff_eq] at hs
  obtain ⟨⟨hv, hr⟩, hb⟩ := hs
  have hocc : s.Occ (.wb j) := hv
  obtain ⟨-, -, -, e₁, e₂, -⟩ := hp.holds (.wb j) hocc
  refine ⟨hj, hocc, ho.rob.slot_inj (hp.live _ hocc) hm ?_ ?_, hr⟩
  · exact e₂.symm.trans hb.symm
  · exact e₁.symm.trans hid

/-- What lane `j` reports is what its instruction computes. -/
theorem wbRec_eq (hp : s.Place D t num) {j : ℕ} (hocc : s.Occ (.wb j)) :
    (s.robIn D x).wbRec j = (t.ins (num (.wb j))).wbRec s.prf.val := by
  obtain ⟨-, -, -, -, -, -, -, -, e⟩ := hp.holds (.wb j) hocc
  exact e

/-- Nothing reaches an instruction that has not been executed. -/
theorem wbLane_eq_none (ho : s.Order D t) (hp : s.Place D t num) {k : Loc n} (hk : s.Occ k)
    (hne : ∀ j, k ≠ .wb j) : (s.robIn D x).wbLane 1 D (num k) = none := by
  by_contra h
  obtain ⟨j, hj⟩ := Option.ne_none_iff_exists'.1 h
  obtain ⟨-, hocc, he, -⟩ := wbLane_eq ho hp (hp.live k hk) hj
  exact hne j (hp.inj k (.wb j) hk hocc he.symm)

theorem ent_next (hf : s.flush D x = false) {m : ℕ} (h₁ : t.log.head + s.popSize D x ≤ m)
    (h₂ : m < t.log.tail) :
    ((t.next D s x).log.ent m).wb =
      (((s.robIn D x).wbLane 1 D m).map (s.robIn D x).wbRec).or (t.log.ent m).wb :=
  congrArg RobEnt.wb (RobLog.next_ent_live (x := s.robIn D x) hf h₁ h₂)

/-! ### The places after a cycle -/

/-- The instruction in a place after a cycle. -/
def numNext (D : ℕ) (s : Backend n) (t : Trace) (x : BackendIn) (num : Loc n → ℕ) (k : Loc n) : ℕ :=
  Sum.elim num (fun i => t.log.tail + i) (s.src D x k)

/-- An instruction that has gone is in no place. -/
theorem not_popped (ho : s.Order D t) (hc : s.cmt.Inv (s.rob.cmtValid 1 D 0) (s.head D 0))
    (hp : s.Place D t num) (hf : s.flush D x = false) {k k₀ : Loc n} (hk : (s.next D x).Occ k)
    (hs : s.src D x k = .inl k₀) (hk₀ : s.Occ k₀) : t.log.head + s.popSize D x ≤ num k₀ := by
  by_contra hlt
  have hlive := hp.live k₀ hk₀
  have hle := popSize_le (s := s) (D := D) (x := x)
  obtain ⟨i, hi⟩ := Nat.exists_eq_add_of_le hlive.1
  have hv := (ho.live_of_lt (x := x) (i := i) (by omega)).1
  have hwb := (ho.ent_eq (i := i) (by omega) hv).2
  rw [← hi] at hwb
  cases k₀ with
  | rs j a =>
      obtain ⟨-, h, -⟩ := hp.holds _ hk₀
      rw [h] at hwb
      cases hwb
  | ex j =>
      obtain ⟨-, h, -⟩ := hp.holds _ hk₀
      rw [h] at hwb
      cases hwb
  | wb j =>
      obtain ⟨-, h, -⟩ := hp.holds _ hk₀
      obtain ⟨rfl, hpend⟩ := h (by rw [hwb]; exact Option.some_ne_none _)
      -- lane 0 is not held up while the state machine is idle
      cases k with
      | rs i' a =>
          simp only [src] at hs
          split_ifs at hs
          simp at hs
      | ex i' =>
          simp only [src] at hs
          split_ifs at hs <;> simp at hs
      | wb i' =>
          simp only [src, Sum.inl.injEq] at hs
          split_ifs at hs with hl
          obtain rfl : i' = 0 := by simpa using hs
          rcases occ_next_wb hf hk with h' | ⟨-, -, h'⟩
          · exact hl h'
          · rw [wbReady_zero] at h'
            simp only [Bool.not_eq_false', Cmt.prfWeLsuEpu, Bool.and_eq_true] at h'
            rw [hc.pending_of_pipeFinish h'.1.1] at hpend
            cases hpend

theorem rsPush_lt (ho : s.Order D t) {i : ℕ} (h : s.rsPush D x i = true) :
    i < s.rn.issuePushSize ∧ s.robPushSize D x = s.rn.issuePushSize ∧ s.issuePCe D x = true := by
  simp only [rsPush, Bool.and_eq_true] at h
  rw [ho.issueValid, decide_eq_true_eq] at h
  exact ⟨h.1, by rw [robPushSize, h.2, if_pos rfl], h.2⟩

theorem live_numNext (ho : s.Order D t) (hc : s.cmt.Inv (s.rob.cmtValid 1 D 0) (s.head D 0))
    (hp : s.Place D t num) (hf : s.flush D x = false) {k : Loc n} (hk : (s.next D x).Occ k) :
    (t.next D s x).log.Live (s.numNext D t x num k) := by
  rw [RobLog.Live, Trace.next_head hf, Trace.next_tail hf, numNext]
  rcases occ_src hp hf hk with ⟨k₀, hs, hk₀⟩ | ⟨i, hs, hi⟩
  · rw [hs]
    have := (hp.live k₀ hk₀).2
    exact ⟨not_popped ho hc hp hf hk hs hk₀, by simp only [Sum.elim_inl]; omega⟩
  · rw [hs]
    have h₁ := rsPush_lt ho hi
    have h₂ := ho.head_popSize_le (x := x)
    simp only [Sum.elim_inr]
    omega

theorem numNext_inj (hp : s.Place D t num) (hf : s.flush D x = false) {k k' : Loc n}
    (hk : (s.next D x).Occ k) (hk' : (s.next D x).Occ k')
    (he : s.numNext D t x num k = s.numNext D t x num k') : k = k' := by
  refine src_inj hf hk hk' ?_
  simp only [numNext] at he
  rcases occ_src hp hf hk with ⟨k₀, hs, h₀⟩ | ⟨i, hs, hi⟩ <;>
    rcases occ_src hp hf hk' with ⟨k₀', hs', h₀'⟩ | ⟨i', hs', hi'⟩ <;>
    rw [hs, hs'] at he ⊢ <;> simp only [Sum.elim_inl, Sum.elim_inr] at he
  · rw [hp.inj k₀ k₀' h₀ h₀' he]
  · have := (hp.live k₀ h₀).2
    omega
  · have := (hp.live k₀' h₀').2
    omega
  · rw [show i = i' by omega]

/-- What is written into a reservation station does not touch the taken slots. -/
theorem rs_write_of_ne {α : Type*} {i : ℕ} {a : Fin n} (d : α) (m : Fin n → α)
    (h : ¬ (s.rsPush D x i = true ∧ a = (s.rs i).freeAddr)) :
    (s.rs i).write (s.rsIn D x i) d m a = m a := by
  rw [Rs.write]
  split_ifs with hw
  · exact Function.update_of_ne (fun e => h ⟨hw, e⟩) _ _
  · rfl

theorem rs_write_of_eq {α : Type*} {i : ℕ} (d : α) (m : Fin n → α) (h : s.rsPush D x i = true) :
    (s.rs i).write (s.rsIn D x i) d m (s.rs i).freeAddr = d := by
  have : (s.rsIn D x i).push = true := h
  rw [Rs.write, if_pos this, Function.update_self]

/-- An instruction that waits in a reservation station. -/
theorem holds_next_rs (ho : s.Order D t) (hc : s.cmt.Inv (s.rob.cmtValid 1 D 0) (s.head D 0))
    (hp : s.Place D t num) (hf : s.flush D x = false) {i : ℕ} {a : Fin n}
    (hk : (s.next D x).Occ (.rs i a)) :
    (s.next D x).Holds D (t.next D s x) (s.numNext D t x num (.rs i a)) (.rs i a) := by
  by_cases h : s.rsPush D x i = true ∧ a = (s.rs i).freeAddr
  · obtain ⟨hpush, rfl⟩ := h
    obtain ⟨h₁, h₂, -⟩ := rsPush_lt ho hpush
    have hnum : s.numNext D t x num (.rs i (s.rs i).freeAddr) = t.log.tail + i := by
      simp [numNext, src, hpush]
    have hlt : t.log.tail + i < s.nextNum t := by
      rw [nextNum]
      omega
    have hsz := ho.size_le
    rw [hnum]
    simp only [Holds, Trace.next_ins_of_lt hlt, ← ho.issue i h₁]
    refine ⟨by omega, ?_, ?_, ?_, ?_, ?_, ?_⟩
    · have := RobLog.next_ent_push (l := t.log) (P := 1) (D := D) (x := s.robIn D x) hf
        (Nat.le_add_right t.log.tail i)
        (show t.log.tail + i < t.log.tail + s.robPushSize D x by omega)
      exact congrArg RobEnt.wb this
    · refine (rs_write_of_eq _ _ hpush).trans ?_
      change (s.rn.issue i).opp _ _ = _
      rw [ho.rob.freeId_eq (by omega), ho.rob.freeBank_eq]
    · exact rs_write_of_eq _ _ hpush
    · exact rs_write_of_eq _ _ hpush
    · exact rs_write_of_eq _ _ hpush
    · exact rs_write_of_eq _ _ hpush
  · have hocc := (occ_next_rs hk).2.resolve_left h
    have hs : s.src D x (.rs i a) = .inl (.rs i a) := if_neg h
    have hnum : s.numNext D t x num (.rs i a) = num (.rs i a) := by rw [numNext, hs, Sum.elim_inl]
    have hlive := hp.live _ hocc
    obtain ⟨h₁, h₂, h₃, h₄, h₅, h₆, h₇⟩ := hp.holds _ hocc
    rw [hnum]
    simp only [Holds, Trace.next_ins_of_lt (lt_nextNum_of_live (s := s) hlive)]
    refine ⟨h₁, ?_, ?_, ?_, ?_, ?_, ?_⟩
    · rw [ent_next hf (not_popped ho hc hp hf hk hs hocc) hlive.2,
        wbLane_eq_none ho hp hocc (by simp), h₂]
      rfl
    · exact (rs_write_of_ne _ _ h).trans h₃
    · exact (rs_write_of_ne _ _ h).trans h₄
    · exact (rs_write_of_ne _ _ h).trans h₅
    · exact (rs_write_of_ne _ _ h).trans h₆
    · exact (rs_write_of_ne _ _ h).trans h₇

theorem next_rdata (k : ℕ) :
    (s.next D x).prf.rdata k =
      if s.prfRe D x k = true then s.prf.val (s.prfRaddr k) else s.prf.rdata k :=
  Prf.rdata_next _ _ _ _ _ _ k

/-- An instruction in front of its execution pipe. -/
theorem holds_next_ex (ho : s.Order D t) (hc : s.cmt.Inv (s.rob.cmtValid 1 D 0) (s.head D 0))
    (hp : s.Place D t num) (hv : s.Values t num) (hf : s.flush D x = false) {i : ℕ}
    (hk : (s.next D x).Occ (.ex i)) :
    (s.next D x).Holds D (t.next D s x) (s.numNext D t x num (.ex i)) (.ex i) := by
  have e₀ : 2 * i / 2 = i := by omega
  have e₁ : (2 * i + 1) / 2 = i := by omega
  have e₂ : 2 * i % 2 = 0 := by omega
  have e₃ : (2 * i + 1) % 2 = 1 := by omega
  have hre₁ : s.prfRe D x (2 * i) = (s.roRsPop D x i && (s.rs i).roPrs1Re) := by
    simp [prfRe, e₀, e₂]
  have hre₂ : s.prfRe D x (2 * i + 1) = (s.roRsPop D x i && (s.rs i).roPrs2Re) := by
    simp [prfRe, e₁, e₃]
  have hra₁ : s.prfRaddr (2 * i) = (s.rs i).roPrs1 := by simp [prfRaddr, e₀, e₂]
  have hra₂ : s.prfRaddr (2 * i + 1) = (s.rs i).roPrs2 := by simp [prfRaddr, e₁, e₃]
  rcases occ_next_ex hf hk with hpop | ⟨hpop, hocc, -⟩
  · -- the instruction leaves the reservation station
    have hrdy : (s.rs i).hasRdyFf = true := by
      simp only [roRsPop, Bool.and_eq_true] at hpop
      exact hpop.1
    obtain ⟨hocc, f₁, f₂, f₃, f₄, f₅, hsrc⟩ := hp.rdy i hrdy
    have hs : s.src D x (.ex i) = .inl (.rs i (s.rs i).rdyAddrFf) := by rw [src, if_pos hpop]
    have hnum : s.numNext D t x num (.ex i) = num (.rs i (s.rs i).rdyAddrFf) := by
      rw [numNext, hs, Sum.elim_inl]
    have hlive := hp.live _ hocc
    have hlt := lt_nextNum_of_live (s := s) hlive
    obtain ⟨h₁, h₂, h₃, h₄, h₅, h₆, h₇⟩ := hp.holds _ hocc
    obtain ⟨o₁, o₂, -⟩ := out_next_of_srcAvail (x := x) ho hc hp hv hsrc
    have hex : (s.next D x).ex i = ⟨((s.next D x).ex i).buf, (s.rs i).oppRdat, (s.rs i).roPrs1Re,
        (s.rs i).roPrs2Re⟩ := by
      have : (s.ex i).pCe (s.rs i).hasRdyFf (s.exReady D x i) = true := hpop
      simp [next, ExStage.next, this]
    rw [hnum]
    simp only [Holds, Trace.next_ins_of_lt hlt]
    refine ⟨h₁, ?_, ?_, ho.srcAvail_next hf hlive.1 hlt hsrc, ?_, ?_⟩
    · rw [ent_next hf (not_popped ho hc hp hf hk hs hocc) hlive.2,
        wbLane_eq_none ho hp hocc (by simp), h₂]
      rfl
    · rw [hex, ← h₃]
      exact f₁
    · rw [o₁, operand1, ExStage.operand1, hex, f₄, h₆, next_rdata, hre₁, hpop,
        Bool.true_and, f₄, h₆, RInsn.operand1, hra₁, f₂, h₄]
      split_ifs
      · rfl
      · exact congrArg Opp.imm (f₁.trans h₃)
    · rw [o₂, operand2, ExStage.operand2, hex, f₅, h₇, next_rdata, hre₂, hpop,
        Bool.true_and, f₅, h₇, RInsn.operand2, hra₂, f₃, h₅]
      split_ifs
      · rfl
      · exact congrArg Opp.imm (f₁.trans h₃)
  · -- the execution pipe is held up
    have hs : s.src D x (.ex i) = .inl (.ex i) := by rw [src, if_neg (by simp [hpop])]
    have hnum : s.numNext D t x num (.ex i) = num (.ex i) := by rw [numNext, hs, Sum.elim_inl]
    have hlive := hp.live _ hocc
    have hlt := lt_nextNum_of_live (s := s) hlive
    obtain ⟨h₁, h₂, h₃, h₄, h₅, h₆⟩ := hp.holds _ hocc
    obtain ⟨o₁, o₂, -⟩ := out_next_of_srcAvail (x := x) ho hc hp hv h₄
    have hex : (s.next D x).ex i = ⟨((s.next D x).ex i).buf, (s.ex i).opp, (s.ex i).prs1Re,
        (s.ex i).prs2Re⟩ := by
      have : (s.ex i).pCe (s.rs i).hasRdyFf (s.exReady D x i) = false := hpop
      simp [next, ExStage.next, this]
    rw [hnum]
    simp only [Holds, Trace.next_ins_of_lt hlt]
    refine ⟨h₁, ?_, by rw [hex]; exact h₃, ho.srcAvail_next hf hlive.1 hlt h₄, ?_, ?_⟩
    · rw [ent_next hf (not_popped ho hc hp hf hk hs hocc) hlive.2,
        wbLane_eq_none ho hp hocc (by simp), h₂]
      rfl
    · rw [o₁, ← h₅, operand1, hex, next_rdata, hre₁, hpop]
      rfl
    · rw [o₂, ← h₆, operand2, hex, next_rdata, hre₂, hpop]
      rfl

/-- An instruction behind its execution pipe. -/
theorem holds_next_wb (ho : s.Order D t) (hc : s.cmt.Inv (s.rob.cmtValid 1 D 0) (s.head D 0))
    (hp : s.Place D t num) (hv : s.Values t num) (hf : s.flush D x = false) {i : ℕ}
    (hk : (s.next D x).Occ (.wb i)) :
    (s.next D x).Holds D (t.next D s x) (s.numNext D t x num (.wb i)) (.wb i) := by
  rcases occ_next_wb hf hk with hld | ⟨hld, hocc, hwait⟩
  · -- the instruction comes out of the execution pipe
    have hocc : s.Occ (.ex i) := by
      simp only [wbLoad, Bool.and_eq_true] at hld
      exact hld.1
    have hs : s.src D x (.wb i) = .inl (.ex i) := by rw [src, if_pos hld]
    have hnum : s.numNext D t x num (.wb i) = num (.ex i) := by rw [numNext, hs, Sum.elim_inl]
    have hlive := hp.live _ hocc
    have hlt := lt_nextNum_of_live (s := s) hlive
    obtain ⟨h₁, h₂, h₃, h₄, h₅, h₆⟩ := hp.holds _ hocc
    obtain ⟨-, -, o⟩ := out_next_of_srcAvail (x := x) ho hc hp hv h₄
    have hout : s.exOut i = (t.ins (num (.ex i))).out s.prf.val := by
      have : (s.ex i).buf.pending = true := hocc
      rw [exOut, this, h₃, h₅, h₆, RInsn.exPipe_opp, RInsn.out]
    have hce : ((s.ex i).buf.pending && (s.wb i).exReady (s.wbReady D x i)) = true := hld
    have hent : ((t.next D s x).log.ent (num (.ex i))).wb = none := by
      rw [ent_next hf (not_popped ho hc hp hf hk hs hocc) hlive.2,
        wbLane_eq_none ho hp hocc (by simp), h₂]
      rfl
    rw [hnum]
    obtain ⟨b, hwb⟩ : ∃ b, (s.next D x).wb i =
        let o := (t.ins (num (.ex i))).out s.prf.val
        ⟨b, robId 1 D (num (.ex i)), robBank 1 (num (.ex i)), (t.ins (num (.ex i))).prd, o.prfWe,
          o.rfDout, o.fls, o.exc, o.opera, o.operb, o.seTgt⟩ := by
      refine ⟨((s.next D x).wb i).buf, ?_⟩
      simp only [next, WbStage.next, hce, hf, Bool.or_false, Bool.not_false,
        Bool.and_true, ldff_true, hout, h₃]
      rfl
    simp only [Holds, Trace.next_ins_of_lt hlt, o, RInsn.wbRec, hwb]
    refine ⟨h₁, fun h => absurd hent h, ho.srcAvail_next hf hlive.1 hlt h₄, trivial, trivial,
      trivial, ?_,
      trivial, trivial⟩
    simp only [RInsn.out, Opp.exPipe, DecInsn.opp, DecInsn.isMem, Bool.true_and]
    rw [Bool.or_comm]
  · -- the stage is held up
    have hs : s.src D x (.wb i) = .inl (.wb i) := by rw [src, if_neg (by simp [hld])]
    have hnum : s.numNext D t x num (.wb i) = num (.wb i) := by rw [numNext, hs, Sum.elim_inl]
    have hlive := hp.live _ hocc
    have hlt := lt_nextNum_of_live (s := s) hlive
    obtain ⟨h₁, h₂, h₃, h₄, h₅, h₆, h₇, h₈, h₉⟩ := hp.holds _ hocc
    obtain ⟨-, -, o⟩ := out_next_of_srcAvail (x := x) ho hc hp hv h₃
    have hce : ((s.ex i).buf.pending && (s.wb i).exReady (s.wbReady D x i)) = false := hld
    obtain ⟨b, hwb⟩ : ∃ b, (s.next D x).wb i = { s.wb i with buf := b } := by
      refine ⟨((s.next D x).wb i).buf, ?_⟩
      simp only [next, WbStage.next, hce, hf, Bool.or_false, ldff_false]
    rw [hnum]
    simp only [Holds, Trace.next_ins_of_lt hlt, o, RInsn.wbRec, hwb]
    refine ⟨h₁, fun h => ?_, ho.srcAvail_next hf hlive.1 hlt h₃, h₄, h₅, h₆, h₇, h₈, h₉⟩
    -- only the register file holds up a lane that the reorder buffer has heard of
    have hfin : i = 0 ∧ s.cmt.prfWeLsuEpu (s.cmtIn D x) = true := by
      rw [ent_next hf (not_popped ho hc hp hf hk hs hocc) hlive.2] at h
      cases hl : (s.robIn D x).wbLane 1 D (num (.wb i)) with
      | some j =>
          obtain ⟨-, hoccj, hej, hrj⟩ := wbLane_eq ho hp hlive hl
          obtain rfl : j = i := by
            have := hp.inj _ _ hoccj hocc hej
            simpa using this
          exact lsuEpu_of_wait hwait hrj
      | none =>
          rw [hl] at h
          obtain ⟨rfl, -⟩ := h₂ h
          rw [wbReady_zero] at hwait
          exact ⟨rfl, by simpa using hwait⟩
    refine ⟨hfin.1, ?_⟩
    have hpend := (lsuEpu_write ho hc hv hfin.2).1
    have hpf : s.cmt.pipeFinish (s.cmtIn D x) = true := by
      have := hfin.2
      simp only [Cmt.prfWeLsuEpu, Bool.and_eq_true] at this
      exact this.1.1
    change (s.cmt.next (s.cmtIn D x)).pending = false
    simp [Cmt.next, hpend, hpf]

/-- The instruction that a reservation station has selected. -/
theorem rdy_next (ho : s.Order D t) (hp : s.Place D t num) (hf : s.flush D x = false) {i : ℕ}
    (hr : ((s.next D x).rs i).hasRdyFf = true) :
    (s.next D x).Occ (.rs i ((s.next D x).rs i).rdyAddrFf) ∧
      ((s.next D x).rs i).oppRdat = ((s.next D x).rs i).payload ((s.next D x).rs i).rdyAddrFf ∧
      ((s.next D x).rs i).roPrs1 = ((s.next D x).rs i).prs1Rf ((s.next D x).rs i).rdyAddrFf ∧
      ((s.next D x).rs i).roPrs2 = ((s.next D x).rs i).prs2Rf ((s.next D x).rs i).rdyAddrFf ∧
      ((s.next D x).rs i).roPrs1Re = ((s.next D x).rs i).prs1ReRf ((s.next D x).rs i).rdyAddrFf ∧
      ((s.next D x).rs i).roPrs2Re = ((s.next D x).rs i).prs2ReRf ((s.next D x).rs i).rdyAddrFf ∧
      (s.next D x).rn.SrcAvail
        ((t.next D s x).ins (s.numNext D t x num (.rs i ((s.next D x).rs i).rdyAddrFf))) := by
  have hr' : ((s.rs i).hasRdy (s.rsIn D x i) && !s.flush D x) = true := hr
  rw [hf, Bool.not_false, Bool.and_true] at hr'
  have hmem := Rs.rdyAddr_mem hr'
  have haddr : ((s.next D x).rs i).rdyAddrFf = (s.rs i).rdyAddr (s.rsIn D x i) := by
    change ldff _ _ _ = _
    rw [hr', ldff_true]
  set a := (s.rs i).rdyAddr (s.rsIn D x i) with ha
  simp only [Rs.rdyVec, Rs.freeVecByp, Bool.and_eq_true, Bool.not_eq_true', Bool.or_eq_false_iff,
    Bool.or_eq_true] at hmem
  obtain ⟨⟨⟨hfree, hbyp⟩, hb₁⟩, hb₂⟩ := hmem
  have hocc : s.Occ (.rs i a) := hfree
  have hnp : ¬ (s.rsPush D x i = true ∧ a = (s.rs i).freeAddr) := by
    rintro ⟨hpush, hae⟩
    have hlt := (hp.holds _ hocc).1
    have := Rs.freeAddr_mem ((ready_of_issuePCe (rsPush_lt ho hpush).2.2).2 i hlt)
    rw [← hae, hfree] at this
    cases this
  have hs : s.src D x (.rs i a) = .inl (.rs i a) := if_neg hnp
  have hnum : s.numNext D t x num (.rs i a) = num (.rs i a) := by rw [numNext, hs, Sum.elim_inl]
  have hlive := hp.live _ hocc
  have hlt := lt_nextNum_of_live (s := s) hlive
  obtain ⟨-, -, -, h₄, h₅, h₆, h₇⟩ := hp.holds _ hocc
  have hsrc : s.rn.SrcAvail (t.ins (num (.rs i a))) := by
    refine ⟨fun h => ?_, fun h => ?_⟩
    · rw [← h₄]
      refine Or.inr (hb₁.resolve_left ?_)
      rw [h₆, h]
      exact Bool.noConfusion
    · rw [← h₅]
      refine Or.inr (hb₂.resolve_left ?_)
      rw [h₇, h]
      exact Bool.noConfusion
  rw [haddr, hnum, Trace.next_ins_of_lt hlt]
  refine ⟨?_, ?_, ?_, ?_, ?_, ?_, ho.srcAvail_next hf hlive.1 hlt hsrc⟩
  · change (s.flush D x || (s.roRsPop D x i && a == (s.rs i).rdyAddrFf) ||
      ((s.rs i).freeVec a && !(s.rsPush D x i && a == (s.rs i).freeAddr))) = false
    have : (s.roRsPop D x i && a == (s.rs i).rdyAddrFf) = false := hbyp
    rw [hf, this, hfree]
    rfl
  · change ldff _ _ _ = (s.rs i).write (s.rsIn D x i) _ _ _
    rw [rs_write_of_ne _ _ hnp, hr', ldff_true]
  · change ldff _ _ _ = (s.rs i).write (s.rsIn D x i) _ _ _
    rw [rs_write_of_ne _ _ hnp, hr', ldff_true]
  · change ldff _ _ _ = (s.rs i).write (s.rsIn D x i) _ _ _
    rw [rs_write_of_ne _ _ hnp, hr', ldff_true]
  · change ldff _ _ _ = (s.rs i).write (s.rsIn D x i) _ _ _
    rw [rs_write_of_ne _ _ hnp, hr', ldff_true]
  · change ldff _ _ _ = (s.rs i).write (s.rsIn D x i) _ _ _
    rw [rs_write_of_ne _ _ hnp, hr', ldff_true]

theorem Place.next (ho : s.Order D t) (hc : s.cmt.Inv (s.rob.cmtValid 1 D 0) (s.head D 0))
    (hp : s.Place D t num) (hv : s.Values t num) (hf : s.flush D x = false) :
    (s.next D x).Place D (t.next D s x) (s.numNext D t x num) where
  inj _ _ hk hk' he := numNext_inj hp hf hk hk' he
  live _ hk := live_numNext ho hc hp hf hk
  holds k hk := by
    cases k with
    | rs i a => exact holds_next_rs ho hc hp hf hk
    | ex i => exact holds_next_ex ho hc hp hv hf hk
    | wb i => exact holds_next_wb ho hc hp hv hf hk
  rdy _ hr := rdy_next ho hp hf hr

/-! ### The values after a cycle -/

/-- The place behind pipe 0 that the reorder buffer has already heard of is free to write. -/
theorem port_zero_of_ent (hc : s.cmt.Inv (s.rob.cmtValid 1 D 0) (s.head D 0)) (hp : s.Place D t num)
    (hocc : s.Occ (.wb 0)) (hent : (t.log.ent (num (.wb 0))).wb ≠ none)
    (hwe : (t.ins (num (.wb 0))).d.lrdWe = true) (hmem : (t.ins (num (.wb 0))).d.isMem = false) :
    ∃ j < 2, (s.mux D x).prfWe s.wb j = true ∧
      (s.mux D x).prfWaddr s.wb j = (t.ins (num (.wb 0))).prd := by
  have hpend := ((hp.holds _ hocc).2.1 hent).2
  refine ⟨0, by omega, port_of_occ hp hocc hwe hmem fun _ => ?_⟩
  by_contra hne
  have hw := Bool.eq_true_of_not_eq_false hne
  simp only [Cmt.prfWeLsuEpu, Bool.and_eq_true] at hw
  rw [hc.pending_of_pipeFinish hw.1.1] at hpend
  cases hpend

/-- The register of an instruction that goes is available after the cycle. -/
theorem avail_of_popped (ho : s.Order D t) (hc : s.cmt.Inv (s.rob.cmtValid 1 D 0) (s.head D 0))
    (hp : s.Place D t num) (hv : s.Values t num) (hf : s.flush D x = false) {i : ℕ}
    (hi : i < s.popSize D x) (hwe : (t.ins (t.log.head + i)).d.lrdWe = true) :
    ((t.ins (t.log.head + i)).d.isMem = false → s.rn.SrcAvail (t.ins (t.log.head + i))) ∧
    (s.rn.Avail (t.ins (t.log.head + i)).prd ∨
      ∃ j < 2, (s.mux D x).prfWe s.wb j = true ∧
        (s.mux D x).prfWaddr s.wb j = (t.ins (t.log.head + i)).prd) := by
  have hle := popSize_le (s := s) (D := D) (x := x)
  obtain ⟨hval, hlive⟩ := ho.live_of_lt hi
  obtain ⟨-, hent⟩ := ho.ent_eq (by omega) hval
  obtain ⟨hsrc, -, hav⟩ := hv.wb _ _ hlive hent
  refine ⟨fun _ => hsrc, ?_⟩
  cases hmem : (t.ins (t.log.head + i)).d.isMem with
  | true =>
      -- the result comes from the load/store unit or the exception unit in this very cycle
      have hpay := ho.head_pay (i := i) (by omega) hlive.2
      have hneed : (s.head D i).needsPipe = true := by
        simp only [DecInsn.isMem, Bool.or_eq_true] at hmem
        simp only [CmtHead.needsPipe, hpay, Bool.or_eq_true]
        exact hmem.imp id Or.inl
      obtain ⟨rfl, hfin⟩ := Cmt.finish_of_fire (x := s.cmtIn D x) (by omega) (fire_of_lt hi) hneed
      refine Or.inr ⟨0, by omega, ?_⟩
      have hw : s.cmt.prfWeLsuEpu (s.cmtIn D x) = true := by
        have hfl : s.cmt.flush (s.cmtIn D x) = false := hf
        have hpw : ((s.cmtIn D x).head 0).pay.prdWe = true := by
          change (s.head D 0).pay.prdWe = true
          rw [hpay]
          exact hwe
        simp [Cmt.prfWeLsuEpu, hfin, hfl, hpw]
      have hm : (s.mux D x).weLsuEpu = true := hw
      rw [WbMux.prfWe, WbMux.prfWaddr, if_pos rfl, if_pos rfl, hm, if_pos rfl, if_pos rfl]
      refine ⟨rfl, ?_⟩
      change (s.head D 0).pay.prd = _
      rw [hpay]
      rfl
  | false =>
      rcases hav hwe hmem with h | ⟨hocc, hnum⟩
      · exact Or.inl h
      · right
        rw [← hnum] at hwe hmem hent ⊢
        exact port_zero_of_ent hc hp hocc (by rw [hent]; exact Option.some_ne_none _) hwe hmem

/-- The architectural map. -/
theorem Values.arat_next (ho : s.Order D t) (hc : s.cmt.Inv (s.rob.cmtValid 1 D 0) (s.head D 0))
    (hp : s.Place D t num) (hv : s.Values t num) (hf : s.flush D x = false) (l : LReg) :
    (s.next D x).rn.Avail ((s.next D x).rn.arat l) := by
  have hT : t.log.tail ≤ s.nextNum t := Nat.le_add_right _ _
  have hcle := ho.head_popSize_le (x := x)
  rw [ho.next_arat, mapFrom_congr (f := fun m => (t.ins m).ren)]
  · refine avail_next hf (Or.inr (ho.fl_mapFrom (by omega) l)) ?_
    rcases mapFrom_cases (fun m => (t.ins m).ren) s.rn.arat t.log.head
      (s.popSize D x) l with h | ⟨m, h₁, h₂, hwe, he⟩
    · rw [h]
      exact Or.inl (hv.arat l)
    · rw [he]
      obtain ⟨i, rfl⟩ := Nat.exists_eq_add_of_le h₁
      exact (avail_of_popped ho hc hp hv hf (by omega) hwe).2
  · intro j hj
    rw [Trace.next_ins_of_lt (by omega)]

/-- A port writes to the register of an instruction that stays when its execution pipe has computed
it. -/
theorem srcAvail_of_port (ho : s.Order D t) (hc : s.cmt.Inv (s.rob.cmtValid 1 D 0) (s.head D 0))
    (hp : s.Place D t num) (hv : s.Values t num) {m : ℕ} (hm : t.log.head + s.popSize D x ≤ m)
    (h : m < s.nextNum t) (hwe : (t.ins m).d.lrdWe = true) {j : ℕ} (hj : j < 2)
    (hw : (s.mux D x).prfWe s.wb j = true) (he : (s.mux D x).prfWaddr s.wb j = (t.ins m).prd) :
    (t.ins m).d.isMem = false ∧ s.rn.SrcAvail (t.ins m) := by
  rcases port_cases ho hc hp hv hj hw with ⟨hocc, hwe', hmem, ha', -⟩ | ⟨-, hl, ha', -⟩
  · have hlive := hp.live _ hocc
    have : num (.wb j) = m := ho.eq_of_prd_eq hlive.1 (lt_nextNum_of_live hlive) (by omega) h
      hwe' hwe (ha'.symm.trans he)
    rw [← this]
    exact ⟨hmem, (hp.holds _ hocc).2.2.1⟩
  · -- the oldest instruction goes with its result
    obtain ⟨-, -, hpop, hlive, hwe', -, -⟩ := lsuEpu_write ho hc hv hl
    have : t.log.head = m := ho.eq_of_prd_eq hlive.1 (lt_nextNum_of_live hlive) (by omega) h
      hwe' hwe (ha'.symm.trans he)
    omega

/-- The registers of the instructions inside. -/
theorem Values.prd_next (ho : s.Order D t) (hc : s.cmt.Inv (s.rob.cmtValid 1 D 0) (s.head D 0))
    (hp : s.Place D t num) (hv : s.Values t num) (hx : x.Delivers)
    (hf : s.flush D x = false) {m : ℕ}
    (hm : (t.next D s x).log.head ≤ m) (hm' : m < (s.next D x).nextNum (t.next D s x))
    (hwe : ((t.next D s x).ins m).d.lrdWe = true)
    (ha : (s.next D x).rn.Avail ((t.next D s x).ins m).prd) :
    ((t.next D s x).ins m).d.isMem = false ∧ (s.next D x).rn.SrcAvail ((t.next D s x).ins m) ∧
      (s.next D x).prf.val ((t.next D s x).ins m).prd =
        (((t.next D s x).ins m).out (s.next D x).prf.val).rfDout := by
  have hne : ((t.next D s x).ins m).prd ≠ 0 := ((ho.next hp hx hf).chain.alloc m hm hm' hwe).1
  rw [Trace.next_head hf] at hm
  have hav := avail_of_next hf hne ha
  rcases lt_nextNum_cases hf hm' with h | ⟨k, hk, rfl⟩
  · rw [Trace.next_ins_of_lt h] at hwe ha hav ⊢
    rcases hav.1 with h' | ⟨j, hj, hw, he⟩
    · obtain ⟨hmem, hsrc, hval⟩ := hv.prd m (by omega) h hwe h'
      refine ⟨hmem, ho.srcAvail_next hf (by omega) h hsrc, ?_⟩
      rw [val_next_of_avail ho hc hp hv h', (out_next_of_srcAvail ho hc hp hv hsrc).2.2, hval]
    · obtain ⟨hmem, hsrc⟩ := srcAvail_of_port ho hc hp hv hm h hwe hj hw he
      refine ⟨hmem, ho.srcAvail_next hf (by omega) h hsrc, ?_⟩
      rw [val_next_of_port ho hc hp hv (by omega) h hwe ⟨j, hj, hw, he⟩, hmem,
        if_neg Bool.false_ne_true, (out_next_of_srcAvail ho hc hp hv hsrc).2.2]
  · rw [Trace.next_ins_new hf hk] at hwe hav
    have := accepted_le (s := s) (D := D) hx
    exact absurd rfl (hav.2 k (by omega) hwe)

/-- The register that a write-back lane reports is available after the cycle, or lane 0 has to wait
for the register file. -/
theorem avail_of_wbLane (ho : s.Order D t) (hp : s.Place D t num) (hf : s.flush D x = false) {j : ℕ}
    (hj : j < 2) (hocc : s.Occ (.wb j)) (hwe : (t.ins (num (.wb j))).d.lrdWe = true)
    (hmem : (t.ins (num (.wb j))).d.isMem = false) :
    (s.next D x).rn.Avail (t.ins (num (.wb j))).prd ∨
      ((s.next D x).Occ (.wb 0) ∧ s.numNext D t x num (.wb 0) = num (.wb j)) := by
  have hlive := hp.live _ hocc
  by_cases hlsu : j = 0 ∧ s.cmt.prfWeLsuEpu (s.cmtIn D x) = true
  · obtain ⟨rfl, hlsu⟩ := hlsu
    have hwait : s.wbReady D x 0 = false := by rw [wbReady_zero, hlsu]; rfl
    have hpend : (s.wb 0).buf.pending = true := hocc
    have hld : s.wbLoad D x 0 = false := by
      simp [wbLoad, exReady, WbStage.exReady, HdsBuf.aready, hpend, hwait]
    refine Or.inr ⟨?_, ?_⟩
    · change ((s.wb 0).buf.next (s.flush D x) true (s.ex 0).buf.pending true
        (s.wbReady D x 0)).pending = true
      rw [hf, hwait]
      exact HdsBuf.pending_of_not_ready hpend
    · simp [numNext, src, hld]
  · left
    refine avail_next hf (Or.inr (ho.fl_prd hlive.1 (lt_nextNum_of_live hlive) hwe))
      (Or.inr ⟨j, hj, ?_⟩)
    refine port_of_occ hp hocc hwe hmem fun h0 => ?_
    by_contra hne
    exact hlsu ⟨h0, Bool.eq_true_of_not_eq_false hne⟩

/-- The write-backs that the reorder buffer has heard of. -/
theorem Values.wb_next (ho : s.Order D t) (hc : s.cmt.Inv (s.rob.cmtValid 1 D 0) (s.head D 0))
    (hp : s.Place D t num) (hv : s.Values t num) (hf : s.flush D x = false) {m : ℕ} {r : WbRec}
    (hm : (t.next D s x).log.Live m) (hr : ((t.next D s x).log.ent m).wb = some r) :
    (s.next D x).rn.SrcAvail ((t.next D s x).ins m) ∧ r = ((t.next D s x).ins m).wbRec
      (s.next D x).prf.val ∧
      (((t.next D s x).ins m).d.lrdWe = true → ((t.next D s x).ins m).d.isMem = false →
        (s.next D x).rn.Avail ((t.next D s x).ins m).prd ∨
          ((s.next D x).Occ (.wb 0) ∧ s.numNext D t x num (.wb 0) = m)) := by
  rcases RobLog.live_next (x := s.robIn D x) hf hm with ⟨h₁, h₂⟩ | ⟨h₁, h₂⟩
  · have hlive : t.log.Live m := ⟨le_trans (Nat.le_add_right _ _) h₁, h₂⟩
    have hlt := lt_nextNum_of_live (s := s) hlive
    rw [ent_next hf h₁ h₂] at hr
    rw [Trace.next_ins_of_lt hlt]
    cases hl : (s.robIn D x).wbLane 1 D m with
    | some j =>
        -- it hears of it in this cycle
        rw [hl] at hr
        obtain rfl : (s.robIn D x).wbRec j = r := by simpa using hr
        obtain ⟨hj, hocc, rfl, hrdy⟩ := wbLane_eq ho hp hlive hl
        have hsrc := (hp.holds _ hocc).2.2.1
        refine ⟨ho.srcAvail_next hf hlive.1 hlt hsrc, ?_, avail_of_wbLane ho hp hf hj hocc⟩
        rw [wbRec_eq hp hocc, RInsn.wbRec, RInsn.wbRec, (out_next_of_srcAvail ho hc hp hv hsrc).2.2]
    | none =>
        rw [hl] at hr
        obtain ⟨hsrc, hrec, hav⟩ := hv.wb m r hlive hr
        refine ⟨ho.srcAvail_next hf hlive.1 hlt hsrc, ?_, fun hwe hmem => Or.inl ?_⟩
        · rw [hrec, RInsn.wbRec, RInsn.wbRec, (out_next_of_srcAvail ho hc hp hv hsrc).2.2]
        · refine avail_next hf (Or.inr (ho.fl_prd hlive.1 hlt hwe)) ?_
          rcases hav hwe hmem with h | ⟨hocc, rfl⟩
          · exact Or.inl h
          · refine Or.inr (port_zero_of_ent hc hp hocc ?_ hwe hmem)
            rw [show (t.log.ent (num (.wb 0))).wb = some r from hr]
            exact Option.some_ne_none _
  · have hnone : ((t.next D s x).log.ent m).wb = none :=
      congrArg RobEnt.wb (RobLog.next_ent_push (x := s.robIn D x) hf h₁ h₂)
    rw [hnone] at hr
    cases hr

theorem Values.next (ho : s.Order D t) (hc : s.cmt.Inv (s.rob.cmtValid 1 D 0) (s.head D 0))
    (hp : s.Place D t num) (hv : s.Values t num) (hx : x.Delivers) (hf : s.flush D x = false) :
    (s.next D x).Values (t.next D s x) (s.numNext D t x num) where
  arat := Values.arat_next ho hc hp hv hf
  prd _ := Values.prd_next ho hc hp hv hx hf
  wb _ _ := Values.wb_next ho hc hp hv hf

/-! ### The invariant -/

/-- What commit sees of the oldest instruction. -/
theorem Order.head_wellFormed (ho : s.Order D t) (hv : s.Values t num)
    (hval : s.rob.cmtValid 1 D 0 = true) : (s.head D 0).WellFormed := by
  obtain ⟨hlive, hent⟩ := ho.ent_eq (i := 0) (by omega) hval
  rw [Nat.add_zero] at hlive hent
  have hpay := ho.head_pay (i := 0) (by omega) hlive.2
  rw [Nat.add_zero] at hpay
  have hwf := ho.wf t.log.head hlive.1 (lt_nextNum_of_live hlive)
  have hrec := (hv.wb _ _ hlive hent).2.1
  have hexc : (s.head D 0).exc = (t.ins t.log.head).d.fe.any := congrArg WbRec.exc hrec
  have hop : (s.head D 0).vbank.opera = ((t.ins t.log.head).out s.prf.val).opera :=
    congrArg (fun r => r.vbank.opera) hrec
  refine ⟨?_, ?_, ?_, ?_, ?_⟩
  · rw [hpay]
    exact hwf.lsu_any
  · rw [hpay]
    exact hwf.lsu_epu
  · rw [hexc, hpay]
    exact hwf.fe_lsu
  · rw [hexc, hpay]
    exact hwf.fe_epu
  · intro h
    rw [hexc] at h
    have : ((t.ins t.log.head).out s.prf.val).opera = (t.ins t.log.head).d.fe.toWord := by
      simp only [RInsn.out, Opp.exPipe, DecInsn.opp, Bool.true_and, h, if_true]
    rw [hop, this, Fe.ofWord_toWord]
    exact h

/-- As long as nothing goes and nothing is flushed the reorder buffer shows the same instruction. -/
theorem Order.head_stays (ho : s.Order D t) (hp : s.Place D t num) (hv : s.Values t num)
    (hx : x.Delivers)
    (hval : s.rob.cmtValid 1 D 0 = true) (hpop : s.popSize D x = 0) (hf : s.flush D x = false) :
    (s.next D x).rob.cmtValid 1 D 0 = true ∧ (s.next D x).head D 0 = s.head D 0 := by
  obtain ⟨hlive, hent⟩ := ho.ent_eq (i := 0) (by omega) hval
  rw [Nat.add_zero] at hlive hent
  have ho' := ho.next hp hx hf
  have hh : (t.next D s x).log.head = t.log.head := by rw [Trace.next_head hf, hpop, Nat.add_zero]
  have htl : t.log.tail ≤ (t.next D s x).log.tail := by rw [Trace.next_tail hf]; omega
  -- a second write-back of the same instruction reports the same
  have hwb' : ((t.next D s x).log.ent t.log.head).wb = (t.log.ent t.log.head).wb := by
    rw [ent_next hf (by omega) hlive.2]
    cases hl : (s.robIn D x).wbLane 1 D t.log.head with
    | none => rfl
    | some j =>
        obtain ⟨-, hocc, he, -⟩ := wbLane_eq ho hp hlive hl
        rw [Option.map_some, Option.some_or, wbRec_eq hp hocc, he, hent,
          ← (hv.wb _ _ hlive hent).2.1]
  have hpay' : ((t.next D s x).log.ent t.log.head).payload = (t.log.ent t.log.head).payload :=
    RobLog.next_payload (x := s.robIn D x) hf hlive.2
  have hval' : (s.next D x).rob.cmtValid 1 D 0 = true := by
    rw [ho'.rob.cmtValid_iff (by omega)]
    intro j hj
    obtain rfl : j = 0 := by omega
    rw [Nat.add_zero, hh, hwb', hent]
    exact ⟨lt_of_lt_of_le hlive.2 htl, rfl⟩
  refine ⟨hval', ?_⟩
  have e₁ := ho'.rob.cmt_eq (i := 0) (by omega) hval'
  have e₂ := ho.rob.cmt_eq (i := 0) (by omega) hval
  rw [Nat.add_zero] at e₁ e₂
  rw [hh] at e₁
  rw [e₁, e₂] at hwb' hpay'
  simp only [Option.some.injEq, WbRec.mk.injEq] at hwb' hpay'
  rw [head, head, hpay', hwb'.1, hwb'.2.1, hwb'.2.2]

/-- As long as the units work on the oldest instruction the reorder buffer shows the same one. -/
theorem Order.head_next (ho : s.Order D t) (hp : s.Place D t num) (hv : s.Values t num)
    (hc : s.cmt.Inv (s.rob.cmtValid 1 D 0) (s.head D 0)) (hx : x.Delivers)
    (hpend : (s.next D x).cmt.pending = true) :
    (s.next D x).rob.cmtValid 1 D 0 = true ∧ (s.next D x).head D 0 = s.head D 0 := by
  have hval : s.rob.cmtValid 1 D 0 = true := by
    by_cases h : s.cmt.pending = true
    · exact hc.valid h
    · have : (s.cmt.pipeReq (s.cmtIn D x) && s.cmt.pCeS1 (s.cmtIn D x)) = true := by
        have h' : (s.cmt.next (s.cmtIn D x)).pending = true := hpend
        simpa [Cmt.next, h] using h'
      rw [Bool.and_eq_true] at this
      exact Cmt.valid_of_pipeReq this.1
  obtain ⟨hfire, hf⟩ := Cmt.Inv.hold (x := s.cmtIn D x) hc hpend
  refine ho.head_stays hp hv hx hval ?_ hf
  have h0 : s.fire D x 0 = false := hfire
  rw [fire_eq (by omega)] at h0
  simpa using h0

/-- After a flush no place is taken. -/
theorem not_occ_next_flush (hf : s.flush D x = true) (k : Loc n) : ¬ (s.next D x).Occ k := by
  intro hk
  cases k with
  | rs i a =>
      have h : (s.flush D x || (s.roRsPop D x i && a == (s.rs i).rdyAddrFf) ||
        ((s.rs i).freeVec a && !(s.rsPush D x i && a == (s.rs i).freeAddr))) = false := hk
      rw [hf] at h
      cases h
  | ex i =>
      have h : ((s.ex i).buf.next (s.flush D x) true (s.rs i).hasRdyFf true
        (s.exReady D x i)).pending = true := hk
      simp [HdsBuf.next, hf, ldff] at h
  | wb i =>
      have h : ((s.wb i).buf.next (s.flush D x) true (s.ex i).buf.pending true
        (s.wbReady D x i)).pending = true := hk
      simp [HdsBuf.next, hf, ldff] at h

/-- A flush empties the pipeline. -/
theorem place_next_flush (hf : s.flush D x = true) :
    (s.next D x).Place D (t.next D s x) num ∧ (s.next D x).Values (t.next D s x) num := by
  obtain ⟨hh, ht⟩ := Trace.next_log_flush (t := t) hf
  refine ⟨⟨?_, ?_, ?_, ?_⟩, ⟨?_, ?_, ?_⟩⟩
  · intro k k' hk
    exact absurd hk (not_occ_next_flush hf k)
  · intro k hk
    exact absurd hk (not_occ_next_flush hf k)
  · intro k hk
    exact absurd hk (not_occ_next_flush hf k)
  · intro i hi
    have h : ((s.rs i).hasRdy (s.rsIn D x i) && !s.flush D x) = true := hi
    simp [hf] at h
  · intro l
    exact Or.inr ((rn_next_flush hf).2.2.2.2 _)
  · intro m _ hm
    rw [nextNum_next_flush hf] at hm
    omega
  · rintro m r ⟨-, hm⟩
    omega

/-- **The invariant is kept.** -/
theorem Inv.next (h : s.Inv D t) (hx : x.Delivers) : (s.next D x).Inv D (t.next D s x) := by
  obtain ⟨ho, hc, num, hp, hv⟩ := h
  have hcmt : (s.next D x).cmt.Inv ((s.next D x).rob.cmtValid 1 D 0) ((s.next D x).head D 0) :=
    Cmt.Inv.next (x := s.cmtIn D x) hc (fun hval => ho.head_wellFormed hv hval)
      (ho.head_next hp hv hc hx)
  cases hf : s.flush D x with
  | true => exact ⟨ho.next_flush hf, hcmt, num, place_next_flush hf⟩
  | false =>
      exact ⟨ho.next hp hx hf, hcmt, _, Place.next ho hc hp hv hf, Values.next ho hc hp hv hx hf⟩

end Backend

end NanoCpu
