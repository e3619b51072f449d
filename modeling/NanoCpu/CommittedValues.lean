/-
**The results are in the register file when their instructions go**
(`rtl/core/wb_mux.v`, `ex_pipe.v`, `rob.v`, `cmt.v`).

The reorder buffer takes note of a write-back when it is ready for the lane; the register file takes
the result when lane 0 is not needed for a load or an MSR read; the stage behind the execution pipe
leaves when both have happened.  So a result may be written more than once, and noted before it is
written.  Beside the back-end runs a ledger of what the execution pipes have made and of what the
write ports have written, by register.  An entry is emptied when rename gives the register to
another instruction; what has been made for squashed instructions is forgotten with the flush.

Main definitions:

* `Results`, `Results.next` — the ledger;
* `Backend.committing` — the back-end with its trace and the ledger;
* `Backend.ResultsRep` — what the ledger says of the registers.

Main results:

* `Backend.made_kept` — no result is dropped;
* `Backend.ResultsRep.next` — a cycle keeps the ledger in step with the registers;
* `Backend.val_of_popped` — the register of an instruction that goes holds its result;
* `Backend.committed_present` — committed values are present.
-/

import NanoCpu.BusyTable

set_option relaxedAutoImplicit false
set_option autoImplicit false
set_option linter.unusedSectionVars false

namespace NanoCpu

open Renaming

/-! ### The ledger -/

/-- What the execution pipes have made for a register and what has been written to it, since it was
given to an instruction. -/
structure Results where
  made : PReg → List Word
  wrote : PReg → List Word

namespace Backend

variable {n : ℕ} [NeZero n]

/-- Rename gives the register to an instruction that it takes. -/
def gives (D : ℕ) (s : Backend n) (x : BackendIn) (p : PReg) : Bool :=
  (List.range (s.accepted D x)).any fun k => (x.rnInsn k).lrdWe && s.rn.flPrd k == p

/-- The results for the register that enter the stages behind the execution pipes. -/
def makes (D : ℕ) (s : Backend n) (x : BackendIn) (p : PReg) : List Word :=
  ((List.range 2).filter fun i => s.wbLoad D x i && (s.exOut i).prfWe && (s.ex i).opp.prd == p).map
    fun i => (s.exOut i).rfDout

/-- What the write ports write to the register. -/
def writes (D : ℕ) (s : Backend n) (x : BackendIn) (p : PReg) : List Word :=
  ((List.range 2).filter fun j => (s.mux D x).prfWe s.wb j && (s.mux D x).prfWaddr s.wb j == p).map
    fun j => (s.mux D x).prfWdata s.wb j

end Backend

namespace Results

variable {n : ℕ} [NeZero n]

def reset : Results := ⟨fun _ => [], fun _ => []⟩

/-- The ledger after a cycle of the back-end. -/
def next (D : ℕ) (L : Results) (s : Backend n) (x : BackendIn) : Results where
  made := fun p => if s.flush D x || s.gives D x p then [] else L.made p ++ s.makes D x p
  wrote := fun p =>
    if !s.flush D x && s.gives D x p then [] else L.wrote p ++ s.writes D x p

end Results

namespace Backend

variable {n : ℕ} [NeZero n] {D : ℕ} {s : Backend n} {t : Trace} {x : BackendIn} {z : RInsn}
  {num : Loc n → ℕ} {p : PReg} {L : Results}

/-- The back-end with its trace and the ledger of results. -/
def committing (n : ℕ) [NeZero n] (D : ℕ) (z : RInsn) :
    Machine ((Backend n × Trace) × Results) BackendIn :=
  (traced n D z).observe Results.reset (fun L q x => L.next D q.1 x) fun _ _ _ => True

theorem mem_makes {v : Word} : v ∈ s.makes D x p ↔
    ∃ i < 2, s.wbLoad D x i = true ∧ (s.exOut i).prfWe = true ∧ (s.ex i).opp.prd = p ∧
      (s.exOut i).rfDout = v := by
  simp only [makes, List.mem_map, List.mem_filter, List.mem_range, Bool.and_eq_true, beq_iff_eq]
  constructor
  · rintro ⟨i, ⟨hi, ⟨h₁, h₂⟩, h₃⟩, h₄⟩
    exact ⟨i, hi, h₁, h₂, h₃, h₄⟩
  · rintro ⟨i, hi, h₁, h₂, h₃, h₄⟩
    exact ⟨i, ⟨hi, ⟨h₁, h₂⟩, h₃⟩, h₄⟩

theorem mem_writes {v : Word} : v ∈ s.writes D x p ↔
    ∃ j < 2, (s.mux D x).prfWe s.wb j = true ∧ (s.mux D x).prfWaddr s.wb j = p ∧
      (s.mux D x).prfWdata s.wb j = v := by
  simp only [writes, List.mem_map, List.mem_filter, List.mem_range, Bool.and_eq_true, beq_iff_eq]
  constructor
  · rintro ⟨j, ⟨hj, h₁, h₂⟩, h₃⟩
    exact ⟨j, hj, h₁, h₂, h₃⟩
  · rintro ⟨j, hj, h₁, h₂, h₃⟩
    exact ⟨j, ⟨hj, h₁, h₂⟩, h₃⟩

theorem writes_ne_nil : s.writes D x p ≠ [] ↔
    ∃ j < 2, (s.mux D x).prfWe s.wb j = true ∧ (s.mux D x).prfWaddr s.wb j = p := by
  constructor
  · intro h
    obtain ⟨v, hv⟩ := List.exists_mem_of_ne_nil _ h
    obtain ⟨j, hj, h₁, h₂, -⟩ := mem_writes.1 hv
    exact ⟨j, hj, h₁, h₂⟩
  · rintro ⟨j, hj, h₁, h₂⟩
    exact List.ne_nil_of_mem (mem_writes.2 ⟨j, hj, h₁, h₂, rfl⟩)

theorem gives_eq_true : s.gives D x p = true ↔
    ∃ k < s.accepted D x, (x.rnInsn k).lrdWe = true ∧ s.rn.flPrd k = p := by
  simp only [gives, List.any_eq_true, List.mem_range, Bool.and_eq_true, beq_iff_eq]

/-- Rename gives away free registers only. -/
theorem gives_eq_false (h0 : p ≠ 0) (hfl : s.rn.fl p = false) : s.gives D x p = false := by
  by_contra hne
  obtain ⟨k, -, -, rfl⟩ := gives_eq_true.1 (Bool.eq_true_of_not_eq_false hne)
  rcases Rename.flPrd_mem_or_zero (s := s.rn) k with h | h
  · rw [hfl] at h
    cases h
  · exact h0 h

/-! ### No result is dropped -/

/-- The result waits behind an execution pipe. -/
def Waits (s : Backend n) (p : PReg) (v : Word) : Prop :=
  ∃ j < 2, (s.wb j).prfWeEx = true ∧ (s.wb j).waddr = p ∧ (s.wb j).wdata = v

/-- A stage behind an execution pipe keeps its result until it is written. -/
theorem waits_next (hf : s.flush D x = false) {v : Word} (h : s.Waits p v) :
    (s.next D x).Waits p v ∨ v ∈ s.writes D x p := by
  obtain ⟨j, hj, hw, ha, hd⟩ := h
  have hpend : (s.wb j).buf.pending = true := (Bool.and_eq_true_iff.1 hw).2
  cases hr : s.wbReady D x j with
  | false =>
      -- the lane is held: the stage takes nothing and stays
      left
      have hce : ((s.ex j).buf.pending && (s.wb j).exReady (s.wbReady D x j)) = false := by
        simp [WbStage.exReady, HdsBuf.aready, hpend, hr]
      have hp' : ((s.wb j).buf.next (s.flush D x) true (s.ex j).buf.pending true
          (s.wbReady D x j)).pending = true := by
        rw [hf, hr]
        exact HdsBuf.pending_of_not_ready hpend
      have hwe : (s.wb j).prfWe = true := (Bool.and_eq_true_iff.1 hw).1
      refine ⟨j, hj, ?_, ?_, ?_⟩
      · change (ldff (((s.ex j).buf.pending && (s.wb j).exReady (s.wbReady D x j)) || s.flush D x) _
          (s.wb j).prfWe && _) = true
        rw [hce, hf, Bool.or_false, ldff_false, hwe]
        exact hp'
      · change ldff ((s.ex j).buf.pending && (s.wb j).exReady (s.wbReady D x j)) _ (s.wb j).waddr =
          p
        rw [hce, ldff_false, ha]
      · change ldff ((s.ex j).buf.pending && (s.wb j).exReady (s.wbReady D x j)) _ (s.wb j).wdata =
          v
        rw [hce, ldff_false, hd]
  | true =>
      -- the lane has its write port in the cycle in which the stage leaves
      right
      rw [mem_writes]
      refine ⟨j, hj, ?_⟩
      obtain rfl | rfl : j = 0 ∨ j = 1 := by omega
      · have hl : (s.mux D x).weLsuEpu = false := by
          have : (!(s.mux D x).weLsuEpu && (s.robIn D x).wbReady 0) = true := hr
          rw [Bool.and_eq_true, Bool.not_eq_true'] at this
          exact this.1
        simp only [WbMux.prfWe, WbMux.prfWaddr, WbMux.prfWdata, if_pos, hl, Bool.false_eq_true,
          if_false]
        exact ⟨hw, ha, hd⟩
      · simp only [WbMux.prfWe, WbMux.prfWaddr, WbMux.prfWdata, one_ne_zero, if_false]
        exact ⟨hw, ha, hd⟩

/-- A result that enters a stage behind an execution pipe waits there. -/
theorem waits_of_makes (hf : s.flush D x = false) {v : Word} (h : v ∈ s.makes D x p) :
    (s.next D x).Waits p v := by
  obtain ⟨i, hi, hl, hw, ha, hd⟩ := mem_makes.1 h
  have hl' : ((s.ex i).buf.pending && (s.wb i).exReady (s.wbReady D x i)) = true := hl
  have hp' : ((s.wb i).buf.next (s.flush D x) true (s.ex i).buf.pending true
      (s.wbReady D x i)).pending = true := by
    obtain ⟨h₁, h₂⟩ := Bool.and_eq_true_iff.1 hl'
    have h₂' : (s.wb i).buf.aready true true (s.wbReady D x i) = true := h₂
    simp [HdsBuf.next, hf, h₁, h₂', ldff]
  refine ⟨i, hi, ?_, ?_, ?_⟩
  · change (ldff (((s.ex i).buf.pending && (s.wb i).exReady (s.wbReady D x i)) || s.flush D x)
      ((s.exOut i).prfWe && !s.flush D x) (s.wb i).prfWe && _) = true
    rw [hl', hf, Bool.true_or, ldff_true, hw]
    exact hp'
  · change ldff ((s.ex i).buf.pending && (s.wb i).exReady (s.wbReady D x i)) (s.ex i).opp.prd
      (s.wb i).waddr = p
    rw [hl', ldff_true, ha]
  · change ldff ((s.ex i).buf.pending && (s.wb i).exReady (s.wbReady D x i)) (s.exOut i).rfDout
      (s.wb i).wdata = v
    rw [hl', ldff_true, hd]

/-- **No result is dropped**: what has been made for a register has been written to it, or waits. -/
theorem made_kept (h : (committing n D z).Reach ((s, t), L)) {v : Word} (hv : v ∈ L.made p) :
    v ∈ L.wrote p ∨ s.Waits p v := by
  refine Machine.Reach.inv (P := fun q => ∀ v, v ∈ q.2.made p → v ∈ q.2.wrote p ∨ q.1.1.Waits p v)
    ?_ ?_ h v hv
  · intro v hv
    cases hv
  · rintro ⟨⟨s, t⟩, L⟩ x hi hx v hv
    change v ∈ (if s.flush D x || s.gives D x p then [] else L.made p ++ s.makes D x p) at hv
    change v ∈ (if !s.flush D x && s.gives D x p then [] else L.wrote p ++ s.writes D x p) ∨
      (s.next D x).Waits p v
    cases hf : s.flush D x with
    | true =>
        rw [hf, Bool.true_or, if_pos rfl] at hv
        cases hv
    | false =>
        cases hg : s.gives D x p with
        | true =>
            rw [hf, hg, Bool.false_or, if_pos rfl] at hv
            cases hv
        | false =>
            rw [hf, hg, Bool.false_or, if_neg Bool.false_ne_true, List.mem_append] at hv
            rw [Bool.and_false, if_neg Bool.false_ne_true, List.mem_append]
            rcases hv with hv | hv
            · rcases hi v hv with h | h
              · exact Or.inl (Or.inl h)
              · exact (waits_next hf h).symm.imp Or.inr id
            · exact Or.inr (waits_of_makes hf hv)

/-! ### The ledger and the registers -/

/-- An instruction between rename and commit has its register available exactly if something has
been written for it, and whatever was written is what the register holds. -/
structure ResultsRep (s : Backend n) (t : Trace) (L : Results) : Prop where
  avail : ∀ m, t.log.head ≤ m → m < s.nextNum t → (t.ins m).d.lrdWe = true →
    (s.rn.Avail (t.ins m).prd ↔ L.wrote (t.ins m).prd ≠ [])
  val : ∀ m, t.log.head ≤ m → m < s.nextNum t → (t.ins m).d.lrdWe = true →
    ∀ v ∈ L.wrote (t.ins m).prd, v = s.prf.val (t.ins m).prd

/-- A register that is not free is available after the cycle exactly if it was before, or is
written. -/
theorem avail_next_iff (hf : s.flush D x = false) (h0 : p ≠ 0) (hfl : s.rn.fl p = false) :
    (s.next D x).rn.Avail p ↔ s.rn.Avail p ∨ s.writes D x p ≠ [] := by
  rw [writes_ne_nil]
  constructor
  · intro h
    exact (avail_of_next hf h0 h).1
  · intro h
    exact avail_next hf (Or.inr hfl) h

/-- Every write of one cycle to the register of an instruction leaves the same value there. -/
theorem writes_eq (ho : s.Order D t) (hc : s.cmt.Inv (s.rob.cmtValid 1 D 0) (s.head D 0))
    (hp : s.Place D t num) (hv : s.Values t num) {m : ℕ} (h₁ : t.log.head ≤ m)
    (h₂ : m < s.nextNum t)
    (hwe : (t.ins m).d.lrdWe = true) {v : Word} (h : v ∈ s.writes D x (t.ins m).prd) :
    v = (s.next D x).prf.val (t.ins m).prd := by
  obtain ⟨j, hj, hw, ha, rfl⟩ := mem_writes.1 h
  rw [val_next_of_port ho hc hp hv h₁ h₂ hwe ⟨j, hj, hw, ha⟩]
  rcases port_cases ho hc hp hv hj hw with ⟨hocc, hwe', hmem, ha', hd⟩ | ⟨-, hl, ha', hd⟩
  · have hlive := hp.live _ hocc
    have : num (.wb j) = m := ho.eq_of_prd_eq hlive.1 (lt_nextNum_of_live hlive) h₁ h₂ hwe' hwe
      (ha'.symm.trans ha)
    rw [hd, ← this, hmem, if_neg Bool.false_ne_true]
  · obtain ⟨-, -, -, hlive, hwe', hmem, -⟩ := lsuEpu_write ho hc hv hl
    have : t.log.head = m := ho.eq_of_prd_eq hlive.1 (lt_nextNum_of_live hlive) h₁ h₂ hwe' hwe
      (ha'.symm.trans ha)
    rw [hd, ← this, hmem, if_pos rfl]

/-- What has been written for an instruction by the end of the cycle is what its register holds. -/
theorem ResultsRep.val_next (hb : s.ResultsRep t L) (hi : s.Inv D t) {m : ℕ} (h₁ : t.log.head ≤ m)
    (h₂ : m < s.nextNum t) (hwe : (t.ins m).d.lrdWe = true) {v : Word}
    (h : v ∈ L.wrote (t.ins m).prd ++ s.writes D x (t.ins m).prd) :
    v = (s.next D x).prf.val (t.ins m).prd := by
  obtain ⟨ho, hc, num, hp, hv⟩ := hi
  rcases List.mem_append.1 h with h | h
  · have hav := (hb.avail m h₁ h₂ hwe).2 (List.ne_nil_of_mem h)
    rw [val_next_of_avail ho hc hp hv hav]
    exact hb.val m h₁ h₂ hwe v h
  · exact writes_eq ho hc hp hv h₁ h₂ hwe h

/-- The ledger of a register that is not free goes on. -/
theorem wrote_next (h0 : p ≠ 0) (hfl : s.rn.fl p = false) :
    (L.next D s x).wrote p = L.wrote p ++ s.writes D x p := by
  change (if !s.flush D x && s.gives D x p then _ else _) = _
  rw [gives_eq_false h0 hfl, Bool.and_false, if_neg Bool.false_ne_true]

/-- A cycle keeps the ledger in step with the registers. -/
theorem ResultsRep.next (hb : s.ResultsRep t L) (hi : s.Inv D t) (hx : x.Delivers) :
    (s.next D x).ResultsRep (t.next D s x) (L.next D s x) := by
  cases hf : s.flush D x with
  | true =>
      -- nothing is left between rename and commit
      constructor <;> intro m _ hm <;> rw [nextNum_next_flush hf] at hm <;>
        exact absurd hm (Nat.not_lt_zero m)
  | false =>
      have hle := hi.order.head_popSize_le (x := x)
      have hT : t.log.tail ≤ s.nextNum t := Nat.le_add_right _ _
      -- the register of a new instruction has not been written
      have hnew : ∀ k < s.accepted D x, ((t.next D s x).ins (s.nextNum t + k)).d.lrdWe = true →
          (L.next D s x).wrote ((t.next D s x).ins (s.nextNum t + k)).prd = [] ∧
            ¬ (s.next D x).rn.Avail ((t.next D s x).ins (s.nextNum t + k)).prd := by
        intro k hk hwe
        have hne : ((t.next D s x).ins (s.nextNum t + k)).prd ≠ 0 := by
          obtain ⟨num, hp, -⟩ := hi.place
          refine ((hi.order.next hp hx hf).chain.alloc _ ?_ ?_ hwe).1
          · rw [Trace.next_head hf]
            omega
          · rw [nextNum_next hf]
            omega
        rw [Trace.next_ins_new hf hk] at hwe hne ⊢
        constructor
        · change (if !s.flush D x && s.gives D x (s.rn.flPrd k) then _ else _) = _
          rw [hf, gives_eq_true.2 ⟨k, hk, hwe, rfl⟩]
          rfl
        · intro hav
          have := accepted_le (s := s) (D := D) hx
          exact absurd rfl ((avail_of_next hf hne hav).2 k (by omega) hwe)
      constructor
      · intro m hm hm' hwe
        rw [Trace.next_head hf] at hm
        rcases lt_nextNum_cases hf hm' with h | ⟨k, hk, rfl⟩
        · rw [Trace.next_ins_of_lt h] at hwe ⊢
          have h0 : (t.ins m).prd ≠ 0 := (hi.order.chain.alloc m (by omega) h hwe).1
          have hfl := hi.order.fl_prd (by omega) h hwe
          rw [wrote_next h0 hfl, avail_next_iff hf h0 hfl, hb.avail m (by omega) h hwe]
          simp only [Ne, List.append_eq_nil_iff, not_and_or]
        · obtain ⟨h₁, h₂⟩ := hnew k hk hwe
          exact iff_of_false h₂ (not_not_intro h₁)
      · intro m hm hm' hwe v hv
        rw [Trace.next_head hf] at hm
        rcases lt_nextNum_cases hf hm' with h | ⟨k, hk, rfl⟩
        · rw [Trace.next_ins_of_lt h] at hwe hv ⊢
          have h0 : (t.ins m).prd ≠ 0 := (hi.order.chain.alloc m (by omega) h hwe).1
          rw [wrote_next h0 (hi.order.fl_prd (by omega) h hwe)] at hv
          exact hb.val_next hi (by omega) h hwe hv
        · rw [(hnew k hk hwe).1] at hv
          cases hv

theorem resultsRep_of_reach (h : (committing n D z).Reach ((s, t), L)) : s.ResultsRep t L := by
  have : s.Inv D t ∧ s.ResultsRep t L := by
    refine Machine.Reach.inv (P := fun q => q.1.1.Inv D q.1.2 ∧ q.1.1.ResultsRep q.1.2 q.2)
      ⟨inv_reset n D z, ?_⟩ ?_ h
    · constructor <;> intro m _ hm <;> exact absurd hm (Nat.not_lt_zero m)
    · rintro ⟨⟨s, t⟩, L⟩ x ⟨hi, hb⟩ hx
      exact ⟨Inv.next hi hx.1.1, hb.next hi hx.1.1⟩
  exact this.2

/-! ### Commit -/

/-- The register of an instruction that goes holds its result: what the instruction computes from
the architectural registers behind the older ones of the same cycle. -/
theorem val_of_popped (hi : s.Inv D t) {i : ℕ} (h : i < s.popSize D x)
    (hwe : (t.ins (t.log.head + i)).d.lrdWe = true) :
    (s.next D x).prf.val (t.ins (t.log.head + i)).prd =
      (t.ins (t.log.head + i)).d.result
        (seqFrom s.archRegs ((List.range i).map (s.retiredAt D t x)))
        (s.cmt.prfWdataLsuEpu (s.cmtIn D x)) := by
  have hf : s.flush D x = false := flush_of_popped h
  have key := congrFun (seqFrom_retired hi hf (i + 1) h) (t.ins (t.log.head + i)).d.lrd
  rw [List.range_succ, List.map_append, seqFrom_append, mapFrom, Renaming.map] at key
  have hren : (t.ins (t.log.head + i)).ren.we = true := hwe
  have hmap : (Function.update (mapFrom (fun m => (t.ins m).ren) s.rn.arat t.log.head i)
      (t.ins (t.log.head + i)).ren.lrd (t.ins (t.log.head + i)).ren.prd)
      (t.ins (t.log.head + i)).d.lrd = (t.ins (t.log.head + i)).prd := Function.update_self ..
  rw [if_pos hren, hmap] at key
  rw [← key]
  change (t.ins (t.log.head + i)).d.step _ _ (t.ins (t.log.head + i)).d.lrd = _
  rw [DecInsn.step, if_pos hwe, Function.update_self]
  rfl

/-- A write port writes for an instruction of the reorder buffer that has not gone. -/
theorem port_live (hi : s.Inv D t) {j : ℕ} (hj : j < 2) (hw : (s.mux D x).prfWe s.wb j = true) :
    ∃ m, t.log.Live m ∧ (t.ins m).d.lrdWe = true ∧ (s.mux D x).prfWaddr s.wb j = (t.ins m).prd ∧
      s.rn.fl (t.ins m).prd = false := by
  obtain ⟨ho, hc, num, hp, hv⟩ := hi
  rcases port_cases ho hc hp hv hj hw with ⟨hocc, hwe, -, ha, -⟩ | ⟨-, hl, ha, -⟩
  · have hlive := hp.live _ hocc
    exact ⟨_, hlive, hwe, ha, ho.fl_prd hlive.1 (lt_nextNum_of_live hlive) hwe⟩
  · obtain ⟨-, -, -, hlive, hwe, -, -⟩ := lsuEpu_write ho hc hv hl
    exact ⟨_, hlive, hwe, ha, ho.fl_prd hlive.1 (lt_nextNum_of_live hlive) hwe⟩

/-- **Committed values are present.**  In every reachable state: an instruction that goes has had
its result, and nothing else, written to its register by the end of the cycle, and the register
holds it; what an execution pipe has made for a register has been written there or waits behind the
pipe; and a write port writes only registers that are not free, for instructions that are still in
the reorder buffer. -/
theorem committed_present (h : (committing n D z).Reach ((s, t), L)) (x : BackendIn) :
    (∀ i < s.popSize D x, (t.ins (t.log.head + i)).d.lrdWe = true →
      (L.next D s x).wrote (t.ins (t.log.head + i)).prd ≠ [] ∧
      (∀ v ∈ (L.next D s x).wrote (t.ins (t.log.head + i)).prd,
        v = (t.ins (t.log.head + i)).d.result
          (seqFrom s.archRegs ((List.range i).map (s.retiredAt D t x)))
          (s.cmt.prfWdataLsuEpu (s.cmtIn D x))) ∧
      (s.next D x).prf.val (t.ins (t.log.head + i)).prd =
        (t.ins (t.log.head + i)).d.result
          (seqFrom s.archRegs ((List.range i).map (s.retiredAt D t x)))
          (s.cmt.prfWdataLsuEpu (s.cmtIn D x))) ∧
    (∀ p, ∀ v ∈ L.made p, v ∈ L.wrote p ∨ s.Waits p v) ∧
    ∀ j < 2, (s.mux D x).prfWe s.wb j = true → ∃ m, t.log.Live m ∧ (t.ins m).d.lrdWe = true ∧
      (s.mux D x).prfWaddr s.wb j = (t.ins m).prd ∧ s.rn.fl (t.ins m).prd = false := by
  have hi : s.Inv D t := inv_of_reach (Machine.Reach.of_observe h)
  have hb := resultsRep_of_reach h
  refine ⟨fun i hlt hwe => ?_, fun p v hv => made_kept h hv, fun j hj hw => port_live hi hj hw⟩
  have hf : s.flush D x = false := flush_of_popped hlt
  have hlive := (hi.order.live_of_lt hlt).2
  have hnum := lt_nextNum_of_live (s := s) hlive
  have h0 : (t.ins (t.log.head + i)).prd ≠ 0 := (hi.order.chain.alloc _ hlive.1 hnum hwe).1
  rw [wrote_next h0 (hi.order.fl_prd hlive.1 hnum hwe), ← val_of_popped hi hlt hwe]
  refine ⟨?_, fun v hv => hb.val_next hi hlive.1 hnum hwe hv, rfl⟩
  obtain ⟨num, hp, hv⟩ := hi.place
  rcases (avail_of_popped hi.order hi.cmt hp hv hf hlt hwe).2 with hav | hport
  · exact List.append_ne_nil_of_left_ne_nil ((hb.avail _ hlive.1 hnum hwe).1 hav) _
  · exact List.append_ne_nil_of_right_ne_nil _ (writes_ne_nil.2 hport)

/-- `mhi` goes six cycles after it was delivered, and its register holds `0x8000`. -/
theorem committed_present_mhi :
    ∃ s t L, (committing 4 3 emptyInsn).Reach ((s, t), L) ∧
      0 < s.popSize 3 (quietIn emptyInsn.d) ∧ (t.ins t.log.head).d.lrdWe = true ∧
      (s.next 3 (quietIn emptyInsn.d)).prf.val (t.ins t.log.head).prd = 0x8000 := by
  have hwf : mhi.WellFormed := idDec_wellFormed _ _ _ _ _ _ _
  have h := solo_ready 4 3 emptyInsn (f := emptyInsn.d) hwf (by decide)
  obtain ⟨L, hL⟩ := Machine.Reach.observed Results.reset (fun L q x => L.next 3 q.1 x) h.solo.reach
  generalize (solo 4 3 emptyInsn mhi emptyInsn.d 6).1 = s,
    (solo 4 3 emptyInsn mhi emptyInsn.d 6).2 = t at h hL
  have hpop : 0 < s.popSize 3 (quietIn emptyInsn.d) := by
    have := h.fire (by decide) (quietIn emptyInsn.d)
    rwa [fire_eq (by omega), decide_eq_true_eq] at this
  have hwe : (t.ins t.log.head).d.lrdWe = true := by
    rw [h.solo.ins]
    decide
  refine ⟨_, _, L, hL, hpop, hwe, ?_⟩
  have key := ((committed_present hL (quietIn emptyInsn.d)).1 0 hpop hwe).2.2
  rw [Nat.add_zero, h.solo.ins] at key
  have hregs : seqFrom s.archRegs ((List.range 0).map (s.retiredAt 3 t (quietIn emptyInsn.d))) =
      fun _ => 0 := by
    change s.archRegs = _
    rw [archRegs_eq h.solo.reach, h.solo.retired]
    rfl
  rw [key, hregs, DecInsn.result, if_neg (by decide)]
  decide

end Backend

end NanoCpu
