/-
**Program order in the back-end.**

One cycle keeps the agreement of rename, the reorder buffer and commit on the program order.  What a
cycle does to the tables of rename is a number of steps of the theory of renaming: first the
accepted instructions, one after the other, then the committed ones.  A flush goes back to the
architectural tables, where no instruction is between rename and commit.

Main results:

* `Backend.Order.next_flush` — after a flush the tables are the architectural ones;
* `Backend.Order.next` — every other cycle.
-/

import NanoCpu.BackendInv

set_option relaxedAutoImplicit false
set_option autoImplicit false
set_option linter.unusedSectionVars false

namespace NanoCpu

open Renaming

namespace Backend

variable {n : ℕ} [NeZero n] {D : ℕ} {s : Backend n} {t : Trace} {x : BackendIn}

/-! ### The inputs of the parts -/

theorem validPrefix (hx : x.Delivers) : (s.rnIn D x).ValidPrefix x.rnPushSize := ⟨hx.le, hx.valid⟩

theorem firePrefix : (s.rnIn D x).FirePrefix (s.popSize D x) :=
  ⟨popSize_le, fun _ hi => fire_eq hi⟩

theorem accepted_le (hx : x.Delivers) : s.accepted D x ≤ 2 := Rename.accepted_le (validPrefix hx)

/-- The instructions that commit hands to rename are the oldest ones of the trace. -/
theorem Order.cmtRen_eq (ho : s.Order D t) {i : ℕ} (hi : i < s.popSize D x) :
    (s.rnIn D x).cmtRen i = (t.ins (t.log.head + i)).ren := by
  have hle := popSize_le (s := s) (D := D) (x := x)
  have hp := ho.head_pay (i := i) (by omega) (ho.live_of_lt hi).2.2
  simp only [RenameIn.cmtRen, rnIn, hp]
  rfl

/-- Issue only pushes when the reorder buffer and the stations have room. -/
theorem ready_of_issuePCe (h : s.issuePCe D x = true) :
    s.rob.ready 1 D = true ∧ ∀ i < 2, (s.rs i).full = false := by
  have hr : s.issueReady D = true := Rename.issueReady_of_pCe h
  simp only [issueReady, List.all_eq_true, List.mem_range, Bool.and_eq_true,
    Bool.not_eq_true'] at hr
  exact ⟨(hr 0 (by omega)).2, fun i hi => (hr i hi).1⟩

/-- The back-end uses the reorder buffer within its protocol. -/
theorem Order.protocol (ho : s.Order D t) {num : Loc n → ℕ} (hp : s.Place D t num) :
    Rob.Protocol 1 D s.rob t.log (s.robIn D x) where
  push_le := by
    have := ho.size_le
    simp only [robIn, robPushSize]
    split_ifs <;> omega
  push_ready h := by
    simp only [robIn, robPushSize] at h
    split_ifs at h with hc
    · exact (ready_of_issuePCe hc).1
    · omega
  pop_le := popSize_le
  pop_valid i hi := (ho.live_of_lt hi).1
  wb_live j _ hj := by
    obtain ⟨-, -, -, hid, hb, -⟩ := hp.holds (.wb j) hj
    exact ⟨num (.wb j), hp.live (.wb j) hj, hid, hb⟩

/-! ### The trace -/

theorem Trace.next_ins_of_lt {m : ℕ} (hm : m < s.nextNum t) : (t.next D s x).ins m = t.ins m := by
  simp [Trace.next, Nat.not_le.2 hm]

theorem Trace.next_ins_new (hf : s.flush D x = false) {k : ℕ} (hk : k < s.accepted D x) :
    (t.next D s x).ins (s.nextNum t + k) = s.rn.renamed (s.rnIn D x) k := by
  simp [Trace.next, hf, hk]

theorem Trace.next_head (hf : s.flush D x = false) :
    (t.next D s x).log.head = t.log.head + s.popSize D x :=
  RobLog.next_head (x := s.robIn D x) hf

theorem Trace.next_tail (hf : s.flush D x = false) :
    (t.next D s x).log.tail = t.log.tail + s.robPushSize D x :=
  RobLog.next_tail (x := s.robIn D x) hf

theorem next_issuePushSize (hf : s.flush D x = false) :
    (s.next D x).rn.issuePushSize = if s.issuePCe D x then x.rnPushSize else
      s.rn.issuePushSize := by
  change ldff (s.issuePCe D x || s.flush D x) (if s.flush D x then 0 else x.rnPushSize) _ = _
  rw [hf]
  cases s.issuePCe D x <;> rfl

/-- Numbers are given out as instructions are accepted. -/
theorem nextNum_next (hf : s.flush D x = false) :
    (s.next D x).nextNum (t.next D s x) = s.nextNum t + s.accepted D x := by
  rw [nextNum, Trace.next_tail hf, next_issuePushSize hf, robPushSize, accepted, Rename.accepted,
    nextNum]
  change _ = _ + if s.issuePCe D x then _ else _
  split_ifs <;> omega

/-! ### A flush -/

theorem Trace.next_log_flush (hf : s.flush D x = true) :
    (t.next D s x).log.head = 0 ∧ (t.next D s x).log.tail = 0 := by
  have : (t.next D s x).log = RobLog.empty t.log.ent := RobLog.next_of_flush (x := s.robIn D x) hf
  rw [this]
  exact ⟨rfl, rfl⟩

theorem rn_next_flush (hf : s.flush D x = true) :
    (s.next D x).rn.issuePushSize = 0 ∧ (∀ i, (s.next D x).rn.issueValid i = false) ∧
      (s.next D x).rn.rat = s.rn.arat ∧ (s.next D x).rn.fl = s.rn.afl ∧
      ∀ p, (s.next D x).rn.busytable p = false := by
  have hf' : (s.rnIn D x).flush = true := hf
  simp [next, Rename.next, hf']

theorem nextNum_next_flush (hf : s.flush D x = true) :
    (s.next D x).nextNum (t.next D s x) = 0 := by
  rw [nextNum, (Trace.next_log_flush hf).2, (rn_next_flush hf).1]

/-- A cycle with a flush commits nothing. -/
theorem Order.arch_next_flush (ho : s.Order D t) (hf : s.flush D x = true) :
    (s.next D x).rn.arat = s.rn.arat ∧ (s.next D x).rn.afl = s.rn.afl := by
  have hp := firePrefix (s := s) (D := D) (x := x)
  rw [popSize_of_flush hf] at hp
  refine ⟨Rename.next_arat hp, ?_⟩
  funext p
  have h0 : s.rn.afl 0 = false := by
    have := ho.chain.part.not_free_zero
    simpa using this
  exact Bool.eq_iff_iff.2 (Rename.next_afl hp h0 p)

/-- After a flush the tables are the architectural ones. -/
theorem Order.next_flush (ho : s.Order D t) (hf : s.flush D x = true) :
    (s.next D x).Order D (t.next D s x) := by
  obtain ⟨h₁, h₂, h₃, h₄, -⟩ := rn_next_flush hf
  obtain ⟨hh, ht⟩ := Trace.next_log_flush (t := t) hf
  have hn := nextNum_next_flush (t := t) hf
  obtain ⟨ha, hb⟩ := ho.arch_next_flush hf
  refine ⟨Rob.Rep.next_flush s.rob t.log (x := s.robIn D x) hf,
    ?_, by omega, ?_, by omega, ?_, ?_, ?_⟩
  · rintro m ⟨-, hm⟩
    omega
  · intro i
    rw [h₂, h₁]
    simp
  · intro m _ hm
    omega
  · rw [hn, hh, h₃, h₄, ha, hb]
    exact ho.chain.part.chain _ 0
  · intro m _ hm
    omega

/-! ### Every other cycle -/

/-- The accepted instructions get free registers, different ones, and displace what the map
named. -/
theorem Order.chain_pushes (ho : s.Order D t) (hx : x.Delivers) (hf : s.flush D x = false) :
    Chain 0 s.rn.arat (fun p => s.rn.afl p = true) (fun m => ((t.next D s x).ins m).ren) t.log.head
      (s.nextNum t + s.accepted D x)
      (mapFrom (fun m => ((t.next D s x).ins m).ren) s.rn.rat (s.nextNum t) (s.accepted D x))
      fun p => s.rn.fl p = true ∧ ∀ k < s.accepted D x,
        ((t.next D s x).ins (s.nextNum t + k)).ren.we = true →
          p ≠ ((t.next D s x).ins (s.nextNum t + k)).ren.prd := by
  have hle := accepted_le (s := s) (D := D) hx
  have hgs : ∀ k < s.accepted D x, (x.rnInsn k).lrdWe = true → s.rn.gs k = true := by
    intro k hk hw
    have hp : s.rn.pCe (s.rnIn D x) = true := by
      by_contra hne
      simp [accepted, Rename.accepted, hne] at hk
    exact Rename.gs_of_pCe hp (by omega) hw
  refine Chain.pushes _ (ho.chain.congr ?_) ?_ ?_ ?_
  · intro m _ hm
    simp only [Trace.next_ins_of_lt hm]
  · intro k hk hw
    simp only [Trace.next_ins_new hf hk] at hw ⊢
    exact Rename.flPrd_mem (hgs k hk hw)
  · intro j k hjk hk hwj hwk
    simp only [Trace.next_ins_new hf hk, Trace.next_ins_new hf (show j < s.accepted D x by omega)]
      at hwj hwk ⊢
    obtain rfl : k = 1 := by omega
    obtain rfl : j = 0 := by omega
    exact Rename.flPrd_ne (hgs 1 hk hwk)
  · intro k hk hw
    simp only [Trace.next_ins_new hf hk] at hw ⊢
    rw [mapFrom_shift, mapFrom_congr (f := fun j => (s.rn.renamed (s.rnIn D x) j).ren)]
    · have hw' : ((s.rnIn D x).insn k).lrdWe = true := hw
      change s.rn.ratPfree (s.rnIn D x) k = _
      simp only [Rename.ratPfree, hw', Bool.true_and]
      exact Rename.bypass_eq _ _
    · intro j hj
      simp only [Nat.zero_add, Trace.next_ins_new hf (show j < s.accepted D x by omega)]

theorem freeFrom_congr {L P : Type*} {zero : P} {ins f : ℕ → Renaming L P}
    {free : P → Prop} {H K k : ℕ} (h : ∀ j < k, ins (H + j) = f (K + j)) :
    freeFrom zero ins free H k = freeFrom zero f free K k := by
  induction k with
  | zero => rfl
  | succ k ih => rw [freeFrom, freeFrom, ih fun j hj => h j (by omega), h k (by omega)]

/-- The architectural map after the cycle. -/
theorem Order.next_arat (ho : s.Order D t) :
    (s.next D x).rn.arat =
      mapFrom (fun m => ((t.next D s x).ins m).ren) s.rn.arat t.log.head (s.popSize D x) := by
  have hc := ho.head_popSize_le (x := x)
  have hT : t.log.tail ≤ s.nextNum t := Nat.le_add_right _ _
  rw [mapFrom_shift]
  refine (Rename.next_arat firePrefix).trans (mapFrom_congr fun j hj => ?_)
  simp only [Nat.zero_add]
  rw [ho.cmtRen_eq hj, Trace.next_ins_of_lt (by omega)]

/-- The tables after the cycle. -/
theorem Order.chain_next (ho : s.Order D t) (hx : x.Delivers) (hf : s.flush D x = false) :
    Chain 0 (s.next D x).rn.arat (fun p => (s.next D x).rn.afl p = true)
      (fun m => ((t.next D s x).ins m).ren) (t.next D s x).log.head
      ((s.next D x).nextNum (t.next D s x)) (s.next D x).rn.rat
      fun p => (s.next D x).rn.fl p = true := by
  have hc := ho.head_popSize_le (x := x)
  have hT : t.log.tail ≤ s.nextNum t := Nat.le_add_right _ _
  have hfire := firePrefix (s := s) (D := D) (x := x)
  have hval := validPrefix (s := s) (D := D) hx
  have hcmt : ∀ j < s.popSize D x, (s.rnIn D x).cmtRen j =
      ((t.next D s x).ins (t.log.head + j)).ren := by
    intro j hj
    rw [ho.cmtRen_eq hj, Trace.next_ins_of_lt (by omega)]
  have key := (ho.chain_pushes hx hf).commits (s.popSize D x) (by omega)
  have h0 : s.rn.afl 0 = false := by simpa using ho.chain.part.not_free_zero
  have eafl : (fun p => (s.next D x).rn.afl p = true) =
      freeFrom 0 (fun m => ((t.next D s x).ins m).ren) (fun p => s.rn.afl p = true) t.log.head
        (s.popSize D x) := by
    funext p
    refine (propext (Rename.next_afl hfire h0 p)).trans ?_
    rw [freeFrom_congr (K := t.log.head) (f := fun m => ((t.next D s x).ins m).ren)]
    intro j hj
    rw [Nat.zero_add]
    exact hcmt j hj
  have erat : (s.next D x).rn.rat =
      mapFrom (fun m => ((t.next D s x).ins m).ren) s.rn.rat (s.nextNum t) (s.accepted D x) := by
    rw [mapFrom_shift]
    refine (Rename.next_rat hval hf).trans (mapFrom_congr fun j hj => ?_)
    simp only [Nat.zero_add, Trace.next_ins_new hf hj]
  have efl : (fun p => (s.next D x).rn.fl p = true) = fun p =>
      (s.rn.fl p = true ∧ ∀ k < s.accepted D x,
        ((t.next D s x).ins (s.nextNum t + k)).ren.we = true →
          p ≠ ((t.next D s x).ins (s.nextNum t + k)).ren.prd) ∨
      ∃ k < s.popSize D x, ((t.next D s x).ins (t.log.head + k)).ren.we = true ∧
        p = ((t.next D s x).ins (t.log.head + k)).ren.pfree ∧ p ≠ 0 := by
    funext p
    refine (propext (Rename.next_fl hval hfire hf p)).trans (propext ?_)
    have e₁ : (∃ j < s.popSize D x, (s.rnIn D x).cmtPrdWe j = true ∧ (s.rnIn D x).cmtPfree j = p) ↔
        ∃ k < s.popSize D x, ((t.next D s x).ins (t.log.head + k)).ren.we = true ∧
          p = ((t.next D s x).ins (t.log.head + k)).ren.pfree := by
      refine exists_congr fun j => and_congr_right fun hj => ?_
      rw [← hcmt j hj]
      exact and_congr_right fun _ => eq_comm
    have e₂ : (∀ j < s.accepted D x, ((s.rnIn D x).insn j).lrdWe = true → s.rn.flPrd j ≠ p) ↔
        ∀ k < s.accepted D x, ((t.next D s x).ins (s.nextNum t + k)).ren.we = true →
          p ≠ ((t.next D s x).ins (s.nextNum t + k)).ren.prd := by
      refine forall_congr' fun j => forall_congr' fun hj => ?_
      rw [Trace.next_ins_new hf hj]
      exact forall_congr' fun _ => ne_comm
    change p ≠ 0 ∧ (_ ∨ _ ∧ _) ↔ _
    rw [e₁]
    constructor
    · rintro ⟨hp, ⟨k, hk, hw, he⟩ | ⟨hfl, ha⟩⟩
      · exact Or.inr ⟨k, hk, hw, he, hp⟩
      · exact Or.inl ⟨hfl, e₂.1 ha⟩
    · rintro (⟨hfl, ha⟩ | ⟨k, hk, hw, he, hp⟩)
      · refine ⟨?_, Or.inr ⟨hfl, e₂.2 ha⟩⟩
        rintro rfl
        exact ho.chain.not_free_zero hfl
      · exact ⟨hp, Or.inl ⟨k, hk, hw, he⟩⟩
  rw [nextNum_next hf, Trace.next_head hf, ho.next_arat, eafl, erat, efl]
  exact key

/-- An instruction that has a number after the cycle had it before, or has just been accepted. -/
theorem lt_nextNum_cases (hf : s.flush D x = false) {m : ℕ}
    (hm : m < (s.next D x).nextNum (t.next D s x)) :
    m < s.nextNum t ∨ ∃ k < s.accepted D x, m = s.nextNum t + k := by
  rw [nextNum_next hf] at hm
  rcases Nat.lt_or_ge m (s.nextNum t) with h | h
  · exact Or.inl h
  · exact Or.inr ⟨m - s.nextNum t, by omega, by omega⟩

/-- The sources of an accepted instruction are read through the map with the lanes below it. -/
theorem Order.src_new (ho : s.Order D t) (hf : s.flush D x = false) {k : ℕ}
    (hk : k < s.accepted D x) (l : LReg) :
    s.rn.bypass (fun j => (x.rnInsn j).lrdWe && l == (x.rnInsn j).lrd) (s.rn.rat l) k =
      mapFrom (fun m => ((t.next D s x).ins m).ren) s.rn.arat t.log.head
        (s.nextNum t + k - t.log.head) l := by
  have hle : t.log.head ≤ s.nextNum t := ho.chain.le
  have hrat : s.rn.rat = mapFrom (fun m => ((t.next D s x).ins m).ren) s.rn.arat t.log.head
      (s.nextNum t - t.log.head) := by
    rw [ho.chain.rat_eq]
    refine mapFrom_congr fun j hj => ?_
    rw [Trace.next_ins_of_lt (by omega)]
  refine (Rename.bypass_eq (s := s.rn) (x := s.rnIn D x) l k).trans ?_
  rw [show s.nextNum t + k - t.log.head = s.nextNum t - t.log.head +
    k by omega, ← mapFrom_add, ← hrat,
    show t.log.head + (s.nextNum t - t.log.head) = s.nextNum t by omega,
    mapFrom_shift (H := s.nextNum t)]
  refine congrFun (mapFrom_congr fun j hj => ?_) l
  simp only [Nat.zero_add, Trace.next_ins_new hf (show j < s.accepted D x by omega)]

/-- A cycle without a flush keeps the program order. -/
theorem Order.next (ho : s.Order D t) {num : Loc n → ℕ} (hp : s.Place D t num) (hx : x.Delivers)
    (hf : s.flush D x = false) : (s.next D x).Order D (t.next D s x) := by
  have hprot := ho.protocol (x := x) hp
  have hT : t.log.tail ≤ s.nextNum t := Nat.le_add_right _ _
  have hcle := ho.head_popSize_le (x := x)
  have hacc : s.issuePCe D x = true → s.accepted D x = x.rnPushSize := by
    intro hc
    change (if s.issuePCe D x then _ else _) = _
    rw [hc]
    rfl
  refine ⟨ho.rob.next hf hprot, ?_, ?_, ?_, ?_, ?_, ho.chain_next hx hf, ?_⟩
  · -- the payloads of the log
    intro m hm
    rcases RobLog.live_next (x := s.robIn D x) hf hm with ⟨h₁, h₂⟩ | ⟨h₁, h₂⟩
    · rw [Trace.next_ins_of_lt (by omega)]
      refine (RobLog.next_payload (x := s.robIn D x) hf h₂).trans (ho.pay m ⟨?_, h₂⟩)
      exact le_trans (Nat.le_add_right _ _) h₁
    · have hps : (s.robIn D x).pushSize ≤ s.rn.issuePushSize := by
        change s.robPushSize D x ≤ _
        rw [robPushSize]
        split_ifs <;> omega
      have hm' : m < s.nextNum t := by
        rw [nextNum]
        omega
      rw [Trace.next_ins_of_lt hm']
      change ((t.log.next 1 D (s.robIn D x)).ent m).payload = _
      rw [RobLog.next_ent_push hf h₁ h₂]
      change (s.rn.issue (m - t.log.tail)).pay = _
      rw [ho.issue _ (by omega), show t.log.tail + (m - t.log.tail) = m by omega]
  · rw [next_issuePushSize hf]
    have := ho.size_le
    have := hx.le
    split_ifs <;> omega
  · intro i
    change ldff (s.issuePCe D x || s.flush D x) (fun i => x.rnValid i && !s.flush D x)
      s.rn.issueValid i = _
    rw [next_issuePushSize hf, hf]
    cases s.issuePCe D x with
    | true => simpa using hx.valid i
    | false => simpa using ho.issueValid i
  · intro i hi
    rw [Trace.next_tail hf]
    rw [next_issuePushSize hf] at hi
    change ldff (s.issuePCe D x) (s.rn.renamed (s.rnIn D x)) s.rn.issue i = _
    cases hc : s.issuePCe D x with
    | true =>
        rw [hc, if_pos rfl] at hi
        rw [robPushSize, hc, if_pos rfl, ldff_true]
        exact (Trace.next_ins_new hf (by rw [hacc hc]; exact hi)).symm
    | false =>
        rw [hc, if_neg Bool.false_ne_true] at hi
        rw [robPushSize, hc, if_neg Bool.false_ne_true, ldff_false, Nat.add_zero,
          Trace.next_ins_of_lt (by rw [nextNum]; omega)]
        exact ho.issue i hi
  · intro m hm hm'
    rw [Trace.next_head hf] at hm
    rcases lt_nextNum_cases hf hm' with h | ⟨k, hk, rfl⟩
    · rw [Trace.next_ins_of_lt h]
      exact ho.wf m (by omega) h
    · rw [Trace.next_ins_new hf hk]
      refine hx.wellFormed k (lt_of_lt_of_le hk ?_)
      change (if _ then _ else _) ≤ _
      split_ifs <;> omega
  · intro m hm hm'
    rw [Trace.next_head hf] at hm ⊢
    have hsub : m - t.log.head = s.popSize D x + (m - (t.log.head + s.popSize D x)) := by omega
    rw [ho.next_arat, mapFrom_add, ← hsub]
    rcases lt_nextNum_cases hf hm' with h | ⟨k, hk, rfl⟩
    · rw [Trace.next_ins_of_lt h]
      have := ho.src m (by omega) h
      rw [mapFrom_congr (f := fun m => (t.ins m).ren)]
      · exact this
      · intro j hj
        rw [Trace.next_ins_of_lt (by omega)]
    · rw [Trace.next_ins_new hf hk]
      exact ⟨ho.src_new hf hk _, ho.src_new hf hk _⟩

end Backend

end NanoCpu
