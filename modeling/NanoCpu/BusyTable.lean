/-
**What the busy table means** (`rtl/core/rn_busytable.v`, `rn.v`, `rn_fl.v`, `wb_mux.v`).

A bit of the busy table is set for the register that the free list offers to a writing lane, whether
the lane is taken or not, and cleared by a write port of the register file.  Beside the back-end
runs a ledger of the instructions that have written their register.  For every register that the map
or an instruction which waits for its operands names, the bit says whether the instruction that the
register was allocated to has still to write it.

The registers that the free list can run out of are 63, and there are fewer between rename and
commit and in the committed map; so register zero is never offered.

Main definitions:

* `Backend.prfWriter` — an instruction writes its register in this cycle;
* `Backend.ledger` — the back-end with its trace and the instructions that have written;
* `Backend.Named` — the registers named by the map and by the instructions that wait;
* `Backend.Unwritten` — the instruction that a register was allocated to has still to write it.

Main results:

* `Backend.busyRep_of_reach` — the bit of an allocated register;
* `Backend.exists_free` — there is always a free register;
* `Backend.busy_iff_unwritten` — the invariant of the busy table.
-/

import NanoCpu.Watch

set_option relaxedAutoImplicit false
set_option autoImplicit false
set_option linter.unusedSectionVars false

namespace NanoCpu

open Renaming

namespace Backend

variable {n : ℕ} [NeZero n] {D : ℕ} {s : Backend n} {t : Trace} {x : BackendIn} {z : RInsn}
  {num : Loc n → ℕ} {p : PReg}

/-! ### Writes of the register file -/

/-- Instruction `m` writes its register in this cycle: it is the oldest one and the load/store or
the exception unit writes for it, or it is the instruction of the reorder buffer that a write-back
lane carries, and the lane has its port. -/
def prfWriter (D : ℕ) (s : Backend n) (t : Trace) (x : BackendIn) (m : ℕ) : Bool :=
  (m == t.log.head && s.cmt.prfWeLsuEpu (s.cmtIn D x)) ||
    (List.range 2).any fun j =>
      (s.wb j).prfWeEx && !(j == 0 && s.cmt.prfWeLsuEpu (s.cmtIn D x)) &&
        (decide (t.log.head ≤ m) && decide (m < t.log.tail)) &&
        ((s.wb j).robId == robId 1 D m && (s.wb j).robBank == robBank 1 m)

/-- The ledger of writes: it is emptied by a flush, with which the numbers start again. -/
def ledger (n : ℕ) [NeZero n] (D : ℕ) (z : RInsn) :
    Machine ((Backend n × Trace) × (ℕ → Bool)) BackendIn :=
  (traced n D z).observe (fun _ => false)
    (fun w q x m => !q.1.flush D x && (w m || q.1.prfWriter D q.2 x m)) fun _ _ _ => True

/-- Which instruction a port writes for. -/
theorem port_iff_prfWriter (ho : s.Order D t) (hc : s.cmt.Inv (s.rob.cmtValid 1 D 0) (s.head D 0))
    (hp : s.Place D t num) (hv : s.Values t num) {m : ℕ} (h₁ : t.log.head ≤ m)
    (h₂ : m < s.nextNum t) (hw : (t.ins m).d.lrdWe = true) :
    (∃ j < 2, (s.mux D x).prfWe s.wb j = true ∧ (s.mux D x).prfWaddr s.wb j = (t.ins m).prd) ↔
      s.prfWriter D t x m = true := by
  rw [prfWriter, Bool.or_eq_true, Bool.and_eq_true, beq_iff_eq, List.any_eq_true]
  constructor
  · rintro ⟨j, hj, hwe, ha⟩
    by_cases hl : j = 0 ∧ s.cmt.prfWeLsuEpu (s.cmtIn D x) = true
    · obtain ⟨-, -, -, hlive, hwe', -, hprd⟩ := lsuEpu_write ho hc hv hl.2
      have hm : (s.mux D x).weLsuEpu = true := hl.2
      rw [WbMux.prfWaddr, if_pos hl.1, hm, if_pos rfl] at ha
      exact .inl ⟨ho.eq_of_prd_eq h₁ h₂ le_rfl (lt_nextNum_of_live hlive) hw hwe'
        (ha.symm.trans hprd), hl.2⟩
    · right
      rcases port_cases ho hc hp hv hj hwe with ⟨hocc, hwe', hmem, ha', -⟩ | ⟨hj0, hl', -⟩
      · have hlive := hp.live _ hocc
        have hm : num (.wb j) = m := ho.eq_of_prd_eq hlive.1 (lt_nextNum_of_live hlive)
          h₁ h₂ hwe' hw (ha'.symm.trans ha)
        obtain ⟨-, -, -, e₁, e₂, -, e₃, -⟩ := hp.holds (.wb j) hocc
        rw [hm] at hlive e₁ e₂ e₃ hmem
        refine ⟨j, List.mem_range.2 hj, ?_⟩
        have hex : (s.wb j).prfWeEx = true := by
          have : (s.wb j).buf.pending = true := hocc
          simp [WbStage.prfWeEx, e₃, hw, hmem, this]
        have hno : (j == 0 && s.cmt.prfWeLsuEpu (s.cmtIn D x)) = false := by
          by_contra hne
          have := Bool.eq_true_of_not_eq_false hne
          rw [Bool.and_eq_true, beq_iff_eq] at this
          exact hl this
        simp [hex, hno, hlive.1, hlive.2, e₁, e₂]
      · exact absurd ⟨hj0, hl'⟩ hl
  · rintro (⟨rfl, hl⟩ | ⟨j, hj, hjw⟩)
    · have hm : (s.mux D x).weLsuEpu = true := hl
      refine ⟨0, by omega, ?_, ?_⟩
      · rw [WbMux.prfWe, if_pos rfl, hm, if_pos rfl]
      · rw [WbMux.prfWaddr, if_pos rfl, hm, if_pos rfl]
        exact (lsuEpu_write ho hc hv hl).2.2.2.2.2.2
    · simp only [Bool.and_eq_true, Bool.not_eq_true', beq_iff_eq, decide_eq_true_eq] at hjw
      obtain ⟨⟨⟨hex, hno⟩, hlive⟩, hid, hbank⟩ := hjw
      have hocc : s.Occ (.wb j) := (Bool.and_eq_true_iff.1 hex).2
      obtain ⟨-, -, -, e₁, e₂, e₄, -⟩ := hp.holds (.wb j) hocc
      have hm : num (.wb j) = m := ho.rob.slot_inj (hp.live _ hocc) hlive (e₂.symm.trans hbank)
        (e₁.symm.trans hid)
      rw [hm] at e₄
      refine ⟨j, List.mem_range.1 hj, ?_⟩
      by_cases h0 : j = 0
      · subst h0
        have hm' : (s.mux D x).weLsuEpu = false := by
          have hno' : s.cmt.prfWeLsuEpu (s.cmtIn D x) = false := by simpa using hno
          exact hno'
        rw [WbMux.prfWe, WbMux.prfWaddr, if_pos rfl, if_pos rfl, hm', if_neg Bool.false_ne_true,
          if_neg Bool.false_ne_true]
        exact ⟨hex, e₄⟩
      · rw [WbMux.prfWe, WbMux.prfWaddr, if_neg h0, if_neg h0]
        exact ⟨hex, e₄⟩

/-- Only an instruction of the reorder buffer writes. -/
theorem live_of_prfWriter (ho : s.Order D t) (hc : s.cmt.Inv (s.rob.cmtValid 1 D 0) (s.head D 0))
    (hv : s.Values t num) {m : ℕ} (h : s.prfWriter D t x m = true) : t.log.Live m := by
  rw [prfWriter, Bool.or_eq_true, Bool.and_eq_true, beq_iff_eq, List.any_eq_true] at h
  rcases h with ⟨rfl, hl⟩ | ⟨j, -, hj⟩
  · exact (lsuEpu_write ho hc hv hl).2.2.2.1
  · simp only [Bool.and_eq_true, decide_eq_true_eq] at hj
    exact hj.1.2

/-! ### The bit of an allocated register -/

/-- The bits of the registers between rename and commit, and nothing written ahead of rename. -/
structure BusyRep (s : Backend n) (t : Trace) (w : ℕ → Bool) : Prop where
  busy : ∀ m, t.log.head ≤ m → m < s.nextNum t → (t.ins m).d.lrdWe = true →
    (s.rn.busytable (t.ins m).prd = true ↔ w m = false)
  ahead : ∀ m, s.nextNum t ≤ m → w m = false

theorem BusyRep.next {w : ℕ → Bool} (hb : s.BusyRep t w) (hi : s.Inv D t) (hx : x.Delivers) :
    (s.next D x).BusyRep (t.next D s x) fun m => !s.flush D x && (w m || s.prfWriter D t x m) := by
  obtain ⟨num, hp, hv⟩ := hi.place
  cases hf : s.flush D x with
  | true =>
      refine ⟨fun m _ hm => ?_, fun m _ => rfl⟩
      rw [nextNum_next_flush hf] at hm
      exact absurd hm (Nat.not_lt_zero m)
  | false =>
      refine ⟨fun m hm hm' hwe => ?_, fun m hm => ?_⟩
      · rw [Trace.next_head hf] at hm
        rcases lt_nextNum_cases hf hm' with hlt | ⟨k, hk, rfl⟩
        · -- an instruction that was there before
          have hge : t.log.head ≤ m := le_trans (Nat.le_add_right _ _) hm
          rw [Trace.next_ins_of_lt hlt] at hwe ⊢
          have hfl := hi.order.fl_prd hge hlt hwe
          have h0 := (hi.order.chain.alloc m hge hlt hwe).1
          have hoff : ¬ ∃ j < 2, ((s.rnIn D x).insn j).lrdWe = true ∧
              s.rn.flPrd j = (t.ins m).prd := by
            rintro ⟨j, -, -, hj⟩
            rcases Rename.flPrd_mem_or_zero (s := s.rn) j with h | h
            · rw [hj, hfl] at h
              cases h
            · exact h0 (hj.symm.trans h)
          change (s.rn.next (s.rnIn D x)).busytable (t.ins m).prd = true ↔ _
          rw [Rename.next_busytable (x := s.rnIn D x) hf]
          have hport := port_iff_prfWriter (x := x) hi.order hi.cmt hp hv hge hlt hwe
          rw [or_iff_right hoff, hb.busy m hge hlt hwe]
          simp only [Bool.not_false, Bool.true_and, Bool.or_eq_false_iff]
          refine and_congr_right fun _ => ?_
          rw [← Bool.not_eq_true, ← hport]
          push Not
          exact Iff.rfl
        · -- an instruction that rename has just taken
          rw [Trace.next_ins_new hf hk] at hwe ⊢
          have hwn : w (s.nextNum t + k) = false := hb.ahead _ (Nat.le_add_right _ _)
          have hnw : s.prfWriter D t x (s.nextNum t + k) = false := by
            by_contra hne
            have := lt_nextNum_of_live (s := s)
              (live_of_prfWriter hi.order hi.cmt hv (Bool.eq_true_of_not_eq_false hne))
            omega
          change (s.rn.next (s.rnIn D x)).busytable (s.rn.renamed (s.rnIn D x) k).prd = true ↔ _
          rw [Rename.next_busytable (x := s.rnIn D x) hf]
          have hle := accepted_le (s := s) (D := D) hx
          have hset : ∃ j < 2, ((s.rnIn D x).insn j).lrdWe = true ∧
              s.rn.flPrd j = (s.rn.renamed (s.rnIn D x) k).prd := ⟨k, by omega, hwe, rfl⟩
          have hnew : (!false && (w (s.nextNum t + k) || s.prfWriter D t x (s.nextNum t + k))) =
              false := by
            simp [hwn, hnw]
          exact ⟨fun _ => hnew, fun _ => .inl hset⟩
      · rw [nextNum_next hf] at hm
        have hwn : w m = false := hb.ahead m (le_trans (Nat.le_add_right _ _) hm)
        have hnw : s.prfWriter D t x m = false := by
          by_contra hne
          have hlt := lt_nextNum_of_live (s := s) (m := m)
            (live_of_prfWriter hi.order hi.cmt hv (Bool.eq_true_of_not_eq_false hne))
          omega
        rw [hwn, hnw]
        rfl

theorem busyRep_of_reach {w : ℕ → Bool} (h : (ledger n D z).Reach ((s, t), w)) : s.BusyRep t w := by
  suffices hs : ∀ q, (ledger n D z).Reach q → (traced n D z).Reach q.1 ∧
    q.1.1.BusyRep q.1.2 q.2 from (hs _ h).2
  intro q hq
  refine Machine.Reach.inv (P := fun q => (traced n D z).Reach q.1 ∧ q.1.1.BusyRep q.1.2 q.2) ?_ ?_
    hq
  · exact ⟨Machine.Reach.reset, fun m _ hm => absurd hm (Nat.not_lt_zero m), fun m _ => rfl⟩
  · rintro ⟨⟨s, t⟩, w⟩ x ⟨hr, hb⟩ hx
    exact ⟨Machine.Reach.tick hr hx.1, hb.next (inv_of_reach hr) hx.1.1⟩

/-! ### There is always a free register -/

/-- How many instructions there are between rename and commit. -/
theorem Order.nextNum_le (ho : s.Order D t) : s.nextNum t ≤ t.log.head + (2 * 2 ^ D + 2) := by
  have h₀ := ho.rob.fits 0 (by decide)
  have h₁ := ho.rob.fits 1 (by decide)
  have hle := ho.size_le
  simp only [Interleave.cnt] at h₀ h₁
  rw [nextNum]
  omega

/-- The committed map names at most 32 registers, and the instructions in flight at most 18 more. -/
theorem exists_free (ho : s.Order D t) (hD : D ≤ 3) : ∃ p, s.rn.fl p = true := by
  by_contra hne
  push Not at hne
  have hcover : (Finset.univ : Finset PReg) ⊆ ({0} ∪ Finset.univ.image s.rn.arat) ∪
      (Finset.Ico t.log.head (s.nextNum t)).image fun m => (t.ins m).prd := by
    intro p _
    simp only [Finset.mem_union, Finset.mem_singleton, Finset.mem_image, Finset.mem_univ, true_and,
      Finset.mem_Ico]
    by_cases h0 : p = 0
    · exact .inl (.inl h0)
    · have hp := mt (ho.chain.free_iff p).2 (hne p)
      rw [ho.chain.part.free_iff p h0] at hp
      by_cases ha : ∀ l, s.rn.arat l ≠ p
      · right
        have := mt (And.intro ha) hp
        push Not at this
        obtain ⟨m, h₁, h₂, -, h₄⟩ := this
        exact ⟨m, ⟨h₁, h₂⟩, h₄⟩
      · push Not at ha
        exact .inl (.inr ha)
  have hcard := Finset.card_le_card hcover
  have h₁ := Finset.card_union_le ({0} ∪ Finset.univ.image s.rn.arat)
    ((Finset.Ico t.log.head (s.nextNum t)).image fun m => (t.ins m).prd)
  have h₂ := Finset.card_union_le {0} (Finset.univ.image s.rn.arat)
  have h₃ : (Finset.univ.image s.rn.arat).card ≤ 32 := Finset.card_image_le
  have h₄ : ((Finset.Ico t.log.head (s.nextNum t)).image fun m => (t.ins m).prd).card ≤ 18 := by
    refine le_trans Finset.card_image_le ?_
    rw [Nat.card_Ico]
    have hn := ho.nextNum_le
    have h8 : 2 ^ D ≤ 2 ^ 3 := Nat.pow_le_pow_right (by decide) hD
    omega
  rw [Finset.card_univ, Fintype.card_fin] at hcard
  rw [Finset.card_singleton] at h₂
  omega

/-- So zero is never offered, whether the offer is taken or not. -/
theorem flPrd_ne_zero (ho : s.Order D t) (hD : D ≤ 3) (i : ℕ) : s.rn.flPrd i ≠ 0 := by
  obtain ⟨p, hp⟩ := exists_free ho hD
  have hmem : s.rn.fl (s.rn.flPrd i) = true := by
    rw [Rename.flPrd]
    by_cases hi : i = 0
    · rw [if_pos hi]
      exact priorityEncoderGs_mem (priorityEncoderGs_of_mem hp)
    · rw [if_neg hi]
      exact priorityEncoderRevGs_mem (priorityEncoderRevGs_of_mem hp)
  intro h0
  rw [h0] at hmem
  exact ho.chain.not_free_zero hmem

theorem busytable_zero (hD : D ≤ 3) (h : (traced n D z).Reach (s, t)) :
    s.rn.busytable 0 = false := by
  suffices hs : ∀ q, (traced n D z).Reach q →
      (traced n D z).Reach q ∧ q.1.rn.busytable 0 = false from (hs _ h).2
  intro q hq
  refine Machine.Reach.inv
    (P := fun q => (traced n D z).Reach q ∧ q.1.rn.busytable 0 = false) ?_ ?_ hq
  · exact ⟨Machine.Reach.reset, rfl⟩
  · rintro ⟨s, t⟩ x ⟨hr, hb⟩ hx
    refine ⟨Machine.Reach.tick hr hx, ?_⟩
    change (s.rn.next (s.rnIn D x)).busytable 0 = false
    cases hf : (s.rnIn D x).flush with
    | true => simp [Rename.next, hf]
    | false =>
        by_contra hne
        rcases (Rename.next_busytable hf 0).1 (Bool.eq_true_of_not_eq_false hne) with
          ⟨j, -, -, hj⟩ | ⟨hz, -⟩
        · exact flPrd_ne_zero (inv_of_reach hr).order hD j hj
        · rw [hb] at hz
          cases hz

/-! ### The registers that are named -/

/-- The map names the register, or it is a source of an instruction that has been renamed and has
not been issued: one in the issue registers or in a reservation station. -/
def Named (s : Backend n) (p : PReg) : Prop :=
  (∃ l, s.rn.rat l = p) ∨
    (∃ i < s.rn.issuePushSize, (s.rn.issue i).prs1 = p ∨ (s.rn.issue i).prs2 = p) ∨
    ∃ i a, s.Occ (.rs i a) ∧ ((s.rs i).prs1Rf a = p ∨ (s.rs i).prs2Rf a = p)

/-- The instruction in flight that `p` was allocated to has not written it yet. -/
def Unwritten (s : Backend n) (t : Trace) (w : ℕ → Bool) (p : PReg) : Prop :=
  ∃ m, t.log.head ≤ m ∧ m < s.nextNum t ∧ (t.ins m).d.lrdWe = true ∧ (t.ins m).prd = p ∧ w m = false

/-- Whatever is named is what the map named somewhere between the committed one and the newest. -/
theorem Named.mapFrom (hn : s.Named p) (hi : s.Inv D t) :
    ∃ k l, t.log.head + k ≤ s.nextNum t ∧
      mapFrom (fun m => (t.ins m).ren) s.rn.arat t.log.head k l = p := by
  obtain ⟨num, hp, -⟩ := hi.place
  have hle := hi.order.chain.le
  have hsrc : ∀ m, t.log.head ≤ m → m < s.nextNum t → (t.ins m).prs1 = p ∨ (t.ins m).prs2 = p →
      ∃ k l, t.log.head + k ≤ s.nextNum t ∧
        Renaming.mapFrom (fun m => (t.ins m).ren) s.rn.arat t.log.head k l = p := by
    intro m h₁ h₂ h
    obtain ⟨e₁, e₂⟩ := hi.order.src m h₁ h₂
    rcases h with h | h
    · exact ⟨m - t.log.head, _, by omega, e₁.symm.trans h⟩
    · exact ⟨m - t.log.head, _, by omega, e₂.symm.trans h⟩
  rcases hn with ⟨l, hl⟩ | ⟨i, hlt, h⟩ | ⟨i, a, hocc, h⟩
  · refine ⟨s.nextNum t - t.log.head, l, by omega, ?_⟩
    rw [← hi.order.chain.rat_eq]
    exact hl
  · rw [hi.order.issue i hlt] at h
    have := hi.order.rob.le
    exact hsrc _ (by omega) (by rw [nextNum]; omega) h
  · obtain ⟨-, -, -, e₁, e₂, -⟩ := hp.holds _ hocc
    rw [e₁, e₂] at h
    have hlive := hp.live _ hocc
    exact hsrc _ hlive.1 (lt_nextNum_of_live hlive) h

/-- **The busy table.**  For every register that the map or an instruction that waits for its
operands names, the bit is set iff the instruction in flight that allocated the register has not
written it; and zero is never busy. -/
theorem busy_iff_unwritten {w : ℕ → Bool} (hD : D ≤ 3) (h : (ledger n D z).Reach ((s, t), w)) :
    s.rn.busytable 0 = false ∧
      ∀ p, s.Named p → (s.rn.busytable p = true ↔ s.Unwritten t w p) := by
  have hr : (traced n D z).Reach (s, t) := Machine.Reach.of_observe h
  have hi := inv_of_reach hr
  have hb := busyRep_of_reach h
  have hz := busytable_zero hD hr
  refine ⟨hz, fun p hn => ⟨fun hbusy => ?_, ?_⟩⟩
  · obtain ⟨k, l, hk, rfl⟩ := hn.mapFrom hi
    rcases mapFrom_cases (fun m => (t.ins m).ren) s.rn.arat t.log.head k l with
      he | ⟨m, h₁, h₂, hwe, he⟩
    · -- a committed register has its value
      rw [he] at hbusy
      obtain ⟨num, -, hv⟩ := hi.place
      rcases hv.arat l with h0 | h0
      · rw [h0, hz] at hbusy
        cases hbusy
      · rw [h0] at hbusy
        cases hbusy
    · rw [he] at hbusy ⊢
      exact ⟨m, h₁, by omega, hwe, rfl, (hb.busy m h₁ (by omega) hwe).1 hbusy⟩
  · rintro ⟨m, h₁, h₂, hwe, rfl, hw⟩
    exact (hb.busy m h₁ h₂ hwe).2 hw

/-- After its first cycle `mhi` is in the issue registers, and register 1 waits for it. -/
theorem busy_iff_unwritten_mhi :
    ∃ s t w, (ledger 4 3 emptyInsn).Reach ((s, t), w) ∧ s.rn.busytable 1 = true ∧ s.Named 1 ∧
      s.Unwritten t w 1 := by
  have hwf : mhi.WellFormed := idDec_wellFormed _ _ _ _ _ _ _
  have hx : (soloIn mhi emptyInsn.d).Delivers := (soloIn_alone mhi (by decide)).delivers hwf
  have hr : (ledger 4 3 emptyInsn).Reach
      ((ledger 4 3 emptyInsn).next (ledger 4 3 emptyInsn).reset (soloIn mhi emptyInsn.d)) :=
    Machine.Reach.tick Machine.Reach.reset ⟨⟨hx, trivial⟩, trivial⟩
  have hn : ((ledger 4 3 emptyInsn).next (ledger 4 3 emptyInsn).reset
      (soloIn mhi emptyInsn.d)).1.1.Named 1 := Or.inl ⟨1, by decide +kernel⟩
  have hb : ((ledger 4 3 emptyInsn).next (ledger 4 3 emptyInsn).reset
      (soloIn mhi emptyInsn.d)).1.1.rn.busytable 1 = true := by decide +kernel
  exact ⟨_, _, _, hr, hb, hn, ((busy_iff_unwritten (by decide) hr).2 1 hn).1 hb⟩

end Backend

end NanoCpu
