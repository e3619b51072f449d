/-
**Every instruction goes in the end.**

An instruction that has been renamed waits for its operands, for the reservation station to choose
it, for the execution pipe, for the write-back lane and for the instructions in front of it.  None
of these waits is for ever.  As long as nothing is committed, each cycle brings some instruction
nearer to the reorder buffer; and the oldest one, once it has been written back, only waits for the
units of commit, which take one step whenever the pipeline of the D-cache moves.  The one exception
is a barrier, which the units never finish.

Main definitions:

* `Backend.Covers` — an instruction that has not been written back is in some place;
* `Backend.work`, `Backend.potential` — how far the instructions in the pipeline are from
  write-back;
* `Backend.Stuck` — the oldest instruction is a barrier.

Main results:

* `Backend.covers_of_reach` — no instruction is lost;
* `Backend.potential_lt` — **a cycle without a commit brings some instruction nearer**;
* `Backend.happens` — something is committed or flushed in the end;
* `Backend.goes` — **and so is every instruction**.
-/

import NanoCpu.FreeList
import NanoCpu.Progress
import NanoCpu.Station

set_option relaxedAutoImplicit false
set_option autoImplicit false
set_option linter.unusedSectionVars false

open Filter

namespace NanoCpu

/-! ### How full the stages are -/

/-- A register stage gets what comes in and loses what leaves. -/
theorem HdsBuf.toNat_next (b : HdsBuf) (avalid bready : Bool) :
    (b.next false true avalid true bready).pending.toNat + (b.pending && bready).toNat =
      b.pending.toNat + (avalid && b.aready true true bready).toNat := by
  cases hb : b.pending <;> cases avalid <;> cases bready <;> simp [next, aready, ldff, hb]

namespace Rs

variable {n : ℕ} [NeZero n] {s : Rs n} {x : RsIn}

/-- How many slots are taken. -/
def count (s : Rs n) : ℕ := (Finset.univ.filter fun a => s.freeVec a = false).card

/-- What is pushed comes in, and what is taken leaves. -/
theorem count_next (hx : x.push = true → s.full = false)
    (hr : x.pop = true → s.freeVec s.rdyAddrFf = false)
    (hf : x.flush = false) : (s.next x).count + x.pop.toNat = s.count + x.push.toNat := by
  have hmem : ∀ a, (s.next x).freeVec a = false ↔ ¬ (x.pop = true ∧ a = s.rdyAddrFf) ∧
      (s.freeVec a = false ∨ (x.push = true ∧ a = s.freeAddr)) := by
    intro a
    rw [freeVec_next_eq]
    exact and_iff_right hf
  have hfree : x.push = true → s.freeAddr ∉ Finset.univ.filter fun a => s.freeVec a = false := by
    intro hp
    simp [freeAddr_mem (hx hp)]
  have hocc : x.pop = true → s.rdyAddrFf ∈ Finset.univ.filter fun a => s.freeVec a = false := by
    intro hp
    simp [hr hp]
  have hset : (Finset.univ.filter fun a => (s.next x).freeVec a = false) =
      (if x.push then insert s.freeAddr (Finset.univ.filter fun a => s.freeVec a = false)
        else Finset.univ.filter fun a => s.freeVec a = false) \
      (if x.pop then {s.rdyAddrFf} else ∅) := by
    ext a
    rw [Finset.mem_filter, Finset.mem_sdiff, and_iff_right (Finset.mem_univ a), hmem a, and_comm]
    refine and_congr ?_ (not_congr ?_)
    · cases x.push <;> simp [or_comm]
    · cases x.pop <;> simp
  rw [count, count, hset]
  have hsub : (if x.pop then {s.rdyAddrFf} else ∅) ⊆
      (if x.push then insert s.freeAddr (Finset.univ.filter fun a => s.freeVec a = false)
        else Finset.univ.filter fun a => s.freeVec a = false) := by
    cases hp : x.pop with
    | false => exact Finset.empty_subset _
    | true =>
        rw [if_pos rfl, Finset.singleton_subset_iff]
        cases x.push
        · exact hocc hp
        · exact Finset.mem_insert_of_mem (hocc hp)
  have hpc : (if x.pop then {s.rdyAddrFf} else ∅ : Finset (Fin n)).card = x.pop.toNat := by
    cases x.pop <;> rfl
  have hic : (if x.push then insert s.freeAddr (Finset.univ.filter fun a => s.freeVec a = false)
        else Finset.univ.filter fun a => s.freeVec a = false).card =
      (Finset.univ.filter fun a => s.freeVec a = false).card + x.push.toNat := by
    cases hp : x.push with
    | false => rfl
    | true => exact Finset.card_insert_of_notMem (hfree hp)
  have hle := Finset.card_le_card hsub
  rw [Finset.card_sdiff_of_subset hsub, hpc, hic]
  rw [hpc, hic] at hle
  omega

end Rs

/-! ### The units of commit -/

/-- How many steps the units have to take for the oldest instruction. -/
def Cmt.rank (c : Cmt) : ℕ := if c.pending then (if c.lsu.s1Valid then 2 else 1) else 3

/-- As long as an instruction waits for the units, and is not a barrier, they take a step whenever
they move. -/
theorem Cmt.rank_next {c : Cmt} {x : CmtIn} (hi : c.Inv (x.valid 0) (x.head 0))
    (hw : (x.head 0).WellFormed)
    (hv : x.valid 0 = true) (hf : c.flush x = false) (hfire : c.fire x 0 = false)
    (hb : (x.head 0).pay.lsu.barr = false) :
    (c.pCeS1 x = true → (c.next x).rank < c.rank) ∧
    (c.pCeS1 x = false → (c.next x).rank = c.rank) := by
  have hs := seFls_of_not_flush hf
  have hreq : c.pipeReq x = true := by
    by_contra hne
    simp [fire, ready2Fire, mask, cmtCe, hv, hf, hne] at hfire
  have hneeds : (x.head 0).needsPipe = true := by rw [← pipeReq_eq hs hv, hreq]
  have hfin : c.pipeFinish x = false := by
    by_contra hne
    rw [(hi.fire_of_finish (Bool.eq_true_of_not_eq_false hne) hf).1] at hfire
    cases hfire
  have hpn : (c.next x).pending = if c.pending then !c.pipeFinish x else c.pipeReq x && c.pCeS1 x :=
    rfl
  have hbarr : ∀ g, c.Flight (x.head 0) g → g ≠ .nowhere := by
    rintro g hg rfl
    have := (hw.barr_of_nowhere hneeds hg.start).1
    rw [hb] at this
    cases this
  cases hp : c.pending with
  | false =>
      rw [hp, hreq, if_neg Bool.false_ne_true, Bool.true_and] at hpn
      refine ⟨fun hc => ?_, fun hc => ?_⟩
      · rw [hc] at hpn
        rw [rank, rank, hpn, hp, if_pos rfl, if_neg Bool.false_ne_true]
        split_ifs <;> decide
      · rw [hc] at hpn
        rw [rank, rank, hpn, hp, if_neg Bool.false_ne_true, if_neg Bool.false_ne_true]
  | true =>
      obtain ⟨g, hg⟩ := hi.flight hp
      rw [hp, hfin, if_pos rfl, Bool.not_false] at hpn
      rw [pCeS1_eq_pCeS2 (epuReqValid_of_pending hp), pCeS2]
      refine ⟨fun hc => ?_, fun hc => ?_⟩
      · have hd : x.dcStall = false := by simpa using hc
        have hfin' := hg.pipeFinish x
        rw [hfin, hd] at hfin'
        -- the units finish in every stage but the first
        have hg1 : g = .lsu1 := by
          cases g with
          | lsu1 => rfl
          | lsu2 => simp at hfin'
          | epu => simp at hfin'
          | nowhere => exact absurd rfl (hbarr _ hg)
        subst hg1
        rw [rank, rank, hpn, hp, if_pos rfl, if_pos rfl, hg.s1Valid, (hg.next_lsu hp hd).s1Valid]
        decide
      · have hd : x.dcStall = true := by simpa using hc
        rw [rank, rank, hpn, hp, hg.s1Valid, (hg.next_stall hp hd).s1Valid]

namespace Backend

variable {n : ℕ} [NeZero n] {D : ℕ} {s : Backend n} {t : Trace} {x : BackendIn} {z : RInsn}
  {num : Loc n → ℕ}

/-! ### No instruction is lost -/

/-- An instruction that has not been written back is in some place. -/
def Covers (s : Backend n) (t : Trace) (num : Loc n → ℕ) : Prop :=
  ∀ m, t.log.Live m → (t.log.ent m).wb = none → ∃ k, s.Occ k ∧ num k = m

/-- A slot that is not taken from keeps its instruction. -/
theorem occ_next_rs_of_stays (hf : s.flush D x = false) {i : ℕ} {a : Fin n} (ho : s.Occ (.rs i a))
    (hpop : ¬ (s.roRsPop D x i = true ∧ a = (s.rs i).rdyAddrFf)) : (s.next D x).Occ (.rs i a) :=
  Rs.freeVec_next_eq.2 ⟨hf, hpop, Or.inl ho⟩

theorem occ_next_ex_of_pop (hf : s.flush D x = false) {i : ℕ} (hpop : s.roRsPop D x i = true) :
    (s.next D x).Occ (.ex i) := by
  have hp : ((s.rs i).hasRdyFf && (s.ex i).buf.aready true true (s.exReady D x i)) = true := hpop
  change ((s.ex i).buf.next (s.flush D x) true (s.rs i).hasRdyFf true (s.exReady D x i)).pending =
    true
  simp [HdsBuf.next, hf, hp, ldff]

theorem occ_next_ex_of_stays (hf : s.flush D x = false) {i : ℕ} (ho : s.Occ (.ex i))
    (hr : s.exReady D x i = false) : (s.next D x).Occ (.ex i) := by
  change ((s.ex i).buf.next (s.flush D x) true (s.rs i).hasRdyFf true (s.exReady D x i)).pending =
    true
  rw [hf, hr]
  exact HdsBuf.pending_of_not_ready ho

theorem occ_next_wb_of_load (hf : s.flush D x = false) {i : ℕ} (hl : s.wbLoad D x i = true) :
    (s.next D x).Occ (.wb i) := by
  have hp : ((s.ex i).buf.pending && (s.wb i).buf.aready true true (s.wbReady D x i)) = true := hl
  change ((s.wb i).buf.next (s.flush D x) true (s.ex i).buf.pending true
    (s.wbReady D x i)).pending = true
  simp [HdsBuf.next, hf, hp, ldff]

theorem occ_next_wb_of_stays (hf : s.flush D x = false) {i : ℕ} (ho : s.Occ (.wb i))
    (hr : s.wbReady D x i = false) : (s.next D x).Occ (.wb i) := by
  change ((s.wb i).buf.next (s.flush D x) true (s.ex i).buf.pending true
    (s.wbReady D x i)).pending = true
  rw [hf, hr]
  exact HdsBuf.pending_of_not_ready ho

/-- A lane that is ready writes its instruction back. -/
theorem wbLane_of_ready (hp : s.Place D t num) {i : ℕ} (ho : s.Occ (.wb i))
    (hr : s.wbReady D x i = true) : (s.robIn D x).wbLane 1 D (num (.wb i)) = some i := by
  obtain ⟨hi, -, -, hid, hbk, -⟩ := hp.holds _ ho
  have hrob : (s.robIn D x).wbReady i = true := by
    rw [wbReady, WbMux.wbReady] at hr
    split_ifs at hr with h0
    · rw [h0]
      exact (Bool.and_eq_true_iff.1 hr).2
    · exact hr
  refine RobIn.wbLane_eq_some hi ?_ hid
  have hv : (s.robIn D x).wbValid i = true := ho
  have hb : (s.robIn D x).wbRobBank i = robBank 1 (num (.wb i)) := hbk
  simp [RobIn.wbSel, hrob, hv, hb]

/-- Where the instruction of a place is after the cycle, unless it is written back. -/
theorem moves_on (ho : s.Order D t) (hp : s.Place D t num) (hf : s.flush D x = false) {k : Loc n}
    (hk : s.Occ k) (hwb : (s.robIn D x).wbLane 1 D (num k) = none) :
    ∃ k', (s.next D x).Occ k' ∧ s.src D x k' = .inl k := by
  cases k with
  | rs i a =>
      by_cases hpop : s.roRsPop D x i = true ∧ a = (s.rs i).rdyAddrFf
      · refine ⟨.ex i, occ_next_ex_of_pop hf hpop.1, ?_⟩
        rw [src, if_pos hpop.1, hpop.2]
      · refine ⟨.rs i a, occ_next_rs_of_stays hf hk hpop, if_neg ?_⟩
        -- a push goes to a free slot
        rintro ⟨hpush, rfl⟩
        have hfree :=
          Rs.freeAddr_mem ((ready_of_issuePCe (rsPush_lt ho hpush).2.2).2 i (hp.holds _ hk).1)
        rw [show (s.rs i).freeVec (s.rs i).freeAddr = false from hk] at hfree
        cases hfree
  | ex i =>
      cases hr : s.exReady D x i with
      | true =>
          have hl : s.wbLoad D x i = true := by
            rw [wbLoad, hr, show (s.ex i).buf.pending = true from hk]
            rfl
          exact ⟨.wb i, occ_next_wb_of_load hf hl, by rw [src, if_pos hl]⟩
      | false =>
          refine ⟨.ex i, occ_next_ex_of_stays hf hk hr, ?_⟩
          have hpop : s.roRsPop D x i = false := by
            rw [roRsPop, roReady, ExStage.roReady, HdsBuf.aready, hr,
              show (s.ex i).buf.pending = true from hk]
            simp
          rw [src, if_neg (by simp [hpop])]
  | wb i =>
      have hr : s.wbReady D x i = false := by
        by_contra hne
        rw [wbLane_of_ready hp hk (Bool.eq_true_of_not_eq_false hne)] at hwb
        cases hwb
      refine ⟨.wb i, occ_next_wb_of_stays hf hk hr, ?_⟩
      have hl : s.wbLoad D x i = false := by
        rw [wbLoad, exReady, WbStage.exReady, HdsBuf.aready, hr,
          show (s.wb i).buf.pending = true from hk]
        simp
      rw [src, if_neg (by simp [hl])]

/-- A pushed instruction is in its reservation station. -/
theorem occ_of_push (ho : s.Order D t) (hp : s.Place D t num) (hf : s.flush D x = false) {i : ℕ}
    (hpush : s.rsPush D x i = true) : (s.next D x).Occ (.rs i (s.rs i).freeAddr) := by
  obtain ⟨hi, -, hc⟩ := rsPush_lt ho hpush
  have hsz := ho.size_le
  refine Rs.freeVec_next_eq.2 ⟨hf, ?_, Or.inr ⟨hpush, rfl⟩⟩
  rintro ⟨hpop, he⟩
  have hfree := Rs.freeAddr_mem ((ready_of_issuePCe hc).2 i (by omega))
  have hocc : (s.rs i).freeVec (s.rs i).rdyAddrFf = false :=
    (hp.rdy i (Bool.and_eq_true_iff.1 hpop).1).1
  rw [he, hocc] at hfree
  cases hfree

/-- A cycle loses no instruction. -/
theorem Covers.next (h : s.Covers t num) (ho : s.Order D t) (hp : s.Place D t num)
    (hf : s.flush D x = false) :
    (s.next D x).Covers (t.next D s x) (s.numNext D t x num) := by
  intro m hm hwb
  rcases RobLog.live_next (x := s.robIn D x) hf hm with ⟨h₁, h₂⟩ | ⟨h₁, h₂⟩
  · have hlive : t.log.Live m := ⟨le_trans (Nat.le_add_right _ _) h₁, h₂⟩
    rw [ent_next hf h₁ h₂, Option.or_eq_none_iff, Option.map_eq_none_iff] at hwb
    obtain ⟨k, hk, rfl⟩ := h m hlive hwb.2
    obtain ⟨k', hk', hs⟩ := moves_on ho hp hf hk hwb.1
    exact ⟨k', hk', by rw [numNext, hs, Sum.elim_inl]⟩
  · obtain ⟨i, rfl⟩ := Nat.exists_eq_add_of_le h₁
    have hps : i < s.robPushSize D x := Nat.lt_of_add_lt_add_left h₂
    have hpush : s.rsPush D x i = true := by
      rw [robPushSize] at hps
      split_ifs at hps with hc
      · rw [rsPush, hc, ho.issueValid, decide_eq_true hps]
        rfl
      · exact absurd hps (Nat.not_lt_zero i)
    refine ⟨_, occ_of_push ho hp hf hpush, ?_⟩
    simp [numNext, src, hpush]

/-- **No instruction is lost.** -/
theorem covers_of_reach (h : (traced n D z).Reach (s, t)) :
    ∃ num, s.Place D t num ∧ s.Values t num ∧ s.Covers t num := by
  have : s.Inv D t ∧ ∃ num, s.Place D t num ∧ s.Values t num ∧ s.Covers t num := by
    refine h.inv (P := fun q => q.1.Inv D q.2 ∧ ∃ num, q.1.Place D q.2 num ∧ q.1.Values q.2 num ∧
      q.1.Covers q.2 num) ?_ ?_
    · have hi := inv_reset n D z
      obtain ⟨num, hp, hv⟩ := hi.place
      exact ⟨hi, num, hp, hv, fun m hm => absurd hm.2 (Nat.not_lt_zero m)⟩
    · rintro ⟨s, t⟩ x ⟨hi, num, hp, hv, hc⟩ hx
      refine ⟨hi.next hx.1, ?_⟩
      cases hf : s.flush D x with
      | true =>
          obtain ⟨hp', hv'⟩ : (s.next D x).Place D (t.next D s x) num ∧
            (s.next D x).Values (t.next D s x) num :=
            place_next_flush hf
          refine ⟨num, hp', hv', fun m hm => ?_⟩
          have hlt : m < (t.next D s x).log.tail := hm.2
          rw [(Trace.next_log_flush hf).2] at hlt
          exact absurd hlt (Nat.not_lt_zero m)
      | false =>
          exact ⟨_, Place.next hi.order hi.cmt hp hv hf, Values.next hi.order hi.cmt hp hv hx.1 hf,
            hc.next hi.order hp hf⟩
  exact this.2

/-! ### The work that is left -/

/-- What is left to do in lane `i`: each instruction takes a step out of the station, one out of the
execution pipe and one into the reorder buffer, and the station chooses before it gives. -/
def work (s : Backend n) (i : ℕ) : ℕ :=
  4 * (s.rs i).count + 2 * (s.ex i).buf.pending.toNat + (s.wb i).buf.pending.toNat +
    (!(s.rs i).hasRdyFf).toNat

/-- Something happens in lane `i`. -/
def Moves (D : ℕ) (s : Backend n) (x : BackendIn) (i : ℕ) : Prop :=
  s.roRsPop D x i = true ∨ s.wbLoad D x i = true ∨ (s.Occ (.wb i) ∧ s.wbReady D x i = true) ∨
    ((s.rs i).hasRdyFf = false ∧ ((s.next D x).rs i).hasRdyFf = true)

/-- The operands that are available are not busy. -/
theorem awake_of_srcAvail (hp : s.Place D t num) (hz : s.rn.busytable 0 = false) {i : ℕ} {a : Fin n}
    (hk : s.Occ (.rs i a)) (hsrc : s.rn.SrcAvail (t.ins (num (.rs i a)))) :
    ((s.rs i).item a).Awake s.rn.busytable := by
  obtain ⟨-, -, -, h₁, h₂, h₃, h₄⟩ := hp.holds _ hk
  have key : ∀ p, s.rn.Avail p → s.rn.busytable p = false := by
    rintro p (rfl | h)
    · exact hz
    · exact h
  refine ⟨fun h => ?_, fun h => ?_⟩
  · rw [show ((s.rs i).item a).prs1 = (s.rs i).prs1Rf a from rfl, h₁]
    exact key _ (hsrc.1 (h₃ ▸ h))
  · rw [show ((s.rs i).item a).prs2 = (s.rs i).prs2Rf a from rfl, h₂]
    exact key _ (hsrc.2 (h₄ ▸ h))

/-- A station that holds an instruction with its operands shows one in the next cycle. -/
theorem hasRdyFf_next (hf : s.flush D x = false) {i : ℕ} {a : Fin n} (hk : s.Occ (.rs i a))
    (hpop : ¬ (s.roRsPop D x i = true ∧ a = (s.rs i).rdyAddrFf))
    (ha : ((s.rs i).item a).Awake s.rn.busytable) : ((s.next D x).rs i).hasRdyFf = true := by
  have hv : (s.rs i).rdyVec (s.rsIn D x i) a = true := Rs.rdyVec_of_awake hk hpop ha
  change ((s.rs i).hasRdy (s.rsIn D x i) && !s.flush D x) = true
  rw [hf, Rs.hasRdy, priorityEncoderGs_of_mem hv]
  rfl

/-- The chosen instruction stays chosen until it leaves. -/
theorem hasRdyFf_stays (hp : s.Place D t num) (hz : s.rn.busytable 0 = false)
    (hf : s.flush D x = false) {i : ℕ}
    (hr : (s.rs i).hasRdyFf = true) (hpop : s.roRsPop D x i = false) :
    ((s.next D x).rs i).hasRdyFf = true := by
  obtain ⟨hk, -, -, -, -, -, hsrc⟩ := hp.rdy i hr
  refine hasRdyFf_next hf hk (fun h => ?_) (awake_of_srcAvail hp hz hk hsrc)
  rw [hpop] at h
  cases h.1

/-- A lane loses work in every cycle in which something happens in it, apart from what is pushed. -/
theorem work_next (ho : s.Order D t) (hp : s.Place D t num) (hz : s.rn.busytable 0 = false)
    (hf : s.flush D x = false) {i : ℕ} (hi : i < 2) :
    (s.next D x).work i ≤ s.work i + 4 * (s.rsPush D x i).toNat ∧
      (s.Moves D x i → (s.next D x).work i < s.work i + 4 * (s.rsPush D x i).toNat) := by
  have h₁ : ((s.next D x).rs i).count + (s.roRsPop D x i).toNat =
      (s.rs i).count + (s.rsPush D x i).toNat := by
    refine Rs.count_next (x := s.rsIn D x i) (fun h => ?_) (fun h => ?_) hf
    · exact (ready_of_issuePCe (rsPush_lt ho h).2.2).2 i hi
    · exact (hp.rdy i (Bool.and_eq_true_iff.1 h).1).1
  have h₂ : ((s.next D x).ex i).buf.pending.toNat + (s.wbLoad D x i).toNat =
      (s.ex i).buf.pending.toNat + (s.roRsPop D x i).toNat := by
    have := (s.ex i).buf.toNat_next (s.rs i).hasRdyFf (s.exReady D x i)
    rw [← hf] at this
    exact this
  have h₃ : ((s.next D x).wb i).buf.pending.toNat +
      ((s.wb i).buf.pending && s.wbReady D x i).toNat =
      (s.wb i).buf.pending.toNat + (s.wbLoad D x i).toNat := by
    have := (s.wb i).buf.toNat_next (s.ex i).buf.pending (s.wbReady D x i)
    rw [← hf] at this
    exact this
  have h₄ : (!((s.next D x).rs i).hasRdyFf).toNat ≤ (!(s.rs i).hasRdyFf).toNat +
      (s.roRsPop D x i).toNat := by
    cases hr : (s.rs i).hasRdyFf with
    | false =>
        have := (!((s.next D x).rs i).hasRdyFf).toNat_le
        simp only [Bool.not_false, Bool.toNat_true]
        omega
    | true =>
        cases hpop : s.roRsPop D x i with
        | false =>
            rw [hasRdyFf_stays hp hz hf hr hpop]
            exact Nat.zero_le _
        | true => exact Bool.toNat_le _
  have hw : (s.next D x).work i + (s.roRsPop D x i).toNat + (s.wbLoad D x i).toNat +
      ((s.wb i).buf.pending && s.wbReady D x i).toNat + (!(s.rs i).hasRdyFf).toNat +
        (s.roRsPop D x i).toNat =
      s.work i + 4 * (s.rsPush D x i).toNat + (!((s.next D x).rs i).hasRdyFf).toNat := by
    rw [work, work]
    omega
  refine ⟨by omega, ?_⟩
  rintro (h | h | ⟨h, h'⟩ | ⟨h, h'⟩)
  · rw [h] at hw h₄
    simp only [Bool.toNat_true] at hw h₄
    omega
  · rw [h] at hw
    simp only [Bool.toNat_true] at hw
    omega
  · rw [show (s.wb i).buf.pending = true from h, h'] at hw
    simp only [Bool.and_true, Bool.toNat_true] at hw
    omega
  · rw [h, h'] at hw
    simp only [Bool.not_false, Bool.not_true, Bool.toNat_true, Bool.toNat_false] at hw
    omega

/-! ### Something moves -/

/-- Where an instruction is behind its execution pipe, some instruction is written back: lane 0 is
only held up by an instruction that commits. -/
theorem moves_of_wb (ho : s.Order D t) (hc : s.cmt.Inv (s.rob.cmtValid 1 D 0) (s.head D 0))
    (hp : s.Place D t num)
    (hv : s.Values t num) (hpop : s.popSize D x = 0) {i : ℕ} (hk : s.Occ (.wb i)) :
    ∃ j < 2, s.Moves D x j := by
  have hzero : s.wbReady D x 0 = true := by
    rw [wbReady_zero]
    by_contra hne
    have := (lsuEpu_write ho hc hv (by simpa using hne)).2.2.1
    omega
  obtain ⟨hi, -⟩ := hp.holds _ hk
  obtain rfl | rfl : i = 0 ∨ i = 1 := by omega
  · exact ⟨0, hi, Or.inr (Or.inr (Or.inl ⟨hk, hzero⟩))⟩
  · by_cases hr : s.wbReady D x 1 = true
    · exact ⟨1, hi, Or.inr (Or.inr (Or.inl ⟨hk, hr⟩))⟩
    · -- the other lane writes back to the same bank
      have h₀ : s.Occ (.wb 0) := by
        have hrob : (s.robIn D x).wbReady 1 = false := by
          rw [wbReady, WbMux.wbReady, if_neg one_ne_zero] at hr
          simpa using hr
        by_contra hne
        have hv0 : (s.robIn D x).wbValid 0 = false := Bool.eq_false_of_not_eq_true hne
        simp [RobIn.wbReady, hv0] at hrob
      exact ⟨0, by omega, Or.inr (Or.inr (Or.inl ⟨h₀, hzero⟩))⟩

theorem moves_of_ex (ho : s.Order D t) (hc : s.cmt.Inv (s.rob.cmtValid 1 D 0) (s.head D 0))
    (hp : s.Place D t num)
    (hv : s.Values t num) (hpop : s.popSize D x = 0) {i : ℕ} (hk : s.Occ (.ex i)) :
    ∃ j < 2, s.Moves D x j := by
  obtain ⟨hi, -⟩ := hp.holds _ hk
  by_cases hw : s.Occ (.wb i)
  · exact moves_of_wb ho hc hp hv hpop hw
  · refine ⟨i, hi, Or.inr (Or.inl ?_)⟩
    have hb : (s.wb i).buf.pending = false := Bool.eq_false_of_not_eq_true hw
    rw [wbLoad, show (s.ex i).buf.pending = true from hk, exReady, WbStage.exReady,
      HdsBuf.aready, hb]
    rfl

theorem moves_of_rs (ho : s.Order D t) (hc : s.cmt.Inv (s.rob.cmtValid 1 D 0) (s.head D 0))
    (hp : s.Place D t num)
    (hv : s.Values t num) (hz : s.rn.busytable 0 = false) (hf : s.flush D x = false)
    (hpop : s.popSize D x = 0)
    {i : ℕ} {a : Fin n} (hk : s.Occ (.rs i a)) (hsrc : s.rn.SrcAvail (t.ins (num (.rs i a)))) :
    ∃ j < 2, s.Moves D x j := by
  obtain ⟨hi, -⟩ := hp.holds _ hk
  cases hr : (s.rs i).hasRdyFf with
  | false =>
      refine ⟨i, hi, Or.inr (Or.inr (Or.inr ⟨hr, ?_⟩))⟩
      refine hasRdyFf_next hf hk (fun h => ?_) (awake_of_srcAvail hp hz hk hsrc)
      rw [roRsPop, hr] at h
      cases h.1
  | true =>
      by_cases he : s.Occ (.ex i)
      · exact moves_of_ex ho hc hp hv hpop he
      · refine ⟨i, hi, Or.inl ?_⟩
        have hb : (s.ex i).buf.pending = false := Bool.eq_false_of_not_eq_true he
        rw [roRsPop, hr, roReady, ExStage.roReady, HdsBuf.aready, hb]
        rfl

/-- The oldest instruction reads architectural registers. -/
theorem Order.srcAvail_head (ho : s.Order D t) (hv : s.Values t num)
    (hl : t.log.head < t.log.tail) : s.rn.SrcAvail (t.ins t.log.head) := by
  obtain ⟨e₁, e₂⟩ := ho.src t.log.head le_rfl (lt_of_lt_of_le hl (Nat.le_add_right _ _))
  rw [Nat.sub_self] at e₁ e₂
  exact ⟨fun _ => e₁ ▸ hv.arat _, fun _ => e₂ ▸ hv.arat _⟩

/-- As long as the oldest instruction has not been written back something moves in every cycle. -/
theorem moves_of_head (ho : s.Order D t) (hc : s.cmt.Inv (s.rob.cmtValid 1 D 0) (s.head D 0))
    (hp : s.Place D t num) (hv : s.Values t num) (hcov : s.Covers t num)
    (hz : s.rn.busytable 0 = false)
    (hf : s.flush D x = false) (hpop : s.popSize D x = 0) (hl : t.log.head < t.log.tail)
    (hwb : (t.log.ent t.log.head).wb = none) : ∃ j < 2, s.Moves D x j := by
  obtain ⟨k, hk, hnum⟩ := hcov t.log.head ⟨le_rfl, hl⟩ hwb
  cases k with
  | rs i a =>
      refine moves_of_rs ho hc hp hv hz hf hpop hk ?_
      rw [hnum]
      exact ho.srcAvail_head hv hl
  | ex i => exact moves_of_ex ho hc hp hv hpop hk
  | wb i => exact moves_of_wb ho hc hp hv hpop hk

/-! ### The potential -/

/-- The work in the lanes, and what can still be pushed before the oldest instruction goes. -/
def potential (D : ℕ) (s : Backend n) (t : Trace) : ℕ :=
  5 * (2 * 2 ^ D - (t.log.tail - t.log.head)) + (s.work 0 + s.work 1)

/-- The reorder buffer holds at most `2 * 2 ^ D` instructions. -/
theorem Order.tail_le (ho : s.Order D t) : t.log.tail ≤ t.log.head + 2 * 2 ^ D := by
  have h₀ := ho.rob.fits 0 (by decide)
  have h₁ := ho.rob.fits 1 (by decide)
  simp only [Interleave.cnt] at h₀ h₁
  omega

/-- Each pushed instruction goes into the station of its lane. -/
theorem Order.rsPush_sum (ho : s.Order D t) :
    (s.rsPush D x 0).toNat + (s.rsPush D x 1).toNat = s.robPushSize D x := by
  have hsz := ho.size_le
  rw [rsPush, rsPush, robPushSize, ho.issueValid, ho.issueValid]
  cases s.issuePCe D x with
  | false => simp
  | true =>
      obtain h | h | h : s.rn.issuePushSize = 0 ∨ s.rn.issuePushSize = 1 ∨
          s.rn.issuePushSize = 2 := by
        omega
      all_goals simp [h]

/-- Of the 63 registers that can be free the committed map names at most 32, and the instructions in
flight at most 18 more: there are always two that are free. -/
theorem exists_two_free (ho : s.Order D t) (hD : D ≤ 3) :
    ∃ p q, p ≠ q ∧ s.rn.fl p = true ∧ s.rn.fl q = true := by
  obtain ⟨p, hp⟩ := exists_free ho hD
  by_contra hne
  push Not at hne
  have hcover : (Finset.univ : Finset PReg) ⊆ ({0, p} ∪ Finset.univ.image s.rn.arat) ∪
      (Finset.Ico t.log.head (s.nextNum t)).image fun m => (t.ins m).prd := by
    intro q _
    simp only [Finset.mem_union, Finset.mem_insert, Finset.mem_singleton, Finset.mem_image,
      Finset.mem_univ, true_and, Finset.mem_Ico]
    by_cases h0 : q = 0
    · exact Or.inl (Or.inl (Or.inl h0))
    · by_cases hpq : p = q
      · exact Or.inl (Or.inl (Or.inr hpq.symm))
      · have hq := mt (ho.chain.free_iff q).2 (hne p q hpq hp)
        rw [ho.chain.part.free_iff q h0] at hq
        by_cases ha : ∀ l, s.rn.arat l ≠ q
        · right
          have := mt (And.intro ha) hq
          push Not at this
          obtain ⟨m, h₁, h₂, -, h₄⟩ := this
          exact ⟨m, ⟨h₁, h₂⟩, h₄⟩
        · push Not at ha
          exact Or.inl (Or.inr ha)
  have hcard := Finset.card_le_card hcover
  have h₁ := Finset.card_union_le ({0, p} ∪ Finset.univ.image s.rn.arat)
    ((Finset.Ico t.log.head (s.nextNum t)).image fun m => (t.ins m).prd)
  have h₂ := Finset.card_union_le {0, p} (Finset.univ.image s.rn.arat)
  have h₃ : (Finset.univ.image s.rn.arat).card ≤ 32 := Finset.card_image_le
  have h₄ : ((Finset.Ico t.log.head (s.nextNum t)).image fun m => (t.ins m).prd).card ≤ 18 := by
    refine le_trans Finset.card_image_le ?_
    rw [Nat.card_Ico]
    have hn := ho.nextNum_le
    have h8 : 2 ^ D ≤ 2 ^ 3 := Nat.pow_le_pow_right (by decide) hD
    omega
  have h₅ : ({0, p} : Finset PReg).card ≤ 2 := Finset.card_le_two
  rw [Finset.card_univ, Fintype.card_fin] at hcard
  omega

/-- Rename only waits for the stations and for the reorder buffer. -/
theorem issuePCe_of_issueReady (ho : s.Order D t) (hD : D ≤ 3) (hr : s.issueReady D = true) :
    s.issuePCe D x = true := by
  obtain ⟨p, q, hpq, hp, hq⟩ := exists_two_free ho hD
  have hst : s.rn.flStallReq (s.rnIn D x) = false := Rename.flStallReq_of_two hp hq hpq
  have hr' : (s.rnIn D x).issueReady = true := hr
  simp [issuePCe, Rename.pCe, Rename.stallReq, hst, hr']

/-- **A cycle without a commit brings some instruction nearer** to the reorder buffer. -/
theorem potential_lt (hD : D ≤ 3) (h : (traced n D z).Reach (s, t)) (hx : x.Delivers)
    (hf : s.flush D x = false)
    (hpop : s.popSize D x = 0) (hl : t.log.head < s.nextNum t)
    (hval : s.rob.cmtValid 1 D 0 = false) :
    (s.next D x).potential D (t.next D s x) < s.potential D t := by
  obtain ⟨num, hp, hv, hcov⟩ := covers_of_reach h
  have hi := inv_of_reach h
  have hz := busytable_zero hD h
  have ho := hi.order
  have hle := ho.rob.le
  have htail := (ho.next hp hx hf).tail_le
  obtain ⟨w₀, m₀⟩ := work_next ho hp hz hf (i := 0) (by omega)
  obtain ⟨w₁, m₁⟩ := work_next ho hp hz hf (i := 1) (by omega)
  have hsum := ho.rsPush_sum (x := x)
  rw [Trace.next_head hf, Trace.next_tail hf, hpop, Nat.add_zero] at htail
  rw [potential, potential, Trace.next_head hf, Trace.next_tail hf, hpop, Nat.add_zero]
  by_cases he : t.log.head < t.log.tail
  · have hwb : (t.log.ent t.log.head).wb = none := by
      by_contra hne
      have : s.rob.cmtValid 1 D 0 = true := by
        rw [ho.rob.cmtValid_iff (by decide)]
        intro j hj
        obtain rfl : j = 0 := by omega
        exact ⟨he, Option.isSome_iff_ne_none.2 hne⟩
      rw [hval] at this
      cases this
    obtain ⟨j, hj, hm⟩ := moves_of_head ho hi.cmt hp hv hcov hz hf hpop he hwb
    obtain rfl | rfl : j = 0 ∨ j = 1 := by omega
    · have := m₀ hm
      omega
    · have := m₁ hm
      omega
  · -- the instructions in the issue registers are pushed
    have hpush : 0 < s.robPushSize D x := by
      have hce : s.issuePCe D x = true :=
        issuePCe_of_issueReady ho hD (issueReady_of_empty ho (by omega) fun i _ =>
          ⟨0, hi.freeVec (by omega) i 0⟩)
      rw [nextNum] at hl
      rw [robPushSize, hce, if_pos rfl]
      omega
    omega

/-! ### What happens in the end -/

/-- The oldest instruction is a barrier. -/
def Stuck (t : Trace) : Prop := t.log.head < t.log.tail ∧ (t.ins t.log.head).d.lsu.barr = true

/-- Something is committed or flushed in this cycle, or a barrier stands in the way. -/
def Happens (D : ℕ) (s : Backend n) (t : Trace) (x : BackendIn) : Prop :=
  0 < s.popSize D x ∨ s.flush D x = true ∨ Stuck t

theorem not_happens (h : ¬ s.Happens D t x) :
    s.popSize D x = 0 ∧ s.flush D x = false ∧ ¬ Stuck t := by
  simp only [Happens, not_or, Bool.not_eq_true] at h
  exact ⟨by omega, h.2⟩

/-- While nothing goes the instructions that are inside stay there. -/
theorem nextNum_le_next (hf : s.flush D x = false) :
    s.nextNum t ≤ (s.next D x).nextNum (t.next D s x) := by
  rw [nextNum_next hf]
  exact Nat.le_add_right _ _

section Runs

variable {q : Backend n × Trace} {xs : ℕ → BackendIn}

theorem after_succ (k : ℕ) : (traced n D z).after q xs (k + 1) =
    (((traced n D z).after q xs k).1.next D (xs k),
      ((traced n D z).after q xs k).2.next D ((traced n D z).after q xs k).1 (xs k)) := rfl

/-- The oldest instruction is written back in the end, if nothing else happens. -/
theorem leadsTo_valid (hD : D ≤ 3) (hq : (traced n D z).Reach q) (hx : (traced n D z).Runs q xs) :
    LeadsTo
      (fun k => ((traced n D z).after q xs k).2.log.head <
        ((traced n D z).after q xs k).1.nextNum ((traced n D z).after q xs k).2)
      fun k => ((traced n D z).after q xs k).1.Happens D ((traced n D z).after q xs k).2 (xs k) ∨
        ((traced n D z).after q xs k).1.rob.cmtValid 1 D 0 = true := by
  refine LeadsTo.of_rank
    (fun k => ((traced n D z).after q xs k).1.potential D ((traced n D z).after q xs k).2)
      fun k hk => ?_
  have hr : (traced n D z).Reach ((traced n D z).after q xs k) := hq.after hx k
  have hd : (xs k).Delivers := (hx k).1
  rw [after_succ]
  generalize (traced n D z).after q xs k = p at hk hr ⊢
  by_cases hh : p.1.Happens D p.2 (xs k)
  · exact Or.inl (Or.inl hh)
  · by_cases hv : p.1.rob.cmtValid 1 D 0 = true
    · exact Or.inl (Or.inr hv)
    · obtain ⟨hpop, hf, -⟩ := not_happens hh
      refine Or.inr
        (Or.inr ⟨?_, potential_lt hD hr hd hf hpop hk (Bool.eq_false_of_not_eq_true hv)⟩)
      rw [Trace.next_head hf, hpop, Nat.add_zero]
      exact lt_of_lt_of_le hk (nextNum_le_next hf)

/-- Then it goes in the end, if the units move again and again. -/
theorem leadsTo_happens (hq : (traced n D z).Reach q) (hx : (traced n D z).Runs q xs)
    (hce : ∃ᶠ k in atTop, ((traced n D z).after q xs k).1.cmt.pCeS1
      (((traced n D z).after q xs k).1.cmtIn D (xs k)) = true) :
    LeadsTo (fun k => ((traced n D z).after q xs k).1.rob.cmtValid 1 D 0 = true)
      fun k => ((traced n D z).after q xs k).1.Happens D ((traced n D z).after q xs k).2
      (xs k) := by
  refine LeadsTo.of_waits (fun k => ((traced n D z).after q xs k).1.cmt.rank) (fun _ => ())
    (fun _ k => ((traced n D z).after q xs k).1.cmt.pCeS1
      (((traced n D z).after q xs k).1.cmtIn D (xs k)) = true) (fun _ => hce) fun k hk => ?_
  have hr : (traced n D z).Reach ((traced n D z).after q xs k) := hq.after hx k
  have hd : (xs k).Delivers := (hx k).1
  rw [after_succ]
  generalize (traced n D z).after q xs k = p at hk hr ⊢
  by_cases hh : p.1.Happens D p.2 (xs k)
  · exact Or.inl hh
  · obtain ⟨hpop, hf, hst⟩ := not_happens hh
    obtain ⟨ho, hc, num, hp, hv⟩ := inv_of_reach hr
    have hval : (p.1.cmtIn D (xs k)).valid 0 = true := hk
    have hlive := (ho.ent_eq (i := 0) (by omega) hk).1
    have hpay := ho.head_pay (i := 0) (by omega) hlive.2
    rw [Nat.add_zero] at hlive hpay
    have hb : (p.1.head D 0).pay.lsu.barr = false := by
      rw [hpay]
      by_contra hne
      exact hst ⟨hlive.2, Bool.eq_true_of_not_eq_false hne⟩
    have hfire : p.1.fire D (xs k) 0 = false := by
      rw [fire_eq (by omega), hpop]
      rfl
    obtain ⟨h₁, h₂⟩ := Cmt.rank_next (x := p.1.cmtIn D (xs k)) hc (ho.head_wellFormed hv hk) hval
      hf hfire hb
    have hnext := (ho.head_stays hp hv hd hk hpop hf).1
    cases hcc : p.1.cmt.pCeS1 (p.1.cmtIn D (xs k)) with
    | true => exact Or.inr (Or.inr (Or.inl ⟨hnext, h₁ hcc⟩))
    | false => exact Or.inr (Or.inr (Or.inr ⟨hnext, h₂ hcc, rfl, Bool.false_ne_true⟩))

/-- **Something happens in the end**, as long as there is an instruction between rename and
commit. -/
theorem happens (hD : D ≤ 3) (hq : (traced n D z).Reach q) (hx : (traced n D z).Runs q xs)
    (hce : ∃ᶠ k in atTop, ((traced n D z).after q xs k).1.cmt.pCeS1
      (((traced n D z).after q xs k).1.cmtIn D (xs k)) = true) :
    LeadsTo
      (fun k => ((traced n D z).after q xs k).2.log.head <
        ((traced n D z).after q xs k).1.nextNum ((traced n D z).after q xs k).2)
      fun k => ((traced n D z).after q xs k).1.Happens D ((traced n D z).after q xs k).2 (xs k) :=
  (leadsTo_valid hD hq hx).trans ((LeadsTo.of_imp fun _ h => h).or (leadsTo_happens hq hx hce))

/-- **Every instruction that rename has taken is committed in the end**, or flushed, unless a
barrier stands in front of it. -/
theorem goes (hD : D ≤ 3) (hq : (traced n D z).Reach q) (hx : (traced n D z).Runs q xs)
    (hce : ∃ᶠ k in atTop, ((traced n D z).after q xs k).1.cmt.pCeS1
      (((traced n D z).after q xs k).1.cmtIn D (xs k)) = true) (m : ℕ) :
    LeadsTo
      (fun k => ((traced n D z).after q xs k).2.log.head ≤ m ∧
        m < ((traced n D z).after q xs k).1.nextNum ((traced n D z).after q xs k).2)
      fun k => ((traced n D z).after q xs k).1.flush D (xs k) = true ∨
        Stuck ((traced n D z).after q xs k).2 ∨ (((traced n D z).after q xs k).2.log.head ≤ m ∧
          m < ((traced n D z).after q xs k).2.log.head + ((traced n D z).after q xs k).1.popSize D
          (xs k)) := by
  refine LeadsTo.induct (fun k => m - ((traced n D z).after q xs k).2.log.head) fun a => ?_
  -- the instruction stays inside until something happens
  have hinside : LeadsTo
      (fun k => (((traced n D z).after q xs k).2.log.head ≤ m ∧
        m < ((traced n D z).after q xs k).1.nextNum ((traced n D z).after q xs k).2) ∧
          m - ((traced n D z).after q xs k).2.log.head = a)
      fun k => ((traced n D z).after q xs k).1.Happens D ((traced n D z).after q xs k).2 (xs k) :=
    (happens hD hq hx hce).mono (fun k hk => lt_of_le_of_lt hk.1.1 hk.1.2) fun _ h => h
  have hstay := hinside.and_of_stays ?_
  · intro k hk
    obtain ⟨j, hj, ⟨⟨hle, hlt⟩, ha⟩, hh⟩ := hstay k hk
    by_cases hf : ((traced n D z).after q xs j).1.flush D (xs j) = true
    · exact ⟨j, hj, Or.inl (Or.inl hf)⟩
    · rw [Bool.not_eq_true] at hf
      rcases hh with hpop | hfl | hst
      · by_cases hm : m < ((traced n D z).after q xs j).2.log.head +
          ((traced n D z).after q xs j).1.popSize D (xs j)
        · exact ⟨j, hj, Or.inl (Or.inr (Or.inr ⟨hle, hm⟩))⟩
        · refine ⟨j + 1, by omega, Or.inr ⟨⟨?_, ?_⟩, ?_⟩⟩
          · rw [after_succ, Trace.next_head hf]
            omega
          · exact lt_of_lt_of_le hlt (nextNum_le_next hf)
          · rw [after_succ, Trace.next_head hf]
            omega
      · rw [hf] at hfl
        cases hfl
      · exact ⟨j, hj, Or.inl (Or.inr (Or.inl hst))⟩
  · rintro k ⟨⟨hle, hlt⟩, ha⟩ hn
    obtain ⟨hpop, hf, -⟩ := not_happens hn
    have hhead : ((traced n D z).after q xs (k + 1)).2.log.head =
        ((traced n D z).after q xs k).2.log.head := by
      rw [after_succ, Trace.next_head hf, hpop, Nat.add_zero]
    rw [hhead]
    exact ⟨⟨hle, lt_of_lt_of_le hlt (nextNum_le_next hf)⟩, ha⟩

end Runs

/-- The instructions `ORI r1, r0, 0x44; STW [r0 + 4], r1; BEQ r1, r0, +8; ADD r2, r1, r1`. -/
def cycleWord (i : ℕ) : Word := [0x880061, 0x80301, 0x40201, 0x21142].getD i 0

/-- They are delivered two at a time, over and over, and nothing outside stalls. -/
def cycleIn (k : ℕ) : BackendIn :=
  { quietIn emptyInsn.d with
    rnValid := fun i => decide (i < 2)
    rnPushSize := 2
    rnInsn := fun i => idDec true (cycleWord (2 * (k % 2) + i)) false false false 0 noUpd }

/-- The back-end at work on them. -/
def cycled (k : ℕ) : Backend 4 × Trace :=
  (traced 4 3 emptyInsn).after (traced 4 3 emptyInsn).reset cycleIn k

theorem delivers_cycleIn (k : ℕ) : (cycleIn k).Delivers :=
  ⟨le_rfl, fun _ => rfl, fun _ _ => idDec_wellFormed _ _ _ _ _ _ _⟩

/-- The four of them commit, and the one with number 3, which rename has taken after two cycles,
goes. -/
theorem goes_cycled :
    ((∀ k < 16, (cycled k).1.flush 3 (cycleIn k) = false) ∧ (cycled 16).2.log.head = 5 ∧
      (cycled 16).1.archRegs 2 = 0x88) ∧
    ∃ j, 2 ≤ j ∧ ((cycled j).1.flush 3 (cycleIn j) = true ∨ Stuck (cycled j).2 ∨
      ((cycled j).2.log.head ≤ 3 ∧ 3 < (cycled j).2.log.head + (cycled j).1.popSize 3
        (cycleIn j))) := by
  refine ⟨by decide +kernel, goes (by decide) Machine.Reach.reset
    (fun k => ⟨delivers_cycleIn k, trivial⟩)
    (Frequently.of_forall fun k => ?_) 3 2 ⟨by decide +kernel, by decide +kernel⟩⟩
  simp [Cmt.pCeS1, Cmt.icinvStallReq, cmtIn, cycleIn, quietIn]

end Backend

end NanoCpu
