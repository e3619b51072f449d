/-
**What an observer of the back-end sees.**

An observer writes down which instructions rename has taken since the last flush and commit has not
yet let go, and which instructions commit has let go so far.  He only looks at the ports of rename
and commit.  In these terms the back-end is a sequential machine, and its physical registers are
never lost or used twice.

Main definitions:

* `Watch`, `Watch.next`, `Backend.watched` — the observer;
* `committedMap` — the map that the committed instructions leave behind.

Main results:

* `Backend.watch_of_reach` — the observer sees what the trace records;
* `Backend.refines_sequential` — the architectural registers are those of sequential execution;
* `Backend.preg_conserved` — every physical register has exactly one use;
* `Backend.flush_exact` — a flush goes back to exactly what has been committed.
-/

import NanoCpu.Solo

set_option relaxedAutoImplicit false
set_option autoImplicit false
set_option linter.unusedSectionVars false

namespace NanoCpu

open Renaming

/-- The instructions between rename and commit, oldest first, and the committed ones, each with the
answer of the load/store unit and the exception unit. -/
structure Watch where
  window : List RInsn
  retired : List (RInsn × Word)

def Watch.reset : Watch := ⟨[], []⟩

variable {n : ℕ} [NeZero n]

/-- One cycle: rename takes instructions, commit lets the oldest ones go, a flush squashes the
rest. -/
def Watch.next (D : ℕ) (w : Watch) (s : Backend n) (x : BackendIn) : Watch where
  window := if s.flush D x then []
    else (w.window ++ (List.range (s.accepted D x)).map (s.rn.renamed (s.rnIn D x))).drop
      (s.popSize D x)
  retired := w.retired ++ (w.window.take (s.popSize D x)).map fun r =>
    (r, s.cmt.prfWdataLsuEpu (s.cmtIn D x))

/-- The map that the committed instructions leave behind. -/
def committedMap (l : List (RInsn × Word)) : LReg → PReg :=
  l.foldl (fun rat r => r.1.ren.map rat) fun _ => 0

namespace Backend

/-- The back-end with an observer. -/
def watched (n : ℕ) [NeZero n] (D : ℕ) (z : RInsn) : Machine (Backend n × Watch) BackendIn :=
  (machine n D z).observe Watch.reset (fun w s x => w.next D s x) fun _ _ _ => True

variable {D : ℕ} {s : Backend n} {t : Trace} {w : Watch} {x : BackendIn} {z : RInsn}

/-! ### The observer and the trace -/

/-- What the observer has written down, from the trace. -/
def watch (s : Backend n) (t : Trace) : Watch :=
  ⟨(List.range' t.log.head (s.nextNum t - t.log.head)).map t.ins, t.retired⟩

theorem watch_next (ho : s.Order D t) :
    (s.next D x).watch (t.next D s x) = (s.watch t).next D s x := by
  have hH : t.log.head ≤ s.nextNum t := ho.chain.le
  have hc := ho.head_popSize_le (x := x)
  have hT : t.log.tail ≤ s.nextNum t := Nat.le_add_right _ _
  have hret : (t.next D s x).retired = ((s.watch t).next D s x).retired := by
    change t.retired ++ _ = t.retired ++ _
    rw [watch, ← List.map_take, List.take_range'_of_length_ge (by omega), List.range'_eq_map_range]
    simp only [List.map_map]
    rfl
  have hwin : (List.range' (t.next D s x).log.head ((s.next D x).nextNum (t.next D s x) -
      (t.next D s x).log.head)).map (t.next D s x).ins = ((s.watch t).next D s x).window := by
    rw [Watch.next]
    cases hf : s.flush D x with
    | true =>
        rw [nextNum_next_flush hf, Nat.zero_sub]
        rfl
    | false =>
        have hsplit : (List.range' t.log.head (s.nextNum t + s.accepted D x - t.log.head)).map
            (t.next D s x).ins = (s.watch t).window ++
              (List.range (s.accepted D x)).map (s.rn.renamed (s.rnIn D x)) := by
          rw [show s.nextNum t + s.accepted D x - t.log.head =
              (s.nextNum t - t.log.head) + s.accepted D x by omega, ← List.range'_append_1,
            List.map_append, show t.log.head + (s.nextNum t - t.log.head) = s.nextNum t by omega]
          congr 1
          · refine List.map_congr_left fun m hm => ?_
            rw [List.mem_range'_1] at hm
            exact Trace.next_ins_of_lt (by omega)
          · rw [List.range'_eq_map_range, List.map_map]
            refine List.map_congr_left fun k hk => ?_
            exact Trace.next_ins_new hf (List.mem_range.1 hk)
        rw [nextNum_next hf, Trace.next_head hf, if_neg Bool.false_ne_true, ← hsplit,
          ← List.map_drop, List.drop_range', Nat.mul_one, Nat.sub_sub]
  rw [watch, hwin, hret]

/-- The observer sees what the trace records. -/
theorem watch_of_reach (h : (watched n D z).Reach (s, w)) :
    ∃ t, (traced n D z).Reach (s, t) ∧ w = s.watch t := by
  refine Machine.Reach.inv (P := fun q => ∃ t, (traced n D z).Reach (q.1, t) ∧ q.2 = q.1.watch t)
    ⟨Trace.reset z, Machine.Reach.reset, rfl⟩ ?_ h
  rintro ⟨s, w⟩ x ⟨t, ht, hw⟩ hx
  dsimp only at ht hw
  subst hw
  refine ⟨t.next D s x, Machine.Reach.tick ht hx, ?_⟩
  exact (watch_next (inv_of_reach ht).order).symm

theorem watched_of_traced (h : (traced n D z).Reach (s, t)) :
    (watched n D z).Reach (s, s.watch t) := by
  refine (Machine.Reach.inv (P := fun q => (traced n D z).Reach q ∧
    (watched n D z).Reach (q.1, q.1.watch q.2)) ⟨Machine.Reach.reset, Machine.Reach.reset⟩ ?_ h).2
  rintro ⟨s, t⟩ x ⟨ht, hw⟩ hx
  refine ⟨Machine.Reach.tick ht hx, ?_⟩
  change (watched n D z).Reach (s.next D x, (s.next D x).watch (t.next D s x))
  rw [watch_next (inv_of_reach ht).order]
  exact Machine.Reach.tick hw hx

theorem Empty.watched {R : List (RInsn × Word)} (h : s.Empty z D R t) :
    ∃ w, (watched n D z).Reach (s, w) ∧ w.retired = R :=
  ⟨s.watch t, watched_of_traced h.reach, h.retired⟩

/-- What is in the window. -/
theorem window_getElem (ho : s.Order D t) (i : ℕ) (r : RInsn) :
    (s.watch t).window[i]? = some r ↔ t.log.head + i < s.nextNum t ∧
      t.ins (t.log.head + i) = r := by
  have hH : t.log.head ≤ s.nextNum t := ho.chain.le
  rw [watch, List.getElem?_map, Option.map_eq_some_iff]
  constructor
  · rintro ⟨m, hm, rfl⟩
    obtain ⟨hi, he⟩ := List.getElem?_eq_some_iff.1 hm
    rw [List.getElem_range', Nat.one_mul] at he
    rw [List.length_range'] at hi
    exact ⟨by omega, by rw [he]⟩
  · rintro ⟨hi, rfl⟩
    refine ⟨t.log.head + i, List.getElem?_eq_some_iff.2 ⟨by rw [List.length_range']; omega, ?_⟩,
      rfl⟩
    rw [List.getElem_range', Nat.one_mul]

/-! ### The architectural map -/

/-- The architectural map is the one that the committed instructions leave behind. -/
theorem arat_eq (h : (traced n D z).Reach (s, t)) : s.rn.arat = committedMap t.retired := by
  have : s.Inv D t ∧ s.rn.arat = committedMap t.retired := by
    refine Machine.Reach.inv (P := fun q => q.1.Inv D q.2 ∧ q.1.rn.arat = committedMap q.2.retired)
      ⟨inv_reset n D z, rfl⟩ ?_ h
    rintro ⟨s, t⟩ x ⟨hi, ha⟩ hx
    refine ⟨Inv.next hi hx.1, ?_⟩
    change (s.next D x).rn.arat = committedMap (t.next D s x).retired
    have hc : t.log.head + s.popSize D x ≤ t.log.tail := hi.order.head_popSize_le
    have hT : t.log.tail ≤ s.nextNum t := Nat.le_add_right _ _
    rw [hi.order.next_arat, ha, Trace.next, committedMap, committedMap, List.foldl_append]
    generalize t.retired.foldl (fun rat r => r.1.ren.map rat) (fun _ => (0 : PReg)) = rat
    have hfold : ∀ k ≤ s.popSize D x,
        mapFrom (fun m => ((t.next D s x).ins m).ren) rat t.log.head k =
          ((List.range k).map fun i => (t.ins (t.log.head + i),
            s.cmt.prfWdataLsuEpu (s.cmtIn D x))).foldl (fun rat r => r.1.ren.map rat) rat := by
      intro k hk
      induction k with
      | zero => rfl
      | succ k ih =>
          rw [List.range_succ, List.map_append, List.foldl_append, ← ih (by omega), mapFrom,
            Trace.next_ins_of_lt (by omega)]
          rfl
    exact hfold _ le_rfl
  exact this.2

/-! ### The instruction behind a flush -/

/-- What a pending flush of a committed instruction goes back to: the instruction was the last one
to go, and failed its prediction or changed the state of the machine. -/
def FlushCause (s : Backend n) (l : List (RInsn × Word)) : Prop :=
  ∃ rest r a, l = rest ++ [(r, a)] ∧
    let o := r.d.exec (seqRun (rest.map retiredOf))
    s.cmt.seTgt = (if o.fls then o.seTgt else r.d.pc + 1) ∧ (o.fls = true ∨ r.d.epu.wmsr = true)

/-- An instruction behind which commit will flush goes alone. -/
theorem flush_ahead (h : s.Inv D t) (hs : (s.next D x).cmt.seFls = true) :
    let r := t.ins t.log.head
    let o := r.d.exec s.archRegs
    s.popSize D x = 1 ∧ (s.next D x).cmt.seTgt = (if o.fls then o.seTgt else r.d.pc + 1) ∧
      (o.fls = true ∨ r.d.epu.wmsr = true) := by
  have hs' : ldff (s.fire D x 0 || s.cmt.seFls)
      (((s.head D 0).fls || s.cmt.epu.refetch (s.cmt.epuIn (s.cmtIn D x))) && !s.cmt.seFls)
      s.cmt.seFls = true := hs
  have hfire : s.fire D x 0 = true ∧
      ((s.head D 0).fls || s.cmt.epu.refetch (s.cmt.epuIn (s.cmtIn D x))) = true := by
    cases hf : s.fire D x 0 <;> cases hse : s.cmt.seFls <;> rw [hf, hse] at hs' <;>
      simp [ldff] at hs'
    exact ⟨rfl, by simpa using hs'⟩
  obtain ⟨hfire, hcause⟩ := hfire
  have hval : s.rob.cmtValid 1 D 0 = true := Cmt.valid_of_fire (x := s.cmtIn D x) hfire
  obtain ⟨hpay, hfls, -, hvb⟩ := h.head_exec hval
  have hpend : s.cmt.epu.refetch (s.cmt.epuIn (s.cmtIn D x)) = true →
      (t.ins t.log.head).d.epu.wmsr = true ∧ s.cmt.pending = true := by
    intro hr
    simp only [Epu.refetch, Bool.and_eq_true] at hr
    have hp : s.cmt.pending = true := by
      by_contra hne
      rw [(h.cmt.quiet (by simpa using hne)).refetch] at hr
      exact Bool.noConfusion hr.2
    obtain ⟨g, hg⟩ := h.cmt.flight hp
    have hr' := hg.refetch
    rw [hr.2] at hr'
    have hr' := hr'.symm
    rw [Bool.and_eq_true] at hr'
    obtain ⟨b, -, -, hb⟩ := EpuReq.wmsrWe_any (EpuReq.s1Refetch_wmsrWe hr'.2)
    simp only [EpuReq.wmsr, CmtHead.epuReq, Bool.and_eq_true] at hb
    refine ⟨?_, hp⟩
    have := hb.1.2
    rw [hpay] at this
    exact this
  -- it goes alone
  have hone : s.fire D x 1 = false := by
    by_contra hne
    have h1 := Cmt.single_of_fire_one (x := s.cmtIn D x) (Bool.eq_true_of_not_eq_false hne)
    rcases Bool.or_eq_true_iff.1 hcause with hc | hc
    · have := h1.1
      simp only [Cmt.singleFu, Bool.or_eq_false_iff] at this
      rw [show ((s.cmtIn D x).head 0).fls = (s.head D 0).fls from rfl, hc] at this
      exact Bool.noConfusion this.1.2
    · have hn := Cmt.needsPipe_of_single
        (Cmt.seFls_of_not_flush (Cmt.flush_of_fire (x := s.cmtIn D x) hfire)) h1.1
      rw [show (s.cmtIn D x).head 0 = s.head D 0 from rfl, h.cmt.needs (hpend hc).2] at hn
      cases hn
  refine ⟨?_, ?_, ?_⟩
  · have h0 : s.cmt.fire (s.cmtIn D x) 0 = true := hfire
    have h1 : s.cmt.fire (s.cmtIn D x) 1 = false := hone
    simp [popSize, Cmt.popSize, h0, h1]
  · change ldff (s.fire D x 0)
      (if (s.head D 0).fls then (s.head D 0).vbank.flsTgt else (s.head D 0).pay.pc + 1)
        s.cmt.seTgt = _
    rw [hfire, ldff_true, hfls, hvb, hpay]
    rfl
  · rcases Bool.or_eq_true_iff.1 hcause with hc | hc
    · left
      rw [← hfls]
      exact hc
    · exact Or.inr (hpend hc).1

theorem flushCause_next (h : s.Inv D t) (ha : s.archRegs = seqRun (t.retired.map retiredOf))
    (hs : (s.next D x).cmt.seFls = true) : (s.next D x).FlushCause (t.next D s x).retired := by
  obtain ⟨hpop, htgt, hcause⟩ := flush_ahead h hs
  refine ⟨t.retired, t.ins t.log.head, s.cmt.prfWdataLsuEpu (s.cmtIn D x), ?_, ?_, ?_⟩
  · rw [Trace.next, hpop]
    rfl
  · rw [htgt, ha]
  · rw [← ha]
    exact hcause

theorem flushCause_of_reach (h : (traced n D z).Reach (s, t)) (hs : s.cmt.seFls = true) :
    s.FlushCause t.retired := by
  have : ((traced n D z).Reach (s, t) ∧ (s.cmt.seFls = true → s.FlushCause t.retired)) := by
    refine Machine.Reach.inv (P := fun q => (traced n D z).Reach q ∧
      (q.1.cmt.seFls = true → q.1.FlushCause q.2.retired)) ⟨Machine.Reach.reset, ?_⟩ ?_ h
    · intro hs
      cases hs
    · rintro ⟨s, t⟩ x ⟨hr, -⟩ hx
      exact ⟨Machine.Reach.tick hr hx,
        fun hs => flushCause_next (inv_of_reach hr) (archRegs_eq hr) hs⟩
  exact this.2 hs

/-! ### The results -/

/-- **The back-end refines sequential execution.**  For every stream of instructions, and whatever
the surroundings do, the architectural registers are those of a machine that executes the committed
instructions one at a time; these are taken, in order, from the instructions that rename was given,
and where none of them is a load or an MSR read only the execution pipe has a say in the results. -/
theorem refines_sequential (h : (watched n D z).Reach (s, w)) :
    s.archRegs = seqRun (w.retired.map retiredOf) ∧
      (∀ ans, (∀ r ∈ w.retired, r.1.d.isMem = false) →
        s.archRegs = seqRun (w.retired.map fun r => ⟨r.1.d, ans⟩)) ∧
      ∀ x i, i < 2 → s.fire D x i = true →
        ∃ r, w.window[i]? = some r ∧ (s.head D i).pay = r.pay := by
  obtain ⟨t, ht, rfl⟩ := watch_of_reach h
  have hi := inv_of_reach ht
  have ha := archRegs_eq ht
  refine ⟨ha, fun ans hm => ?_, fun x i hi2 hf => ?_⟩
  · rw [ha, seqRun, seqFrom_of_not_isMem ans]
    · rw [List.map_map]
      rfl
    · intro r hr
      obtain ⟨r', hr', rfl⟩ := List.mem_map.1 hr
      exact hm r' hr'
  · have hval : s.rob.cmtValid 1 D i = true := Cmt.valid_of_fire (x := s.cmtIn D x) hf
    have hlive := (hi.order.ent_eq hi2 hval).1
    exact ⟨t.ins (t.log.head + i),
      (window_getElem hi.order i _).2 ⟨lt_nextNum_of_live hlive, rfl⟩,
        hi.order.head_pay hi2 hlive.2⟩

/-- The instruction word `0x86e1`, which loads the upper half of register 1. -/
def mhi : DecInsn := idDec true 0x86e1 false false false 0 noUpd

/-- The run of `mhi` alone, after which it is the only committed instruction. -/
theorem refines_sequential_mhi :
    ∃ s w, (watched 4 3 emptyInsn).Reach (s, w) ∧ w.retired.map (fun r => r.1.d) = [mhi] ∧
      s.archRegs 1 = 0x8000 := by
  have hwf : mhi.WellFormed := idDec_wellFormed _ _ _ _ _ _ _
  have h := solo_ready 4 3 emptyInsn (f := emptyInsn.d) hwf (by decide)
  obtain ⟨r, a, hd, he, -⟩ := h.next (by decide) (quietIn_quiet (f := emptyInsn.d) (by decide))
  obtain ⟨w, hw, hret⟩ := he.watched
  refine ⟨_, w, hw, ?_, ?_⟩
  · rw [hret, ← hd]
    rfl
  · rw [(refines_sequential hw).1, hret]
    change r.d.step (fun _ => 0) a 1 = 0x8000
    rw [hd, DecInsn.step_of_not_isMem (by decide) _ a 0]
    decide

/-- **Every physical register has exactly one use.**  Beside zero, a register is free, or it is what
the map names for exactly one logical register, or exactly one instruction between rename and commit
will free it.  These instructions are those in the reorder buffer, then those in the issue
registers; and what rename hands out is free. -/
theorem preg_conserved (h : (watched n D z).Reach (s, w)) :
    (∀ p, p ≠ 0 → PlaceClass (s.rn.fl p = true) (fun l => s.rn.rat l = p)
      fun i => ∃ r, w.window[i]? = some r ∧ r.d.lrdWe = true ∧ r.pfree = p) ∧
    (∃ log : RobLog RobPay, s.rob.Rep 1 D log ∧
      w.window.map RInsn.pay =
        (List.range' log.head (log.tail - log.head)).map (fun m => (log.ent m).payload) ++
          (List.range s.rn.issuePushSize).map fun i => (s.rn.issue i).pay) ∧
    ∀ x : BackendIn, x.Delivers → ∀ k < s.accepted D x, (x.rnInsn k).lrdWe = true →
      s.rn.fl (s.rn.flPrd k) = true ∧ s.rn.flPrd k ≠ 0 ∧
        ∀ j < s.accepted D x, (x.rnInsn j).lrdWe = true → s.rn.flPrd j = s.rn.flPrd k → j = k := by
  obtain ⟨t, ht, rfl⟩ := watch_of_reach h
  have ho := (inv_of_reach ht).order
  have hH : t.log.head ≤ t.log.tail := ho.rob.le
  refine ⟨fun p hp => ?_, ⟨t.log, ho.rob, ?_⟩, fun x hx k hk hw => ?_⟩
  · refine PlaceClass.shift (H := t.log.head) (ho.chain.classes p hp) (fun m hm => hm.1) fun i => ?_
    constructor
    · rintro ⟨r, hr, hw, hpf⟩
      obtain ⟨hlt, rfl⟩ := (window_getElem ho i r).1 hr
      exact ⟨Nat.le_add_right _ _, hlt, hw, hpf⟩
    · rintro ⟨-, hlt, hw, hpf⟩
      exact ⟨_, (window_getElem ho i _).2 ⟨hlt, rfl⟩, hw, hpf⟩
  · rw [watch, nextNum, show t.log.tail + s.rn.issuePushSize - t.log.head =
      (t.log.tail - t.log.head) + s.rn.issuePushSize by omega, ← List.range'_append_1,
        List.map_append,
      List.map_append, show t.log.head + (t.log.tail - t.log.head) = t.log.tail by omega]
    congr 1
    · rw [List.map_map]
      refine List.map_congr_left fun m hm => ?_
      rw [List.mem_range'_1] at hm
      exact (ho.pay m ⟨hm.1, by omega⟩).symm
    · rw [List.range'_eq_map_range, List.map_map, List.map_map]
      refine List.map_congr_left fun i hi => ?_
      exact congrArg RInsn.pay (ho.issue i (List.mem_range.1 hi)).symm
  · have hle := accepted_le (s := s) (D := D) hx
    have hpce : s.rn.pCe (s.rnIn D x) = true := by
      by_contra hne
      simp [accepted, Rename.accepted, hne] at hk
    have hgs : ∀ j < s.accepted D x, (x.rnInsn j).lrdWe = true → s.rn.gs j = true :=
      fun j hj hwj => Rename.gs_of_pCe hpce (by omega) hwj
    have hfree := Rename.flPrd_mem (hgs k hk hw)
    refine ⟨hfree, fun h0 => ?_, fun j hj hwj he => ?_⟩
    · rw [h0] at hfree
      exact ho.chain.not_free_zero hfree
    · by_contra hne
      have h1 : s.rn.flPrd 1 = s.rn.flPrd 0 := by
        obtain ⟨rfl, rfl⟩ | ⟨rfl, rfl⟩ : (j = 0 ∧ k = 1) ∨ (j = 1 ∧ k = 0) := by omega
        · exact he.symm
        · exact he
      have hg1 : s.rn.gs 1 = true := by
        obtain rfl | rfl : j = 1 ∨ k = 1 := by omega
        · exact hgs _ hj hwj
        · exact hgs _ hk hw
      exact Rename.flPrd_ne hg1 h1

/-- The same run one cycle earlier, with `mhi` between rename and commit. -/
theorem preg_conserved_mhi :
    ∃ s w, (watched 4 3 emptyInsn).Reach (s, w) ∧ w.window.length = 1 ∧
      PlaceClass (s.rn.fl 1 = true) (fun l => s.rn.rat l = 1)
        fun i => ∃ r, w.window[i]? = some r ∧ r.d.lrdWe = true ∧ r.pfree = 1 := by
  have hwf : mhi.WellFormed := idDec_wellFormed _ _ _ _ _ _ _
  have h := (solo_ready 4 3 emptyInsn (f := emptyInsn.d) hwf (by decide)).solo
  have hw := watched_of_traced h.reach
  refine ⟨_, _, hw, ?_, (preg_conserved hw).1 1 (by decide)⟩
  rw [watch, List.length_map, List.length_range', nextNum]
  have h₁ := h.tail
  have h₂ := h.size
  omega

/-- **A flush goes back to exactly what has been committed.**  This is for every flush, whether a
committed instruction has raised it (then that instruction is the last one committed) or an
exception. -/
theorem flush_exact (h : (watched n D z).Reach (s, w)) (hx : x.Delivers) (hf : s.flush D x = true) :
    let s' := s.next D x
    let w' := w.next D s x
    s'.rn.rat = s'.rn.arat ∧ s'.rn.fl = s'.rn.afl ∧
      (∀ l l', s'.rn.arat l = s'.rn.arat l' → s'.rn.arat l ≠ 0 → l = l') ∧
      (∀ p, p ≠ 0 → (s'.rn.fl p = true ↔ ∀ l, s'.rn.arat l ≠ p)) ∧
      w'.retired = w.retired ∧ s'.rn.arat = committedMap w.retired ∧
      s'.archRegs = seqRun (w.retired.map retiredOf) ∧
      (s.cmt.seFls = true → s.FlushCause w.retired) ∧
      w'.window = [] ∧ (∀ i, s'.rn.issueValid i = false) ∧ (∀ k, ¬ s'.Occ k) ∧
      ∀ i < 2, s'.rob.cmtValid 1 D i = false := by
  obtain ⟨t, ht, rfl⟩ := watch_of_reach h
  have ht' : (traced n D z).Reach (s.next D x, t.next D s x) := Machine.Reach.tick ht ⟨hx, trivial⟩
  have hi := inv_of_reach ht
  have hi' := inv_of_reach ht'
  obtain ⟨-, h₂, h₃, h₄, -⟩ := rn_next_flush hf
  obtain ⟨hh, htl⟩ := Trace.next_log_flush (t := t) hf
  obtain ⟨ha, hb⟩ := hi.order.arch_next_flush hf
  have hret : (t.next D s x).retired = t.retired := by simp [Trace.next, popSize_of_flush hf]
  refine ⟨h₃.trans ha.symm, h₄.trans hb.symm, hi'.order.chain.part.inj, ?_, ?_, ?_, ?_,
    fun hs => flushCause_of_reach ht hs, ?_, h₂, not_occ_next_flush hf, ?_⟩
  · intro p hp
    rw [h₄.trans hb.symm]
    exact hi'.order.chain.part.free_iff p hp
  · rw [← watch_next hi.order]
    exact hret
  · rw [arat_eq ht', hret]
    rfl
  · rw [archRegs_eq ht', hret]
    rfl
  · simp [Watch.next, hf]
  · intro i hi2
    by_contra hne
    have := (hi'.order.ent_eq hi2 (Bool.eq_true_of_not_eq_false hne)).1.2
    omega

/-- The instruction word `0x1e5`, a jump by five words that writes the link register. -/
def jmpLink : DecInsn := idDec true 0x1e5 false false false 0 noUpd

/-- The run of `jmpLink` alone, predicted not taken; after the flush its link register is there. -/
theorem flush_exact_jmpLink :
    ∃ s w, (watched 4 3 emptyInsn).Reach (s, w) ∧ s.flush 3 (quietIn emptyInsn.d) = true ∧
      (s.next 3 (quietIn emptyInsn.d)).archRegs regnoLnk = 4 := by
  have hwf : jmpLink.WellFormed := idDec_wellFormed _ _ _ _ _ _ _
  have hq : (quietIn emptyInsn.d).Quiet := quietIn_quiet (by decide)
  have h := solo_ready 4 3 emptyInsn (f := emptyInsn.d) hwf (by decide)
  obtain ⟨r, a, hd, he, -, hs⟩ := h.next (by decide) hq
  have hfls : (jmpLink.exec (seqRun ([].map retiredOf))).fls = true := by
    have h₁ : jmpLink.lrs1Re = false ∧ jmpLink.lrs2Re = false := by decide
    rw [DecInsn.exec, DecInsn.operand1, DecInsn.operand2, h₁.1, h₁.2,
      if_neg Bool.false_ne_true, if_neg Bool.false_ne_true]
    decide
  rw [hfls] at hs
  have hf : ((solo 4 3 emptyInsn jmpLink emptyInsn.d 6).1.next 3 (quietIn emptyInsn.d)).flush 3
      (quietIn emptyInsn.d) = true := by
    rw [flush, Cmt.flush, hs, Bool.true_or]
  obtain ⟨w, hw, hret⟩ := he.watched
  refine ⟨_, w, hw, hf, ?_⟩
  have hregs := (flush_exact hw hq.delivers hf).2.2.2.2.2.2.1
  refine (congrFun hregs regnoLnk).trans ?_
  rw [hret]
  change r.d.step (fun _ => 0) a regnoLnk = 4
  rw [hd, DecInsn.step_of_not_isMem (by decide) _ a 0]
  decide

end Backend

end NanoCpu
