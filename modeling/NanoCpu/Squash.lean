/-
**Squashed instructions** (`rtl/core/ro.v`, `ex_pipe.v`, `issue_rs.v`, `rtl/general/hds_buf.v` and
the registers in front of them).

A flush empties every stage of the core at once, whatever is stalled in that cycle.  Afterwards
whatever writes the register file, changes the busy bit of a register that the map names, or changes
the flags of an entry of the reorder buffer is an instruction that has been fetched since: each
place holds an instruction that rename has numbered since the flush, and the word of that number was
asked for after the flush.

Main definitions:

* `Core.Emptied` — no stage holds an instruction;
* `Core.Fresh` — an instruction that was fetched after the last flush;
* `Core.Writes` — a write port carries the result of an instruction.

Main results:

* `Core.emptied_next_flush` — a flush empties the core;
* `Core.port_fresh`, `Core.busy_set_fresh`, `Core.busy_clear_fresh`, `Core.rob_fresh` — who causes
  what;
* `Core.no_squashed_effect` — squashed instructions have no effect.
-/

import NanoCpu.BusyTable
import NanoCpu.Core

set_option relaxedAutoImplicit false
set_option autoImplicit false
set_option linter.unusedSectionVars false

namespace NanoCpu

open Renaming

namespace Core

variable {n : ℕ} [NeZero n] {C : CoreCfg} {s : Core n} {x : CoreIn} {h : CoreLog}
  {pcRst : Pc} {u : Bpu} {w : IqWord} {z : RInsn}

/-! ### The empty core -/

/-- No stage from the prefetch buffer to commit holds an instruction. -/
structure Emptied (C : CoreCfg) (s : Core n) : Prop where
  buf : ∀ i < 2 ^ C.P, s.fe.buf.idValid C.P i = false
  id : ∀ i, s.id.rnValid i = false
  issue : ∀ i, s.be.rn.issueValid i = false
  place : ∀ k, ¬ s.be.Occ k
  rdy : ∀ i, (s.be.rs i).hasRdyFf = false
  rob : ∀ i < 2, s.be.rob.cmtValid 1 C.D i = false
  cmt : s.be.cmt.pending = false

theorem emptied_next_flush (hP : 1 ≤ C.P) (hr : (observed n C pcRst u w z).Reach (s, h))
    (hf : s.flush C x = true) : (s.next C x).Emptied C := by
  have hr' : (observed n C pcRst u w z).Reach (s.next C x, logNext C h s x) :=
    Machine.Reach.tick hr trivial
  obtain ⟨hl, ht, hi⟩ := feeds_of_reach hP hr'
  have hw := Frontend.fetches_of_reach hP hl
  have hv := Backend.inv_of_reach ht
  obtain ⟨hh, htl⟩ := Backend.Trace.next_log_flush (t := h.trace) hf
  have hocc : ∀ k, ¬ (s.next C x).be.Occ k := Backend.not_occ_next_flush hf
  have hcmt : ∀ i < 2, (s.next C x).be.rob.cmtValid 1 C.D i = false := by
    intro i hi2
    by_contra hne
    have hlt := (hv.order.ent_eq hi2 (Bool.eq_true_of_not_eq_false hne)).1.2
    have htl' : (logNext C h s x).trace.log.tail = 0 := htl
    omega
  refine ⟨fun i hi2 => ?_, fun i => ?_, ?_, hocc, fun i => ?_, hcmt, ?_⟩
  · by_contra hne
    have hlt := (hw.buf.valid_iff hi2).1 (Bool.eq_true_of_not_eq_false hne)
    have hpush : (logNext C h s x).log.pushed = 0 := by
      have hfe : (s.feIn C x).flush = true := hf
      simp [logNext, FetchLog.next, hfe]
    omega
  · simp [next, idNext, hf, ldff]
  · exact (Backend.rn_next_flush hf).2.1
  · obtain ⟨num, hp, -⟩ := hv.place
    by_contra hne
    exact hocc _ (hp.rdy i (Bool.eq_true_of_not_eq_false hne)).1
  · by_contra hne
    have := hv.cmt.valid (Bool.eq_true_of_not_eq_false hne)
    rw [hcmt 0 (by decide)] at this
    cases this

/-! ### Instructions since the flush -/

/-- Instruction `m` of the back-end is the `m`-th word that was pushed since the last flush, and
this word was asked for after the flush. -/
def Fresh (s : Core n) (h : CoreLog) (m : ℕ) : Prop :=
  m < s.be.nextNum h.trace ∧ (h.trace.ins m).d = (h.log.word m).decode true (h.irq m) ∧
    h.log.flushAt < h.log.wordAt m

theorem Feeds.fresh (hi : s.Feeds C h) (hw : s.fe.Fetches C.P C.F h.log) {m : ℕ}
    (hm : m < s.be.nextNum h.trace) : s.Fresh h m := by
  have hpop := hi.popped
  have hle := hw.buf.le
  exact ⟨hm, hi.renamed m hm, hw.word_fresh m (by omega)⟩

/-- Port `j` of the register file writes the result of instruction `m`: the stage behind execution
pipe `j` holds the instruction, or it is the oldest one and its unit writes. -/
def Writes (C : CoreCfg) (s : Core n) (h : CoreLog) (x : CoreIn) (j m : ℕ) : Prop :=
  (h.trace.ins m).d.lrdWe = true ∧
    (s.be.mux C.D (s.beIn x)).prfWaddr s.be.wb j = (h.trace.ins m).prd ∧
    ((s.be.Occ (.wb j) ∧ s.be.Holds C.D h.trace m (.wb j)) ∨
      (j = 0 ∧ m = h.trace.log.head ∧ s.be.cmt.prfWeLsuEpu (s.cmtIn C x) = true))

section Reach

variable (hP : 1 ≤ C.P) (hr : (observed n C pcRst u w z).Reach (s, h))

include hP hr

theorem fresh_of_lt {m : ℕ} (hm : m < s.be.nextNum h.trace) : s.Fresh h m := by
  obtain ⟨hl, -, hi⟩ := feeds_of_reach hP hr
  exact hi.fresh (Frontend.fetches_of_reach hP hl) hm

/-- Who writes the register file. -/
theorem port_fresh {j : ℕ} (hj : j < 2) (hwe : (s.be.mux C.D (s.beIn x)).prfWe s.be.wb j = true) :
    ∃ m, s.Fresh h m ∧ s.Writes C h x j m := by
  obtain ⟨-, ht, -⟩ := feeds_of_reach hP hr
  obtain ⟨ho, hc, num, hp, hv⟩ := Backend.inv_of_reach ht
  rcases Backend.port_cases ho hc hp hv hj hwe with ⟨hocc, hlrd, -, ha, -⟩ | ⟨rfl, hl, ha, -⟩
  · exact ⟨_, fresh_of_lt hP hr (Backend.lt_nextNum_of_live (hp.live _ hocc)), hlrd, ha,
      .inl ⟨hocc, hp.holds _ hocc⟩⟩
  · obtain ⟨-, -, -, hlive, hlrd, -, -⟩ := Backend.lsuEpu_write ho hc hv hl
    exact ⟨_, fresh_of_lt hP hr (Backend.lt_nextNum_of_live hlive), hlrd, ha, .inr ⟨rfl, rfl, hl⟩⟩

/-- Who clears a busy bit. -/
theorem busy_clear_fresh (hf : s.flush C x = false) {p : PReg} (hb : s.be.rn.busytable p = true)
    (hb' : (s.next C x).be.rn.busytable p = false) :
    ∃ j < 2, ∃ m, s.Fresh h m ∧ s.Writes C h x j m ∧ (h.trace.ins m).prd = p := by
  have hno : ¬ (s.next C x).be.rn.busytable p = true := by simp [hb']
  have hn := mt (Rename.next_busytable (s := s.be.rn) (x := s.be.rnIn C.D (s.beIn x)) hf p).2 hno
  push Not at hn
  obtain ⟨j, hj, hwe, ha⟩ := hn.2 hb
  obtain ⟨m, hm, hwr⟩ := port_fresh hP hr (x := x) hj hwe
  exact ⟨j, hj, m, hm, hwr, hwr.2.1.symm.trans ha⟩

/-- Who sets the busy bit of a register that the map names, before the edge or behind it: an
instruction that rename takes in this cycle and gives the register to. -/
theorem busy_set_fresh (hD : C.D ≤ 3) (hf : s.flush C x = false) {p : PReg}
    (hmap : ∃ l, s.be.rn.rat l = p ∨ (s.next C x).be.rn.rat l = p)
    (hb : s.be.rn.busytable p = false) (hb' : (s.next C x).be.rn.busytable p = true) :
    ∃ m, s.be.nextNum h.trace ≤ m ∧ (s.next C x).Fresh (logNext C h s x) m ∧
      ((logNext C h s x).trace.ins m).d.lrdWe = true ∧ ((logNext C h s x).trace.ins m).prd = p := by
  have hr' : (observed n C pcRst u w z).Reach (s.next C x, logNext C h s x) :=
    Machine.Reach.tick hr trivial
  obtain ⟨-, ht, -⟩ := feeds_of_reach hP hr
  obtain ⟨-, ht', -⟩ := feeds_of_reach hP hr'
  have hi := Backend.inv_of_reach ht
  have hi' := Backend.inv_of_reach ht'
  -- the register is one that the free list offers
  have hfree : s.be.rn.fl p = true := by
    rcases (Rename.next_busytable (s := s.be.rn) (x := s.be.rnIn C.D (s.beIn x)) hf p).1 hb' with
      ⟨j, -, -, rfl⟩ | ⟨hbt, -⟩
    · exact (Rename.flPrd_mem_or_zero j).resolve_right (Backend.flPrd_ne_zero hi.order hD j)
    · rw [hb] at hbt
      cases hbt
  have hp0 : p ≠ 0 := by
    rintro rfl
    exact hi.order.chain.not_free_zero hfree
  obtain ⟨l, hl | hl⟩ := hmap
  · -- the map names no free register
    have hfl := hi.order.fl_mapFrom (k := s.be.nextNum h.trace - h.trace.log.head)
      (by have := hi.order.chain.le; omega) l
    rw [← hi.order.chain.rat_eq, hl, hfree] at hfl
    cases hfl
  · have hrat := congrFun hi'.order.chain.rat_eq l
    rw [hl] at hrat
    rcases mapFrom_cases (fun m => ((logNext C h s x).trace.ins m).ren)
      (s.next C x).be.rn.arat (logNext C h s x).trace.log.head
      ((s.next C x).be.nextNum (logNext C h s x).trace - (logNext C h s x).trace.log.head) l with
      he | ⟨m, h₁, h₂, hwe, he⟩
    · -- a committed register is not busy
      obtain ⟨num, -, hv⟩ := hi'.place
      have hav := hv.arat l
      rw [← he, ← hrat] at hav
      rcases hav with h0 | h0
      · exact absurd h0 hp0
      · rw [hb'] at h0
        cases h0
    · have hle' := hi'.order.chain.le
      have hm : m < (s.next C x).be.nextNum (logNext C h s x).trace := by omega
      have hprd : ((logNext C h s x).trace.ins m).prd = p := (hrat.trans he).symm
      refine ⟨m, ?_, fresh_of_lt hP hr' hm, hwe, hprd⟩
      by_contra hlt
      have hold : (logNext C h s x).trace.ins m = h.trace.ins m :=
        Backend.Trace.next_ins_of_lt (by omega)
      have hhead : h.trace.log.head ≤ m := by
        have hh : (logNext C h s x).trace.log.head =
            h.trace.log.head + s.be.popSize C.D (s.beIn x) := Backend.Trace.next_head hf
        omega
      have hwe' : (h.trace.ins m).d.lrdWe = true := by
        rw [← hold]
        exact hwe
      have hfl := hi.order.fl_prd hhead (by omega) hwe'
      rw [← hold, hprd, hfree] at hfl
      cases hfl

/-- Who changes the flags or the operands of an entry of the reorder buffer: the instruction that is
pushed into the entry, or the one of the entry, which writes back. -/
theorem rob_fresh {c a : ℕ} (hc : c < 2)
    (hne : ¬ ((s.next C x).be.rob.bank c).SameAt (s.be.rob.bank c) a) :
    ∃ m, s.Fresh h m ∧ robBank 1 m = c ∧ robId 1 C.D m = a ∧
      ((∃ i < s.be.robPushSize C.D (s.beIn x), m = h.trace.log.tail + i) ∨
        ∃ j < 2, (s.be.robIn C.D (s.beIn x)).wbSel c j = true ∧ s.be.Occ (.wb j) ∧
          s.be.Holds C.D h.trace m (.wb j)) := by
  obtain ⟨-, ht, -⟩ := feeds_of_reach hP hr
  obtain ⟨ho, -, num, hp, -⟩ := Backend.inv_of_reach ht
  by_cases hpush : s.be.rob.tailR 1 c < s.be.robPushSize C.D (s.beIn x) ∧
      (s.be.rob.bank c).que.wptr C.D = a
  · obtain ⟨hlt, ha⟩ := hpush
    obtain ⟨hb, hid⟩ := ho.rob.wptr_eq hc
    rw [ho.rob.tailR_eq] at hlt
    have hsz : s.be.robPushSize C.D (s.beIn x) ≤ s.be.rn.issuePushSize := by
      rw [Backend.robPushSize]
      split_ifs
      · exact le_rfl
      · exact Nat.zero_le _
    exact ⟨_, fresh_of_lt hP hr (by rw [Backend.nextNum]; omega), hb, hid.symm.trans ha,
      .inl ⟨_, hlt, rfl⟩⟩
  · by_cases hwb : (s.be.robIn C.D (s.beIn x)).queWb 1 c = true ∧
        (s.be.robIn C.D (s.beIn x)).queWbId 1 c = a
    · obtain ⟨hq, ha⟩ := hwb
      have hex : ∃ j < 2 ^ 1, (s.be.robIn C.D (s.beIn x)).wbSel c j = true := by
        by_contra hno
        push Not at hno
        rw [RobIn.queWb_eq_false (P := 1) (by simpa using hno)] at hq
        cases hq
      obtain ⟨j, hj, hsel⟩ := hex
      rw [(RobIn.queWb_of_sel hj hsel).2.1] at ha
      have hocc : s.be.Occ (.wb j) := by
        simp only [RobIn.wbSel, Bool.and_eq_true] at hsel
        exact hsel.1.1
      have hbank : c = (s.be.wb j).robBank := by
        simp only [RobIn.wbSel, Bool.and_eq_true, beq_iff_eq] at hsel
        exact hsel.2
      have hlive := hp.live _ hocc
      obtain ⟨-, -, -, e₁, e₂, -⟩ := hp.holds _ hocc
      exact ⟨_, fresh_of_lt hP hr (Backend.lt_nextNum_of_live hlive), (hbank.trans e₂).symm,
        e₁.symm.trans ha, .inr ⟨j, hj, hsel, hocc, hp.holds _ hocc⟩⟩
    · -- neither reaches the entry
      refine absurd ?_ hne
      have htag : ∀ (wd : Bool) (tag : ℕ → Bool),
          Rob.tagNext (decide (s.be.rob.tailR 1 c < s.be.robPushSize C.D (s.beIn x)))
            ((s.be.rob.bank c).que.wptr C.D) ((s.be.robIn C.D (s.beIn x)).queWb 1 c)
            ((s.be.robIn C.D (s.beIn x)).queWbId 1 c) wd tag a = tag a := by
        intro wd tag
        rw [Rob.tagNext_apply, if_neg hwb, if_neg (by simpa using hpush)]
      refine ⟨htag _ _, htag _ _, htag _ _, ?_⟩
      change (if (s.be.robIn C.D (s.beIn x)).queWb 1 c = true then
        Function.update (s.be.rob.bank c).tagVbank ((s.be.robIn C.D (s.beIn x)).queWbId 1 c)
          ((s.be.robIn C.D (s.beIn x)).queWbVbank 1 c) else (s.be.rob.bank c).tagVbank) a = _
      split_ifs with hq
      · exact Function.update_of_ne (fun he => hwb ⟨hq, he.symm⟩) _ _
      · rfl

end Reach

/-- **No squashed instruction has an effect.**  A flush leaves no instruction anywhere in the core,
whatever was stalled.  In every cycle, what the register file is written with, what sets or clears
the busy bit of a register that the map names, and what changes the flags of the reorder buffer is
an instruction that was fetched after the last flush. -/
theorem no_squashed_effect (hP : 1 ≤ C.P) (hD : C.D ≤ 3)
    (hr : (observed n C pcRst u w z).Reach (s, h)) (x : CoreIn) :
    (s.flush C x = true → (s.next C x).Emptied C) ∧
      (∀ j < 2, (s.be.mux C.D (s.beIn x)).prfWe s.be.wb j = true →
        ∃ m, s.Fresh h m ∧ s.Writes C h x j m) ∧
      (s.flush C x = false → ∀ p, (∃ l, s.be.rn.rat l = p ∨ (s.next C x).be.rn.rat l = p) →
        (s.be.rn.busytable p = false → (s.next C x).be.rn.busytable p = true →
          ∃ m, s.be.nextNum h.trace ≤ m ∧ (s.next C x).Fresh (logNext C h s x) m ∧
            ((logNext C h s x).trace.ins m).d.lrdWe = true ∧
            ((logNext C h s x).trace.ins m).prd = p) ∧
        (s.be.rn.busytable p = true → (s.next C x).be.rn.busytable p = false →
          ∃ j < 2, ∃ m, s.Fresh h m ∧ s.Writes C h x j m ∧ (h.trace.ins m).prd = p)) ∧
      ∀ c < 2, ∀ a, ¬ ((s.next C x).be.rob.bank c).SameAt (s.be.rob.bank c) a →
        ∃ m, s.Fresh h m ∧ robBank 1 m = c ∧ robId 1 C.D m = a ∧
          ((∃ i < s.be.robPushSize C.D (s.beIn x), m = h.trace.log.tail + i) ∨
            ∃ j < 2, (s.be.robIn C.D (s.beIn x)).wbSel c j = true ∧ s.be.Occ (.wb j) ∧
              s.be.Holds C.D h.trace m (.wb j)) :=
  ⟨emptied_next_flush hP hr, fun _ hj hwe => port_fresh hP hr hj hwe,
    fun hf _ hmap => ⟨busy_set_fresh hP hr hD hf hmap, busy_clear_fresh hP hr hf⟩,
    fun _ hc _ hne => rob_fresh hP hr hc hne⟩

/-- The twelfth cycle of a program of jumps that are predicted not taken: the first one has gone,
and its flush finds the core full. -/
theorem no_squashed_effect_jmp :
    ∃ s h, (observed 4 chip 0xc000000 Frontend.bpuRst Frontend.emptyWord emptyInsn).Reach (s, h) ∧
      s.flush chip (s.memIn (fun _ => 0x1e5) 0) = true ∧ s.id.rnValid 0 = true ∧
      s.be.rn.issueValid 0 = true ∧
      (s.next chip (s.memIn (fun _ => 0x1e5) 0)).Emptied chip := by
  have hr := chipRun_reach (fun _ => 0x1e5) (fun _ => 0) 11
  have hd : ((chipRun (fun _ => 0x1e5) (fun _ => 0) 11).1.flush chip
      ((chipRun (fun _ => 0x1e5) (fun _ => 0) 11).1.memIn (fun _ => 0x1e5) 0),
      (chipRun (fun _ => 0x1e5) (fun _ => 0) 11).1.id.rnValid 0,
      (chipRun (fun _ => 0x1e5) (fun _ => 0) 11).1.be.rn.issueValid 0) = (true, true, true) := by
    decide +kernel
  simp only [Prod.mk.injEq] at hd
  exact ⟨_, _, hr, hd.1, hd.2.1, hd.2.2, (no_squashed_effect (by decide) (by decide) hr _).1 hd.1⟩

end Core

end NanoCpu
