/-
**The core never runs dry.**

The back-end finishes what it has been given (`BackendProgress`).  Here it is always given
something: when nothing is between rename and commit, the decoder hands over what it holds; when it
holds nothing it is loaded from the prefetch buffer; and when that is empty, too, each cycle in
which the I-cache does not stall brings the next window nearer.  So the core commits, raises an
exception or flushes again and again, unless a barrier stands in the way.

Main definitions:

* `Frontend.rank` — how far the next window is from the prefetch buffer;
* `Core.rank` — how far the next instruction is from rename;
* `Core.Halted` — a barrier stands in the way.

Main results:

* `Core.leadsTo_inside` — an empty back-end gets an instruction in the end;
* `Core.happens` — **something happens again and again**;
* `Core.events_of_happens` — and then the core commits or raises an exception.
-/

import NanoCpu.BackendProgress
import NanoCpu.FifoQueue
import NanoCpu.Prediction

set_option relaxedAutoImplicit false
set_option autoImplicit false
set_option linter.unusedSectionVars false

open Filter

namespace NanoCpu

/-! ### The next window -/

theorem popcnt_pos {f : ℕ → Bool} {n i : ℕ} (hi : i < n) (hf : f i = true) : 0 < popcnt f n :=
  List.countP_pos_iff.2 ⟨i, List.mem_range.2 hi, hf⟩

namespace Frontend

variable {P D p b : ℕ} {s : Frontend} {x : FrontendIn} {l : FetchLog}

/-- A window that is not empty hands something on: its first lane has nothing before it that could
be taken. -/
theorem Stage1.pushCnt_pos (h : s.Stage1 P) (ha : ∃ i < 2 ^ P, s.s1oFetchAligned i = true) :
    0 < s.s1oPushCnt P b := by
  obtain ⟨i, hi, hai⟩ := ha
  rcases h.aligned with hno | ⟨hal, -⟩
  · rw [hno i hi] at hai
    cases hai
  · refine popcnt_pos h.off_lt ?_
    have hm : s.validMsk b s.s1oPushOffset = true := by
      refine (validMsk_iff _).2 fun j hj => taken_of_not_aligned ?_
      rw [hal j (hj.trans h.off_lt), decide_eq_false (by omega)]
    rw [hal _ h.off_lt, hm]
    simp

/-- How many cycles the next window is away from the prefetch buffer. -/
def rank (P : ℕ) (s : Frontend) : ℕ :=
  if 0 < s.s2oPushCnt then 0 else if ∃ i < 2 ^ P, s.s1oFetchAligned i = true then 1 else 2

/-- The third stage is pushed when all stages move. -/
theorem Fetches.iqPushCnt_eq (h : s.Fetches P D l) (hc : s.pCe P D x = true) :
    s.iqPushCnt P D x = s.s2oPushCnt := by
  rw [iqPushCnt, hc, Bool.and_true]
  cases hv : s.icS2oValid with
  | true => rw [if_pos rfl]
  | false => rw [if_neg Bool.false_ne_true, h.s2_valid hv]

/-- Each cycle in which the stages move brings the next window nearer. -/
theorem Fetches.rank_next (h : s.Fetches P D l) (hf : x.flush = false) (hc : s.pCe P D x = true) :
    0 < s.iqPushCnt P D x ∨ (s.next P D p b x).rank P < s.rank P := by
  rw [h.iqPushCnt_eq hc]
  by_cases h2 : 0 < s.s2oPushCnt
  · exact Or.inl h2
  · right
    have hcnt : (s.next P D p b x).s2oPushCnt = s.s1oPushCnt P b := by
      simp [Frontend.next, hf, hc, ldff]
    rw [rank, rank, hcnt, if_neg h2]
    by_cases h1 : ∃ i < 2 ^ P, s.s1oFetchAligned i = true
    · rw [if_pos (h.s1.pushCnt_pos h1), if_pos h1]
      omega
    · -- the window that is asked for has at least its last lane
      have hpos := Nat.two_pow_pos P
      have hnew : ∃ i < 2 ^ P, (s.next P D p b x).s1oFetchAligned i = true := by
        refine ⟨2 ^ P - 1, by omega, ?_⟩
        have hlt : (s.pcNxt P D b x).toNat % 2 ^ P < 2 ^ P := Nat.mod_lt _ hpos
        have hal : s.s1iFetchAligned P D b x (2 ^ P - 1) = true := decide_eq_true (by omega)
        simp [Frontend.next, hf, hc, ldff, hal]
      rw [if_pos hnew, if_neg h1]
      split_ifs <;> omega

/-- Otherwise it stays where it is. -/
theorem rank_wait (hf : x.flush = false) (hc : s.pCe P D x = false) :
    (s.next P D p b x).rank P = s.rank P ∧ s.iqPushCnt P D x = 0 := by
  obtain ⟨-, e₂, -, -, e₅, -, -, -, -, e₀⟩ := next_of_not_pCe (p := p) (b := b) hf hc
  rw [rank, rank, e₂, e₅]
  exact ⟨rfl, e₀⟩

/-- An empty prefetch buffer has room. -/
theorem Fetches.ready_of_empty (h : s.Fetches P D l) (he : l.popped = l.pushed) :
    s.buf.ready P D = true := by
  rw [PrefetchBuf.ready, List.all_eq_true]
  intro a ha
  refine (h.buf.fifo a (List.mem_range.1 ha)).ready_of_lt ?_
  rw [he]
  exact Nat.lt_add_of_pos_right (Nat.two_pow_pos D)

end Frontend

/-! ### The next instruction -/

namespace Core

variable {n : ℕ} [NeZero n] {C : CoreCfg} {s : Core n} {x : CoreIn} {h : CoreLog} {pcRst : Pc}
  {u : Bpu} {w : IqWord} {z : RInsn}

/-- How far the next instruction is from rename: it is in the decoder, in the prefetch buffer or
before it. -/
def rank (C : CoreCfg) (s : Core n) (h : CoreLog) : ℕ :=
  if 0 < s.id.rnPushSize then 0 else if h.log.popped < h.log.pushed then 1 else 2 + s.fe.rank C.P

/-- An empty back-end takes what the decoder holds. -/
theorem idCe_of_empty (hD : C.D ≤ 3) (hi : s.be.Inv C.D h.trace)
    (he : h.trace.log.head = s.be.nextNum h.trace) : s.idCe C x = true := by
  have hle := hi.order.rob.le
  have ht : h.trace.log.head = h.trace.log.tail := by
    rw [Backend.nextNum] at he
    omega
  exact Backend.issuePCe_of_issueReady hi.order hD
    (Backend.issueReady_of_empty hi.order ht fun i _ => ⟨0, hi.freeVec ht i 0⟩)

/-- **A cycle with an empty back-end**: rename takes an instruction, or the next one comes nearer,
or the I-cache stalls. -/
theorem rank_next (hP : 1 ≤ C.P) (hD : C.D ≤ 3) (hr : (observed n C pcRst u w z).Reach (s, h))
    (he : h.trace.log.head = s.be.nextNum h.trace) (hf : s.flush C x = false)
    (hpop : s.be.popSize C.D (s.beIn x) = 0) :
    (logNext C h s x).trace.log.head < (s.next C x).be.nextNum (logNext C h s x).trace ∨
      (s.next C x).rank C (logNext C h s x) < s.rank C h ∨
      ((s.next C x).rank C (logNext C h s x) = s.rank C h ∧ x.icStall = true) := by
  obtain ⟨hl, ht, hfeed⟩ := feeds_of_reach hP hr
  have hw := Frontend.fetches_of_reach hP hl
  have hce := idCe_of_empty (x := x) hD (Backend.inv_of_reach ht) he
  have hfe : (s.feIn C x).flush = false := hf
  have hhead : (logNext C h s x).trace.log.head = h.trace.log.head := by
    change (h.trace.next C.D s.be (s.beIn x)).log.head = _
    rw [Backend.Trace.next_head hf, hpop, Nat.add_zero]
  have hnum : (s.next C x).be.nextNum (logNext C h s x).trace =
      s.be.nextNum h.trace + s.id.rnPushSize := by
    have hacc : s.be.accepted C.D (s.beIn x) = s.id.rnPushSize := by
      rw [accepted_eq, hce, if_pos rfl]
    rw [← hacc]
    exact Backend.nextNum_next hf
  by_cases hpush : 0 < s.id.rnPushSize
  · left
    omega
  · right
    have hsize : (s.next C x).id.rnPushSize = min (h.log.pushed - h.log.popped) 2 := by
      rw [← hw.idPopCnt_eq (x := s.feIn C x) hP hce]
      simp [next, idNext, hf, hce, ldff]
    by_cases hbuf : h.log.popped < h.log.pushed
    · left
      rw [rank, rank, if_pos (by omega), if_neg hpush, if_pos hbuf]
      omega
    · -- the buffer is empty, and the front-end moves unless the I-cache stalls
      have heq : h.log.popped = h.log.pushed := le_antisymm hw.buf.le (by omega)
      have hpopped : (logNext C h s x).log.popped = h.log.popped := by
        have hcnt := hw.idPopCnt_eq (x := s.feIn C x) hP hce
        have : (logNext C h s x).log.popped = h.log.popped + s.fe.idPopCnt C.P (s.feIn C x) := by
          simp [logNext, FetchLog.next, hfe]
        omega
      have hpushed : (logNext C h s x).log.pushed = h.log.pushed + s.fe.iqPushCnt C.P C.F
          (s.feIn C x) := by
        simp [logNext, FetchLog.next, hfe]
      have hpce : s.fe.pCe C.P C.F (s.feIn C x) = !x.icStall := by
        rw [Frontend.pCe, hw.ready_of_empty heq, Bool.and_true]
        rfl
      rw [rank, rank, if_neg (show ¬ 0 < (s.next C x).id.rnPushSize by omega), if_neg hpush,
        if_neg hbuf]
      cases hic : x.icStall with
      | true =>
          right
          rw [hic] at hpce
          obtain ⟨e₁, e₂⟩ := Frontend.rank_wait (p := C.p) (b := C.b) hfe hpce
          refine ⟨?_, rfl⟩
          rw [if_neg (by omega)]
          exact congrArg (2 + ·) e₁
      | false =>
          left
          rw [hic] at hpce
          rcases hw.rank_next (p := C.p) (b := C.b) hfe hpce with hpos | hlt
          · rw [if_pos (by omega)]
            omega
          · have hlt' : (s.next C x).fe.rank C.P < s.fe.rank C.P := hlt
            split_ifs <;> omega

/-! ### What happens in the end -/

section Runs

variable {q : Core n × CoreLog} {xs : ℕ → CoreIn}

/-- **An empty back-end gets an instruction in the end**, unless something else happens. -/
theorem leadsTo_inside (hP : 1 ≤ C.P) (hD : C.D ≤ 3) (hq : (observed n C pcRst u w z).Reach q)
    (hic : ∃ᶠ k in atTop, (xs k).icStall = false) :
    LeadsTo (fun _ => True) fun k =>
      let r := (observed n C pcRst u w z).after q xs k
      r.1.be.Happens C.D r.2.trace (r.1.beIn (xs k)) ∨
        r.2.trace.log.head < r.1.be.nextNum r.2.trace := by
  set M := observed n C pcRst u w z with hM
  refine LeadsTo.of_waits (fun k => (M.after q xs k).1.rank C (M.after q xs k).2) (fun _ => ())
    (fun _ k => (xs k).icStall = false) (fun _ => hic) fun k _ => ?_
  have hr : M.Reach (M.after q xs k) := hq.after (fun _ => trivial) k
  have hnext : M.after q xs (k + 1) = ((M.after q xs k).1.next C (xs k),
    logNext C (M.after q xs k).2 (M.after q xs k).1 (xs k)) := rfl
  dsimp only
  rw [hnext]
  generalize M.after q xs k = r at hr ⊢
  by_cases hin : r.2.trace.log.head < r.1.be.nextNum r.2.trace
  · exact Or.inl (Or.inr hin)
  · by_cases hh : r.1.be.Happens C.D r.2.trace (r.1.beIn (xs k))
    · exact Or.inl (Or.inl hh)
    · obtain ⟨hpop, hf, -⟩ := Backend.not_happens hh
      obtain ⟨-, ht, -⟩ := feeds_of_reach hP hr
      have hle := (Backend.inv_of_reach ht).order.rob.le
      have he : r.2.trace.log.head = r.1.be.nextNum r.2.trace := by
        rw [Backend.nextNum] at hin ⊢
        omega
      rcases rank_next hP hD hr he hf hpop with h₁ | h₁ | ⟨h₁, h₂⟩
      · exact Or.inr (Or.inl (Or.inr h₁))
      · exact Or.inr (Or.inr (Or.inl ⟨trivial, h₁⟩))
      · refine Or.inr (Or.inr (Or.inr ⟨trivial, h₁, rfl, ?_⟩))
        rw [h₂]
        exact Bool.true_eq_false_eq_False

/-- **Something happens again and again**: the core commits or flushes, or a barrier stands in the
way. -/
theorem happens (hP : 1 ≤ C.P) (hD : C.D ≤ 3) (hq : (observed n C pcRst u w z).Reach q)
    (hic : ∃ᶠ k in atTop, (xs k).icStall = false)
    (hce : ∃ᶠ k in atTop, ((observed n C pcRst u w z).after q xs k).1.be.cmt.pCeS1
      (((observed n C pcRst u w z).after q xs k).1.cmtIn C (xs k)) = true) :
    ∃ᶠ k in atTop, ((observed n C pcRst u w z).after q xs k).1.be.Happens C.D
      ((observed n C pcRst u w z).after q xs k).2.trace
      (((observed n C pcRst u w z).after q xs k).1.beIn (xs k)) := by
  have hinside := leadsTo_inside hP hD hq hic
  set M := observed n C pcRst u w z with hM
  -- the back-end goes through the states that it goes through alone
  have hmap := fun k => Machine.after_map (M := M) (N := Backend.traced n C.D z) (s := q) (x := xs)
    (fun r => (r.1.be, r.2.trace)) (fun r y => r.1.beIn y) (fun _ _ => rfl) k
  have hreach : ∀ k, M.Reach (M.after q xs k) := fun k => hq.after (fun _ => trivial) k
  have hbe := @Backend.happens n _ C.D z (q.1.be, q.2.trace)
    (fun k => (M.after q xs k).1.beIn (xs k)) hD (feeds_of_reach hP hq).2.1 (fun k => ?_) ?_
  · simp only [← hmap] at hbe
    exact (hinside.trans ((LeadsTo.of_imp fun _ h => h).or hbe)).frequently
  · rw [← hmap]
    exact ⟨(feeds_of_reach hP (hreach k)).2.2.delivers, trivial⟩
  · simp only [← hmap]
    exact hce

end Runs

/-! ### Commits and exceptions -/

/-- A flush by a commit follows that commit. -/
theorem fire_of_seFls_next (hse : (s.next C x).be.cmt.seFls = true) :
    s.be.fire C.D (s.beIn x) 0 = true := by
  have hn : (s.next C x).be.cmt.seFls = (s.be.cmt.next (s.cmtIn C x)).seFls := rfl
  rw [hn, Cmt.next] at hse
  change s.be.cmt.fire (s.cmtIn C x) 0 = true
  by_contra hne
  rw [Bool.not_eq_true] at hne
  cases hs : s.be.cmt.seFls <;> simp [hne, hs, ldff] at hse

/-- A barrier is the oldest instruction, and no flush is on its way to it. -/
def Halted (s : Core n) (h : CoreLog) : Prop := Backend.Stuck h.trace ∧ s.be.cmt.seFls = false

theorem events_ne_nil (hpos : 0 < s.be.popSize C.D (s.beIn x)) : events C s h x ≠ [] := by
  have hf : s.flush C x = false := by
    by_contra hne
    have := Backend.popSize_of_flush (s := s.be) (x := s.beIn x) (Bool.eq_true_of_not_eq_false hne)
    omega
  rw [events_of_move hf, Ne, List.map_eq_nil_iff, List.range_eq_nil]
  omega

/-- When something happens the core commits or raises an exception in this cycle or did so in the
cycle before. -/
theorem events_of_happens {y : CoreIn}
    (hh : (s.next C x).be.Happens C.D (logNext C h s x).trace ((s.next C x).beIn y)) :
    (s.next C x).Halted (logNext C h s x) ∨ events C s h x ≠ [] ∨
      events C (s.next C x) (logNext C h s x) y ≠ [] := by
  cases hse : (s.next C x).be.cmt.seFls with
  | true =>
      have hfire := fire_of_seFls_next hse
      rw [Backend.fire_eq (by omega), decide_eq_true_eq] at hfire
      exact Or.inr (Or.inl (events_ne_nil hfire))
  | false =>
      rcases hh with hpos | hf | hst
      · exact Or.inr (Or.inr (events_ne_nil hpos))
      · refine Or.inr (Or.inr ?_)
        have hf' : (s.next C x).flush C y = true := hf
        rw [events, if_pos hf', hse, if_neg Bool.false_ne_true]
        exact List.cons_ne_nil _ _
      · exact Or.inl ⟨hst, hse⟩

end Core

end NanoCpu
