/-
**Branch prediction is invisible** (`rtl/core/ex_pipe.v`, `ex_bru.v`, `cmt.v`, `bpu.v`).

A program is executed one instruction after the other.  What the instructions themselves do not
decide is answered from outside: the results of loads and of reads of MSRs, and whether an exception
is taken and where to.  With the same answers the core commits the same instructions with the same
results, whatever the branch predictor holds, because a prediction that leads to a wrong address is
flushed, and the flush goes to the right one.  What the units show to an instruction that does not
ask is no answer, and may differ.  The converse does not hold: a branch to the instruction behind it
is flushed if it is not predicted.  And an answer may depend on the predictor, as a timer does that
is read.

Main definitions:

* `Program`, `Event`, `Answer`, `Program.path` — a program, what is seen of it, and its path;
* `DecInsn.asks`, `Event.Gets` — which instructions ask, and whether an answer is what an event has
  got;
* `Core.events`, `Core.running` — what commit does, and the core on a program.

Main results:

* `Core.goes_on` — an instruction that commits without a flush goes on where it was predicted to;
* `Core.path_of_reach` — what is committed is the path of the program;
* `Core.prediction_invisible` — so it is the same for any two predictors;
* `Core.prediction_visible` — what is not true of it.
-/

import NanoCpu.BpuTraining
import NanoCpu.Timer
import NanoCpu.Watch

set_option relaxedAutoImplicit false
set_option autoImplicit false
set_option linter.unusedSectionVars false

namespace NanoCpu

/-! ### The path of a program -/

/-- The instruction words at the addresses. -/
abbrev Program := Pc → BitVec 32

/-- The instruction without its prediction. -/
def DecInsn.plain (d : DecInsn) : DecInsn := { d with bpuUpd := noUpd }

@[simp] theorem DecInsn.plain_nextPc (d : DecInsn) (regs : LReg → Word) :
    d.plain.nextPc regs = d.nextPc regs := rfl

@[simp] theorem DecInsn.plain_step (d : DecInsn) (regs : LReg → Word) (ans : Word) :
    d.plain.step regs ans = d.step regs ans := rfl

/-- The instruction takes a value from the load/store unit or the exception unit: a load, or a read
of an MSR. -/
def DecInsn.asks (d : DecInsn) : Bool := d.isMem && d.lrdWe

/-- What an instruction takes of what the units show: nothing, if it does not ask. -/
def DecInsn.heard (d : DecInsn) (ans : Word) : Word := if d.asks then ans else 0

theorem DecInsn.heard_of_asks {d : DecInsn} (h : d.isMem = true) (hwe : d.lrdWe = true)
    (ans : Word) : d.heard ans = ans := by
  rw [heard, asks, h, hwe]
  rfl

theorem DecInsn.result_heard {d : DecInsn} (hwe : d.lrdWe = true) (regs : LReg → Word)
    (ans : Word) : d.result regs (d.heard ans) = d.result regs ans := by
  cases hm : d.isMem with
  | false => simp only [result, hm, Bool.false_eq_true, if_false]
  | true => rw [heard_of_asks hm hwe]

@[simp] theorem DecInsn.step_heard (d : DecInsn) (regs : LReg → Word) (ans : Word) :
    d.step regs (d.heard ans) = d.step regs ans := by
  cases hwe : d.lrdWe with
  | false => simp only [step, hwe, Bool.false_eq_true, if_false]
  | true => rw [step, step, result_heard hwe]

/-- What is seen of a program: an instruction commits, with the answer that it has got from the
load/store unit or the exception unit, or an exception goes to another address. -/
inductive Event
  | commit (d : DecInsn) (ans : Word)
  | except (tgt : Pc)

/-- What the program does not decide. -/
inductive Answer
  | commit (ans : Word)
  | except (tgt : Pc)
  deriving DecidableEq

def Event.answer : Event → Answer
  | .commit _ ans => .commit ans
  | .except tgt => .except tgt

/-- The answer is what the event has got: the value, if the instruction asks for one, or the
address. -/
def Event.Gets : Event → Answer → Prop
  | .commit d ans, .commit ans' => d.asks = true → ans = ans'
  | .except tgt, .except tgt' => tgt = tgt'
  | _, _ => False

instance (e : Event) (a : Answer) : Decidable (e.Gets a) :=
  match e, a with
  | .commit d ans, .commit ans' => inferInstanceAs (Decidable (d.asks = true → ans = ans'))
  | .except tgt, .except tgt' => inferInstanceAs (Decidable (tgt = tgt'))
  | .commit _ _, .except _ => inferInstanceAs (Decidable False)
  | .except _, .commit _ => inferInstanceAs (Decidable False)

theorem Event.gets_answer (e : Event) : e.Gets e.answer := by
  cases e with
  | commit d ans => exact fun _ => rfl
  | except tgt => exact rfl

/-- An instruction commits while the units show `ans`. -/
def Event.shown (d : DecInsn) (ans : Word) : Event := .commit d.plain (d.heard ans)

/-- Where a program is, and the registers. -/
structure Point where
  pc : Pc
  regs : LReg → Word

namespace Point

def after (p : Point) : Event → Point
  | .commit d ans => ⟨d.nextPc p.regs, d.step p.regs ans⟩
  | .except tgt => ⟨tgt, p.regs⟩

def run (p : Point) (l : List Event) : Point := l.foldl after p

/-- An instruction does the same with what it has heard as with all that the units show. -/
theorem after_shown (p : Point) (d : DecInsn) (ans : Word) :
    p.after (.shown d ans) = ⟨d.nextPc p.regs, d.step p.regs ans⟩ :=
  congrArg (Point.mk _) (d.step_heard p.regs ans)

theorem run_append (p : Point) (l l' : List Event) : p.run (l ++ l') = (p.run l).run l' :=
  List.foldl_append

theorem run_snoc (p : Point) (l : List Event) (e : Event) :
    p.run (l ++ [e]) = (p.run l).after e := by
  rw [run_append]
  rfl

end Point

namespace Program

variable (P : Program)

/-- The instruction at an address. -/
def insn (pc : Pc) : DecInsn := idDec true (P pc) false false false pc noUpd

/-- The next event, with an answer. -/
def event (p : Point) : Answer → Event
  | .commit ans => .commit (P.insn p.pc) ((P.insn p.pc).heard ans)
  | .except tgt => .except tgt

/-- What commits is the next event with an answer that it gets. -/
theorem event_of_gets {P : Program} {p : Point} {d : DecInsn} {ans : Word} {a : Answer}
    (hd : d.plain = P.insn p.pc) (h : (Event.shown d ans).Gets a) :
    Event.shown d ans = P.event p a := by
  cases a with
  | except tgt => exact h.elim
  | commit ans' =>
      have hheard : d.heard ans = d.heard ans' := by
        cases ha : d.asks with
        | false =>
            rw [DecInsn.heard, DecInsn.heard, ha, if_neg Bool.false_ne_true,
              if_neg Bool.false_ne_true]
        | true => rw [h ha, DecInsn.heard, ha, if_pos rfl]
      rw [Event.shown, event, hheard, ← hd]
      rfl

/-- **The path of a program**: its first events, where the answers are given by what has
happened. -/
def path (p : Point) (W : List Event → Answer) : ℕ → List Event
  | 0 => []
  | k + 1 => path p W k ++ [P.event (p.run (path p W k)) (W (path p W k))]

variable {P} {p : Point} {W : List Event → Answer}

@[simp] theorem length_path (k : ℕ) : (P.path p W k).length = k := by
  induction k with
  | zero => rfl
  | succ k ih => simp [path, ih]

theorem path_isPrefix {j k : ℕ} (h : j ≤ k) : P.path p W j <+: P.path p W k := by
  induction k with
  | zero =>
      obtain rfl : j = 0 := Nat.le_zero.1 h
      exact List.prefix_rfl
  | succ k ih =>
      rcases Nat.lt_or_eq_of_le h with hlt | rfl
      · exact (ih (Nat.lt_succ_iff.1 hlt)).trans (List.prefix_append _ _)
      · exact List.prefix_rfl

variable (P p W) in
/-- A list of events is the beginning of the path. -/
def Follows (l : List Event) : Prop := l = P.path p W l.length

theorem Follows.snoc {l : List Event} (h : P.Follows p W l) {e : Event}
    (he : e = P.event (p.run l) (W l)) : P.Follows p W (l ++ [e]) := by
  unfold Follows
  rw [List.length_append, List.length_singleton, path, ← h, he]

/-- Several events at once. -/
theorem Follows.append {l l' : List Event} (h : P.Follows p W l)
    (he : ∀ k e, l'[k]? = some e → e = P.event (p.run (l ++ l'.take k)) (W (l ++ l'.take k))) :
    P.Follows p W (l ++ l') := by
  induction l' using List.reverseRecOn with
  | nil => simpa using h
  | append_singleton l' e ih =>
      have hl : P.Follows p W (l ++ l') := by
        refine ih fun k e' hk => ?_
        have hlt : k < l'.length := (List.getElem?_eq_some_iff.1 hk).1
        have := he k e' (by rw [List.getElem?_append_left hlt, hk])
        rwa [List.take_append_of_le_length (Nat.le_of_lt hlt)] at this
      have hlast := he l'.length e (by simp)
      rw [List.take_left] at hlast
      rw [← List.append_assoc]
      exact hl.snoc hlast

end Program

/-! ### What commits -/

/-- An exception is handed to the exception unit. -/
theorem CmtHead.WellFormed.exc_stage {h : CmtHead} (hw : h.WellFormed) (hx : h.exc = true) :
    h.startStage = .epu ∧ h.epuReq.s1Fe.any = true := by
  have hw' : ∀ b, h.epuReq.wmsr b = false := by
    intro b
    by_contra hne
    rw [hw.not_exc_of_wmsr (by simpa using hne)] at hx
    cases hx
  have hlsu := hw.exc_lsu hx
  simp only [LsuOpc.any, Bool.or_eq_false_iff] at hlsu
  have hl : h.lsuReq.valid = false := by
    simp [LsuReq.valid, lsuReq, hlsu, LsuReq.dcop, EpuReq.dcinvWe, EpuReq.dcflsWe, hw']
  have hr : h.epuReq.reqValid = true := by simp [epuReq, hx]
  have he : h.epuReq.s1WbValid = true := by
    simp [EpuReq.s1WbValid, EpuReq.dcinvWe, EpuReq.dcflsWe, hw', hr]
  refine ⟨by rw [startStage, hl, he, if_neg Bool.false_ne_true, if_pos rfl], ?_⟩
  have hfe := hw.exc_fe hx
  have hreq : h.epuReq.s1Fe = Fe.ofWord h.vbank.opera := by simp [EpuReq.s1Fe, epuReq, hx]
  rw [hreq]
  exact hfe

/-- Without the bits of a branch there is none. -/
theorem Opp.branch_of_not_any {o : Opp} (h : o.bru.any = false) (operand1 operand2 : Word) :
    o.branch operand1 operand2 = none := by
  simp only [BruOpc.any, BruOpc.isBcc, Bool.or_eq_false_iff] at h
  simp [branch, bruOut, exBru, h]

namespace Backend

variable {n : ℕ} [NeZero n] {D : ℕ} {s : Backend n} {t : Trace} {x : BackendIn}

/-- An instruction at commit is as the execution pipe has left it. -/
theorem Inv.lane_out (h : s.Inv D t) {i : ℕ} (hi : i < 2) (hval : s.rob.cmtValid 1 D i = true) :
    (s.head D i).pay = (t.ins (t.log.head + i)).pay ∧
      (s.head D i).fls = ((t.ins (t.log.head + i)).out s.prf.val).fls ∧
      (s.head D i).exc = (t.ins (t.log.head + i)).d.fe.any := by
  obtain ⟨ho, -, num, -, hv⟩ := h
  obtain ⟨hlive, hent⟩ := ho.ent_eq hi hval
  have hpay := ho.head_pay hi hlive.2
  have hrec := (hv.wb _ _ hlive hent).2.1
  rw [RInsn.wbRec] at hrec
  injection hrec with h₁ h₂
  exact ⟨hpay, h₁, h₂⟩

/-- What commits raises no exception. -/
theorem Inv.fe_of_fire (h : s.Inv D t) {i : ℕ} (hi : i < 2) (hf : s.fire D x i = true) :
    (t.ins (t.log.head + i)).d.fe.any = false := by
  have hval : s.rob.cmtValid 1 D i = true := Cmt.valid_of_fire (x := s.cmtIn D x) hf
  obtain ⟨-, -, hexc⟩ := h.lane_out hi hval
  rw [← hexc]
  by_contra hne
  have hx : (s.head D i).exc = true := by simpa using hne
  have hn : ((s.cmtIn D x).head i).needsPipe = true := by
    show ((s.head D i).pay.lsu.any || ((s.head D i).pay.epu.any || (s.head D i).exc)) = true
    rw [hx, Bool.or_true, Bool.or_true]
  obtain ⟨rfl, hfin⟩ := Cmt.finish_of_fire (x := s.cmtIn D x) hi hf hn
  obtain ⟨g, hg⟩ := h.cmt.flight (Cmt.Inv.pending_of_pipeFinish (x := s.cmtIn D x) h.cmt hfin)
  obtain ⟨ho, -, num, -, hv⟩ := h
  obtain ⟨hstage, hfe⟩ := (ho.head_wellFormed hv hval).exc_stage hx
  have hgE : g = .epu := by
    have := hg.start
    rw [hstage] at this
    by_contra hne
    split at this
    · cases this
    · exact hne this.symm
  subst hgE
  -- the cycle in which it finishes is the one in which it flushes
  have hflush : s.cmt.excFlush (s.cmtIn D x) = true := by
    rw [hg.pipeFinish] at hfin
    rw [hg.excFlush, hfe]
    simpa using hfin
  have := Cmt.flush_of_fire (x := s.cmtIn D x) hf
  rw [Cmt.flush, hflush, Bool.or_true] at this
  cases this

/-- Two instructions that go together are no branches, and were not taken for any. -/
theorem Inv.plain_of_two (h : s.Inv D t) (hp : s.popSize D x = 2) {i : ℕ} (hi : i < 2) :
    (t.ins (t.log.head + i)).d.bru.any = false ∧ (t.ins (t.log.head + i)).d.bpuUpd.taken =
      false := by
  have h₁ : s.fire D x 1 = true := fire_of_lt (by omega)
  have hval : s.rob.cmtValid 1 D i = true :=
    Cmt.valid_of_fire (x := s.cmtIn D x) (fire_of_lt (by omega))
  have hs : s.cmt.singleFu (s.cmtIn D x) i = false := by
    have hss := Cmt.single_of_fire_one (x := s.cmtIn D x) h₁
    interval_cases i
    · exact hss.1
    · exact hss.2
  obtain ⟨hpay, hfls, -⟩ := h.lane_out hi hval
  simp only [Cmt.singleFu, Bool.or_eq_false_iff] at hs
  have hb : (t.ins (t.log.head + i)).d.bru.any = false := by
    have hcb : Cmt.cmtB (s.cmtIn D x) i = false := hs.2
    change ((s.head D i).pay.isBcc || (s.head D i).pay.isBreg || (s.head D i).pay.isBrel) =
      false at hcb
    rw [hpay] at hcb
    exact hcb
  refine ⟨hb, ?_⟩
  have hf : ((t.ins (t.log.head + i)).out s.prf.val).fls = false := by
    rw [← hfls]
    exact hs.1.2
  rw [RInsn.out, ← Bool.not_eq_true, Opp.exPipe_fls_iff, not_not,
    Opp.branch_of_not_any (o := (t.ins (t.log.head + i)).d.opp) hb] at hf
  by_contra hne
  have ht : (t.ins (t.log.head + i)).d.bpuUpd.taken = true := by simpa using hne
  change none = if (t.ins (t.log.head + i)).d.bpuUpd.taken then _ else _ at hf
  rw [ht, if_pos rfl] at hf
  cases hf

/-- The registers before the instruction in lane `k` of those that go. -/
def regsAt (D : ℕ) (s : Backend n) (t : Trace) (x : BackendIn) (k : ℕ) : LReg → Word :=
  seqFrom s.archRegs ((List.range k).map (s.retiredAt D t x))

/-- **An instruction that goes without a flush behind it** is followed by the one that was
predicted. -/
theorem Inv.goes_on (h : s.Inv D t) {k : ℕ} (hk : k < s.popSize D x)
    (hs : (s.next D x).cmt.seFls = false) :
    (t.ins (t.log.head + k)).d.nextPc (s.regsAt D t x k) =
    (t.ins (t.log.head + k)).d.opp.predictedNext := by
  have hle : s.popSize D x ≤ 2 := Cmt.popSize_le
  by_cases h2 : s.popSize D x = 2
  · obtain ⟨hb, ht⟩ := h.plain_of_two h2 (i := k) (by omega)
    have htk : (t.ins (t.log.head + k)).d.opp.predTaken = false := ht
    rw [DecInsn.nextPc, Opp.actualNext,
      Opp.branch_of_not_any (o := (t.ins (t.log.head + k)).d.opp) hb, Opp.predictedNext, htk]
    rfl
  · obtain rfl : k = 0 := by omega
    have hf : s.fire D x 0 = true := fire_of_lt hk
    have hval : s.rob.cmtValid 1 D 0 = true := Cmt.valid_of_fire (x := s.cmtIn D x) hf
    have hfl := Cmt.flush_of_fire (x := s.cmtIn D x) hf
    have hse := Cmt.seFls_of_not_flush hfl
    obtain ⟨-, hfls, -⟩ := h.head_exec hval
    have hnf : ((t.ins t.log.head).d.exec s.archRegs).fls = false := by
      rw [← hfls]
      change ldff (s.fire D x 0 || s.cmt.seFls)
        (((s.head D 0).fls || s.cmt.epu.refetch (s.cmt.epuIn (s.cmtIn D x))) && !s.cmt.seFls)
        s.cmt.seFls = false at hs
      rw [hf, hse] at hs
      simp only [ldff, Bool.or_false, if_true, Bool.not_false, Bool.and_true,
        Bool.or_eq_false_iff] at hs
      exact hs.1
    exact (Opp.predictedNext_eq hnf).symm

/-- An instruction that goes with a flush behind it is followed by its target. -/
theorem Inv.goes_to (h : s.Inv D t) (hs : (s.next D x).cmt.seFls = true) :
    s.popSize D x = 1 ∧ (s.next D x).cmt.seTgt = (t.ins t.log.head).d.nextPc s.archRegs := by
  obtain ⟨hp, htgt, hcause⟩ := flush_ahead h hs
  refine ⟨hp, ?_⟩
  rw [htgt]
  split
  · exact DecInsn.exec_seTgt _ _
  · rename_i hnf
    have hw := hcause.resolve_left hnf
    have hlive := (h.order.live_of_lt (x := x) (i := 0) (by omega)).2
    have hwf := h.order.wf _ hlive.1 (lt_nextNum_of_live hlive)
    rw [Nat.add_zero] at hwf
    have hb : (t.ins t.log.head).d.bru.any = false := by
      by_contra hne
      have := (hwf.bru_lsu (by simpa using hne)).2.1
      simp [EpuOpc.any, hw] at this
    rw [DecInsn.nextPc, Opp.actualNext, Opp.branch_of_not_any (o := (t.ins t.log.head).d.opp) hb]
    rfl

end Backend

namespace Core

variable {n : ℕ} [NeZero n]

/-! ### The core on a program -/

/-- The events of a cycle: the instructions that go, or a flush that none of them is the reason
for. -/
def events (C : CoreCfg) (s : Core n) (h : CoreLog) (x : CoreIn) : List Event :=
  if s.flush C x then
    if s.be.cmt.seFls then [] else [.except (s.be.cmt.flushTgt (s.cmtIn C x) C.V)]
  else (List.range (s.be.popSize C.D (s.beIn x))).map fun i =>
    .shown (h.trace.ins (h.trace.log.head + i)).d (s.be.cmt.prfWdataLsuEpu (s.cmtIn C x))

/-- What is fetched without a fault is the program. -/
def Fetched (P : Program) (C : CoreCfg) (s : Core n) (x : CoreIn) : Prop :=
  ∀ k < s.fe.iqPushCnt C.P C.F (s.feIn C x),
    let i := (s.fe.bufIn C.P C.F (s.feIn C x)).iq (k + s.fe.s2oPushOffset)
    i.eitm = false → i.eipf = false → i.ins = P i.pc

/-- What is asked is answered by `W`, one event after the other. -/
def Answered (W : List Event → Answer) (l new : List Event) : Prop :=
  ∀ (k : ℕ) (e : Event), new[k]? = some e → e.Gets (W (l ++ new.take k))

/-- The core on a program, with what has been seen of it.  The predictor holds `u` at reset. -/
def running (n : ℕ) [NeZero n] (C : CoreCfg) (pcRst : Pc) (u : Bpu) (w : IqWord) (z : RInsn)
    (P : Program) (W : List Event → Answer) : Machine ((Core n × CoreLog) × List Event) CoreIn :=
  (observed n C pcRst u w z).observe [] (fun l q x => l ++ events C q.1 q.2 x)
    fun l q x => Fetched P C q.1 x ∧ Answered W l (events C q.1 q.2 x)

variable {C : CoreCfg} {s : Core n} {x : CoreIn} {h : CoreLog} {pcRst : Pc} {u : Bpu} {w : IqWord}
  {z : RInsn} {P : Program} {W : List Event → Answer} {l : List Event}

/-- The words of the log are those of the program. -/
def Holds (P : Program) (h : FetchLog) : Prop :=
  ∀ k < h.pushed, (h.word k).eitm = false → (h.word k).eipf = false → (h.word k).ins =
    P (h.word k).pc

theorem Holds.next (hh : Holds P h.log) (hx : Fetched P C s x) : Holds P (logNext C h s x).log := by
  intro k hk
  change k < (h.log.next C.P C.F s.fe (s.feIn C x)).pushed at hk
  change ((h.log.next C.P C.F s.fe (s.feIn C x)).word k).eitm = false →
    ((h.log.next C.P C.F s.fe (s.feIn C x)).word k).eipf = false →
    ((h.log.next C.P C.F s.fe (s.feIn C x)).word k).ins =
      P ((h.log.next C.P C.F s.fe (s.feIn C x)).word k).pc
  rw [FetchLog.next] at hk
  simp only at hk
  split at hk
  · exact absurd hk (Nat.not_lt_zero k)
  · rcases Nat.lt_or_ge k h.log.pushed with hlt | hge
    · rw [FetchLog.next_word_old hlt]
      exact hh k hlt
    · obtain ⟨j, rfl⟩ := Nat.exists_eq_add_of_le hge
      rw [FetchLog.next_word_new (by omega)]
      exact hx j (by omega)

/-- The word behind an instruction that goes. -/
theorem word_of_lt (hw : s.fe.Fetches C.P C.F h.log) (hfe : s.Feeds C h)
    (hi : s.be.Inv C.D h.trace) {k : ℕ}
    (hk : k < s.be.popSize C.D (s.beIn x)) : h.trace.log.head + k < h.log.pushed ∧
      (h.trace.ins (h.trace.log.head + k)).d =
        (h.log.word (h.trace.log.head + k)).decode true (h.irq (h.trace.log.head + k)) := by
  have hlt := Backend.lt_nextNum_of_live (s := s.be) (hi.order.live_of_lt hk).2
  have hpop := hfe.popped
  have hle := hw.buf.le
  exact ⟨by omega, hfe.renamed _ hlt⟩

/-- An instruction that goes is the one of the program at its address. -/
theorem plain_eq (hw : s.fe.Fetches C.P C.F h.log) (hfe : s.Feeds C h) (hi : s.be.Inv C.D h.trace)
    (hh : Holds P h.log) {k : ℕ} (hk : k < s.be.popSize C.D (s.beIn x)) :
    (h.trace.ins (h.trace.log.head + k)).d.plain = P.insn
    (h.log.word (h.trace.log.head + k)).pc := by
  obtain ⟨hlt, hd⟩ := word_of_lt hw hfe hi hk
  have h2 : s.be.popSize C.D (s.beIn x) ≤ 2 := Cmt.popSize_le
  have hnone := hi.fe_of_fire (x := s.beIn x) (i := k) (by omega) (Backend.fire_of_lt hk)
  rw [hd] at hnone ⊢
  have hirq : h.irq (h.trace.log.head + k) = false ∧
      (h.log.word (h.trace.log.head + k)).eitm = false ∧
      (h.log.word (h.trace.log.head + k)).eipf = false := by
    simp only [IqWord.decode, idDec, Fe.any, Bool.or_eq_false_iff, Bool.and_eq_false_imp] at hnone
    grind
  obtain ⟨h₁, h₂, h₃⟩ := hirq
  rw [IqWord.decode, h₁, h₂, h₃, hh _ hlt h₂ h₃]
  rfl

/-- What is seen of the core is the beginning of the path; and the core goes on where it ends. -/
structure OnPath (P : Program) (W : List Event → Answer) (p : Point) (s : Core n) (h : CoreLog)
    (l : List Event) : Prop where
  holds : Holds P h.log
  follows : P.Follows p W l
  regs : (p.run l).regs = s.be.archRegs
  pc : (p.run l).pc =
    if s.be.cmt.seFls then s.be.cmt.seTgt else IqWord.after h.log.start h.log.word h.trace.log.head

section Step

variable {p : Point}

theorem OnPath.next_flush (hp : OnPath P W p s h l) (hi : s.be.Inv C.D h.trace)
    (hx : Fetched P C s x) (ha : Answered W l (events C s h x)) (hf : s.flush C x = true) :
    OnPath P W p (s.next C x) (logNext C h s x) (l ++ events C s h x) := by
  have hregs : (s.next C x).be.archRegs = s.be.archRegs := by
    have := Backend.archRegs_next (x := s.beIn x) hi
    rw [Backend.popSize_of_flush hf] at this
    exact this
  have hse : (s.next C x).be.cmt.seFls = false := by
    have hfire : s.be.cmt.fire (s.cmtIn C x) 0 = false := by
      rw [Cmt.fire, show s.be.cmt.flush (s.cmtIn C x) = true from hf]
      simp
    change ldff (s.be.cmt.fire (s.cmtIn C x) 0 || s.be.cmt.seFls) (_ && !s.be.cmt.seFls)
      s.be.cmt.seFls = false
    rw [hfire]
    cases s.be.cmt.seFls <;> simp [ldff]
  have hpc : IqWord.after (logNext C h s x).log.start (logNext C h s x).log.word
      (logNext C h s x).trace.log.head = s.be.cmt.flushTgt (s.cmtIn C x) C.V := by
    have hhead : (logNext C h s x).trace.log.head = 0 := (Backend.Trace.next_log_flush hf).1
    have hstart : (logNext C h s x).log.start = s.be.cmt.flushTgt (s.cmtIn C x) C.V := if_pos hf
    rw [hhead, IqWord.after, hstart]
  unfold events at ha ⊢
  rw [if_pos hf] at ha ⊢
  cases hsf : s.be.cmt.seFls with
  | true =>
      rw [if_pos rfl, List.append_nil]
      refine ⟨hp.holds.next hx, hp.follows, hp.regs.trans hregs.symm, ?_⟩
      rw [hse, if_neg Bool.false_ne_true, hpc, hp.pc, hsf, if_pos rfl, Cmt.flushTgt, hsf,
        if_pos rfl]
  | false =>
      rw [hsf, if_neg Bool.false_ne_true] at ha
      rw [if_neg Bool.false_ne_true]
      have hans := ha 0 _ rfl
      rw [List.take_zero, List.append_nil] at hans
      refine ⟨hp.holds.next hx, hp.follows.snoc ?_, ?_, ?_⟩
      · cases hW : W l with
        | commit ans => exact (hW ▸ hans : Event.Gets (.except _) (.commit ans)).elim
        | except tgt =>
            exact congrArg Event.except (hW ▸ hans : Event.Gets (.except _) (.except tgt))
      · rw [Point.run_snoc]
        exact hp.regs.trans hregs.symm
      · rw [Point.run_snoc, hse, if_neg Bool.false_ne_true, hpc]
        rfl

/-- The events of a cycle without a flush. -/
theorem events_of_move (hf : s.flush C x = false) : events C s h x =
    (List.range (s.be.popSize C.D (s.beIn x))).map fun i =>
      .shown (h.trace.ins (h.trace.log.head + i)).d (s.be.cmt.prfWdataLsuEpu (s.cmtIn C x)) := by
  rw [events, hf, if_neg Bool.false_ne_true]

theorem take_events (hf : s.flush C x = false) {k : ℕ} (hk : k < s.be.popSize C.D (s.beIn x)) :
    (events C s h x).take (k + 1) = (events C s h x).take k ++
      [.shown (h.trace.ins (h.trace.log.head + k)).d (s.be.cmt.prfWdataLsuEpu (s.cmtIn C x))] := by
  rw [events_of_move hf, List.take_add_one, List.getElem?_map, List.getElem?_range hk]
  rfl

theorem OnPath.regs_run (hp : OnPath P W p s h l) (hf : s.flush C x = false) {k : ℕ}
    (hk : k ≤ s.be.popSize C.D (s.beIn x)) :
    (p.run (l ++ (events C s h x).take k)).regs = s.be.regsAt C.D h.trace (s.beIn x) k := by
  induction k with
  | zero =>
      rw [List.take_zero, List.append_nil]
      exact hp.regs
  | succ k ih =>
      rw [take_events hf hk, ← List.append_assoc, Point.run_snoc, Backend.regsAt, List.range_succ,
        List.map_append,
        seqFrom_append, ← Backend.regsAt, ← ih (Nat.le_of_lt hk), Point.after_shown]
      rfl

theorem OnPath.pc_run (hp : OnPath P W p s h l) (hfe : s.Feeds C h)
    (hw : s.fe.Fetches C.P C.F h.log)
    (hi : s.be.Inv C.D h.trace) (hf : s.flush C x = false) {k : ℕ}
    (hk : k ≤ s.be.popSize C.D (s.beIn x)) (hs : k = 0 ∨ (s.next C x).be.cmt.seFls = false) :
    (p.run (l ++ (events C s h x).take k)).pc = IqWord.after h.log.start h.log.word
    (h.trace.log.head + k) := by
  induction k with
  | zero =>
      rw [List.take_zero, List.append_nil, hp.pc, Cmt.seFls_of_not_flush hf,
        if_neg Bool.false_ne_true]
      rfl
  | succ k ih =>
      have hse := hs.resolve_left (Nat.succ_ne_zero k)
      obtain ⟨hlt, hd⟩ := word_of_lt hw hfe hi hk
      rw [take_events hf hk, ← List.append_assoc, Point.run_snoc]
      change (h.trace.ins (h.trace.log.head + k)).d.nextPc
        (p.run (l ++ (events C s h x).take k)).regs = _
      rw [hp.regs_run hf (Nat.le_of_lt hk), hi.goes_on hk hse, hd]
      rfl

/-- The instructions of a cycle are those of the program. -/
theorem OnPath.next_move (hp : OnPath P W p s h l) (hfe : s.Feeds C h)
    (hw : s.fe.Fetches C.P C.F h.log)
    (hi : s.be.Inv C.D h.trace) (hx : Fetched P C s x) (ha : Answered W l (events C s h x))
    (hf : s.flush C x = false) : OnPath P W p (s.next C x) (logNext C h s x)
    (l ++ events C s h x) := by
  have hlen : (events C s h x).length = s.be.popSize C.D (s.beIn x) := by
    rw [events_of_move hf, List.length_map, List.length_range]
  have htake : (events C s h x).take (s.be.popSize C.D (s.beIn x)) = events C s h x :=
    List.take_of_length_le hlen.le
  have h2 : s.be.popSize C.D (s.beIn x) ≤ 2 := Cmt.popSize_le
  have htwo : ∀ k, 0 < k → k < s.be.popSize C.D (s.beIn x) → (s.next C x).be.cmt.seFls = false := by
    intro k hk hlt
    by_contra hne
    have := (hi.goes_to (x := s.beIn x) (Bool.eq_true_of_not_eq_false hne)).1
    omega
  have hregs := hp.regs_run hf le_rfl
  rw [htake] at hregs
  refine ⟨hp.holds.next hx, hp.follows.append fun k e hk => ?_, ?_, ?_⟩
  · have hlt : k < s.be.popSize C.D (s.beIn x) := hlen ▸ (List.getElem?_eq_some_iff.1 hk).1
    have hans := ha k e hk
    have he : e = .shown (h.trace.ins (h.trace.log.head + k)).d
        (s.be.cmt.prfWdataLsuEpu (s.cmtIn C x)) := by
      rw [events_of_move hf, List.getElem?_map, List.getElem?_range hlt] at hk
      exact (Option.some.inj hk).symm
    have hpc := hp.pc_run hfe hw hi hf (Nat.le_of_lt hlt)
      (k.eq_zero_or_pos.imp_right fun h0 => htwo k h0 hlt)
    rw [he] at hans ⊢
    refine Program.event_of_gets ?_ hans
    rw [plain_eq hw hfe hi hp.holds hlt, hw.chain _ (word_of_lt hw hfe hi hlt).1, ← hpc]
  · rw [hregs]
    exact (Backend.archRegs_next hi).symm
  · cases hse : (s.next C x).be.cmt.seFls with
    | true =>
        obtain ⟨hone, htgt⟩ := hi.goes_to (x := s.beIn x) hse
        rw [if_pos rfl, ← htake, hone, take_events hf (k := 0) (by omega), List.take_zero,
          List.nil_append, Point.run_snoc]
        change (h.trace.ins h.trace.log.head).d.nextPc (p.run l).regs = _
        rw [hp.regs]
        exact htgt.symm
    | false =>
        have hpc := hp.pc_run hfe hw hi hf le_rfl (.inr hse)
        rw [htake] at hpc
        have hle : h.trace.log.head + s.be.popSize C.D (s.beIn x) ≤ h.log.pushed := by
          have h₁ := hi.order.head_popSize_le (x := s.beIn x)
          have h₂ : h.trace.log.tail ≤ s.be.nextNum h.trace := Nat.le_add_right _ _
          have h₃ := hfe.popped
          have h₄ := hw.buf.le
          omega
        have hhead : (logNext C h s x).trace.log.head = h.trace.log.head + s.be.popSize C.D
          (s.beIn x) :=
          Backend.Trace.next_head hf
        rw [if_neg Bool.false_ne_true, hpc, hhead]
        exact (FetchLog.next_after (x := s.feIn C x) hf hle).symm

end Step

/-! ### The path in every run -/

/-- **What is committed is the path of the program**, and the registers are those at its end. -/
theorem path_of_reach (hP : 1 ≤ C.P) (hr : (running n C pcRst u w z P W).Reach ((s, h), l)) :
    OnPath P W ⟨pcRst, fun _ => 0⟩ s h l := by
  refine (Machine.Reach.inv (P := fun q => (observed n C pcRst u w z).Reach q.1 ∧
    OnPath P W ⟨pcRst, fun _ => 0⟩ q.1.1 q.1.2 q.2) ⟨Machine.Reach.reset, ?_⟩ ?_ hr).2
  · refine ⟨fun k hk => absurd hk (Nat.not_lt_zero k), rfl, ?_, rfl⟩
    funext r
    rfl
  · rintro ⟨⟨s, h⟩, l⟩ x ⟨hq, hp⟩ ⟨hx, hfetch, hans⟩
    refine ⟨Machine.Reach.tick hq hx, ?_⟩
    obtain ⟨hfront, htr, hfe⟩ := feeds_of_reach hP hq
    have hw := Frontend.fetches_of_reach hP hfront
    have hi := Backend.inv_of_reach htr
    cases hf : s.flush C x with
    | true => exact hp.next_flush hi hfetch hans hf
    | false => exact hp.next_move hfe hw hi hfetch hans hf

/-- **Branch prediction is invisible.**  Two runs of the core on one program commit the same
instructions with the same results, as far as the shorter of them goes, whatever the predictor holds
at reset, if what the program does not decide is answered the same.  The check of the prediction
fails exactly when the direction is wrong, or the branch is taken and the target is wrong: always
when the address that was fetched next is not the next one, and when it is, only at a branch that is
taken, or predicted, to the instruction behind it.  The redirect goes to the next address. -/
theorem prediction_invisible :
    (∀ (o : Opp) (operand1 operand2 : Word),
      let out := o.exPipe true operand1 operand2
      (out.fls = true ↔ o.branch operand1 operand2 ≠ if o.predTaken then some o.predTgt else none) ∧
        (o.predictedNext ≠ o.actualNext operand1 operand2 → out.fls = true) ∧
        (out.fls = true → o.predictedNext = o.actualNext operand1 operand2 →
          o.actualNext operand1 operand2 = o.pc + 1 ∧
            (o.branch operand1 operand2).isSome = !o.predTaken) ∧
        out.seTgt = o.actualNext operand1 operand2) ∧
    ∀ (n : ℕ) [NeZero n] (C : CoreCfg), 1 ≤ C.P →
      ∀ (pcRst : Pc) (u u' : Bpu) (w w' : IqWord) (z z' : RInsn)
      (P : Program) (W : List Event → Answer) (q q' : (Core n × CoreLog) × List Event),
      (running n C pcRst u w z P W).Reach q → (running n C pcRst u' w' z' P W).Reach q' →
        q.2.length ≤ q'.2.length →
          q.2 <+: q'.2 ∧ (q.2.length = q'.2.length → q.1.1.be.archRegs = q'.1.1.be.archRegs) := by
  constructor
  · intro o operand1 operand2
    refine ⟨o.exPipe_fls_iff operand1 operand2, fun hne => ?_, fun hf heq => ?_,
      o.exPipe_seTgt operand1 operand2⟩
    · by_contra hf
      exact hne (Opp.predictedNext_eq (by simpa using hf))
    · rw [o.exPipe_fls_iff] at hf
      rw [Opp.predictedNext, Opp.actualNext] at heq
      rw [Opp.actualNext]
      cases hb : o.branch operand1 operand2 with
      | none =>
          rw [hb] at hf
          cases ht : o.predTaken with
          | false =>
              rw [ht, if_neg Bool.false_ne_true] at hf
              exact absurd rfl hf
          | true => exact ⟨rfl, rfl⟩
      | some tgt =>
          rw [hb] at hf heq
          cases ht : o.predTaken with
          | false =>
              rw [ht, if_neg Bool.false_ne_true] at heq
              exact ⟨heq.symm, rfl⟩
          | true =>
              rw [ht, if_pos rfl] at hf heq
              exact absurd (congrArg some heq.symm) hf
  · intro n _ C hP pcRst u u' w w' z z' P W q q' hq hq' hle
    have h₁ := path_of_reach hP hq
    have h₂ := path_of_reach hP hq'
    have hf₁ : q.2 = _ := h₁.follows
    have hf₂ : q'.2 = _ := h₂.follows
    constructor
    · rw [hf₁, hf₂]
      exact Program.path_isPrefix hle
    · intro heq
      have hl : q.2 = q'.2 := by rw [hf₁, hf₂, heq]
      rw [← h₁.regs, ← h₂.regs, hl]

/-! ### What a predictor shows -/

/-- What the exception unit writes to the timer. -/
def tscIn (C : CoreCfg) (s : Core n) (x : CoreIn) : TscIn :=
  let we := s.be.cmt.epu.commitWe (s.epuIn C x)
  ⟨we.tscTsr, s.be.cmt.epu.s1WmsrDat, we.tscTcr, s.be.cmt.epu.s1WmsrDat⟩

/-- A cycle in which no cache stalls; the I-cache shows the program, the D-cache shows `v`, and the
timer is `t`. -/
def timedIn (s : Core 4) (P : Program) (v : Word) (t : Tsc) : CoreIn :=
  let x := { s.memIn P 0 with dcDout := v }
  { x with rd := ⟨0, 0, 0, 0, 0, 0, 0, t.tsr, t.msrTcr (s.tscIn chip x)⟩ }

/-- The chip with its timer after `k` cycles, with a predictor that holds `u` at reset, and what has
been seen of it. -/
def timed (u : Bpu) (P : Program) (v : Word) : ℕ → ((Core 4 × CoreLog) × List Event) × Tsc
  | 0 => (((observed 4 chip 0xc000000 u Frontend.emptyWord emptyInsn).reset, []), Tsc.reset)
  | k + 1 =>
      let q := timed u P v k
      let x := q.1.1.1.timedIn P v q.2
      (((q.1.1.1.next chip x, logNext chip q.1.1.2 q.1.1.1 x),
        q.1.2 ++ events chip q.1.1.1 q.1.1.2 x), q.2.next (q.1.1.1.tscIn chip x))

/-- A predictor that takes the third instruction for a jump. -/
def misled : Bpu :=
  { Frontend.bpuRst with btb := Function.update Frontend.bpuRst.btb 2 ⟨false, 0xc000100, 0x1800000,
    false, true⟩ }

/-- The program `LDWU r1, [r0]; ORI r2, r1, 1; STW [r0 + 4], r2; BNE r2, r0, +8`, which goes on
behind the next word with `ADD r3, r1, r2`, and then NOPs. -/
def mixed : Program := fun pc =>
  match (pc - 0xc000000).toNat with
  | 0 => 0x2e1
  | 1 => 0x21062
  | 2 => 0x80302
  | 3 => 0x40222
  | 4 => 0x6e3
  | 5 => 0x41143
  | _ => 0

/-- A run in which the units show `v` to whoever asks. -/
theorem timed_reach {v : Word} {k : ℕ} (h : ∀ e ∈ (timed u P v k).1.2, e.Gets (.commit v)) :
    (running 4 chip 0xc000000 u Frontend.emptyWord emptyInsn P fun _ => .commit v).Reach
    (timed u P v k).1 := by
  induction k with
  | zero => exact Machine.Reach.reset
  | succ k ih =>
      refine Machine.Reach.tick (x := (timed u P v k).1.1.1.timedIn P v (timed u P v k).2)
        (ih fun e he => h e (List.mem_append_left _ he))
          ⟨trivial, fun _ _ _ _ => rfl, fun i e he => ?_⟩
      exact h e (List.mem_append_right _ (List.mem_of_getElem? he))

/-- With both predictors the instructions up to the branch commit, with one of them eleven cycles
later. -/
theorem mixed_four :
    ((∀ e ∈ (timed misled mixed 0x11223344 36).1.2, e.Gets (.commit 0x11223344)) ∧
        (timed misled mixed 0x11223344 36).1.2.length = 4) ∧
      (∀ e ∈ (timed Frontend.bpuRst mixed 0x11223344 25).1.2, e.Gets (.commit 0x11223344)) ∧
        (timed Frontend.bpuRst mixed 0x11223344 25).1.2.length = 4 := by
  decide +kernel

/-- What they commit is the same, and so are the registers, whatever else the units have shown. -/
theorem prediction_invisible_mixed :
    (timed misled mixed 0x11223344 36).1.2 <+: (timed Frontend.bpuRst mixed 0x11223344 25).1.2 ∧
      (timed misled mixed 0x11223344 36).1.1.1.be.archRegs =
        (timed Frontend.bpuRst mixed 0x11223344 25).1.1.1.be.archRegs := by
  obtain ⟨⟨hget, hl⟩, hget', hl'⟩ := mixed_four
  have h := prediction_invisible.2 4 chip (by decide) 0xc000000 misled Frontend.bpuRst
    Frontend.emptyWord Frontend.emptyWord emptyInsn emptyInsn mixed
    (fun _ => .commit 0x11223344) _ _ (timed_reach hget) (timed_reach hget')
    (hl.trans hl'.symm).le
  exact ⟨h.1, h.2 (hl.trans hl'.symm)⟩

/-- The program `MHI r1, 0x10000000; WMSR TCR, r1`, which starts the timer, and then reads it over
and over: `RMSR r2, TSR`. -/
def readTimer : Program := fun pc =>
  match (pc - 0xc000000).toNat with
  | 0 => 0x100006e1
  | 1 => (0xE02 <<< 17) ||| 0x461
  | _ => (0xE01 <<< 17) ||| 0x482

theorem readTimer_fourth : ((timed misled readTimer 0 32).1.2.map Event.answer)[3]? ≠
    ((timed Frontend.bpuRst readTimer 0 20).1.2.map Event.answer)[3]? ∧
      ((timed misled readTimer 0 32).1.2.map Event.answer)[3]?.isSome = true ∧
        ((timed Frontend.bpuRst readTimer 0 20).1.2.map Event.answer)[3]?.isSome = true := by
  decide +kernel

/-- The jump `JMP +4` at address 0, not predicted. -/
def jumpOver : Opp := (idDec true 0x1c1 false false false 0 noUpd).opp

/-- **Branch prediction is visible** in the time that it takes, once the program has started the
timer, and the check fails where the address fetched next was the right one. -/
theorem prediction_visible :
    (¬ ∀ (P : Program) (u u' : Bpu) (v : Word) (k k' : ℕ),
      (timed u P v k).1.2 <+: (timed u' P v k').1.2 ∨
      (timed u' P v k').1.2 <+: (timed u P v k).1.2) ∧
    ¬ ∀ (o : Opp) (operand1 operand2 : Word), (o.exPipe true operand1 operand2).fls = true ↔
      o.predictedNext ≠ o.actualNext operand1 operand2 := by
  constructor
  · intro h
    obtain ⟨hne, hs, hs'⟩ := readTimer_fourth
    obtain ⟨a, ha⟩ := Option.isSome_iff_exists.1 hs
    obtain ⟨b, hb⟩ := Option.isSome_iff_exists.1 hs'
    rw [ha, hb] at hne
    rcases h readTimer misled Frontend.bpuRst 0 32 20 with hp | hp
    · obtain ⟨r, hr⟩ := hp.map Event.answer
      rw [← hr, List.getElem?_append_left (List.getElem?_eq_some_iff.1 ha).1, ha] at hb
      exact hne hb
    · obtain ⟨r, hr⟩ := hp.map Event.answer
      rw [← hr, List.getElem?_append_left (List.getElem?_eq_some_iff.1 hb).1, hb] at ha
      exact hne ha.symm
  · intro h
    exact absurd ((h jumpOver 0 4).1 (by decide)) (by decide)

end Core

end NanoCpu
