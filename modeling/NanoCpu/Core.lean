/-
**The core** (`rtl/core/ncpu64k.v`, `id.v`, `cmt_irqc.v`): the front-end, the decoder and the
back-end.

The decoder takes what the prefetch buffer shows whenever rename moves, and marks it with an
interrupt that is pending and enabled then.  What is outside are the two caches, and the MSRs of
other units (of which the request register of the interrupt controller is one).

Beside the core run the log of the front-end and the trace of the back-end.  Both count from the
last flush on, and the instruction that rename numbers `m` is the `m`-th word that the front-end has
pushed.

Main definitions:

* `Id`, `IqWord.decode` — the registers of the decoder, and what they are loaded with;
* `Core`, `CoreIn`, `Core.next` — the core;
* `Core.observed` — the core with the log and the trace;
* `Core.Feeds` — the decoder and rename hold the words of the log;
* `chip`, `chipRun` — the configuration of the chip, and programs on it.

Main results:

* `Core.feeds_of_reach` — in every reachable state the parts of the core are in states that they
  reach alone, and what is in flight since the last flush is what was fetched since then, in order.
-/

import NanoCpu.FetchChain
import NanoCpu.Solo

set_option relaxedAutoImplicit false
set_option autoImplicit false
set_option linter.unusedSectionVars false

namespace NanoCpu

/-- The registers between the decoder and rename. -/
structure Id where
  rnValid : ℕ → Bool
  rnPushSize : ℕ
  rnInsn : ℕ → DecInsn

/-- A word of the prefetch buffer, decoded. -/
def IqWord.decode (w : IqWord) (valid irqAsync : Bool) : DecInsn :=
  idDec valid w.ins w.eitm w.eipf irqAsync w.pc w.upd

structure Core (n : ℕ) where
  fe : Frontend
  id : Id
  be : Backend n

/-- The inputs of one cycle: the two caches, and the MSRs of other units. -/
structure CoreIn where
  icStall : Bool
  ins : ℕ → BitVec 32
  icinvReady : Bool
  dcStall : Bool
  dcDout : Word
  rd : MsrRd

/-- The parameters: a fetch window of `2 ^ P` instructions, banks of `2 ^ F` entries in the prefetch
buffer, tables of `2 ^ p` and `2 ^ b` entries in the predictor, banks of `2 ^ D` entries in the
reorder buffer, and the vectors of the exceptions. -/
structure CoreCfg where
  P : ℕ
  F : ℕ
  p : ℕ
  b : ℕ
  D : ℕ
  V : ExcVectors

namespace Core

variable {n : ℕ} [NeZero n]

/-- After reset; `u`, `w` and `z` stand for what reset leaves undefined. -/
def reset (n : ℕ) [NeZero n] (pcRst : Pc) (u : Bpu) (w : IqWord) (z : RInsn) : Core n where
  fe := Frontend.reset pcRst u w
  id := ⟨fun _ => false, 0, fun _ => z.d⟩
  be := Backend.reset n z

variable (C : CoreCfg) (s : Core n) (x : CoreIn)

/-! ### The wires between the parts -/

def beIn : BackendIn :=
  ⟨s.id.rnValid, s.id.rnPushSize, s.id.rnInsn, x.dcStall, x.dcDout, x.icinvReady, x.rd⟩

def cmtIn : CmtIn := s.be.cmtIn C.D (s.beIn x)

def flush : Bool := s.be.flush C.D (s.beIn x)

/-- The inputs of the exception unit. -/
def epuIn : EpuIn := s.be.cmt.epuIn (s.cmtIn C x)

/-- The PSR as the bypasses show it. -/
def psr : Psr := s.be.cmt.epu.psrNext (s.epuIn C x)

/-- `|irq_masked`, with the bypassed mask: some request is unmasked. -/
def irqReq : Bool := (x.rd.irr &&& ~~~(s.be.cmt.epu.imrNext (s.epuIn C x))) != 0

/-- `irq_async`. -/
def irqAsync : Bool := s.irqReq C x && (s.psr C x).ire

/-- The clock enable of the decoder, `~rn_stall_req`. -/
def idCe : Bool := s.be.rn.pCe (s.be.rnIn C.D (s.beIn x))

/-- What commit reports to the branch predictor. -/
def bpuWb : BpuWb where
  wb := s.be.fire C.D (s.beIn x) 0 && Cmt.cmtB (s.cmtIn C x) 0
  isBcc := (s.be.head C.D 0).pay.isBcc
  isBreg := (s.be.head C.D 0).pay.isBreg
  isBrel := (s.be.head C.D 0).pay.isBrel
  taken := (s.be.head C.D 0).pay.bpuUpd.taken ^^ (s.be.head C.D 0).fls
  pc := (s.be.head C.D 0).pay.pc
  npcAct := if (s.be.head C.D 0).fls then (s.be.head C.D 0).vbank.flsTgt
    else (s.be.head C.D 0).pay.bpuUpd.tgt
  upd := (s.be.head C.D 0).pay.bpuUpd

def feIn : FrontendIn where
  flush := s.flush C x
  flushTgt := s.be.cmt.flushTgt (s.cmtIn C x) C.V
  icStall := x.icStall
  ins := x.ins
  idCe := s.idCe C x
  imme := (s.psr C x).imme
  rm := (s.psr C x).rm
  ice := (s.psr C x).ice
  tlbl := s.be.cmt.epu.immTlbl (s.epuIn C x)
  tlbh := s.be.cmt.epu.immTlbh (s.epuIn C x)
  bpuWb := s.bpuWb C x

/-! ### The next state -/

/-- The decoder has two lanes. -/
def idNext : Id where
  rnValid := ldff (s.idCe C x || s.flush C x)
    (fun i => decide (i < 2) && s.fe.buf.idValid C.P i && !s.flush C x) s.id.rnValid
  rnPushSize := ldff (s.idCe C x || s.flush C x)
    (if s.flush C x then 0 else s.fe.idPopCnt C.P (s.feIn C x)) s.id.rnPushSize
  rnInsn := ldff (s.idCe C x)
    (fun i => (s.fe.buf.idOut C.P i).decode (s.fe.buf.idValid C.P i) (s.irqAsync C x)) s.id.rnInsn

def next : Core n where
  fe := s.fe.next C.P C.F C.p C.b (s.feIn C x)
  id := s.idNext C x
  be := s.be.next C.D (s.beIn x)

end Core

/-- The log of the front-end, the trace of the back-end, and for every instruction of the log
whether an interrupt was pending when it was decoded. -/
structure CoreLog where
  log : FetchLog
  trace : Trace
  irq : ℕ → Bool

namespace Core

variable {n : ℕ} [NeZero n]

/-- The log after a cycle. -/
def logNext (C : CoreCfg) (h : CoreLog) (s : Core n) (x : CoreIn) : CoreLog where
  log := h.log.next C.P C.F s.fe (s.feIn C x)
  trace := h.trace.next C.D s.be (s.beIn x)
  irq := fun k => if h.log.popped ≤ k ∧ k < h.log.popped + s.fe.idPopCnt C.P (s.feIn C x) then
    s.irqAsync C x else h.irq k

/-- The core with its log.  The caches may do as they like. -/
def observed (n : ℕ) [NeZero n] (C : CoreCfg) (pcRst : Pc) (u : Bpu) (w : IqWord) (z : RInsn) :
    Machine (Core n × CoreLog) CoreIn where
  reset := (reset n pcRst u w z, ⟨FetchLog.reset pcRst w, Trace.reset z, fun _ => false⟩)
  allowed _ _ := True
  next q x := (q.1.next C x, logNext C q.2 q.1 x)

variable {C : CoreCfg} {s : Core n} {x : CoreIn} {h : CoreLog} {pcRst : Pc} {u : Bpu} {w : IqWord}
  {z : RInsn}

/-! ### From the buffer to rename -/

/-- The words of the log that have left the buffer are in the decoder's registers, or were
renamed. -/
structure Feeds (C : CoreCfg) (s : Core n) (h : CoreLog) : Prop where
  size_le : s.id.rnPushSize ≤ 2
  valid : ∀ i, s.id.rnValid i = decide (i < s.id.rnPushSize)
  popped : h.log.popped = s.be.nextNum h.trace + s.id.rnPushSize
  held : ∀ i < s.id.rnPushSize, s.id.rnInsn i =
    (h.log.word (s.be.nextNum h.trace + i)).decode true (h.irq (s.be.nextNum h.trace + i))
  renamed : ∀ m < s.be.nextNum h.trace, (h.trace.ins m).d = (h.log.word m).decode true (h.irq m)

theorem Feeds.delivers (hf : s.Feeds C h) : (s.beIn x).Delivers where
  le := hf.size_le
  valid := hf.valid
  wellFormed i hi := by
    change (s.id.rnInsn i).WellFormed
    rw [hf.held i hi]
    exact idDec_wellFormed _ _ _ _ _ _ _

theorem accepted_eq : s.be.accepted C.D (s.beIn x) = if s.idCe C x then s.id.rnPushSize else 0 :=
  rfl

theorem logNext_irq_old {k : ℕ} (hk : k < h.log.popped) : (logNext C h s x).irq k = h.irq k :=
  if_neg (by omega)

theorem logNext_irq_new {k : ℕ} (hk : k < s.fe.idPopCnt C.P (s.feIn C x)) :
    (logNext C h s x).irq (h.log.popped + k) = s.irqAsync C x :=
  if_pos (by omega)

theorem Feeds.next_flush (h : CoreLog) (hf : s.flush C x = true) :
    (s.next C x).Feeds C (logNext C h s x) := by
  have hn : (s.next C x).be.nextNum (logNext C h s x).trace = 0 := Backend.nextNum_next_flush hf
  have hs : (s.next C x).id.rnPushSize = 0 := by simp [next, idNext, hf, ldff]
  have hp : (logNext C h s x).log.popped = 0 := by
    have hfe : (s.feIn C x).flush = true := hf
    simp [logNext, FetchLog.next, hfe]
  refine ⟨by omega, fun i => ?_, by omega, fun i hi => ?_, fun m hm => ?_⟩
  · rw [hs]
    simp [next, idNext, hf, ldff]
  · rw [hs] at hi
    exact absurd hi (Nat.not_lt_zero i)
  · rw [hn] at hm
    exact absurd hm (Nat.not_lt_zero m)

/-- A cycle in which rename moves: it takes what the decoder holds, and the decoder what the buffer
shows. -/
theorem Feeds.next_move (hi : s.Feeds C h) (hw : s.fe.Fetches C.P C.F h.log) (hP : 1 ≤ C.P)
    (hf : s.flush C x = false) (hc : s.idCe C x = true) :
    (s.next C x).Feeds C (logNext C h s x) := by
  have hfe : (s.feIn C x).flush = false := hf
  have hce : (s.feIn C x).idCe = true := hc
  have hcnt := hw.idPopCnt_eq hP hce
  obtain ⟨h2, hle⟩ := hw.popCnt_le (x := s.feIn C x) hP
  have h2P : 2 ≤ 2 ^ C.P := Nat.le_self_pow (by omega) 2
  have hacc : s.be.accepted C.D (s.beIn x) = s.id.rnPushSize := by rw [accepted_eq, hc, if_pos rfl]
  have hn : (s.next C x).be.nextNum (logNext C h s x).trace =
      s.be.nextNum h.trace + s.id.rnPushSize := by
    rw [← hacc]
    exact Backend.nextNum_next hf
  have hs : (s.next C x).id.rnPushSize = s.fe.idPopCnt C.P (s.feIn C x) := by
    simp [next, idNext, hf, hc, ldff]
  have hp : (logNext C h s x).log.popped = h.log.popped + s.fe.idPopCnt C.P (s.feIn C x) := by
    simp [logNext, FetchLog.next, hfe]
  have hpop := hi.popped
  refine ⟨by omega, fun i => ?_, by omega, fun i hlt => ?_, fun m hm => ?_⟩
  · rw [hs, hcnt]
    simp only [next, idNext, hf, hc, ldff, Bool.or_false, if_true, Bool.not_false, Bool.and_true]
    rw [Bool.eq_iff_iff, Bool.and_eq_true, decide_eq_true_eq, decide_eq_true_eq]
    constructor
    · rintro ⟨hi2, hv⟩
      rw [hw.buf.valid_iff (by omega)] at hv
      omega
    · intro hmin
      exact ⟨by omega, (hw.buf.valid_iff (by omega)).2 (by omega)⟩
  · rw [hs] at hlt
    have hv : s.fe.buf.idValid C.P i = true := (hw.buf.valid_iff (by omega)).2 (by omega)
    have hins : (s.next C x).id.rnInsn i =
        (s.fe.buf.idOut C.P i).decode (s.fe.buf.idValid C.P i) (s.irqAsync C x) := by
      simp [next, idNext, hc, ldff]
    have hword : (logNext C h s x).log.word (h.log.popped + i) = h.log.word (h.log.popped + i) :=
      FetchLog.next_word_old (by omega)
    rw [hins, hv, hw.buf.out_eq (by omega) (by omega), hn, ← hi.popped, logNext_irq_new hlt, hword]
  · rw [hn] at hm
    have hword : (logNext C h s x).log.word m = h.log.word m := FetchLog.next_word_old (by omega)
    rw [logNext_irq_old (by omega), hword]
    rcases Nat.lt_or_ge m (s.be.nextNum h.trace) with hlt | hge
    · have hold : (logNext C h s x).trace.ins m = h.trace.ins m := Backend.Trace.next_ins_of_lt hlt
      rw [hold]
      exact hi.renamed m hlt
    · obtain ⟨k, rfl⟩ := Nat.exists_eq_add_of_le hge
      have hnew : (logNext C h s x).trace.ins (s.be.nextNum h.trace + k) =
          s.be.rn.renamed (s.be.rnIn C.D (s.beIn x)) k :=
        Backend.Trace.next_ins_new hf (by omega)
      rw [hnew]
      exact hi.held k (by omega)

theorem Feeds.next_wait (hi : s.Feeds C h) (hw : s.fe.Fetches C.P C.F h.log)
    (hf : s.flush C x = false)
    (hc : s.idCe C x = false) : (s.next C x).Feeds C (logNext C h s x) := by
  have hfe : (s.feIn C x).flush = false := hf
  have hce : (s.feIn C x).idCe = false := hc
  have hcnt : s.fe.idPopCnt C.P (s.feIn C x) = 0 := Frontend.idPopCnt_of_not_idCe hce
  have hle := hw.buf.le
  have hacc : s.be.accepted C.D (s.beIn x) = 0 := by
    rw [accepted_eq, hc, if_neg Bool.false_ne_true]
  have hn : (s.next C x).be.nextNum (logNext C h s x).trace = s.be.nextNum h.trace := by
    have := Backend.nextNum_next (s := s.be) (D := C.D) (x := s.beIn x) (t := h.trace) hf
    rw [hacc] at this
    exact this
  have hid : (s.next C x).id = s.id := by
    simp [next, idNext, hf, hc, ldff]
  have hp : (logNext C h s x).log.popped = h.log.popped := by
    simp [logNext, FetchLog.next, hfe, hcnt]
  have hword : ∀ m < h.log.popped, (logNext C h s x).log.word m = h.log.word m :=
    fun m hm => FetchLog.next_word_old (by omega)
  have hpop := hi.popped
  refine ⟨?_, ?_, ?_, fun i hlt => ?_, fun m hm => ?_⟩
  · rw [hid]
    exact hi.size_le
  · rw [hid]
    exact hi.valid
  · rw [hid, hn, hp]
    exact hi.popped
  · rw [hid] at hlt ⊢
    rw [hn, hword _ (by omega), logNext_irq_old (by omega)]
    exact hi.held i hlt
  · rw [hn] at hm
    have hold : (logNext C h s x).trace.ins m = h.trace.ins m := Backend.Trace.next_ins_of_lt hm
    rw [hold, hword m (by omega), logNext_irq_old (by omega)]
    exact hi.renamed m hm

theorem Feeds.next (hi : s.Feeds C h) (hw : s.fe.Fetches C.P C.F h.log) (hP : 1 ≤ C.P)
    (x : CoreIn) : (s.next C x).Feeds C (logNext C h s x) := by
  cases hf : s.flush C x with
  | true => exact Feeds.next_flush h hf
  | false =>
      cases hc : s.idCe C x with
      | true => exact hi.next_move hw hP hf hc
      | false => exact hi.next_wait hw hf hc

/-! ### Every reachable state -/

/-- **The core in every reachable state**: the front-end with its log and the back-end with its
trace are in states that they reach alone, and what the back-end has renamed since the last flush is
what the front-end has pushed since then, in the same order. -/
theorem feeds_of_reach (hP : 1 ≤ C.P) (hr : (observed n C pcRst u w z).Reach (s, h)) :
    (Frontend.logged C.P C.F C.p C.b pcRst u w).Reach (s.fe, h.log) ∧
      (Backend.traced n C.D z).Reach (s.be, h.trace) ∧ s.Feeds C h := by
  refine Machine.Reach.inv (P := fun q : Core n × CoreLog =>
    (Frontend.logged C.P C.F C.p C.b pcRst u w).Reach (q.1.fe, q.2.log) ∧
      (Backend.traced n C.D z).Reach (q.1.be, q.2.trace) ∧ q.1.Feeds C q.2) ?_ ?_ hr
  · refine ⟨Machine.Reach.reset, Machine.Reach.reset, Nat.zero_le _, fun i => ?_, rfl,
      fun i hi => ?_, fun m hm => ?_⟩
    · exact (decide_eq_false (Nat.not_lt_zero i)).symm
    · exact absurd hi (Nat.not_lt_zero i)
    · exact absurd hm (Nat.not_lt_zero m)
  · rintro ⟨s, h⟩ x ⟨h₁, h₂, h₃⟩ -
    exact ⟨Machine.Reach.tick (x := s.feIn C x) h₁ trivial,
      Machine.Reach.tick (x := s.beIn x) h₂ ⟨h₃.delivers, trivial⟩,
      h₃.next (Frontend.fetches_of_reach hP h₁) hP x⟩

end Core

/-! ### Programs on the chip -/

/-- The configuration of the chip. -/
def chip : CoreCfg := ⟨2, 2, 3, 3, 3, ⟨8, 6, 9, 3, 7, 5, 2, 1⟩⟩

/-- A cycle in which no cache stalls, and the I-cache shows the memory `mem`. -/
def Core.memIn {n : ℕ} (s : Core n) (mem : Pc → BitVec 32) (irr : Word) : CoreIn where
  icStall := false
  ins := fun i => mem (s.fe.s2oPc i)
  icinvReady := true
  dcStall := false
  dcDout := 0
  rd := ⟨0, 0, 0, 0, 0, 0, irr, 0, 0⟩

/-- The chip after `k` cycles; `irr` says which interrupts are requested in each of them. -/
def chipRun (mem : Pc → BitVec 32) (irr : ℕ → Word) : ℕ → Core 4 × CoreLog
  | 0 => (Core.observed 4 chip 0xc000000 Frontend.bpuRst Frontend.emptyWord emptyInsn).reset
  | k + 1 =>
      ((chipRun mem irr k).1.next chip ((chipRun mem irr k).1.memIn mem (irr k)),
        Core.logNext chip (chipRun mem irr k).2 (chipRun mem irr k).1
          ((chipRun mem irr k).1.memIn mem (irr k)))

theorem chipRun_reach (mem : Pc → BitVec 32) (irr : ℕ → Word) (k : ℕ) :
    (Core.observed 4 chip 0xc000000 Frontend.bpuRst Frontend.emptyWord emptyInsn).Reach
      (chipRun mem irr k) := by
  induction k with
  | zero => exact Machine.Reach.reset
  | succ k ih => exact Machine.Reach.tick ih trivial

end NanoCpu
