/-
**The invalidation of a set of the I-cache.**

A WMSR to `IC.INV` asks the I-cache to empty a set when it is the oldest instruction, and stalls
commit while the I-cache is not ready.  The I-cache takes such a request in `S_IDLE` only, but
`msr_icinv_ready` is the negation of `fsm_idle`: commit waits exactly while the I-cache is idle.  A
request that comes then is taken in the next cycle; one that comes while the state machine is busy
is acknowledged at once, and nobody empties the set.

Main definitions:

* `IcSide` — the back-end with the I-cache and its memory; the rest of the core may do anything;
* `InvJob`, `InvLog` — an observer of the invalidations, from the cycle in which the request reaches
  the I-cache to that in which its instruction commits;
* `IcSide.observed` — the machine with the observer.

Main results:

* `IcSide.JobInv.next` — the invariant of an invalidation in progress;
* `icinv_kept_iff` — exactly the requests that find the I-cache idle empty their set;
* `icinv_lost` — a request that comes during a refill is lost.
-/

import NanoCpu.IcacheBus
import NanoCpu.ExcEntry

set_option relaxedAutoImplicit false
set_option autoImplicit false
set_option linter.unusedSectionVars false

namespace NanoCpu

/-! ### The tags of a set -/

namespace Icache

variable {n : ℕ} [NeZero n] (S : ℕ) (s : Icache n) (x : IcIn n)

/-- Every way of set `l` is written with an empty entry. -/
def clears (l : ℕ) : Bool :=
  decide (∀ w, s.s1iTagVWe w = true) && decide (s.s1iLineAddr S x = l) && !(s.s1iReplaceTagV S).2

/-- Way `w` of set `l` is given to a new line. -/
def fills (w : Fin n) (l : ℕ) : Bool :=
  s.s1iTagVWe w && decide (s.s1iLineAddr S x = l) && (s.s1iReplaceTagV S).2

variable {S s x}

theorem clears_of_invalidate {l : ℕ} (hst : s.state = .invalidate) (hl : s.s1oOpInvLine = l) :
    s.clears S x l = true := by
  simp [clears, s1iTagVWe, s1iLineAddr, s1iReplaceTagV, hst, hl]

theorem clears_eq_false {l : ℕ} (h₁ : s.state ≠ .boot) (h₂ : s.state ≠ .invalidate) :
    s.clears S x l = false := by
  have hpos : 0 < n := NeZero.pos n
  by_cases hst : s.state = .replace
  · simp [clears, s1iReplaceTagV, hst]
  · have : s.s1iTagVWe 0 = false := by simp [s1iTagVWe, h₁, h₂, hst]
    have hno : ¬ ∀ w, s.s1iTagVWe w = true := by
      intro h
      rw [h 0] at this
      cases this
    simp [clears, hno]

theorem tagV_next_of_clears {l : ℕ} (h : s.clears S x l = true) (w : Fin n) :
    ((s.next S x).tagV w l).2 = false := by
  simp only [clears, Bool.and_eq_true, decide_eq_true_eq, Bool.not_eq_true'] at h
  change (if s.s1iTagVWe w = true ∧ l = s.s1iLineAddr S x then s.s1iReplaceTagV S else
    s.tagV w l).2 = false
  rw [if_pos ⟨h.1.1 w, h.1.2.symm⟩, h.2]

/-- What a way holds it held before, or has just been given. -/
theorem tagV_next_cases {w : Fin n} {l : ℕ} (h : ((s.next S x).tagV w l).2 = true) :
    s.fills S x w l = true ∨ (s.tagV w l).2 = true := by
  change (if s.s1iTagVWe w = true ∧ l = s.s1iLineAddr S x then s.s1iReplaceTagV S
    else s.tagV w l).2 = true at h
  split_ifs at h with hc
  · left
    simp [fills, hc.1, hc.2, h]
  · exact Or.inr h

end Icache

/-! ### The back-end with the I-cache -/

structure IcSide (n k : ℕ) where
  core : Backend n
  ic : Icache k
  mem : AxiMem

/-- The inputs of one cycle: the instructions offered to rename, the D-cache and the MSRs of other
units; what the I-cache is asked to fetch; the bus, and what a payload RAM shows after a write. -/
structure IcSideIn (k : ℕ) where
  rnValid : ℕ → Bool
  rnPushSize : ℕ
  rnInsn : ℕ → DecInsn
  dcStall : Bool
  dcDout : Word
  rd : MsrRd
  iqReady : Bool
  vpo : BitVec 13
  ppn : Ppn
  uncached : Bool
  kill : Bool
  axi : AxiIn
  unc : Fin k → ℕ → Byte

/-- An invalidation: its set, whether the I-cache was idle when the request reached it, whether the
set has been emptied since, and which ways of the set have been given to a new line since. -/
structure InvJob (k : ℕ) where
  line : ℕ
  idle : Bool
  cleared : Bool
  filled : Fin k → Bool

/-- The invalidation that is going on, and those whose instruction has committed, each with whether
the set holds a line from before the request then. -/
structure InvLog (k : ℕ) where
  cur : Option (InvJob k)
  done : List (InvJob k × Bool)

/-- What a cycle of the I-cache adds. -/
def InvJob.next {k : ℕ} [NeZero k] (S : ℕ) (j : InvJob k) (s : Icache k) (x : IcIn k) :
    InvJob k where
  line := j.line
  idle := j.idle
  cleared := j.cleared || s.clears S x j.line
  filled := fun w => j.filled w || s.fills S x w j.line

/-- A way of the set holds a line that it held before the request. -/
def InvJob.stale {k : ℕ} (j : InvJob k) (s : Icache k) : Bool :=
  decide (∃ w, (s.tagV w j.line).2 = true ∧ j.filled w = false)

namespace IcSide

variable {n k : ℕ} [NeZero n] [NeZero k]

def reset (z : RInsn) (tagV : Fin k → ℕ → ℕ × Bool) (pay : Fin k → ℕ × ℕ → ℕ → Byte)
    (m₀ : ℕ → Byte) : IcSide n k :=
  ⟨Backend.reset n z, Icache.reset tagV pay, AxiMem.idle m₀⟩

variable (D S : ℕ) (s : IcSide n k) (x : IcSideIn k)

def coreIn : BackendIn :=
  ⟨x.rnValid, x.rnPushSize, x.rnInsn, x.dcStall, x.dcDout, s.ic.icinvReady, x.rd⟩

def cmtIn : CmtIn := s.core.cmtIn D (s.coreIn x)

/-- `msr_icinv_we`. -/
def invWe : Bool := s.core.cmt.icinvWe (s.cmtIn D x)

/-- `msr_icinv_line_nxt`. -/
def invLine : ℕ := Dcache.setOf S (s.core.cmt.epuReqIn (s.cmtIn D x)).wdat.toNat

def icIn : IcIn k :=
  ⟨x.iqReady, x.vpo, x.ppn, x.uncached, x.kill, s.invWe D x, s.invLine D S x, x.axi, x.unc⟩

def next : IcSide n k :=
  ⟨s.core.next D (s.coreIn x), s.ic.next S (s.icIn D S x), s.mem.next s.ic.axiOut x.axi⟩

/-- The back-end with the I-cache, behind a decoder and in front of a correct memory.  No WMSR
commits before the I-cache has fetched it. -/
def machine (n k : ℕ) [NeZero n] [NeZero k] (D S : ℕ) (z : RInsn) (tagV : Fin k → ℕ → ℕ × Bool)
    (pay : Fin k → ℕ × ℕ → ℕ → Byte) (m₀ : ℕ → Byte) : Machine (IcSide n k) (IcSideIn k) where
  reset := reset z tagV pay m₀
  allowed s x := (s.coreIn x).Delivers ∧ s.mem.Answers x.axi ∧
    (s.invWe D x = true → s.ic.state ≠ .boot)
  next s x := s.next D S x

/-- The oldest instruction commits. -/
def commits : Bool := decide (s.core.popSize D (s.coreIn x) ≠ 0)

/-- The oldest instruction commits or is flushed. -/
def leaves : Bool := s.core.flush D (s.coreIn x) || s.commits D x

end IcSide

/-- What the observer notes in a cycle. -/
def InvLog.next {n k : ℕ} [NeZero n] [NeZero k] (D S : ℕ) (h : InvLog k) (s : IcSide n k)
    (x : IcSideIn k) : InvLog k :=
  let cur := (h.cur.or (if s.invWe D x then
    some ⟨s.invLine D S x, s.ic.fsmIdle, false, fun _ => false⟩ else none)).map
      fun j => j.next S s.ic (s.icIn D S x)
  if s.leaves D x then
    ⟨none, h.done ++ if s.commits D x then
      cur.toList.map fun j => (j, j.stale (s.next D S x).ic) else []⟩
  else ⟨cur, h.done⟩

namespace IcSide

variable {n k : ℕ} [NeZero n] [NeZero k] {D S : ℕ} {s : IcSide n k} {x : IcSideIn k} {z : RInsn}
  {tagV : Fin k → ℕ → ℕ × Bool} {pay : Fin k → ℕ × ℕ → ℕ → Byte} {m₀ : ℕ → Byte} {g : InvLog k}
    {t : Trace}

/-- The machine with an observer of the invalidations. -/
def observed (n k : ℕ) [NeZero n] [NeZero k] (D S : ℕ) (z : RInsn) (tagV : Fin k → ℕ → ℕ × Bool)
    (pay : Fin k → ℕ × ℕ → ℕ → Byte) (m₀ : ℕ → Byte) :
    Machine (IcSide n k × InvLog k) (IcSideIn k) :=
  (machine n k D S z tagV pay m₀).observe ⟨none, []⟩ (fun h s x => h.next D S s x) fun _ _ _ => True

/-! ### Commit while an invalidation is asked for -/

section Cycle

variable (hi : s.core.Inv D t)

include hi

/-- The oldest instruction stays until the units have finished it. -/
theorem stays (hq : s.core.cmt.pipeReq (s.cmtIn D x) = true)
    (hf : s.core.cmt.pipeFinish (s.cmtIn D x) = false) : s.leaves D x = false := by
  obtain ⟨hfire, hfl⟩ := Cmt.Inv.stays (x := s.cmtIn D x) hi.cmt hq hf
  have hpop : s.core.popSize D (s.coreIn x) = 0 := by
    have h0 : s.core.fire D (s.coreIn x) 0 = false := hfire
    rw [Backend.fire_eq (by omega)] at h0
    simpa using h0
  have hfl' : s.core.flush D (s.coreIn x) = false := hfl
  simp [leaves, commits, hfl', hpop]

/-- A request is that of the oldest instruction, which stays. -/
theorem of_invWe (hw : s.invWe D x = true) : s.core.cmt.pending = false ∧
    s.core.cmt.pipeReq (s.cmtIn D x) = true ∧ x.dcStall = false ∧ s.leaves D x = false := by
  have hw' := hw
  rw [invWe, Cmt.icinvWe, Bool.and_eq_true, Bool.not_eq_true'] at hw'
  obtain ⟨hreq, hd⟩ := hw'
  have hval : s.core.cmt.epuReqValid (s.cmtIn D x) = true := by
    by_contra hne
    rw [EpuReq.icInvWe, EpuReq.wmsr_of_not_valid (x := s.core.cmt.epuReqIn (s.cmtIn D x))
      (Bool.eq_false_of_not_eq_true hne), Bool.false_and] at hreq
    cases hreq
  simp only [Cmt.epuReqValid, Bool.and_eq_true, Bool.not_eq_true'] at hval
  have hpr : s.core.cmt.pipeReq (s.cmtIn D x) = true := by
    simp [Cmt.pipeReq, hval.1.2, hval.2]
  exact ⟨hval.1.1, hpr, hd, stays hi hpr ((hi.cmt.quiet hval.1.1).pipeFinish _)⟩

/-- While a unit works on the oldest instruction there is no request, and the instruction leaves
when the unit has finished. -/
theorem of_pending (hp : s.core.cmt.pending = true) : s.invWe D x = false ∧
    (s.leaves D x = false → (s.next D S x).core.cmt.pending = true) := by
  refine ⟨?_, fun hl => ?_⟩
  · rw [invWe, Cmt.icinvWe, EpuReq.icInvWe,
      EpuReq.wmsr_of_not_valid (x := s.core.cmt.epuReqIn (s.cmtIn D x))
        (Cmt.epuReqValid_of_pending hp)]
    rfl
  · change (if s.core.cmt.pending then !s.core.cmt.pipeFinish (s.cmtIn D x) else _) = true
    rw [if_pos hp, Bool.not_eq_true']
    by_contra hne
    simp only [leaves, commits, Bool.or_eq_false_iff, decide_eq_false_iff_not, not_not] at hl
    have hfire := (Cmt.Inv.fire_of_finish (x := s.cmtIn D x) hi.cmt (by simpa using hne) hl.1).1
    have h0 : s.core.fire D (s.coreIn x) 0 = true := hfire
    rw [Backend.fire_eq (by omega), hl.2] at h0
    simp at h0

end Cycle

/-! ### An invalidation in progress -/

/-- The request has been taken, and the set is being emptied; commit still waits. -/
structure Asked (D : ℕ) (s : IcSide n k) (j : InvJob k) : Prop where
  state : s.ic.state = .invalidate
  line : s.ic.s1oOpInvLine = j.line
  pending : s.core.cmt.pending = false
  seFls : s.core.cmt.seFls = false
  valid : s.core.rob.cmtValid 1 D 0 = true
  needs : (s.core.head D 0).needsPipe = true

/-- The set has been emptied, and holds only lines that it was given after the request. -/
structure Emptied (s : IcSide n k) (j : InvJob k) : Prop where
  cleared : j.cleared = true
  fresh : ∀ w, (s.ic.tagV w j.line).2 = true → j.filled w = true

/-- The request has been acknowledged, and nobody empties the set. -/
structure Lost (s : IcSide n k) (j : InvJob k) : Prop where
  cleared : j.cleared = false
  pending : s.core.cmt.pending = true
  state : s.ic.state ≠ .invalidate ∧ s.ic.state ≠ .boot

/-- How far an invalidation has come. -/
structure Going (D : ℕ) (s : IcSide n k) (j : InvJob k) : Prop where
  kept : j.idle = true → s.Asked D j ∨ s.Emptied j
  lost : j.idle = false → s.Lost j

/-- Without an invalidation the cache does not empty a set. -/
def JobInv (D : ℕ) (s : IcSide n k) (h : InvLog k) : Prop :=
  match h.cur with
  | none => s.ic.state ≠ .invalidate
  | some j => s.Going D j

theorem Emptied.stale {j : InvJob k} (h : s.Emptied j) : j.stale s.ic = false := by
  refine decide_eq_false ?_
  rintro ⟨w, hv, hf⟩
  rw [h.fresh w hv] at hf
  cases hf

theorem Emptied.next {j : InvJob k} (h : s.Emptied j) :
    (s.next D S x).Emptied (j.next S s.ic (s.icIn D S x)) := by
  refine ⟨?_, fun w hv => ?_⟩
  · change (j.cleared || _) = true
    rw [h.cleared, Bool.true_or]
  · change ((s.next D S x).ic.tagV w j.line).2 = true at hv
    change (j.filled w || s.ic.fills S (s.icIn D S x) w j.line) = true
    rcases Icache.tagV_next_cases (s := s.ic) (x := s.icIn D S x) hv with hf | hv'
    · rw [hf, Bool.or_true]
    · rw [h.fresh w hv', Bool.true_or]

/-- The cycle that empties the set. -/
theorem Asked.next {j : InvJob k} (h : s.Asked D j) :
    (s.next D S x).Emptied (j.next S s.ic (s.icIn D S x)) := by
  have hc : s.ic.clears S (s.icIn D S x) j.line = true := Icache.clears_of_invalidate h.state h.line
  refine ⟨?_, fun w hv => ?_⟩
  · change (j.cleared || s.ic.clears S (s.icIn D S x) j.line) = true
    rw [hc, Bool.or_true]
  · change ((s.next D S x).ic.tagV w j.line).2 = true at hv
    rw [show ((s.next D S x).ic.tagV w j.line).2 = false from Icache.tagV_next_of_clears hc w] at hv
    cases hv

/-- Commit does not go on before the set is empty. -/
theorem Asked.waits {j : InvJob k} (h : s.Asked D j) (hi : s.core.Inv D t) :
    s.leaves D x = false := by
  refine stays hi ?_ ((hi.cmt.quiet h.pending).pipeFinish _)
  rw [Cmt.pipeReq_eq h.seFls h.valid]
  exact h.needs

theorem Lost.next_cleared {j : InvJob k} (h : s.Lost j) :
    (j.next S s.ic (s.icIn D S x)).cleared = false := by
  change (j.cleared || s.ic.clears S (s.icIn D S x) j.line) = false
  rw [h.cleared, Icache.clears_eq_false h.state.2 h.state.1]
  rfl

theorem Lost.next {j : InvJob k} (h : s.Lost j) (hi : s.core.Inv D t) (hl : s.leaves D x = false) :
    (s.next D S x).Lost (j.next S s.ic (s.icIn D S x)) := by
  obtain ⟨hw, hp⟩ := of_pending (S := S) (x := x) hi h.pending
  refine ⟨h.next_cleared, hp hl, fun hn => ?_, fun hn => h.state.2 (Icache.of_next_boot hn)⟩
  have := (Icache.of_next_invalidate (x := s.icIn D S x) hn).2
  rw [show (s.icIn D S x).invWe = false from hw] at this
  cases this

/-- A request that finds the I-cache idle: it is taken, and commit waits. -/
theorem asked_of_invWe (hi : s.core.Inv D t) (hx : (s.coreIn x).Delivers) (hw : s.invWe D x = true)
    (hst : s.ic.state = .idle) {j : InvJob k} (hj : j.line = s.invLine D S x) :
    (s.next D S x).Asked D j := by
  obtain ⟨hp, hq, hd, hl⟩ := of_invWe hi hw
  have hse : s.core.cmt.seFls = false := Cmt.seFls_of_pipeReq hq
  have hval : s.core.rob.cmtValid 1 D 0 = true := Cmt.valid_of_pipeReq hq
  simp only [leaves, commits, Bool.or_eq_false_iff, decide_eq_false_iff_not, not_not] at hl
  obtain ⟨num, hpl, hv⟩ := hi.place
  obtain ⟨hval', hhead⟩ := hi.order.head_stays hpl hv hx hval hl.2 hl.1
  have hidle : s.ic.fsmIdle = true := by simp [Icache.fsmIdle, hst]
  have hready : (s.cmtIn D x).icinvReady = false := by
    change (!s.ic.fsmIdle) = false
    rw [hidle]
    rfl
  have hce : s.core.cmt.pCeS1 (s.cmtIn D x) = false := by
    have hw' : s.core.cmt.icinvWe (s.cmtIn D x) = true := hw
    simp [Cmt.pCeS1, Cmt.icinvStallReq, hw', hready]
  have hfire : s.core.cmt.fire (s.cmtIn D x) 0 = false := by
    have : s.core.fire D (s.coreIn x) 0 = false := by
      rw [Backend.fire_eq (by omega), hl.2]
      rfl
    exact this
  refine ⟨?_, ?_, ?_, ?_, hval', ?_⟩
  · change s.ic.stateNxt S (s.icIn D S x) = _
    simp [Icache.stateNxt, hst, show (s.icIn D S x).invWe = true from hw]
  · change ldff s.ic.fsmIdle (s.invLine D S x) _ = _
    rw [hidle, ldff_true, hj]
  · change (if s.core.cmt.pending then _ else s.core.cmt.pipeReq (s.cmtIn D x) &&
      s.core.cmt.pCeS1 (s.cmtIn D x)) = false
    rw [hp, hce, Bool.and_false]
    rfl
  · change ldff (s.core.cmt.fire (s.cmtIn D x) 0 || s.core.cmt.seFls) _ s.core.cmt.seFls = false
    rw [hfire, hse]
    rfl
  · change ((s.core.next D (s.coreIn x)).head D 0).needsPipe = true
    rw [hhead]
    exact (Cmt.pipeReq_eq (x := s.cmtIn D x) hse hval).symm.trans hq

/-- A request that finds the I-cache at work: it is acknowledged, and nobody takes it. -/
theorem lost_of_invWe (hi : s.core.Inv D t) (hw : s.invWe D x = true) (hst : s.ic.state ≠ .idle)
    (hn : s.ic.state ≠ .invalidate ∧ s.ic.state ≠ .boot) {j : InvJob k} (hj : j.cleared = false) :
    (s.next D S x).Lost (j.next S s.ic (s.icIn D S x)) := by
  obtain ⟨hp, hq, hd, -⟩ := of_invWe hi hw
  have hready : (s.cmtIn D x).icinvReady = true := by
    change (!s.ic.fsmIdle) = true
    simp [Icache.fsmIdle, hst]
  refine ⟨?_, ?_, fun hn' => hst (Icache.of_next_invalidate hn').1,
    fun hn' => hn.2 (Icache.of_next_boot hn')⟩
  · change (j.cleared || s.ic.clears S (s.icIn D S x) j.line) = false
    rw [hj, Icache.clears_eq_false hn.2 hn.1]
    rfl
  · change (if s.core.cmt.pending then _ else s.core.cmt.pipeReq (s.cmtIn D x) &&
      s.core.cmt.pCeS1 (s.cmtIn D x)) = true
    rw [hp, hq]
    simp [Cmt.pCeS1, Cmt.icinvStallReq, hready, show (s.cmtIn D x).dcStall = false from hd]

/-! ### Runs -/

/-- What holds of an invalidation when its instruction commits. -/
def Settled (r : InvJob k × Bool) : Prop := (r.1.cleared = true ∧ r.2 = false) ↔ r.1.idle = true

theorem Going.settled (hi : s.core.Inv D t) {j : InvJob k} (h : s.Going D j)
    (hl : s.leaves D x = true) :
    Settled (j.next S s.ic (s.icIn D S x),
      (j.next S s.ic (s.icIn D S x)).stale (s.next D S x).ic) := by
  cases hidle : j.idle with
  | true =>
      rcases h.kept hidle with ha | he
      · rw [ha.waits hi] at hl
        cases hl
      · have he' := he.next (D := D) (S := S) (x := x)
        exact ⟨fun _ => hidle, fun _ => ⟨he'.cleared, he'.stale⟩⟩
  | false =>
      have hc := (h.lost hidle).next_cleared (D := D) (S := S) (x := x)
      refine ⟨fun hr => ?_, fun hr => ?_⟩
      · rw [hc] at hr
        exact Bool.noConfusion hr.1
      · rw [show (j.next S s.ic (s.icIn D S x)).idle = false from hidle] at hr
        cases hr

theorem Going.next (hi : s.core.Inv D t) {j : InvJob k} (h : s.Going D j)
    (hl : s.leaves D x = false) : (s.next D S x).Going D (j.next S s.ic (s.icIn D S x)) := by
  refine ⟨fun hidle => Or.inr ?_, fun hidle => (h.lost hidle).next hi hl⟩
  rcases h.kept hidle with ha | he
  · exact ha.next
  · exact he.next

/-- The cycle in which a request reaches the I-cache. -/
theorem going_of_invWe (hi : s.core.Inv D t) (hx : (s.coreIn x).Delivers) (hw : s.invWe D x = true)
    (hn : s.ic.state ≠ .invalidate) (hb : s.ic.state ≠ .boot) :
    (s.next D S x).Going D
    ((⟨s.invLine D S x, s.ic.fsmIdle, false, fun _ => false⟩ : InvJob k).next S s.ic
      (s.icIn D S x)) := by
  refine ⟨fun hidle => Or.inl ?_, fun hidle => ?_⟩
  · exact asked_of_invWe hi hx hw (by simpa [InvJob.next, Icache.fsmIdle] using hidle) rfl
  · exact lost_of_invWe hi hw (by simpa [InvJob.next, Icache.fsmIdle] using hidle) ⟨hn, hb⟩ rfl

theorem JobInv.next (hi : s.core.Inv D t) (hx : (s.coreIn x).Delivers)
    (hb : s.invWe D x = true → s.ic.state ≠ .boot) (h : s.JobInv D g) :
    (s.next D S x).JobInv D (g.next D S s x) ∧
      ∀ r ∈ (g.next D S s x).done, r ∈ g.done ∨ Settled r := by
  have hinv : (s.next D S x).ic.state = .invalidate → s.invWe D x = true :=
    fun hst => (Icache.of_next_invalidate (x := s.icIn D S x) hst).2
  rw [JobInv] at h
  cases hg : g.cur with
  | none =>
      rw [hg] at h
      cases hw : s.invWe D x with
      | false =>
          have hst : (s.next D S x).ic.state ≠ .invalidate := fun hst => by
            rw [hinv hst] at hw
            cases hw
          have hnext : g.next D S s x = ⟨none, g.done⟩ := by
            simp [InvLog.next, hg, hw]
          rw [hnext]
          exact ⟨hst, fun r hr => Or.inl hr⟩
      | true =>
          have hl := (of_invWe hi hw).2.2.2
          have hgo := going_of_invWe (S := S) hi hx hw h (hb hw)
          have hnext : g.next D S s x = ⟨some
            ((⟨s.invLine D S x, s.ic.fsmIdle, false, fun _ => false⟩ :
              InvJob k).next S s.ic (s.icIn D S x)), g.done⟩ := by
            simp [InvLog.next, hg, hw, hl]
          rw [hnext]
          exact ⟨hgo, fun r hr => Or.inl hr⟩
  | some j =>
      rw [hg] at h
      cases hl : s.leaves D x with
      | false =>
          have hnext : g.next D S s x = ⟨some (j.next S s.ic (s.icIn D S x)), g.done⟩ := by
            simp [InvLog.next, hg, hl]
          rw [hnext]
          exact ⟨h.next hi hl, fun r hr => Or.inl hr⟩
      | true =>
          have hst : (s.next D S x).ic.state ≠ .invalidate := fun hst => by
            rw [(of_invWe hi (hinv hst)).2.2.2] at hl
            cases hl
          refine ⟨?_, fun r hr => ?_⟩
          · have hcur : (g.next D S s x).cur = none := by simp [InvLog.next, hg, hl]
            rw [JobInv, hcur]
            exact hst
          · have hdone : (g.next D S s x).done = g.done ++ if s.commits D x then
                [(j.next S s.ic (s.icIn D S x),
                  (j.next S s.ic (s.icIn D S x)).stale (s.next D S x).ic)]
                else [] := by
              simp [InvLog.next, hg, hl]
            rw [hdone, List.mem_append] at hr
            rcases hr with hr | hr
            · exact Or.inl hr
            · split_ifs at hr
              · rw [List.mem_singleton.1 hr]
                exact Or.inr (h.settled hi hl)
              · simp at hr

theorem settled_of_reach (h : (observed n k D S z tagV pay m₀).Reach (s, g)) :
    (∃ t, (Backend.traced n D z).Reach (s.core, t)) ∧ s.JobInv D g ∧ ∀ r ∈ g.done, Settled r := by
  refine Machine.Reach.inv (M := observed n k D S z tagV pay m₀)
    (P := fun q => (∃ t, (Backend.traced n D z).Reach (q.1.core, t)) ∧ q.1.JobInv D q.2 ∧
      ∀ r ∈ q.2.done, Settled r) ?_ ?_ h
  · refine ⟨⟨_, Machine.Reach.reset⟩, fun hst => ?_, fun r hr => ?_⟩
    · cases hst
    · cases hr
  · rintro ⟨s, g⟩ x ⟨⟨t, ht⟩, hj, hr⟩ ⟨⟨hx, ha, hb⟩, -⟩
    have hi := Backend.inv_of_reach ht
    obtain ⟨hj', hr'⟩ := hj.next (S := S) hi hx hb
    refine ⟨⟨_, Machine.Reach.tick ht ⟨hx, trivial⟩⟩, hj', fun r hm => ?_⟩
    rcases hr' r hm with h' | h'
    · exact hr r h'
    · exact h'

end IcSide

/-! ### Lost invalidations -/

section

variable {n k : ℕ} [NeZero n] [NeZero k] {D S : ℕ} {s : IcSide n k} {z : RInsn}
  {tagV : Fin k → ℕ → ℕ × Bool} {pay : Fin k → ℕ × ℕ → ℕ → Byte} {m₀ : ℕ → Byte} {g : InvLog k}

/-- **An invalidation is kept exactly if the I-cache is idle when the request reaches it**: then,
and only then, every way of the set has been emptied when the instruction commits, and the set holds
only lines that were asked for after the request. -/
theorem icinv_kept_iff (h : (IcSide.observed n k D S z tagV pay m₀).Reach (s, g)) :
    ∀ r ∈ g.done, (r.1.cleared = true ∧ r.2 = false) ↔ r.1.idle = true :=
  (IcSide.settled_of_reach h).2.2

end

/-- `WMSR [0x602], r1`: the set of address zero. -/
def icinv : DecInsn := idDec true 0xc040461 false false false 0 noUpd

/-- The cycles of an instruction that comes alone, with fetches of the first window if the queue
takes them; the memory takes addresses and brings nothing. -/
def icinvRun (iqReady : Bool) : List (IcSideIn 1) :=
  (Backend.spaced icinv).map fun b =>
    ⟨b.rnValid, b.rnPushSize, b.rnInsn, false, 0, b.rd, iqReady, 0, 0, false, false,
    { AxiIn.silent with arReady := true }, fun _ _ => 0⟩

def icinvSide : Machine (IcSide 4 1 × InvLog 1) (IcSideIn 1) :=
  IcSide.observed 4 1 3 0 emptyInsn (fun _ _ => (0, false)) (fun _ _ _ => 0) fun _ => 0

theorem icinvRun_reach (b : Bool) : icinvSide.Reach (icinvSide.run (icinvRun b)) := by
  have hb : ∀ b : Bool, ∀ k < 10, ∀ x ∈ (icinvRun b)[k]?,
      (icinvSide.run ((icinvRun b).take k)).1.invWe 3 x = true →
        (icinvSide.run ((icinvRun b).take k)).1.ic.state ≠ .boot := by
    decide +kernel
  refine Machine.reach_run fun k x hx => ⟨⟨?_, ?_, ?_⟩, trivial⟩
  · obtain ⟨y, hy, rfl⟩ := List.mem_map.1 (List.mem_of_getElem? hx)
    have hd := Backend.spaced_delivers (idDec_wellFormed _ _ _ _ _ _ _) y hy
    exact ⟨hd.le, hd.valid, hd.wellFormed⟩
  · obtain ⟨y, -, rfl⟩ := List.mem_map.1 (List.mem_of_getElem? hx)
    exact ⟨fun hv => Bool.noConfusion hv, fun hv => Bool.noConfusion hv⟩
  · exact hb b k (List.getElem?_eq_some_iff.1 hx).1 x hx

/-- The I-cache is idle, and the set has been emptied when the instruction commits. -/
theorem icinv_kept_idle : ∃ s g, icinvSide.Reach (s, g) ∧ ∃ r ∈ g.done, r.1.cleared = true ∧
    r.2 = false := by
  have hd : (icinvSide.run (icinvRun false)).2.done.map (fun r => r.1.idle) = [true] := by
    decide +kernel
  have hr : icinvSide.Reach (icinvSide.run (icinvRun false)) := icinvRun_reach false
  obtain ⟨r, hm, hi⟩ := List.mem_map.1
    (show true ∈ (icinvSide.run (icinvRun false)).2.done.map fun r => r.1.idle by
    rw [hd]
    exact List.mem_singleton.2 rfl)
  exact ⟨_, _, hr, r, hm, (icinv_kept_iff (k := 1) hr r hm).2 hi⟩

/-- The I-cache waits for the line of a miss when the request comes: when the instruction commits,
the set has not been emptied, and holds the line that was asked for before. -/
theorem icinv_lost : ∃ s g, icinvSide.Reach (s, g) ∧
    ∃ r ∈ g.done, r.1.cleared = false ∧ r.2 = true ∧ (s.ic.tagV 0 r.1.line).2 = true := by
  have hd : (icinvSide.run (icinvRun true)).2.done.map (fun r => (r.1.cleared, r.2,
      ((icinvSide.run (icinvRun true)).1.ic.tagV 0 r.1.line).2)) =
        [(false, true, true)] := by decide +kernel
  obtain ⟨r, hm, hi⟩ := List.mem_map.1 (show (false, true, true) ∈ _ by
    rw [hd]
    exact List.mem_singleton.2 rfl)
  simp only [Prod.mk.injEq] at hi
  exact ⟨_, _, icinvRun_reach true, r, hm, hi⟩

end NanoCpu
