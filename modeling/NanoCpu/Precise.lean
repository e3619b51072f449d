/-
**Precise exceptions** (`rtl/core/cmt.v`, `cmt_lsu.v`, `cmt_epu.v`, `dcache.v`).

An exception is that of the oldest instruction.  In the cycle in which it is taken nothing commits,
the map and the free list go back to what the committed instructions have made of them, the cache
and the memory are as the last of these has left them, and nothing is left of the instructions
behind.

The ledger says of every instruction which of commit, exception and squash it comes to.  A register
of the exception unit is written in the cycle in which its instruction commits; a request to the
I-cache may be repeated before, but by an instruction that raises no exception.

Main definitions:

* `DataSide.Invalidates`, `DataSide.Marks` — what the ledger says of exceptions and MSRs;
* `DataCore`, `DataCore.booked` — the core with its data memory and the ledger.

Main results:

* `DataSide.marks_of_reach` — the ledger in every reachable state;
* `DataCore.precise_exceptions` — **exceptions are precise**.
-/

import NanoCpu.DataStore
import NanoCpu.Squash

set_option relaxedAutoImplicit false
set_option autoImplicit false
set_option linter.unusedSectionVars false

namespace NanoCpu

namespace Ledger

theorem numbered_map_snd (first : ℕ) (l : List RInsn) : (numbered first l).map Prod.snd = l := by
  refine List.ext_getElem? fun i => ?_
  rw [numbered, List.getElem?_map, List.getElem?_mapIdx]
  cases l[i]? <;> rfl

end Ledger

namespace DataSide

variable {n k : ℕ} [NeZero n] [NeZero k] {D S : ℕ} {seg : Bool} {s : DataSide n k} {x : DataIn k}
  {z : RInsn} {pay : Fin k → ℕ × ℕ → ℕ → Byte} {m₀ : ℕ → Byte} {L : Ledger k S} {t : Trace}

/-! ### Writes of MSRs -/

/-- The oldest instruction asks the I-cache to invalidate a set. -/
structure Invalidates (D : ℕ) (s : DataSide n k) : Prop where
  seFls : s.core.cmt.seFls = false
  valid : s.core.rob.cmtValid 1 D 0 = true
  icInvWe : (s.core.head D 0).epuReq.icInvWe = true

section Cycle

variable (hi : s.core.Inv D t)

include hi

/-- A register is written when the instruction commits. -/
theorem commits_of_commitWe (hw :
    (s.core.cmt.epu.commitWe (s.core.cmt.epuIn (s.cmtIn D x))).any = true) :
    s.popSize D x ≠ 0 ∧ s.flush D x = false := by
  have hce : s.dc.stallReq = false ∧ s.core.cmt.epu.s1WmsrWe.any = true := by
    rw [Epu.commitWe] at hw
    split at hw
    case isTrue hp =>
        have hp' : (!s.dc.stallReq) = true := hp
        exact ⟨by simpa using hp', hw⟩
    case isFalse => cases hw
  have hp : s.core.cmt.pending = true := by
    by_contra hne
    have := (hi.cmt.quiet (Bool.eq_false_of_not_eq_true hne)).wmsrWe
    rw [hce.2] at this
    cases this
  obtain ⟨g, hg⟩ := hi.cmt.flight hp
  have hg1 : g = .epu := by
    by_contra hne
    have := hg.wmsrWe_any hne
    rw [hce.2] at this
    cases this
  obtain ⟨num, -, hv⟩ := hi.place
  have hwf := hi.order.head_wellFormed hv (hi.cmt.valid hp)
  have hd : (s.cmtIn D x).dcStall = false := hce.1
  have hexc : s.core.cmt.excFlush (s.cmtIn D x) = false := by
    obtain ⟨b, -, -, hb⟩ := EpuReq.wmsrWe_any (hg.wmsrWe hg1 ▸ hce.2)
    rw [hg.excFlush, EpuReq.s1Fe_of_not_exc (hwf.not_exc_of_wmsr hb), hg1]
    simp [Fe.none, Fe.any]
  have hf : s.flush D x = false := by
    change (s.core.cmt.seFls || s.core.cmt.excFlush (s.cmtIn D x)) = false
    rw [hi.cmt.se hp, hexc]
    rfl
  have hfin : s.core.cmt.pipeFinish (s.cmtIn D x) = true := by rw [hg.pipeFinish, hd, hg1]; rfl
  have hfire := (Cmt.Inv.fire_of_finish (x := s.cmtIn D x) hi.cmt hfin hf).1
  have hpop := fire_zero_eq (s := s) (D := D) (x := x)
  rw [show s.core.fire D (s.coreIn x) 0 = true from hfire] at hpop
  exact ⟨of_decide_eq_true hpop.symm, hf⟩

omit hi in
theorem invalidates_of_icinvWe (hw : s.core.cmt.icinvWe (s.cmtIn D x) = true) :
    s.Invalidates D := by
  rw [Cmt.icinvWe, Bool.and_eq_true] at hw
  have hreq : s.core.cmt.epuReqValid (s.cmtIn D x) = true := by
    have := hw.1
    simp only [EpuReq.icInvWe, EpuReq.wmsr, Bool.and_eq_true] at this
    exact this.1.1.1
  have hp : s.core.cmt.pending = false := by
    by_contra hne
    rw [Cmt.epuReqValid_of_pending (by simpa using hne)] at hreq
    cases hreq
  have hpr : s.core.cmt.pipeReq (s.cmtIn D x) = true := by
    by_contra hne
    have hl := Cmt.lsuReqValid_eq_false (Bool.eq_false_of_not_eq_true hne)
    rw [Cmt.epuReqValid_eq_false hl] at hreq
    cases hreq
  refine ⟨Cmt.seFls_of_pipeReq hpr, Cmt.valid_of_pipeReq hpr, ?_⟩
  rw [show (s.core.head D 0).epuReq = s.core.cmt.epuReqIn (s.cmtIn D x) from
    (Cmt.reqIn_of_pipeReq hp hpr).1.symm]
  exact hw.1

/-- An instruction that asks the I-cache raises no exception. -/
theorem Invalidates.flush (h : s.Invalidates D) (x : DataIn k) : s.flush D x = false := by
  obtain ⟨num, -, hv⟩ := hi.place
  have hwf := hi.order.head_wellFormed hv h.valid
  have hic : (s.core.head D 0).epuReq.wmsr .ic = true := by
    have := h.icInvWe
    rw [EpuReq.icInvWe, Bool.and_eq_true] at this
    exact this.1
  have he : s.core.cmt.excFlush (s.cmtIn D x) = false := by
    by_contra hne
    have hp := (of_excFlush hi (Bool.eq_true_of_not_eq_false hne)).1
    obtain ⟨g, hg⟩ := hi.cmt.flight hp
    rw [hg.excFlush, EpuReq.s1Fe_of_not_exc (hwf.not_exc_of_wmsr hic)] at hne
    cases g with
    | lsu2 =>
        -- neither a load or a store, nor a D-cache operation
        have hstart : (s.core.head D 0).startStage = .lsu1 := hg.start
        rw [CmtHead.startStage] at hstart
        split at hstart
        case isTrue hl =>
            rw [LsuReq.valid, Bool.and_eq_true, Bool.or_eq_true, Bool.or_eq_true] at hl
            rcases hl.2 with hm | hd
            · have hr := hwf.epuReq_of_lsu (CmtHead.lsuAny_of_mem hm)
              rw [EpuReq.wmsr_of_not_valid hr] at hic
              cases hic
            · have hdc : (s.core.head D 0).epuReq.wmsr .dc = true := by
                simp only [LsuReq.dcop, Bool.or_eq_true] at hd
                rcases hd with hd | hd <;>
                  simp only [CmtHead.lsuReq, EpuReq.dcinvWe, EpuReq.dcflsWe,
                    Bool.and_eq_true] at hd <;> exact hd.1
              exact MsrBank.noConfusion (EpuReq.wmsr_unique hic hdc)
        case isFalse => split at hstart <;> cases hstart
    | lsu1 | epu | nowhere => simp [Fe.none, Fe.any] at hne
  change (s.core.cmt.seFls || s.core.cmt.excFlush (s.cmtIn D x)) = false
  rw [h.seFls, he]
  rfl

/-- It asks until it goes. -/
theorem Invalidates.next (h : s.Invalidates D) (hx : (s.coreIn x).Delivers)
    (hpop : s.popSize D x = 0) : (s.next D S seg x).Invalidates D := by
  have hf := h.flush hi x
  obtain ⟨num, hp, hv⟩ := hi.place
  obtain ⟨hval, hhead⟩ := hi.order.head_stays hp hv hx h.valid hpop hf
  refine ⟨?_, hval, ?_⟩
  · have hfire : s.core.cmt.fire (s.cmtIn D x) 0 = false := by
      have := fire_zero_eq (s := s) (D := D) (x := x)
      rw [hpop] at this
      exact this
    change ldff (s.core.cmt.fire (s.cmtIn D x) 0 || s.core.cmt.seFls) _ s.core.cmt.seFls = false
    rw [hfire, h.seFls]
    rfl
  · rw [show (s.next D S seg x).core.head D 0 = s.core.head D 0 from hhead]
    exact h.icInvWe

end Cycle

/-! ### What the ledger says -/

/-- What the ledger says of exceptions and of MSRs. -/
structure Marks (D : ℕ) (s : DataSide n k) (L : Ledger k S) : Prop where
  retired : L.committed.map Prod.snd = L.watch.retired.map Prod.fst
  raised : ∀ m ∈ L.raised, m < L.first
  committed : ∀ p ∈ L.committed, p.1 ∉ L.raised ∧ p.1 ∉ L.squashed
  wrote : ∀ m ∈ L.wrote, (m < L.first ∧ m ∉ L.raised ∧ m ∉ L.squashed) ∨
    (m = L.first ∧ s.Invalidates D)

/-- What is marked in a cycle without a flush was marked before. -/
theorem marked_next_of_flush (hi : s.core.Inv D t) (hf : s.flush D x = false) :
    (L.next D seg s x).raised = L.raised ∧ (L.next D seg s x).squashed = L.squashed := by
  have he : s.excFlush D x = false := by
    by_contra hne
    rw [(of_excFlush hi (Bool.eq_true_of_not_eq_false hne)).2.1] at hf
    cases hf
  simp [Ledger.next, hf, he]

/-- What is marked in a cycle is the oldest instruction, or one behind it. -/
theorem marked_next {m : ℕ} (hm : m < L.first) (hr : m ∉ L.raised) (hs : m ∉ L.squashed) :
    m ∉ (L.next D seg s x).raised ∧ m ∉ (L.next D seg s x).squashed := by
  constructor
  · intro h
    rcases List.mem_append.1 h with h | h
    · exact hr h
    · split at h
      case isFalse => cases h
      case isTrue => exact absurd (List.mem_singleton.1 h) (ne_of_lt hm)
  · intro h
    rcases List.mem_append.1 h with h | h
    · exact hs h
    · split at h
      case isFalse => cases h
      case isTrue =>
          rw [List.mem_range'_1] at h
          omega

section Cycle

variable (hi : s.core.Inv D t) (hb : s.Books L) (hk : s.Marks D L)

include hi hb hk

/-- What commits is not marked. -/
theorem Marks.not_marked (hf : s.flush D x = false) {m : ℕ} (hm : L.first ≤ m) :
    m ∉ (L.next D seg s x).raised ∧ m ∉ (L.next D seg s x).squashed := by
  obtain ⟨h₁, h₂⟩ : (L.next D seg s x).raised = L.raised ∧ (L.next D seg s x).squashed =
    L.squashed :=
    marked_next_of_flush hi hf
  rw [h₁, h₂]
  exact ⟨fun h => absurd (hk.raised m h) (by omega), fun h => absurd (hb.squashed m h) (by omega)⟩

variable (hw : L.watch = s.core.watch t)

include hw

/-- The oldest instruction commits, or asks the I-cache again. -/
theorem Marks.wrote_next (hx : (s.coreIn x).Delivers)
    (h : (s.popSize D x ≠ 0 ∧ s.flush D x = false) ∨ s.Invalidates D) :
    (L.first < (L.next D seg s x).first ∧ L.first ∉ (L.next D seg s x).raised ∧
        L.first ∉ (L.next D seg s x).squashed) ∨
      (L.first = (L.next D seg s x).first ∧ (s.next D S seg x).Invalidates D) := by
  have hf : s.flush D x = false := h.elim And.right fun hv => hv.flush hi x
  by_cases hpop : s.popSize D x = 0
  · have hv : s.Invalidates D := h.resolve_left fun hc => hc.1 hpop
    have hl : s.leaves D x = false := by simp [leaves, hf, hpop]
    exact Or.inr ⟨(first_next_of_stays hl).symm, hv.next hi hx hpop⟩
  · refine Or.inl ⟨?_, hk.not_marked hi hb hf le_rfl⟩
    change L.first < L.first + _
    rw [hf, if_neg Bool.false_ne_true]
    omega

/-- **The ledger after a cycle.** -/
theorem Marks.next (hx : (s.coreIn x).Delivers) :
    (s.next D S seg x).Marks D (L.next D seg s x) where
  retired := by
    change (L.committed ++ Ledger.numbered _ _).map Prod.snd =
      (L.watch.retired ++ List.map _ _).map Prod.fst
    rw [List.map_append, List.map_append, hk.retired, Ledger.numbered_map_snd, List.map_map]
    exact congrArg _ (List.map_id _).symm
  raised := by
    intro m hm
    rcases List.mem_append.1 hm with hm | hm
    · exact lt_of_lt_of_le (hk.raised m hm) first_le_next
    · split at hm
      case isFalse => cases hm
      case isTrue he =>
          obtain ⟨-, hf, hv, -⟩ := of_excFlush hi he
          rw [List.mem_singleton.1 hm]
          exact lt_first_next hi hw hv (by rw [leaves, hf, Bool.true_or])
  committed := by
    intro p hp
    rcases List.mem_append.1 hp with hp | hp
    · obtain ⟨h₁, h₂⟩ := hk.committed p hp
      exact marked_next (hb.committed p hp) h₁ h₂
    · obtain ⟨i, hlt, hnum, -⟩ := of_numbered hi hw hp
      exact hk.not_marked hi hb (flush_of_commit hlt) (by omega)
  wrote := by
    intro m hm
    rcases List.mem_append.1 hm with hm | hm
    · rcases hk.wrote m hm with ⟨hlt, h₁, h₂⟩ | ⟨rfl, hv⟩
      · exact Or.inl ⟨lt_of_lt_of_le hlt first_le_next, marked_next hlt h₁ h₂⟩
      · exact hk.wrote_next hi hb hw hx (Or.inr hv)
    · split at hm
      case isFalse => cases hm
      case isTrue hwr =>
          rw [List.mem_singleton.1 hm]
          rw [writesMsr, Bool.or_eq_true] at hwr
          exact hk.wrote_next hi hb hw hx (hwr.imp (commits_of_commitWe hi) invalidates_of_icinvWe)

end Cycle

theorem marks_reset : (reset z pay m₀ : DataSide n k).Marks D
    (⟨Watch.reset, 0, [], [], [], [], [], [], [], (reset z pay m₀ : DataSide n k).store S⟩ :
      Ledger k S) where
  retired := rfl
  raised _ hm := by cases hm
  committed _ hp := by cases hp
  wrote _ hm := by cases hm

/-- **The ledger in every reachable state.** -/
theorem marks_of_reach (h : (booked n k D S seg z pay m₀).Reach (s, L)) : s.Marks D L := by
  have key : (booked n k D S seg z pay m₀).Reach (s, L) ∧ s.Marks D L := by
    refine Machine.Reach.inv (M := booked n k D S seg z pay m₀)
      (P := fun q => (booked n k D S seg z pay m₀).Reach q ∧ q.1.Marks D q.2)
      ⟨Machine.Reach.reset, marks_reset⟩ ?_ h
    rintro ⟨s, L⟩ x ⟨hr, hk⟩ hx
    obtain ⟨⟨t, ht, hw⟩, -, -⟩ := parts_of_booked hr
    exact ⟨Machine.Reach.tick hr hx,
      hk.next (Backend.inv_of_reach ht) (books_of_reach hr) hw hx.1.1⟩
  exact key.2

end DataSide

/-! ### The core with its data memory -/

/-- The core, the D-cache and the memory. -/
structure DataCore (n k : ℕ) where
  core : Core n
  dc : Dcache k
  mem : AxiMem

/-- The inputs of one cycle: the I-cache, the MSRs of other units, the bus, and what a payload RAM
shows after a write. -/
structure DataCoreIn (k : ℕ) where
  icStall : Bool
  ins : ℕ → BitVec 32
  icinvReady : Bool
  rd : MsrRd
  axi : AxiIn
  unc : Fin k → ℕ → Byte

namespace DataCore

variable {n k : ℕ} [NeZero n] [NeZero k]

section Step

variable (C : CoreCfg) (S : ℕ) (seg : Bool) (s : DataCore n k) (x : DataCoreIn k)

/-- What the core sees. -/
def coreIn : CoreIn := ⟨x.icStall, x.ins, x.icinvReady, s.dc.stallReq, s.dc.dout, x.rd⟩

/-- The back-end with its data memory. -/
def side : DataSide n k := ⟨s.core.be, s.dc, s.mem⟩

def sideIn : DataIn k :=
  ⟨s.core.id.rnValid, s.core.id.rnPushSize, s.core.id.rnInsn, x.icinvReady, x.rd, x.axi, x.unc⟩

def next : DataCore n k :=
  ⟨s.core.next C (s.coreIn x), s.dc.next S (s.side.dcIn C.D seg (s.sideIn x)),
    s.mem.next s.dc.axiOut x.axi⟩

end Step

/-- The core with its data memory in front of a correct memory, with the log and the ledger. -/
def booked (n k : ℕ) [NeZero n] [NeZero k] (C : CoreCfg) (S : ℕ) (seg : Bool) (pcRst : Pc) (u : Bpu)
    (w : IqWord) (z : RInsn) (pay : Fin k → ℕ × ℕ → ℕ → Byte) (m₀ : ℕ → Byte) :
    Machine (DataCore n k × CoreLog × Ledger k S) (DataCoreIn k) where
  reset := (⟨Core.reset n pcRst u w z, Dcache.reset pay, AxiMem.idle m₀⟩,
    (Core.observed n C pcRst u w z).reset.2, (DataSide.booked n k C.D S seg z pay m₀).reset.2)
  allowed q x := q.1.mem.Answers x.axi
  next q x := (q.1.next C S seg x, Core.logNext C q.2.1 q.1.core (q.1.coreIn x),
    q.2.2.next C.D seg q.1.side (q.1.sideIn x))

variable {C : CoreCfg} {S : ℕ} {seg : Bool} {s : DataCore n k} {x : DataCoreIn k} {h : CoreLog}
  {L : Ledger k S} {pcRst : Pc} {u : Bpu} {w : IqWord} {z : RInsn} {pay : Fin k → ℕ × ℕ → ℕ → Byte}
  {m₀ : ℕ → Byte}

theorem side_next : (s.next C S seg x).side = s.side.next C.D S seg (s.sideIn x) := rfl

/-- The parts of a reachable state. -/
theorem parts_of_reach (hP : 1 ≤ C.P)
    (hr : (booked n k C S seg pcRst u w z pay m₀).Reach (s, h, L)) :
    (Core.observed n C pcRst u w z).Reach (s.core, h) ∧
      (DataSide.booked n k C.D S seg z pay m₀).Reach (s.side, L) := by
  refine Machine.Reach.inv (M := booked n k C S seg pcRst u w z pay m₀)
    (P := fun q => (Core.observed n C pcRst u w z).Reach (q.1.core, q.2.1) ∧
      (DataSide.booked n k C.D S seg z pay m₀).Reach (q.1.side, q.2.2))
    ⟨Machine.Reach.reset, Machine.Reach.reset⟩ ?_ hr
  rintro ⟨s, h, L⟩ x ⟨h₁, h₂⟩ hx
  obtain ⟨-, -, hf⟩ := Core.feeds_of_reach hP h₁
  refine ⟨Machine.Reach.tick h₁ trivial,
    Machine.Reach.tick (x := s.sideIn x) h₂ ⟨⟨?_, hx⟩, trivial⟩⟩
  exact hf.delivers (x := s.coreIn x)

/-- The instructions that commit are the oldest ones, and so is the one that the units work on. -/
theorem fresh_of_reach (hP : 1 ≤ C.P)
    (hr : (booked n k C S seg pcRst u w z pay m₀).Reach (s, h, L)) {i : ℕ}
    (hi2 : i < 2) (hv : s.core.be.rob.cmtValid 1 C.D i = true) :
    s.core.Fresh h (h.trace.log.head + i) ∧
      (s.core.be.head C.D i).pay = (h.trace.ins (h.trace.log.head + i)).pay := by
  obtain ⟨hc, -⟩ := parts_of_reach hP hr
  obtain ⟨-, ht, -⟩ := Core.feeds_of_reach hP hc
  have ho := (Backend.inv_of_reach ht).order
  have hlive := (ho.ent_eq hi2 hv).1
  exact ⟨Core.fresh_of_lt hP hc (Backend.lt_nextNum_of_live hlive), ho.head_pay hi2 hlive.2⟩

/-- The registers, the cache and the memory are those after the instructions that have committed,
and no other instruction is in the core. -/
structure Precise (C : CoreCfg) (s : DataCore n k) (L : Ledger k S) : Prop where
  arat : s.core.be.rn.arat = committedMap L.watch.retired
  free : ∀ p, p ≠ 0 → (s.core.be.rn.afl p = true ↔ ∀ l, s.core.be.rn.arat l ≠ p)
  regs : s.core.be.archRegs = seqRun (L.watch.retired.map Backend.retiredOf)
  rat : s.core.be.rn.rat = s.core.be.rn.arat
  fl : s.core.be.rn.fl = s.core.be.rn.afl
  store : s.side.store S = L.snap
  empty : s.core.Emptied C

section Reach

variable (hP : 1 ≤ C.P) (hr : (booked n k C S seg pcRst u w z pay m₀).Reach (s, h, L))

include hP hr

theorem precise_of_excFlush (he : s.side.excFlush C.D (s.sideIn x) = true)
    (hd : (s.core.be.head C.D 0).lsuReq.dcop = false) :
    (s.next C S seg x).Precise C L ∧ (L.next C.D seg s.side (s.sideIn x)).committed = L.committed ∧
      L.first ∈ (L.next C.D seg s.side (s.sideIn x)).raised := by
  obtain ⟨hc, hb⟩ := parts_of_reach hP hr
  obtain ⟨-, -, hfeeds⟩ := Core.feeds_of_reach hP hc
  obtain ⟨⟨t, ht, -⟩, hlink, hbus⟩ := DataSide.parts_of_booked hb
  have hi := Backend.inv_of_reach ht
  have hf : s.side.flush C.D (s.sideIn x) = true := (DataSide.of_excFlush hi he).2.1
  obtain ⟨h₁, h₂, -, h₄, -, h₆, h₇, -⟩ := Backend.flush_exact (DataSide.watched_of_booked hb)
    (hfeeds.delivers (x := s.coreIn x)) hf
  have hpop : s.side.popSize C.D (s.sideIn x) = 0 := Backend.popSize_of_flush hf
  refine ⟨⟨h₆, fun p hp => ?_, h₇, h₁, h₂, ?_, Core.emptied_next_flush hP hc hf⟩, ?_, ?_⟩
  · have hfree := h₄ p hp
    rw [h₂] at hfree
    exact hfree
  · rw [side_next]
    exact (DataSide.store_of_excFlush hi hlink hbus (DataSide.still_of_reach hb) he hd).2
  · simp [Ledger.next, hpop, Ledger.numbered]
  · simp [Ledger.next, he]

/-- What the oldest instruction does, it does after it was fetched behind the last flush. -/
theorem valid_of_acts (ha : s.side.busy = true ∨ s.side.asks C.D (s.sideIn x) = true ∨
    s.side.writesMsr C.D (s.sideIn x) = true) : s.core.be.rob.cmtValid 1 C.D 0 = true := by
  obtain ⟨-, hb⟩ := parts_of_reach hP hr
  obtain ⟨⟨t, ht, -⟩, -, -⟩ := DataSide.parts_of_booked hb
  have hi := Backend.inv_of_reach ht
  rcases ha with ha | ha | ha
  · exact DataSide.valid_of_busy hi ha
  · exact (DataSide.of_asks hi ha).2.2.1
  · rw [DataSide.writesMsr, Bool.or_eq_true] at ha
    rcases ha with ha | ha
    · have hpop := (DataSide.commits_of_commitWe hi ha).1
      have hfire := DataSide.fire_zero_eq (s := s.side) (D := C.D) (x := s.sideIn x)
      rw [decide_eq_true hpop] at hfire
      exact Cmt.valid_of_fire (x := s.side.cmtIn C.D (s.sideIn x)) hfire
    · exact (DataSide.invalidates_of_icinvWe ha).valid

end Reach

/-- **Exceptions are precise.**  When the oldest instruction raises an exception, the registers, the
cache and the memory are those after the instructions that have committed, which it does not join.
No instruction that was squashed has asked the D-cache, put anything on the bus, written an MSR or
committed; and whatever commits, asks, writes or changes the cache or the memory is an instruction
that was fetched after the last flush. -/
theorem precise_exceptions (hP : 1 ≤ C.P)
    (hr : (booked n k C S seg pcRst u w z pay m₀).Reach (s, h, L)) :
    (∀ x, s.side.excFlush C.D (s.sideIn x) = true → (s.core.be.head C.D 0).lsuReq.dcop = false →
      (s.next C S seg x).Precise C L ∧ (L.next C.D seg s.side (s.sideIn x)).committed =
        L.committed ∧ L.first ∈ (L.next C.D seg s.side (s.sideIn x)).raised) ∧
    L.committed.map Prod.snd = L.watch.retired.map Prod.fst ∧
    (∀ p ∈ L.committed, p.1 ∉ L.raised ∧ p.1 ∉ L.squashed) ∧
    (∀ m ∈ L.wrote, m ∉ L.raised ∧ m ∉ L.squashed) ∧
    (∀ m ∈ L.squashed, m ∉ L.requests ∧ m ∉ L.bus) ∧
    ∀ x,
      (∀ i < s.side.popSize C.D (s.sideIn x), s.core.Fresh h (h.trace.log.head + i) ∧
        (s.core.be.head C.D i).pay = (h.trace.ins (h.trace.log.head + i)).pay) ∧
      (s.side.asks C.D (s.sideIn x) = true ∨ s.side.writesMsr C.D (s.sideIn x) = true →
        s.core.Fresh h h.trace.log.head ∧
          (s.core.be.head C.D 0).pay = (h.trace.ins h.trace.log.head).pay) ∧
      ((s.next C S seg x).side.store S ≠ s.side.store S → L.first ∈ L.requests ∧
        s.core.Fresh h h.trace.log.head ∧
          (s.core.be.head C.D 0).pay = (h.trace.ins h.trace.log.head).pay) := by
  obtain ⟨-, hb⟩ := parts_of_reach hP hr
  obtain ⟨⟨t, ht, -⟩, hlink, hbus⟩ := DataSide.parts_of_booked hb
  have hi := Backend.inv_of_reach ht
  have hbooks := DataSide.books_of_reach hb
  have hmarks := DataSide.marks_of_reach hb
  refine ⟨fun x he hd => precise_of_excFlush hP hr he hd, hmarks.retired, hmarks.committed,
    fun m hm => ?_,
    fun m hm => ⟨hbooks.silent m hm, fun h' => hbooks.silent m hm (hbooks.bus m h').1⟩,
    fun x => ⟨fun i hi' => ?_, fun ha => ?_, fun hne => ?_⟩⟩
  · rcases hmarks.wrote m hm with ⟨-, h₁⟩ | ⟨rfl, -⟩
    · exact h₁
    · exact ⟨fun h' => lt_irrefl _ (hmarks.raised _ h'),
        fun h' => lt_irrefl _ (hbooks.squashed _ h')⟩
  · have h2 : i < 2 := lt_of_lt_of_le hi' Backend.popSize_le
    refine fresh_of_reach hP hr h2 (Cmt.valid_of_fire (c := s.core.be.cmt)
      (x := s.side.cmtIn C.D (s.sideIn x)) ?_)
    change s.side.core.fire C.D (s.side.coreIn (s.sideIn x)) i = true
    rw [Backend.fire_eq h2]
    exact decide_eq_true hi'
  · exact fresh_of_reach hP hr (i := 0) (by omega) (valid_of_acts hP hr (x := x) (Or.inr ha))
  · have hbusy : s.side.busy = true := by
      by_contra hnb
      have hnb' : (s.side.core.cmt.lsu.s1Valid || s.side.core.cmt.lsu.s2Valid) = false :=
        Bool.eq_false_of_not_eq_true hnb
      rw [Bool.or_eq_false_iff] at hnb'
      rw [side_next] at hne
      exact hne (DataSide.store_next_eq hi hlink hbus (DataSide.still_of_reach hb) hnb'.2 hnb'.1)
    exact ⟨hbooks.asked hbusy,
      fresh_of_reach hP hr (i := 0) (by omega) (valid_of_acts hP hr (x := x) (Or.inl hbusy))⟩

/-- A cycle in which the I-cache shows `ORI r1, r0, 0x90` in the first lane and `LDW r2, [r0 + 1]`
in the others. -/
def oddIn : DataCoreIn 1 where
  icStall := false
  ins := fun i => if i = 0 then 0x1200061 else 0x202e2
  icinvReady := true
  rd := ⟨0, 0, 0, 0, 0, 0, 0, 0, 0⟩
  axi := AxiIn.silent
  unc := fun _ _ => 0

/-- In the fourteenth cycle the first load raises an alignment fault, with sixteen instructions
behind it. -/
theorem precise_exceptions_odd :
    let M := booked 4 1 chip 0 false 0xc000000 Frontend.bpuRst Frontend.emptyWord emptyInsn
      (fun _ _ _ => 0) (BitVec.ofNat 8)
    let q := M.run (List.replicate 13 oddIn)
    M.Reach q ∧ q.2.2.committed.map Prod.fst = [0] ∧ q.1.side.excFlush 3 (q.1.sideIn oddIn) = true ∧
      (M.next q oddIn).1.Precise chip q.2.2 ∧ (M.next q oddIn).2.2.raised = [1] ∧
      (M.next q oddIn).2.2.squashed = List.range' 2 16 := by
  intro M q
  have hr : M.Reach q := by
    refine Machine.reach_run fun i x hx => ?_
    rw [List.eq_of_mem_replicate (List.mem_of_getElem? hx)]
    exact AxiMem.answers_silent _
  have hd : q.2.2.committed.map Prod.fst = [0] ∧ q.1.side.excFlush 3 (q.1.sideIn oddIn) = true ∧
      (q.1.core.be.head 3 0).lsuReq.dcop = false ∧ (M.next q oddIn).2.2.raised = [1] ∧
      (M.next q oddIn).2.2.squashed = List.range' 2 16 := by
    decide +kernel
  obtain ⟨hc, he, hdc, hra, hsq⟩ := hd
  have hP : 1 ≤ chip.P := by decide
  exact ⟨hr, hc, he,
    ((precise_exceptions (s := q.1) (h := q.2.1) (L := q.2.2) hP hr).1 oddIn he hdc).1, hra, hsq⟩

end DataCore

end NanoCpu
