/-
**The back-end with its data memory** (`rtl/core/cmt.v`, `cmt_lsu.v`, `dcache.v`, as they are
connected below `ncpu64k.v`).

The back-end, the D-cache and the memory behind it run together; what is outside are the decoder and
the request port of the I-cache.  Commit keeps the promise that the load/store unit and the cache
need, so that everything known about them holds here.

Beside them runs a ledger.  It numbers the instructions in the order in which rename takes them, and
writes down by number which of them commit, raise an exception or are squashed, which ask the
D-cache or put something on the bus, and which write an MSR.

Main definitions:

* `DataSide`, `DataIn`, `DataSide.next`, `DataSide.machine` — the back-end with its data memory;
* `Ledger`, `Ledger.next`, `DataSide.booked` — the ledger.

Main results:

* `DataSide.polite` — commit keeps its promise;
* `DataSide.busy_next` — when the load/store unit is at work.
-/

import NanoCpu.LsuSide
import NanoCpu.Watch

set_option relaxedAutoImplicit false
set_option autoImplicit false
set_option linter.unusedSectionVars false

namespace NanoCpu

open WriteBack

/-- The back-end, the D-cache and the memory. -/
structure DataSide (n k : ℕ) where
  core : Backend n
  dc : Dcache k
  mem : AxiMem

/-- The inputs of one cycle: the instructions offered to rename, the I-cache, the MSRs of other
units, the bus, and what a payload RAM shows after a write. -/
structure DataIn (k : ℕ) where
  rnValid : ℕ → Bool
  rnPushSize : ℕ
  rnInsn : ℕ → DecInsn
  icinvReady : Bool
  rd : MsrRd
  axi : AxiIn
  unc : Fin k → ℕ → Byte

namespace DataSide

variable {n k : ℕ} [NeZero n] [NeZero k]

def reset (z : RInsn) (pay : Fin k → ℕ × ℕ → ℕ → Byte) (m₀ : ℕ → Byte) : DataSide n k :=
  ⟨Backend.reset n z, Dcache.reset pay, AxiMem.idle m₀⟩

variable (D S : ℕ) (seg : Bool) (s : DataSide n k) (x : DataIn k)

/-- What the back-end sees: the D-cache stalls it, and has the data of a load. -/
def coreIn : BackendIn :=
  ⟨x.rnValid, x.rnPushSize, x.rnInsn, s.dc.stallReq, s.dc.dout, x.icinvReady, x.rd⟩

/-- What commit sees. -/
def cmtIn : CmtIn := s.core.cmtIn D (s.coreIn x)

/-- The load/store unit with the cache. -/
def side : LsuSide k := ⟨s.core.cmt.lsu, s.dc, s.mem⟩

def sideIn : LsuSideIn k := ⟨s.core.cmt.lsuIn (s.cmtIn D x), x.axi, x.unc⟩

def dcIn : DcIn k := s.side.dcIn seg (s.sideIn D x)

def next : DataSide n k :=
  ⟨s.core.next D (s.coreIn x), s.dc.next S (s.dcIn D seg x), s.mem.next s.dc.axiOut x.axi⟩

/-- The back-end with its data memory, behind a decoder and in front of a correct memory. -/
def machine (n k : ℕ) [NeZero n] [NeZero k] (D S : ℕ) (seg : Bool) (z : RInsn)
    (pay : Fin k → ℕ × ℕ → ℕ → Byte) (m₀ : ℕ → Byte) : Machine (DataSide n k) (DataIn k) where
  reset := reset z pay m₀
  allowed s x := (s.coreIn x).Delivers ∧ s.mem.Answers x.axi
  next s x := s.next D S seg x

/-- A request goes to the cache. -/
def asks : Bool := (s.sideIn D x).q.dcReq

/-- The load/store unit is at work. -/
def busy : Bool := s.core.cmt.lsu.s1Valid || s.core.cmt.lsu.s2Valid

def flush : Bool := s.core.flush D (s.coreIn x)

def popSize : ℕ := s.core.popSize D (s.coreIn x)

def excFlush : Bool := s.core.cmt.excFlush (s.cmtIn D x)

/-- The oldest instruction leaves: it commits, or it is flushed. -/
def leaves : Bool := s.flush D x || decide (s.popSize D x ≠ 0)

/-- A load or a store that is not to be cached goes to the second stage of the load/store unit. -/
def startsUncached : Bool :=
  s.core.cmt.lsu.s1Valid && !s.dc.stallReq && !s.core.cmt.lsu.s1Dcop && s.core.cmt.lsu.uncached seg

/-- A register is written by a WMSR, or the I-cache is asked to invalidate a set. -/
def writesMsr : Bool :=
  (s.core.cmt.epu.commitWe (s.core.cmt.epuIn (s.cmtIn D x))).any || s.core.cmt.icinvWe (s.cmtIn D x)

/-- The slots of the cache and the bytes of the memory. -/
def store : Contents (Fin k × Fin (2 ^ S)) ℕ (Fin 64 → Byte) × (ℕ → Byte) :=
  (s.dc.contents S, s.mem.mem)

end DataSide

/-- The ledger.  `first` is the number of the oldest instruction that has not left; the numbers of
the others in the window follow.  `snap` is the cache and the memory as they were when the last
instruction committed, or a D-cache operation raised an exception. -/
structure Ledger (k S : ℕ) where
  watch : Watch
  first : ℕ
  committed : List (ℕ × RInsn)
  raised : List ℕ
  squashed : List ℕ
  requests : List ℕ
  uncached : List ℕ
  bus : List ℕ
  wrote : List ℕ
  snap : Contents (Fin k × Fin (2 ^ S)) ℕ (Fin 64 → Byte) × (ℕ → Byte)

namespace Ledger

variable {n k : ℕ} [NeZero n] [NeZero k]

/-- The instructions that commit get their numbers in order. -/
def numbered (first : ℕ) (l : List RInsn) : List (ℕ × RInsn) := l.mapIdx fun i r => (first + i, r)

/-- One cycle.  A flush squashes the window; the instruction that raises an exception is not
squashed by an older one. -/
def next (D : ℕ) {S : ℕ} (seg : Bool) (L : Ledger k S) (s : DataSide n k) (x : DataIn k) :
    Ledger k S where
  watch := L.watch.next D s.core (s.coreIn x)
  first := L.first + if s.flush D x then L.watch.window.length else s.popSize D x
  committed := L.committed ++ numbered L.first (L.watch.window.take (s.popSize D x))
  raised := L.raised ++ if s.excFlush D x then [L.first] else []
  squashed := L.squashed ++
    if s.flush D x then
      List.range' (L.first + (s.excFlush D x).toNat)
        (L.watch.window.length - (s.excFlush D x).toNat)
    else []
  requests := L.requests ++ if s.asks D x then [L.first] else []
  uncached := L.uncached ++ if s.startsUncached seg then [L.first] else []
  bus := L.bus ++ ((if s.dc.arValid && x.axi.arReady then [L.first] else []) ++
    if s.dc.awValid && x.axi.awReady then [L.first] else [])
  wrote := L.wrote ++ if s.writesMsr D x then [L.first] else []
  snap :=
    if s.popSize D x ≠ 0 ∨ (s.excFlush D x && (s.core.head D 0).lsuReq.dcop) = true then
      (s.next D S seg x).store S
    else L.snap

end Ledger

namespace DataSide

variable {n k : ℕ} [NeZero n] [NeZero k] {D S : ℕ} {seg : Bool} {s : DataSide n k} {x : DataIn k}
  {z : RInsn} {pay : Fin k → ℕ × ℕ → ℕ → Byte} {m₀ : ℕ → Byte} {L : Ledger k S} {t : Trace}

/-- The back-end with its data memory and the ledger. -/
def booked (n k : ℕ) [NeZero n] [NeZero k] (D S : ℕ) (seg : Bool) (z : RInsn)
    (pay : Fin k → ℕ × ℕ → ℕ → Byte) (m₀ : ℕ → Byte) :
    Machine (DataSide n k × Ledger k S) (DataIn k) :=
  (machine n k D S seg z pay m₀).observe
    ⟨Watch.reset, 0, [], [], [], [], [], [], [], (reset z pay m₀ : DataSide n k).store S⟩
    (fun L s x => L.next D seg s x) fun _ _ _ => True

/-! ### The parts -/

theorem watched_of_booked (h : (booked n k D S seg z pay m₀).Reach (s, L)) :
    (Backend.watched n D z).Reach (s.core, L.watch) :=
  Machine.Reach.map (M := booked n k D S seg z pay m₀) (N := Backend.watched n D z)
    (fun q => (q.1.core, q.2.watch)) (fun q x => q.1.coreIn x) rfl
    (fun _ _ _ _ hx => ⟨hx.1.1, trivial⟩) (fun _ _ _ => rfl) h

/-- Commit keeps the promise that the load/store unit and the cache need. -/
theorem polite (hc : s.core.cmt.Inv (s.core.rob.cmtValid 1 D 0) (s.core.head D 0)) :
    s.side.Polite (s.sideIn D x).q := by
  set c := s.core.cmt with hcd
  have hquiet : c.lsu.s1Valid = true ∨ c.lsu.s2Valid = true → c.pending = true := by
    intro hv
    by_contra hne
    have hq := hc.quiet (by simpa using hne)
    rcases hv with hv | hv
    · rw [hq.s1Valid] at hv
      cases hv
    · rw [hq.s2Valid] at hv
      cases hv
  refine ⟨rfl, fun h1 => ?_, fun hv => ?_, fun hv => ?_⟩
  · have : c.pCeS1 (s.cmtIn D x) = true := h1
    simp only [Cmt.pCeS1, Bool.and_eq_true, Bool.not_eq_true'] at this
    exact this.1
  · exact Cmt.pCeS1_eq_pCeS2 (Cmt.epuReqValid_of_pending (hquiet (Or.inl hv)))
  · have hp : c.pending = false := by
      by_contra hne
      have := Cmt.lsuIn_valid_eq_false
        (Cmt.lsuReqValid_of_pending (x := s.cmtIn D x) (by simpa using hne))
      rw [show (c.lsuIn (s.cmtIn D x)).valid = true from hv] at this
      cases this
    have hq := hc.quiet hp
    exact ⟨hq.s1Valid, hq.s2Valid⟩

theorem side_of_reach (h : (machine n k D S seg z pay m₀).Reach s) :
    (LsuSide.machine k S seg pay m₀).Reach s.side := by
  have key : (∃ t, (Backend.traced n D z).Reach (s.core, t)) ∧
      (LsuSide.machine k S seg pay m₀).Reach s.side := by
    refine Machine.Reach.inv (M := machine n k D S seg z pay m₀)
      (P := fun s => (∃ t, (Backend.traced n D z).Reach (s.core, t)) ∧
        (LsuSide.machine k S seg pay m₀).Reach s.side)
      ⟨⟨_, Machine.Reach.reset⟩, Machine.Reach.reset⟩ ?_ h
    rintro s x ⟨⟨t, ht⟩, hs⟩ ⟨hx, ha⟩
    exact ⟨⟨_, Machine.Reach.tick ht ⟨hx, trivial⟩⟩,
      Machine.Reach.tick (x := s.sideIn D x) hs ⟨polite (Backend.inv_of_reach ht).cmt, ha⟩⟩
  exact key.2

theorem link_of_reach (h : (machine n k D S seg z pay m₀).Reach s) : s.side.Link :=
  LsuSide.link_of_reach (side_of_reach h)

/-! ### What a cycle does -/

/-- The first lane goes if any does. -/
theorem fire_zero_eq : s.core.fire D (s.coreIn x) 0 = decide (s.popSize D x ≠ 0) := by
  rw [Backend.fire_eq (by omega), decide_eq_decide]
  exact Nat.pos_iff_ne_zero

section Cycle

variable (hi : s.core.Inv D t)

include hi

/-- The oldest instruction stays while the units work on it. -/
theorem stays (hp : (s.core.cmt.next (s.cmtIn D x)).pending = true) : s.leaves D x = false := by
  obtain ⟨hfire, hfl⟩ := Cmt.Inv.hold (x := s.cmtIn D x) hi.cmt hp
  have hfl' : s.flush D x = false := hfl
  have hpop := fire_zero_eq (s := s) (D := D) (x := x)
  rw [show s.core.fire D (s.coreIn x) 0 = false from hfire] at hpop
  rw [leaves, hfl', ← hpop]
  rfl

theorem pending_of_busy (hb : s.busy = true) : s.core.cmt.pending = true := by
  by_contra hne
  have hq := hi.cmt.quiet (by simpa using hne)
  simp [busy, hq.s1Valid, hq.s2Valid] at hb

/-- A request is that of the oldest instruction, which stays. -/
theorem of_asks (ha : s.asks D x = true) : s.core.cmt.pending = false ∧ s.leaves D x = false ∧
    s.core.rob.cmtValid 1 D 0 = true ∧ s.core.cmt.seFls = false := by
  have hv := ha
  rw [asks, LsuIn.dcReq, Bool.and_eq_true] at hv
  obtain ⟨hce, hv⟩ := hv
  have hreq : s.core.cmt.lsuReqValid (s.cmtIn D x) = true := by
    by_contra hne
    have := Cmt.lsuIn_valid_eq_false (Bool.eq_false_of_not_eq_true hne)
    rw [show (s.core.cmt.lsuIn (s.cmtIn D x)).valid = true from hv] at this
    cases this
  have hp : s.core.cmt.pending = false := by
    by_contra hne
    rw [Cmt.lsuReqValid_of_pending (by simpa using hne)] at hreq
    cases hreq
  have hpr : s.core.cmt.pipeReq (s.cmtIn D x) = true := by
    by_contra hne
    rw [Cmt.lsuReqValid_eq_false (Bool.eq_false_of_not_eq_true hne)] at hreq
    cases hreq
  refine ⟨hp, ?_, Cmt.valid_of_pipeReq hpr, Cmt.seFls_of_pipeReq hpr⟩
  refine stays hi ?_
  simp only [Cmt.next, hp, Bool.false_eq_true, if_false, hpr, Bool.true_and]
  exact hce

/-- The load/store unit is at work from the request on until the instruction leaves. -/
theorem busy_next : (s.next D S seg x).busy = (s.asks D x || (s.busy && !s.leaves D x)) := by
  have hpol := polite (x := x) hi.cmt
  cases hp : s.core.cmt.pending with
  | false =>
      have hq := hi.cmt.quiet hp
      have h1 : (s.next D S seg x).core.cmt.lsu.s1Valid = s.asks D x := by
        change ldff (s.sideIn D x).q.pCeS1 (s.sideIn D x).q.valid s.core.cmt.lsu.s1Valid = _
        rw [hq.s1Valid, asks, LsuIn.dcReq]
        cases (s.sideIn D x).q.pCeS1 <;> rfl
      have h2 : (s.next D S seg x).core.cmt.lsu.s2Valid = false := by
        change ldff (s.sideIn D x).q.pCeS2 s.core.cmt.lsu.s1Valid s.core.cmt.lsu.s2Valid = _
        rw [hq.s1Valid, hq.s2Valid]
        cases (s.sideIn D x).q.pCeS2 <;> rfl
      simp [busy, h1, h2, hq.s1Valid, hq.s2Valid]
  | true =>
      have hna : s.asks D x = false := by
        by_contra hne
        rw [(of_asks hi (by simpa using hne)).1] at hp
        cases hp
      obtain ⟨g, hg⟩ := hi.cmt.flight hp
      rw [hna, Bool.false_or]
      cases hd : s.dc.stallReq with
      | true =>
          -- nothing moves
          have hd' : (s.cmtIn D x).dcStall = true := hd
          have hg' := hg.next_stall (x := s.cmtIn D x) hp hd'
          have hfin : s.core.cmt.pipeFinish (s.cmtIn D x) = false := by
            rw [hg.pipeFinish, hd']
            rfl
          have hst : s.leaves D x = false := by
            refine stays hi ?_
            simp [Cmt.next, hp, hfin]
          have hb : (s.next D S seg x).busy = s.busy := by
            change ((s.core.cmt.next (s.cmtIn D x)).lsu.s1Valid ||
              (s.core.cmt.next (s.cmtIn D x)).lsu.s2Valid) = _
            rw [hg'.s1Valid, hg'.s2Valid, busy, hg.s1Valid, hg.s2Valid]
          simp [hb, hst]
      | false =>
          have hd' : (s.cmtIn D x).dcStall = false := hd
          obtain ⟨h1, h2, -⟩ := Cmt.Flight.next_behind (x := s.cmtIn D x) hp hd'
          have hb : (s.next D S seg x).busy = s.core.cmt.lsu.s1Valid := by
            change ((s.core.cmt.next (s.cmtIn D x)).lsu.s1Valid ||
              (s.core.cmt.next (s.cmtIn D x)).lsu.s2Valid) = _
            rw [h1, h2, Bool.false_or]
          have hfin := hg.pipeFinish (s.cmtIn D x)
          rw [hd'] at hfin
          rw [hb, busy, hg.s1Valid, hg.s2Valid]
          cases g with
          | lsu1 =>
              have hst : s.leaves D x = false := by
                refine stays hi ?_
                simp [Cmt.next, hp, hfin]
              simp [hst]
          | lsu2 =>
              have hl : s.leaves D x = true := by
                cases hf : s.flush D x with
                | true => simp [leaves, hf]
                | false =>
                    have hfire := (Cmt.Inv.fire_of_finish (x := s.cmtIn D x) hi.cmt (by
                      rw [hfin]
                      simp) hf).1
                    have hpop := fire_zero_eq (s := s) (D := D) (x := x)
                    rw [show s.core.fire D (s.coreIn x) 0 = true from hfire] at hpop
                    rw [leaves, ← hpop, Bool.or_true]
              simp [hl]
          | epu => simp
          | nowhere => simp

/-- An exception is that of the oldest instruction, in the second stage of one of the units. -/
theorem of_excFlush (he : s.excFlush D x = true) : s.core.cmt.pending = true ∧ s.flush D x = true ∧
    s.core.rob.cmtValid 1 D 0 = true ∧ s.core.cmt.seFls = false ∧ s.dc.stallReq = false ∧
    (s.core.cmt.lsu.s2Valid = true → s.core.cmt.lsu.exc = true) := by
  have hfin := hi.cmt.pipeFinish_of_excFlush he
  have hp := hi.cmt.pending_of_pipeFinish hfin
  obtain ⟨g, hg⟩ := hi.cmt.flight hp
  have hx : s.core.cmt.excFlush (s.cmtIn D x) = true := he
  rw [hg.excFlush, Bool.and_eq_true, Bool.not_eq_true'] at hx
  refine ⟨hp, ?_, hi.cmt.valid hp, hi.cmt.se hp, hx.1, fun hv => ?_⟩
  · change (s.core.cmt.seFls || s.excFlush D x) = true
    rw [he, Bool.or_true]
  · rw [hg.s2Valid, decide_eq_true_eq] at hv
    simpa [hv] using hx.2

theorem flush_cases (hf : s.flush D x = true) :
    (s.core.cmt.seFls = true ∧ s.excFlush D x = false ∧ s.busy = false) ∨
      (s.core.cmt.seFls = false ∧ s.excFlush D x = true) := by
  have hor : (s.core.cmt.seFls || s.excFlush D x) = true := hf
  cases hse : s.core.cmt.seFls with
  | false =>
      rw [hse, Bool.false_or] at hor
      exact Or.inr ⟨rfl, hor⟩
  | true =>
      have hp : s.core.cmt.pending = false := by
        by_contra hne
        rw [hi.cmt.se (by simpa using hne)] at hse
        cases hse
      refine Or.inl ⟨rfl, (hi.cmt.quiet hp).excFlush _, ?_⟩
      by_contra hne
      rw [pending_of_busy hi (by simpa using hne)] at hp
      cases hp

end Cycle

end DataSide

end NanoCpu
