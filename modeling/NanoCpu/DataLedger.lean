/-
**Memory accesses, once and in order.**

The ledger beside the back-end and its data memory numbers the instructions in program order.  The
load/store unit is at work for one of them only, the oldest; so a request is that of the oldest
instruction, which does not leave before the access is done.  And when a committed instruction
flushes those behind it, nothing has been asked for them.

An uncached access puts one address on the bus.  How far it has come can be read off the state of
the cache.

Main definitions:

* `DataSide.OnBus` — the uncached access of the oldest instruction;
* `DataSide.Books` — what the ledger says of the accesses.

Main results:

* `DataSide.lt_first_next`, `DataSide.first_next_of_stays` — the oldest instruction;
* `DataSide.Books.next`, `DataSide.books_of_reach` — the ledger in every reachable state;
* `DataSide.accesses_once` — **a committed load or store has asked once, and what is squashed has
  not**.
-/

import NanoCpu.AxiDiscipline
import NanoCpu.DataSide
import NanoCpu.DmmuOwn

set_option relaxedAutoImplicit false
set_option autoImplicit false
set_option linter.unusedSectionVars false

namespace NanoCpu

namespace Ledger

theorem mem_numbered {first : ℕ} {l : List RInsn} {p : ℕ × RInsn} :
    p ∈ numbered first l ↔ ∃ i, l[i]? = some p.2 ∧ p.1 = first + i := by
  obtain ⟨m, r⟩ := p
  rw [numbered, List.mem_mapIdx]
  constructor
  · rintro ⟨i, hi, he⟩
    obtain ⟨rfl, rfl⟩ := Prod.mk.inj he
    exact ⟨i, List.getElem?_eq_getElem hi, rfl⟩
  · rintro ⟨i, hi, rfl⟩
    obtain ⟨hlt, he⟩ := List.getElem?_eq_some_iff.1 hi
    exact ⟨i, hlt, by rw [he]⟩

end Ledger

namespace DataSide

variable {n k : ℕ} [NeZero n] [NeZero k] {D S : ℕ} {seg : Bool} {s : DataSide n k} {x : DataIn k}
  {z : RInsn} {pay : Fin k → ℕ × ℕ → ℕ → Byte} {m₀ : ℕ → Byte} {L : Ledger k S} {t : Trace}

theorem bus_of_reach (h : (machine n k D S seg z pay m₀).Reach s) : s.dc.Bus s.mem :=
  Machine.Reach.inv (M := machine n k D S seg z pay m₀) (P := fun s => s.dc.Bus s.mem)
    (Dcache.bus_reset pay m₀) (fun _ _ hb hx => hb.next hx.2) h

/-! ### The oldest instruction -/

/-- It stays. -/
theorem first_next_of_stays (hl : s.leaves D x = false) : (L.next D seg s x).first = L.first := by
  rw [leaves, Bool.or_eq_false_iff, decide_eq_false_iff_not, not_not] at hl
  simp [Ledger.next, hl.1, hl.2]

theorem first_le_next : L.first ≤ (L.next D seg s x).first := Nat.le_add_right _ _

section Cycle

variable (hi : s.core.Inv D t)

include hi

theorem valid_of_busy (hb : s.busy = true) : s.core.rob.cmtValid 1 D 0 = true :=
  hi.cmt.valid (pending_of_busy hi hb)

variable (hw : L.watch = s.core.watch t)

include hw

/-- What is at commit is in the window. -/
theorem window_length_pos (hv : s.core.rob.cmtValid 1 D 0 = true) : 0 < L.watch.window.length := by
  have hlive := (hi.order.ent_eq (i := 0) (by omega) hv).1
  have hget := (Backend.window_getElem hi.order 0 _).2 ⟨Backend.lt_nextNum_of_live hlive, rfl⟩
  rw [hw]
  exact (List.getElem?_eq_some_iff.1 hget).1

/-- It leaves, with a number behind it. -/
theorem lt_first_next (hv : s.core.rob.cmtValid 1 D 0 = true) (hl : s.leaves D x = true) :
    L.first < (L.next D seg s x).first := by
  have hpos := window_length_pos hi hw hv
  change L.first < L.first + _
  cases hf : s.flush D x with
  | true => simpa using hpos
  | false =>
      rw [leaves, hf, Bool.false_or, decide_eq_true_eq] at hl
      simpa using Nat.pos_of_ne_zero hl

/-- What commits was in the window, and commit shows it. -/
theorem of_numbered {p : ℕ × RInsn}
    (hp : p ∈ Ledger.numbered L.first (L.watch.window.take (s.popSize D x))) :
    ∃ i < s.popSize D x, p.1 = L.first + i ∧ s.core.fire D (s.coreIn x) i = true ∧ i < 2 ∧
      (s.core.head D i).pay = p.2.pay := by
  obtain ⟨i, hget, hnum⟩ := Ledger.mem_numbered.1 hp
  rw [List.getElem?_take] at hget
  split at hget
  case isFalse => cases hget
  case isTrue hlt =>
      rw [hw] at hget
      have h2 : i < 2 := lt_of_lt_of_le hlt Backend.popSize_le
      have hfire : s.core.fire D (s.coreIn x) i = true := by
        rw [Backend.fire_eq h2]
        exact decide_eq_true hlt
      have hval : s.core.rob.cmtValid 1 D i = true := Cmt.valid_of_fire (x := s.cmtIn D x) hfire
      have hlive := (hi.order.ent_eq h2 hval).1
      refine ⟨i, hlt, hnum, hfire, h2, ?_⟩
      rw [hi.order.head_pay h2 hlive.2, ((Backend.window_getElem hi.order i _).1 hget).2]

end Cycle

/-! ### The uncached access -/

/-- How far the uncached access of the oldest instruction has come.  The address waits in the
register of the bus until it is accepted; an access that raises an exception never comes there. -/
def OnBus (s : DataSide n k) (L : Ledger k S) : Prop :=
  match s.dc.state with
  | .idle => L.first ∈ L.uncached → s.core.cmt.lsu.exc = false → L.bus.count L.first = 1
  | .uncachedBoot => L.bus.count L.first = 0
  | .uncachedRead => L.bus.count L.first + s.dc.arValid.toNat = 1
  | .uncachedWrite => L.bus.count L.first + s.dc.awValid.toNat = 1
  | _ => L.first ∉ L.uncached

/-- What the ledger says of the accesses. -/
structure Books (s : DataSide n k) (L : Ledger k S) : Prop where
  committed : ∀ p ∈ L.committed, p.1 < L.first
  squashed : ∀ m ∈ L.squashed, m < L.first
  order : L.requests.Pairwise (· < ·)
  requests : ∀ m ∈ L.requests, m < L.first ∨ (m = L.first ∧ s.busy = true)
  asked : s.busy = true → L.first ∈ L.requests
  accesses : ∀ p ∈ L.committed, p.2.d.lsu.load = true ∨ p.2.d.lsu.store = true → p.1 ∈ L.requests
  silent : ∀ m ∈ L.squashed, m ∉ L.requests
  uncached : ∀ m ∈ L.uncached, m < L.first ∨ (m = L.first ∧ s.core.cmt.lsu.s2Valid = true)
  bus : ∀ m ∈ L.bus, m ∈ L.requests ∧ (m < L.first ∨ (m = L.first ∧ s.core.cmt.lsu.s2Valid = true))
  once : ∀ p ∈ L.committed, p.1 ∈ L.uncached → L.bus.count p.1 = 1
  onBus : s.core.cmt.lsu.s2Valid = true → s.OnBus L

/-! ### One cycle on the bus -/

theorem count_bus_next :
    (L.next D seg s x).bus.count L.first = L.bus.count L.first +
      ((s.dc.arValid && x.axi.arReady).toNat + (s.dc.awValid && x.axi.awReady).toNat) := by
  have hc : ∀ b : Bool, (if b then [L.first] else []).count L.first = b.toNat := by
    intro b
    cases b <;> simp
  simp only [Ledger.next, List.count_append]
  rw [hc, hc]

theorem count_bus_next_of_ne {m : ℕ} (hm : m ≠ L.first) :
    (L.next D seg s x).bus.count m = L.bus.count m := by
  have hc : ∀ b : Bool, (if b then [L.first] else []).count m = 0 := by
    intro b
    cases b <;> simp [hm.symm]
  simp only [Ledger.next, List.count_append]
  rw [hc, hc, Nat.add_zero]

theorem bus_next_eq (har : s.dc.arValid = false) (haw : s.dc.awValid = false) :
    (L.next D seg s x).bus = L.bus := by
  simp [Ledger.next, har, haw]

/-- Only an idle cache takes something on. -/
theorem uncached_next_eq (hst : s.startsUncached seg = false) :
    (L.next D seg s x).uncached = L.uncached := by
  simp [Ledger.next, hst]

/-- The access comes from the first stage. -/
theorem of_startsUncached (hsu : s.startsUncached seg = true) :
    s.core.cmt.lsu.s1Valid = true ∧ s.dc.state = .idle := by
  simp only [startsUncached, Dcache.stallReq, Bool.and_eq_true, Bool.not_eq_true',
    decide_eq_false_iff_not, not_not] at hsu
  exact hsu.1.1

/-- An exception is known when the access enters the second stage. -/
theorem exc_next (hst : s.dc.state = .idle) (h1 : s.core.cmt.lsu.s1Valid = true) :
    (s.next D S seg x).core.cmt.lsu.exc = s.core.cmt.lsu.killReq := by
  have hce : (s.core.cmt.lsuIn (s.cmtIn D x)).pCeS2 = true := by
    change (!s.dc.stallReq) = true
    simp [Dcache.stallReq, hst]
  change (s.core.cmt.lsu.next (s.core.cmt.lsuIn (s.cmtIn D x))).exc = _
  simp only [Lsu.exc, Lsu.edtm, Lsu.edpf, Lsu.ealign, Lsu.next, hce, ldff_true, h1, Bool.true_and]
  rfl

/-- Nothing commits in the cycle of a flush. -/
theorem flush_of_commit {i : ℕ} (hc : i < s.popSize D x) : s.flush D x = false :=
  Backend.flush_of_popped hc

section Cycle

variable (hi : s.core.Inv D t)

include hi

/-- The instruction in the first stage of the load/store unit stays. -/
theorem stays_of_s1Valid (h1 : s.core.cmt.lsu.s1Valid = true) : s.leaves D x = false := by
  have hp := pending_of_busy hi (show s.busy = true by rw [busy, h1, Bool.true_or])
  obtain ⟨g, hg⟩ := hi.cmt.flight hp
  have hfin := hg.pipeFinish (s.cmtIn D x)
  rw [hg.s1Valid, decide_eq_true_eq] at h1
  refine stays hi ?_
  simp [Cmt.next, hp, hfin, h1]

/-- When the oldest instruction leaves the first stage is empty. -/
theorem s1Valid_of_leaves (hl : s.leaves D x = true) : s.core.cmt.lsu.s1Valid = false := by
  by_contra hne
  rw [stays_of_s1Valid hi (Bool.eq_true_of_not_eq_false hne)] at hl
  cases hl

/-- It stays while the cache stalls. -/
theorem stays_of_stall (hb : s.busy = true) (hd : s.dc.state ≠ .idle) : s.leaves D x = false := by
  have hp := pending_of_busy hi hb
  obtain ⟨g, hg⟩ := hi.cmt.flight hp
  have hd' : (s.cmtIn D x).dcStall = true := by
    change s.dc.stallReq = true
    simpa [Dcache.stallReq] using hd
  have hfin := hg.pipeFinish (s.cmtIn D x)
  rw [hd'] at hfin
  refine stays hi ?_
  simp [Cmt.next, hp, hfin]

/-- What commits has raised no exception. -/
theorem exc_of_commit (h2 : s.core.cmt.lsu.s2Valid = true) (hst : s.dc.state = .idle)
    (hf : s.flush D x = false) : s.core.cmt.lsu.exc = false := by
  have hp := pending_of_busy hi (show s.busy = true by rw [busy, h2, Bool.or_true])
  obtain ⟨g, hg⟩ := hi.cmt.flight hp
  have he : s.core.cmt.excFlush (s.cmtIn D x) = false := by
    have hor : (s.core.cmt.seFls || s.core.cmt.excFlush (s.cmtIn D x)) = false := hf
    exact (Bool.or_eq_false_iff.1 hor).2
  have hd : (s.cmtIn D x).dcStall = false := by
    change s.dc.stallReq = false
    simp [Dcache.stallReq, hst]
  rw [hg.s2Valid, decide_eq_true_eq] at h2
  rw [hg.excFlush, hd, h2] at he
  simpa using he

variable (hlink : s.side.Link) (hbus : s.dc.Bus s.mem) (ha : s.mem.Answers x.axi) (hb : s.Books L)

include hlink hbus ha hb

omit ha in
/-- The uncached access when it enters the second stage. -/
theorem Books.onBus_of_enters (hst : s.dc.state = .idle)
    (h2 : (s.next D S seg x).core.cmt.lsu.s2Valid = true) :
    (s.next D S seg x).OnBus (L.next D seg s x) := by
  have hstn : (s.next D S seg x).dc.state = s.dc.stateNxt S (s.dcIn D seg x) := rfl
  obtain ⟨h2', -⟩ := LsuSide.next_of_idle (S := S) seg (polite (x := x) hi.cmt) hst
  have h1 : s.core.cmt.lsu.s1Valid = true := by
    rw [← show s.side.lsu.s1Valid = s.core.cmt.lsu.s1Valid from rfl, ← h2']
    exact h2
  have h20 : s.core.cmt.lsu.s2Valid = false := hlink.one h1
  have hfirst : (L.next D seg s x).first = L.first := first_next_of_stays (stays_of_s1Valid hi h1)
  have hreq : s.dc.s1o.req = true := by
    rw [← h1]
    exact hlink.req
  have hnu : L.first ∉ L.uncached := fun hm => by
    have := hb.uncached _ hm
    simp [h20] at this
  have hnb : L.first ∉ L.bus := fun hm => by
    have := (hb.bus _ hm).2
    simp [h20] at this
  have hq : s.dc.BusQuiet s.mem := by simpa [Dcache.Bus, hst] using hbus
  have hbus' : (L.next D seg s x).bus = L.bus := bus_next_eq hq.read.arValid hq.write.awValid
  have hu : s.startsUncached seg = false → L.first ∉ (L.next D seg s x).uncached := by
    intro hsu
    rwa [uncached_next_eq hsu]
  have hdcop : s.core.cmt.lsu.s1Dcop = (s.dc.s1o.inv || s.dc.s1o.fls) := hlink.dcop h1
  have hkill : (s.next D S seg x).core.cmt.lsu.exc = (s.dcIn D seg x).kill := exc_next hst h1
  rw [OnBus, hstn, hbus', hfirst, List.count_eq_zero.2 hnb]
  simp only [Dcache.stateNxt, hst, hreq, if_true]
  -- which of the operations it is
  cases hinv : s.dc.s1o.inv with
  | true => exact hu (by simp [startsUncached, hdcop, hinv])
  | false =>
      cases hfls : s.dc.s1o.fls with
      | true =>
          have hno := hu (by simp [startsUncached, hdcop, hfls])
          simp only [Bool.false_eq_true, if_false, if_true]
          split_ifs
          · exact hno
          · exact fun hm => absurd hm hno
      | false =>
          simp only [Bool.false_eq_true, if_false]
          cases hun : s.core.cmt.lsu.uncached seg with
          | false =>
              have hno := hu (by simp [startsUncached, hun])
              rw [show (s.dcIn D seg x).uncached = false from hun]
              simp only [Bool.false_and, Bool.false_eq_true, if_false]
              split_ifs
              · exact hno
              · exact fun hm => absurd hm hno
          | true =>
              rw [show (s.dcIn D seg x).uncached = true from hun, ← hkill]
              cases (s.next D S seg x).core.cmt.lsu.exc <;> simp

omit hbus ha hb in
/-- While the cache is at work the access in the second stage is that of the oldest instruction. -/
theorem kept_of_stall (hst : s.dc.state ≠ .idle)
    (h2 : (s.next D S seg x).core.cmt.lsu.s2Valid = true) :
    s.core.cmt.lsu.s2Valid = true ∧ (L.next D seg s x).first = L.first ∧
      (L.next D seg s x).uncached = L.uncached := by
  obtain ⟨-, h2', -⟩ := LsuSide.next_of_stall (S := S) seg (polite (x := x) hi.cmt) hst
  have h2s : s.core.cmt.lsu.s2Valid = true := h2'.symm.trans h2
  exact ⟨h2s, first_next_of_stays (stays_of_stall hi (by rw [busy, h2s, Bool.or_true]) hst),
    uncached_next_eq (by simp [startsUncached, Dcache.stallReq, hst])⟩

omit ha in
/-- The access is put on the bus. -/
theorem Books.onBus_of_uncachedBoot (hs : s.dc.state = .uncachedBoot)
    (h2 : (s.next D S seg x).core.cmt.lsu.s2Valid = true) :
    (s.next D S seg x).OnBus (L.next D seg s x) := by
  have hstn : (s.next D S seg x).dc.state = s.dc.stateNxt S (s.dcIn D seg x) := rfl
  obtain ⟨h2s, hfirst, hu⟩ := kept_of_stall (L := L) hi hlink (by simp [hs]) h2
  have hold := hb.onBus h2s
  have hq : s.dc.BusQuiet s.mem := by simpa [Dcache.Bus, hs] using hbus
  have har0 : s.dc.arValid = false := hq.read.arValid
  have haw0 : s.dc.awValid = false := hq.write.awValid
  simp only [OnBus, hs] at hold
  rw [OnBus, hstn, hfirst, hu, count_bus_next]
  simp only [Dcache.stateNxt, hs, hold, har0, haw0]
  split_ifs with hw
  · change _ + (s.dc.next S (s.dcIn D seg x)).awValid.toNat = 1
    have hset : s.dc.awSet = true := by
      rw [Dcache.awSet, hs]
      exact decide_eq_true hw
    rw [Dcache.next_awValid, hset]
    rfl
  · change _ + (s.dc.next S (s.dcIn D seg x)).arValid.toNat = 1
    simp [Dcache.next_arValid, Dcache.arSet, hs, not_not.1 hw]

/-- The address of a load waits until it is accepted, and the data come behind it. -/
theorem Books.onBus_of_uncachedRead (hs : s.dc.state = .uncachedRead)
    (h2 : (s.next D S seg x).core.cmt.lsu.s2Valid = true) :
    (s.next D S seg x).OnBus (L.next D seg s x) := by
  have hstn : (s.next D S seg x).dc.state = s.dc.stateNxt S (s.dcIn D seg x) := rfl
  obtain ⟨h2s, hfirst, hu⟩ := kept_of_stall (L := L) hi hlink (by simp [hs]) h2
  have hold := hb.onBus h2s
  have hr : s.dc.BusUncachedRead s.mem := by simpa [Dcache.Bus, hs] using hbus
  have haw0 : s.dc.awValid = false := hr.write.awValid
  simp only [OnBus, hs] at hold
  rw [OnBus, hstn, hfirst, hu, count_bus_next]
  simp only [Dcache.stateNxt, hs, haw0, Bool.false_and, Bool.toNat_false, Nat.add_zero]
  split_ifs with hd
  · rw [Dcache.hdsAxiR, Bool.and_eq_true] at hd
    have har0 : s.dc.arValid = false := (hr.read.data ha hd.1).1
    rw [har0] at hold ⊢
    exact fun _ _ => hold
  · change _ + (s.dc.next S (s.dcIn D seg x)).arValid.toNat = 1
    rw [Dcache.next_arValid, Dcache.arSet, hs]
    change _ + _ + (false || (s.dc.arValid && !x.axi.arReady)).toNat = 1
    rw [← hold]
    cases s.dc.arValid <;> cases x.axi.arReady <;> rfl

/-- The address of a store waits until it is accepted, and the response comes behind it. -/
theorem Books.onBus_of_uncachedWrite (hs : s.dc.state = .uncachedWrite)
    (h2 : (s.next D S seg x).core.cmt.lsu.s2Valid = true) :
    (s.next D S seg x).OnBus (L.next D seg s x) := by
  have hstn : (s.next D S seg x).dc.state = s.dc.stateNxt S (s.dcIn D seg x) := rfl
  obtain ⟨h2s, hfirst, hu⟩ := kept_of_stall (L := L) hi hlink (by simp [hs]) h2
  have hold := hb.onBus h2s
  obtain ⟨c, hr⟩ : ∃ c, s.dc.BusUncachedWrite s.mem c := by simpa [Dcache.Bus, hs] using hbus
  have har0 : s.dc.arValid = false := hr.read.arValid
  simp only [OnBus, hs] at hold
  rw [OnBus, hstn, hfirst, hu, count_bus_next]
  simp only [Dcache.stateNxt, hs, har0, Bool.false_and, Bool.toNat_false, Nat.zero_add]
  split_ifs with hd
  · rw [Dcache.hdsAxiB, Bool.and_eq_true] at hd
    have haw0 : s.dc.awValid = false := (hr.write.of_bValid ha hd.2).1
    rw [haw0] at hold ⊢
    exact fun _ _ => hold
  · change _ + (s.dc.next S (s.dcIn D seg x)).awValid.toNat = 1
    rw [Dcache.next_awValid, Dcache.awSet, hs]
    change _ + _ + (false || (s.dc.awValid && !x.axi.awReady)).toNat = 1
    rw [← hold]
    cases s.dc.awValid <;> cases x.axi.awReady <;> rfl

/-- The uncached access after a cycle. -/
theorem Books.onBus_next (h2 : (s.next D S seg x).core.cmt.lsu.s2Valid = true) :
    (s.next D S seg x).OnBus (L.next D seg s x) := by
  by_cases hst : s.dc.state = .idle
  · exact hb.onBus_of_enters hi hlink hbus hst h2
  · have hstn : (s.next D S seg x).dc.state = s.dc.stateNxt S (s.dcIn D seg x) := rfl
    obtain ⟨h2s, hfirst, hu⟩ := kept_of_stall (L := L) hi hlink hst h2
    have hold := hb.onBus h2s
    cases hs : s.dc.state with
    | boot => exact absurd hs (hlink.boot h2s)
    | idle => exact absurd hs hst
    | uncachedBoot => exact hb.onBus_of_uncachedBoot hi hlink hbus hs h2
    | uncachedRead => exact hb.onBus_of_uncachedRead hi hlink hbus ha hs h2
    | uncachedWrite => exact hb.onBus_of_uncachedWrite hi hlink hbus ha hs h2
    | invalidate | reload =>
        simp only [OnBus, hs] at hold
        rw [OnBus, hstn, hfirst, hu]
        simp only [Dcache.stateNxt, hs]
        exact fun hm => absurd hm hold
    | replace | writeback | refill | flush =>
        simp only [OnBus, hs] at hold
        rw [OnBus, hstn, hfirst, hu]
        simp only [Dcache.stateNxt, hs]
        split_ifs <;> first | exact hold | exact fun hm => absurd hm hold

/-- What is put on the bus is put there for the access in the second stage. -/
theorem of_handshake (hh : (s.dc.arValid && x.axi.arReady) = true ∨
    (s.dc.awValid && x.axi.awReady) = true) :
    s.core.cmt.lsu.s2Valid = true ∧ s.leaves D x = false := by
  have hst : s.dc.state ≠ .boot ∧ s.dc.state ≠ .idle := by
    simp only [Bool.and_eq_true] at hh
    rcases hh with hh | hh
    · rcases (hbus.of_arValid hh.1).1 with hst | hst <;> simp [hst]
    · rcases (hbus.of_write (Or.inl hh.1)).1 with hst | hst <;> simp [hst]
  have h2 : s.core.cmt.lsu.s2Valid = true := by
    by_contra hne
    rcases hlink.quiet (Bool.eq_false_of_not_eq_true hne) with hq | hq
    · exact hst.1 hq
    · exact hst.2 hq
  exact ⟨h2, stays_of_stall hi (by rw [busy, h2, Bool.or_true]) hst.2⟩

variable (hw : L.watch = s.core.watch t)

include hw

omit hbus ha hb hw in
/-- The second stage keeps the access while the oldest instruction stays. -/
theorem s2Valid_next (h2 : s.core.cmt.lsu.s2Valid = true) (hl : s.leaves D x = false) :
    (s.next D S seg x).core.cmt.lsu.s2Valid = true := by
  have hpol := polite (x := x) hi.cmt
  have hbusy : s.busy = true := by rw [busy, h2, Bool.or_true]
  have hb' : (s.next D S seg x).busy = true := by
    rw [busy_next hi, hbusy, hl]
    simp
  by_cases hst : s.dc.state = .idle
  · -- the access would be done, and the stage before is empty
    have h1 : s.core.cmt.lsu.s1Valid = false := by
      by_contra hne
      exact Bool.noConfusion ((hlink.one (Bool.eq_true_of_not_eq_false hne)).symm.trans h2)
    have hasks : s.asks D x = false := by
      by_contra hne
      have hp := pending_of_busy hi hbusy
      rw [(of_asks hi (Bool.eq_true_of_not_eq_false hne)).1] at hp
      cases hp
    have h2' : (s.next D S seg x).core.cmt.lsu.s2Valid = s.core.cmt.lsu.s1Valid :=
      (LsuSide.next_of_idle (S := S) seg hpol hst).1
    have h1' : (s.next D S seg x).core.cmt.lsu.s1Valid = s.asks D x := hpol.s1_next (S := S) seg hst
    rw [busy, h1', h2', hasks, h1] at hb'
    cases hb'
  · exact (LsuSide.next_of_stall (S := S) seg hpol hst).2.1.trans h2

variable (seg) in
omit hlink hbus ha hb in
/-- A number that was in use for the oldest instruction is below the next one, or the instruction
stays. -/
theorem lt_first_next_or (hbusy : s.busy = true) :
    L.first < (L.next D seg s x).first ∨
      (s.leaves D x = false ∧ (L.next D seg s x).first = L.first) := by
  cases hl : s.leaves D x with
  | true => exact Or.inl (lt_first_next hi hw (valid_of_busy hi hbusy) hl)
  | false => exact Or.inr ⟨rfl, first_next_of_stays hl⟩

variable (seg) in
omit hbus ha hb in
/-- An access that has left, or is in the second stage, has left or is there after the cycle. -/
theorem placed_next {m : ℕ} (hm : m < L.first ∨ (m = L.first ∧ s.core.cmt.lsu.s2Valid = true)) :
    m < (L.next D seg s x).first ∨
      (m = (L.next D seg s x).first ∧ (s.next D S seg x).core.cmt.lsu.s2Valid = true) := by
  rcases hm with hlt | ⟨rfl, h2⟩
  · exact Or.inl (lt_of_lt_of_le hlt first_le_next)
  · have hbusy : s.busy = true := by rw [busy, h2, Bool.or_true]
    rcases lt_first_next_or seg hi hw (x := x) hbusy with hlt | ⟨hl, hf⟩
    · exact Or.inl hlt
    · exact Or.inr ⟨hf.symm, s2Valid_next hi hlink h2 hl⟩

omit hlink hbus ha hb in
/-- A load or a store that commits is in the second stage of the load/store unit. -/
theorem s2Valid_of_access {p : ℕ × RInsn}
    (hp : p ∈ Ledger.numbered L.first (L.watch.window.take (s.popSize D x)))
    (hm : p.2.d.lsu.load = true ∨ p.2.d.lsu.store = true) :
    p.1 = L.first ∧ s.core.cmt.lsu.s2Valid = true := by
  obtain ⟨i, -, hnum, hfire, h2, hpay⟩ := of_numbered hi hw hp
  have hm' : (s.core.head D i).pay.lsu.load = true ∨ (s.core.head D i).pay.lsu.store = true := by
    rw [hpay]
    exact hm
  have hneeds : ((s.cmtIn D x).head i).needsPipe = true := by
    rw [CmtHead.needsPipe, show ((s.cmtIn D x).head i).pay.lsu.any = true from
      CmtHead.lsuAny_of_mem hm', Bool.true_or]
  obtain ⟨rfl, hfin⟩ := Cmt.finish_of_fire (x := s.cmtIn D x) h2 hfire hneeds
  refine ⟨by rw [hnum, Nat.add_zero], ?_⟩
  obtain ⟨g, hg⟩ := hi.cmt.flight (hi.cmt.pending_of_pipeFinish hfin)
  have hstart : (s.core.head D 0).startStage = .lsu1 := by
    rw [CmtHead.startStage, if_pos]
    rw [LsuReq.valid, show (s.core.head D 0).lsuReq.reqValid = true from hneeds, Bool.true_and]
    change ((s.core.head D 0).pay.lsu.load || (s.core.head D 0).pay.lsu.store || _) = true
    rcases hm' with h | h <;> simp [h]
  have hst := hg.start
  rw [hstart] at hst
  rw [hg.pipeFinish] at hfin
  rw [hg.s2Valid]
  cases g with
  | lsu1 => simp at hfin
  | lsu2 => rfl
  | epu => cases hst
  | nowhere => cases hst

omit hlink hbus ha in
/-- Squashed are numbers below that of the oldest instruction. -/
theorem Books.squashed_next : ∀ m ∈ (L.next D seg s x).squashed, m < (L.next D seg s x).first := by
  intro m hm
  rcases List.mem_append.1 hm with hm | hm
  · exact lt_of_lt_of_le (hb.squashed m hm) first_le_next
  · split at hm
    case isFalse => cases hm
    case isTrue hf =>
        have hpos : s.excFlush D x = true → 0 < L.watch.window.length := fun he =>
          window_length_pos hi hw (of_excFlush hi he).2.2.1
        rw [List.mem_range'_1] at hm
        change m < L.first + _
        rw [if_pos hf]
        cases he : s.excFlush D x with
        | false =>
            rw [he] at hm
            simpa using hm.2
        | true =>
            have := hpos he
            rw [he] at hm
            simp only [Bool.toNat_true] at hm
            omega

omit hlink hbus ha hw in
/-- A request is behind all others. -/
theorem Books.order_next : (L.next D seg s x).requests.Pairwise (· < ·) := by
  refine List.pairwise_append.2 ⟨hb.order, ?_, ?_⟩
  · split
    · exact List.pairwise_singleton _ _
    · exact List.Pairwise.nil
  · intro m hm m' hm'
    split at hm'
    case isFalse => cases hm'
    case isTrue hasks =>
        rw [List.mem_singleton] at hm'
        rcases hb.requests m hm with hlt | ⟨-, hbusy⟩
        · rwa [hm']
        · have hp := pending_of_busy hi hbusy
          rw [(of_asks hi hasks).1] at hp
          cases hp

omit hlink hbus ha in
/-- A request is that of the oldest instruction, as long as it is there. -/
theorem Books.requests_next : ∀ m ∈ (L.next D seg s x).requests, m < (L.next D seg s x).first ∨
    (m = (L.next D seg s x).first ∧ (s.next D S seg x).busy = true) := by
  intro m hm
  rcases List.mem_append.1 hm with hm | hm
  · rcases hb.requests m hm with hlt | ⟨rfl, hbusy⟩
    · exact Or.inl (lt_of_lt_of_le hlt first_le_next)
    · rcases lt_first_next_or seg hi hw (x := x) hbusy with hlt | ⟨hl, hf⟩
      · exact Or.inl hlt
      · refine Or.inr ⟨hf.symm, ?_⟩
        rw [busy_next hi, hbusy, hl]
        simp
  · split at hm
    case isFalse => cases hm
    case isTrue hasks =>
        rw [List.mem_singleton] at hm
        refine Or.inr ⟨hm.trans (first_next_of_stays (of_asks hi hasks).2.1).symm, ?_⟩
        rw [busy_next hi, hasks, Bool.true_or]

omit hlink hbus ha hw in
/-- Nothing is squashed that has asked. -/
theorem Books.silent_next : ∀ m ∈ (L.next D seg s x).squashed, m ∉ (L.next D seg s x).requests := by
  intro m hm hr
  rcases List.mem_append.1 hm with hm | hm
  · rcases List.mem_append.1 hr with hr | hr
    · exact hb.silent m hm hr
    · split at hr
      case isFalse => cases hr
      case isTrue =>
          rw [List.mem_singleton] at hr
          exact absurd (hb.squashed m hm) (by omega)
  · split at hm
    case isFalse => cases hm
    case isTrue hf =>
        -- nothing is asked in the cycle of a flush, nor has been for those behind the oldest
        -- instruction
        have hasks : s.asks D x = false := by
          by_contra hne
          have hl := (of_asks hi (Bool.eq_true_of_not_eq_false hne)).2.1
          rw [leaves, hf, Bool.true_or] at hl
          cases hl
        rw [show (L.next D seg s x).requests = L.requests by simp [Ledger.next, hasks]] at hr
        rw [List.mem_range'_1] at hm
        rcases hb.requests m hr with hlt | ⟨rfl, hbusy⟩
        · omega
        · rcases flush_cases hi hf with ⟨-, -, hnb⟩ | ⟨-, he⟩
          · rw [hnb] at hbusy
            cases hbusy
          · rw [he] at hm
            simp at hm

omit hbus ha in
/-- An uncached access is in the second stage, or done. -/
theorem Books.uncached_next : ∀ m ∈ (L.next D seg s x).uncached, m < (L.next D seg s x).first ∨
    (m = (L.next D seg s x).first ∧ (s.next D S seg x).core.cmt.lsu.s2Valid = true) := by
  intro m hm
  rcases List.mem_append.1 hm with hm | hm
  · exact placed_next seg hi hlink hw (hb.uncached m hm)
  · split at hm
    case isFalse => cases hm
    case isTrue hsu =>
        rw [List.mem_singleton] at hm
        obtain ⟨h1, hst⟩ := of_startsUncached hsu
        refine Or.inr ⟨hm.trans (first_next_of_stays (stays_of_s1Valid hi h1)).symm, ?_⟩
        exact ((LsuSide.next_of_idle (S := S) seg (polite (x := x) hi.cmt) hst).1).trans h1

/-- On the bus is the access in the second stage, or one that is done. -/
theorem Books.bus_next : ∀ m ∈ (L.next D seg s x).bus, m ∈ (L.next D seg s x).requests ∧
    (m < (L.next D seg s x).first ∨
      (m = (L.next D seg s x).first ∧ (s.next D S seg x).core.cmt.lsu.s2Valid = true)) := by
  intro m hm
  rcases List.mem_append.1 hm with hm | hm
  · obtain ⟨hr, hm⟩ := hb.bus m hm
    exact ⟨List.mem_append_left _ hr, placed_next seg hi hlink hw hm⟩
  · have hh : m = L.first ∧
        ((s.dc.arValid && x.axi.arReady) = true ∨ (s.dc.awValid && x.axi.awReady) = true) := by
      rcases List.mem_append.1 hm with hm | hm
      · split at hm
        case isFalse => cases hm
        case isTrue h => exact ⟨List.mem_singleton.1 hm, Or.inl h⟩
      · split at hm
        case isFalse => cases hm
        case isTrue h => exact ⟨List.mem_singleton.1 hm, Or.inr h⟩
    obtain ⟨h2, hl⟩ := of_handshake hi hlink hbus ha hb hh.2
    rw [hh.1]
    refine ⟨List.mem_append_left _ (hb.asked (by rw [busy, h2, Bool.or_true])), Or.inr ⟨?_, ?_⟩⟩
    · exact (first_next_of_stays hl).symm
    · exact s2Valid_next hi hlink h2 hl

omit hlink ha in
/-- An uncached access that has committed has been on the bus once. -/
theorem Books.once_next : ∀ p ∈ (L.next D seg s x).committed, p.1 ∈ (L.next D seg s x).uncached →
    (L.next D seg s x).bus.count p.1 = 1 := by
  intro p hp hu
  have hold : p.1 < L.first → p.1 ∈ L.uncached := by
    intro hlt
    rcases List.mem_append.1 hu with hu | hu
    · exact hu
    · split at hu
      case isFalse => cases hu
      case isTrue => exact absurd (List.mem_singleton.1 hu) (ne_of_lt hlt)
  rcases List.mem_append.1 hp with hp | hp
  · have hlt := hb.committed p hp
    rw [count_bus_next_of_ne (ne_of_lt hlt)]
    exact hb.once p hp (hold hlt)
  · -- it commits now, and has been in the second stage
    obtain ⟨i, hi', hnum, -⟩ := of_numbered hi hw hp
    have hl : s.leaves D x = true := by
      rw [leaves, Bool.or_eq_true, decide_eq_true_eq]
      exact Or.inr (by omega)
    have hu' : p.1 ∈ L.uncached := by
      rcases List.mem_append.1 hu with hu | hu
      · exact hu
      · split at hu
        case isFalse => cases hu
        case isTrue hsu =>
            rw [stays_of_s1Valid hi (of_startsUncached hsu).1] at hl
            cases hl
    obtain ⟨hp0, h2⟩ := (hb.uncached _ hu').resolve_left (by omega)
    have hst : s.dc.state = .idle := by
      by_contra hne
      rw [stays_of_stall hi (by rw [busy, h2, Bool.or_true]) hne] at hl
      cases hl
    have hq : s.dc.BusQuiet s.mem := by simpa [Dcache.Bus, hst] using hbus
    have hon := hb.onBus h2
    rw [OnBus, hst] at hon
    rw [hp0, bus_next_eq hq.read.arValid hq.write.awValid]
    exact hon (hp0 ▸ hu') (exc_of_commit hi h2 hst (flush_of_commit hi'))

/-- **The ledger after a cycle.** -/
theorem Books.next : (s.next D S seg x).Books (L.next D seg s x) where
  committed := by
    intro p hp
    rcases List.mem_append.1 hp with hp | hp
    · exact lt_of_lt_of_le (hb.committed p hp) first_le_next
    · obtain ⟨i, hlt, hnum, -⟩ := of_numbered hi hw hp
      have hf : s.flush D x = false := flush_of_commit hlt
      rw [hnum]
      change L.first + i < L.first + _
      rw [hf, if_neg Bool.false_ne_true]
      omega
  squashed := hb.squashed_next hi hw
  order := hb.order_next hi
  requests := hb.requests_next hi hw
  asked := by
    intro hbusy
    rw [busy_next hi, Bool.or_eq_true, Bool.and_eq_true, Bool.not_eq_true'] at hbusy
    rcases hbusy with hasks | ⟨hbusy, hl⟩
    · rw [first_next_of_stays (of_asks hi hasks).2.1]
      exact List.mem_append_right _ (by rw [if_pos hasks]; exact List.mem_singleton_self _)
    · rw [first_next_of_stays hl]
      exact List.mem_append_left _ (hb.asked hbusy)
  accesses := by
    intro p hp hm
    rcases List.mem_append.1 hp with hp | hp
    · exact List.mem_append_left _ (hb.accesses p hp hm)
    · obtain ⟨hnum, h2⟩ := s2Valid_of_access hi hw hp hm
      rw [hnum]
      exact List.mem_append_left _ (hb.asked (by rw [busy, h2, Bool.or_true]))
  silent := hb.silent_next hi
  uncached := hb.uncached_next hi hlink hw
  bus := hb.bus_next hi hlink hbus ha hw
  once := hb.once_next hi hbus hw
  onBus h2 := hb.onBus_next hi hlink hbus ha h2

end Cycle

/-! ### Every reachable state -/

theorem books_reset : (reset z pay m₀ : DataSide n k).Books
    (⟨Watch.reset, 0, [], [], [], [], [], [], [], (reset z pay m₀ : DataSide n k).store S⟩ :
      Ledger k S) where
  committed _ hp := by cases hp
  squashed _ hm := by cases hm
  order := List.Pairwise.nil
  requests _ hm := by cases hm
  asked hb := by cases hb
  accesses _ hp := by cases hp
  silent _ hm := by cases hm
  uncached _ hm := by cases hm
  bus _ hm := by cases hm
  once _ hm := by cases hm
  onBus h := by cases h

/-- The parts of a reachable state. -/
theorem parts_of_booked (h : (booked n k D S seg z pay m₀).Reach (s, L)) :
    (∃ t, (Backend.traced n D z).Reach (s.core, t) ∧ L.watch = s.core.watch t) ∧ s.side.Link ∧
      s.dc.Bus s.mem := by
  have hr := Machine.Reach.of_observe h
  exact ⟨Backend.watch_of_reach (watched_of_booked h), link_of_reach hr, bus_of_reach hr⟩

/-- **The ledger in every reachable state.** -/
theorem books_of_reach (h : (booked n k D S seg z pay m₀).Reach (s, L)) : s.Books L := by
  have key : (booked n k D S seg z pay m₀).Reach (s, L) ∧ s.Books L := by
    refine Machine.Reach.inv (M := booked n k D S seg z pay m₀)
      (P := fun q => (booked n k D S seg z pay m₀).Reach q ∧ q.1.Books q.2)
      ⟨Machine.Reach.reset, books_reset⟩ ?_ h
    rintro ⟨s, L⟩ x ⟨hr, hb⟩ hx
    obtain ⟨⟨t, ht, hw⟩, hlink, hbus⟩ := parts_of_booked hr
    exact ⟨Machine.Reach.tick hr hx, hb.next (Backend.inv_of_reach ht) hlink hbus hx.1.2 hw⟩
  exact key.2

/-- **Each access is made once, in order, and for no squashed instruction.**  A committed load or
store has asked the D-cache once, and if the access is uncached, once on the bus; the requests are
in program order, and none is made while another is in flight; and what is squashed has asked
nothing. -/
theorem accesses_once (h : (booked n k D S seg z pay m₀).Reach (s, L)) :
    (∀ p ∈ L.committed, p.2.d.lsu.load = true ∨ p.2.d.lsu.store = true →
      L.requests.count p.1 = 1 ∧ (p.1 ∈ L.uncached → L.bus.count p.1 = 1)) ∧
    L.requests.Pairwise (· < ·) ∧
    (∀ x : DataIn k, s.asks D x = true → s.busy = false) ∧
    ∀ m ∈ L.squashed, m ∉ L.requests ∧ m ∉ L.bus := by
  have hb := books_of_reach h
  obtain ⟨⟨t, ht, -⟩, -, -⟩ := parts_of_booked h
  have hi := Backend.inv_of_reach ht
  refine ⟨fun p hp hm => ⟨?_, fun hu => hb.once p hp hu⟩, hb.order, fun x hasks => ?_,
    fun m hm => ⟨hb.silent m hm, fun hbus => hb.silent m hm (hb.bus m hbus).1⟩⟩
  · have hnd : L.requests.Nodup := hb.order.imp fun hlt => ne_of_lt hlt
    exact List.count_eq_one_of_mem hnd (hb.accesses p hp hm)
  · by_contra hne
    have hp := pending_of_busy hi (Bool.eq_true_of_not_eq_false hne)
    rw [(of_asks hi hasks).1] at hp
    cases hp

/-- A cycle of the back-end, in front of a memory that takes any address and may send a word. -/
def readCycle (y : BackendIn) (r : Bool) : DataIn 1 where
  rnValid := y.rnValid
  rnPushSize := y.rnPushSize
  rnInsn := y.rnInsn
  icinvReady := y.icinvReady
  rd := y.rd
  axi := { AxiIn.silent with arReady := true, rValid := r, rData := BitVec.ofNat 8, rLast := r }
  unc := fun _ _ => 0

/-- A load, a system call and another load; the word of the first comes in the eleventh cycle. -/
def readCycles : List (DataIn 1) :=
  [readCycle (soloIn Backend.ldw emptyInsn.d) false,
      readCycle (soloIn Backend.ecall emptyInsn.d) false,
      readCycle (soloIn Backend.ldw emptyInsn.d) false] ++
    List.replicate 7 (readCycle (quietIn emptyInsn.d) false) ++
      [readCycle (quietIn emptyInsn.d) true] ++
    List.replicate 3 (readCycle (quietIn emptyInsn.d) false)

theorem accesses_once_load :
    let M := booked 4 1 3 0 false emptyInsn (fun _ _ _ => 0) (BitVec.ofNat 8)
    M.Reach (M.run readCycles) ∧ (M.run readCycles).2.committed.map Prod.fst = [0] ∧
      (M.run readCycles).2.uncached = [0] ∧ (M.run readCycles).2.requests.count 0 = 1 ∧
      (M.run readCycles).2.bus.count 0 = 1 ∧ (M.run readCycles).2.squashed = [2] ∧
      2 ∉ (M.run readCycles).2.requests := by
  intro M
  have hin : ∀ x ∈ readCycles, ∃ y r, y.Delivers ∧ x = readCycle y r := by
    have hf : emptyInsn.d.lrdWe = false := by decide
    have hq : ∀ r, ∃ y r', y.Delivers ∧ readCycle (quietIn emptyInsn.d) r =
        readCycle y r' := fun r =>
      ⟨_, r, (quietIn_quiet hf).delivers, rfl⟩
    have hs : ∀ d : DecInsn, d.WellFormed →
        ∃ y r, y.Delivers ∧ readCycle (soloIn d emptyInsn.d) false = readCycle y r := fun d hd =>
      ⟨_, false, (soloIn_alone d hf).delivers hd, rfl⟩
    intro x hx
    simp only [readCycles, List.mem_append, List.mem_cons, List.not_mem_nil, or_false] at hx
    rcases hx with (((rfl | rfl | rfl) | hx) | rfl) | hx
    · exact hs _ (idDec_wellFormed _ _ _ _ _ _ _)
    · exact hs _ (idDec_wellFormed _ _ _ _ _ _ _)
    · exact hs _ (idDec_wellFormed _ _ _ _ _ _ _)
    · rw [List.eq_of_mem_replicate hx]
      exact hq _
    · exact hq _
    · rw [List.eq_of_mem_replicate hx]
      exact hq _
  have ha : ∀ i < 14, ∀ x ∈ readCycles[i]?, x.axi.rValid = true →
      (M.run (readCycles.take i)).1.mem.rd = some (⟨0, 0, 2⟩, 0) ∧ x.axi.rLast = true ∧
        ∀ p < 4, x.axi.rData (p % 8) = (M.run (readCycles.take i)).1.mem.mem p := by
    decide +kernel
  have hr : M.Reach (M.run readCycles) := by
    refine Machine.reach_run fun i x hx => ?_
    obtain ⟨y, r, hy, rfl⟩ := hin x (List.mem_of_getElem? hx)
    refine ⟨⟨⟨hy.le, hy.valid, hy.wellFormed⟩, ⟨fun h => ?_, fun h => Bool.noConfusion h⟩⟩, trivial⟩
    obtain ⟨hrd, hlast, hdat⟩ := ha i (List.getElem?_eq_some_iff.1 hx).1 _ hx h
    exact ⟨_, _, hrd, hlast, fun p _ hp => hdat p hp⟩
  have hd : (M.run readCycles).2.committed.map Prod.fst = [0] ∧
      (M.run readCycles).2.uncached = [0] ∧ (M.run readCycles).2.squashed = [2] ∧
      (∀ p ∈ (M.run readCycles).2.committed, p.2.d.lsu.load = true) := by
    decide +kernel
  obtain ⟨hc, hu, hs, hl⟩ := hd
  have hc0 : 0 ∈ (M.run readCycles).2.committed.map Prod.fst := hc ▸ List.mem_singleton_self 0
  have hu0 : 0 ∈ (M.run readCycles).2.uncached := hu ▸ List.mem_singleton_self 0
  have hs2 : 2 ∈ (M.run readCycles).2.squashed := hs ▸ List.mem_singleton_self 2
  obtain ⟨hcount, -, -, hsq⟩ := accesses_once (s := (M.run readCycles).1)
      (L := (M.run readCycles).2) hr
  obtain ⟨p, hp, hp0⟩ := List.mem_map.1 hc0
  obtain ⟨h1, h2⟩ := hcount p hp (Or.inl (hl p hp))
  rw [hp0] at h1 h2
  exact ⟨hr, hc, hu, h1, h2 hu0, hs, (hsq 2 hs2).1⟩

end DataSide

end NanoCpu
