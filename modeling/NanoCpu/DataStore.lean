/-
**The cache and the memory between two instructions** (`rtl/core/cmt_lsu.v`, `dcache.v`).

Only an access in the second stage of the load/store unit changes the cache or the memory.  An
access that raises an exception is killed in the cycle in which it comes there, so that the cache
never takes it on: until it leaves, the cache and the memory are what the instruction before it has
left behind.  This does not hold of a D-cache operation, which the cache performs whatever the data
MMU says.

Main definitions:

* `Dcache.Blank` — the cache before the end of its boot;
* `DataSide.Still` — the cache and the memory are as the last instruction has left them.

Main results:

* `DataSide.store_next_eq` — a cycle in which no access is in the second stage changes nothing;
* `DataSide.still_of_reach`, `DataSide.store_of_excFlush` — **an exception leaves the cache and the
  memory**.
-/

import NanoCpu.DataLedger

set_option relaxedAutoImplicit false
set_option autoImplicit false
set_option linter.unusedSectionVars false

namespace NanoCpu

namespace Dcache

variable {n S : ℕ} [NeZero n] {s : Dcache n} {x : DcIn n}

/-- No set is in use. -/
def Blank (s : Dcache n) : Prop := ∀ w i, s.tagV w i = (0, false) ∧ s.d w i = false

theorem blank_reset (pay : Fin n → ℕ × ℕ → ℕ → Byte) : (reset pay).Blank := fun _ _ => ⟨rfl, rfl⟩

theorem Blank.next (h : s.Blank) (hst : s.state = .boot) : (s.next S x).Blank := by
  intro w i
  constructor
  · change (if _ then s.s1iReplaceTagV S else s.tagV w i) = _
    rw [show s.s1iReplaceTagV S = (0, false) by simp [s1iReplaceTagV, hst], (h w i).1, ite_self]
  · change (if _ then s.s2iDWdat w else s.d w i) = _
    rw [show s.s2iDWdat w = false by simp [s2iDWdat, hst], (h w i).2, ite_self]

/-- The boot clears sets that are not in use. -/
theorem Blank.contents_next (h : s.Blank) (hst : s.state = .boot) :
    (s.next S x).contents S = s.contents S := by
  have ht : (s.next S x).tagV = s.tagV := by
    funext w i
    rw [(h.next hst w i).1, (h w i).1]
  have hd : (s.next S x).d = s.d := by
    funext w i
    rw [(h.next hst w i).2, (h w i).2]
  have hp := next_pay (S := S) (s := s) (x := x) (s2iReady_of_state (by simp [hst])) (by simp [hst])
  rw [contents, contents, ht, hd, hp]

end Dcache

namespace DataSide

variable {n k : ℕ} [NeZero n] [NeZero k] {D S : ℕ} {seg : Bool} {s : DataSide n k} {x : DataIn k}
  {z : RInsn} {pay : Fin k → ℕ × ℕ → ℕ → Byte} {m₀ : ℕ → Byte} {L : Ledger k S} {t : Trace}

/-! ### Cycles that change nothing -/

/-- The cache takes nothing on. -/
theorem store_next_of_idle (hbus : s.dc.Bus s.mem) (hst : s.dc.state = .idle)
    (hr : s.dc.s1o.req = false ∨
      s.core.cmt.lsu.killReq = true ∧ s.dc.s1o.inv = false ∧ s.dc.s1o.fls = false) :
    (s.next D S seg x).store S = s.store S := by
  have hq : s.dc.BusQuiet s.mem := by simpa [Dcache.Bus, hst] using hbus
  have hready : s.dc.s2iReady S (s.dcIn D seg x) = false := by
    rcases hr with hr | ⟨hk, -⟩
    · simp [Dcache.s2iReady, hr]
    · have hk' : (s.dcIn D seg x).kill = true := hk
      simp [Dcache.s2iReady, hk']
  refine Prod.ext ?_ hq.write.mem_next
  exact Dcache.contents_next hready (by simp [hst])

theorem store_next_of_boot (hbus : s.dc.Bus s.mem) (hst : s.dc.state = .boot) (hb : s.dc.Blank) :
    (s.next D S seg x).store S = s.store S := by
  have hq : s.dc.BusQuiet s.mem := by simpa [Dcache.Bus, hst] using hbus
  exact Prod.ext (hb.contents_next hst) hq.write.mem_next

/-- The cache and the memory are as the last instruction has left them, as long as no access of
another is in the second stage of the load/store unit, or the access is one that raises an
exception. -/
structure Still (D : ℕ) (s : DataSide n k) (L : Ledger k S) : Prop where
  blank : s.dc.state = .boot → s.dc.Blank
  quiet : s.core.cmt.lsu.s2Valid = false → s.store S = L.snap
  fault : s.core.cmt.lsu.s2Valid = true → s.core.cmt.lsu.exc = true →
    (s.core.head D 0).lsuReq.dcop = false → s.dc.state = .idle ∧ s.store S = L.snap

/-- The reorder buffer shows the oldest instruction until it leaves. -/
theorem head_next_of_stays (hi : s.core.Inv D t) (hx : (s.coreIn x).Delivers)
    (hv : s.core.rob.cmtValid 1 D 0 = true) (hl : s.leaves D x = false) :
    (s.next D S seg x).core.head D 0 = s.core.head D 0 := by
  rw [leaves, Bool.or_eq_false_iff, decide_eq_false_iff_not, not_not] at hl
  obtain ⟨num, hp, hval⟩ := hi.place
  exact (hi.order.head_stays hp hval hx hv hl.2 hl.1).2

/-- The second stage stands still with the cache. -/
theorem exc_next_of_stall (hst : s.dc.state ≠ .idle) :
    (s.next D S seg x).core.cmt.lsu.exc = s.core.cmt.lsu.exc := by
  have hce : (s.core.cmt.lsuIn (s.cmtIn D x)).pCeS2 = false := by
    change (!s.dc.stallReq) = false
    simp [Dcache.stallReq, hst]
  change (s.core.cmt.lsu.next (s.core.cmt.lsuIn (s.cmtIn D x))).exc = _
  simp only [Lsu.exc, Lsu.edtm, Lsu.edpf, Lsu.ealign, Lsu.next, hce]
  rfl

/-- The ledger keeps its snapshot while the oldest instruction stays. -/
theorem snap_next_of_stays (hi : s.core.Inv D t) (hl : s.leaves D x = false) :
    (L.next D seg s x).snap = L.snap := by
  rw [leaves, Bool.or_eq_false_iff, decide_eq_false_iff_not, not_not] at hl
  have he : s.excFlush D x = false := by
    by_contra hne
    have := (of_excFlush hi (Bool.eq_true_of_not_eq_false hne)).2.1
    rw [hl.1] at this
    cases this
  simp [Ledger.next, hl.2, he]

/-- A snapshot of a cycle that changes nothing. -/
theorem snap_next_of_store (h : (s.next D S seg x).store S = L.snap) :
    (L.next D seg s x).snap = L.snap := by
  simp only [Ledger.next, h, ite_self]

section Cycle

variable (hi : s.core.Inv D t) (hlink : s.side.Link) (hbus : s.dc.Bus s.mem) (hs : s.Still D L)

include hi hlink hbus hs

/-- A cycle with no access in the second stage. -/
theorem store_next_eq (h2 : s.core.cmt.lsu.s2Valid = false) (h1 : s.core.cmt.lsu.s1Valid = false) :
    (s.next D S seg x).store S = s.store S := by
  rcases hlink.quiet h2 with hst | hst
  · exact store_next_of_boot hbus hst (hs.blank hst)
  · exact store_next_of_idle hbus hst (Or.inl (hlink.req.trans h1))

/-- **An exception leaves the cache and the memory as they were** when the last instruction
committed. -/
theorem store_of_excFlush (he : s.excFlush D x = true)
    (hd : (s.core.head D 0).lsuReq.dcop = false) :
    s.store S = L.snap ∧ (s.next D S seg x).store S = L.snap := by
  obtain ⟨-, hf, -, -, hstall, hexc⟩ := of_excFlush hi he
  have hst : s.dc.state = .idle := by simpa [Dcache.stallReq] using hstall
  have h1 : s.core.cmt.lsu.s1Valid = false :=
    s1Valid_of_leaves (x := x) hi (by rw [leaves, hf, Bool.true_or])
  have hstore : s.store S = L.snap := by
    cases h2 : s.core.cmt.lsu.s2Valid with
    | false => exact hs.quiet h2
    | true => exact (hs.fault h2 (hexc h2) hd).2
  exact ⟨hstore, (store_next_of_idle hbus hst (Or.inl (hlink.req.trans h1))).trans hstore⟩

/-- When the oldest instruction leaves, the ledger's snapshot is what it leaves behind. -/
theorem store_next_of_leaves (hl : s.leaves D x = true) :
    (s.next D S seg x).store S = (L.next D seg s x).snap := by
  have h1 : s.core.cmt.lsu.s1Valid = false := s1Valid_of_leaves hi hl
  cases h2 : s.core.cmt.lsu.s2Valid with
  | false =>
      have hstore : (s.next D S seg x).store S = L.snap :=
        (store_next_eq hi hlink hbus hs h2 h1).trans (hs.quiet h2)
      rw [snap_next_of_store hstore, hstore]
  | true =>
      have hbusy : s.busy = true := by rw [busy, h2, Bool.or_true]
      cases hf : s.flush D x with
      | false =>
          rw [leaves, hf, Bool.false_or, decide_eq_true_eq] at hl
          simp [Ledger.next, hl]
      | true =>
          rcases flush_cases hi hf with ⟨-, -, hnb⟩ | ⟨-, he⟩
          · rw [hnb] at hbusy
            cases hbusy
          · cases hd : (s.core.head D 0).lsuReq.dcop with
            | true => simp [Ledger.next, he, hd]
            | false =>
                have hstore : (s.next D S seg x).store S = L.snap :=
                  (store_of_excFlush hi hlink hbus hs he hd).2
                rw [snap_next_of_store hstore, hstore]

omit hbus hs in
/-- Behind it the second stage is empty. -/
theorem s2Valid_next_of_leaves (hl : s.leaves D x = true) :
    (s.next D S seg x).core.cmt.lsu.s2Valid = false := by
  have hpol := polite (x := x) hi.cmt
  by_cases hst : s.dc.state = .idle
  · exact (LsuSide.next_of_idle (S := S) seg hpol hst).1.trans (s1Valid_of_leaves hi hl)
  · refine (LsuSide.next_of_stall (S := S) seg hpol hst).2.1.trans ?_
    change s.core.cmt.lsu.s2Valid = false
    by_contra hne
    rw [stays_of_stall hi (by rw [busy, Bool.eq_true_of_not_eq_false hne, Bool.or_true]) hst] at hl
    cases hl

/-- The access in the first stage goes to the second.  If it is to raise an exception the cache
drops it. -/
theorem Still.next_first (hx : (s.coreIn x).Delivers) (h1 : s.core.cmt.lsu.s1Valid = true) :
    (s.next D S seg x).Still D (L.next D seg s x) := by
  have hl := stays_of_s1Valid (x := x) hi h1
  have hst : s.dc.state = .idle := hlink.idle h1
  have hreq : s.dc.s1o.req = true := hlink.req.trans h1
  have h2 : (s.next D S seg x).core.cmt.lsu.s2Valid = true :=
    (LsuSide.next_of_idle (S := S) seg (polite (x := x) hi.cmt) hst).1.trans h1
  refine ⟨fun hb => ?_, fun h2' => ?_, fun _ he hd => ?_⟩
  · exact absurd hb (LsuSide.state_next_ne_boot (s := s.side) (x := s.sideIn D x)
      (by simp [hst, side]))
  · rw [h2] at h2'
    cases h2'
  · have hbusy : s.busy = true := by rw [busy, h1, Bool.true_or]
    have hk : s.core.cmt.lsu.killReq = true := (exc_next hst h1).symm.trans he
    have hd0 : (s.core.head D 0).lsuReq.dcop = false := by
      rw [← head_next_of_stays hi hx (valid_of_busy hi hbusy) hl, hd]
    obtain ⟨g, hg⟩ := hi.cmt.flight (pending_of_busy hi hbusy)
    have hg1 : g = .lsu1 := by
      rw [hg.s1Valid, decide_eq_true_eq] at h1
      exact h1
    have hdc : (s.dc.s1o.inv || s.dc.s1o.fls) = false := by
      have hdcop : s.core.cmt.lsu.s1Dcop = (s.dc.s1o.inv || s.dc.s1o.fls) := hlink.dcop h1
      rw [← hdcop, ← hd0]
      exact (hg.lsu1 hg1).2.2.2.1
    rw [Bool.or_eq_false_iff] at hdc
    refine ⟨?_, ?_⟩
    · change s.dc.stateNxt S (s.dcIn D seg x) = _
      have hk' : (s.dcIn D seg x).kill = true := hk
      simp [Dcache.stateNxt, hst, hreq, hdc, hk']
    · rw [snap_next_of_stays hi hl, store_next_of_idle hbus hst (Or.inr ⟨hk, hdc⟩)]
      exact hs.quiet (hlink.one h1)

/-- **The cache and the memory after a cycle.** -/
theorem Still.next (hx : (s.coreIn x).Delivers) :
    (s.next D S seg x).Still D (L.next D seg s x) := by
  have hpol := polite (x := x) hi.cmt
  have hblank : (s.next D S seg x).dc.state = .boot → (s.next D S seg x).dc.Blank := by
    intro hb
    by_cases hst : s.dc.state = .boot
    · exact (hs.blank hst).next hst
    · exact absurd hb (LsuSide.state_next_ne_boot (s := s.side) (x := s.sideIn D x) hst)
  cases hl : s.leaves D x with
  | true =>
      have h2' : (s.next D S seg x).core.cmt.lsu.s2Valid = false :=
        s2Valid_next_of_leaves hi hlink hl
      refine ⟨hblank, fun _ => store_next_of_leaves hi hlink hbus hs hl, fun h => ?_⟩
      rw [h2'] at h
      cases h
  | false =>
      cases h1 : s.core.cmt.lsu.s1Valid with
      | true => exact hs.next_first hi hlink hbus hx h1
      | false =>
          have hsnap : (L.next D seg s x).snap = L.snap := snap_next_of_stays hi hl
          cases h2 : s.core.cmt.lsu.s2Valid with
          | false =>
              -- the units are at rest
              refine ⟨hblank, fun _ => ?_, fun h => ?_⟩
              · rw [hsnap, store_next_eq hi hlink hbus hs h2 h1]
                exact hs.quiet h2
              · by_cases hst : s.dc.state = .idle
                · rw [show (s.next D S seg x).core.cmt.lsu.s2Valid = false from
                    (LsuSide.next_of_idle (S := S) seg hpol hst).1.trans h1] at h
                  cases h
                · rw [show (s.next D S seg x).core.cmt.lsu.s2Valid = false from
                    (LsuSide.next_of_stall (S := S) seg hpol hst).2.1.trans h2] at h
                  cases h
          | true =>
              -- the cache works on the access, which raises no exception
              have h2' : (s.next D S seg x).core.cmt.lsu.s2Valid = true :=
                s2Valid_next hi hlink h2 hl
              have hst : s.dc.state ≠ .idle := by
                intro hst
                rw [show (s.next D S seg x).core.cmt.lsu.s2Valid = s.core.cmt.lsu.s1Valid from
                  (LsuSide.next_of_idle (S := S) seg hpol hst).1, h1] at h2'
                cases h2'
              refine ⟨hblank, fun h => ?_, fun _ he hd => ?_⟩
              · rw [h2'] at h
                cases h
              · rw [exc_next_of_stall hst] at he
                rw [head_next_of_stays hi hx (valid_of_busy hi (by rw [busy, h2, Bool.or_true]))
                  hl] at hd
                exact absurd (hs.fault h2 he hd).1 hst

end Cycle

theorem still_reset : (reset z pay m₀ : DataSide n k).Still D
    (⟨Watch.reset, 0, [], [], [], [], [], [], [], (reset z pay m₀ : DataSide n k).store S⟩ :
      Ledger k S) where
  blank _ := Dcache.blank_reset pay
  quiet _ := rfl
  fault h := by cases h

/-- **The cache and the memory in every reachable state.** -/
theorem still_of_reach (h : (booked n k D S seg z pay m₀).Reach (s, L)) : s.Still D L := by
  have key : (booked n k D S seg z pay m₀).Reach (s, L) ∧ s.Still D L := by
    refine Machine.Reach.inv (M := booked n k D S seg z pay m₀)
      (P := fun q => (booked n k D S seg z pay m₀).Reach q ∧ q.1.Still D q.2)
      ⟨Machine.Reach.reset, still_reset⟩ ?_ h
    rintro ⟨s, L⟩ x ⟨hr, hs⟩ hx
    obtain ⟨⟨t, ht, -⟩, hlink, hbus⟩ := parts_of_booked hr
    exact ⟨Machine.Reach.tick hr hx, hs.next (Backend.inv_of_reach ht) hlink hbus hx.1.1⟩
  exact key.2

end DataSide

end NanoCpu
