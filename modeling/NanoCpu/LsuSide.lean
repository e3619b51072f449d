/-
**The load/store unit with the D-cache behind it** (`rtl/core/cmt_lsu.v`, where it instantiates
`dcache.v`).

The unit hands an access to the cache in its first stage, and tells it the page, the kill and
whether it is uncached in the second.  Commit asks for one access at a time, and moves the stages
when the cache does not stall.  Then a request in the first stage of the unit is one in the first
stage of the cache, and the cache is at work only for an access in the second stage of the unit.

Main definitions:

* `LsuSide`, `LsuSide.next` — the unit, the cache and the memory;
* `LsuSide.Polite` — the promise of commit;
* `LsuSide.Link` — the stages of the unit and the cache agree.

Main results:

* `LsuSide.Link.next` — the agreement is kept;
* `LsuSide.link_of_reach` — in every run.
-/

import NanoCpu.DcacheOps

set_option relaxedAutoImplicit false
set_option autoImplicit false
set_option linter.unusedSectionVars false

namespace NanoCpu

/-- The unit, the cache and the memory behind it. -/
structure LsuSide (n : ℕ) where
  lsu : Lsu
  dc : Dcache n
  mem : AxiMem

/-- The inputs of one cycle: the request, the bus, and what a payload RAM shows after a write. -/
structure LsuSideIn (n : ℕ) where
  q : LsuIn
  axi : AxiIn
  unc : Fin n → ℕ → Byte

/-- The request as it goes to the cache. -/
def LsuIn.toDc (q : LsuIn) : DcReq :=
  ⟨q.dcReq, q.opc.size, q.dcWmsk, q.dcWdat, q.vaddr.extractLsb' 0 13, q.dcinvWe, q.dcflsWe⟩

namespace LsuSide

variable {n : ℕ} [NeZero n]

def reset (pay : Fin n → ℕ × ℕ → ℕ → Byte) (m₀ : ℕ → Byte) : LsuSide n :=
  ⟨Lsu.reset, Dcache.reset pay, AxiMem.idle m₀⟩

variable (S : ℕ) (seg : Bool) (s : LsuSide n) (x : LsuSideIn n)

def dcIn : DcIn n where
  toDcReq := x.q.toDc
  ppn := s.lsu.dcPpn
  kill := s.lsu.killReq
  uncached := s.lsu.uncached seg
  axi := x.axi
  unc := x.unc

def next : LsuSide n :=
  ⟨s.lsu.next x.q, s.dc.next S (s.dcIn seg x), s.mem.next s.dc.axiOut x.axi⟩

/-- What commit promises: the stages move when the cache does not stall, and there is no request
while an access is in one of them.  The first stage alone may be held back, when it is empty. -/
structure Polite (q : LsuIn) : Prop where
  ce2 : q.pCeS2 = !s.dc.stallReq
  ce1 : q.pCeS1 = true → s.dc.stallReq = false
  flow : s.lsu.s1Valid = true → q.pCeS1 = !s.dc.stallReq
  alone : q.valid = true → s.lsu.s1Valid = false ∧ s.lsu.s2Valid = false

/-- The stages of the unit and the cache agree. -/
structure Link : Prop where
  req : s.dc.s1o.req = s.lsu.s1Valid
  dcop : s.lsu.s1Valid = true → s.lsu.s1Dcop = (s.dc.s1o.inv || s.dc.s1o.fls)
  one : s.lsu.s1Valid = true → s.lsu.s2Valid = false
  idle : s.lsu.s1Valid = true → s.dc.state = .idle
  quiet : s.lsu.s2Valid = false → s.dc.state = .boot ∨ s.dc.state = .idle
  boot : s.lsu.s2Valid = true → s.dc.state ≠ .boot

/-- The unit with the cache, under a polite commit and a correct memory. -/
def machine (n : ℕ) [NeZero n] (S : ℕ) (seg : Bool) (pay : Fin n → ℕ × ℕ → ℕ → Byte)
    (m₀ : ℕ → Byte) : Machine (LsuSide n) (LsuSideIn n) where
  reset := reset pay m₀
  allowed s x := s.Polite x.q ∧ s.mem.Answers x.axi
  next s x := s.next S seg x

variable {S seg s x} {pay : Fin n → ℕ × ℕ → ℕ → Byte} {m₀ : ℕ → Byte}

/-! ### The stages -/

/-- Behind a request there is none. -/
theorem Link.not_dcReq (h : s.Link) (hq : s.Polite x.q) (hr : s.dc.s1o.req = true) :
    x.q.dcReq = false := by
  by_contra hne
  have hv : x.q.valid = true := by
    have : x.q.dcReq = true := by simpa using hne
    rw [LsuIn.dcReq, Bool.and_eq_true] at this
    exact this.2
  have := (hq.alone hv).1
  rw [← h.req, hr] at this
  cases this

/-- The cache gets no request behind an invalidation. -/
theorem Link.dcAlone (h : s.Link) (hq : s.Polite x.q) : s.dc.Alone (s.dcIn seg x) :=
  fun _ hr _ => h.not_dcReq hq hr

/-- While the cache stalls the unit stands still. -/
theorem next_of_stall (seg : Bool) (hq : s.Polite x.q) (hs : s.dc.state ≠ .idle) :
    (s.next S seg x).lsu.s1Valid = s.lsu.s1Valid ∧ (s.next S seg x).lsu.s2Valid = s.lsu.s2Valid ∧
      (s.next S seg x).dc.s1o = s.dc.s1o := by
  have hst : s.dc.stallReq = true := by simpa [Dcache.stallReq] using hs
  have h1 : x.q.pCeS1 = false := by
    by_contra hne
    rw [hq.ce1 (by simpa using hne)] at hst
    cases hst
  have h2 : x.q.pCeS2 = false := by rw [hq.ce2, hst]; rfl
  refine ⟨?_, ?_, Dcache.next_s1o_of_stall hs⟩
  · change ldff x.q.pCeS1 _ _ = _
    rw [h1]
    rfl
  · change ldff x.q.pCeS2 _ _ = _
    rw [h2]
    rfl

/-- While it does not, both move. -/
theorem next_of_idle (seg : Bool) (hq : s.Polite x.q) (hs : s.dc.state = .idle) :
    (s.next S seg x).lsu.s2Valid = s.lsu.s1Valid ∧ (s.next S seg x).dc.s1o.toDcReq = x.q.toDc := by
  have hst : s.dc.stallReq = false := by simp [Dcache.stallReq, hs]
  constructor
  · change ldff x.q.pCeS2 _ _ = _
    rw [hq.ce2, hst]
    rfl
  · change (ldff s.dc.pCe _ _ : DcS1o).toDcReq = _
    rw [Dcache.pCe, hst]
    rfl

/-- The first stage after a cycle that does not stall. -/
theorem Polite.s1_next (seg : Bool) (hq : s.Polite x.q) (hs : s.dc.state = .idle) :
    (s.next S seg x).lsu.s1Valid = x.q.dcReq := by
  have hst : s.dc.stallReq = false := by simp [Dcache.stallReq, hs]
  change ldff x.q.pCeS1 x.q.valid s.lsu.s1Valid = _
  rw [LsuIn.dcReq]
  cases hc : x.q.pCeS1 with
  | true => rfl
  | false =>
      -- an access in the first stage is not held back
      by_contra hne
      have hv : s.lsu.s1Valid = true := by simpa [ldff] using hne
      have := hq.flow hv
      rw [hc, hst] at this
      cases this

/-- Only reset leads to the first state of the cache. -/
theorem state_next_ne_boot (hs : s.dc.state ≠ .boot) : (s.next S seg x).dc.state ≠ .boot := by
  change s.dc.stateNxt S (s.dcIn seg x) ≠ _
  rw [Dcache.stateNxt]
  cases hst : s.dc.state <;> simp only [hst] at hs ⊢
  case boot => exact absurd rfl hs
  all_goals (try split_ifs) <;> simp

theorem boot_next (hs : s.dc.state = .boot) :
    (s.next S seg x).dc.state = .boot ∨ (s.next S seg x).dc.state = .idle := by
  have hn : (s.next S seg x).dc.state = s.dc.stateNxt S (s.dcIn seg x) := rfl
  rw [hn, Dcache.stateNxt, hs]
  by_cases hc : s.dc.bootCnt + 1 = 2 ^ S
  · exact Or.inr (if_pos hc)
  · exact Or.inl (if_neg hc)

theorem Link.next (h : s.Link) (hq : s.Polite x.q) : (s.next S seg x).Link := by
  by_cases hs : s.dc.state = .idle
  · obtain ⟨h2, hr⟩ := next_of_idle (S := S) seg hq hs
    have h1 := hq.s1_next (S := S) seg hs
    have hreq : (s.next S seg x).dc.s1o.req = x.q.dcReq := by
      rw [show (s.next S seg x).dc.s1o.req = (s.next S seg x).dc.s1o.toDcReq.req from rfl, hr]
      rfl
    have hquiet : s.lsu.s1Valid = false → (s.next S seg x).dc.state = .idle := by
      intro hv
      change s.dc.stateNxt S (s.dcIn seg x) = _
      rw [Dcache.stateNxt, hs]
      simp [h.req, hv]
    have hnv : x.q.dcReq = true → s.lsu.s1Valid = false := by
      intro hd
      rw [LsuIn.dcReq, Bool.and_eq_true] at hd
      exact (hq.alone hd.2).1
    refine ⟨by rw [hreq, h1], fun hv => ?_, fun hv => ?_, fun hv => ?_, fun hv => ?_, fun _ => ?_⟩
    · have hce : x.q.pCeS1 = true := by
        have hd : x.q.dcReq = true := h1 ▸ hv
        rw [LsuIn.dcReq, Bool.and_eq_true] at hd
        exact hd.1
      have hinv : (s.next S seg x).dc.s1o.inv = x.q.dcinvWe := congrArg DcReq.inv hr
      have hfls : (s.next S seg x).dc.s1o.fls = x.q.dcflsWe := congrArg DcReq.fls hr
      change ldff x.q.pCeS1 x.q.dcop s.lsu.s1Dcop = _
      rw [hinv, hfls, hce]
      rfl
    · rw [h2]
      exact hnv (h1 ▸ hv)
    · exact hquiet (hnv (h1 ▸ hv))
    · exact Or.inr (hquiet (h2 ▸ hv))
    · exact state_next_ne_boot (by simp [hs])
  · obtain ⟨h1, h2, hr⟩ := next_of_stall (S := S) seg hq hs
    have hv : s.lsu.s1Valid = false := by
      by_contra hne
      exact hs (h.idle (by simpa using hne))
    refine ⟨by rw [hr, h1, h.req], fun h' => ?_, fun h' => ?_, fun h' => ?_, fun h' => ?_,
      fun h' => ?_⟩
    · rw [h1, hv] at h'
      cases h'
    · rw [h1, hv] at h'
      cases h'
    · rw [h1, hv] at h'
      cases h'
    · rw [h2] at h'
      have hb := (h.quiet h').resolve_right hs
      exact boot_next hb
    · rw [h2] at h'
      exact state_next_ne_boot (h.boot h')

theorem link_reset : (reset pay m₀ : LsuSide n).Link where
  req := rfl
  dcop h := by cases h
  one h := by cases h
  idle h := by cases h
  quiet _ := Or.inl rfl
  boot h := by cases h

theorem link_of_reach (h : (machine n S seg pay m₀).Reach s) : s.Link :=
  Machine.Reach.inv (M := machine n S seg pay m₀) (P := Link) link_reset
    (fun _ _ hl hx => hl.next hx.1) h

end LsuSide

end NanoCpu
