/-
**Whose fault the data MMU reports** (`rtl/core/cmt_lsu.v`, `dmmu.v`).

The registers behind a lookup of the data MMU are loaded by a load or a store and by nothing else,
while the second stage takes the exceptions out of them for everything that is in the load/store
unit.  A load or a store finds its own lookup there.  An MSR operation on the D-cache finds that of
the last load or store, and reports its fault as its own.

Main definitions:

* `Cmt.ownLookup` — the lookup of an instruction under the TLB and the PSR that are in force;
* `Cmt.OwnLookup` — the registers behind the lookup belong to the instruction in the unit;
* `Backend.freshLookups` — the back-end under programs that hand a D-cache operation over only while
  these registers hold no fault.

Main results:

* `Backend.dmmu_faults_own` — in such runs a fault belongs to the load or the store that reports it,
  and a D-cache operation goes in the second cycle in which the D-cache does not stall;
* `Backend.stale_fault_reported` — a D-cache operation behind a load that missed reports the miss.
-/

import NanoCpu.ExcEntry

set_option relaxedAutoImplicit false
set_option autoImplicit false
set_option linter.unusedSectionVars false

namespace NanoCpu

/-! ### The lookup of an instruction -/

/-- A TLB port that writes nothing. -/
def TlbWr.none : TlbWr tlbP := ⟨false, 0, 0⟩

/-- The lookup of the instruction `h` under the TLB and the PSR that are in force. -/
def Cmt.ownLookup (c : Cmt) (h : CmtHead) : Dmmu tlbP :=
  c.lsu.dmmu.next true (h.lsuReq.vaddr.extractLsb' 13 19) h.pay.lsu.store c.epu.psr.dmme
    c.epu.psr.rm TlbWr.none TlbWr.none

/-- The registers behind the lookup, while an instruction is in the load/store unit: a load or a
store finds its own lookup, a D-cache operation finds no fault. -/
structure Cmt.OwnLookup (c : Cmt) (h : CmtHead) : Prop where
  access : c.pending = true → h.lsuReq.valid = true → h.lsuReq.dcop = false →
    c.lsu.dmmu = c.ownLookup h
  dcop : c.pending = true → h.lsuReq.valid = true → h.lsuReq.dcop = true →
    c.lsu.dmmu.edtm = false ∧ c.lsu.dmmu.edpf = false

namespace Cmt

variable {c : Cmt} {x : CmtIn} {h : CmtHead}

/-- A D-cache operation is handed over while the registers behind the lookup hold a fault. -/
def staleFault (c : Cmt) (x : CmtIn) : Bool :=
  (c.lsuIn x).dcReq && (c.lsuIn x).dcop && (c.lsu.dmmu.edtm || c.lsu.dmmu.edpf)

/-- In the load/store unit an instruction is in one of the two stages. -/
theorem Flight.stage_of_valid {g : CmtStage} (hf : c.Flight h g) (hv : h.lsuReq.valid = true) :
    g = .lsu1 ∨ g = .lsu2 := by
  have hs := hf.start
  rw [CmtHead.startStage, if_pos hv] at hs
  cases g with
  | lsu1 => exact .inl rfl
  | lsu2 => exact .inr rfl
  | epu => cases hs
  | nowhere => cases hs

/-- A stall of the D-cache holds the mode and the TLB. -/
theorem mode_next_stall (hd : x.dcStall = true) :
    (c.next x).epu.psr.dmme = c.epu.psr.dmme ∧ (c.next x).epu.psr.rm = c.epu.psr.rm ∧
      (c.next x).lsu.dmmu.tlbL = c.lsu.dmmu.tlbL ∧ (c.next x).lsu.dmmu.tlbH = c.lsu.dmmu.tlbH := by
  have hce : (c.epuIn x).pCeS2 = false := by simp [epuIn, pCeS2, hd]
  have hwe : c.epu.commitWe (c.epuIn x) = WmsrWe.none := by simp [Epu.commitWe, hce]
  have hw : ∀ m : TlbIdx tlbP → Word, Dmmu.write (c.epu.dmmTlbl (c.epuIn x)) m = m ∧
      Dmmu.write (c.epu.dmmTlbh (c.epuIn x)) m = m := by
    intro m
    simp [Dmmu.write, Epu.dmmTlbl, Epu.dmmTlbh, hwe, WmsrWe.none]
  refine ⟨?_, ?_, (hw _).1, (hw _).2⟩
  · change (c.epu.psrNext (c.epuIn x)).dmme = _
    simp [Epu.psrNext, Psr.next, Epu.psrWr, Epu.psrSave, hwe, hce, WmsrWe.none, Psr.nold]
  · change (c.epu.psrNext (c.epuIn x)).rm = _
    simp [Epu.psrNext, Psr.next, Epu.psrWr, Epu.psrSave, hwe, hce, WmsrWe.none, Psr.nold]

/-- While an instruction stays in the load/store unit nothing of its lookup changes. -/
theorem lookup_next_of_pending {g : CmtStage} (hf : c.Flight h g) (hp : c.pending = true)
    (hv : h.lsuReq.valid = true) (hn : (c.next x).pending = true) :
    (c.next x).lsu.dmmu = c.lsu.dmmu ∧ (c.next x).ownLookup h = c.ownLookup h := by
  have ht : (c.lsuIn x).tlbReq = false := by
    rw [LsuIn.tlbReq, LsuIn.dcReq, lsuIn_valid_eq_false (lsuReqValid_of_pending hp), Bool.and_false,
      Bool.false_and]
  have hkeep : (c.next x).epu.psr.dmme = c.epu.psr.dmme ∧ (c.next x).epu.psr.rm = c.epu.psr.rm ∧
      (c.next x).lsu.dmmu.tlbL = c.lsu.dmmu.tlbL ∧ (c.next x).lsu.dmmu.tlbH = c.lsu.dmmu.tlbH := by
    cases hd : x.dcStall with
    | true => exact mode_next_stall hd
    | false =>
        -- the second stage would finish
        obtain rfl : g = .lsu1 := by
          rcases hf.stage_of_valid hv with hg | hg
          · exact hg
          · simp [next, hp, hf.pipeFinish, hd, hg] at hn
        have hm := msrs_next (x := x) (by simpa using hf.fe) (hf.wmsrWe_any (by decide))
          (by simpa using hf.s2Valid)
        have hpsr : (c.next x).epu.psr = c.epu.psr := congrArg Prod.fst hm
        obtain ⟨h₁, h₂⟩ := tlb_of_msrs hm
        exact ⟨by rw [hpsr], by rw [hpsr], h₁, h₂⟩
  obtain ⟨h₁, h₂, h₃, h₄⟩ := hkeep
  have hdm : (c.next x).lsu.dmmu = c.lsu.dmmu := by
    have hreg : (c.next x).lsu.dmmu =
        { c.lsu.dmmu with tlbL := (c.next x).lsu.dmmu.tlbL, tlbH := (c.next x).lsu.dmmu.tlbH } := by
      simp only [next, Lsu.next, ht, Dmmu.next, ldff_false]
    rw [hreg, h₃, h₄]
  exact ⟨hdm, by rw [ownLookup, ownLookup, hdm, h₁, h₂]⟩

/-- The hand-over. -/
theorem lookup_of_request (hq : c.Quiet) (hi : c.pending = false) (hp : c.pipeReq x = true)
    (hc : c.pCeS1 x = true) (hv : (x.head 0).lsuReq.valid = true) :
    ((x.head 0).lsuReq.dcop = false → (c.next x).lsu.dmmu = (c.next x).ownLookup (x.head 0)) ∧
      ((x.head 0).lsuReq.dcop = true → (c.next x).lsu.dmmu.edtm = c.lsu.dmmu.edtm ∧
        (c.next x).lsu.dmmu.edpf = c.lsu.dmmu.edpf) := by
  have hl := (reqIn_of_pipeReq hi hp).2
  have hreq : (c.lsuIn x).dcReq = true := by
    rw [LsuIn.dcReq, show (c.lsuIn x).pCeS1 = true from hc,
      show (c.lsuIn x).valid = (c.lsuReqIn x).valid from rfl, hl, hv]
    rfl
  have hdc : (c.lsuIn x).dcop = (x.head 0).lsuReq.dcop := by
    rw [← hl]
    rfl
  constructor
  · intro hd
    have ht : (c.lsuIn x).tlbReq = true := by rw [LsuIn.tlbReq, hreq, hdc, hd]; rfl
    have hm := hq.msrs_next x
    have hpsr : (c.next x).epu.psr = c.epu.psr := congrArg Prod.fst hm
    obtain ⟨h₁, h₂⟩ := tlb_of_msrs hm
    have hva : (c.lsuIn x).vaddr = (x.head 0).lsuReq.vaddr := by
      rw [← hl]
      rfl
    have hnext : (c.next x).lsu.dmmu =
        { c.ownLookup (x.head 0) with
          tlbL := (c.next x).lsu.dmmu.tlbL, tlbH := (c.next x).lsu.dmmu.tlbH } := by
      have hdm : (c.lsuIn x).psrDmme = c.epu.psr.dmme := congrArg Psr.dmme (hq.psrNext x)
      have hrm : (c.lsuIn x).psrRm = c.epu.psr.rm := congrArg Psr.rm (hq.psrNext x)
      simp only [ownLookup, next, Lsu.next, ht, Dmmu.next, ldff_true, hdm, hrm, hva]
      rfl
    have hown : (c.next x).ownLookup (x.head 0) =
        { c.ownLookup (x.head 0) with
          tlbL := (c.next x).lsu.dmmu.tlbL, tlbH := (c.next x).lsu.dmmu.tlbH } := by
      simp only [ownLookup, hpsr, Dmmu.next, ldff_true, Dmmu.write, TlbWr.none,
        Bool.false_eq_true, if_false, h₁, h₂]
    rw [hnext, hown]
  · intro hd
    have ht : (c.lsuIn x).tlbReq = false := by rw [LsuIn.tlbReq, hdc, hd]; simp
    simp only [next, Lsu.next, ht]
    exact Dmmu.next_of_not_re _ _ _ _ _ _ _

theorem OwnLookup.next {h' : CmtHead} (ho : c.OwnLookup (x.head 0))
    (hi : c.Inv (x.valid 0) (x.head 0))
    (hs : c.staleFault x = false) (hk : (c.next x).pending = true → h' = x.head 0) :
    (c.next x).OwnLookup h' := by
  by_cases hp : c.pending = true
  · obtain ⟨g, hg⟩ := hi.flight hp
    constructor
    · intro hn hv hd
      rw [hk hn] at hv hd ⊢
      obtain ⟨h₁, h₂⟩ := lookup_next_of_pending hg hp hv hn
      rw [h₁, h₂]
      exact ho.access hp hv hd
    · intro hn hv hd
      rw [hk hn] at hv hd
      rw [(lookup_next_of_pending hg hp hv hn).1]
      exact ho.dcop hp hv hd
  · have hp' : c.pending = false := Bool.eq_false_of_not_eq_true hp
    have hreq : (c.next x).pending = true → c.pipeReq x = true ∧ c.pCeS1 x = true := by
      intro hn
      simpa [Cmt.next, hp'] using hn
    constructor
    · intro hn hv hd
      rw [hk hn] at hv hd ⊢
      exact (lookup_of_request (hi.quiet hp') hp' (hreq hn).1 (hreq hn).2 hv).1 hd
    · intro hn hv hd
      rw [hk hn] at hv hd
      obtain ⟨h₁, h₂⟩ := (lookup_of_request (hi.quiet hp') hp' (hreq hn).1 (hreq hn).2 hv).2 hd
      have hl := (reqIn_of_pipeReq hp' (hreq hn).1).2
      have hdc : (c.lsuIn x).dcReq = true ∧ (c.lsuIn x).dcop = true := by
        constructor
        · rw [LsuIn.dcReq, show (c.lsuIn x).pCeS1 = true from (hreq hn).2,
            show (c.lsuIn x).valid = (c.lsuReqIn x).valid from rfl, hl, hv]
          rfl
        · rw [← hl] at hd
          exact hd
      rw [staleFault, hdc.1, hdc.2, Bool.true_and, Bool.true_and, Bool.or_eq_false_iff] at hs
      exact ⟨h₁.trans hs.1, h₂.trans hs.2⟩

end Cmt

namespace Backend

variable {n : ℕ} [NeZero n] {D : ℕ} {s : Backend n} {t : Trace} {x : BackendIn} {z : RInsn}

/-- The back-end under programs that hand a D-cache operation over only while the last lookup has
not faulted. -/
def freshLookups (n : ℕ) [NeZero n] (D : ℕ) (z : RInsn) : Machine (Backend n × Trace) BackendIn :=
  tracedIf n D z fun s x => s.cmt.staleFault (s.cmtIn D x) = false

theorem ownLookup_of_reach (h : (freshLookups n D z).Reach (s, t)) :
    s.cmt.OwnLookup (s.head D 0) := by
  have : (freshLookups n D z).Reach (s, t) ∧ s.cmt.OwnLookup (s.head D 0) := by
    refine Machine.Reach.inv
      (P := fun q => (freshLookups n D z).Reach q ∧ q.1.cmt.OwnLookup (q.1.head D 0))
      ⟨Machine.Reach.reset, ⟨fun h => ?_, fun h => ?_⟩⟩ ?_ h
    · cases h
    · cases h
    · rintro ⟨s, t⟩ x ⟨hr, ho⟩ hx
      refine ⟨Machine.Reach.tick hr hx, ?_⟩
      have hi := inv_of_reach (traced_of_tracedIf hr)
      obtain ⟨num, hp, hv⟩ := hi.place
      exact Cmt.OwnLookup.next (x := s.cmtIn D x) ho hi.cmt hx.2 fun hpend =>
        (hi.order.head_next hp hv hi.cmt hx.1 hpend).2
  exact this.2

/-- What the second stage reports is what the registers behind the lookup show. -/
theorem reported_of_reach (h : (freshLookups n D z).Reach (s, t)) (hs : s.cmt.lsu.s2Valid = true) :
    s.cmt.pending = true ∧ (s.head D 0).lsuReq.valid = true ∧
      s.cmt.lsu.s2Edtm = s.cmt.lsu.dmmu.edtm ∧
      s.cmt.lsu.s2Edpf = s.cmt.lsu.dmmu.edpf ∧
        s.cmt.lsu.s2Ealign = (s.head D 0).lsuReq.misalign := by
  have hi := inv_of_reach (traced_of_tracedIf h)
  have hp : s.cmt.pending = true := by
    by_contra hne
    rw [(hi.cmt.quiet (Bool.eq_false_of_not_eq_true hne)).s2Valid] at hs
    cases hs
  obtain ⟨g, hg⟩ := hi.cmt.flight hp
  rw [hg.s2Valid, decide_eq_true_eq] at hs
  subst hs
  obtain ⟨-, -, -, h₁, h₂, h₃⟩ := hg.lsu2 rfl
  refine ⟨hp, ?_, h₂, h₃, h₁⟩
  by_contra hne
  have hst := hg.start
  rw [CmtHead.startStage, if_neg hne] at hst
  split_ifs at hst

/-- A D-cache operation reports no exception. -/
theorem dcop_quiet (h : (freshLookups n D z).Reach (s, t)) (hp : s.cmt.pending = true)
    (hv : (s.head D 0).lsuReq.valid = true) (hd : (s.head D 0).lsuReq.dcop = true) :
    s.cmt.lsu.edtm = false ∧ s.cmt.lsu.edpf = false ∧ s.cmt.lsu.ealign = false := by
  have hi := inv_of_reach (traced_of_tracedIf h)
  obtain ⟨num, -, hval⟩ := hi.place
  obtain ⟨h₁, h₂⟩ := (ownLookup_of_reach h).dcop hp hv hd
  cases hs : s.cmt.lsu.s2Valid with
  | false => simp [Lsu.edtm, Lsu.edpf, Lsu.ealign, hs]
  | true =>
      obtain ⟨-, -, e₁, e₂, e₃⟩ := reported_of_reach h hs
      rw [(hi.order.head_wellFormed hval (hi.cmt.valid hp)).misalign_of_dcop hd] at e₃
      simp [Lsu.edtm, Lsu.edpf, Lsu.ealign, hs, e₁, e₂, e₃, h₁, h₂]

/-- The state after a list of inputs. -/
def runFrom (D : ℕ) (s : Backend n) (l : List BackendIn) : Backend n :=
  l.foldl (fun s x => s.next D x) s

/-- The cycles of a list in which the D-cache does not stall. -/
def unstalled (l : List BackendIn) : ℕ := l.countP fun x => !x.dcStall

/-- The instruction at the head goes in some cycle of the list. -/
def Goes (D : ℕ) (s : Backend n) (l : List BackendIn) : Prop :=
  ∃ l₁ y l₂, l = l₁ ++ y :: l₂ ∧ (s.runFrom D l₁).head D 0 = s.head D 0 ∧
    (s.runFrom D l₁).fire D y 0 = true

theorem Goes.cons {l : List BackendIn} (h : (s.next D x).Goes D l)
    (hh : (s.next D x).head D 0 = s.head D 0) : s.Goes D (x :: l) := by
  obtain ⟨l₁, y, l₂, rfl, h₁, h₂⟩ := h
  exact ⟨x :: l₁, y, l₂, rfl, h₁.trans hh, h₂⟩

/-- **A D-cache operation completes.** -/
theorem dcop_goes {l : List BackendIn} {g : CmtStage} (h : (freshLookups n D z).Reach (s, t))
    (hp : s.cmt.pending = true) (hg : s.cmt.Flight (s.head D 0) g)
    (hv : (s.head D 0).lsuReq.valid = true) (hd : (s.head D 0).lsuReq.dcop = true)
    (hl : ∀ y ∈ l, y.Delivers) (hu : (if g = .lsu2 then 1 else 2) ≤ unstalled l) : s.Goes D l := by
  induction l generalizing s t g with
  | nil =>
      split_ifs at hu
      · exact absurd hu (by decide)
      · exact absurd hu (by decide)
  | cons y l ih =>
      have hi := inv_of_reach (traced_of_tracedIf h)
      obtain ⟨num, hpl, hval⟩ := hi.place
      have hy := hl y List.mem_cons_self
      have hl' : ∀ y ∈ l, y.Delivers := fun u hu => hl u (List.mem_cons_of_mem _ hu)
      have hstale : s.cmt.staleFault (s.cmtIn D y) = false := by
        rw [Cmt.staleFault, LsuIn.dcReq, Cmt.lsuIn_valid_eq_false (Cmt.lsuReqValid_of_pending hp)]
        simp
      have hnext : (freshLookups n D z).Reach (s.next D y, t.next D s y) :=
        Machine.Reach.tick (x := y) h ⟨hy, hstale⟩
      obtain ⟨q₁, q₂, q₃⟩ := dcop_quiet h hp hv hd
      have hexc : s.cmt.lsu.exc = false := by rw [Lsu.exc, q₁, q₂, q₃]; rfl
      have hlast (hn : (s.next D y).cmt.pending = true) :=
        (hi.order.head_next hpl hval hi.cmt hy hn).2
      have hstep {b : CmtStage} (hn : (s.next D y).cmt.pending = true)
          (hg' : (s.next D y).cmt.Flight (s.head D 0) b)
          (hu' : (if b = .lsu2 then 1 else 2) ≤ unstalled l) : s.Goes D (y :: l) := by
        have hh := hlast hn
        refine Goes.cons (ih hnext hn ?_ ?_ ?_ hl' hu') hh
        · rw [hh]
          exact hg'
        · rw [hh]
          exact hv
        · rw [hh]
          exact hd
      cases hst : y.dcStall with
      | true =>
          have hfin : s.cmt.pipeFinish (s.cmtIn D y) = false := by
            rw [hg.pipeFinish, show (s.cmtIn D y).dcStall = true from hst]
            rfl
          refine hstep (b := g) ?_ (hg.next_stall (x := s.cmtIn D y) hp hst) ?_
          · change (s.cmt.next (s.cmtIn D y)).pending = true
            simp [Cmt.next, hp, hfin]
          · rwa [unstalled, List.countP_cons_of_neg (by simp [hst])] at hu
      | false =>
          have hu' : (if g = .lsu2 then 1 else 2) ≤ unstalled l + 1 := by
            rwa [unstalled, List.countP_cons_of_pos (by simp [hst])] at hu
          rcases hg.stage_of_valid hv with rfl | rfl
          · refine hstep (b := .lsu2) ?_ (Cmt.Flight.next_lsu (x := s.cmtIn D y) hg hp hst) ?_
            · change (s.cmt.next (s.cmtIn D y)).pending = true
              simp [Cmt.next, hp, hg.pipeFinish]
            · simpa using hu'
          · refine ⟨[], y, l, rfl, rfl, ?_⟩
            have hfl : s.cmt.flush (s.cmtIn D y) = false := by
              rw [Cmt.flush, hi.cmt.se hp, hg.excFlush, hexc]
              simp
            refine (hi.cmt.fire_of_finish (x := s.cmtIn D y) ?_ hfl).1
            rw [hg.pipeFinish, show (s.cmtIn D y).dcStall = false from hst]
            rfl

/-- **The faults of the data MMU.**  If every D-cache operation is handed over while the last lookup
has not faulted, then EDTM and EDPF are reported for a load or a store whose own address misses or
is denied, and a D-cache operation reports no exception and goes in the second cycle in which the
D-cache does not stall. -/
theorem dmmu_faults_own (h : (freshLookups n D z).Reach (s, t)) :
    (s.cmt.lsu.edtm = true → (s.head D 0).lsuReq.valid = true ∧ (s.head D 0).lsuReq.dcop = false ∧
      (s.cmt.ownLookup (s.head D 0)).edtm = true) ∧
    (s.cmt.lsu.edpf = true → (s.head D 0).lsuReq.valid = true ∧ (s.head D 0).lsuReq.dcop = false ∧
      (s.cmt.ownLookup (s.head D 0)).edpf = true) ∧
    (s.cmt.pending = true → (s.head D 0).lsuReq.valid = true → (s.head D 0).lsuReq.dcop = true →
      s.cmt.lsu.edtm = false ∧ s.cmt.lsu.edpf = false ∧ s.cmt.lsu.ealign = false ∧
        ∀ l : List BackendIn, (∀ y ∈ l, y.Delivers) → 2 ≤ unstalled l → s.Goes D l) := by
  have ho := ownLookup_of_reach h
  refine ⟨fun he => ?_, fun he => ?_, fun hp hv hd => ?_⟩
  · rw [Lsu.edtm, Bool.and_eq_true] at he
    obtain ⟨hp, hv, h₁, -, -⟩ := reported_of_reach h he.1
    have hd : (s.head D 0).lsuReq.dcop = false := by
      by_contra hne
      rw [h₁, (ho.dcop hp hv (Bool.eq_true_of_not_eq_false hne)).1] at he
      exact Bool.false_ne_true he.2
    exact ⟨hv, hd, by rw [← ho.access hp hv hd, ← h₁, he.2]⟩
  · rw [Lsu.edpf, Bool.and_eq_true] at he
    obtain ⟨hp, hv, -, h₂, -⟩ := reported_of_reach h he.1
    have hd : (s.head D 0).lsuReq.dcop = false := by
      by_contra hne
      rw [h₂, (ho.dcop hp hv (Bool.eq_true_of_not_eq_false hne)).2] at he
      exact Bool.false_ne_true he.2
    exact ⟨hv, hd, by rw [← ho.access hp hv hd, ← h₂, he.2]⟩
  · obtain ⟨q₁, q₂, q₃⟩ := dcop_quiet h hp hv hd
    refine ⟨q₁, q₂, q₃, fun l hl hu => ?_⟩
    obtain ⟨g, hg⟩ := (inv_of_reach (traced_of_tracedIf h)).cmt.flight hp
    refine dcop_goes h hp hg hv hd hl (le_trans ?_ hu)
    split_ifs <;> decide

/-- `WMSR [0x804], r1`: DCFLS. -/
def dcfls : DecInsn := idDec true 0x10080461 false false false 0 noUpd

/-- The first seven cycles of a DCFLS, after which it is in the load/store unit. -/
def dcflsRun : List BackendIn := (spaced dcfls).take 7

theorem dcflsRun_fresh : (freshLookups 4 3 emptyInsn).Reach
    ((freshLookups 4 3 emptyInsn).run dcflsRun) := by
  have hs : ∀ k < 7, ∀ x ∈ dcflsRun[k]?,
    ((freshLookups 4 3 emptyInsn).run (dcflsRun.take k)).1.cmt.staleFault
      (((freshLookups 4 3 emptyInsn).run (dcflsRun.take k)).1.cmtIn 3 x) = false := by
    decide +kernel
  refine Machine.reach_run fun k x hx => ⟨?_, ?_⟩
  · exact spaced_delivers (idDec_wellFormed _ _ _ _ _ _ _) x
      (List.mem_of_mem_take (List.mem_of_getElem? hx))
  · exact hs k (List.getElem?_eq_some_iff.1 hx).1 x hx

theorem dmmu_faults_own_dcfls :
    ∃ s t, (freshLookups 4 3 emptyInsn).Reach (s, t) ∧ s.cmt.pending = true ∧
      (s.head 3 0).lsuReq.dcop = true ∧
      ∀ l : List BackendIn, (∀ y ∈ l, y.Delivers) → 2 ≤ unstalled l → s.Goes 3 l := by
  have hd : (((freshLookups 4 3 emptyInsn).run dcflsRun).1.cmt.pending,
      (((freshLookups 4 3 emptyInsn).run dcflsRun).1.head 3 0).lsuReq.valid,
      (((freshLookups 4 3 emptyInsn).run dcflsRun).1.head 3 0).lsuReq.dcop) =
        (true, true, true) := by
    decide +kernel
  simp only [Prod.mk.injEq] at hd
  obtain ⟨-, -, -, hgo⟩ := (dmmu_faults_own dcflsRun_fresh).2.2 hd.1 hd.2.1 hd.2.2
  exact ⟨_, _, dcflsRun_fresh, hd.1, hd.2.2, hgo⟩

/-- `ORI r1, r0, 0x90`: the root mode with the data MMU. -/
def oriDmme : DecInsn := idDec true 0x1200061 false false false 0 noUpd

/-- `LDW r2, [r0]`. -/
def ldw : DecInsn := idDec true 0x2e2 false false false 0 noUpd

/-- The data MMU is switched on, a load misses its empty TLB, and the handler flushes a line; up to
the second stage of the DCFLS. -/
def staleRun : List BackendIn :=
  spaced oriDmme ++ spaced wmsrPsr ++ spaced ldw ++ (spaced dcfls).take 8

/-- The DCFLS of the handler of a TLB miss reports a TLB miss, although it is not translated. -/
theorem stale_fault_reported :
    ∃ s t, (traced 4 3 emptyInsn).Reach (s, t) ∧ s.cmt.pending = true ∧
      (s.head 3 0).lsuReq.dcop = true ∧ s.cmt.epu.psr.dmme = false ∧ s.cmt.lsu.edtm = true ∧
      s.cmt.excFlush (s.cmtIn 3 (quietIn emptyInsn.d)) = true := by
  have hr : (traced 4 3 emptyInsn).Reach ((traced 4 3 emptyInsn).run staleRun) := by
    refine reach_of_delivers fun x hx => ?_
    simp only [staleRun, List.mem_append] at hx
    rcases hx with ((hx | hx) | hx) | hx
    · exact spaced_delivers (idDec_wellFormed _ _ _ _ _ _ _) x hx
    · exact spaced_delivers (idDec_wellFormed _ _ _ _ _ _ _) x hx
    · exact spaced_delivers (idDec_wellFormed _ _ _ _ _ _ _) x hx
    · exact spaced_delivers (idDec_wellFormed _ _ _ _ _ _ _) x (List.mem_of_mem_take hx)
  have hd : (((traced 4 3 emptyInsn).run staleRun).1.cmt.pending,
      (((traced 4 3 emptyInsn).run staleRun).1.head 3 0).lsuReq.dcop,
      ((traced 4 3 emptyInsn).run staleRun).1.cmt.epu.psr.dmme,
      ((traced 4 3 emptyInsn).run staleRun).1.cmt.lsu.edtm,
      ((traced 4 3 emptyInsn).run staleRun).1.cmt.excFlush
        (((traced 4 3 emptyInsn).run staleRun).1.cmtIn 3 (quietIn emptyInsn.d))) =
      (true, true, false, true, true) := by
    decide +kernel
  simp only [Prod.mk.injEq] at hd
  exact ⟨_, _, hr, hd⟩

end Backend

end NanoCpu
