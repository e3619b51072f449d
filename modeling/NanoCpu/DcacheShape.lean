/-
**The D-cache under any requests.**

Cached and uncached accesses, invalidations and flushes come in any order.  The cache then no longer
stands for a flat memory (an uncached store may change a byte that a clean line holds too), but its
slots stay in order: no line is in two of them, dirty ones hold lines, and the tags that a request
has read are those in the RAM when it compares them.  The last point needs a promise of the
surroundings: no request follows an invalidation immediately, since the tags that it reads would be
cleared behind its back.

Main definitions:

* `Dcache.Alone` — the promise;
* `Dcache.Matched` — a flush, and the way that holds its line;
* `Dcache.Stage`, `Dcache.Shape` — the invariant.

Main results:

* `Dcache.idle_steps` — what an idle cycle does;
* `Dcache.Shape.next` — the invariant is kept.
-/

import NanoCpu.DcacheLines
import NanoCpu.Machine

set_option relaxedAutoImplicit false
set_option autoImplicit false
set_option linter.unusedSectionVars false

namespace NanoCpu

open WriteBack

namespace Dcache

variable {n : ℕ} [NeZero n] {S : ℕ} {s : Dcache n} {m : AxiMem} {x : DcIn n}

/-! ### The invariant -/

/-- The registers of the second stage describe a flush of the line that way `a` holds. -/
structure Matched (S : ℕ) (s : Dcache n) (a : Fin n) : Prop where
  fls : s.s2o.fls = true
  way : ∀ w, s.s2oMatchVec w = decide (w = a)
  line : (s.contents S).line (s.slot S a) = some (s.s2o.paddr.toNat / 64)
  dirty : s.s2o.d a = (s.contents S).dirty (s.slot S a)

/-- What holds of the work of the state machine, by its state. -/
def Stage (S : ℕ) (s : Dcache n) (m : AxiMem) : Prop :=
  match s.state with
  | .boot => s.s1o.req = false ∧ (∀ w i, s.tagV w i = (0, false)) ∧ ∀ w i, s.d w i = false
  | .idle => True
  | .replace => ∃ fw, s.Missed S fw ∧ (∀ b, (s.contents S).line b ≠ some (s.s2o.paddr.toNat / 64)) ∧
      s.s2o.d fw = s.s2o.freeDirty ∧ s.s2o.freeDirty = (s.contents S).dirty (s.slot S fw) ∧
      s.s2o.freeTag = (s.tagV fw s.s2o.lineAddr).1
  | .writeback =>
      (∃ a, s.Matched S a ∧ s.Sends S m a (s.s2o.paddr.toNat / 64)) ∨
        ∃ fw v, s.Replaced S fw ∧ s.s2o.d fw = s.s2o.freeDirty ∧ s.Sends S m fw v ∧
          ∀ b, (s.contents S).line b ≠ some v
  | .refill => ∃ fw, s.Replaced S fw ∧ s.s2o.d fw = s.s2o.freeDirty
  | .reload => ∃ fw, s.Replaced S fw ∧ s.s2o.d fw = s.s2o.freeDirty
  | .flush => ∃ a, s.Matched S a
  | .invalidate => s.s1o.req = false ∧ s.s2o.lineAddr = setOf S s.s2o.paddr.toNat
  | .uncachedBoot | .uncachedRead | .uncachedWrite => s.s2o.uncached = true

/-- The states in which the request behind has read its tags for good. -/
def Settled (s : Dcache n) : Prop :=
  s.state = .idle ∨ s.state = .flush ∨ s.state = .uncachedBoot ∨ s.state = .uncachedRead ∨
    s.state = .uncachedWrite ∨ (s.state = .writeback ∧ s.s2o.fls = true)

/-- The invariant of the cache. -/
structure Shape (S : ℕ) (s : Dcache n) (m : AxiMem) : Prop where
  bus : s.Bus m
  free : ∃ k, ∀ w, s.freeWay w = decide (w = k)
  ok : (s.contents S).Ok
  front : s.s1o.req = true → s.s1o.lineAddr = setOf S s.s1o.vpo.toNat
  fresh : s.Settled → s.s1o.req = true → s.Fresh S
  stage : s.Stage S m

/-- No request comes in behind an invalidation that is being started. -/
def Alone (s : Dcache n) (x : DcIn n) : Prop :=
  s.state = .idle → s.s1o.req = true → s.s1o.inv = true → x.req = false

/-! ### Idle cycles -/

/-- The operation that an idle cycle starts: one on a line, or an uncached access. -/
def starts (s : Dcache n) (x : DcIn n) : Bool :=
  decide (s.state = .idle) && s.s1o.req && (s.s1o.inv || s.s1o.fls || (x.uncached && !x.kill))

/-- What an idle cycle does. -/
theorem idle_steps (hst : s.state = .idle) :
    (s.s2iReady S x = false ∧ (s.next S x).state = .idle ∧
        (s.starts x = true → s.s1o.inv = false ∧ s.s1o.fls = true ∧ s.s2iHit S x = false)) ∨
      (s.s2iReady S x = true ∧ s.starts x = false ∧ (s.next S x).state = .idle) ∨
      (s.s2iReady S x = false ∧ s.starts x = false ∧ s.s1o.req = true ∧ s.s1o.fls = false ∧
        x.uncached = false ∧ s.s2iHit S x = false ∧ (s.next S x).state = .replace) ∨
      (s.s2iReady S x = false ∧ s.starts x = true ∧ s.s1o.req = true ∧ s.s1o.inv = true ∧
        (s.next S x).state = .invalidate) ∨
      (s.s2iReady S x = false ∧ s.starts x = true ∧ s.s1o.req = true ∧ s.s1o.inv = false ∧
        s.s1o.fls = true ∧ s.s2iHit S x = true ∧ (s.next S x).state = .flush) ∨
      (s.s2iReady S x = false ∧ s.starts x = true ∧ s.s1o.req = true ∧ s.s1o.inv = false ∧
        s.s1o.fls = false ∧ x.uncached = true ∧ (s.next S x).state = .uncachedBoot) := by
  have hstn : (s.next S x).state = s.stateNxt S x := rfl
  rw [hstn, stateNxt, hst]
  cases hr : s.s1o.req <;> cases hi : s.s1o.inv <;> cases hf : s.s1o.fls <;> cases hu :
    x.uncached <;>
    cases hk : x.kill <;> cases hh : s.s2iHit S x <;>
    simp [s2iReady, starts, hst, hr, hi, hf, hu, hk, hh]

/-- The tags and flags of the request behind stay as they were read. -/
theorem Fresh.next (h : s.Fresh S)
    (hst : s.state ≠ .boot ∧ s.state ≠ .idle ∧ s.state ≠ .invalidate ∧
    s.state ≠ .replace ∧ s.state ≠ .reload) : (s.next S x).Fresh S := by
  have hready : s.s2iReady S x = false := s2iReady_of_state hst.2.1
  have hs1 : (s.next S x).s1o = s.s1o := next_s1o_of_stall hst.2.1
  have hre : s.s1iTagVRe = false := by simp [s1iTagVRe, pCe, stallReq, hst]
  have hwe : ∀ w, s.s2iDWe S x w = false := by
    intro w
    simp [s2iDWe, hst, hready]
  have htag : ∀ w, (s.next S x).s1oTagV w = s.s1oTagV w := by
    intro w
    change ldff s.s1iTagVRe _ _ = _
    rw [hre]
    rfl
  have hd : ∀ w, (s.next S x).s1oD w = s.s1oD w := by
    intro w
    have h₁ : (s.next S x).rfBypass w = s.rfBypass w := by
      change ldff (s.rfConflict S x w || s.s1iTagVRe) _ _ = _
      rw [hre, rfConflict, hwe, Bool.and_false]
      rfl
    have h₂ : (s.next S x).rfDFf w = s.rfDFf w := by
      change ldff s.s1iTagVRe _ _ = _
      rw [hre]
      rfl
    have h₃ : (s.next S x).rfD w = s.rfD w := by
      change ldff s.s1iTagVRe _ _ = _
      rw [hre]
      rfl
    rw [s1oD, s1oD, h₁, h₂, h₃]
  refine ⟨by rw [hs1, h.lineAddr], fun w => ?_, fun w => ?_⟩
  · rw [htag, hs1, h.tagV, next_tagV ⟨hst.1, hst.2.2.1, hst.2.2.2.1⟩]
  · rw [hd, hs1, h.d, next_d hready ⟨hst.1, hst.2.2.1, hst.2.2.2.1, hst.2.2.2.2⟩]

/-! ### The slots -/

/-- The write of an access to a line that is held. -/
theorem ok_of_wrote {s' : Dcache n} {a : DcAccess} {w₀ : Fin n} {e : Bool} (h : (s.contents S).Ok)
    (hline : (s.contents S).line (w₀, setFin S a.addr) = some (a.addr / 64))
    (hwr : s.Wrote S s' a w₀ e) : (s'.contents S).Ok := by
  have hl : (s'.contents S).line = (s.contents S).line := by
    simp only [contents, hwr.tagV]
  refine ⟨fun b b' l => ?_, fun b hb => ?_⟩
  · rw [hl]
    exact h.uniq b b' l
  · rw [hl]
    by_cases hbw : b.1 = w₀ ∧ (b.2 : ℕ) = setOf S a.addr
    · have : b = (w₀, setFin S a.addr) := Prod.ext hbw.1 (Fin.ext hbw.2)
      rw [this, hline]
      rfl
    · refine h.valid b ?_
      have hb' : s'.d b.1 b.2 = true := hb
      rw [hwr.d, if_neg hbw] at hb'
      exact hb'

/-- An invalidation empties the slots of its set. -/
theorem contents_next_invalidate (hst : s.state = .invalidate)
    (hl : s.s2o.lineAddr = setOf S s.s2o.paddr.toNat) :
    (s.next S x).contents S = (s.contents S).clear fun b => b.2 = setFin S s.s2o.paddr.toNat := by
  have hla : s.s1iLineAddr S x = setOf S s.s2o.paddr.toNat := by
    rw [← hl]
    simp [s1iLineAddr, hst]
  have hset : ∀ b : Fin n × Fin (2 ^ S),
      ((b.2 : ℕ) = setOf S s.s2o.paddr.toNat ↔ b.2 = setFin S s.s2o.paddr.toNat) := by
    intro b
    rw [Fin.ext_iff]
    rfl
  have ht : ∀ b : Fin n × Fin (2 ^ S), (s.next S x).tagV b.1 b.2 =
      if b.2 = setFin S s.s2o.paddr.toNat then (0, false) else s.tagV b.1 b.2 := by
    intro b
    change (if s.s1iTagVWe b.1 = true ∧ (b.2 : ℕ) = s.s1iLineAddr S x then s.s1iReplaceTagV S
      else s.tagV b.1 b.2) = _
    rw [hla, show s.s1iTagVWe b.1 = true by simp [s1iTagVWe, hst],
      show s.s1iReplaceTagV S = (0, false) by simp [s1iReplaceTagV, hst]]
    simp only [true_and, hset b]
  have hd : ∀ b : Fin n × Fin (2 ^ S), (s.next S x).d b.1 b.2 =
      if b.2 = setFin S s.s2o.paddr.toNat then false else s.d b.1 b.2 := by
    intro b
    change (if s.s2iDWe S x b.1 = true ∧ (b.2 : ℕ) = s.s2iDWaddr S x then s.s2iDWdat b.1
      else s.d b.1 b.2) = _
    rw [show s.s2iDWe S x b.1 = true by simp [s2iDWe, hst],
      show s.s2iDWaddr S x = setOf S s.s2o.paddr.toNat by simp [s2iDWaddr, hst, hla],
      show s.s2iDWdat b.1 = false by simp [s2iDWdat, hst]]
    simp only [true_and, hset b]
  have hpay := next_pay (S := S) (s := s) (x := x) (s2iReady_of_state (by simp [hst]))
    (by simp [hst])
  rw [Contents.clear]
  simp only [contents, hpay, Contents.mk.injEq, and_true]
  constructor
  · funext b
    rw [ht]
    by_cases hb : b.2 = setFin S s.s2o.paddr.toNat
    · rw [if_pos hb, if_pos hb]
      rfl
    · rw [if_neg hb, if_neg hb]
  · funext b
    rw [hd]

theorem line_of_replace {fw : Fin n} (h : s.Missed S fw) (hst : s.state = .replace) :
    (s.next S x).Replaced S fw := by
  obtain ⟨hmiss', hslot'⟩ := h.next (x := x) (by simp [hst])
  have hs2 : (s.next S x).s2o = s.s2o := next_s2o_of_stall (by simp [hst])
  have hc := contents_next_replace (x := x) h hst
  refine ⟨hmiss', ?_, ?_⟩
  · rw [hc, hslot', hs2, Contents.evict_line, Function.update_self]
  · have : ((s.next S x).contents S).dirty (s.slot S fw) = false := by
      rw [hc, Contents.evict_dirty, Function.update_self]
    rw [hs2]
    exact this

/-- A cycle that leaves the tags and the flag of the victim alone. -/
theorem Replaced.next {fw : Fin n} (h : s.Replaced S fw)
    (hst : s.state = .writeback ∨ s.state = .refill) : (s.next S x).Replaced S fw := by
  have hidle : s.state ≠ .idle := by rcases hst with hst | hst <;> simp [hst]
  obtain ⟨hmiss', hslot'⟩ := h.toMissed.next (x := x) hidle
  have hs2 : (s.next S x).s2o = s.s2o := next_s2o_of_stall hidle
  have hready : s.s2iReady S x = false := s2iReady_of_state hidle
  refine ⟨hmiss', ?_, ?_⟩
  · rw [hslot', hs2, ← h.line]
    simp only [contents]
    rw [next_tagV (by rcases hst with hst | hst <;> simp [hst])]
  · rw [next_d hready (by rcases hst with hst | hst <;> simp [hst]), hs2]
    exact h.clean

/-- The flush of a line leaves the slots and the registers of the second stage alone. -/
theorem Matched.next {a : Fin n} (h : s.Matched S a)
    (hst : s.state = .flush ∨ s.state = .writeback) : (s.next S x).Matched S a := by
  have hidle : s.state ≠ .idle := by rcases hst with hst | hst <;> simp [hst]
  have hs2 : (s.next S x).s2o = s.s2o := next_s2o_of_stall hidle
  have hready : s.s2iReady S x = false := s2iReady_of_state hidle
  have hc : (s.next S x).contents S = s.contents S :=
    contents_next hready (by rcases hst with hst | hst <;> simp [hst])
  have hmv : (s.next S x).s2oMatchVec = s.s2oMatchVec := by
    change ldff s.s2iMatchVecCe _ _ = _
    rcases hst with hst | hst <;> simp [s2iMatchVecCe, pCe, stallReq, hst]
  have hslot : (s.next S x).slot S a = s.slot S a := by rw [slot, slot, hs2]
  refine ⟨by rw [hs2, h.fls], by rw [hmv]; exact h.way, ?_, ?_⟩
  · rw [hc, hslot, hs2, h.line]
  · rw [hc, hslot, hs2, h.dirty]

/-- An idle cycle in which a flush finds its line. -/
theorem matched_next_idle (hS : S ≤ 7) (h : s.Shape S m) (hst : s.state = .idle)
    (hr : s.s1o.req = true) (hf : s.s1o.fls = true) (hh : s.s2iHit S x = true) :
    ∃ a, (s.next S x).Matched S a := by
  have hfresh := h.fresh (Or.inl hst) hr
  obtain ⟨hw, hvec, hline⟩ := hitVec_unique hS hfresh h.ok.uniq hh
  have hs2 : (s.next S x).s2o = s.s2oNxt S x := next_s2o_of_idle hst
  have hready : s.s2iReady S x = false := by simp [s2iReady, hf]
  have hc : (s.next S x).contents S = s.contents S := contents_next hready (by simp [hst])
  have hslot : (s.next S x).slot S hw = (hw, setFin S (s.s2iPaddr x).toNat) := by
    rw [slot, hs2]
    rfl
  refine ⟨hw, by rw [hs2]; exact hf, fun w => ?_, ?_, ?_⟩
  · rw [← hvec w]
    change ldff s.s2iMatchVecCe (s.s2iMatchVec S x) _ w = _
    rw [show s.s2iMatchVecCe = true by simp [s2iMatchVecCe, pCe, stallReq, hst], ldff_true]
    simp [s2iMatchVec, hst]
  · rw [hc, hslot, hs2]
    exact hline
  · rw [hc, hslot, hs2]
    change s.s1oD hw = s.d hw (setOf S (s.s2iPaddr x).toNat)
    rw [hfresh.d, hfresh.lineAddr, setOf_s2iPaddr hS]

/-! ### All cycles -/

theorem ok_next (hS : S ≤ 7) (h : s.Shape S m) : ((s.next S x).contents S).Ok := by
  have hstage := h.stage
  rw [Stage] at hstage
  have same : s.s2iReady S x = false →
      (s.state ≠ .boot ∧ s.state ≠ .invalidate ∧ s.state ≠ .replace ∧
      s.state ≠ .reload ∧ s.state ≠ .refill) → ((s.next S x).contents S).Ok := by
    intro hready hst
    rw [contents_next hready hst]
    exact h.ok
  cases hst : s.state <;> rw [hst] at hstage
  case idle =>
    cases hready : s.s2iReady S x with
    | false => exact same hready (by simp [hst])
    | true =>
        have hready' := hready
        simp only [s2iReady, Bool.and_eq_true] at hready'
        obtain ⟨⟨⟨⟨⟨⟨-, hr⟩, -⟩, -⟩, hhit⟩, -⟩, -⟩ := hready'
        have hfresh := h.fresh (Or.inl hst) hr
        obtain ⟨hw, hvec, hline⟩ := hitVec_unique hS hfresh h.ok.uniq hhit
        exact ok_of_wrote h.ok hline (wrote_hit hS hfresh hst hready hvec).1
  case boot =>
    obtain ⟨-, ht, hd⟩ := hstage
    have ht' : ∀ w i, (s.next S x).tagV w i = (0, false) := by
      intro w i
      change (if _ then s.s1iReplaceTagV S else s.tagV w i) = _
      rw [show s.s1iReplaceTagV S = (0, false) by simp [s1iReplaceTagV, hst], ht, ite_self]
    have hd' : ∀ w i, (s.next S x).d w i = false := by
      intro w i
      change (if _ then s.s2iDWdat w else s.d w i) = _
      rw [s2iDWdat, hst, hd]
      simp
    exact (Contents.rep_of_empty (F := fun _ _ => 0) (fun a => by simp [contents, ht'])
      fun a => hd' a.1 a.2).ok
  case replace =>
    obtain ⟨fw, hmiss, habs, -⟩ := hstage
    rw [contents_next_replace hmiss hst]
    exact h.ok.evict habs _
  case refill =>
    obtain ⟨fw, hrepl, -⟩ := hstage
    have hb := h.bus
    rw [Bus, hst] at hb
    obtain ⟨c, hb⟩ := hb
    rw [contents_next_refill hrepl.toMissed hst hb.refillCnt]
    exact ⟨h.ok.uniq, h.ok.valid⟩
  case reload =>
    obtain ⟨fw, hrepl, -⟩ := hstage
    exact ok_of_wrote h.ok hrepl.line (wrote_reload hrepl.toMissed hst).1
  case invalidate =>
    rw [contents_next_invalidate hst hstage.2]
    exact h.ok.clear _
  all_goals exact same (s2iReady_of_state (by simp [hst])) (by simp [hst])

theorem Shape.front_next (h : s.Shape S m) (hr : (s.next S x).s1o.req = true) :
    (s.next S x).s1o.lineAddr = setOf S (s.next S x).s1o.vpo.toNat := by
  by_cases hst : s.state = .idle
  · exact (fresh_next_idle hst).lineAddr
  · rw [next_s1o_of_stall hst] at hr ⊢
    exact h.front hr

/-- The request behind has read the tags as they are. -/
theorem Shape.fresh_next (h : s.Shape S m) (ha : m.Answers x.axi) (hn : (s.next S x).Settled)
    (hr : (s.next S x).s1o.req = true) : (s.next S x).Fresh S := by
  have hstage := h.stage
  have hb := h.bus
  rw [Stage] at hstage
  rw [Bus] at hb
  by_cases hidle : s.state = .idle
  · exact fresh_next_idle hidle
  have hs1 : (s.next S x).s1o = s.s1o := next_s1o_of_stall hidle
  have hs2 : (s.next S x).s2o = s.s2o := next_s2o_of_stall hidle
  have hstn : (s.next S x).state = s.stateNxt S x := rfl
  rw [hs1] at hr
  cases hst : s.state <;> rw [hst] at hstage hb
  case idle => exact absurd hst hidle
  case boot =>
    rw [hstage.1] at hr
    cases hr
  case invalidate =>
    rw [hstage.1] at hr
    cases hr
  case reload => exact fresh_next_reload hst (h.front hr)
  case replace =>
    obtain ⟨fw, hmiss, -⟩ := hstage
    have hf := hmiss.fls
    rw [Settled, hstn, hs2, hf, stateNxt, hst] at hn
    cases hd : s.s2o.freeDirty <;> simp [hd] at hn
  case refill =>
    obtain ⟨c, hb⟩ := hb
    rcases hb.next (S := S) hst ha with ⟨-, hn', -⟩ | ⟨-, -, hn', -⟩ | ⟨-, -, hn', -⟩ <;>
      simp [Settled, hn'] at hn
  case writeback =>
    cases hf : s.s2o.fls with
    | true => exact (h.fresh (by simp [Settled, hst, hf]) hr).next (by simp [hst])
    | false =>
        obtain ⟨k, hb⟩ := hb
        rcases hb.next (S := S) hst ha with ⟨-, hn', -⟩ | ⟨-, -, hf', -⟩ | ⟨-, -, -, hn', -⟩
        · simp [Settled, hn', hs2, hf] at hn
        · rw [hf] at hf'
          cases hf'
        · simp [Settled, hn'] at hn
  all_goals exact (h.fresh (by simp [Settled, hst]) hr).next (by simp [hst])

/-- An idle cycle. -/
theorem Shape.stage_next_idle (hS : S ≤ 7) (h : s.Shape S m) (hst : s.state = .idle)
    (hx : s.Alone x) : (s.next S x).Stage S (m.next s.axiOut x.axi) := by
  have hs1 : (s.next S x).s1o = s.s1oNxt S x := next_s1o_of_idle hst
  have hs2 : (s.next S x).s2o = s.s2oNxt S x := next_s2o_of_idle hst
  rw [Stage]
  rcases idle_steps (S := S) (x := x) hst with ⟨-, hn, -⟩ | ⟨-, -, hn⟩ |
    ⟨hready, -, hr, hf, hu, hh, hn⟩ |
    ⟨-, -, hr, hi, hn⟩ | ⟨-, -, hr, -, hf, hh, hn⟩ | ⟨-, -, -, -, -, hu, hn⟩ <;> rw [hn]
  · trivial
  · trivial
  · -- a miss
    have hfresh := h.fresh (Or.inl hst) hr
    obtain ⟨k, hk⟩ := h.free
    have hc : (s.next S x).contents S = s.contents S := contents_next hready (by simp [hst])
    have hd : s.s1oD k = s.d k (setOf S (s.s2iPaddr x).toNat) := by
      rw [hfresh.d, hfresh.lineAddr, setOf_s2iPaddr hS]
    refine ⟨k, missed_next_idle hS hst (h.front hr) hf hu hk, ?_, ?_, ?_, ?_⟩
    · rw [hc, hs2]
      exact absent_of_not_hit hS hfresh hh
    · rw [hs2]
      exact (pmux_of_unique hk s.s1oD).symm
    · rw [hc, slot, hs2]
      change pmux s.freeWay s.s1oD = s.d k (setOf S (s.s2iPaddr x).toNat)
      rw [pmux_of_unique hk, hd]
    · rw [hs2, next_tagV (by simp [hst])]
      change (pmux s.freeWay s.s1oTagV).1 = (s.tagV k s.s1o.lineAddr).1
      rw [pmux_of_unique hk, hfresh.tagV]
  · -- an invalidation
    refine ⟨?_, ?_⟩
    · rw [hs1]
      exact hx hst hr hi
    · rw [hs2]
      exact (h.front hr).trans (setOf_s2iPaddr hS).symm
  · exact matched_next_idle hS h hst hr hf hh
  · change (s.next S x).s2o.uncached = true
    rw [hs2]
    exact hu

/-- A dirty victim is a line, whose number the second stage has. -/
theorem victim_line {fw : Fin n} (h : (s.contents S).Ok) (hmiss : s.Missed S fw)
    (hft : s.s2o.freeTag = (s.tagV fw s.s2o.lineAddr).1)
    (hd : (s.contents S).dirty (s.slot S fw) = true) :
    (s.contents S).line (s.slot S fw) = some (s.s2o.freeTag * 2 ^ S + s.s2o.lineAddr) := by
  have hsome := h.valid _ hd
  rw [hft, hmiss.lineAddr]
  simp only [contents, slot, setFin] at hsome ⊢
  split_ifs at hsome ⊢
  · rfl
  · cases hsome

/-- The cycle in which a victim loses its slot. -/
theorem Shape.stage_next_replace (h : s.Shape S m) (hst : s.state = .replace)
    (ha : m.Answers x.axi) : (s.next S x).Stage S (m.next s.axiOut x.axi) := by
  have hstage := h.stage
  have hb := h.bus
  rw [Stage, hst] at hstage
  rw [Bus, hst] at hb
  obtain ⟨fw, hmiss, habs, hd, hfd, hft⟩ := hstage
  have hs2 : (s.next S x).s2o = s.s2o := next_s2o_of_stall (by simp [hst])
  have hrepl := line_of_replace (x := x) hmiss hst
  have hstn : (s.next S x).state = s.stateNxt S x := rfl
  rw [Stage, hstn, stateNxt, hst]
  cases hfd' : s.s2o.freeDirty with
  | false => exact ⟨fw, hrepl, by rw [hs2, hd]⟩
  | true =>
      have haw : s.awSet = true := by simp [awSet, hst, hfd']
      have hway : ∀ w, (s.next S x).s2iWbWay w = decide (w = fw) := by
        intro w
        rw [s2iWbWay, hrepl.fls, if_neg Bool.false_ne_true, hrepl.way]
      refine Or.inr ⟨fw, s.s2o.freeTag * 2 ^ S + s.s2o.lineAddr, hrepl, by rw [hs2, hd],
        Sends.start hb ha haw (Or.inl hst) hway (by
          rw [axiPaddrNxt]
          simp [fsmUncachedReq, haw, hst, Nat.mul_comm]), fun b hb' => ?_⟩
      -- the victim held that line, and nobody else does
      have hv := victim_line h.ok hmiss hft (by rw [← hfd, hfd'])
      rw [contents_next_replace hmiss hst, Contents.evict_line, Function.update_apply] at hb'
      split_ifs at hb' with hbs
      · rw [Option.some_inj] at hb'
        exact habs _ (hb' ▸ hv)
      · exact hbs (h.ok.uniq _ _ _ hb' hv)

/-- The first cycle of a flush. -/
theorem Shape.stage_next_flush (h : s.Shape S m) (hst : s.state = .flush) (ha : m.Answers x.axi) :
    (s.next S x).Stage S (m.next s.axiOut x.axi) := by
  have hstage := h.stage
  have hb := h.bus
  rw [Stage, hst] at hstage
  rw [Bus, hst] at hb
  obtain ⟨a, hmat⟩ := hstage
  have hs2 : (s.next S x).s2o = s.s2o := next_s2o_of_stall (by simp [hst])
  have hmat' := hmat.next (x := x) (Or.inl hst)
  have hstn : (s.next S x).state = s.stateNxt S x := rfl
  rw [Stage, hstn, stateNxt, hst]
  cases hd : s.s2oMatchDirty with
  | false => trivial
  | true =>
      have haw : s.awSet = true := by simp [awSet, hst, hd]
      have hway : ∀ w, (s.next S x).s2iWbWay w = decide (w = a) := by
        intro w
        rw [s2iWbWay, hmat'.fls, if_pos rfl, hmat'.way]
      refine Or.inl ⟨a, hmat', ?_⟩
      rw [hs2]
      exact Sends.start hb ha haw (Or.inr hst) hway (by
        rw [axiPaddrNxt]
        simp [fsmUncachedReq, hst, Nat.mul_comm])

/-- A cycle of a write-back. -/
theorem Shape.stage_next_writeback (h : s.Shape S m) (hst : s.state = .writeback)
    (ha : m.Answers x.axi) : (s.next S x).Stage S (m.next s.axiOut x.axi) := by
  have hstage := h.stage
  have hb := h.bus
  rw [Stage, hst] at hstage
  rw [Bus, hst] at hb
  obtain ⟨k, hb⟩ := hb
  have hs2 : (s.next S x).s2o = s.s2o := next_s2o_of_stall (by simp [hst])
  rw [Stage]
  rcases hb.next (S := S) hst ha with ⟨hB, hn, -⟩ | ⟨-, -, -, hn, -⟩ | ⟨-, -, hf, hn, -⟩ <;> rw [hn]
  · rcases hstage with ⟨a, hmat, hsend⟩ | ⟨fw, v, hrepl, hd, hsend, habs⟩
    · refine Or.inl ⟨a, hmat.next (Or.inr hst), ?_⟩
      rw [hs2]
      exact hsend.next hst hb hB
    · refine Or.inr ⟨fw, v, hrepl.next (Or.inl hst), by rw [hs2, hd], hsend.next hst hb hB, ?_⟩
      rw [contents_next (s2iReady_of_state (by simp [hst])) (by simp [hst])]
      exact habs
  · trivial
  · rcases hstage with ⟨a, hmat, -⟩ | ⟨fw, v, hrepl, hd, -⟩
    · rw [hmat.fls] at hf
      cases hf
    · exact ⟨fw, hrepl.next (Or.inl hst), by rw [hs2, hd]⟩

theorem Shape.stage_next (hS : S ≤ 7) (h : s.Shape S m) (hx : s.Alone x) (ha : m.Answers x.axi) :
    (s.next S x).Stage S (m.next s.axiOut x.axi) := by
  have hstage := h.stage
  have hb := h.bus
  have hstn : (s.next S x).state = s.stateNxt S x := rfl
  by_cases hidle : s.state = .idle
  · exact h.stage_next_idle hS hidle hx
  have hs1 : (s.next S x).s1o = s.s1o := next_s1o_of_stall hidle
  have hs2 : (s.next S x).s2o = s.s2o := next_s2o_of_stall hidle
  rw [Stage] at hstage
  rw [Bus] at hb
  cases hst : s.state <;> rw [hst] at hstage hb
  case idle => exact absurd hst hidle
  case replace => exact h.stage_next_replace hst ha
  case flush => exact h.stage_next_flush hst ha
  case writeback => exact h.stage_next_writeback hst ha
  case boot =>
    obtain ⟨hr, ht, hd⟩ := hstage
    rw [Stage, hstn, stateNxt, hst]
    by_cases hc : s.bootCnt + 1 = 2 ^ S
    · simp only [hc, if_true]
    · simp only [hc, if_false]
      refine ⟨by rw [hs1, hr], fun w i => ?_, fun w i => ?_⟩
      · change (if _ then s.s1iReplaceTagV S else s.tagV w i) = _
        rw [show s.s1iReplaceTagV S = (0, false) by simp [s1iReplaceTagV, hst], ht, ite_self]
      · change (if _ then s.s2iDWdat w else s.d w i) = _
        rw [s2iDWdat, hst, hd]
        simp
  case refill =>
    obtain ⟨fw, hrepl, hd⟩ := hstage
    obtain ⟨c, hb⟩ := hb
    rw [Stage]
    rcases hb.next (S := S) hst ha with ⟨-, hn, -⟩ | ⟨-, -, hn, -⟩ | ⟨-, -, hn, -⟩ <;> rw [hn] <;>
      exact ⟨fw, hrepl.next (Or.inr hst), by rw [hs2, hd]⟩
  case uncachedBoot =>
    rw [Stage]
    rcases BusQuiet.next_uncached (S := S) hb ha hst with ⟨hn, -⟩ | ⟨hn, -⟩ <;> rw [hn] <;>
      exact (congrArg DcS2o.uncached hs2).trans hstage
  case uncachedRead =>
    rw [Stage]
    rcases BusUncachedRead.next (S := S) hb hst ha with ⟨-, hn, -⟩ | ⟨-, hn, -⟩ <;> rw [hn]
    · exact (congrArg DcS2o.uncached hs2).trans hstage
    · trivial
  case uncachedWrite =>
    obtain ⟨k, hb⟩ := hb
    rw [Stage]
    rcases BusUncachedWrite.next (S := S) hb hst ha with ⟨-, hn, -⟩ | ⟨-, -, hn, -⟩ <;> rw [hn]
    · exact (congrArg DcS2o.uncached hs2).trans hstage
    · trivial
  all_goals
    rw [Stage, hstn, stateNxt, hst]
    trivial

/-- **The invariant is kept by every cycle.** -/
theorem Shape.next (hS : S ≤ 7) (h : s.Shape S m) (hx : s.Alone x) (ha : m.Answers x.axi) :
    (s.next S x).Shape S (m.next s.axiOut x.axi) :=
  ⟨h.bus.next ha, free_next h.free, ok_next hS h, h.front_next, h.fresh_next ha,
    h.stage_next hS hx ha⟩

theorem shape_reset (pay : Fin n → ℕ × ℕ → ℕ → Byte) (m₀ : ℕ → Byte) :
    (reset pay).Shape S (AxiMem.idle m₀) := by
  refine ⟨bus_reset pay m₀, ⟨0, fun _ => rfl⟩, ?_, fun h => Bool.noConfusion h,
    fun _ h => Bool.noConfusion h, rfl, fun _ _ => rfl, fun _ _ => rfl⟩
  exact (Contents.rep_of_empty (F := fun _ _ => 0) (fun _ => rfl) fun _ => rfl).ok

end Dcache

end NanoCpu
