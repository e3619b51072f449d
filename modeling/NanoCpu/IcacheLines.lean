/-
**The lines of the I-cache.**

What a cycle of the I-cache does to the tags, the payload and the registers of the first stage,
whatever it is asked to fetch.  Only a refill writes the payload, and most cycles leave the tags
alone.

Main definitions:

* `Icache.Filled` — a slot holds a line of memory;
* `Icache.Snap` — what the first stage has read of its set.

Main results:

* `Icache.next_pay`, `Icache.next_pay_refill`, `Icache.next_tagV` — the RAMs after a cycle;
* `Icache.Snap.next`, `Icache.snap_next_read` — what the first stage shows after a cycle;
* `Icache.Snap.match_payload` — what a hit brings.
-/

import NanoCpu.DcacheLines
import NanoCpu.IcacheBus

set_option relaxedAutoImplicit false
set_option autoImplicit false
set_option linter.unusedSectionVars false

namespace NanoCpu

namespace Icache

variable {n : ℕ} [NeZero n] {S : ℕ} {s : Icache n} {m : AxiMem} {x : IcIn n} {F : ℕ → Byte}

/-! ### The RAMs -/

/-- A cycle of a refill writes the half of a window that the bus shows. -/
theorem next_pay_refill {c : ℕ} (hst : s.state = .refill) (hc : s.refillCnt = 8 * c) (w : Fin n)
    (b : ℕ × ℕ) (j : ℕ) : (s.next S x).pay w b j =
      if s.s2oFsmFreeWay w = true ∧ b = (Dcache.setOf S s.s2oPaddr.toNat, c / 2) ∧
        c % 2 = j / 8 then
        x.axi.rData (j % 8)
      else s.pay w b j := by
  have haddr : s.s1iPayloadAddr S x = (Dcache.setOf S s.s2oPaddr.toNat, c / 2) := by
    simp only [s1iPayloadAddr, hst, hc, Prod.mk.injEq, true_and]
    omega
  have hwe : s.s1iPayloadWe w j = (decide (c % 2 = j / 8) && s.s2oFsmFreeWay w) := by
    simp [s1iPayloadWe, s1iPayloadTgtWe, hst, hc]
  change (if s.s1iPayloadWe w j = true ∧ b = s.s1iPayloadAddr S x then s1iPayloadDin x j
    else s.pay w b j) = _
  rw [hwe, haddr]
  by_cases hw : s.s2oFsmFreeWay w = true <;> by_cases hj : c % 2 = j / 8 <;>
    simp [hw, hj, s1iPayloadDin]

theorem next_s2oFsmFreeWay (hst : s.state ≠ .replace) :
    (s.next S x).s2oFsmFreeWay = s.s2oFsmFreeWay := by
  change ldff (decide (s.state = .replace)) _ _ = _
  rw [decide_eq_false hst]
  rfl

theorem next_pay (hst : s.state ≠ .refill) : (s.next S x).pay = s.pay := by
  funext w a j
  change (if s.s1iPayloadWe w j = true ∧ _ then _ else _) = _
  rw [if_neg]
  simp [s1iPayloadWe, s1iPayloadTgtWe, hst]

theorem next_tagV (h : s.state ≠ .boot ∧ s.state ≠ .invalidate ∧ s.state ≠ .replace) :
    (s.next S x).tagV = s.tagV := by
  funext w i
  change (if s.s1iTagVWe w = true ∧ _ then _ else _) = _
  rw [if_neg]
  simp [s1iTagVWe, h.1, h.2.1, h.2.2]

/-- A slot that is valid after a cycle without a victim was valid before. -/
theorem tagV_next_of_valid {w : Fin n} {i : ℕ} (hst : s.state ≠ .replace)
    (h : ((s.next S x).tagV w i).2 = true) : (s.next S x).tagV w i = s.tagV w i := by
  change (if s.s1iTagVWe w = true ∧ i = s.s1iLineAddr S x then s.s1iReplaceTagV S
    else s.tagV w i).2 = true at h
  change (if s.s1iTagVWe w = true ∧ i = s.s1iLineAddr S x then s.s1iReplaceTagV S
    else s.tagV w i) = _
  split_ifs at h ⊢ with hc
  · simp [s1iReplaceTagV, hst] at h
  · rfl

/-- The victim of a miss gets the tag of the line. -/
theorem next_tagV_replace (hst : s.state = .replace) (w : Fin n) (i : ℕ) : (s.next S x).tagV w i =
    if s.freeWay w = true ∧ i = s.s2oLineAddr then (Dcache.tagOf S s.s2oPaddr.toNat, true)
    else s.tagV w i := by
  change (if s.s1iTagVWe w = true ∧ i = s.s1iLineAddr S x then s.s1iReplaceTagV S
    else s.tagV w i) = _
  simp [s1iTagVWe, s1iLineAddr, s1iReplaceTagV, hst]

/-- The first `c` bytes of the line with tag `t` are in way `w` of set `i`. -/
def Filled (S : ℕ) (F : ℕ → Byte) (s : Icache n) (w : Fin n) (i t c : ℕ) : Prop :=
  ∀ o < c, s.pay w (i, o / 16) (o % 16) = F ((t * 2 ^ S + i) * 64 + o)

theorem Filled.next {w : Fin n} {i t c : ℕ} (h : s.Filled S F w i t c) (hst : s.state ≠ .refill) :
    (s.next S x).Filled S F w i t c := by
  intro o ho
  rw [next_pay hst]
  exact h o ho

/-- A refill leaves the other slots alone. -/
theorem Filled.next_refill {w : Fin n} {i t k c : ℕ} (h : s.Filled S F w i t k)
    (hst : s.state = .refill)
    (hc : s.refillCnt = 8 * c) (hne :
      ¬ (s.s2oFsmFreeWay w = true ∧ i = Dcache.setOf S s.s2oPaddr.toNat)) :
    (s.next S x).Filled S F w i t k := by
  intro o ho
  rw [next_pay_refill hst hc, if_neg]
  · exact h o ho
  · rintro ⟨hw, hb, -⟩
    exact hne ⟨hw, (Prod.mk.inj hb).1⟩

/-- The bytes that a refill has brought stay while it waits. -/
theorem Filled.next_wait {w : Fin n} {t c : ℕ}
    (h : s.Filled S F w (Dcache.setOf S s.s2oPaddr.toNat) t (8 * c)) (hst : s.state = .refill)
    (hc : s.refillCnt = 8 * c) :
    (s.next S x).Filled S F w (Dcache.setOf S s.s2oPaddr.toNat) t (8 * c) := by
  intro o ho
  rw [next_pay_refill hst hc, if_neg]
  · exact h o ho
  · rintro ⟨-, hb, hj⟩
    have := (Prod.mk.inj hb).2
    omega

/-- A beat of a refill brings the next eight bytes. -/
theorem Filled.next_beat {w : Fin n} {c : ℕ}
    (h : s.Filled S F w (Dcache.setOf S s.s2oPaddr.toNat) (Dcache.tagOf S s.s2oPaddr.toNat) (8 * c))
    (hst : s.state = .refill) (hc : s.refillCnt = 8 * c) (hw : s.s2oFsmFreeWay w = true)
    (hd : ∀ l < 8, x.axi.rData l = F (s.s2oPaddr.toNat / 64 * 64 + 8 * c + l)) :
    (s.next S x).Filled S F w (Dcache.setOf S s.s2oPaddr.toNat) (Dcache.tagOf S s.s2oPaddr.toNat)
      (8 * (c + 1)) := by
  intro o ho
  rw [next_pay_refill hst hc]
  by_cases hlt : o < 8 * c
  · rw [if_neg]
    · exact h o hlt
    · rintro ⟨-, hb, hj⟩
      have := (Prod.mk.inj hb).2
      omega
  · have hj : o % 16 % 8 = o - 8 * c := by omega
    rw [if_pos ⟨hw, by rw [show o / 16 = c / 2 by omega], by omega⟩, hj, hd _ (by omega),
      Dcache.tagOf_mul_add_setOf]
    congr 1
    omega

/-! ### What the first stage has read -/

/-- The payload RAMs show the window of the request in the first stage, and what is under a valid
tag is the window of that line. -/
structure Snap (S : ℕ) (F : ℕ → Byte) (s : Icache n) : Prop where
  reAddr : s.payReAddr = s.s1oPayloadAddr
  payQ : ∀ w, s.payQ w = s.pay w s.payReAddr
  data : ∀ w, (s.s1oTagV w).2 = true → ∀ j < 16, s.pay w s.s1oPayloadAddr j =
    F (((s.s1oTagV w).1 * 2 ^ S + s.s1oLineAddr) * 64 + s.s1oPayloadAddr.2 * 16 + j)

/-- While the pipeline is stalled the first stage shows the same. -/
theorem Snap.next (h : s.Snap S F) (hce : s.pCe x = false)
    (hst : s.state ≠ .refill ∧ s.state ≠ .reload) : (s.next S x).Snap S F := by
  have hre : s.s1iTagVRe x = false := by simp [s1iTagVRe, hce, hst.2]
  have htag : ∀ w, (s.next S x).s1oTagV w = s.s1oTagV w := by
    intro w
    change ldff (s.s1iTagVRe x) _ _ = _
    rw [hre]
    rfl
  have hla : (s.next S x).s1oLineAddr = s.s1oLineAddr := by
    change ldff (s.pCe x) _ _ = _
    rw [hce]
    rfl
  have hpa : (s.next S x).s1oPayloadAddr = s.s1oPayloadAddr := by
    change ldff (s.pCe x) _ _ = _
    rw [hce]
    rfl
  have hra : s.payReAddrNxt S x = s.payReAddr := by
    rw [payReAddrNxt, hre]
    rfl
  refine ⟨?_, fun w => ?_, fun w hv j hj => ?_⟩
  · rw [hpa]
    exact hra.trans h.reAddr
  · rw [next_pay hst.1]
    change (if decide (s.state = .refill) && s.s2oFsmFreeWay w then _ else
      s.pay w (s.payReAddrNxt S x)) = _
    rw [if_neg (by simp [hst.1])]
    rfl
  · rw [htag] at hv
    rw [next_pay hst.1, hpa, htag, hla]
    exact h.data w hv j hj

/-- The first stage reads a set and a window. -/
theorem snap_next_read (hre : s.s1iTagVRe x = true) (hst : s.state ≠ .refill)
    (hla : (s.next S x).s1oLineAddr = s.s1iLineAddr S x)
    (hpa : (s.next S x).s1oPayloadAddr = s.s1iPayloadAddr S x)
    (hset : (s.s1iPayloadAddr S x).1 = s.s1iLineAddr S x) (hwin : (s.s1iPayloadAddr S x).2 < 4)
    (hd : ∀ w, (s.tagV w (s.s1iLineAddr S x)).2 = true →
      s.Filled S F w (s.s1iLineAddr S x) (s.tagV w (s.s1iLineAddr S x)).1 64) :
    (s.next S x).Snap S F := by
  have htag : ∀ w, (s.next S x).s1oTagV w = s.tagV w (s.s1iLineAddr S x) := by
    intro w
    change ldff (s.s1iTagVRe x) _ _ = _
    rw [hre]
    rfl
  have hra : s.payReAddrNxt S x = s.s1iPayloadAddr S x := by
    rw [payReAddrNxt, hre]
    rfl
  refine ⟨by rw [hpa]; exact hra, fun w => ?_, fun w hv j hj => ?_⟩
  · rw [next_pay hst]
    change (if decide (s.state = .refill) && s.s2oFsmFreeWay w then _ else
      s.pay w (s.payReAddrNxt S x)) = _
    rw [if_neg (by simp [hst])]
    rfl
  · rw [htag] at hv
    have h := hd w hv ((s.s1iPayloadAddr S x).2 * 16 + j) (by omega)
    rw [next_pay hst, hpa, htag, hla, Nat.add_assoc, ← h, ← hset]
    congr 1
    · rw [show ((s.s1iPayloadAddr S x).2 * 16 + j) / 16 = (s.s1iPayloadAddr S x).2 by omega]
    · omega

/-- A hit brings the window of its address. -/
theorem Snap.match_payload (h : s.Snap S F) (hS : S ≤ 7)
    (hla : s.s1oLineAddr = Dcache.setOf S s.s1oVpo.toNat)
    (hpa : s.s1oPayloadAddr = (Dcache.setOf S s.s1oVpo.toNat, windowOf s.s1oVpo.toNat))
    (hh : s.s2iHit S x = true) {j : ℕ} (hj : j < 16) :
    s.s1oMatchPayload S x j = F ((s.s2iPaddr x).toNat / 16 * 16 + j) := by
  obtain ⟨w, hw⟩ : ∃ w, s.s2iHitVec S x w = true := by simpa [s2iHit] using hh
  have hsel : s.s2iHitVec S x (priorityEncoderGs (s.s2iHitVec S x)).1 = true :=
    priorityEncoderGs_mem (priorityEncoderGs_of_mem hw)
  generalize hk : (priorityEncoderGs (s.s2iHitVec S x)).1 = k at hsel
  rw [s2iHitVec, Bool.and_eq_true, decide_eq_true_iff] at hsel
  have hd := h.data k hsel.1 j hj
  have hset : Dcache.setOf S s.s1oVpo.toNat = Dcache.setOf S (s.s2iPaddr x).toNat :=
    (Dcache.setOf_page hS _ _).symm
  have hwin : (s.s2iPaddr x).toNat / 16 * 16 = (s.s2iPaddr x).toNat / 64 * 64 +
      windowOf s.s1oVpo.toNat * 16 := by
    have := Dcache.toNat_page x.ppn s.s1oVpo
    rw [s2iPaddr, this, windowOf]
    omega
  rw [s1oMatchPayload, pmux, hk, h.payQ, h.reAddr, hd, hsel.2, hla, hset,
    Dcache.tagOf_mul_add_setOf, hpa, hwin]

end Icache

end NanoCpu
