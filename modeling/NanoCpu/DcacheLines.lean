/-
**The lines of the D-cache.**

What a cycle of the D-cache does to the tags, the dirty flags and the payload, whatever it is asked
to do.  The RAMs are read as slots that hold lines of memory (`Dcache.contents`); most cycles leave
them alone, and each of the others changes one slot, or the slots of one set.

Main definitions:

* `DcAccess`, `flatMem` — accesses to a flat memory;
* `Dcache.contents` — the slots of the cache;
* `Dcache.Fresh` — the first stage shows a set as it is;
* `Dcache.Missed`, `Dcache.Replaced` — a miss, before and after its victim has lost its slot;
* `Dcache.Wrote` — the effect of an access;
* `Dcache.Streams`, `Dcache.Sends` — a line is on its way to memory.

Main results:

* `Dcache.hitVec_iff`, `Dcache.hitVec_unique` — which way hits;
* `Dcache.wrote_hit`, `Dcache.wrote_reload` — what an access does to its slot;
* `Dcache.contents_next_replace`, `Dcache.contents_next_refill` — what a miss does to it;
* `Dcache.Sends.start`, `Dcache.Sends.next`, `Dcache.Sends.landed` — the write-back of a line.
-/

import NanoCpu.DcacheBus
import NanoCpu.WriteBack

set_option relaxedAutoImplicit false
set_option autoImplicit false
set_option linter.unusedSectionVars false

namespace NanoCpu

open WriteBack

/-! ### Flat memory -/

/-- An access to the word at `addr`: a store writes the bytes of its mask, a load has none. -/
structure DcAccess where
  addr : ℕ
  wmsk : BitVec 4
  wdat : Word

/-- The memory after an access. -/
def DcAccess.apply (a : DcAccess) (F : ℕ → Byte) (p : ℕ) : Byte :=
  if p / 4 = a.addr / 4 ∧ a.wmsk.getLsbD (p % 4) = true then byteOf a.wdat (p % 4) else F p

/-- The memory after a list of accesses. -/
def flatMem (m₀ : ℕ → Byte) (l : List DcAccess) : ℕ → Byte := l.foldl (fun F a => a.apply F) m₀

/-- The bytes of a line. -/
def lineMem (F : ℕ → Byte) (l : ℕ) (o : Fin 64) : Byte := F (64 * l + o)

theorem lineMem_apply {a : DcAccess} {F : ℕ → Byte} :
    lineMem (a.apply F) = Function.update (lineMem F) (a.addr / 64)
      (lineMem (a.apply F) (a.addr / 64)) := by
  funext l
  by_cases hl : l = a.addr / 64
  · rw [hl, Function.update_self]
  · rw [Function.update_of_ne hl]
    funext o
    have ho := o.isLt
    rw [lineMem, lineMem, DcAccess.apply, if_neg]
    rintro ⟨h, -⟩
    omega

theorem apply_of_load {a : DcAccess} (h : a.wmsk = 0) (F : ℕ → Byte) : a.apply F = F := by
  funext p
  simp [DcAccess.apply, h]

namespace Dcache

variable {n : ℕ} [NeZero n] {S : ℕ} {s : Dcache n} {m : AxiMem} {x : DcIn n} {F : ℕ → Byte}

/-! ### Sets and tags -/

/-- The set of an address. -/
def setFin (S : ℕ) (p : ℕ) : Fin (2 ^ S) := ⟨setOf S p, Nat.mod_lt _ (Nat.two_pow_pos S)⟩

theorem tagOf_mul_add_setOf (p : ℕ) : tagOf S p * 2 ^ S + setOf S p = p / 64 := by
  rw [tagOf, setOf, Nat.mul_comm]
  exact Nat.div_add_mod _ _

/-- The set and the word are below the page number. -/
theorem toNat_page (ppn : Ppn) (vpo : BitVec 13) :
    (ppn ++ vpo).toNat = ppn.toNat * 8192 + vpo.toNat := by
  rw [BitVec.toNat_append, Nat.shiftLeft_eq, Nat.mul_comm, ← Nat.two_pow_add_eq_or_of_lt vpo.isLt]

theorem setOf_page (hS : S ≤ 7) (ppn : Ppn) (vpo : BitVec 13) :
    setOf S (ppn ++ vpo).toNat = setOf S vpo.toNat := by
  rw [setOf, setOf, toNat_page]
  have h : (ppn.toNat * 8192 + vpo.toNat) / 64 = ppn.toNat * 128 + vpo.toNat / 64 := by omega
  rw [h]
  obtain ⟨d, hd⟩ : 2 ^ S ∣ 128 := Nat.pow_dvd_pow 2 hS
  rw [hd, show ppn.toNat * (2 ^ S * d) = 2 ^ S * (ppn.toNat * d) by ring, Nat.mul_add_mod]

theorem s2iPaddr_toNat : (s.s2iPaddr x).toNat = x.ppn.toNat * 8192 + s.s1o.vpo.toNat :=
  toNat_page _ _

theorem setOf_s2iPaddr (hS : S ≤ 7) : setOf S (s.s2iPaddr x).toNat = setOf S s.s1o.vpo.toNat :=
  setOf_page hS _ _

theorem wordOf_s2iPaddr : wordOf (s.s2iPaddr x).toNat = wordOf s.s1o.vpo.toNat := by
  rw [wordOf, wordOf, s2iPaddr_toNat]
  omega

/-! ### What is in the cache -/

/-- The slots of the cache: a way and a set. -/
def contents (S : ℕ) (s : Dcache n) : Contents (Fin n × Fin (2 ^ S)) ℕ (Fin 64 → Byte) where
  line a := if (s.tagV a.1 a.2).2 then some ((s.tagV a.1 a.2).1 * 2 ^ S + a.2) else none
  dirty a := s.d a.1 a.2
  data a := fun o => s.pay a.1 (a.2, o / 4) (o % 4)

/-- A slot holds the line of an address. -/
theorem line_eq_some_iff {w : Fin n} {p : ℕ} :
    (s.contents S).line (w, setFin S p) = some (p / 64) ↔
      s.tagV w (setOf S p) = (tagOf S p, true) := by
  have hp := tagOf_mul_add_setOf (S := S) p
  have hpos := Nat.two_pow_pos S
  obtain ⟨t, v, h⟩ : ∃ t v, s.tagV w (setOf S p) = (t, v) := ⟨_, _, rfl⟩
  simp only [contents, setFin, h]
  cases v with
  | false => simp
  | true =>
      rw [if_pos rfl, Option.some_inj, Prod.mk.injEq, and_iff_left rfl, ← hp]
      constructor
      · intro e
        exact Nat.eq_of_mul_eq_mul_right hpos (Nat.add_right_cancel e)
      · rintro rfl
        rfl

/-- The line of an address can only be in its set. -/
theorem set_of_line {a : Fin n × Fin (2 ^ S)} {l : ℕ} (h : (s.contents S).line a = some l) :
    (a.2 : ℕ) = l % 2 ^ S := by
  simp only [contents] at h
  split_ifs at h
  rw [Option.some_inj] at h
  rw [← h, Nat.mul_comm, Nat.mul_add_mod, Nat.mod_eq_of_lt a.2.isLt]
/-! ### A miss -/

/-- The registers of the second stage describe a cached access with the victim `fw`. -/
structure Missed (S : ℕ) (s : Dcache n) (fw : Fin n) : Prop where
  way : ∀ w, s.s2o.fsmFreeWay w = decide (w = fw)
  fls : s.s2o.fls = false
  uncached : s.s2o.uncached = false
  lineAddr : s.s2o.lineAddr = setOf S s.s2o.paddr.toNat
  payloadAddr : s.s2o.payloadAddr = (setOf S s.s2o.paddr.toNat, wordOf s.s2o.paddr.toNat)

/-- The slot of the victim. -/
def slot (S : ℕ) (s : Dcache n) (fw : Fin n) : Fin n × Fin (2 ^ S) :=
  (fw, setFin S s.s2o.paddr.toNat)

/-- The victim's slot has been given to the line of the access. -/
structure Replaced (S : ℕ) (s : Dcache n) (fw : Fin n) : Prop extends s.Missed S fw where
  line : (s.contents S).line (s.slot S fw) = some (s.s2o.paddr.toNat / 64)
  clean : s.d fw (setOf S s.s2o.paddr.toNat) = false
/-! ### What a cycle leaves alone -/

theorem next_tagV (h : s.state ≠ .boot ∧ s.state ≠ .invalidate ∧ s.state ≠ .replace) :
    (s.next S x).tagV = s.tagV := by
  funext w i
  change (if s.s1iTagVWe w = true ∧ i = s.s1iLineAddr S x then _ else _) = _
  rw [if_neg]
  simp [s1iTagVWe, h]

theorem s2iReady_of_state (h : s.state ≠ .idle) : s.s2iReady S x = false := by
  simp [s2iReady, h]

theorem next_d (hr : s.s2iReady S x = false)
    (h : s.state ≠ .boot ∧ s.state ≠ .invalidate ∧ s.state ≠ .replace ∧ s.state ≠ .reload) :
    (s.next S x).d = s.d := by
  funext w i
  change (if s.s2iDWe S x w = true ∧ i = s.s2iDWaddr S x then _ else _) = _
  rw [if_neg]
  simp [s2iDWe, h, hr]

theorem next_pay (hr : s.s2iReady S x = false) (h : s.state ≠ .refill ∧ s.state ≠ .reload) :
    (s.next S x).pay = s.pay := by
  funext w a j
  change (if (s.s2iPayloadWe S x w).getLsbD j = true ∧ a = s.s2iPayloadAddr S x then _ else _) = _
  rw [if_neg]
  simp [s2iPayloadWe, h, hr]

theorem contents_next (hr : s.s2iReady S x = false) (h : s.state ≠ .boot ∧ s.state ≠ .invalidate ∧
    s.state ≠ .replace ∧ s.state ≠ .reload ∧ s.state ≠ .refill) :
    (s.next S x).contents S = s.contents S := by
  have h₁ := next_tagV (S := S) (x := x) ⟨h.1, h.2.1, h.2.2.1⟩
  have h₂ := next_d (S := S) hr ⟨h.1, h.2.1, h.2.2.1, h.2.2.2.1⟩
  have h₃ := next_pay (S := S) hr ⟨h.2.2.2.2, h.2.2.2.1⟩
  rw [contents, contents, h₁, h₂, h₃]

/-- The flags of a set are read as they are after the cycle. -/
theorem next_s1oD (hre : s.s1iTagVRe = true) (w : Fin n) :
    (s.next S x).s1oD w = (s.next S x).d w (s.s1iLineAddr S x) := by
  have h₁ : (s.next S x).rfBypass w = s.rfConflict S x w := by
    change ldff _ _ _ = _
    rw [hre]
    simp
  have h₂ : (s.next S x).rfDFf w = s.s2iDWdat w := by
    change ldff _ _ _ = _
    rw [hre]
    rfl
  have h₃ : (s.next S x).rfD w = s.d w (s.s1iLineAddr S x) := by
    change ldff _ _ _ = _
    rw [hre]
    rfl
  have h₄ : (s.next S x).d w (s.s1iLineAddr S x) =
      if s.rfConflict S x w then s.s2iDWdat w else s.d w (s.s1iLineAddr S x) := by
    change (if s.s2iDWe S x w = true ∧ s.s1iLineAddr S x = s.s2iDWaddr S x then _ else _) = _
    simp [rfConflict, and_comm]
  rw [s1oD, h₁, h₂, h₃, h₄]

theorem next_s1oTagV (hre : s.s1iTagVRe = true) (w : Fin n) :
    (s.next S x).s1oTagV w = s.tagV w (s.s1iLineAddr S x) := by
  change ldff _ _ _ = _
  rw [hre]
  rfl

/-- A one-hot vector that is rotated by one place. -/
theorem rotate_eq {f : Fin n → Bool} {k : Fin n} (hk : ∀ w, f w = decide (w = k)) (w : Fin n) :
    (if f (lastWay n) then decide (w = 0)
      else decide (w ≠ 0) && f ⟨w - 1, lt_of_le_of_lt (Nat.sub_le _ _) w.isLt⟩) =
      decide (w = Fin.ofNat n (k + 1)) := by
  have hlt := k.isLt
  have hlt' := w.isLt
  rw [hk, hk, Bool.eq_iff_iff]
  by_cases hl : k = lastWay n
  · have hl' : (k : ℕ) = n - 1 := congrArg Fin.val hl
    rw [if_pos (by simp [hl]), decide_eq_true_iff, decide_eq_true_iff, Fin.ext_iff, Fin.ext_iff,
      Fin.val_ofNat, hl', Nat.sub_add_cancel (NeZero.pos n), Nat.mod_self, Fin.val_zero]
  · have hne : (k : ℕ) ≠ n - 1 := fun he => hl (Fin.ext he)
    rw [if_neg (by simpa using fun he => hl he.symm)]
    simp only [Bool.and_eq_true, decide_eq_true_eq, ne_eq, Fin.ext_iff, Fin.val_zero, Fin.val_ofNat]
    rw [Nat.mod_eq_of_lt (by omega)]
    omega

/-- The victim pointer moves on to the next way. -/
theorem freeWayNxt_eq {k : Fin n} (hk : ∀ w, s.freeWay w = decide (w = k)) (w : Fin n) :
    s.freeWayNxt w = decide (w = Fin.ofNat n (k + 1)) :=
  rotate_eq hk w

theorem free_next (h : ∃ k, ∀ w, s.freeWay w = decide (w = k)) :
    ∃ k, ∀ w, (s.next S x).freeWay w = decide (w = k) := by
  obtain ⟨k, hk⟩ := h
  exact ⟨_, freeWayNxt_eq hk⟩

/-- A multiplexer with a single way selected. -/
theorem pmux_of_unique {α : Type*} {sel : Fin n → Bool} {k : Fin n}
    (h : ∀ w, sel w = decide (w = k)) (din : Fin n → α) : pmux sel din = din k := by
  have hm : sel (priorityEncoderGs sel).1 = true := by
    refine priorityEncoderGs_mem (priorityEncoderGs_of_mem (i := k) ?_)
    rw [h]
    simp
  rw [h, decide_eq_true_eq] at hm
  rw [pmux, hm]

/-! ### The comparison of the tags -/

/-- The registers of the first stage show the set of the request as it is in the RAMs. -/
structure Fresh (S : ℕ) (s : Dcache n) : Prop where
  lineAddr : s.s1o.lineAddr = setOf S s.s1o.vpo.toNat
  tagV : ∀ w, s.s1oTagV w = s.tagV w s.s1o.lineAddr
  d : ∀ w, s.s1oD w = s.d w s.s1o.lineAddr

/-- A way hits if it holds the line of the address. -/
theorem hitVec_iff (hS : S ≤ 7) (hf : s.Fresh S) (w : Fin n) : s.s2iHitVec S x w = true ↔
    (s.contents S).line (w, setFin S (s.s2iPaddr x).toNat) = some ((s.s2iPaddr x).toNat / 64) := by
  rw [line_eq_some_iff, s2iHitVec, hf.tagV, hf.lineAddr, setOf_s2iPaddr hS]
  obtain ⟨t, v⟩ := s.tagV w (setOf S s.s1o.vpo.toNat)
  cases v <;> simp

/-- The line of an access that does not hit is nowhere. -/
theorem absent_of_not_hit (hS : S ≤ 7) (hf : s.Fresh S) (hm : s.s2iHit S x = false)
    (b : Fin n × Fin (2 ^ S)) : (s.contents S).line b ≠ some ((s.s2iPaddr x).toNat / 64) := by
  obtain ⟨w, i⟩ := b
  intro hb
  have hi : i = setFin S (s.s2iPaddr x).toNat := Fin.ext (set_of_line hb)
  rw [hi] at hb
  have hne : ¬ ∃ w, s.s2iHitVec S x w = true := by simpa [s2iHit] using hm
  exact hne ⟨w, (hitVec_iff hS hf w).2 hb⟩

/-- Exactly one way hits. -/
theorem hitVec_unique (hS : S ≤ 7) (hf : s.Fresh S)
    (hu : ∀ a b l, (s.contents S).line a = some l → (s.contents S).line b = some l → a = b)
    (hh : s.s2iHit S x = true) : ∃ hw, (∀ w, s.s2iHitVec S x w = decide (w = hw)) ∧
      (s.contents S).line (hw, setFin S (s.s2iPaddr x).toNat) = some
      ((s.s2iPaddr x).toNat / 64) := by
  obtain ⟨hw, hhw⟩ : ∃ w, s.s2iHitVec S x w = true := by simpa [s2iHit] using hh
  have hline := (hitVec_iff hS hf hw).1 hhw
  refine ⟨hw, fun w => ?_, hline⟩
  rw [Bool.eq_iff_iff, decide_eq_true_iff]
  constructor
  · intro h'
    exact congrArg Prod.fst (hu _ _ _ ((hitVec_iff hS hf w).1 h') hline)
  · rintro rfl
    exact hhw

/-- The tags that the next request has read. -/
theorem fresh_next_idle (hst : s.state = .idle) : (s.next S x).Fresh S := by
  have hce : s.pCe = true := by simp [pCe, stallReq, hst]
  have hre : s.s1iTagVRe = true := by simp [s1iTagVRe, hce]
  have hla : s.s1iLineAddr S x = setOf S x.vpo.toNat := by simp [s1iLineAddr, hst]
  have hl : (s.next S x).s1o.lineAddr = s.s1iLineAddr S x := by rw [next_s1o_of_idle hst, s1oNxt]
  refine ⟨?_, fun w => ?_, fun w => ?_⟩
  · rw [hl, hla, next_s1o_of_idle hst]
    rfl
  · rw [hl, next_s1oTagV hre, next_tagV (by simp [hst])]
  · rw [hl, next_s1oD hre]

/-- The registers of the second stage after a miss. -/
theorem missed_next_idle (hS : S ≤ 7) (hst : s.state = .idle)
    (hl : s.s1o.lineAddr = setOf S s.s1o.vpo.toNat)
    (hfls : s.s1o.fls = false) (hu : x.uncached = false) {k : Fin n}
    (hk : ∀ w, s.freeWay w = decide (w = k)) : (s.next S x).Missed S k := by
  have hre : s.s2iWbRe x = false := by simp [s2iWbRe, awSet, hst]
  have hs2 : (s.next S x).s2o = s.s2oNxt S x := next_s2o_of_idle hst
  refine ⟨?_, ?_, ?_, ?_, ?_⟩
  · intro w
    rw [hs2]
    exact hk w
  · rw [hs2]
    exact hfls
  · rw [hs2]
    exact hu
  · rw [hs2]
    exact hl.trans (setOf_s2iPaddr hS).symm
  · rw [hs2]
    change s.s2iPayloadAddr S x = (setOf S (s.s2iPaddr x).toNat, wordOf (s.s2iPaddr x).toNat)
    rw [s2iPayloadAddr, hre, hst, if_neg Bool.false_ne_true, setOf_s2iPaddr hS, wordOf_s2iPaddr]

theorem Missed.next {fw : Fin n} (h : s.Missed S fw) (hst : s.state ≠ .idle) :
    (s.next S x).Missed S fw ∧ (s.next S x).slot S fw = s.slot S fw := by
  have hs2 : (s.next S x).s2o = s.s2o := next_s2o_of_stall hst
  refine ⟨⟨?_, ?_, ?_, ?_, ?_⟩, ?_⟩
  · rw [hs2]
    exact h.way
  · rw [hs2]
    exact h.fls
  · rw [hs2]
    exact h.uncached
  · rw [hs2]
    exact h.lineAddr
  · rw [hs2]
    exact h.payloadAddr
  · rw [slot, slot, hs2]

/-- The victim's slot is given to the new line. -/
theorem contents_next_replace {fw : Fin n} (h : s.Missed S fw) (hst : s.state = .replace) :
    (s.next S x).contents S = (s.contents S).evict (s.slot S fw) (s.s2o.paddr.toNat / 64) := by
  have hla : s.s1iLineAddr S x = setOf S s.s2o.paddr.toNat := by
    rw [← h.lineAddr]
    simp [s1iLineAddr, hst]
  have hslot : ∀ b : Fin n × Fin (2 ^ S), b.1 = fw ∧ (b.2 : ℕ) = setOf S s.s2o.paddr.toNat ↔
      b = s.slot S fw := by
    intro b
    rw [slot, Prod.ext_iff, Fin.ext_iff (a := b.2)]
    rfl
  have ht : ∀ b : Fin n × Fin (2 ^ S), (s.next S x).tagV b.1 b.2 =
      if b = s.slot S fw then (tagOf S s.s2o.paddr.toNat, true) else s.tagV b.1 b.2 := by
    intro b
    change (if s.s1iTagVWe b.1 = true ∧ (b.2 : ℕ) = s.s1iLineAddr S x then s.s1iReplaceTagV S
      else s.tagV b.1 b.2) = _
    rw [show s.s1iTagVWe b.1 = decide (b.1 = fw) by simp [s1iTagVWe, hst, h.way], hla,
      show s.s1iReplaceTagV S = (tagOf S s.s2o.paddr.toNat, true) by simp [s1iReplaceTagV, hst]]
    simp only [decide_eq_true_iff, hslot b]
  have hd : ∀ b : Fin n × Fin (2 ^ S), (s.next S x).d b.1 b.2 =
      if b = s.slot S fw then false else s.d b.1 b.2 := by
    intro b
    change (if s.s2iDWe S x b.1 = true ∧ (b.2 : ℕ) = s.s2iDWaddr S x then s.s2iDWdat b.1
      else s.d b.1 b.2) = _
    rw [show s.s2iDWe S x b.1 = decide (b.1 = fw) by
        simp [s2iDWe, hst, h.way, s2iReady_of_state],
      show s.s2iDWaddr S x = setOf S s.s2o.paddr.toNat by simp [s2iDWaddr, hst, hla],
      show s.s2iDWdat b.1 = false by simp [s2iDWdat, hst]]
    simp only [decide_eq_true_iff, hslot b]
  have hpay := next_pay (S := S) (s := s) (x := x) (s2iReady_of_state (by simp [hst]))
    (by simp [hst])
  rw [Contents.evict]
  simp only [contents, hpay, Contents.mk.injEq, and_true]
  constructor
  · funext b
    rw [ht, Function.update_apply]
    by_cases hb : b = s.slot S fw
    · rw [if_pos hb, if_pos hb, if_pos rfl, hb, slot, setFin, tagOf_mul_add_setOf]
    · rw [if_neg hb, if_neg hb]
  · funext b
    rw [hd, Function.update_apply]

/-! ### The write of an access -/

/-- The access that hits in this cycle. -/
def hitAccess (s : Dcache n) (x : DcIn n) : DcAccess :=
  ⟨(s.s2iPaddr x).toNat, s.s1o.wmsk, s.s1o.wdat⟩
/-- The access that a refill was for. -/
def missAccess (s : Dcache n) : DcAccess := ⟨s.s2o.paddr.toNat, s.s2o.wmsk, s.s2o.wdat⟩
/-- The bytes of an access go to way `w₀`, whose dirty flag becomes `e`, or is set by a store. -/
structure Wrote (S : ℕ) (s s' : Dcache n) (a : DcAccess) (w₀ : Fin n) (e : Bool) : Prop where
  tagV : s'.tagV = s.tagV
  d : ∀ w i, s'.d w i =
    if w = w₀ ∧ i = setOf S a.addr then e || decide (a.wmsk ≠ 0) else s.d w i
  pay : ∀ w b j, s'.pay w b j =
    if w = w₀ ∧ a.wmsk.getLsbD j = true ∧ b = (setOf S a.addr, wordOf a.addr) then byteOf a.wdat j
    else s.pay w b j

/-- What an access that hits writes, and what it reads if it is a load. -/
theorem wrote_hit (hS : S ≤ 7) (hf : s.Fresh S) (hst : s.state = .idle)
    (hready : s.s2iReady S x = true)
    {hw : Fin n} (hvec : ∀ w, s.s2iHitVec S x w = decide (w = hw)) :
    s.Wrote S (s.next S x) (s.hitAccess x) hw (s.d hw (setOf S (s.s2iPaddr x).toNat)) ∧
      (s.s1o.wmsk = 0 → (s.next S x).s2oMatchPayload =
        s.pay hw (setOf S (s.s2iPaddr x).toNat, wordOf (s.s2iPaddr x).toNat)) := by
  have hset := setOf_s2iPaddr (s := s) (x := x) hS
  have hre : s.s2iWbRe x = false := by simp [s2iWbRe, awSet, hst]
  have hce : s.pCe = true := by simp [pCe, stallReq, hst]
  have haddr : s.s2iPayloadAddr S x =
      (setOf S (s.s2iPaddr x).toNat, wordOf (s.s2iPaddr x).toNat) := by
    rw [s2iPayloadAddr, hre, hst, if_neg Bool.false_ne_true, hset, wordOf_s2iPaddr]
  have hwe : ∀ w, s.s2iPayloadWe S x w = if w = hw then s.s1o.wmsk else 0 := by
    intro w
    simp [s2iPayloadWe, s2iPayloadTgtWe, hready, hvec, hst]
  refine ⟨⟨next_tagV (by simp [hst]), fun w i => ?_, fun w b j => ?_⟩, fun hm => ?_⟩
  · change (if s.s2iDWe S x w = true ∧ i = s.s2iDWaddr S x then s.s2iDWdat w else s.d w i) = _
    have h₁ : s.s2iDWe S x w = decide (w = hw) := by simp [s2iDWe, hready, hvec, hst]
    have h₂ : s.s2iDWaddr S x = setOf S (s.s2iPaddr x).toNat := by
      rw [hset, ← hf.lineAddr]
      simp [s2iDWaddr, hst]
    have h₃ : s.s2iDWdat w = (s.d w (setOf S (s.s2iPaddr x).toNat) || decide (s.s1o.wmsk ≠ 0)) := by
      rw [hset, ← hf.lineAddr, ← hf.d w]
      simp [s2iDWdat, hst]
    rw [h₁, h₂, h₃]
    simp only [decide_eq_true_iff]
    by_cases hww : w = hw
    · rw [hww]
      rfl
    · rw [if_neg (fun hc => hww hc.1), if_neg (fun hc => hww hc.1)]
  · change (if (s.s2iPayloadWe S x w).getLsbD j = true ∧ b = s.s2iPayloadAddr S x then
      s.s2iPayloadDin x j else s.pay w b j) = _
    rw [hwe, haddr, show s.s2iPayloadDin x j = byteOf s.s1o.wdat j by simp [s2iPayloadDin, hst]]
    by_cases hww : w = hw <;> simp [hww, hitAccess]
  · have hmv : (s.next S x).s2oMatchVec = s.s2iHitVec S x := by
      change ldff s.s2iMatchVecCe (s.s2iMatchVec S x) _ = _
      rw [s2iMatchVecCe, hce]
      funext w
      simp [s2iMatchVec, hst]
    have hq : (s.next S x).payQ hw = s.pay hw (s.s2iPayloadAddr S x) := by
      change (if s.s2iPayloadWe S x hw ≠ 0 then _ else s.pay hw (ldff (s.s2iPayloadRe x) _ _)) = _
      rw [hwe, if_pos rfl, hm, if_neg (by simp), s2iPayloadRe, hce]
      rfl
    rw [s2oMatchPayload, hmv, pmux_of_unique hvec, hq, haddr]

/-- What the access that a refill was for writes, and what it reads if it is a load. -/
theorem wrote_reload {fw : Fin n} (h : s.Missed S fw) (hst : s.state = .reload) :
    s.Wrote S (s.next S x) s.missAccess fw (s.s2o.d fw) ∧
      (s.s2o.wmsk = 0 → (s.next S x).s2oMatchPayload =
        s.pay fw (setOf S s.s2o.paddr.toNat, wordOf s.s2o.paddr.toNat)) := by
  have hready : s.s2iReady S x = false := s2iReady_of_state (by simp [hst])
  have hre : s.s2iWbRe x = false := by simp [s2iWbRe, awSet, hst]
  have haddr : s.s2iPayloadAddr S x = (setOf S s.s2o.paddr.toNat, wordOf s.s2o.paddr.toNat) := by
    rw [s2iPayloadAddr, hre, hst, if_neg Bool.false_ne_true]
    exact h.payloadAddr
  have hwe : ∀ w, s.s2iPayloadWe S x w = if w = fw then s.s2o.wmsk else 0 := by
    intro w
    simp [s2iPayloadWe, s2iPayloadTgtWe, hready, hst, h.way]
  refine ⟨⟨next_tagV (by simp [hst]), fun w i => ?_, fun w b j => ?_⟩, fun hm => ?_⟩
  · change (if s.s2iDWe S x w = true ∧ i = s.s2iDWaddr S x then s.s2iDWdat w else s.d w i) = _
    have h₁ : s.s2iDWe S x w = decide (w = fw) := by simp [s2iDWe, hready, hst, h.way]
    have h₂ : s.s2iDWaddr S x = setOf S s.s2o.paddr.toNat := by
      rw [← h.lineAddr]
      simp [s2iDWaddr, hst]
    have h₃ : s.s2iDWdat w = (s.s2o.d w || decide (s.s2o.wmsk ≠ 0)) := by simp [s2iDWdat, hst]
    rw [h₁, h₂, h₃]
    simp only [decide_eq_true_iff]
    by_cases hww : w = fw
    · rw [hww]
      rfl
    · rw [if_neg (fun hc => hww hc.1), if_neg (fun hc => hww hc.1)]
  · change (if (s.s2iPayloadWe S x w).getLsbD j = true ∧ b = s.s2iPayloadAddr S x then
      s.s2iPayloadDin x j else s.pay w b j) = _
    rw [hwe, haddr, show s.s2iPayloadDin x j = byteOf s.s2o.wdat j by simp [s2iPayloadDin, hst]]
    by_cases hww : w = fw <;> simp [hww, missAccess]
  · have hmv : (s.next S x).s2oMatchVec = s.s2o.fsmFreeWay := by
      change ldff s.s2iMatchVecCe (s.s2iMatchVec S x) _ = _
      rw [show s.s2iMatchVecCe = true by simp [s2iMatchVecCe, hst]]
      funext w
      simp [s2iMatchVec, hst]
    have hq : (s.next S x).payQ fw = s.pay fw (s.s2iPayloadAddr S x) := by
      change (if s.s2iPayloadWe S x fw ≠ 0 then _ else s.pay fw (ldff (s.s2iPayloadRe x) _ _)) = _
      rw [hwe, if_pos rfl, hm, if_neg (by simp),
        show s.s2iPayloadRe x = true by simp [s2iPayloadRe, hst]]
      rfl
    rw [s2oMatchPayload, hmv, pmux_of_unique h.way, hq, haddr]

/-- The set that a reload reads is fresh again. -/
theorem fresh_next_reload (hst : s.state = .reload)
    (hl : s.s1o.lineAddr = setOf S s.s1o.vpo.toNat) : (s.next S x).Fresh S := by
  have hre : s.s1iTagVRe = true := by simp [s1iTagVRe, hst]
  have hla : s.s1iLineAddr S x = s.s1o.lineAddr := by simp [s1iLineAddr, hst]
  have hs1 : (s.next S x).s1o = s.s1o := next_s1o_of_stall (by simp [hst])
  refine ⟨by rw [hs1, hl], fun w => ?_, fun w => ?_⟩
  · rw [next_s1oTagV hre, hs1, next_tagV (by simp [hst]), hla]
  · rw [next_s1oD hre, hs1, hla]

/-! ### The word of a refill -/

/-- A cycle of a refill writes the word that the bus shows, to the ways that are being replaced. -/
theorem next_pay_refill {c : ℕ} (hst : s.state = .refill) (hc : s.refillCnt = 4 * c) (w : Fin n)
    (b : ℕ × ℕ) {j : ℕ} (hj : j < 4) : (s.next S x).pay w b j =
      if s.s2o.fsmFreeWay w = true ∧ b = (setOf S s.s2o.paddr.toNat, c) then x.axi.rData
      (4 * (c % 2) + j) else s.pay w b j := by
  have hready : s.s2iReady S x = false := s2iReady_of_state (by simp [hst])
  have hwe : s.s2iPayloadWe S x w = if s.s2o.fsmFreeWay w = true then 0b1111 else 0 := by
    simp [s2iPayloadWe, s2iPayloadTgtWe, hready, hst]
  have haddr : s.s2iPayloadAddr S x = (setOf S s.s2o.paddr.toNat, c) := by
    have hre : s.s2iWbRe x = false := by simp [s2iWbRe, awSet, hst]
    simp [s2iPayloadAddr, hre, hst, hc]
  change (if (s.s2iPayloadWe S x w).getLsbD j = true ∧ b = s.s2iPayloadAddr S x then
    s.s2iPayloadDin x j else s.pay w b j) = _
  have hbit : (0b1111 : BitVec 4).getLsbD j = true := by
    obtain rfl | rfl | rfl | rfl : j = 0 ∨ j = 1 ∨ j = 2 ∨ j = 3 := by omega
    all_goals rfl
  have hdin : s.s2iPayloadDin x j = x.axi.rData (4 * (c % 2) + j) := by
    simp [s2iPayloadDin, hst, alignR, hc]
  rw [hwe, haddr, hdin]
  by_cases hw : s.s2o.fsmFreeWay w = true
  · rw [if_pos hw, hbit]
    simp [hw]
  · simp [hw]

/-- A beat of a refill carries the bytes of the memory. -/
theorem BusRefill.rData_eq {c p : ℕ} (hb : s.BusRefill m c) (ha : m.Answers x.axi)
    (hR : s.hdsAxiR x = true)
    (har : s.arAddr = p / 64 * 64) {o : Fin 64} (hlo : 4 * c ≤ o) (hhi : (o : ℕ) < 4 * c + 4) :
    x.axi.rData (4 * (c % 2) + o % 4) = lineMem m.mem (p / 64) o := by
  rw [hdsAxiR, Bool.and_eq_true] at hR
  obtain ⟨-, -, hbyte⟩ := hb.read.data ha hR.1
  have ho := o.isLt
  have hba : (⟨s.arAddr, 15, 2⟩ : AxiBurst).beatAddr c = 64 * (p / 64) + 4 * c := by
    simp only [AxiBurst.beatAddr, har]
    omega
  rw [hba] at hbyte
  have hb' := hbyte (64 * (p / 64) + o) (by omega) (by dsimp only; omega)
  rw [lineMem, ← hb']
  congr 1
  omega

/-- A refill of a single way changes the data of its slot only. -/
theorem contents_next_refill {fw : Fin n} {c : ℕ} (h : s.Missed S fw) (hst : s.state = .refill)
    (hc : s.refillCnt = 4 * c) :
    (s.next S x).contents S = (s.contents S).setData (s.slot S fw) fun o =>
      if (o : ℕ) / 4 = c then x.axi.rData (4 * (c % 2) + o % 4)
      else (s.contents S).data (s.slot S fw) o := by
  have hready : s.s2iReady S x = false := s2iReady_of_state (by simp [hst])
  have htag := next_tagV (S := S) (s := s) (x := x) (by simp [hst])
  have hd := next_d (S := S) (x := x) hready (by simp [hst])
  have hpay : ∀ w b j, j < 4 → (s.next S x).pay w b j =
      if w = fw ∧ b = (setOf S s.s2o.paddr.toNat, c) then x.axi.rData (4 * (c % 2) + j)
      else s.pay w b j := by
    intro w b j hj
    rw [next_pay_refill hst hc w b hj, h.way]
    simp only [decide_eq_true_eq]
  rw [Contents.setData]
  simp only [contents, htag, hd, Contents.mk.injEq, true_and]
  funext b
  rw [Function.update_apply]
  by_cases hb : b = s.slot S fw
  · rw [if_pos hb]
    funext o
    rw [hpay _ _ _ (Nat.mod_lt _ (by omega)), hb]
    simp [slot, setFin]
  · rw [if_neg hb]
    funext o
    rw [hpay _ _ _ (Nat.mod_lt _ (by omega)), if_neg]
    rintro ⟨h₁, h₂⟩
    exact hb (Prod.ext h₁ (Fin.ext (Prod.mk.inj h₂).1))

/-! ### A line on its way to memory -/

/-- The beat that carries word `i` of a line. -/
def wordBeat (data : Fin 64 → Byte) (i : ℕ) : AxiBeat :=
  ⟨fun l => data (Fin.ofNat 64 (4 * i + l % 4)), fun l => decide (i % 2 = l / 4)⟩

/-- The bytes that a beat of a line carries. -/
theorem covers_wordBeat (d : Fin 64 → Byte) (v i p : ℕ) :
    (wordBeat d i).Covers ((⟨64 * v, 15, 2⟩ : AxiBurst).beatAddr i) p ↔ p / 4 = 16 * v + i := by
  simp only [AxiBeat.Covers, wordBeat, AxiBurst.beatAddr, decide_eq_true_eq]
  omega

theorem written_line {d : Fin 64 → Byte} {v k : ℕ} (p : ℕ) (hk : k ≤ 16) :
    (⟨64 * v, 15, 2⟩ : AxiBurst).written (AxiBurst.beats (wordBeat d) k) p =
      if p / 64 = v ∧ p % 64 / 4 < k then some (d (Fin.ofNat 64 (p % 64))) else none := by
  split_ifs with hp
  · rw [AxiBurst.written_of_mem (i := p % 64 / 4) hp.2]
    · simp only [wordBeat]
      congr 3
      omega
    · rw [covers_wordBeat]
      omega
    · intro j _ hc
      rw [covers_wordBeat] at hc
      omega
  · refine AxiBurst.written_eq_none fun i hi hc => hp ?_
    rw [covers_wordBeat] at hc
    omega

/-- The way that a write-back reads: the first of those selected. -/
def wbWay (s : Dcache n) : Fin n := (priorityEncoderGs s.s2iWbWay).1

theorem wbWay_of_unique {a : Fin n} (h : ∀ w, s.s2iWbWay w = decide (w = a)) : s.wbWay = a :=
  pmux_of_unique h id

/-- The words of the line in the slot of way `a` are being sent one after the other, and the payload
RAM shows the next one. -/
structure Streams (S : ℕ) (s : Dcache n) (m : AxiMem) (a : Fin n) : Prop where
  sel : s.wbWay = a
  w : m.w = AxiBurst.beats (wordBeat ((s.contents S).data (s.slot S a))) m.w.length
  reAddr : m.w.length < 16 → s.payReAddr = (setOf S s.s2o.paddr.toNat, m.w.length)
  payQ : m.w.length < 16 → s.payQ a = s.pay a s.payReAddr

/-- The cycle that starts a write-back. -/
theorem Streams.start (hb : s.BusQuiet m) (ha : m.Answers x.axi) (haw : s.awSet = true)
    (hst : s.state = .replace ∨ s.state = .flush) :
    (s.next S x).Streams S (m.next s.axiOut x.axi) (s.next S x).wbWay := by
  have hidle : s.state ≠ .idle := by rcases hst with hst | hst <;> simp [hst]
  have hs2 : (s.next S x).s2o = s.s2o := next_s2o_of_stall hidle
  have hbw := BusQuiet.next_aw (S := S) hb ha haw hst
  have hw0 : (m.next s.axiOut x.axi).w = [] := List.eq_nil_of_length_eq_zero hbw.write.length
  have hre : s.s2iWbRe x = true := by rcases hst with hst | hst <;> simp [s2iWbRe, haw, hst]
  have hready : s.s2iReady S x = false := s2iReady_of_state hidle
  have hpay := next_pay (S := S) (s := s) (x := x) hready
    (by rcases hst with hst | hst <;> simp [hst])
  refine ⟨rfl, ?_, fun _ => ?_, fun _ => ?_⟩
  · rw [hw0]
    rfl
  · change s.payReAddrNxt S x = _
    rw [hs2, hw0, payReAddrNxt, s2iPayloadRe, hre, s2iPayloadAddr, hre, hb.refillCnt]
    simp
  · rw [hpay]
    change (if s.s2iPayloadWe S x _ ≠ 0 then _ else s.pay _ (s.payReAddrNxt S x)) = _
    rw [if_neg (by rcases hst with hst | hst <;> simp [s2iPayloadWe, hst, hready])]
    rfl

/-- The beat on the bus is the next word of the line. -/
theorem Streams.wBeat {a : Fin n} {k : ℕ} (h : s.Streams S m a) (hst : s.state = .writeback)
    (hb : s.BusWriteback m k) (hk : k < 16) :
    s.wBeat = wordBeat ((s.contents S).data (s.slot S a)) k := by
  have hlen : m.w.length = k := hb.write.length
  have hre := h.reAddr (by rw [hlen]; exact hk)
  have hq := h.payQ (by rw [hlen]; exact hk)
  have hway : s.s2oWbPayload = s.payQ a := by
    rw [← h.sel]
    rfl
  rw [Dcache.wBeat, if_pos hst, wordBeat, hway, hq, hre, hb.wbAddr hk, AxiBeat.mk.injEq, hlen]
  constructor
  · funext l
    simp only [contents, slot, setFin, Fin.val_ofNat]
    congr 1
    · congr 1
      omega
    · omega
  · funext l
    congr 2
    omega

theorem next_s2iWbWay (hst : s.state = .writeback) : (s.next S x).s2iWbWay = s.s2iWbWay := by
  have hs2 : (s.next S x).s2o = s.s2o := next_s2o_of_stall (by simp [hst])
  have hmv : (s.next S x).s2oMatchVec = s.s2oMatchVec := by
    change ldff s.s2iMatchVecCe _ _ = _
    simp [s2iMatchVecCe, pCe, stallReq, hst]
  funext w
  rw [s2iWbWay, s2iWbWay, hs2, hmv]

/-- A cycle without the response. -/
theorem Streams.next {a : Fin n} {k : ℕ} (h : s.Streams S m a) (hst : s.state = .writeback)
    (hb : s.BusWriteback m k) (hB : s.hdsAxiB x = false) :
    (s.next S x).Streams S (m.next s.axiOut x.axi) a := by
  have hlen : m.w.length = k := hb.write.length
  have hs2 : (s.next S x).s2o = s.s2o := next_s2o_of_stall (by simp [hst])
  have hready : s.s2iReady S x = false := s2iReady_of_state (by simp [hst])
  have hc := contents_next (S := S) (x := x) hready (by simp [hst])
  have hpay := next_pay (S := S) (x := x) hready (by simp [hst])
  have hslot : (s.next S x).slot S a = s.slot S a := by rw [slot, slot, hs2]
  have hw : (m.next s.axiOut x.axi).w = AxiBurst.beats
      (wordBeat ((s.contents S).data (s.slot S a))) (k + (s.hdsAxiW x).toNat) := by
    have hwk := h.w
    rw [hlen] at hwk
    have hB' : (x.axi.bValid && s.axiOut.bReady) = false := by
      rw [Bool.and_comm]
      exact hB
    change (if s.hdsAxiW x then s.wBeat :: m.w else if _ then [] else m.w) = _
    cases hW : s.hdsAxiW x with
    | false =>
        rw [hB']
        exact hwk
    | true =>
        have hk : k < 16 := by
          have hv : s.wValid = decide (k ≤ 15) := hb.write.wValid
          rw [hdsAxiW, Bool.and_eq_true, hv, decide_eq_true_iff] at hW
          omega
        rw [h.wBeat hst hb hk, if_pos rfl, hwk]
        exact (AxiBurst.beats_succ _ k).symm
  have hlen' : (m.next s.axiOut x.axi).w.length = k + (s.hdsAxiW x).toNat := by
    rw [hw, AxiBurst.length_beats]
  have hre : s.s2iWbRe x = (s.hdsAxiW x && decide (k < 15)) := by
    rw [s2iWbRe, hb.refillCnt]
    split_ifs with hk <;> simp [hk, awSet, hst]
  refine ⟨?_, ?_, fun hk => ?_, fun _ => ?_⟩
  · rw [← h.sel, wbWay, wbWay, next_s2iWbWay hst]
  · rw [hc, hslot, hw, AxiBurst.length_beats]
  · rw [hlen'] at hk ⊢
    change s.payReAddrNxt S x = _
    rw [payReAddrNxt, s2iPayloadRe, hre, hs2, s2iPayloadAddr, hre, hb.refillCnt]
    cases hW : s.hdsAxiW x with
    | false =>
        rw [hW] at hk
        simp [pCe, stallReq, hst, h.reAddr (by rw [hlen]; exact hk), hlen]
    | true =>
        rw [hW] at hk
        have : k < 15 := Nat.lt_of_succ_lt_succ hk
        simp [pCe, stallReq, hst, this]
  · rw [hpay]
    change (if s.s2iPayloadWe S x a ≠ 0 then _ else s.pay a (s.payReAddrNxt S x)) = _
    rw [if_neg (by simp [s2iPayloadWe, hst, hready])]
    rfl

/-- The line in the slot of way `a` is being written to line `v` of the memory. -/
structure Sends (S : ℕ) (s : Dcache n) (m : AxiMem) (a : Fin n) (v : ℕ) : Prop where
  way : ∀ w, s.s2iWbWay w = decide (w = a)
  addr : s.awAddr = 64 * v
  w : m.w = AxiBurst.beats (wordBeat ((s.contents S).data (s.slot S a))) m.w.length
  reAddr : m.w.length < 16 → s.payReAddr = (setOf S s.s2o.paddr.toNat, m.w.length)
  payQ : m.w.length < 16 → s.payQ a = s.pay a s.payReAddr

theorem Sends.streams {a : Fin n} {v : ℕ} (h : s.Sends S m a v) : s.Streams S m a :=
  ⟨wbWay_of_unique h.way, h.w, h.reAddr, h.payQ⟩

theorem Streams.sends {a : Fin n} {v : ℕ} (h : s.Streams S m a)
    (hway : ∀ w, s.s2iWbWay w = decide (w = a)) (hv : s.awAddr = 64 * v) : s.Sends S m a v :=
  ⟨hway, hv, h.w, h.reAddr, h.payQ⟩

theorem Sends.start {a : Fin n} {v : ℕ} (hb : s.BusQuiet m) (ha : m.Answers x.axi)
    (haw : s.awSet = true) (hst : s.state = .replace ∨ s.state = .flush)
    (hway : ∀ w, (s.next S x).s2iWbWay w = decide (w = a)) (hv : s.axiPaddrNxt S = 64 * v) :
    (s.next S x).Sends S (m.next s.axiOut x.axi) a v := by
  have h := Streams.start (S := S) hb ha haw hst
  rw [wbWay_of_unique hway] at h
  refine h.sends hway ?_
  change ldff s.awSet (s.axiPaddrNxt S) _ = _
  rw [haw, ldff_true, hv]

/-- What the memory has been sent of the line. -/
theorem Sends.incoming {a : Fin n} {v k : ℕ} (h : s.Sends S m a v) (hb : s.BusWriteback m k)
    {p : ℕ} {u : Byte} (hu : m.incoming p = some u) :
    p / 64 = v ∧ u = (s.contents S).data (s.slot S a) (Fin.ofNat 64 p) := by
  have hlen : m.w.length = k := hb.write.length
  have hle : k ≤ 16 := hb.write.le
  have hw := h.w
  rw [hlen] at hw
  rw [AxiMem.incoming, hb.write.mAw] at hu
  split_ifs at hu
  · cases hu
  · rw [Option.bind_some, h.addr, hw, written_line p hle] at hu
    split_ifs at hu with hp
    rw [Option.some_inj] at hu
    refine ⟨hp.1, ?_⟩
    have hidx : Fin.ofNat 64 (p % 64) = Fin.ofNat 64 p := by
      refine Fin.ext ?_
      simp only [Fin.val_ofNat]
      omega
    rw [← hu, hidx]

theorem Sends.next {a : Fin n} {v k : ℕ} (h : s.Sends S m a v) (hst : s.state = .writeback)
    (hb : s.BusWriteback m k) (hB : s.hdsAxiB x = false) :
    (s.next S x).Sends S (m.next s.axiOut x.axi) a v := by
  refine (h.streams.next hst hb hB).sends (fun w => ?_) ?_
  · rw [next_s2iWbWay hst, h.way]
  · change ldff s.awSet _ _ = _
    rw [show s.awSet = false by simp [awSet, hst]]
    exact h.addr

/-- The memory changes in the line that is sent only. -/
theorem Sends.mem_next {a : Fin n} {v k : ℕ} (h : s.Sends S m a v) (hb : s.BusWriteback m k) {l : ℕ}
    (hl : l ≠ v) : lineMem (m.next s.axiOut x.axi).mem l = lineMem m.mem l := by
  funext o
  have ho := o.isLt
  refine AxiMem.next_mem_of_incoming ?_ _ _
  cases hi : m.incoming (64 * l + o) with
  | none => rfl
  | some u =>
      have := (h.incoming hb hi).1
      omega

/-- When the response comes, the line is in memory, and stays as it is in that cycle. -/
theorem Sends.landed {a : Fin n} {v k : ℕ} (h : s.Sends S m a v) (hb : s.BusWriteback m k)
    (ha : m.Answers x.axi) (hB : s.hdsAxiB x = true) :
    lineMem (m.next s.axiOut x.axi).mem v = (s.contents S).data (s.slot S a) := by
  have hB' : x.axi.bValid = true := by
    rw [hdsAxiB, Bool.and_eq_true] at hB
    exact hB.2
  obtain ⟨-, hk, hland⟩ := hb.write.of_bValid ha hB'
  have hk' : k = 16 := hk
  have hlen : m.w.length = 16 := hb.write.length.trans hk'
  have hw := h.w
  rw [hlen] at hw
  funext o
  have ho := o.isLt
  have hidx : Fin.ofNat 64 ((64 * v + (o : ℕ)) % 64) = o := by
    refine Fin.ext ?_
    simp only [Fin.val_ofNat]
    omega
  have hidx' : Fin.ofNat 64 (64 * v + (o : ℕ)) = o := by
    refine Fin.ext ?_
    simp only [Fin.val_ofNat]
    omega
  have hmem : m.mem (64 * v + o) = (s.contents S).data (s.slot S a) o := by
    refine hland _ _ ?_
    rw [h.addr, hw, written_line _ le_rfl, if_pos (by omega), hidx]
  refine AxiMem.next_mem_eq hmem (fun u hu => ?_) _ _
  rw [(h.incoming hb hu).2, hidx']

end Dcache

end NanoCpu
