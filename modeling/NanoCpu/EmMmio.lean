/-
**The device registers of the emulator's memory** (`em/csrc/memory.cc`).

The handlers of an access width are a list, the last one registered first.  A registration panics if
its range overlaps one of the same direction; an access goes to the first handler of its direction
whose range holds the address.  The test for an overlap is strict at both ends where the ranges are
inclusive: two ranges that share nothing but an end, the one's last address and the other's first,
pass it.

Main definitions:

* `MmioNode` — a registered range; `mmioAppendNode`, `matchMmioHandler` — registration and lookup;
* `MmioDomains`, `MmioDomains.registers` — the lists of the four widths, and a sequence of
  registrations;
* `Unambiguous` — every address has one handler at most, whatever the order of the registrations,
  and a registration is rejected exactly if it shares an address with an earlier one;
* `MmioDomains.EndsApart` — the ends of a range that is let in are no ends of another.

Main results:

* `overlapped_iff` — what the test for an overlap decides;
* `MmioDomains.apart_of_registers` — ranges whose ends are apart stay apart;
* `matchMmioHandler_perm` — the lookup in lists of ranges that are apart;
* `unambiguous_iff` — **the dispatch is unambiguous along a run exactly if the ends are apart at
  every registration of it**.
-/

import NanoCpu.EmMemory

set_option relaxedAutoImplicit false
set_option autoImplicit false

namespace NanoCpu

/-! ### Registration and lookup -/

/-- `mmio_node`: an inclusive range of addresses, and the callback with its object. -/
structure MmioNode (κ : Type) where
  write : Bool
  startAddr : Word
  endAddr : Word
  le : startAddr ≤ endAddr
  callback : κ

/-- The access widths. -/
inductive MmioWidth
  | m8 | m16 | m32 | m64
  deriving DecidableEq

variable {κ : Type}

namespace MmioNode

/-- The test of `match_mmio_handler` for one node. -/
def claims (w : Bool) (addr : Word) (n : MmioNode κ) : Bool :=
  n.write == w && (decide (n.startAddr ≤ addr) && decide (addr ≤ n.endAddr))

/-- The test of `mmio_append_node` for one node. -/
def overlapped (r n : MmioNode κ) : Bool :=
  n.write == r.write && (decide (n.startAddr < r.endAddr) && decide (r.startAddr < n.endAddr))

/-- The two ranges are of one direction and have an address in common. -/
def Shares (r n : MmioNode κ) : Prop :=
  n.write = r.write ∧ ∃ addr, n.claims r.write addr = true ∧ r.claims r.write addr = true

end MmioNode

/-- `mmio_append_node`; none is the panic. -/
def mmioAppendNode (domain : List (MmioNode κ)) (r : MmioNode κ) : Option (List (MmioNode κ)) :=
  if domain.any r.overlapped then none else some (r :: domain)

/-- `match_mmio_handler`; the outer none is the panic. -/
def matchMmioHandler (base endAddr : Word) (domain : List (MmioNode κ)) (addr : Word) (w : Bool) :
    Option (Option (MmioNode κ)) :=
  if base ≤ addr ∧ addr ≤ endAddr then (domain.find? (MmioNode.claims w addr)).map some
    else some none

/-- The lists of the four widths. -/
abbrev MmioDomains (κ : Type) := MmioWidth → List (MmioNode κ)

namespace MmioDomains

/-- No list has a node: so the constructor leaves `mmio8`, `mmio16` and `mmio32`; it does not set
`mmio64`. -/
def empty : MmioDomains κ := fun _ => []

/-- `mmio_register_writem8`, …, `mmio_register_readm64`. -/
def register (d : MmioDomains κ) (r : MmioWidth × MmioNode κ) : Option (MmioDomains κ) :=
  (mmioAppendNode (d r.1) r.2).map fun l => Function.update d r.1 l

/-- The registrations one after the other. -/
def registers (d : MmioDomains κ) (regs : List (MmioWidth × MmioNode κ)) : Option (MmioDomains κ) :=
  regs.foldlM register d

/-- No range of the same width and direction begins where the new one ends, or ends where it begins,
unless the new one is rejected. -/
def EndsApart (d : MmioDomains κ) (r : MmioWidth × MmioNode κ) : Prop :=
  (d r.1).any r.2.overlapped = true ∨
    ∀ n ∈ d r.1, n.write = r.2.write → n.startAddr ≠ r.2.endAddr ∧ n.endAddr ≠ r.2.startAddr

end MmioDomains

open MmioDomains

/-- **What the dispatch is for.**  After every registration that was let in: an address has one
handler at most of each width and direction; other orders of the same registrations lead to the same
lookups; and the next registration is rejected exactly if it shares an address with an earlier one
of its width and direction. -/
structure Unambiguous (regs : List (MmioWidth × MmioNode κ)) : Prop where
  one : ∀ k d, registers empty (regs.take k) = some d →
    ∀ width w addr, (d width).countP (MmioNode.claims w addr) ≤ 1
  order : ∀ k d, registers empty (regs.take k) = some d → ∀ regs' d', regs'.Perm (regs.take k) →
    registers empty regs' = some d' → ∀ base endAddr width addr w,
      matchMmioHandler base endAddr (d' width) addr w = matchMmioHandler base endAddr
        (d width) addr w
  rejected : ∀ k d, registers empty (regs.take k) = some d → ∀ r, regs[k]? = some r →
    (register d r = none ↔ ∃ q ∈ regs.take k, q.1 = r.1 ∧ r.2.Shares q.2)

/-! ### Two ranges -/

namespace MmioNode

variable {n r : MmioNode κ}

theorem shares_iff : r.Shares n ↔ n.write = r.write ∧ n.startAddr ≤ r.endAddr ∧
    r.startAddr ≤ n.endAddr := by
  have hn := n.le
  have hr := r.le
  unfold Shares claims
  constructor
  · rintro ⟨hw, addr, h₁, h₂⟩
    simp only [Bool.and_eq_true, beq_iff_eq, decide_eq_true_eq] at h₁ h₂
    exact ⟨hw, by bv_omega, by bv_omega⟩
  · rintro ⟨hw, h₁, h₂⟩
    -- the later of the two beginnings is in both
    refine ⟨hw, ?_⟩
    by_cases h : n.startAddr ≤ r.startAddr
    · exact ⟨r.startAddr, by simp [hw, h, h₂], by simp [hr]⟩
    · have h' : r.startAddr ≤ n.startAddr := by bv_omega
      exact ⟨n.startAddr, by simp [hw, hn], by simp [h', h₁]⟩

/-- **What the test for an overlap decides**: the ranges share more than an end. -/
theorem overlapped_iff : r.overlapped n = true ↔
    n.write = r.write ∧ n.startAddr < r.endAddr ∧ r.startAddr < n.endAddr := by
  simp [overlapped]

theorem shares_of_overlapped (h : r.overlapped n = true) : r.Shares n := by
  rw [overlapped_iff] at h
  obtain ⟨hw, h₁, h₂⟩ := h
  exact shares_iff.2 ⟨hw, by bv_omega, by bv_omega⟩

/-- A shared address that the test misses is an end of both ranges. -/
theorem not_shares (h : r.overlapped n = false)
    (hends : n.write = r.write → n.startAddr ≠ r.endAddr ∧ n.endAddr ≠ r.startAddr) :
    ¬ r.Shares n := by
  intro hs
  obtain ⟨hw, h₁, h₂⟩ := shares_iff.1 hs
  obtain ⟨he₁, he₂⟩ := hends hw
  have ho : r.overlapped n = true := overlapped_iff.2 ⟨hw, by bv_omega, by bv_omega⟩
  rw [h] at ho
  cases ho

end MmioNode

/-! ### A sequence of registrations -/

theorem register_eq_some {d d' : MmioDomains κ} {r : MmioWidth × MmioNode κ}
    (h : register d r = some d') :
    (d r.1).any r.2.overlapped = false ∧ d' = Function.update d r.1 (r.2 :: d r.1) := by
  obtain ⟨l, hl, rfl⟩ := Option.map_eq_some_iff.1 h
  unfold mmioAppendNode at hl
  split at hl
  · cases hl
  · rename_i hn
    exact ⟨by simpa using hn, by rw [Option.some.inj hl]⟩

theorem register_eq_none {d : MmioDomains κ} {r : MmioWidth × MmioNode κ} :
    register d r = none ↔ (d r.1).any r.2.overlapped = true := by
  unfold register mmioAppendNode
  cases (d r.1).any r.2.overlapped with
  | false => simp
  | true => simp

theorem registers_append (d : MmioDomains κ) (regs : List (MmioWidth × MmioNode κ))
    (r : MmioWidth × MmioNode κ) :
    registers d (regs ++ [r]) = (registers d regs).bind fun d => register d r := by
  unfold registers
  rw [List.foldlM_append]
  refine congrArg _ (funext fun d => ?_)
  rw [List.foldlM_cons]
  cases register d r <;> rfl

/-- The lists hold what was registered, the last first. -/
theorem registers_eq {regs : List (MmioWidth × MmioNode κ)} {d : MmioDomains κ}
    (h : registers empty regs = some d) (width : MmioWidth) :
    d width = ((regs.filter fun r => r.1 = width).map Prod.snd).reverse := by
  induction regs using List.reverseRecOn generalizing d with
  | nil =>
      cases h
      rfl
  | append_singleton regs r ih =>
      rw [registers_append, Option.bind_eq_some_iff] at h
      obtain ⟨d₁, h₁, h⟩ := h
      obtain ⟨-, rfl⟩ := register_eq_some h
      rw [List.filter_append, List.map_append, List.reverse_append]
      by_cases hw : r.1 = width
      · subst hw
        rw [Function.update_self, ih h₁]
        simp
      · rw [Function.update_of_ne (Ne.symm hw), ih h₁]
        simp [hw]

theorem mem_registers {regs : List (MmioWidth × MmioNode κ)} {d : MmioDomains κ}
    (h : registers empty regs = some d) {width : MmioWidth} {n : MmioNode κ} :
    n ∈ d width ↔ (width, n) ∈ regs := by
  rw [registers_eq h, List.mem_reverse, List.mem_map]
  constructor
  · rintro ⟨⟨w, n'⟩, hm, rfl⟩
    obtain ⟨hreg, hw⟩ := List.mem_filter.1 hm
    obtain rfl : w = width := by simpa using hw
    exact hreg
  · intro hm
    exact ⟨(width, n), List.mem_filter.2 ⟨hm, by simp⟩, rfl⟩

/-- All ranges of a list are apart. -/
def Apart (l : List (MmioNode κ)) : Prop := l.Pairwise fun r n => ¬ r.Shares n

/-- **Ranges whose ends are apart when they are registered stay apart.** -/
theorem MmioDomains.apart_of_registers {regs : List (MmioWidth × MmioNode κ)}
    (hends : ∀ k r d, regs[k]? = some r → registers empty (regs.take k) = some d → EndsApart d r)
    {d : MmioDomains κ} (h : registers empty regs = some d) (width : MmioWidth) :
    Apart (d width) := by
  induction regs using List.reverseRecOn generalizing d with
  | nil =>
      cases h
      exact List.Pairwise.nil
  | append_singleton regs r ih =>
      rw [registers_append, Option.bind_eq_some_iff] at h
      obtain ⟨d₁, h₁, h⟩ := h
      obtain ⟨hno, rfl⟩ := register_eq_some h
      have hd₁ := ih (fun k q d hk hd => by
        have hlt := (List.getElem?_eq_some_iff.1 hk).1
        exact hends k q d (by rw [List.getElem?_append_left hlt, hk])
          (by rwa [List.take_append_of_le_length hlt.le])) h₁
      by_cases hw : width = r.1
      · subst hw
        rw [Function.update_self]
        refine List.pairwise_cons.2 ⟨fun n hn => ?_, hd₁⟩
        have hr := (hends regs.length r d₁ (by simp) (by simpa using h₁)).resolve_left
          (by simp [hno])
        refine MmioNode.not_shares ?_ (hr n hn)
        rw [List.any_eq_false] at hno
        simpa using hno n hn
      · rw [Function.update_of_ne hw]
        exact hd₁

/-! ### The lookup -/

theorem Apart.countP_le {l : List (MmioNode κ)} (h : Apart l) (w : Bool) (addr : Word) :
    l.countP (MmioNode.claims w addr) ≤ 1 := by
  induction l with
  | nil => exact Nat.zero_le 1
  | cons n l ih =>
      obtain ⟨hn, hl⟩ := List.pairwise_cons.1 h
      rw [List.countP_cons]
      split
      · -- no other range holds an address of this one
        rename_i hc
        have hzero : l.countP (MmioNode.claims w addr) = 0 := by
          rw [List.countP_eq_zero]
          intro q hq hcq
          have hwn : n.write = w := by
            simp only [MmioNode.claims, Bool.and_eq_true, beq_iff_eq] at hc
            exact hc.1
          have hwq : q.write = w := by
            simp only [MmioNode.claims, Bool.and_eq_true, beq_iff_eq] at hcq
            exact hcq.1
          exact hn q hq ⟨hwq.trans hwn.symm, addr, by rw [hwn]; exact hcq, by rw [hwn]; exact hc⟩
        rw [hzero]
      · exact ih hl

theorem find?_eq_of_perm {α : Type*} {p : α → Bool} {l l' : List α} (h : l'.Perm l)
    (hc : l.countP p ≤ 1) : l'.find? p = l.find? p := by
  have hf : (l'.filter p).Perm (l.filter p) := h.filter p
  rw [List.countP_eq_length_filter] at hc
  rw [← List.head?_filter, ← List.head?_filter]
  match hl : l.filter p, hc with
  | [], _ =>
      rw [hl] at hf
      rw [hf.eq_nil]
  | [a], _ =>
      rw [hl] at hf
      rw [List.perm_singleton.1 hf]

/-- The lookup does not depend on the order of ranges that are apart. -/
theorem matchMmioHandler_perm {l l' : List (MmioNode κ)} (h : l'.Perm l) (ha : Apart l)
    (base endAddr addr : Word) (w : Bool) :
    matchMmioHandler base endAddr l' addr w = matchMmioHandler base endAddr l addr w := by
  unfold matchMmioHandler
  rw [find?_eq_of_perm h (ha.countP_le w addr)]

/-- **The dispatch is unambiguous along a run of registrations exactly if the ends are apart at
every one of them.** -/
theorem unambiguous_iff (regs : List (MmioWidth × MmioNode κ)) :
    Unambiguous regs ↔ ∀ k r d, regs[k]? = some r → registers empty (regs.take k) = some d →
      EndsApart d r := by
  constructor
  · intro h k r d hr hd
    by_contra hn
    unfold EndsApart at hn
    push Not at hn
    obtain ⟨hno, n, hn, hw, hends⟩ := hn
    -- the registration is let in, and shares an end
    have hin : register d r ≠ none := by rwa [Ne, register_eq_none]
    refine hin ((h.rejected k d hd r hr).2 ⟨(r.1, n), (mem_registers hd).1 hn, rfl, ?_⟩)
    rw [MmioNode.shares_iff]
    have hle := n.le
    have hle' := r.2.le
    by_cases he : n.startAddr = r.2.endAddr
    · exact ⟨hw, by bv_omega, by bv_omega⟩
    · have he' := hends he
      exact ⟨hw, by bv_omega, by bv_omega⟩
  · intro h
    have hapart : ∀ k d, registers empty (regs.take k) = some d → ∀ width, Apart (d width) := by
      intro k d hd width
      refine apart_of_registers (fun j r d hr hd => ?_) hd width
      have hj : j < k := by
        have := (List.getElem?_eq_some_iff.1 hr).1
        rw [List.length_take] at this
        omega
      rw [List.getElem?_take_of_lt hj] at hr
      rw [List.take_take, Nat.min_eq_left hj.le] at hd
      exact h j r d hr hd
    refine ⟨fun k d hd width w addr => (hapart k d hd width).countP_le w addr, ?_, ?_⟩
    · intro k d hd regs' d' hperm hd' base endAddr width addr w
      refine matchMmioHandler_perm ?_ (hapart k d hd width) base endAddr addr w
      rw [registers_eq hd', registers_eq hd]
      exact (List.reverse_perm _).trans
        (((hperm.filter _).map _).trans (List.reverse_perm _).symm)
    · intro k d hd r hr
      rw [register_eq_none]
      constructor
      · intro hany
        obtain ⟨n, hn, ho⟩ := List.any_eq_true.1 hany
        exact ⟨(r.1, n), (mem_registers hd).1 hn, rfl, MmioNode.shares_of_overlapped ho⟩
      · rintro ⟨⟨width, n⟩, hm, rfl, hs⟩
        have hn : n ∈ d r.1 := (mem_registers hd).2 hm
        rcases h k r d hr hd with hany | hends
        · exact hany
        · by_contra hno
          refine MmioNode.not_shares ?_ (hends n hn) hs
          rw [Bool.not_eq_true, List.any_eq_false] at hno
          simpa using hno n hn

/-- Two devices of which the second begins at the last address of the first. -/
def sharedEnd : List (MmioWidth × MmioNode Bool) :=
  [(.m8, ⟨true, 0x60000000, 0x60000010, by decide, false⟩),
    (.m8, ⟨true, 0x60000010, 0x60000020, by decide, true⟩)]

theorem shared_end : ¬ ∀ (κ : Type) (regs : List (MmioWidth × MmioNode κ)), Unambiguous regs := by
  intro h
  obtain ⟨d, hd⟩ := Option.isSome_iff_exists.1
    (show (registers empty (sharedEnd.take 2)).isSome = true by decide)
  have hone := (h Bool sharedEnd).one 2 d hd .m8 true 0x60000010
  rw [registers_eq hd] at hone
  exact absurd hone (by decide)

end NanoCpu
