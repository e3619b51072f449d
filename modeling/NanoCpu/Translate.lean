/-
**Address translation at both levels** (`rtl/core/immu.v`, `dmmu.v`, `em/csrc/mmu.cc`).

The MMUs keep a TLB entry as the two words that a WMSR has written; the emulator takes the words
apart when they are written.  Here both look the same address up, after the same writes.

Main definitions:

* `pageOf` — the page number of an address;
* `MmuAgree` — the answer of an MMU is that of the emulator;
* `Dmmu.lookup`, `Immu.lookup` — a lookup;
* `TlbOp` — a write of a TLB entry, `TlbUnpacked` — the emulator holds the fields of the circuits'
  words.

Main results:

* `TlbUnpacked.run` — the same writes at both levels keep the TLBs together;
* `translation_agrees` — fetches, loads and stores are translated alike.
-/

import NanoCpu.EmMsr
import NanoCpu.Immu

set_option relaxedAutoImplicit false
set_option autoImplicit false

namespace NanoCpu

open Em

/-! ### Pages -/

/-- The page number of an address. -/
def pageOf (va : Word) : Ppn := va.extractLsb' 13 19

theorem shiftRight_13 (va : Word) : va >>> 13 = (pageOf va).setWidth 32 := by
  apply BitVec.eq_of_getLsbD_eq
  intro j hj
  simp only [pageOf, BitVec.getLsbD_ushiftRight, BitVec.getLsbD_setWidth,
    BitVec.getLsbD_extractLsb', hj]
  by_cases h : j < 19
  · simp [h]
  · simp [h, BitVec.getLsbD_of_ge va (13 + j) (by omega)]

theorem unpackPage_eq (v : Word) : unpackPage v = (pageOf v).setWidth 32 := by
  rw [unpackPage, ← shiftRight_13]
  apply BitVec.eq_of_getLsbD_eq
  intro j hj
  simp only [BitVec.getLsbD_ushiftRight, BitVec.getLsbD_and]
  by_cases h : 13 + j < 32
  · have : (~~~(0x1fff : Word)).getLsbD (13 + j) = true := by
      interval_cases j <;> first | rfl | omega
    rw [this, Bool.and_true]
  · simp [BitVec.getLsbD_of_ge v (13 + j) (by omega)]

theorem page_beq (v va : Word) :
    (unpackPage v == va >>> 13) = (v.extractLsb' 13 19 == pageOf va) := by
  rw [unpackPage_eq, shiftRight_13, Bool.eq_iff_iff]
  simp only [beq_iff_eq]
  constructor
  · intro h
    have := congrArg (BitVec.setWidth 19) h
    simpa [pageOf] using this
  · intro h
    rw [← h]
    rfl

theorem page_idx (va : Word) (p : ℕ) :
    (va >>> 13).toNat &&& (2 ^ p - 1) = ((pageOf va).extractLsb' 0 p).toNat := by
  have hpage : ((pageOf va).setWidth 32).toNat = (pageOf va).toNat :=
    BitVec.toNat_setWidth_of_le (by decide)
  rw [shiftRight_13, Nat.and_two_pow_sub_one_eq_mod, hpage]
  simp

theorem page_addr (v va : Word) :
    (unpackPage v <<< 13) ||| (va &&& 0x1fff) = v.extractLsb' 13 19 ++ va.extractLsb' 0 13 := by
  rw [unpackPage_eq]
  apply BitVec.eq_of_getLsbD_eq
  intro j hj
  have hm : (0x1fff#32).getLsbD j = decide (j < 13) := by
    interval_cases j <;> rfl
  simp only [BitVec.getLsbD_or, BitVec.getLsbD_shiftLeft, BitVec.getLsbD_and, BitVec.getLsbD_append,
    BitVec.ofNat_eq_ofNat, hm, pageOf, BitVec.getLsbD_setWidth, BitVec.getLsbD_extractLsb']
  by_cases h : j < 13
  · simp [h]
  · simp [h, hj]
    omega

theorem page_seg (v : Word) : (unpackPage v >>> 18).getLsbD 0 = (v.extractLsb' 13 19).msb := by
  rw [unpackPage_eq]
  simp [pageOf, BitVec.msb_eq_getLsbD_last]

theorem addr_page (va : Word) : pageOf va ++ va.extractLsb' 0 13 = va := by
  apply BitVec.eq_of_getLsbD_eq
  intro j hj
  simp only [BitVec.getLsbD_append, pageOf, BitVec.getLsbD_extractLsb']
  by_cases h : j < 13
  · simp [h]
  · simp [h, show 13 + (j - 13) = j by omega]
    omega

theorem addr_seg (va : Word) : (va >>> 31 == 0) = !(pageOf va).msb := by
  rw [BitVec.msb_eq_getLsbD_last]
  have : va >>> 31 = BitVec.setWidth 32 (BitVec.ofBool (va.getLsbD 31)) := by
    apply BitVec.eq_of_getLsbD_eq
    intro j hj
    by_cases h : j = 0
    · subst h; simp
    · simp [h]
      exact BitVec.getLsbD_of_ge va (31 + j) (by omega)
  rw [this]
  simp only [pageOf, BitVec.getLsbD_extractLsb']
  cases va.getLsbD 31 <;> simp

/-! ### Lookups -/

/-- The answer of an MMU is that of the emulator: the same exception, or the same physical address
and the same cacheability. -/
structure MmuAgree (miss fault : Bool) (ppn : Ppn) (uncached : Bool) (va : Word)
    (r : Except Cpu.MmuFault (Word × Bool)) : Prop where
  miss_iff : miss = true ↔ r = .error .tlbMiss
  fault_iff : fault = true ↔ r = .error .pageFault
  ok_eq : ∀ pa unc, r = .ok (pa, unc) → pa = ppn ++ va.extractLsb' 0 13 ∧ unc = uncached

variable {p q : ℕ}

/-- The registers of the data MMU after a lookup. -/
def Dmmu.lookup (m : Dmmu q) (va : Word) (store : Bool) (psr : PsrS) : Dmmu q :=
  m.next true (va.extractLsb' 13 19) store psr.dmme psr.rm ⟨false, 0, 0⟩ ⟨false, 0, 0⟩

/-- The registers of the instruction MMU after a lookup. -/
def Immu.lookup (m : Immu p) (va : Word) (psr : PsrS) : Immu p :=
  m.next true (va.extractLsb' 13 19) psr.imme psr.rm ⟨false, 0, 0⟩ ⟨false, 0, 0⟩

/-- The emulator holds the fields of the words that the circuits hold. -/
structure TlbUnpacked (i : Immu p) (d : Dmmu q) (c : MsrCpu) : Prop where
  itlbl : ∀ n : TlbIdx p, c.itlbL n.toNat = ItlbL.unpack (i.tlbL n)
  itlbh : ∀ n : TlbIdx p, c.itlbH n.toNat = ItlbH.unpack (i.tlbH n)
  dtlbl : ∀ n : TlbIdx q, c.dtlbL n.toNat = DtlbL.unpack (d.tlbL n)
  dtlbh : ∀ n : TlbIdx q, c.dtlbH n.toNat = DtlbH.unpack (d.tlbH n)

/-- Both MMUs, from what they find in the TLB: the entry hits, its permissions deny the access, and
its upper half is `h`. -/
theorem mmuAgree (en hit miss denied nc seg ce : Bool) (ppn : Ppn) (h va : Word) (hm : miss = !hit)
    (hp : ppn = if en then h.extractLsb' 13 19 else pageOf va) :
    MmuAgree (miss && en) (denied && !miss && en) ppn
      ((en && !miss && !denied && nc ||
        (seg && !(miss && en) && !(denied && !miss && en) && !ppn.msb)) || !ce) va
      (if en then
        if hit then
          if denied then .error .pageFault
          else .ok ((unpackPage h <<< 13) ||| (va &&& 0x1fff),
            (nc || (seg && !(unpackPage h >>> 18).getLsbD 0)) || !ce)
        else .error .tlbMiss
      else .ok (va, (seg && va >>> 31 == 0) || !ce)) := by
  subst hp hm
  cases en with
  | false =>
      refine ⟨by simp, by simp, ?_⟩
      rintro pa unc ⟨⟩
      refine ⟨(addr_page va).symm, ?_⟩
      rw [addr_seg]
      simp
  | true =>
      cases hit with
      | false => exact ⟨by simp, by simp, by simp⟩
      | true =>
          cases denied with
          | true => exact ⟨by simp, by simp, by simp⟩
          | false =>
              refine ⟨by simp, by simp, ?_⟩
              rintro pa unc ⟨⟩
              refine ⟨page_addr _ _, ?_⟩
              rw [page_seg]
              simp

theorem Dmmu.lookup_agrees {i : Immu p} {d : Dmmu q} {c : MsrCpu} (h : TlbUnpacked i d c)
    (C : Config) (hC : C.dmmuTlbCount = 2 ^ q) (va : Word) (store : Bool) :
    MmuAgree (d.lookup va store c.psr).edtm (d.lookup va store c.psr).edpf
    (d.lookup va store c.psr).ppn
      ((d.lookup va store c.psr).uncached C.dmmuEnableUncachedSeg || !c.psr.dce) va
      (c.dmmuTranslateVma C va store) := by
  have hl := h.dtlbl ((pageOf va).extractLsb' 0 q)
  have hh := h.dtlbh ((pageOf va).extractLsb' 0 q)
  rw [Cpu.dmmuTranslateVma, hC]
  simp only [page_idx, hl, hh, DtlbL.unpack, DtlbH.unpack, page_beq]
  exact mmuAgree c.psr.dmme _ (d.lookup va store c.psr).tlbMiss (d.lookup va store c.psr).permDenied
    ((d.lookup va store c.psr).tlbHFf.getLsbD 7) C.dmmuEnableUncachedSeg c.psr.dce
    (d.lookup va store c.psr).ppn (d.lookup va store c.psr).tlbHFf va rfl rfl

theorem Immu.lookup_agrees {i : Immu p} {d : Dmmu q} {c : MsrCpu} (h : TlbUnpacked i d c)
    (C : MsrConfig) (hC : C.immuTlbCount = 2 ^ p) (va : Word) :
    MmuAgree (i.lookup va c.psr).eitm (i.lookup va c.psr).eipf (i.lookup va c.psr).ppn
      ((i.lookup va c.psr).uncached C.immuEnableUncachedSeg || !c.psr.ice) va
      (c.immuTranslateVma C va) := by
  have hl := h.itlbl ((pageOf va).extractLsb' 0 p)
  have hh := h.itlbh ((pageOf va).extractLsb' 0 p)
  rw [MsrCpu.immuTranslateVma, hC]
  simp only [page_idx, hl, hh, ItlbL.unpack, ItlbH.unpack, page_beq]
  exact mmuAgree c.psr.imme _ (i.lookup va c.psr).tlbMiss (i.lookup va c.psr).permDenied
    ((i.lookup va c.psr).tlbHFf.getLsbD 7) C.immuEnableUncachedSeg c.psr.ice
    (i.lookup va c.psr).ppn (i.lookup va c.psr).tlbHFf va rfl rfl

/-! ### Writes of the TLBs -/

/-- A WMSR to an entry of a TLB. -/
inductive TlbOp (p q : ℕ)
  | itlbl (n : TlbIdx p) (val : Word)
  | itlbh (n : TlbIdx p) (val : Word)
  | dtlbl (n : TlbIdx q) (val : Word)
  | dtlbh (n : TlbIdx q) (val : Word)

/-- The register that is written. -/
def TlbOp.msr : TlbOp p q → Msr
  | itlbl n _ => .itlbl n.toNat
  | itlbh n _ => .itlbh n.toNat
  | dtlbl n _ => .dtlbl n.toNat
  | dtlbh n _ => .dtlbh n.toNat

def TlbOp.val : TlbOp p q → Word
  | itlbl _ v | itlbh _ v | dtlbl _ v | dtlbh _ v => v

/-- A cycle of the instruction MMU that writes an entry and looks nothing up. -/
def Immu.tlbWrite (m : Immu p) (x : TlbOp p q) : Immu p :=
  match x with
  | .itlbl n v => m.next false 0 false false ⟨true, n, v⟩ ⟨false, 0, 0⟩
  | .itlbh n v => m.next false 0 false false ⟨false, 0, 0⟩ ⟨true, n, v⟩
  | _ => m.next false 0 false false ⟨false, 0, 0⟩ ⟨false, 0, 0⟩

/-- A cycle of the data MMU that writes an entry and looks nothing up. -/
def Dmmu.tlbWrite (m : Dmmu q) (x : TlbOp p q) : Dmmu q :=
  match x with
  | .dtlbl n v => m.next false 0 false false false ⟨true, n, v⟩ ⟨false, 0, 0⟩
  | .dtlbh n v => m.next false 0 false false false ⟨false, 0, 0⟩ ⟨true, n, v⟩
  | _ => m.next false 0 false false false ⟨false, 0, 0⟩ ⟨false, 0, 0⟩

theorem update_unpacked {α : Type} {f : ℕ → α} {g : TlbIdx p → Word} {u : Word → α}
    (h : ∀ n : TlbIdx p, f n.toNat = u (g n)) (k : TlbIdx p) (v : Word) (n : TlbIdx p) :
    Function.update f k.toNat (u v) n.toNat = u (Function.update g k v n) := by
  by_cases hn : n = k
  · subst hn
    simp
  · have : n.toNat ≠ k.toNat := fun h => hn (BitVec.eq_of_toNat_eq h)
    rw [Function.update_of_ne this, Function.update_of_ne hn, h]

theorem TlbUnpacked.write {i : Immu p} {d : Dmmu q} {c : MsrCpu} (h : TlbUnpacked i d c)
    (C : MsrConfig) (K : CacheCode) (x : TlbOp p q) :
    TlbUnpacked (i.tlbWrite x) (d.tlbWrite x) (c.setMsr C K x.msr x.val) := by
  cases x with
  | itlbl n v => exact ⟨update_unpacked h.itlbl n v, h.itlbh, h.dtlbl, h.dtlbh⟩
  | itlbh n v => exact ⟨h.itlbl, update_unpacked h.itlbh n v, h.dtlbl, h.dtlbh⟩
  | dtlbl n v => exact ⟨h.itlbl, h.itlbh, update_unpacked h.dtlbl n v, h.dtlbh⟩
  | dtlbh n v => exact ⟨h.itlbl, h.itlbh, h.dtlbl, update_unpacked h.dtlbh n v⟩

theorem TlbUnpacked.run {i : Immu p} {d : Dmmu q} {c : MsrCpu} (h : TlbUnpacked i d c)
    (C : MsrConfig) (K : CacheCode) (l : List (TlbOp p q)) :
    TlbUnpacked (l.foldl Immu.tlbWrite i) (l.foldl Dmmu.tlbWrite d)
      (l.foldl (fun c x => c.setMsr C K x.msr x.val) c) := by
  induction l generalizing i d c with
  | nil => exact h
  | cons x l ih => exact ih (h.write C K x)

/-- The settings of the circuits: TLBs of `2 ^ p` and of `2 ^ q` entries, the uncached segment of
fetches and of data. -/
def Em.MsrConfig.withMmu (C : MsrConfig) (p q : ℕ) (segI segD : Bool) : MsrConfig :=
  { C with
    immuTlbCount := 2 ^ p
    dmmuTlbCount := 2 ^ q
    immuEnableUncachedSeg := segI
    dmmuEnableUncachedSeg := segD }

/-- The emulator with the TLBs of the circuits. -/
def Em.MsrCpu.withTlb (c : MsrCpu) (i : Immu p) (d : Dmmu q) : MsrCpu :=
  { c with
    itlbL := fun n => ItlbL.unpack (i.tlbL (BitVec.ofNat p n))
    itlbH := fun n => ItlbH.unpack (i.tlbH (BitVec.ofNat p n))
    dtlbL := fun n => DtlbL.unpack (d.tlbL (BitVec.ofNat q n))
    dtlbH := fun n => DtlbH.unpack (d.tlbH (BitVec.ofNat q n)) }

theorem tlbUnpacked_withTlb (c : MsrCpu) (i : Immu p) (d : Dmmu q) :
    TlbUnpacked i d (c.withTlb i d) := by
  constructor <;> intro n <;> simp [MsrCpu.withTlb]

/-- **Address translation agrees**: for TLBs of any size, after any writes of them, for every PSR
and every address, a fetch has the outcome of `immu_translate_vma`, and a load or a store that of
`dmmu_translate_vma`. -/
theorem translation_agrees (C : MsrConfig) (K : CacheCode) (segI segD : Bool) (c : MsrCpu)
    (i : Immu p) (d : Dmmu q) (l : List (TlbOp p q)) (va : Word) (store : Bool) :
    let c' := l.foldl (fun c x => c.setMsr C K x.msr x.val) (c.withTlb i d)
    let i' := (l.foldl Immu.tlbWrite i).lookup va c'.psr
    let d' := (l.foldl Dmmu.tlbWrite d).lookup va store c'.psr
    MmuAgree i'.eitm i'.eipf i'.ppn (i'.uncached segI || !c'.psr.ice) va
        (c'.immuTranslateVma (C.withMmu p q segI segD) va) ∧
      MmuAgree d'.edtm d'.edpf d'.ppn (d'.uncached segD || !c'.psr.dce) va
        (c'.dmmuTranslateVma (C.withMmu p q segI segD).toConfig va store) := by
  intro c' i' d'
  have h := (tlbUnpacked_withTlb c i d).run C K l
  exact ⟨Immu.lookup_agrees h (C.withMmu p q segI segD) rfl va,
    Dmmu.lookup_agrees h (C.withMmu p q segI segD).toConfig rfl va store⟩

end NanoCpu
