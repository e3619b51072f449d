/-
**What the machine state registers hold** (`rtl/core/cmt_epu.v`, `cmt_psr.v`, `cmt_irqc.v`,
`em/csrc/msr.cc`).

A sequence of WMSR and RMSR in root mode, on the registers of bank PS and SR that can be written and
on the interrupt mask.  At both levels a register shows what is kept of the last value written to
it; the two keep different bits of PSR and EPSR, the circuit does not read EVECT out, and the
emulator's reset leaves some registers as they are.

Main definitions:

* `MsrOp`, `Presents` — an operation, and the inputs of the exception unit in the cycle that accepts
  it;
* `msrStep`, `msrRun` — the two levels side by side;
* `lastWrite` — the last value written to a register;
* `Epu.settled` — the registers with the write that is still in the first stage;
* `Em.Msr.emKept`, `Em.Msr.rtlKept` — what is kept of a value;
* `ReadSame` — the reads for which both levels agree.

Main results:

* `em_shows`, `rtl_shows` — a register shows what is kept of the last value written to it;
* `msr_storage_iff` — all reads of a run agree exactly if all of them meet `ReadSame`.
-/

import NanoCpu.MsrAddr

set_option relaxedAutoImplicit false
set_option autoImplicit false

namespace NanoCpu

open Em

/-! ### The operations -/

/-- WMSR and RMSR, by the index of the emulator. -/
inductive MsrOp
  | wmsr (index : BitVec 16) (val : Word)
  | rmsr (index : BitVec 16)
  deriving DecidableEq, Repr

/-- The registers of the banks PS, SR and IRQC that can be written. -/
def Em.Msr.Stored : Msr → Prop
  | .psr | .epsr | .epc | .elsa | .evect | .imr => True
  | .sr n => n < 4
  | _ => False

/-- The inputs of a cycle that accepts an operation, or none, where both levels select one register.
EVECT is named by its index, since the circuit has no read-out for it. -/
def Presents (C : MsrConfig) (x : EpuIn) : Option MsrOp → Prop
  | none => x.pCeS1 = false ∨ x.reqValid = false
  | some (.wmsr i v) => x.pCeS1 = true ∧ x.reqValid = true ∧ x.opc = ⟨true, false⟩ ∧ x.wdat = v ∧
      ∃ m, m.Stored ∧ wmsrIndex C i.toNat = some m ∧ x.writes tlbP tlbP = [m]
  | some (.rmsr i) => x.pCeS1 = true ∧ x.reqValid = true ∧ x.opc = ⟨false, true⟩ ∧
      ∃ m, m.Stored ∧ rmsrIndex i.toNat = some m ∧
        (x.reads = [m] ∨ m = .evect ∧ x.addr.setWidth 14 = BitVec.ofNat 14 m.addr)

/-- A cycle without an exception. -/
def Calm (x : EpuIn) : Prop :=
  x.exc = false ∧ x.edtm = false ∧ x.edpf = false ∧ x.ealign = false ∧ x.pCeS2 = x.pCeS1

/-- A cycle at both levels. -/
def msrStep (C : MsrConfig) (K : CacheCode) (s : Epu × MsrCpu) (p : EpuIn × Option MsrOp) :
    Epu × MsrCpu :=
  (s.1.next p.1,
    match p.2 with
    | some (.wmsr i v) => (s.2.wmsr C K i v).getD s.2
    | _ => s.2)

/-- A run from reset; `c` is what the emulator's memory holds before. -/
def msrRun (C : MsrConfig) (K : CacheCode) (c : MsrCpu) (l : List (EpuIn × Option MsrOp)) :
    Epu × MsrCpu :=
  l.foldl (msrStep C K) (Epu.reset, c.reset)

/-- The last value written to a register. -/
def lastWrite (C : MsrConfig) (m : Msr) (l : List (EpuIn × Option MsrOp)) : Option Word :=
  l.foldl (fun a p =>
    match p.2 with
    | some (.wmsr i v) => if wmsrIndex C i.toNat = some m then some v else a
    | _ => a) none

/-- The mode is root after these cycles. -/
def InRoot (C : MsrConfig) (l : List (EpuIn × Option MsrOp)) : Prop :=
  ∀ v, lastWrite C .psr l = some v → v.getLsbD 4 = true

/-! ### What is kept -/

/-- What the emulator keeps of a value. -/
def Em.Msr.emKept (m : Msr) (v : Word) : Word :=
  match m with
  | .psr | .epsr => v &&& 0x3fe
  | _ => v

/-- What the circuit keeps of a value and reads out. -/
def Em.Msr.rtlKept (m : Msr) (v : Word) : Word :=
  match m with
  | .psr => v &&& 0x3f0
  | .epsr => v &&& 0x3ff
  | .evect => 0
  | _ => v

/-- The value that the circuit reads out after reset. -/
def Em.Msr.rtlReset : Msr → Word
  | .psr => 0x10
  | .imr => 0xffffffff
  | _ => 0

/-- A value without the bits that only one level keeps; EVECT is read as zero by the circuit. -/
def Em.Msr.SameKept (m : Msr) (v : Word) : Prop :=
  match m with
  | .psr => v &&& 0xe = 0
  | .epsr => v &&& 0x1 = 0
  | .evect => v = 0
  | _ => True

/-- The emulator's memory has the circuit's reset value where the emulator has no reset. -/
def Em.Msr.SameReset (C : MsrConfig) (c : MsrCpu) (m : Msr) : Prop :=
  match m with
  | .epsr | .epc | .elsa | .sr _ => c.getMsr C m = 0
  | _ => True

/-- The reads for which both levels agree, by the history of the register. -/
def ReadSame (C : MsrConfig) (c : MsrCpu) (l : List (EpuIn × Option MsrOp)) (m : Msr) : Prop :=
  match lastWrite C m l with
  | some v => m.SameKept v
  | none => m.SameReset C c

theorem lastWrite_append (C : MsrConfig) (m : Msr) (l : List (EpuIn × Option MsrOp)) (x : EpuIn)
    (o : Option MsrOp) :
    lastWrite C m (l ++ [(x, o)]) =
      match o with
      | some (.wmsr i v) => if wmsrIndex C i.toNat = some m then some v else lastWrite C m l
      | _ => lastWrite C m l := by
  rw [lastWrite, List.foldl_append]
  rfl

/-! ### The emulator -/

theorem PsrS.pack_getLsbD (p : PsrS) (j : ℕ) :
    p.pack.getLsbD j =
      ((p.cy && decide (j = 1)) || (p.ov && decide (j = 2)) || (p.oe && decide (j = 3)) ||
        (p.rm && decide (j = 4)) || (p.ire && decide (j = 5)) || (p.imme && decide (j = 6)) ||
        (p.dmme && decide (j = 7)) || (p.ice && decide (j = 8)) || (p.dce && decide (j = 9))) := by
  simp only [PsrS.pack, BitVec.getLsbD_or, packBit_getLsbD _ 1 j (by decide),
    packBit_getLsbD _ 2 j (by decide),
    packBit_getLsbD _ 3 j (by decide), packBit_getLsbD _ 4 j (by decide),
      packBit_getLsbD _ 5 j (by decide),
    packBit_getLsbD _ 6 j (by decide), packBit_getLsbD _ 7 j (by decide),
      packBit_getLsbD _ 8 j (by decide), packBit_getLsbD _ 9 j (by decide)]

/-- Nine bits go through the fields of the PSR. -/
theorem PsrS.pack_unpack (v : Word) : (PsrS.unpack v).pack = v &&& 0x3fe := by
  apply BitVec.eq_of_getLsbD_eq
  intro j hj
  rw [PsrS.pack_getLsbD, BitVec.getLsbD_and]
  interval_cases j <;> simp [PsrS.unpack]

/-- A register after a write of the emulator. -/
theorem Em.MsrCpu.getMsr_setMsr (c : MsrCpu) (C : MsrConfig) (K : CacheCode) {m m' : Msr}
    (hm : m.Stored) (hm' : m'.Stored) (v : Word) :
    (c.setMsr C K m' v).getMsr C m = if m' = m then m.emKept v else c.getMsr C m := by
  cases m' <;> simp only [Msr.Stored] at hm' <;> cases m <;> simp only [Msr.Stored] at hm <;>
    simp [Em.MsrCpu.setMsr, Em.MsrCpu.getMsr, Msr.emKept, PsrS.pack_unpack]
  rename_i n k
  by_cases h : n = k
  · subst h
    simp
  · simp [h, Function.update_of_ne (Ne.symm h)]

/-- A value that was not written yet. -/
def Em.Msr.shown (kept : Word → Word) (init : Word) : Option Word → Word
  | some v => kept v
  | none => init

section Run

variable {C : MsrConfig} {K : CacheCode} {c : MsrCpu} {l : List (EpuIn × Option MsrOp)}

/-- The cycles of a run in root mode. -/
def RootRun (C : MsrConfig) (l : List (EpuIn × Option MsrOp)) : Prop :=
  ∀ k x o, l[k]? = some (x, o) → Calm x ∧ Presents C x o ∧ (o ≠ none → InRoot C (l.take k))

theorem RootRun.of_append {p : EpuIn × Option MsrOp} (h : RootRun C (l ++ [p])) : RootRun C l := by
  intro k x o hk
  have hlt : k < l.length := (List.getElem?_eq_some_iff.1 hk).1
  have := h k x o (by rw [List.getElem?_append_left hlt, hk])
  rwa [List.take_append_of_le_length (Nat.le_of_lt hlt)] at this

theorem RootRun.take (h : RootRun C l) (n : ℕ) : RootRun C (l.take n) := by
  intro k x o hk
  have hlt : k < n := by
    by_contra hge
    rw [List.getElem?_eq_none (by simp; omega)] at hk
    cases hk
  have := h k x o (by rw [← hk, List.getElem?_take_of_lt hlt])
  rwa [List.take_take, Nat.min_eq_left (by omega)]

theorem RootRun.last {p : EpuIn × Option MsrOp} (h : RootRun C (l ++ [p])) :
    Calm p.1 ∧ Presents C p.1 p.2 ∧ (p.2 ≠ none → InRoot C l) := by
  have := h l.length p.1 p.2 (by simp)
  rwa [List.take_left] at this

theorem msrRun_append (p : EpuIn × Option MsrOp) :
    msrRun C K c (l ++ [p]) = msrStep C K (msrRun C K c l) p := by
  rw [msrRun, List.foldl_append]
  rfl

/-- The emulator is in root mode when its PSR shows so. -/
theorem rm_of_shown (hr : InRoot C l)
    (h : (msrRun C K c l).2.getMsr C .psr = Msr.shown (Msr.psr.emKept) (c.reset.getMsr C .psr)
      (lastWrite C .psr l)) : (msrRun C K c l).2.psr.rm = true := by
  have hb : ((msrRun C K c l).2.getMsr C .psr).getLsbD 4 = (msrRun C K c l).2.psr.rm := by
    rw [MsrCpu.getMsr, PsrS.pack_getLsbD]
    simp
  rw [← hb, h]
  cases hl : lastWrite C .psr l with
  | none =>
      simp only [Msr.shown, MsrCpu.getMsr, MsrCpu.reset, PsrS.pack_getLsbD]
      rfl
  | some v =>
      simp only [Msr.shown, Msr.emKept, BitVec.getLsbD_and, hr v hl]
      rfl

/-- **The emulator shows the last value written.** -/
theorem em_shows (h : RootRun C l) {m : Msr} (hm : m.Stored) :
    (msrRun C K c l).2.getMsr C m = Msr.shown m.emKept (c.reset.getMsr C m) (lastWrite C m l) := by
  induction l using List.reverseRecOn generalizing m with
  | nil => rfl
  | append_singleton l p ih =>
      obtain ⟨x, o⟩ := p
      obtain ⟨-, hp, hr⟩ := h.last
      have hl := fun {m : Msr} (hm : m.Stored) => ih h.of_append hm
      rw [msrRun_append, lastWrite_append]
      match o with
      | none => exact hl hm
      | some (.rmsr i) => exact hl hm
      | some (.wmsr i v) =>
          obtain ⟨-, -, -, -, m', hm', hi, -⟩ := hp
          have hrm := rm_of_shown (K := K) (c := c) (hr (by simp)) (hl (m := .psr) trivial)
          have hw : ((msrRun C K c l).2.wmsr C K i v).getD (msrRun C K c l).2 =
              (msrRun C K c l).2.setMsr C K m' v := by
            rw [MsrCpu.wmsr, hi]
            cases m' <;> simp only [Msr.Stored] at hm' <;> simp [hrm]
          simp only [msrStep, hw, hi, Option.some.injEq]
          rw [MsrCpu.getMsr_setMsr _ _ _ hm hm']
          split_ifs
          · rfl
          · exact hl hm

end Run

/-- Two masks of a word agree when it has none of the bits in which they differ. -/
theorem and_masks_eq_iff {a b d : Word} (v : Word) (hd : a ^^^ b = d) :
    v &&& a = v &&& b ↔ v &&& d = 0 := by
  subst hd
  have hx : v &&& (a ^^^ b) = (v &&& a) ^^^ (v &&& b) := by
    ext i hi
    simp only [BitVec.getElem_and, BitVec.getElem_xor]
    cases v[i] <;> simp
  rw [hx]
  exact BitVec.xor_eq_zero_iff.symm

/-! ### The circuit -/

/-- A write of the second stage. -/
def WmsrWe.wr (we : WmsrWe) (dat : Word) : PsrWr where
  save := false
  restore := false
  psrWe := we.psr
  psrNxt := dat.setWidth 10
  epsrWe := we.epsr
  epsrNxt := dat.setWidth 10
  epcWe := we.epc
  epcNxt := dat
  elsaWe := we.elsa
  elsaNxt := dat
  evectWe := we.evect
  evectNxt := dat.extractLsb' 8 24
  srWe := fun i => we.bankOff.getLsbD i && we.sr
  srNxt := dat

/-- The registers with the write that is still in the first stage. -/
def Epu.settled (e : Epu) : Psr := e.psr.next (e.s1WmsrWe.wr e.s1WmsrDat)

def Epu.settledImr (e : Epu) : Word := ldff e.s1WmsrWe.irqcImr e.s1WmsrDat e.imr

/-- A register of the circuit as it is read. -/
def rtlVal (psr : Psr) (imr : Word) : Msr → Word
  | .psr => psr.psr.zeroExtend 32
  | .epsr => psr.epsr.zeroExtend 32
  | .epc => psr.epc
  | .elsa => psr.elsa
  | .imr => imr
  | .sr n => psr.sr (Fin.ofNat 4 n)
  | _ => 0

theorem psr_next_none (s : Psr) (dat : Word) (w : WmsrWe) (h : w.any = false) :
    s.next (w.wr dat) = s := by
  obtain ⟨b, rfl⟩ := WmsrWe.eq_of_any h
  simp [Psr.next, WmsrWe.wr, WmsrWe.none, Psr.nold, Psr.wrBit]

section Calm

variable {e : Epu} {x : EpuIn}

/-- In a cycle with the clock on the bypasses show the settled registers. -/
theorem Epu.psrNext_on (hf : e.s1Fe = Fe.none) (hx : Calm x) (hp : x.pCeS1 = true) :
    e.psrNext x = e.settled ∧ e.imrNext x = e.settledImr := by
  obtain ⟨-, h₁, h₂, h₃, h₄⟩ := hx
  rw [hp] at h₄
  constructor
  · have hepc (v w : Word) (b : Bool) : ldff b (if b then v else w) e.psr.epc =
        ldff b v e.psr.epc := by
      cases b <;> rfl
    simp [psrNext, settled, Psr.next, psrWr, psrSave, commitWe, WmsrWe.wr, hf, h₁, h₂, h₃, h₄,
      Fe.none, hepc, Psr.nold, Psr.wrBit]
    rfl
  · simp [imrNext, settledImr, commitWe, h₄]

/-- With the clock off nothing moves. -/
theorem Epu.next_off (hf : e.s1Fe = Fe.none) (hx : Calm x) (hp : x.pCeS1 = false) :
    (e.next x).settled = e.settled ∧ (e.next x).settledImr = e.settledImr := by
  obtain ⟨-, h₁, h₂, h₃, h₄⟩ := hx
  rw [hp] at h₄
  have hpsr : e.psrNext x = e.psr := by
    simp [psrNext, Psr.next, psrWr, psrSave, commitWe, hf, h₁, h₂, h₃, h₄, Fe.none,
      WmsrWe.none, Psr.nold, Psr.wrBit]
  have himr : e.imrNext x = e.imr := by simp [imrNext, commitWe, h₄, WmsrWe.none]
  simp [settled, settledImr, next, hp, hpsr, himr]

end Calm

/-! ### Writes of the circuit -/

/-- The write enables by what is written. -/
theorem EpuReq.wmsrWe_of_writes {x : EpuReq} {m : Msr} (h : x.writes tlbP tlbP = [m]) :
    x.wmsrWe.psr = decide (m = .psr) ∧ x.wmsrWe.epsr = decide (m = .epsr) ∧
      x.wmsrWe.epc = decide (m = .epc) ∧ x.wmsrWe.elsa = decide (m = .elsa) ∧
      x.wmsrWe.irqcImr = decide (m = .imr) ∧
      ∀ i : Fin 4, (x.wmsrWe.bankOff.getLsbD i && x.wmsrWe.sr) = decide (m = .sr i) := by
  have hmem (r : Msr) : (true, r) ∈ x.writeSel tlbP tlbP ↔ m = r := by
    rw [← mem_selected, ← EpuReq.writes, h, List.mem_singleton]
    exact eq_comm
  have hb {b : Bool} {p : Prop} [Decidable p] (hbp : b = true ↔ p) : b = decide p := by
    rw [Bool.eq_iff_iff, hbp, decide_eq_true_iff]
  refine ⟨hb ?_, hb ?_, hb ?_, hb ?_, hb ?_, fun i => hb ?_⟩ <;> rw [← hmem, writeSel]
  iterate 5
    simp only [List.mem_cons, Prod.mk.injEq, reduceCtorEq, and_false, false_or, or_false, and_true,
      List.not_mem_nil, eq_comm (a := true)]
  fin_cases i <;>
    simp [eq_comm (a := true)]

theorem EpuReq.wmsrWe_any_of_rmsr {x : EpuReq} (h : x.opc = ⟨false, true⟩) :
    x.wmsrWe.any = false := by
  by_contra hne
  obtain ⟨b, -, -, hw⟩ := EpuReq.wmsrWe_any (Bool.eq_true_of_not_eq_false hne)
  simp [EpuReq.wmsr, h] at hw

/-- A register after a write of the circuit. -/
theorem rtlVal_write {x : EpuReq} {m m' : Msr} (hw : x.writes tlbP tlbP = [m']) (hm : m.Stored)
    (psr : Psr) (imr v : Word) : rtlVal (psr.next (x.wmsrWe.wr v)) (ldff x.wmsrWe.irqcImr v imr) m =
      if m' = m then m.rtlKept v else rtlVal psr imr m := by
  obtain ⟨h₁, h₂, h₃, h₄, h₅, h₆⟩ := EpuReq.wmsrWe_of_writes hw
  cases m <;> simp only [Msr.Stored] at hm <;> simp only [rtlVal, Msr.rtlKept]
  case psr =>
    split_ifs with h
    · apply BitVec.eq_of_getLsbD_eq
      intro j hj
      simp only [Psr.psr, Psr.next, WmsrWe.wr, h₁, h, Psr.nold, Psr.wrBit,
        BitVec.getLsbD_setWidth, hj, Psr.pack_getLsbD, BitVec.getLsbD_and, BitVec.zeroExtend]
      interval_cases j <;> simp
    · simp [Psr.psr, Psr.next, WmsrWe.wr, h₁, h, Psr.nold, Psr.wrBit]
  case epsr =>
    split_ifs with h
    · apply BitVec.eq_of_getLsbD_eq
      intro j hj
      simp only [Psr.next, WmsrWe.wr, h₂, h, BitVec.getLsbD_setWidth, hj, BitVec.getLsbD_and,
        BitVec.zeroExtend, Bool.false_eq_true, if_false, decide_true, if_true]
      interval_cases j <;> simp
    · simp [Psr.next, WmsrWe.wr, h₂, h]
  case epc => simp [Psr.next, WmsrWe.wr, h₃, ldff]
  case elsa => simp [Psr.next, WmsrWe.wr, h₄, ldff]
  case evect => simp
  case imr => simp [h₅, ldff]
  case sr n =>
    simp [Psr.next, WmsrWe.wr, h₆, ldff, Nat.mod_eq_of_lt hm]

theorem rtlVal_reset (m : Msr) : rtlVal Epu.reset.settled Epu.reset.settledImr m = m.rtlReset := by
  have h : Epu.reset.settled = Psr.reset := psr_next_none _ _ _ rfl
  rw [h]
  cases m <;> rfl

/-- The index of EVECT reads nothing. -/
theorem EpuIn.readMsr_evect {x : EpuIn} (h : x.addr.setWidth 14 = BitVec.ofNat 14 Msr.evect.addr)
    (psr : Psr) (imr : Word) : x.readMsr psr imr = 0 := by
  have h₁ : x.bankOff = (x.addr.setWidth 14).extractLsb' 0 9 := by
    apply BitVec.eq_of_getLsbD_eq
    intro i hi
    simp [EpuReq.bankOff, hi, show i < 14 by omega]
  have h₂ : x.addr.extractLsb' 9 5 = (x.addr.setWidth 14).extractLsb' 9 5 := by
    apply BitVec.eq_of_getLsbD_eq
    intro i hi
    simp [hi, show 9 + i < 14 by omega]
  rw [h] at h₁ h₂
  have ho : x.bankOff = 0x40 ∧ x.addr.extractLsb' 9 5 = 0 :=
    ⟨h₁.trans (by decide), h₂.trans (by decide)⟩
  simp [EpuIn.readMsr, EpuReq.bank, ho.1, ho.2, MsrBank.addr, EpuReq.readBits]

section Run

variable {C : MsrConfig} {K : CacheCode} {c : MsrCpu} {l : List (EpuIn × Option MsrOp)}

/-- No exception is in the first stage. -/
theorem msrRun_s1Fe (h : RootRun C l) : (msrRun C K c l).1.s1Fe = Fe.none := by
  induction l using List.reverseRecOn with
  | nil => rfl
  | append_singleton l p ih =>
      obtain ⟨hc, -, -⟩ := h.last
      have hf : p.1.s1Fe = Fe.none := EpuReq.s1Fe_of_not_exc hc.1
      rw [msrRun_append]
      simp only [msrStep, Epu.next, hf, ih h.of_append]
      cases p.1.pCeS1 <;> rfl

/-- The settled registers after a cycle with the clock on. -/
theorem Epu.settled_next {e : Epu} {x : EpuIn} (hf : e.s1Fe = Fe.none) (hx : Calm x)
    (hp : x.pCeS1 = true) : (e.next x).settled = e.settled.next (x.wmsrWe.wr x.wdat) ∧
      (e.next x).settledImr = ldff x.wmsrWe.irqcImr x.wdat e.settledImr := by
  obtain ⟨h₁, h₂⟩ := Epu.psrNext_on hf hx hp
  simp [settled, settledImr, next, hp, h₁, h₂]

/-- **The circuit shows the last value written.** -/
theorem rtl_shows (h : RootRun C l) {m : Msr} (hm : m.Stored) :
    rtlVal (msrRun C K c l).1.settled (msrRun C K c l).1.settledImr m =
      Msr.shown m.rtlKept m.rtlReset (lastWrite C m l) := by
  induction l using List.reverseRecOn with
  | nil => exact rtlVal_reset m
  | append_singleton l p ih =>
      obtain ⟨x, o⟩ := p
      obtain ⟨hc, hp, -⟩ := h.last
      have hl := ih h.of_append
      have hf : (msrRun C K c l).1.s1Fe = Fe.none := msrRun_s1Fe h.of_append
      -- a cycle that writes nothing
      have hsame (hw : x.wmsrWe.any = false) :
          (msrRun C K c (l ++ [(x, o)])).1.settled = (msrRun C K c l).1.settled ∧
            (msrRun C K c (l ++ [(x, o)])).1.settledImr = (msrRun C K c l).1.settledImr := by
        rw [msrRun_append]
        cases hce : x.pCeS1 with
        | false => exact Epu.next_off hf hc hce
        | true =>
            obtain ⟨h₁, h₂⟩ := Epu.settled_next hf hc hce
            refine ⟨h₁.trans (psr_next_none _ _ _ hw), h₂.trans ?_⟩
            obtain ⟨b, hb⟩ := WmsrWe.eq_of_any hw
            rw [hb]
            rfl
      rw [lastWrite_append]
      match o with
      | none =>
          rcases hp with hoff | hv
          · rw [msrRun_append]
            obtain ⟨h₁, h₂⟩ := Epu.next_off hf hc hoff
            exact (congrArg₂ (fun a b => rtlVal a b m) h₁ h₂).trans hl
          · obtain ⟨h₁, h₂⟩ := hsame (EpuReq.wmsrWe_any_of_not_valid hv)
            rw [h₁, h₂]
            exact hl
      | some (.rmsr i) =>
          obtain ⟨-, -, hop, -⟩ := hp
          obtain ⟨h₁, h₂⟩ := hsame (EpuReq.wmsrWe_any_of_rmsr hop)
          rw [h₁, h₂]
          exact hl
      | some (.wmsr i v) =>
          obtain ⟨hce, -, -, hv, m', -, hi, hw⟩ := hp
          obtain rfl : x.wdat = v := hv
          obtain ⟨h₁, h₂⟩ := Epu.settled_next hf hc hce
          rw [msrRun_append]
          simp only [msrStep, h₁, h₂, hi, Option.some.injEq]
          rw [rtlVal_write hw hm]
          split_ifs
          · rfl
          · exact hl

/-- What an RMSR reads in the circuit. -/
theorem rtl_reads (h : RootRun C l) {x : EpuIn} {i : BitVec 16} (hc : Calm x)
    (hp : Presents C x (some (.rmsr i))) {m : Msr} (hi : rmsrIndex i.toNat = some m) :
    m.Stored ∧ ((msrRun C K c l).1.next x).wbDout = Msr.shown m.rtlKept m.rtlReset
    (lastWrite C m l) := by
  obtain ⟨hce, -, -, m', hm', hi', hr⟩ := hp
  obtain rfl : m' = m := Option.some.inj (hi'.symm.trans hi)
  refine ⟨hm', ?_⟩
  obtain ⟨h₁, h₂⟩ := Epu.psrNext_on (msrRun_s1Fe (K := K) (c := c) h) hc hce
  rw [← rtl_shows (K := K) (c := c) h hm']
  simp only [Epu.next, hce, ldff_true, h₁, h₂]
  rcases hr with hr | ⟨rfl, ha⟩
  · rw [EpuIn.readMsr_of_reads hr]
    cases m' <;> first | rfl | exact absurd hm' id
  · exact EpuIn.readMsr_evect ha _ _

/-- The two values of a read agree exactly for these histories. -/
theorem shown_eq_iff {m : Msr} (hm : m.Stored) :
    Msr.shown m.emKept (c.reset.getMsr C m) (lastWrite C m l) = Msr.shown m.rtlKept m.rtlReset
      (lastWrite C m l) ↔ ReadSame C c l m := by
  rw [ReadSame]
  cases lastWrite C m l with
  | none =>
      change c.reset.getMsr C m = m.rtlReset ↔ m.SameReset C c
      cases m <;> simp only [Msr.Stored] at hm <;>
        simp only [MsrCpu.getMsr, MsrCpu.reset, Msr.rtlReset, Msr.SameReset]
      case psr => decide
  | some v =>
      change m.emKept v = m.rtlKept v ↔ m.SameKept v
      cases m <;> simp only [Msr.Stored] at hm <;> simp only [Msr.emKept, Msr.rtlKept, Msr.SameKept]
      case psr => exact and_masks_eq_iff v (by decide)
      case epsr => exact and_masks_eq_iff v (by decide)

/-- **The storage of the MSRs at both levels.**  In a run of root-mode operations every RMSR returns
the same value at both levels exactly if every RMSR meets `ReadSame`. -/
theorem msr_storage_iff (h : RootRun C l) :
    (∀ k x i, l[k]? = some (x, some (.rmsr i)) →
      (msrRun C K c (l.take k)).2.rmsr C i = some (msrRun C K c (l.take (k + 1))).1.wbDout) ↔
    ∀ k x i m, l[k]? = some (x, some (.rmsr i)) → rmsrIndex i.toNat = some m →
      ReadSame C c (l.take k) m := by
  have hstep {k : ℕ} {x : EpuIn} {i : BitVec 16} {m : Msr} (hk : l[k]? = some (x, some (.rmsr i)))
      (hm : rmsrIndex i.toNat = some m) :
      (msrRun C K c (l.take k)).2.rmsr C i = some (msrRun C K c (l.take (k + 1))).1.wbDout ↔
        ReadSame C c (l.take k) m := by
    obtain ⟨hc, hp, hr⟩ := h k x _ hk
    have hl : RootRun C (l.take k) := h.take k
    obtain ⟨hs, hrd⟩ := rtl_reads (K := K) (c := c) hl hc hp hm
    have hrm := rm_of_shown (K := K) (c := c) (hr (by simp)) (em_shows hl (m := .psr) trivial)
    have hnext : msrRun C K c (l.take (k + 1)) = msrStep C K (msrRun C K c (l.take k))
        (x, some (.rmsr i)) := by
      rw [List.take_add_one, hk]
      exact msrRun_append _
    rw [hnext, ← shown_eq_iff hs, ← hrd, ← em_shows (K := K) hl hs, MsrCpu.rmsr, hrm,
      if_pos rfl, hm]
    simp [msrStep]
  constructor
  · intro hall k x i m hk hm
    exact (hstep hk hm).1 (hall k x i hk)
  · intro hall k x i hk
    obtain ⟨-, hp, -⟩ := h k x _ hk
    obtain ⟨-, -, -, m, -, hm, -⟩ := hp
    exact (hstep hk hm).2 (hall k x i m hk hm)

end Run

/-- A cycle of the MSR instructions. -/
def msrCycle (opc : EpuOpc) (addr wdat : Word) : EpuIn :=
  { msrReq opc addr with
    wdat := wdat
    rd := ⟨0, 0, 0, 0, 0, 0, 0, 0, 0⟩
    edtm := false
    edpf := false
    ealign := false
    vaddr := 0
    pCeS1 := true
    pCeS2 := true }

/-- WMSR of a value to an index and, when it is finished, RMSR of the index. -/
def writeRead (index : BitVec 16) (v : Word) : List (EpuIn × Option MsrOp) :=
  [(msrCycle ⟨true, false⟩ (index.setWidth 32) v, some (.wmsr index v)),
    ({ msrCycle ⟨false, false⟩ 0 0 with reqValid := false }, none),
    ({ msrCycle ⟨false, false⟩ 0 0 with reqValid := false }, none),
    (msrCycle ⟨false, true⟩ (index.setWidth 32) 0, some (.rmsr index))]

theorem writeRead_rootRun {C : MsrConfig} {index : BitVec 16} {v : Word} {m : Msr} (hm : m.Stored)
    (hw : wmsrIndex C index.toNat = some m) (hr : rmsrIndex index.toNat = some m)
    (hws : (msrReq ⟨true, false⟩ (index.setWidth 32)).writes tlbP tlbP = [m])
    (hrs : (msrReq ⟨false, true⟩ (index.setWidth 32)).reads = [m])
    (hp : m = .psr → v.getLsbD 4 = true) : RootRun C (writeRead index v) := by
  intro k x o hk
  match k with
  | 0 =>
      obtain ⟨rfl, rfl⟩ := Prod.mk.inj (Option.some.inj hk)
      refine ⟨⟨rfl, rfl, rfl, rfl, rfl⟩, ⟨rfl, rfl, rfl, rfl, m, hm, hw, hws⟩, fun _ u hu => ?_⟩
      cases hu
  | 1 | 2 =>
      obtain ⟨rfl, rfl⟩ := Prod.mk.inj (Option.some.inj hk)
      exact ⟨⟨rfl, rfl, rfl, rfl, rfl⟩, .inr rfl, fun h => absurd rfl h⟩
  | 3 =>
      obtain ⟨rfl, rfl⟩ := Prod.mk.inj (Option.some.inj hk)
      refine ⟨⟨rfl, rfl, rfl, rfl, rfl⟩, ⟨rfl, rfl, rfl, m, hm, hr, .inl hrs⟩, fun _ u hu => ?_⟩
      change (if wmsrIndex C index.toNat = some .psr then some v else none) = some u at hu
      rw [hw] at hu
      split_ifs at hu with h
      obtain rfl := Option.some.inj hu
      exact hp (Option.some.inj h)
  | k + 4 => simp [writeRead] at hk

/-- An EPC that is written is read back at both levels. -/
theorem msr_storage_epc :
    (msrRun MsrConfig.default CacheCode.disabled MsrCpu.zero ((writeRead 8 0x1234).take 3)).2.rmsr
        MsrConfig.default 8 =
      some (msrRun MsrConfig.default CacheCode.disabled MsrCpu.zero
        ((writeRead 8 0x1234).take 4)).1.wbDout := by
  have hrun : RootRun MsrConfig.default (writeRead 8 0x1234) :=
    writeRead_rootRun (m := .epc) trivial (by decide) (by decide) (by decide) (by decide) (by simp)
  refine (msr_storage_iff hrun).2 (fun k x i m hk hm => ?_) 3 _ 8 rfl
  match k with
  | 0 | 1 | 2 => cases hk
  | 3 =>
      obtain ⟨-, ho⟩ := Prod.mk.inj (Option.some.inj hk)
      obtain rfl := MsrOp.rmsr.inj (Option.some.inj ho)
      obtain rfl : m = .epc := Option.some.inj (hm.symm.trans (by decide))
      trivial
  | k + 4 => simp [writeRead] at hk

/-- A PSR with CY is read as `0x12` by the emulator and as `0x10` by the circuit. -/
theorem psr_drops_cy : RootRun MsrConfig.default (writeRead 1 0x12) ∧
    (writeRead 1 0x12)[3]? = some (msrCycle ⟨false, true⟩ 1 0, some (.rmsr 1)) ∧
    (msrRun MsrConfig.default CacheCode.disabled MsrCpu.zero ((writeRead 1 0x12).take 3)).2.rmsr
        MsrConfig.default 1 = some 0x12 ∧
    (msrRun MsrConfig.default CacheCode.disabled MsrCpu.zero (writeRead 1 0x12)).1.wbDout =
      0x10 := by
  refine ⟨writeRead_rootRun (m := .psr) trivial (by decide) (by decide) (by decide) (by decide)
    (by decide),
    rfl, ?_, ?_⟩
  · decide +kernel
  · decide +kernel

end NanoCpu
