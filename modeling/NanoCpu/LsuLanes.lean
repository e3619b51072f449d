/-
**The byte lanes of loads and stores** (`rtl/core/cmt_lsu.v`, `dcache.v` against `em/csrc/cpu.cc`).

A store repeats its data over the word and masks the bytes it means; a load cuts its bytes out of
the word that comes back and extends them.  The cache takes the mask to its payload RAM, the bus
takes strobes that the cache derives from the size and the address.  The emulator writes and reads
one byte after the other.  The results are the same, for every size and every aligned address, on
both ways.

Main definitions:

* `LsuAcc`, `LsuAcc.emBytes`, `LsuAcc.emValue` — an access, and what `CPU::step` does for it;
* `LsuHist`, `LsuSide.lanes` — an observer of the accesses, and the unit under accesses that are all
  cached or all uncached;
* `emMem`, `emAnswers` — the bytes and the answers of the emulator after a list of accesses.

Main results:

* `Em.Cpu.execute_access`, `Em.idDec_access` — `LsuAcc` is what the emulator executes and the
  decoder asks for;
* `LsuAcc.toDc_apply`, `LsuAcc.emBytes_eq`, `LsuAcc.wbDout_eq` — the lanes of one access;
* `LsuSide.lanes_agree` — **loads and stores are those of little-endian byte memory**, on both ways.
-/

import NanoCpu.Conform
import NanoCpu.LsuSide

set_option relaxedAutoImplicit false
set_option autoImplicit false
set_option linter.unusedSectionVars false

namespace NanoCpu

/-! ### An access -/

/-- An access that the unit performs: what was asked, and the physical address. -/
structure LsuAcc where
  store : Bool
  size : BitVec 3
  signExt : Bool
  addr : Word
  wdat : Word
  deriving DecidableEq

namespace LsuAcc

/-- The bytes after a store in `CPU::step`. -/
def emBytes (a : LsuAcc) (m : Em.Bytes) : Em.Bytes :=
  if a.store then
    if a.size = 2 then Em.phyWritem32 m a.addr a.wdat
    else if a.size = 1 then Em.phyWritem16 m a.addr (a.wdat.setWidth 16)
    else Em.phyWritem8 m a.addr (a.wdat.setWidth 8)
  else m

/-- The value of a load in `CPU::step`. -/
def emValue (a : LsuAcc) (m : Em.Bytes) : Word :=
  if a.size = 2 then Em.phyReadm32 m a.addr
  else if a.size = 1 then
    if a.signExt then ((Em.phyReadm16 m a.addr).setWidth 32 ^^^ 0x8000) - 0x8000
    else (Em.phyReadm16 m a.addr).setWidth 32
  else if a.signExt then ((Em.phyReadm8 m a.addr).setWidth 32 ^^^ 0x80) - 0x80
  else (Em.phyReadm8 m a.addr).setWidth 32

end LsuAcc

namespace Em

/-- The cases of loads and stores: whether it is a store, its size, and whether it extends the
sign. -/
def Op.access : Op → Option (Bool × BitVec 3 × Bool)
  | .ldwu => some (false, 2, false)
  | .stw => some (true, 2, false)
  | .ldhu => some (false, 1, false)
  | .ldh => some (false, 1, true)
  | .sth => some (true, 1, false)
  | .ldbu => some (false, 0, false)
  | .ldb => some (false, 0, true)
  | .stb => some (true, 0, false)
  | _ => none

variable {op : Op} {insn : Word} {st sg : Bool} {sz : BitVec 3}

/-- What the emulator does for a load or a store. -/
theorem Cpu.execute_access (hop : Op.ofCode (opcode insn) = some op)
    (ha : op.access = some (st, sz, sg)) (c : Cpu) (C : Config) (M : MsrCode) (pc : Word) :
    c.execute C M pc insn = c.accessMem C pc insn (2 ^ sz.toNat) st fun pa uncached =>
      if st then
        (c.setBytes uncached (LsuAcc.emBytes ⟨st, sz, sg, pa, c.getReg (rd insn)⟩
          (c.bytes uncached))).break_ pc
      else
        (c.setReg (rd insn) (LsuAcc.emValue ⟨st, sz, sg, pa, c.getReg (rd insn)⟩
          (c.bytes uncached))).break_ pc := by
  rw [Cpu.execute, hop]
  cases op <;> cases ha <;> rfl

/-- What the decoder asks for. -/
theorem idDec_access (hop : Op.ofCode (opcode insn) = some op) (ha : op.access = some (st, sz, sg))
    (pc : Pc) (upd : BpuUpd) :
    (idDec true insn false false false pc upd).lsu = ⟨!st, st, false, sg, sz⟩ := by
  have hcode : (insn.extractLsb' 5 7).toNat = op.code := by
    rw [← opcode_eq]
    have := List.find?_some hop
    exact (by simpa using this : op.code = opcode insn).symm
  have hl : (idDec true insn false false false pc upd).lsu = (opcDec (insn.extractLsb' 5 7)).lsu :=
    rfl
  have hop' : insn.extractLsb' 5 7 = BitVec.ofNat 7 op.code := by
    rw [← hcode, BitVec.ofNat_toNat, BitVec.setWidth_eq]
  rw [hl, hop']
  cases op <;> cases ha <;> rfl

end Em

/-! ### The lanes of one access -/

namespace LsuReq

variable {q : LsuReq}

/-- The sizes that are decoded. -/
theorem size_cases {z : BitVec 3} (hz : z.toNat ≤ 2) : z = 0 ∨ z = 1 ∨ z = 2 := by
  revert z
  decide

/-- The lower two bits of an address. -/
theorem low_bits (v : Word) : ∃ r : BitVec 2, v.extractLsb' 0 2 = r ∧ v.toNat % 4 = r.toNat ∧
    v.getLsbD 1 = r.getLsbD 1 ∧ v.getLsbD 0 = r.getLsbD 0 := by
  refine ⟨v.extractLsb' 0 2, rfl, ?_, ?_, ?_⟩
  · rw [BitVec.extractLsb'_toNat, Nat.shiftRight_zero]
  · rw [BitVec.getLsbD_extractLsb']
    simp
  · rw [BitVec.getLsbD_extractLsb']
    simp

/-- The bytes of the word that a store means. -/
theorem dcWmsk_getLsbD (hs : q.opc.store = true) (hz : q.opc.size.toNat ≤ 2) {j : ℕ} (hj : j < 4) :
    q.dcWmsk.getLsbD j =
      decide (j / DcOp.bytes q.opc.size = q.vaddr.toNat % 4 / DcOp.bytes q.opc.size) := by
  obtain ⟨r, h₂, h₃, h₁, -⟩ := low_bits q.vaddr
  rw [dcWmsk, hs, h₁, h₂, h₃]
  clear h₁ h₂ h₃
  rcases size_cases hz with h | h | h <;> rw [h] <;> interval_cases j <;> revert r <;> decide

theorem dcWmsk_of_load (hs : q.opc.store = false) : q.dcWmsk = 0 := by
  rw [dcWmsk, hs, if_neg Bool.false_ne_true]

/-- The data is repeated over the word. -/
theorem byteOf_dcWdat (hz : q.opc.size.toNat ≤ 2) {j : ℕ} (hj : j < 4) :
    byteOf q.dcWdat j = byteOf q.wdat (j % DcOp.bytes q.opc.size) := by
  refine BitVec.eq_of_getLsbD_eq fun i hi => ?_
  rcases size_cases hz with h | h | h <;> rw [dcWdat, h] <;>
    simp only [byteOf, BitVec.getLsbD_extractLsb', BitVec.getLsbD_or, hi, decide_true,
      Bool.true_and]
  all_goals
    interval_cases j <;> simp [DcOp.bytes] <;> grind

/-- What goes to the lanes depends on the address through its lower bits. -/
theorem dcWmsk_congr {q' : LsuReq} (hs : q.opc.store = q'.opc.store) (hz : q.opc.size = q'.opc.size)
    (hv : q.vaddr.toNat % 4 = q'.vaddr.toNat % 4) : q.dcWmsk = q'.dcWmsk := by
  obtain ⟨r, h₂, h₃, h₁, -⟩ := low_bits q.vaddr
  obtain ⟨r', h₂', h₃', h₁', -⟩ := low_bits q'.vaddr
  have hr : r = r' := BitVec.eq_of_toNat_eq (by rw [← h₃, ← h₃', hv])
  rw [dcWmsk, dcWmsk, hs, hz, h₁, h₂, h₁', h₂', hr]

/-- An address that passes the check is a multiple of the size. -/
theorem aligned_of_not_misalign (hz : q.opc.size.toNat ≤ 2) (hm : q.misalign = false) :
    q.vaddr.toNat % DcOp.bytes q.opc.size = 0 := by
  obtain ⟨r, h₂, h₃, -, h₀⟩ := low_bits q.vaddr
  rw [misalign, h₀, h₂] at hm
  have hr : r.toNat % DcOp.bytes q.opc.size = 0 := by
    clear h₀ h₂ h₃
    rcases size_cases hz with h | h | h <;> rw [h] at hm ⊢ <;> revert r <;> decide
  rcases size_cases hz with h | h | h <;> rw [h] at hr ⊢ <;> simp only [DcOp.bytes] at hr ⊢ <;>
    simp at hr ⊢ <;> omega

end LsuReq

namespace LsuAcc

variable (a : LsuAcc)

/-- The number of bytes. -/
def bytes : ℕ := DcOp.bytes a.size

/-- A size that is decoded, and an address that passes the check. -/
structure Ok : Prop where
  size : a.size.toNat ≤ 2
  aligned : a.addr.toNat % a.bytes = 0

/-- The request for the access. -/
def req : LsuReq :=
  ⟨true, ⟨!a.store, a.store, false, a.signExt, a.size⟩, a.addr, a.wdat, false, 0, false, 0⟩

/-- The access as the cache sees it. -/
def toDc : DcAccess := ⟨a.addr.toNat, a.req.dcWmsk, a.req.dcWdat⟩

/-- The bytes after the access: a store changes its own ones, the lowest one first. -/
def written (F : ℕ → Byte) (p : ℕ) : Byte :=
  if a.store = true ∧ p / a.bytes = a.addr.toNat / a.bytes then byteOf a.wdat (p % a.bytes) else F p

variable {a} {F : ℕ → Byte}

theorem bytes_cases (h : a.Ok) : (a.size = 0 ∧ a.bytes = 1) ∨ (a.size = 1 ∧ a.bytes = 2) ∨
    (a.size = 2 ∧ a.bytes = 4) := by
  rcases LsuReq.size_cases h.size with hz | hz | hz <;> simp [bytes, hz, DcOp.bytes]

/-- The mask and the repeated data write the bytes of the store. -/
theorem toDc_apply (h : a.Ok) : a.toDc.apply F = a.written F := by
  funext p
  have hp : p % 4 < 4 := Nat.mod_lt _ (by decide)
  rw [DcAccess.apply, written]
  cases hs : a.store with
  | false =>
      have : a.toDc.wmsk = 0 := LsuReq.dcWmsk_of_load hs
      simp [this]
  | true =>
      have hm := LsuReq.dcWmsk_getLsbD (q := a.req) hs h.size hp
      have hd := LsuReq.byteOf_dcWdat (q := a.req) h.size hp
      change a.toDc.wmsk.getLsbD (p % 4) =
        decide (p % 4 / a.bytes = a.addr.toNat % 4 / a.bytes) at hm
      change byteOf a.toDc.wdat (p % 4) = byteOf a.wdat (p % 4 % a.bytes) at hd
      have hc : (p / 4 = a.toDc.addr / 4 ∧ a.toDc.wmsk.getLsbD (p % 4) = true) ↔
          p / a.bytes = a.addr.toNat / a.bytes := by
        rw [hm, decide_eq_true_iff]
        change p / 4 = a.addr.toNat / 4 ∧ _ ↔ _
        rcases bytes_cases h with ⟨-, hb⟩ | ⟨-, hb⟩ | ⟨-, hb⟩ <;> rw [hb] <;> omega
      have hmod : p % 4 % a.bytes = p % a.bytes := by
        rcases bytes_cases h with ⟨-, hb⟩ | ⟨-, hb⟩ | ⟨-, hb⟩ <;> rw [hb] <;> omega
      simp only [hc, hd, hmod, true_and]

/-- The addresses of the bytes of an access do not wrap. -/
theorem eq_add_iff {v w : Word} {k : ℕ} (h : v.toNat + k < 2 ^ 32) :
    w = v + BitVec.ofNat 32 k ↔ w.toNat = v.toNat + k := by
  have hk : (BitVec.ofNat 32 k).toNat = k := by
    rw [BitVec.toNat_ofNat, Nat.mod_eq_of_lt (by omega)]
  have hv : (v + BitVec.ofNat 32 k).toNat = v.toNat + k := by
    rw [BitVec.toNat_add, hk, Nat.mod_eq_of_lt h]
  rw [← hv]
  exact ⟨congrArg _, BitVec.eq_of_toNat_eq⟩

theorem toNat_add {v : Word} {k : ℕ} (h : v.toNat + k < 2 ^ 32) :
    (v + BitVec.ofNat 32 k).toNat = v.toNat + k := (eq_add_iff h).1 rfl

theorem byteOf_eq_setWidth (v : Word) (k : ℕ) : byteOf v k = (v >>> (8 * k)).setWidth 8 := by
  refine BitVec.eq_of_getLsbD_eq fun i hi => ?_
  simp [byteOf, hi]

/-- The emulator writes the bytes of the store. -/
theorem emBytes_eq (h : a.Ok) : a.emBytes (fun w => F w.toNat) = fun w => a.written F w.toNat := by
  funext w
  rw [emBytes, written]
  cases hs : a.store with
  | false => simp
  | true =>
      have hlt := a.addr.isLt
      have hal := h.aligned
      rw [if_pos rfl]
      rcases bytes_cases h with ⟨hz, hb⟩ | ⟨hz, hb⟩ | ⟨hz, hb⟩
      · have h₀ : w = a.addr ↔ w.toNat = a.addr.toNat := ⟨congrArg _, BitVec.eq_of_toNat_eq⟩
        rw [if_neg (by rw [hz]; decide), if_neg (by rw [hz]; decide), Em.phyWritem8,
          Function.update_apply, hb, Nat.div_one, Nat.div_one, Nat.mod_one, byteOf_eq_setWidth]
        simp only [h₀, true_and]
        rfl
      · rw [hb] at hal
        have h₀ : w = a.addr ↔ w.toNat = a.addr.toNat := ⟨congrArg _, BitVec.eq_of_toNat_eq⟩
        have h₁ : w = a.addr + 1 ↔ w.toNat = a.addr.toNat + 1 := eq_add_iff (k := 1) (by omega)
        rw [if_neg (by rw [hz]; decide), if_pos hz, Em.phyWritem16, Em.phyWritem8, Em.phyWritem8,
          Function.update_apply, Function.update_apply, hb]
        simp only [h₀, h₁, true_and]
        by_cases hc : w.toNat / 2 = a.addr.toNat / 2
        · rw [if_pos hc]
          have e : w.toNat = a.addr.toNat ∨ w.toNat = a.addr.toNat + 1 := by omega
          rcases e with e | e
          · rw [if_neg (by omega), if_pos e, show w.toNat % 2 = 0 by omega, byteOf_eq_setWidth]
            simp
          · rw [if_pos e, show w.toNat % 2 = 1 by omega, byteOf_eq_setWidth]
            refine BitVec.eq_of_getLsbD_eq fun i hi => ?_
            simp [hi, show 8 + i < 16 by omega]
        · rw [if_neg hc, if_neg (by omega), if_neg (by omega)]
      · rw [hb] at hal
        have h₀ : w = a.addr ↔ w.toNat = a.addr.toNat := ⟨congrArg _, BitVec.eq_of_toNat_eq⟩
        have h₁ : w = a.addr + 1 ↔ w.toNat = a.addr.toNat + 1 := eq_add_iff (k := 1) (by omega)
        have h₂ : w = a.addr + 2 ↔ w.toNat = a.addr.toNat + 2 := eq_add_iff (k := 2) (by omega)
        have h₃ : w = a.addr + 3 ↔ w.toNat = a.addr.toNat + 3 := eq_add_iff (k := 3) (by omega)
        rw [if_pos hz, Em.phyWritem32, Em.phyWritem8, Em.phyWritem8, Em.phyWritem8, Em.phyWritem8,
          Function.update_apply, Function.update_apply, Function.update_apply,
            Function.update_apply, hb]
        simp only [h₀, h₁, h₂, h₃, true_and]
        by_cases hc : w.toNat / 4 = a.addr.toNat / 4
        · rw [if_pos hc, byteOf_eq_setWidth]
          have e : w.toNat = a.addr.toNat ∨ w.toNat = a.addr.toNat + 1 ∨
            w.toNat = a.addr.toNat + 2 ∨ w.toNat = a.addr.toNat + 3 := by omega
          rcases e with e | e | e | e
          · rw [if_neg (by omega), if_neg (by omega), if_neg (by omega), if_pos e,
              show w.toNat % 4 = 0 by omega]
            rfl
          · rw [if_neg (by omega), if_neg (by omega), if_pos e, show w.toNat % 4 = 1 by omega]
          · rw [if_neg (by omega), if_pos e, show w.toNat % 4 = 2 by omega]
          · rw [if_pos e, show w.toNat % 4 = 3 by omega]
        · rw [if_neg hc, if_neg (by omega), if_neg (by omega), if_neg (by omega), if_neg (by omega)]

/-- The half word of an address, and the word, from their bytes. -/
theorem half_eq (v : Word) {r : BitVec 2} (hr : r.toNat % 2 = 0) :
    (if r.getLsbD 1 then v.extractLsb' 16 16 else v.extractLsb' 0 16) =
      ((byteOf v (r.toNat + 1)).setWidth 16 <<< 8) ||| (byteOf v r.toNat).setWidth 16 := by
  have hcase : r = 0 ∨ r = 2 := by
    revert r
    decide
  refine BitVec.eq_of_getLsbD_eq fun i hi => ?_
  rcases hcase with rfl | rfl <;>
    simp [byteOf, hi] <;> grind

theorem word_eq (v : Word) :
    ((byteOf v 3).setWidth 32 <<< 24) ||| ((byteOf v 2).setWidth 32 <<< 16) |||
      ((byteOf v 1).setWidth 32 <<< 8) ||| (byteOf v 0).setWidth 32 = v := by
  refine BitVec.eq_of_getLsbD_eq fun i hi => ?_
  simp [byteOf, hi]
  grind

/-- The unit gives a load the value that the emulator gives it, if the lanes of the word that comes
back hold the bytes of the access. -/
theorem wbDout_eq (h : a.Ok) {l : Lsu} {dout : Word} (hz : l.s2Size = a.size)
    (hx : l.s2SignExt = a.signExt) (hv : l.s2Vaddr.toNat % 4 = a.addr.toNat % 4)
    (hd : ∀ k < a.bytes, byteOf dout ((a.addr.toNat + k) % 4) = F (a.addr.toNat + k)) :
    l.wbDout dout = a.emValue fun w => F w.toNat := by
  have hlt := a.addr.isLt
  have hal := h.aligned
  obtain ⟨r, h₂, h₃, h₁, -⟩ := LsuReq.low_bits l.s2Vaddr
  rw [h₃] at hv
  rw [Lsu.wbDout, emValue, hz, hx]
  rcases bytes_cases h with ⟨hz, hb⟩ | ⟨hz, hb⟩ | ⟨hz, hb⟩ <;> rw [hb] at hd hal <;> rw [hz]
  · have h8 : l.dout8 dout = F a.addr.toNat := by
      rw [Lsu.dout8, h₂, hv]
      exact hd 0 (by omega)
    have hx : ((F a.addr.toNat).setWidth 32 ^^^ (0x80 : Word)) - 0x80 =
      (F a.addr.toNat).signExtend 32 :=
      Em.signExtend_eq_xor_sub (k := 7) (F a.addr.toNat) (by decide)
    rw [h8, Em.phyReadm8, hx]
    cases a.signExt <;> simp
  · have hb₀ : F a.addr.toNat = byteOf dout r.toNat := by rw [hv]; exact (hd 0 (by omega)).symm
    have hb₁ : F (a.addr.toNat + 1) = byteOf dout (r.toNat + 1) := by
      rw [hv, show a.addr.toNat % 4 + 1 = (a.addr.toNat + 1) % 4 by omega]
      exact (hd 1 (by omega)).symm
    have h16 : l.dout16 dout = Em.phyReadm16 (fun w => F w.toNat) a.addr := by
      have ha₁ : (a.addr + 1).toNat = a.addr.toNat + 1 := toNat_add (k := 1) (by omega)
      rw [Em.phyReadm16, ha₁, hb₀, hb₁, Lsu.dout16, h₁]
      exact half_eq dout (by rw [hv]; omega)
    have hx : ((l.dout16 dout).setWidth 32 ^^^ (0x8000 : Word)) - 0x8000 =
        (l.dout16 dout).signExtend 32 :=
      Em.signExtend_eq_xor_sub (k := 15) (l.dout16 dout) (by decide)
    rw [← h16, hx]
    cases a.signExt <;> simp
  · have ha₁ : (a.addr + 1).toNat = a.addr.toNat + 1 := toNat_add (k := 1) (by omega)
    have ha₂ : (a.addr + 2).toNat = a.addr.toNat + 2 := toNat_add (k := 2) (by omega)
    have ha₃ : (a.addr + 3).toNat = a.addr.toNat + 3 := toNat_add (k := 3) (by omega)
    have hF : ∀ k < 4, F (a.addr.toNat + k) = byteOf dout k := by
      intro k hk
      rw [← hd k hk]
      congr 1
      omega
    rw [Em.phyReadm32, ha₁, ha₂, ha₃, hF 1 (by omega), hF 2 (by omega), hF 3 (by omega),
      show a.addr.toNat = a.addr.toNat + 0 from rfl, hF 0 (by omega), word_eq]
    simp

end LsuAcc

/-! ### Lists of accesses -/

/-- The bytes of the emulator after a list of accesses. -/
def emMem (m : Em.Bytes) (l : List LsuAcc) : Em.Bytes := l.foldl (fun m a => a.emBytes m) m

/-- The values that the emulator gives the loads of a list of accesses. -/
def emAnswers (m : Em.Bytes) : List LsuAcc → List (Option Word)
  | [] => []
  | a :: l => (if a.store then none else some (a.emValue m)) :: emAnswers (a.emBytes m) l

theorem emAnswers_append (m : Em.Bytes) (l : List LsuAcc) (a : LsuAcc) :
    emAnswers m (l ++ [a]) =
      emAnswers m l ++ [if a.store then none else some (a.emValue (emMem m l))] := by
  induction l generalizing m with
  | nil => rfl
  | cons b l ih => rw [List.cons_append, emAnswers, emAnswers, ih, List.cons_append]; rfl

/-- The flat memory after the accesses is that of the emulator. -/
theorem emMem_eq {m₀ : ℕ → Byte} {l : List LsuAcc} (hl : ∀ a ∈ l, a.Ok) :
    emMem (fun w => m₀ w.toNat) l = fun w => flatMem m₀ (l.map LsuAcc.toDc) w.toNat := by
  induction l using List.reverseRecOn with
  | nil => rfl
  | append_singleton l a ih =>
      have ha : a.Ok := hl a (by simp)
      have hm : emMem (fun w => m₀ w.toNat) (l ++ [a]) =
          a.emBytes (emMem (fun w => m₀ w.toNat) l) := by
        rw [emMem, List.foldl_append]
        rfl
      have hf : flatMem m₀ ((l ++ [a]).map LsuAcc.toDc) =
          a.toDc.apply (flatMem m₀ (l.map LsuAcc.toDc)) := by
        rw [flatMem, List.map_append, List.foldl_append]
        rfl
      rw [hm, hf, ih fun b hb => hl b (by simp [hb]), LsuAcc.emBytes_eq ha, LsuAcc.toDc_apply ha]

/-! ### The observer -/

/-- The request in the first stage, the access in the second, and the accesses that are done, each
with what was written back. -/
structure LsuHist where
  req : Option LsuReq
  acc : Option LsuAcc
  done : List (LsuAcc × Word)

/-- The accesses that are done. -/
def LsuHist.accs (h : LsuHist) : List LsuAcc := h.done.map Prod.fst

/-- What the loads among them have returned. -/
def LsuHist.answers (h : LsuHist) : List (Option Word) :=
  h.done.map fun d => if d.1.store then none else some d.2

/-- A load or a store as it is decoded. -/
structure LsuReq.IsAccess (q : LsuReq) : Prop where
  load : q.opc.load = !q.opc.store
  size : q.opc.size.toNat ≤ 2

/-- The access that a request asks for, at a physical address. -/
def LsuReq.access (q : LsuReq) (pa : Word) : LsuAcc :=
  ⟨q.opc.store, q.opc.size, q.opc.signExt, pa, q.wdat⟩

variable {n : ℕ} [NeZero n]

/-- A request enters the first stage, an access that is not killed the second, and it is done when
the unit writes back. -/
def LsuHist.next (seg : Bool) (h : LsuHist) (s : LsuSide n) (x : LsuSideIn n) : LsuHist where
  req := if x.q.dcReq then some x.q.toLsuReq else none
  acc :=
    if s.lsu.s1Valid then
      if s.lsu.killReq then none else h.req.map fun q => q.access (s.dc.s2iPaddr (s.dcIn seg x))
    else if s.dc.stallReq then h.acc
    else none
  done := h.done ++
    if s.lsu.wbValid x.q.pCeS2 then (h.acc.map fun a => (a, s.lsu.wbDout s.dc.dout)).toList else []

/-- A cache that stalls works on an access. -/
theorem Dcache.Inv.pending_isSome {S : ℕ} {s : Dcache n} {m : AxiMem} {F : ℕ → Byte}
    (h : s.Inv S m F) (hb : s.state ≠ .boot) (hi : s.state ≠ .idle) : ∃ a, s.pending = some a := by
  have hp := h.phase
  rw [Phase] at hp
  cases hst : s.state <;> rw [hst] at hp
  case boot => exact absurd hst hb
  case idle => exact absurd hst hi
  case invalidate | flush | uncachedBoot | uncachedRead | uncachedWrite => exact hp.elim
  all_goals exact ⟨s.missAccess, by simp [pending, hst]⟩

namespace LsuSide

/-- The unit under loads and stores that take one of the two ways, with the observer. -/
def lanes (n : ℕ) [NeZero n] (S : ℕ) (seg : Bool) (pay : Fin n → ℕ × ℕ → ℕ → Byte) (m₀ : ℕ → Byte)
    (u : Bool) : Machine (LsuSide n × LsuHist) (LsuSideIn n) :=
  (machine n S seg pay m₀).observe ⟨none, none, []⟩ (fun h s x => h.next seg s x) fun _ s x =>
    (x.q.dcop = false ∧ (x.q.dcReq = true → x.q.IsAccess)) ∧
      (s.lsu.s1Valid = true → s.lsu.killReq = false → s.lsu.uncached seg = u)

variable {S : ℕ} {seg u : Bool} {pay : Fin n → ℕ × ℕ → ℕ → Byte} {m₀ : ℕ → Byte} {s : LsuSide n}
  {x : LsuSideIn n} {h : LsuHist}

/-- What the notes say about the registers of the unit. -/
structure Noted (s : LsuSide n) (h : LsuHist) : Prop where
  req : s.lsu.s1Valid = true → ∃ q : LsuIn, h.req = some q.toLsuReq ∧ q.IsAccess ∧ q.dcop = false ∧
    s.dc.s1o.toDcReq = q.toDc ∧ s.lsu.s1Size = q.opc.size ∧ s.lsu.s1SignExt = q.opc.signExt ∧
    s.lsu.s1Vaddr = q.vaddr ∧ s.lsu.s1Ealign = q.misalign
  acc : ∀ a, h.acc = some a → s.lsu.s2Valid = true ∧ a.Ok ∧ s.lsu.s2Size = a.size ∧
    s.lsu.s2SignExt = a.signExt ∧ s.lsu.s2Vaddr.toNat % 4 = a.addr.toNat % 4
  ok : ∀ a ∈ h.accs, a.Ok

/-- The access that enters the second stage. -/
theorem Noted.enters (seg : Bool) (hn : s.Noted h) (hv : s.lsu.s1Valid = true)
    (hk : s.lsu.killReq = false) :
    ∃ a, (h.next seg s x).acc = some a ∧ a.Ok ∧ s.lsu.s1Size = a.size ∧
      s.lsu.s1SignExt = a.signExt ∧
      s.lsu.s1Vaddr.toNat % 4 = a.addr.toNat % 4 ∧ s.dc.hitAccess (s.dcIn seg x) = a.toDc ∧
      s.dc.s1o.size = a.size := by
  obtain ⟨q, hq, hacc, hdc, hs1, e₁, e₂, e₃, e₄⟩ := hn.req hv
  set pa := s.dc.s2iPaddr (s.dcIn seg x) with hpa
  have hlow : pa.toNat % 4 = q.vaddr.toNat % 4 ∧ pa.toNat % 4 % DcOp.bytes q.opc.size =
      q.vaddr.toNat % 4 % DcOp.bytes q.opc.size := by
    have hvpo : s.dc.s1o.vpo = q.vaddr.extractLsb' 0 13 := by
      rw [show s.dc.s1o.vpo = s.dc.s1o.toDcReq.vpo from rfl, hs1]
      rfl
    have : pa.toNat % 4 = q.vaddr.toNat % 4 := by
      rw [hpa, Dcache.s2iPaddr_toNat, hvpo, BitVec.extractLsb'_toNat, Nat.shiftRight_zero]
      omega
    exact ⟨this, by rw [this]⟩
  have hmis : q.misalign = false := by
    rw [← e₄]
    simp only [Lsu.killReq, Bool.or_eq_false_iff] at hk
    exact hk.2
  have hok : (q.access pa).Ok := by
    refine ⟨hacc.size, ?_⟩
    have := LsuReq.aligned_of_not_misalign hacc.size hmis
    change pa.toNat % DcOp.bytes q.opc.size = 0
    rcases LsuReq.size_cases hacc.size with hz | hz | hz <;> rw [hz] at this ⊢ <;>
      simp only [DcOp.bytes] at this ⊢ <;> simp at this ⊢ <;> omega
  refine ⟨q.access pa, ?_, hok, e₁, e₂, by rw [e₃]; exact hlow.1.symm, ?_, ?_⟩
  · rw [LsuHist.next, hv, hk, hq]
    rfl
  · have hwm : s.dc.s1o.wmsk = (q.access pa).toDc.wmsk := by
      rw [show s.dc.s1o.wmsk = s.dc.s1o.toDcReq.wmsk from rfl, hs1]
      exact LsuReq.dcWmsk_congr rfl rfl hlow.1.symm
    have hwd : s.dc.s1o.wdat = (q.access pa).toDc.wdat := by
      rw [show s.dc.s1o.wdat = s.dc.s1o.toDcReq.wdat from rfl, hs1]
      rfl
    rw [Dcache.hitAccess, hwm, hwd]
    rfl
  · rw [show s.dc.s1o.size = s.dc.s1o.toDcReq.size from rfl, hs1]
    rfl

theorem acc_next_of_kill (hv : s.lsu.s1Valid = true) (hk : s.lsu.killReq = true) :
    (h.next seg s x).acc = none := by
  change (if s.lsu.s1Valid then if s.lsu.killReq then none else _ else _) = none
  rw [if_pos hv, if_pos hk]

theorem acc_next_of_not (hv : s.lsu.s1Valid = false) :
    (h.next seg s x).acc = if s.dc.stallReq then h.acc else none := by
  change (if s.lsu.s1Valid then _ else _) = _
  rw [hv, if_neg Bool.false_ne_true]

theorem accs_next : (h.next seg s x).accs = h.accs ++
    if s.lsu.wbValid x.q.pCeS2 then h.acc.toList else [] := by
  rw [LsuHist.accs, LsuHist.next, List.map_append]
  congr 1
  split_ifs
  · cases h.acc <;> rfl
  · rfl

theorem Noted.next (hl : s.Link) (hq : s.Polite x.q) (hn : s.Noted h) (hdc : x.q.dcop = false)
    (hx : x.q.dcReq = true → x.q.IsAccess) : (s.next S seg x).Noted (h.next seg s x) := by
  refine ⟨fun hv => ?_, fun a ha => ?_, fun a ha => ?_⟩
  · -- a request comes in when the cache does not stall
    have hst : s.dc.state = .idle := by
      by_contra hne
      rw [(next_of_stall seg hq hne).1] at hv
      exact hne (hl.idle hv)
    rw [hq.s1_next seg hst] at hv
    have hce : x.q.pCeS1 = true := by
      rw [LsuIn.dcReq, Bool.and_eq_true] at hv
      exact hv.1
    refine ⟨x.q, ?_, hx hv, hdc, (next_of_idle seg hq hst).2, ?_⟩
    · rw [LsuHist.next, hv]
      rfl
    · simp only [LsuSide.next, Lsu.next, hce, ldff_true, true_and]
  · cases hv : s.lsu.s1Valid with
    | true =>
        have hidle := hl.idle hv
        have hce : x.q.pCeS2 = true := by rw [hq.ce2, Dcache.stallReq, hidle]; rfl
        cases hk : s.lsu.killReq with
        | true =>
            rw [acc_next_of_kill hv hk] at ha
            cases ha
        | false =>
            obtain ⟨b, hb, hok, e₁, e₂, e₃, -⟩ := Noted.enters (x := x) seg hn hv hk
            obtain rfl := Option.some_inj.1 (ha.symm.trans hb)
            refine ⟨(next_of_idle seg hq hidle).1.trans hv, hok, ?_⟩
            simp only [LsuSide.next, Lsu.next, hce, ldff_true]
            exact ⟨e₁, e₂, e₃⟩
    | false =>
        rw [acc_next_of_not hv] at ha
        split_ifs at ha with hs
        have hce : x.q.pCeS2 = false := by rw [hq.ce2, hs]; rfl
        simpa only [LsuSide.next, Lsu.next, hce, ldff_false] using hn.acc a ha
  · rw [accs_next, List.mem_append] at ha
    rcases ha with ha | ha
    · exact hn.ok a ha
    · split_ifs at ha
      · rw [Option.mem_toList] at ha
        exact (hn.acc a ha).2.1
      · cases ha

theorem Noted.acc_none_of_s2 (hn : s.Noted h) (hv : s.lsu.s2Valid = false) : h.acc = none := by
  cases ha : h.acc with
  | none => rfl
  | some a =>
      have := (hn.acc a ha).1
      rw [hv] at this
      cases this

/-- The access in the second stage is the only one in the unit. -/
theorem Noted.acc_none (hl : s.Link) (hn : s.Noted h) (hv : s.lsu.s1Valid = true) : h.acc = none :=
  hn.acc_none_of_s2 (hl.one hv)

/-- An access leaves the second stage in the first cycle without a stall. -/
theorem Noted.accs_next (hq : s.Polite x.q) (hn : s.Noted h) :
    (h.next seg s x).accs = if s.dc.stallReq then h.accs else h.accs ++ h.acc.toList := by
  rw [LsuSide.accs_next, hq.ce2, Lsu.wbValid]
  cases hs : s.dc.stallReq with
  | true => simp
  | false =>
      cases ha : h.acc with
      | none => simp
      | some a => simp [(hn.acc a ha).1]

/-- The lanes of the word that the cache shows hold the bytes that a load asks for. -/
def Serves (m₀ : ℕ → Byte) (s : LsuSide n) (h : LsuHist) : Prop :=
  ∀ a, h.acc = some a → s.dc.state = .idle → a.store = false → ∀ k < a.bytes,
    byteOf s.dc.dout ((a.addr.toNat + k) % 4) = flatMem m₀ (h.accs.map LsuAcc.toDc)
      (a.addr.toNat + k)

/-- What is written back to a load is what the emulator gives it. -/
theorem answers_next (hq : s.Polite x.q) (hn : s.Noted h) (hs : s.Serves m₀ h)
    (ha : h.answers = emAnswers (fun w => m₀ w.toNat) h.accs) :
    (h.next seg s x).answers = emAnswers (fun w => m₀ w.toNat) (h.next seg s x).accs := by
  have hans : (h.next seg s x).answers = h.answers ++ if s.lsu.wbValid x.q.pCeS2 then
      (h.acc.map fun a => if a.store then none else some (s.lsu.wbDout s.dc.dout)).toList
        else [] := by
    rw [LsuHist.answers, LsuHist.next, List.map_append, LsuHist.answers]
    congr 1
    split_ifs
    · cases h.acc <;> rfl
    · rfl
  rw [hans, hn.accs_next hq, hq.ce2, Lsu.wbValid]
  cases hst : s.dc.stallReq with
  | true => simpa using ha
  | false =>
      cases hacc : h.acc with
      | none => simpa using ha
      | some a =>
          obtain ⟨hv, hok, e₁, e₂, e₃⟩ := hn.acc a hacc
          have hidle : s.dc.state = .idle := by simpa [Dcache.stallReq] using hst
          rw [hv]
          simp only [Bool.not_false, Bool.and_self, if_true, Option.map_some, Option.toList_some,
            Bool.false_eq_true, if_false]
          rw [emAnswers_append, ha, emMem_eq hn.ok]
          cases hw : a.store with
          | true => rfl
          | false => rw [LsuAcc.wbDout_eq hok e₁ e₂ e₃ (hs a hacc hidle hw)]

/-! ### The cached way -/

/-- The accesses are those that the cache has taken on. -/
def Logged (S : ℕ) (pay : Fin n → ℕ × ℕ → ℕ → Byte) (m₀ : ℕ → Byte) (s : LsuSide n)
    (h : LsuHist) : Prop :=
  ∃ d, (Dcache.cached n S pay m₀).Reach ((s.dc, s.mem), d) ∧
    d.asked = (h.accs ++ h.acc.toList).map LsuAcc.toDc ∧
    ∀ a, h.acc = some a → s.dc.state = .idle → d.out = some a.toDc

theorem Logged.log_eq (hS : S ≤ 7) {d : DcHist}
    (hr : (Dcache.cached n S pay m₀).Reach ((s.dc, s.mem), d))
    (hd : d.asked = (h.accs ++ h.acc.toList).map LsuAcc.toDc)
    (hst : s.dc.state = .idle ∨ s.dc.state = .boot) :
    d.log = (h.accs ++ h.acc.toList).map LsuAcc.toDc := by
  rw [← hd, (Dcache.observed_of_reach hS hr).asked]
  rcases hst with hst | hst <;> simp [Dcache.pending, hst]

theorem Logged.serves (hS : S ≤ 7) (hl : s.Logged S pay m₀ h) (hn : s.Noted h) : s.Serves m₀ h := by
  obtain ⟨d, hr, hd, hout⟩ := hl
  intro a ha hst hld k hk
  obtain ⟨-, hok, -⟩ := hn.acc a ha
  have hw : a.toDc.wmsk = 0 := LsuReq.dcWmsk_of_load hld
  have hlog := Logged.log_eq hS hr hd (Or.inl hst)
  have hF : flatMem m₀ d.log = flatMem m₀ (h.accs.map LsuAcc.toDc) := by
    rw [hlog, ha, List.map_append, flatMem, List.foldl_append]
    exact apply_of_load hw _
  have hj : (a.addr.toNat + k) % 4 < 4 := Nat.mod_lt _ (by decide)
  have := (Dcache.observed_of_reach hS hr).out _ (hout a ha hst) hw _ hj
  rw [this, hF]
  congr 1
  change a.addr.toNat / 4 * 4 + _ = _
  have hal := hok.aligned
  rcases LsuAcc.bytes_cases hok with ⟨-, hb⟩ | ⟨-, hb⟩ | ⟨-, hb⟩ <;> rw [hb] at hk hal <;> omega

theorem Logged.next (hS : S ≤ 7) (hlk : s.Link) (hq : s.Polite x.q) (ha : s.mem.Answers x.axi)
    (hn : s.Noted h) (hl : s.Logged S pay m₀ h) (hdc : x.q.dcop = false)
    (hu : s.lsu.s1Valid = true → s.lsu.killReq = false → s.lsu.uncached seg = false) :
    (s.next S seg x).Logged S pay m₀ (h.next seg s x) := by
  obtain ⟨d, hr, hd, hout⟩ := hl
  have hx : s.dc.Cached (s.dcIn seg x) := by
    simp only [LsuReq.dcop, Bool.or_eq_false_iff] at hdc
    refine ⟨hdc.1, hdc.2, fun _ hreq hunc => ?_⟩
    rw [hlk.req] at hreq
    by_contra hne
    have := hu hreq (Bool.eq_false_of_not_eq_true hne)
    rw [show s.lsu.uncached seg = true from hunc] at this
    cases this
  have hobs := Dcache.observed_of_reach hS hr
  have hpend := hobs.inv.pending_next hx ha
  have hidle : ∀ t : Dcache n, t.state = .idle → t.pending = none := fun t ht => by
    simp [Dcache.pending, ht]
  refine ⟨d.next S s.dc (s.dcIn seg x), Machine.Reach.tick hr ⟨ha, hx⟩, ?_, fun a hacc hst => ?_⟩
  · change d.asked ++ (s.dc.taken (s.dcIn seg x)).toList = _
    rw [hn.accs_next hq, hd]
    cases hv : s.lsu.s1Valid with
    | true =>
        have hst := hlk.idle hv
        have hstall : s.dc.stallReq = false := by simp [Dcache.stallReq, hst]
        rw [hn.acc_none hlk hv, hstall, Dcache.taken]
        cases hk : s.lsu.killReq with
        | true =>
            have hk' : (s.dcIn seg x).kill = true := hk
            rw [acc_next_of_kill hv hk]
            simp [hk']
        | false =>
            obtain ⟨a, hacc, -, -, -, -, he, -⟩ := Noted.enters (x := x) seg hn hv hk
            rw [hacc, he, if_pos ⟨hst, by rw [hlk.req, hv], hk⟩]
            simp
    | false =>
        have ht : s.dc.taken (s.dcIn seg x) = none := by simp [Dcache.taken, hlk.req, hv]
        rw [ht, acc_next_of_not hv]
        cases s.dc.stallReq <;> simp
  · change s.dc.done S (s.dcIn seg x) = _
    have hdone : (s.dc.done S (s.dcIn seg x)).toList =
        s.dc.pending.toList ++ (s.dc.taken (s.dcIn seg x)).toList := by
      rw [hpend, hidle (s.dc.next S (s.dcIn seg x)) hst]
      simp
    cases hv : s.lsu.s1Valid with
    | true =>
        have hst := hlk.idle hv
        cases hk : s.lsu.killReq with
        | true =>
            rw [acc_next_of_kill hv hk] at hacc
            cases hacc
        | false =>
            obtain ⟨b, hb, -, -, -, -, he, -⟩ := Noted.enters (x := x) seg hn hv hk
            obtain rfl := Option.some_inj.1 (hacc.symm.trans hb)
            rw [hidle _ hst, Dcache.taken, if_pos ⟨hst, by rw [hlk.req, hv], hk⟩, he] at hdone
            simpa using hdone
    | false =>
        -- the access that ends is the last one that was taken on
        rw [acc_next_of_not hv] at hacc
        split_ifs at hacc with hstall
        have ht : s.dc.taken (s.dcIn seg x) = none := by simp [Dcache.taken, hlk.req, hv]
        obtain ⟨b, hb⟩ := hobs.inv.pending_isSome (hlk.boot (hn.acc a hacc).1)
          (by simpa [Dcache.stallReq] using hstall)
        rw [ht, hb] at hdone
        have hlast := hobs.asked
        rw [hd, hacc, hb] at hlast
        have hab : a.toDc = b := by
          have := congrArg List.getLast? hlast
          simpa using this
        rw [hab]
        simpa using hdone

/-- When no access is in the second stage the view of the cache is the memory of the emulator. -/
theorem Logged.view_eq (hS : S ≤ 7) (hlk : s.Link) (hn : s.Noted h) (hl : s.Logged S pay m₀ h)
    (hv : s.lsu.s2Valid = false) (p : ℕ) :
    s.dc.view S s.mem.mem p = flatMem m₀ (h.accs.map LsuAcc.toDc) p := by
  obtain ⟨d, hr, hd, -⟩ := hl
  have hacc := hn.acc_none_of_s2 hv
  have hlog := Logged.log_eq hS hr hd (hlk.quiet hv).symm
  rw [hacc] at hlog
  rw [(Dcache.observed_of_reach hS hr).inv.view_eq, hlog]
  simp

/-! ### The uncached way -/

/-- The access is the one that the cache works on, and memory is as it was at its start. -/
def Direct (S : ℕ) (pay : Fin n → ℕ × ℕ → ℕ → Byte) (m₀ : ℕ → Byte) (s : LsuSide n)
    (h : LsuHist) : Prop :=
  ∃ g, (Dcache.ops n S pay m₀).Reach ((s.dc, s.mem), g) ∧
    (h.acc = none → (s.dc.state = .boot ∨ s.dc.state = .idle) ∧
      s.mem.mem = flatMem m₀ (h.accs.map LsuAcc.toDc)) ∧
    ∀ a, h.acc = some a → ∃ o, g = some o ∧ o.isUncached ∧ o.addr = a.addr.toNat ∧
      o.cache.s1o.size = a.size ∧ o.cache.s1o.wmsk = a.toDc.wmsk ∧ o.cache.s1o.wdat = a.toDc.wdat ∧
      o.mem.mem = flatMem m₀ (h.accs.map LsuAcc.toDc)

/-- An access that is done has written what its mask says. -/
theorem mem_of_doneUncached {a : LsuAcc} (hok : a.Ok) {o : DcOp n} {F : ℕ → Byte}
    (ho : o.addr = a.addr.toNat) (hz : o.cache.s1o.size = a.size)
    (hm : o.cache.s1o.wmsk = a.toDc.wmsk) (hw : o.cache.s1o.wdat = a.toDc.wdat) (hF : o.mem.mem = F)
    (hd : o.DoneUncached s.dc s.mem) : s.mem.mem = a.toDc.apply F := by
  cases hs : a.store with
  | false =>
      have h0 : a.toDc.wmsk = 0 := LsuReq.dcWmsk_of_load hs
      rw [(hd.load (by rw [hm, h0])).1, hF, apply_of_load h0]
  | true =>
      have hlow : a.addr.toNat % 4 < 4 := Nat.mod_lt _ (by decide)
      have h1 : a.toDc.wmsk ≠ 0 := by
        intro h0
        have := LsuReq.dcWmsk_getLsbD (q := a.req) hs hok.size hlow
        change a.toDc.wmsk.getLsbD _ = decide (_ / _ = a.addr.toNat % 4 / _) at this
        rw [h0] at this
        simp at this
      funext p
      have hp : p % 4 < 4 := Nat.mod_lt _ (by decide)
      rw [hd.store (by rw [hm]; exact h1) p, LsuAcc.toDc_apply hok, LsuAcc.written, hz, hw, ho, hF]
      have hdat := LsuReq.byteOf_dcWdat (q := a.req) hok.size hp
      change byteOf a.toDc.wdat (p % 4) = byteOf a.wdat (p % 4 % a.bytes) at hdat
      have hmod : p % 4 % a.bytes = p % a.bytes := by
        rcases LsuAcc.bytes_cases hok with ⟨-, hb⟩ | ⟨-, hb⟩ | ⟨-, hb⟩ <;> rw [hb] <;> omega
      rw [hdat, hmod]
      simp only [hs, true_and]
      rfl

/-- What memory holds when the access in the second stage is done. -/
theorem Direct.mem_eq (hS : S ≤ 7) (hn : s.Noted h) (hd : s.Direct S pay m₀ h)
    (hst : s.dc.state = .idle) :
    s.mem.mem = flatMem m₀ ((h.accs ++ h.acc.toList).map LsuAcc.toDc) := by
  obtain ⟨g, hr, hnone, hsome⟩ := hd
  cases ha : h.acc with
  | none => simpa using (hnone ha).2
  | some a =>
      obtain ⟨o, rfl, hu, e₁, e₂, e₃, e₄, e₅⟩ := hsome a ha
      have hdone := ((Dcache.done_of_reach hS hr hst).2.uncached hu).2
      rw [mem_of_doneUncached (hn.acc a ha).2.1 e₁ e₂ e₃ e₄ e₅ hdone]
      simp [flatMem]

theorem Direct.serves (hS : S ≤ 7) (hd : s.Direct S pay m₀ h) (hn : s.Noted h) : s.Serves m₀ h := by
  obtain ⟨g, hr, -, hsome⟩ := hd
  intro a ha hst hld k hk
  obtain ⟨-, hok, -⟩ := hn.acc a ha
  obtain ⟨o, rfl, hu, e₁, e₂, e₃, e₄, e₅⟩ := hsome a ha
  have hdone := ((Dcache.done_of_reach hS hr hst).2.uncached hu).2
  have hw : a.toDc.wmsk = 0 := LsuReq.dcWmsk_of_load hld
  have hal := hok.aligned
  rw [(hdone.load (by rw [e₃, hw])).2 (a.addr.toNat + k) (by rw [e₁]; omega), e₅]
  · rw [e₁, e₂]
    rcases LsuAcc.bytes_cases hok with ⟨hz, hb⟩ | ⟨hz, hb⟩ | ⟨hz, hb⟩ <;> rw [hb] at hk <;>
      rw [hz] <;>
      simp <;> omega
  · rw [e₁]
    rcases LsuAcc.bytes_cases hok with ⟨-, hb⟩ | ⟨-, hb⟩ | ⟨-, hb⟩ <;> rw [hb] at hk hal <;> omega

/-- Memory does not change while the cache is idle, or starts. -/
theorem mem_next_of_idle (hsh : s.dc.Shape S s.mem)
    (hst : s.dc.state = .boot ∨ s.dc.state = .idle) : (s.next S seg x).mem.mem = s.mem.mem := by
  have hb := hsh.bus
  refine AxiMem.NoWrite.mem_next ?_
  rcases hst with hst | hst <;> rw [Dcache.Bus, hst] at hb <;> exact hb.write

theorem Direct.next (hS : S ≤ 7) (hlk : s.Link) (hq : s.Polite x.q) (ha : s.mem.Answers x.axi)
    (hn : s.Noted h) (hd : s.Direct S pay m₀ h)
    (hu : s.lsu.s1Valid = true → s.lsu.killReq = false → s.lsu.uncached seg = true) :
    (s.next S seg x).Direct S pay m₀ (h.next seg s x) := by
  have hmem := hd.mem_eq hS hn
  obtain ⟨g, hr, hnone, hsome⟩ := hd
  have hsh := (Dcache.progress_of_reach hS hr).1
  refine ⟨Dcache.noteOp g s.dc s.mem (s.dcIn seg x),
    Machine.Reach.tick hr ⟨ha, hlk.dcAlone hq⟩, ?_⟩
  rw [hn.accs_next hq]
  cases hv : s.lsu.s1Valid with
  | true =>
      have hst := hlk.idle hv
      have hstall : s.dc.stallReq = false := by simp [Dcache.stallReq, hst]
      have hreq : s.dc.s1o.req = true := by rw [hlk.req, hv]
      obtain ⟨q, -, -, hdc, hs1, -⟩ := hn.req hv
      simp only [LsuReq.dcop, Bool.or_eq_false_iff] at hdc
      have hinv : s.dc.s1o.inv = false := by
        rw [show s.dc.s1o.inv = s.dc.s1o.toDcReq.inv from rfl, hs1]
        exact hdc.1
      have hfls : s.dc.s1o.fls = false := by
        rw [show s.dc.s1o.fls = s.dc.s1o.toDcReq.fls from rfl, hs1]
        exact hdc.2
      rw [hstall, if_neg Bool.false_ne_true, hn.acc_none hlk hv] at *
      simp only [Option.toList_none, List.append_nil] at hmem ⊢
      cases hk : s.lsu.killReq with
      | true =>
          -- a killed access does nothing
          rw [acc_next_of_kill hv hk]
          refine ⟨fun _ => ⟨Or.inr ?_, ?_⟩, fun a h' => by cases h'⟩
          · change s.dc.stateNxt S (s.dcIn seg x) = _
            have hk' : (s.dcIn seg x).kill = true := hk
            simp [Dcache.stateNxt, hst, hinv, hfls, hk']
          · rw [mem_next_of_idle hsh (Or.inr hst), hmem hst]
      | false =>
          obtain ⟨a, hacc, -, -, -, -, he, hz⟩ := Noted.enters (x := x) seg hn hv hk
          rw [hacc]
          refine ⟨fun h' => (by cases h'), fun b hb => ?_⟩
          obtain rfl := Option.some_inj.1 hb
          have hunc : (s.dcIn seg x).uncached = true := hu hv hk
          have hk' : (s.dcIn seg x).kill = false := hk
          refine ⟨⟨s.dc, s.mem, s.dcIn seg x⟩, ?_, ⟨hinv, hfls⟩, ?_, hz, ?_, ?_, hmem hst⟩
          · rw [Dcache.noteOp, if_pos (by simp [Dcache.starts, hst, hreq, hunc, hk'])]
          · exact congrArg DcAccess.addr he
          · exact congrArg DcAccess.wmsk he
          · exact congrArg DcAccess.wdat he
  | false =>
      have hreq : s.dc.s1o.req = false := by rw [hlk.req, hv]
      rw [acc_next_of_not hv]
      cases hstall : s.dc.stallReq with
      | true =>
          have hst : s.dc.state ≠ .idle := by simpa [Dcache.stallReq] using hstall
          simp only [if_true]
          refine ⟨fun h' => ?_, fun a h' => ?_⟩
          · obtain ⟨hb, hm⟩ := hnone h'
            have hboot := hb.resolve_right hst
            exact ⟨boot_next hboot, by rw [mem_next_of_idle hsh (Or.inl hboot), hm]⟩
          · obtain ⟨o, hg, ho⟩ := hsome a h'
            refine ⟨o, ?_, ho⟩
            rw [Dcache.noteOp, if_neg (by simp [Dcache.starts, hst]), if_neg hst]
            exact hg
      | false =>
          have hst : s.dc.state = .idle := by simpa [Dcache.stallReq] using hstall
          simp only [Bool.false_eq_true, if_false]
          refine ⟨fun _ => ⟨Or.inr ?_, ?_⟩, fun a h' => by cases h'⟩
          · change s.dc.stateNxt S (s.dcIn seg x) = _
            simp [Dcache.stateNxt, hst, hreq]
          · rw [mem_next_of_idle hsh (Or.inr hst), hmem hst]

/-! ### Both ways -/

/-- The bytes that a program sees: those of the memory, or those behind the cache. -/
def bytes (S : ℕ) (u : Bool) (s : LsuSide n) (p : ℕ) : Byte :=
  if u then s.mem.mem p else s.dc.view S s.mem.mem p

/-- The accesses on one of the ways. -/
def OnWay (S : ℕ) (pay : Fin n → ℕ × ℕ → ℕ → Byte) (m₀ : ℕ → Byte) (u : Bool) (s : LsuSide n)
    (h : LsuHist) : Prop :=
  if u then s.Direct S pay m₀ h else s.Logged S pay m₀ h

theorem noted_of_reach (hS : S ≤ 7) (hr : (lanes n S seg pay m₀ u).Reach (s, h)) :
    s.Noted h ∧ s.OnWay S pay m₀ u h ∧ h.answers = emAnswers (fun w => m₀ w.toNat) h.accs := by
  have key : s.Link ∧ s.Noted h ∧ s.OnWay S pay m₀ u h ∧
      h.answers = emAnswers (fun w => m₀ w.toNat) h.accs := by
    refine Machine.Reach.inv (P := fun q => q.1.Link ∧ q.1.Noted q.2 ∧ q.1.OnWay S pay m₀ u q.2 ∧
      q.2.answers = emAnswers (fun w => m₀ w.toNat) q.2.accs) ?_ ?_ hr
    · refine ⟨link_reset, ⟨fun h' => (by cases h'), fun a ha => (by cases ha),
        fun a ha => (by cases ha)⟩, ?_, rfl⟩
      cases u with
      | true =>
          exact ⟨none, Machine.Reach.reset, fun _ => ⟨Or.inl rfl, rfl⟩, fun a ha => by cases ha⟩
      | false => exact ⟨⟨[], [], none⟩, Machine.Reach.reset, rfl, fun a ha => by cases ha⟩
    · rintro ⟨s, h⟩ x ⟨hlk, hn, hway, hans⟩ ⟨⟨hq, ha⟩, ⟨hdc, hx⟩, hu⟩
      have hserves : s.Serves m₀ h := by
        cases u with
        | true => exact Direct.serves hS hway hn
        | false => exact Logged.serves hS hway hn
      refine ⟨hlk.next hq, hn.next hlk hq hdc hx, ?_, answers_next hq hn hserves hans⟩
      cases u with
      | true => exact Direct.next hS hlk hq ha hn hway hu
      | false => exact Logged.next hS hlk hq ha hn hway hdc hu
  exact key.2

/-- **Loads and stores are those of little-endian byte memory, as `CPU::step` accesses it**, on the
cached way and on the uncached one: after any accesses the loads have returned the same values, and
the bytes are the same.  An access is what the decoder asks for and what the emulator executes. -/
theorem lanes_agree (hS : S ≤ 7) (hr : (lanes n S seg pay m₀ u).Reach (s, h)) :
    (h.answers = emAnswers (fun w => m₀ w.toNat) h.accs ∧
      (s.lsu.s2Valid = false → ∀ w : Word,
        s.bytes S u w.toNat = emMem (fun w => m₀ w.toNat) h.accs w)) ∧
    ∀ (op : Em.Op) (insn : Word) (st sg : Bool) (sz : BitVec 3),
      Em.Op.ofCode (Em.opcode insn) = some op → op.access = some (st, sz, sg) →
      (∀ pc upd, (idDec true insn false false false pc upd).lsu = ⟨!st, st, false, sg, sz⟩) ∧
      ∀ (c : Em.Cpu) C M pc, c.execute C M pc insn =
        c.accessMem C pc insn (2 ^ sz.toNat) st fun pa uncached =>
          let a : LsuAcc := ⟨st, sz, sg, pa, c.getReg (Em.rd insn)⟩
          if st then (c.setBytes uncached (a.emBytes (c.bytes uncached))).break_ pc
          else (c.setReg (Em.rd insn) (a.emValue (c.bytes uncached))).break_ pc := by
  obtain ⟨hn, hway, hans⟩ := noted_of_reach hS hr
  refine ⟨⟨hans, fun hv w => ?_⟩, fun op insn st sg sz hop ha =>
    ⟨Em.idDec_access hop ha, Em.Cpu.execute_access hop ha⟩⟩
  have hlk := link_of_reach hr.of_observe
  rw [emMem_eq hn.ok, bytes]
  cases u with
  | false => exact Logged.view_eq hS hlk hn hway hv _
  | true =>
      obtain ⟨g, -, hnone, -⟩ := hway
      rw [if_pos rfl, (hnone (hn.acc_none_of_s2 hv)).2]

/-! ### A store and two loads -/

instance (s : LsuSide n) (q : LsuIn) : Decidable (s.Polite q) :=
  decidable_of_iff (q.pCeS2 = (!s.dc.stallReq) ∧ (q.pCeS1 = true → s.dc.stallReq = false) ∧
      (s.lsu.s1Valid = true → q.pCeS1 = !s.dc.stallReq) ∧
      (q.valid = true → s.lsu.s1Valid = false ∧ s.lsu.s2Valid = false))
    ⟨fun h => ⟨h.1, h.2.1, h.2.2.1, h.2.2.2⟩, fun h => ⟨h.ce2, h.ce1, h.flow, h.alone⟩⟩

instance (q : LsuReq) : Decidable q.IsAccess :=
  decidable_of_iff (q.opc.load = (!q.opc.store) ∧ q.opc.size.toNat ≤ 2)
    ⟨fun h => ⟨h.1, h.2⟩, fun h => ⟨h.load, h.size⟩⟩

/-- A store of a word, and loads of a half and of a byte of it. -/
def storeLoads : List (LsuOpc × Word) :=
  [(⟨false, true, false, false, 2⟩, 0x24), (⟨true, false, false, true, 1⟩, 0x26),
    (⟨true, false, false, false, 0⟩, 0x25)]

/-- Commit asks for the next of these accesses when the last one is done, and the memory answers at
once. -/
def waysIn (dce : Bool) (s : LsuSide cacheWays) (h : LsuHist) : LsuSideIn cacheWays where
  q :=
    { reqValid := !s.dc.stallReq && !s.lsu.s1Valid && !s.lsu.s2Valid && decide (h.accs.length < 3)
      opc := (storeLoads.getD h.accs.length (⟨false, false, false, false, 0⟩, 0)).1
      lsa := (storeLoads.getD h.accs.length (⟨false, false, false, false, 0⟩, 0)).2
      wdat := 0x80f16273
      dcinvWe := false
      dcinvNxt := 0
      dcflsWe := false
      dcflsNxt := 0
      psrDmme := false
      psrRm := false
      psrDce := dce
      tlbl := ⟨false, 0, 0⟩
      tlbh := ⟨false, 0, 0⟩
      pCeS1 := !s.dc.stallReq
      pCeS2 := !s.dc.stallReq }
  axi := AxiIn.prompt s.mem
  unc := fun _ _ => 0

/-- The unit with the cache on or off. -/
def ways (dce : Bool) : ℕ → LsuSide cacheWays × LsuHist
  | 0 => (lanes cacheWays 4 false (fun _ _ _ => 0) (BitVec.ofNat 8) (!dce)).reset
  | k + 1 => (lanes cacheWays 4 false (fun _ _ _ => 0) (BitVec.ofNat 8) (!dce)).next (ways dce k)
      (waysIn dce (ways dce k).1 (ways dce k).2)

theorem reach_ways {dce : Bool} {k : ℕ} (h : ∀ j < k,
    (ways dce j).1.Polite (waysIn dce (ways dce j).1 (ways dce j).2).q ∧
      ((waysIn dce (ways dce j).1 (ways dce j).2).q.dcop = false ∧
        ((waysIn dce (ways dce j).1 (ways dce j).2).q.dcReq = true →
          (waysIn dce (ways dce j).1 (ways dce j).2).q.IsAccess)) ∧
      ((ways dce j).1.lsu.s1Valid = true → (ways dce j).1.lsu.killReq = false →
        (ways dce j).1.lsu.uncached false = !dce)) :
    (lanes cacheWays 4 false (fun _ _ _ => 0) (BitVec.ofNat 8) (!dce)).Reach (ways dce k) := by
  induction k with
  | zero => exact Machine.Reach.reset
  | succ k ih =>
      obtain ⟨hq, hacc, hway⟩ := h k (Nat.lt_succ_self k)
      exact Machine.Reach.tick (ih fun j hj => h j (by omega))
        ⟨⟨hq, AxiMem.answers_prompt _⟩, hacc, hway⟩

/-- The loads return the bytes of the word, with the cache off and on. -/
theorem lanes_agree_ways :
    ((ways false 40).2.answers = [none, some 0xffff80f1, some 0x62] ∧
      (ways false 40).1.bytes 4 true 0x24 = 0x73) ∧
    (ways true 64).2.answers = [none, some 0xffff80f1, some 0x62] ∧
      (ways true 64).1.bytes 4 false 0x24 = 0x73 := by
  have accs : (ways false 40).2.accs = (ways true 64).2.accs ∧ (ways true 64).2.accs =
      [⟨true, 2, false, 0x24, 0x80f16273⟩, ⟨false, 1, true, 0x26, 0x80f16273⟩,
        ⟨false, 0, false, 0x25, 0x80f16273⟩] := by decide +kernel
  have off := (lanes_agree (s := (ways false 40).1) (h := (ways false 40).2) (by decide : 4 ≤ 7)
    (reach_ways (by decide +kernel))).1
  have on := (lanes_agree (s := (ways true 64).1) (h := (ways true 64).2) (by decide : 4 ≤ 7)
    (reach_ways (by decide +kernel))).1
  rw [accs.1, accs.2] at off
  rw [accs.2] at on
  refine ⟨⟨off.1.trans (by decide), ?_⟩, on.1.trans (by decide), ?_⟩
  · exact (off.2 (by decide +kernel) 0x24).trans (by decide)
  · exact (on.2 (by decide +kernel) 0x24).trans (by decide)

end LsuSide

end NanoCpu
