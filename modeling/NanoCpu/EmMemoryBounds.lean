/-
**Accesses at the ends of the emulator's memory** (`em/csrc/memory.hh`).

An access of 16, 32 or 64 bits is made of accesses of eight bits, and tests its own range by its
first byte alone.  Here a panic keeps the memory as it is at that moment, so that what was written
before it can be seen.  Outside the device range the reads of all widths go along with those of
eight bits.  The writes do so inside the memory only: one that begins outside it is dropped without
a report, and one that begins inside and ends outside has written its first bytes when it is
reported.

Main definitions:

* `MemM` — computations of the memory that may panic; `MemM.phyWritem8`, …, `MemM.phyReadm64` — the
  accesses;
* `MemM.bytewise`, `MemM.combine` — a write and a read byte by byte;
* `MemM.Consistent` — an access does what its bytes do, and is reported with the memory unchanged if
  one of them is outside;
* `MemM.Agreeable` — no write that is partly or wholly outside, unless it changes nothing before it
  is reported.

Main results:

* `MemM.toOption_phyWritem8`, `MemM.toOption_phyReadm8` — without the memory of a panic these are
  the functions of `Memory`;
* `MemM.bytewise_inside`, `MemM.bytewise_outside` — a write byte by byte;
* `MemM.consistent_iff` — **when an access of any width is consistent with those of eight bits**.
-/

import NanoCpu.EmMmio

set_option relaxedAutoImplicit false
set_option autoImplicit false

namespace NanoCpu

/-- The panics of an access: `Memory out of bound`, and the one of `match_mmio_handler`. -/
inductive MemFault
  | outOfBound
  | invalidMmio
  deriving DecidableEq

/-- A computation of the memory; a panic leaves the memory as it is. -/
abbrev MemM (δ α : Type) := EStateM MemFault (Memory δ) α

/-- The number of bytes of an access. -/
def MmioWidth.bytes : MmioWidth → ℕ
  | .m8 => 1
  | .m16 => 2
  | .m32 => 4
  | .m64 => 8

namespace MemM

variable {δ : Type}

/-! ### Writing -/

/-- A device takes a write, or there is none. -/
def devWrite (n : ℕ) (addr v : Word) : MemM δ Unit := fun m =>
  match m.devWrite n addr v with
  | some m' => .ok () m'
  | none => .error .invalidMmio m

def phyWritem8 (addr : Word) (val : Byte) : MemM δ Unit := fun m =>
  if m.mapped addr then devWrite 1 addr (val.setWidth 32) m
  else if m.inDram addr then .ok () (m.setByte addr val)
  else .error .outOfBound m

/-- The form of the longer writes: there is no branch for an address outside. -/
def phyWrite (n : ℕ) (addr v : Word) (bytes : MemM δ Unit) : MemM δ Unit := fun m =>
  if m.mapped addr then devWrite n addr v m
  else if m.inDram addr then bytes m
  else .ok () m

def phyWritem16 (addr : Word) (val : BitVec 16) : MemM δ Unit :=
  phyWrite 2 addr (val.setWidth 32) do
    phyWritem8 addr ((val &&& 0x00ff).setWidth 8)
    phyWritem8 (addr + 1) ((val >>> 8).setWidth 8)

def phyWritem32 (addr : Word) (val : BitVec 32) : MemM δ Unit :=
  phyWrite 4 addr val do
    phyWritem8 addr ((val &&& 0xff).setWidth 8)
    phyWritem8 (addr + 1) ((val >>> 8).setWidth 8)
    phyWritem8 (addr + 2) ((val >>> 16).setWidth 8)
    phyWritem8 (addr + 3) ((val >>> 24).setWidth 8)

def phyWritem64 (addr : Word) (val : BitVec 64) : MemM δ Unit :=
  phyWrite 8 addr (val.setWidth 32) do
    phyWritem8 addr ((val &&& 0xff).setWidth 8)
    phyWritem8 (addr + 1) ((val >>> 8).setWidth 8)
    phyWritem8 (addr + 2) ((val >>> 16).setWidth 8)
    phyWritem8 (addr + 3) ((val >>> 24).setWidth 8)
    phyWritem8 (addr + 4) ((val >>> 32).setWidth 8)
    phyWritem8 (addr + 5) ((val >>> 40).setWidth 8)
    phyWritem8 (addr + 6) ((val >>> 48).setWidth 8)
    phyWritem8 (addr + 7) ((val >>> 56).setWidth 8)

/-- The write of a width. -/
def write : MmioWidth → Word → BitVec 64 → MemM δ Unit
  | .m8, addr, v => phyWritem8 addr (v.setWidth 8)
  | .m16, addr, v => phyWritem16 addr (v.setWidth 16)
  | .m32, addr, v => phyWritem32 addr (v.setWidth 32)
  | .m64, addr, v => phyWritem64 addr v

/-! ### Reading -/

def devRead (n : ℕ) (addr : Word) : MemM δ Word := fun m =>
  match m.devRead n addr with
  | some r => .ok r.1 r.2
  | none => .error .invalidMmio m

def phyReadm8 (addr : Word) : MemM δ Byte := fun m =>
  if m.mapped addr then ((·.setWidth 8) <$> devRead 1 addr : MemM δ Byte) m
  else if m.inDram addr then .ok (m.byteAt addr) m
  else .error .outOfBound m

/-- The form of the longer reads. -/
def phyRead {b : ℕ} (n : ℕ) (addr : Word) (bytes : MemM δ (BitVec b)) :
    MemM δ (BitVec b) := fun m =>
  if m.mapped addr then ((·.setWidth b) <$> devRead n addr : MemM δ (BitVec b)) m
  else if m.inDram addr then bytes m
  else .error .outOfBound m

/-- The operands of the disjunction are read in their order. -/
def phyReadm16 (addr : Word) : MemM δ (BitVec 16) :=
  phyRead 2 addr do
    let b₁ ← phyReadm8 (addr + 1)
    let b₀ ← phyReadm8 addr
    pure ((b₁.setWidth 16 <<< 8) ||| b₀.setWidth 16)

def phyReadm32 (addr : Word) : MemM δ (BitVec 32) :=
  phyRead 4 addr do
    let b₃ ← phyReadm8 (addr + 3)
    let b₂ ← phyReadm8 (addr + 2)
    let b₁ ← phyReadm8 (addr + 1)
    let b₀ ← phyReadm8 addr
    pure ((b₃.setWidth 32 <<< 24) ||| (b₂.setWidth 32 <<< 16) ||| (b₁.setWidth 32 <<< 8) |||
      b₀.setWidth 32)

def phyReadm64 (addr : Word) : MemM δ (BitVec 64) :=
  phyRead 8 addr do
    let b₇ ← phyReadm8 (addr + 7)
    let b₆ ← phyReadm8 (addr + 6)
    let b₅ ← phyReadm8 (addr + 5)
    let b₄ ← phyReadm8 (addr + 4)
    let b₃ ← phyReadm8 (addr + 3)
    let b₂ ← phyReadm8 (addr + 2)
    let b₁ ← phyReadm8 (addr + 1)
    let b₀ ← phyReadm8 addr
    pure ((b₇.setWidth 64 <<< 56) ||| (b₆.setWidth 64 <<< 48) ||| (b₅.setWidth 64 <<< 40) |||
      (b₄.setWidth 64 <<< 32) ||| (b₃.setWidth 64 <<< 24) ||| (b₂.setWidth 64 <<< 16) |||
      (b₁.setWidth 64 <<< 8) ||| b₀.setWidth 64)

/-- The read of a width. -/
def read : MmioWidth → Word → MemM δ (BitVec 64)
  | .m8, addr => (·.setWidth 64) <$> phyReadm8 addr
  | .m16, addr => (·.setWidth 64) <$> phyReadm16 addr
  | .m32, addr => (·.setWidth 64) <$> phyReadm32 addr
  | .m64, addr => phyReadm64 addr

/-! ### Byte by byte -/

/-- The byte `k` of a value. -/
def byteOf (v : BitVec 64) (k : ℕ) : Byte := (v >>> (8 * k)).setWidth 8

/-- The address of the byte `k` of an access. -/
def addrOf (addr : Word) (k : ℕ) : Word := addr + BitVec.ofNat 32 k

/-- The little-endian sequence of `n` writes of eight bits. -/
def bytewise (addr : Word) (v : BitVec 64) : ℕ → MemM δ Unit
  | 0 => pure ()
  | n + 1 => do
      bytewise addr v n
      phyWritem8 (addrOf addr n) (byteOf v n)

/-- The little-endian combination of `n` bytes. -/
def combine (f : ℕ → Byte) : ℕ → BitVec 64
  | 0 => 0
  | n + 1 => ((f n).setWidth 64 <<< (8 * n)) ||| combine f n

/-- All bytes of an access are in the memory. -/
def Inside (m : Memory δ) (addr : Word) (n : ℕ) : Prop := ∀ k < n, m.inDram (addrOf addr k) = true

/-- **Width consistency** of an access to the address `addr` with the value `v`. -/
structure Consistent (width : MmioWidth) (addr : Word) (v : BitVec 64) (m : Memory δ) : Prop where
  writeInside : Inside m addr width.bytes → write width addr v m = bytewise addr v width.bytes m
  readInside : Inside m addr width.bytes → ∃ f,
    (∀ k < width.bytes, phyReadm8 (addrOf addr k) m = .ok (f k) m) ∧
    read width addr m = .ok (combine f width.bytes) m
  writeOutside : ¬ Inside m addr width.bytes → write width addr v m = .error .outOfBound m
  readOutside : ¬ Inside m addr width.bytes → read width addr m = .error .outOfBound m

/-- The access has one byte; or all its bytes are in the memory; or the first is, and those before
the first that is not have their values already. -/
def Agreeable (width : MmioWidth) (addr : Word) (v : BitVec 64) (m : Memory δ) : Prop :=
  width = .m8 ∨ Inside m addr width.bytes ∨
    (m.inDram addr = true ∧ ∀ k < width.bytes, Inside m addr (k + 1) →
      m.byteAt (addrOf addr k) = byteOf v k)

/-! ### The functions without the memory of a panic -/

variable {α β : Type}

/-- A panic ends the program. -/
def toOption (r : EStateM.Result MemFault (Memory δ) α) : Option (α × Memory δ) :=
  match r with
  | .ok a m => some (a, m)
  | .error _ _ => none

theorem toOption_devWrite (n : ℕ) (addr v : Word) (m : Memory δ) :
    toOption (devWrite n addr v m) = (m.devWrite n addr v).map fun m' => ((), m') := by
  unfold devWrite
  cases m.devWrite n addr v <;> rfl

theorem toOption_phyWritem8 (addr : Word) (val : Byte) (m : Memory δ) :
    toOption (phyWritem8 addr val m) = (m.phyWritem8 addr val).map fun m' => ((), m') := by
  unfold phyWritem8 Memory.phyWritem8
  split
  · exact toOption_devWrite 1 addr (val.setWidth 32) m
  · split <;> rfl

/-- The lowest byte. -/
theorem setWidth_low {w : ℕ} (hw : 8 ≤ w) (x : BitVec w) :
    (x &&& BitVec.ofNat w 255).setWidth 8 = x.setWidth 8 := by
  apply BitVec.eq_of_toNat_eq
  have h255 : 255 % 2 ^ w = 2 ^ 8 - 1 :=
    Nat.mod_eq_of_lt (lt_of_lt_of_le (by decide) (Nat.pow_le_pow_right (by decide) hw))
  rw [BitVec.toNat_setWidth, BitVec.toNat_setWidth, BitVec.toNat_and, BitVec.toNat_ofNat, h255,
    Nat.and_two_pow_sub_one_eq_mod, Nat.mod_mod]

theorem toOption_phyReadm8 (addr : Word) (m : Memory δ) :
    toOption (phyReadm8 addr m) = m.phyReadm8 addr := by
  unfold phyReadm8 Memory.phyReadm8
  split
  · show toOption (EStateM.map _ (devRead 1 addr) m) = _
    unfold EStateM.map devRead
    cases m.devRead 1 addr <;> rfl
  · split <;> rfl

/-! ### A byte -/

variable {m : Memory δ} {addr : Word} {v : BitVec 64} {n : ℕ}

theorem phyWritem8_unmapped (h : m.mapped addr = false) (val : Byte) :
    phyWritem8 addr val m = if m.inDram addr then .ok () (m.setByte addr val) else
      .error .outOfBound m := by
  simp [phyWritem8, h]

theorem phyReadm8_unmapped (h : m.mapped addr = false) :
    phyReadm8 addr m = if m.inDram addr then .ok (m.byteAt addr) m else .error .outOfBound m := by
  simp [phyReadm8, h]

@[simp] theorem addrOf_zero (addr : Word) : addrOf addr 0 = addr := by simp [addrOf]

theorem addrOf_inj (addr : Word) {j k : ℕ} (hj : j < 2 ^ 32) (hk : k < 2 ^ 32)
    (h : addrOf addr j = addrOf addr k) : j = k := by
  unfold addrOf at h
  have hn : (BitVec.ofNat 32 j).toNat = (BitVec.ofNat 32 k).toNat := by
    rw [show BitVec.ofNat 32 j = BitVec.ofNat 32 k by simpa using h]
  rwa [BitVec.toNat_ofNat, BitVec.toNat_ofNat, Nat.mod_eq_of_lt hj, Nat.mod_eq_of_lt hk] at hn

/-- The memory after the first `n` bytes. -/
def putBytes (m : Memory δ) (addr : Word) (v : BitVec 64) : ℕ → Memory δ
  | 0 => m
  | n + 1 => (putBytes m addr v n).setByte (addrOf addr n) (byteOf v n)

@[simp] theorem mapped_putBytes (b : Word) : (putBytes m addr v n).mapped b = m.mapped b := by
  induction n with
  | zero => rfl
  | succ n ih => exact ih

@[simp] theorem inDram_putBytes (b : Word) : (putBytes m addr v n).inDram b = m.inDram b := by
  induction n with
  | zero => rfl
  | succ n ih => exact ih

/-- **A write byte by byte inside the memory.** -/
theorem bytewise_inside (hm : ∀ k < n, m.mapped (addrOf addr k) = false) (h : Inside m addr n) :
    bytewise addr v n m = .ok () (putBytes m addr v n) := by
  induction n with
  | zero => rfl
  | succ n ih =>
      have ih' := ih (fun k hk => hm k (by omega)) fun k hk => h k (by omega)
      show EStateM.bind (bytewise addr v n) _ m = _
      unfold EStateM.bind
      rw [ih']
      show phyWritem8 _ _ (putBytes m addr v n) = _
      rw [phyWritem8_unmapped (by simpa using hm n (by omega)), inDram_putBytes, h n (by omega)]
      rfl

/-- **A write byte by byte that leaves the memory**: the bytes before are written when it is
reported. -/
theorem bytewise_outside {j : ℕ} (hm : ∀ k < n, m.mapped (addrOf addr k) = false)
    (h : Inside m addr j) (hj : j < n) (hout : m.inDram (addrOf addr j) = false) :
    bytewise addr v n m = .error .outOfBound (putBytes m addr v j) := by
  induction n with
  | zero => omega
  | succ n ih =>
      show EStateM.bind (bytewise addr v n) _ m = _
      unfold EStateM.bind
      rcases Nat.lt_or_eq_of_le (Nat.lt_succ_iff.1 hj) with hlt | rfl
      · rw [ih (fun k hk => hm k (by omega)) hlt]
      · rw [bytewise_inside (fun k hk => hm k (by omega)) h]
        show phyWritem8 _ _ (putBytes m addr v j) = _
        rw [phyWritem8_unmapped (by simpa using hm j (by omega)), inDram_putBytes, hout]
        rfl

theorem byteAt_putBytes (hn : n ≤ 2 ^ 32) {k : ℕ} (hk : k < n) :
    (putBytes m addr v n).byteAt (addrOf addr k) = byteOf v k := by
  induction n with
  | zero => omega
  | succ n ih =>
      rw [putBytes, Memory.byteAt_setByte]
      split
      · rename_i heq
        rw [addrOf_inj addr (by omega) (by omega) heq]
      · rename_i hne
        refine ih (by omega) (lt_of_le_of_ne (by omega) ?_)
        rintro rfl
        exact hne rfl

/-- The memory is unchanged exactly if the bytes were there already. -/
theorem putBytes_eq_iff (hn : n ≤ 2 ^ 32) :
    putBytes m addr v n = m ↔ ∀ k < n, m.byteAt (addrOf addr k) = byteOf v k := by
  constructor
  · intro h k hk
    have hb : (putBytes m addr v n).byteAt (addrOf addr k) = byteOf v k := byteAt_putBytes hn hk
    rwa [h] at hb
  · intro h
    induction n with
    | zero => rfl
    | succ n ih =>
        rw [putBytes, ih (by omega) fun k hk => h k (by omega), ← h n (by omega), Memory.setByte,
          Memory.byteAt, Function.update_eq_self]

/-! ### The accesses and their bytes -/

theorem byteOf_setWidth (v : BitVec 64) {w : ℕ} (k : ℕ) (hw : 8 * k + 8 ≤ w) :
    (v.setWidth w >>> (8 * k)).setWidth 8 = byteOf v k := by
  ext i hi
  simp only [byteOf, BitVec.getElem_setWidth, BitVec.getLsbD_ushiftRight, BitVec.getLsbD_setWidth]
  rw [decide_eq_true (by omega), Bool.true_and]

/-- A write inside the memory. -/
theorem write_of_inDram (width : MmioWidth) (hm : m.mapped addr = false)
    (h : m.inDram addr = true) : write width addr v m = bytewise addr v width.bytes m := by
  have hlow : ∀ {w : ℕ}, 8 ≤ w → (v.setWidth w &&& BitVec.ofNat w 255).setWidth 8 = byteOf v 0 := by
    intro w hw
    rw [setWidth_low hw, ← byteOf_setWidth v 0 (w := w) (by omega)]
    simp
  have hb : ∀ {w : ℕ} (k : ℕ), 8 * k + 8 ≤ w → (v.setWidth w >>> (8 * k)).setWidth 8 = byteOf v k :=
    fun k hk => byteOf_setWidth v k hk
  cases width with
  | m8 =>
      have h₀ : v.setWidth 8 = byteOf v 0 := by simp [byteOf]
      show phyWritem8 addr (v.setWidth 8) m =
        (pure () >>= fun _ => phyWritem8 (addrOf addr 0) (byteOf v 0)) m
      rw [pure_bind, addrOf_zero, h₀]
  | m16 =>
      show phyWrite 2 addr _ _ m = _
      rw [phyWrite, hm, h, if_neg (by simp), if_pos rfl]
      simp only [MmioWidth.bytes, bytewise, pure_bind, addrOf_zero]
      rw [← hlow (show 8 ≤ 16 by decide), ← hb (w := 16) 1 (by decide)]
      rfl
  | m32 =>
      show phyWrite 4 addr _ _ m = _
      rw [phyWrite, hm, h, if_neg (by simp), if_pos rfl]
      simp only [MmioWidth.bytes, bytewise, pure_bind, bind_assoc, addrOf_zero]
      rw [← hlow (show 8 ≤ 32 by decide), ← hb (w := 32) 1 (by decide),
        ← hb (w := 32) 2 (by decide), ← hb (w := 32) 3 (by decide)]
      rfl
  | m64 =>
      show phyWrite 8 addr _ _ m = _
      rw [phyWrite, hm, h, if_neg (by simp), if_pos rfl]
      simp only [MmioWidth.bytes, bytewise, pure_bind, bind_assoc, addrOf_zero]
      have hv : v.setWidth 64 = v := BitVec.setWidth_eq v
      have h₀ := hlow (show 8 ≤ 64 by decide)
      rw [hv] at h₀
      rw [← h₀]
      rfl

/-- A longer write that begins outside the memory. -/
theorem write_of_not_inDram {width : MmioWidth} (hw : width ≠ .m8) (hm : m.mapped addr = false)
    (h : m.inDram addr = false) : write width addr v m = .ok () m := by
  cases width with
  | m8 => exact absurd rfl hw
  | m16 =>
      show phyWrite 2 addr _ _ m = _
      simp [phyWrite, hm, h]
  | m32 =>
      show phyWrite 4 addr _ _ m = _
      simp [phyWrite, hm, h]
  | m64 =>
      show phyWrite 8 addr _ _ m = _
      simp [phyWrite, hm, h]

/-- The reads byte by byte, the last byte first. -/
def readLe (addr : Word) : ℕ → MemM δ (BitVec 64)
  | 0 => pure 0
  | n + 1 => do
      let b ← phyReadm8 (addrOf addr n)
      let r ← readLe addr n
      pure ((b.setWidth 64 <<< (8 * n)) ||| r)

theorem inside_succ : Inside m addr (n + 1) ↔ Inside m addr n ∧
    m.inDram (addrOf addr n) = true := by
  constructor
  · intro h
    exact ⟨fun k hk => h k (by omega), h n (by omega)⟩
  · rintro ⟨h, hn⟩ k hk
    rcases Nat.lt_or_eq_of_le (Nat.lt_succ_iff.1 hk) with hlt | rfl
    · exact h k hlt
    · exact hn

theorem readLe_inside (hm : ∀ k < n, m.mapped (addrOf addr k) = false) (h : Inside m addr n) :
    readLe addr n m = .ok (combine (fun k => m.byteAt (addrOf addr k)) n) m := by
  induction n with
  | zero => rfl
  | succ n ih =>
      obtain ⟨h, hn⟩ := inside_succ.1 h
      have hr := ih (fun k hk => hm k (by omega)) h
      have hb : phyReadm8 (addrOf addr n) m = .ok (m.byteAt (addrOf addr n)) m := by
        rw [phyReadm8_unmapped (hm n (by omega)), hn, if_pos rfl]
      simp only [readLe, bind, EStateM.bind, hb, hr]
      rfl

theorem readLe_outside (hm : ∀ k < n, m.mapped (addrOf addr k) = false) (h : ¬ Inside m addr n) :
    readLe addr n m = .error .outOfBound m := by
  induction n with
  | zero => exact absurd (fun k hk => absurd hk (Nat.not_lt_zero k)) h
  | succ n ih =>
      have hb := phyReadm8_unmapped (hm n (by omega))
      cases hn : m.inDram (addrOf addr n) with
      | false =>
          rw [hn, if_neg (by simp)] at hb
          simp only [readLe, bind, EStateM.bind, hb]
      | true =>
          rw [hn, if_pos rfl] at hb
          have hr := ih (fun k hk => hm k (by omega)) fun hi => h (inside_succ.2 ⟨hi, hn⟩)
          simp only [readLe, bind, EStateM.bind, hb, hr]

/-- A byte in its place in a shorter word. -/
theorem setWidth_byte {w k : ℕ} (b : Byte) (hw : k + 8 ≤ w) :
    (b.setWidth w <<< k).setWidth 64 = b.setWidth 64 <<< k := by
  ext i hi
  simp only [BitVec.getElem_setWidth, BitVec.getLsbD_shiftLeft, BitVec.getLsbD_setWidth,
    BitVec.getElem_shiftLeft]
  by_cases hk : i < k
  · simp [hk]
  · have hlt : i - k < 64 := by omega
    by_cases hb : i - k < 8
    · simp [hk, hb, show i < w by omega, show i - k < w by omega]
    · rw [BitVec.getLsbD_of_ge b (i - k) (by omega)]
      simp

theorem map_phyRead {b : ℕ} (g : BitVec b → α) (bytes : MemM δ (BitVec b))
    (hm : m.mapped addr = false)
    (h : m.inDram addr = true) : (g <$> phyRead n addr bytes : MemM δ α) m = (g <$> bytes) m := by
  have hr : phyRead n addr bytes m = bytes m := by simp [phyRead, hm, h]
  show EStateM.map g _ m = EStateM.map g _ m
  unfold EStateM.map
  rw [hr]

/-- A read inside the memory. -/
theorem read_of_inDram (width : MmioWidth) (hm : m.mapped addr = false) (h : m.inDram addr = true) :
    read width addr m = readLe addr width.bytes m := by
  cases width with
  | m8 =>
      simp only [read, readLe, MmioWidth.bytes, map_eq_pure_bind, pure_bind, addrOf_zero]
      refine congrFun (congrArg _ (funext fun b => ?_)) m
      simp
  | m16 =>
      refine (map_phyRead _ _ hm h).trans ?_
      simp only [readLe, MmioWidth.bytes, map_eq_pure_bind, pure_bind, bind_assoc, addrOf_zero]
      refine congrFun (congrArg _ (funext fun b₁ => congrArg _ (funext fun b₀ => ?_))) m
      rw [BitVec.setWidth_or, setWidth_byte b₁ (by decide)]
      simp
  | m32 =>
      refine (map_phyRead _ _ hm h).trans ?_
      simp only [readLe, MmioWidth.bytes, map_eq_pure_bind, pure_bind, bind_assoc, addrOf_zero]
      refine congrFun (congrArg _ (funext fun b₃ => congrArg _ (funext fun b₂ => congrArg _
        (funext fun b₁ => congrArg _ (funext fun b₀ => ?_))))) m
      rw [BitVec.setWidth_or, BitVec.setWidth_or, BitVec.setWidth_or, setWidth_byte b₃ (by decide),
        setWidth_byte b₂ (by decide), setWidth_byte b₁ (by decide)]
      simp [BitVec.or_assoc]
  | m64 =>
      have hr : phyReadm64 addr m = _ := (if_neg (by simp [hm])).trans (if_pos h)
      refine hr.trans ?_
      simp only [readLe, MmioWidth.bytes, pure_bind, bind_assoc, addrOf_zero]
      refine congrFun (congrArg _ (funext fun b₇ => congrArg _ (funext fun b₆ => congrArg _
        (funext fun b₅ => congrArg _ (funext fun b₄ => congrArg _ (funext fun b₃ => congrArg _
        (funext fun b₂ => congrArg _ (funext fun b₁ => congrArg _ (funext fun b₀ => ?_))))))))) m
      simp [BitVec.or_assoc]

/-! ### Consistency -/

theorem bytes_le (width : MmioWidth) : width.bytes ≤ 8 := by cases width <;> decide

theorem bytes_pos (width : MmioWidth) : 0 < width.bytes := by cases width <;> decide

/-- The first byte outside. -/
theorem exists_first (h : ¬ Inside m addr n) :
    ∃ j < n, Inside m addr j ∧ m.inDram (addrOf addr j) = false := by
  induction n with
  | zero => exact absurd (fun k hk => absurd hk (Nat.not_lt_zero k)) h
  | succ n ih =>
      by_cases hn : Inside m addr n
      · refine ⟨n, Nat.lt_succ_self n, hn, ?_⟩
        rw [Bool.eq_false_iff]
        exact fun hd => h (inside_succ.2 ⟨hn, hd⟩)
      · obtain ⟨j, hj, hi⟩ := ih hn
        exact ⟨j, Nat.lt_succ_of_lt hj, hi⟩

/-- The reads of all widths are consistent outside the device range. -/
theorem read_eq (width : MmioWidth) (hm : ∀ k < width.bytes, m.mapped (addrOf addr k) = false) :
    (Inside m addr width.bytes →
      read width addr m = .ok (combine (fun k => m.byteAt (addrOf addr k)) width.bytes) m) ∧
    (¬ Inside m addr width.bytes → read width addr m = .error .outOfBound m) := by
  have hm₀ : m.mapped addr = false := by simpa using hm 0 (bytes_pos width)
  cases hd : m.inDram addr with
  | true =>
      rw [read_of_inDram width hm₀ hd]
      exact ⟨readLe_inside hm, readLe_outside hm⟩
  | false =>
      constructor
      · intro h
        have := h 0 (bytes_pos width)
        rw [addrOf_zero, hd] at this
        cases this
      · intro _
        have hform : ∀ {b : ℕ} (n : ℕ) (bytes : MemM δ (BitVec b)),
            phyRead n addr bytes m = .error .outOfBound m :=
              fun n bytes => by simp [phyRead, hm₀, hd]
        have h8 : phyReadm8 addr m = .error .outOfBound m := by simp [phyReadm8, hm₀, hd]
        cases width with
        | m8 => simp only [read, Functor.map, EStateM.map, h8]
        | m16 => simp only [read, Functor.map, EStateM.map, phyReadm16, hform]
        | m32 => simp only [read, Functor.map, EStateM.map, phyReadm32, hform]
        | m64 => exact hform 8 _

/-- **Width consistency.**  Outside the device range an access of any width does what its bytes do
and is reported with the memory unchanged if one of them is outside, exactly if it has one byte, or
all its bytes are in the memory, or the first is and those before the first outside are in the
memory already. -/
theorem consistent_iff (width : MmioWidth) (addr : Word) (v : BitVec 64) (m : Memory δ)
    (hm : ∀ k < width.bytes, m.mapped (addrOf addr k) = false) :
    Consistent width addr v m ↔ Agreeable width addr v m := by
  have hm₀ : m.mapped addr = false := by simpa using hm 0 (bytes_pos width)
  obtain ⟨hin, hout⟩ := read_eq width hm
  have hreads : Inside m addr width.bytes → ∃ f,
      (∀ k < width.bytes, phyReadm8 (addrOf addr k) m = .ok (f k) m) ∧
        read width addr m = .ok (combine f width.bytes) m := by
    intro hi
    refine ⟨_, fun k hk => ?_, hin hi⟩
    rw [phyReadm8_unmapped (hm k hk), hi k hk, if_pos rfl]
  have hwrite : m.inDram addr = true → write width addr v m = bytewise addr v width.bytes m :=
    write_of_inDram width hm₀
  have hdram : Inside m addr width.bytes → m.inDram addr = true := by
    intro hi
    simpa using hi 0 (bytes_pos width)
  constructor
  · intro h
    by_cases hw : width = .m8
    · exact Or.inl hw
    by_cases hi : Inside m addr width.bytes
    · exact Or.inr (Or.inl hi)
    have hrep := h.writeOutside hi
    have hd : m.inDram addr = true := by
      by_contra hd
      rw [write_of_not_inDram hw hm₀ (by simpa using hd)] at hrep
      cases hrep
    refine Or.inr (Or.inr ⟨hd, ?_⟩)
    -- the report comes with the bytes before the first outside
    obtain ⟨j, hj, hij, hoj⟩ := exists_first hi
    rw [hwrite hd, bytewise_outside hm hij hj hoj] at hrep
    have hsame : putBytes m addr v j = m := by
      injection hrep
    have hlt : j ≤ 2 ^ 32 := by
      have := bytes_le width
      omega
    intro k hk hik
    refine (putBytes_eq_iff hlt).1 hsame k ?_
    by_contra hjk
    have := hik j (by omega)
    rw [hoj] at this
    cases this
  · intro h
    refine ⟨fun hi => hwrite (hdram hi), hreads, fun hni => ?_, hout⟩
    rcases h with rfl | hi | ⟨hd, hbytes⟩
    · have hd : m.inDram addr = false := by
        by_contra hd
        refine hni fun k hk => ?_
        obtain rfl : k = 0 := Nat.lt_one_iff.1 hk
        simpa using hd
      show phyWritem8 addr _ m = _
      rw [phyWritem8_unmapped hm₀, hd, if_neg (by simp)]
    · exact absurd hi hni
    · obtain ⟨j, hj, hij, hoj⟩ := exists_first hni
      have hlt : j ≤ 2 ^ 32 := by
        have := bytes_le width
        omega
      have hsame : putBytes m addr v j = m := (putBytes_eq_iff hlt).2 fun k hk =>
        hbytes k (by omega) fun i hi => hij i (by omega)
      rw [hwrite hd, bytewise_outside hm hij hj hoj, hsame]

/-- A word in the middle of the memory. -/
theorem consistent_iff_inside : Consistent .m32 0x80000010 0x01020304 Memory.small ↔
    Agreeable .m32 0x80000010 0x01020304 Memory.small :=
  consistent_iff .m32 0x80000010 0x01020304 Memory.small (by decide)

/-- A half word behind the memory is dropped without a report. -/
theorem dropped_write : ¬ ∀ (width : MmioWidth) (addr : Word) (v : BitVec 64) (m : Memory Unit),
    (∀ k < width.bytes, m.mapped (addrOf addr k) = false) → Consistent width addr v m := by
  intro h
  have hrep := (h .m16 0x80001000 0x0102 Memory.small (by decide)).writeOutside
    (fun hi => absurd (hi 0 (by decide)) (by decide))
  have hok : write .m16 0x80001000 0x0102 Memory.small = .ok () Memory.small :=
    write_of_not_inDram (by decide) (by decide) (by decide)
  rw [hok] at hrep
  cases hrep

end MemM

end NanoCpu
