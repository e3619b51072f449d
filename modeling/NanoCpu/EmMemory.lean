/-
**The memory of the emulator** (`em/csrc/memory.hh`).

The address space holds a range of device registers and a range of memory bytes.  An access of one,
two, four or eight bytes goes to a device if its address is in the device range, and there is no
device that takes it, the program panics.  Otherwise it is a memory access, which is made of
accesses to single bytes.  What a device does is a parameter.

Main definitions:

* `Mmio`, `Memory` — the devices, and the address space;
* `Memory.phyReadm8`, `Memory.phyReadm16`, …, `Memory.phyWritem8`, … — the accesses; a panic is
  `none`.

Main results:

* `Memory.phyReadm8_ram`, `Memory.phyWritem8_ram` — an access to a memory byte;
* `Memory.phyReadLe_getLsbD` — a longer access reads the bytes in their order.
-/

import NanoCpu.Rtl
import NanoCpu.Axi

set_option relaxedAutoImplicit false
set_option autoImplicit false

namespace NanoCpu

/-- The devices behind the accesses of the given number of bytes: `match_mmio_handler` and the
callback, none where no handler is registered. -/
structure Mmio (δ : Type*) where
  readm : ℕ → Word → δ → Option (Word × δ)
  writem : ℕ → Word → Word → δ → Option δ

structure Memory (δ : Type*) where
  mmio : Mmio δ
  dev : δ
  memory : Word → Byte
  memorySize : ℕ
  size_pos : 0 < memorySize
  dramPhyStart : Word
  mmioPhyBase : Word
  mmioPhyEndAddr : Word

namespace Memory

variable {δ : Type*} (m : Memory δ)

/-- The test of `match_mmio_handler`. -/
def mapped (addr : Word) : Bool := decide (m.mmioPhyBase ≤ addr ∧ addr ≤ m.mmioPhyEndAddr)

def inDram (addr : Word) : Bool :=
  decide (m.dramPhyStart ≤ addr ∧ addr.toNat < m.dramPhyStart.toNat + m.memorySize)

/-- The address is one of a memory byte. -/
def ram (addr : Word) : Bool := !m.mapped addr && m.inDram addr

/-! ### Reading -/

/-- The callback of a device. -/
def devRead (n : ℕ) (addr : Word) : Option (Word × Memory δ) :=
  (m.mmio.readm n addr m.dev).map fun r => (r.1, { m with dev := r.2 })

def phyReadm8 (m : Memory δ) (addr : Word) : Option (Byte × Memory δ) :=
  if m.mapped addr then (m.devRead 1 addr).map fun r => (r.1.setWidth 8, r.2)
  else if m.inDram addr then some (m.memory (addr - m.dramPhyStart), m)
  else none

/-- `n` single bytes from `addr` on, the last one read first. -/
def phyReadLe (addr : Word) : ℕ → Memory δ → Option (BitVec 64 × Memory δ)
  | 0, m => some (0, m)
  | n + 1, m => do
      let (b, m) ← m.phyReadm8 (addr + BitVec.ofNat 32 n)
      let (v, m) ← phyReadLe addr n m
      some ((b.setWidth 64 <<< (8 * n)) ||| v, m)

/-- The form of `phy_readm16`, `phy_readm32` and `phy_readm64`.  A callback returns 32 bits at most,
also for an access of eight bytes. -/
def phyRead (n : ℕ) (addr : Word) : Option (BitVec 64 × Memory δ) :=
  if m.mapped addr then (m.devRead n addr).map fun r => (r.1.setWidth 64, r.2)
  else if m.inDram addr then phyReadLe addr n m
  else none

def phyReadm16 (addr : Word) : Option (BitVec 16 × Memory δ) :=
  (m.phyRead 2 addr).map fun r => (r.1.setWidth 16, r.2)

def phyReadm32 (addr : Word) : Option (Word × Memory δ) :=
  (m.phyRead 4 addr).map fun r => (r.1.setWidth 32, r.2)

def phyReadm64 (addr : Word) : Option (BitVec 64 × Memory δ) := m.phyRead 8 addr

/-! ### Writing -/

def devWrite (n : ℕ) (addr : Word) (v : Word) : Option (Memory δ) :=
  (m.mmio.writem n addr v m.dev).map fun d => { m with dev := d }

def phyWritem8 (addr : Word) (v : Byte) : Option (Memory δ) :=
  if m.mapped addr then m.devWrite 1 addr (v.setWidth 32)
  else if m.inDram addr then
    some { m with memory := Function.update m.memory (addr - m.dramPhyStart) v }
  else none

/-- The form of `phy_writem16` and `phy_writem32`: beyond the memory nothing happens. -/
def phyWrite (bytes : Memory δ → Option (Memory δ)) (n : ℕ) (addr : Word) (v : Word) :
    Option (Memory δ) :=
  if m.mapped addr then m.devWrite n addr v
  else if m.inDram addr then bytes m
  else some m

def phyWritem16 (addr : Word) (v : BitVec 16) : Option (Memory δ) :=
  m.phyWrite (fun m => do
    let m ← m.phyWritem8 addr (v.setWidth 8)
    m.phyWritem8 (addr + 1) ((v >>> 8).setWidth 8)) 2 addr (v.setWidth 32)

def phyWritem32 (addr : Word) (v : Word) : Option (Memory δ) :=
  m.phyWrite (fun m => do
    let m ← m.phyWritem8 addr (v.setWidth 8)
    let m ← m.phyWritem8 (addr + 1) ((v >>> 8).setWidth 8)
    let m ← m.phyWritem8 (addr + 2) ((v >>> 16).setWidth 8)
    m.phyWritem8 (addr + 3) ((v >>> 24).setWidth 8)) 4 addr v

/-! ### Memory bytes -/

/-- The byte at an address. -/
def byteAt (addr : Word) : Byte := m.memory (addr - m.dramPhyStart)

def setByte (addr : Word) (v : Byte) : Memory δ :=
  { m with memory := Function.update m.memory (addr - m.dramPhyStart) v }

theorem phyReadm8_ram {addr : Word} (h : m.ram addr = true) :
    m.phyReadm8 addr = some (m.byteAt addr, m) := by
  simp only [ram, Bool.and_eq_true, Bool.not_eq_true'] at h
  rw [phyReadm8, h.1, h.2]
  rfl

theorem phyWritem8_ram {addr : Word} (v : Byte) (h : m.ram addr = true) :
    m.phyWritem8 addr v = some (m.setByte addr v) := by
  simp only [ram, Bool.and_eq_true, Bool.not_eq_true'] at h
  rw [phyWritem8, h.1, h.2]
  rfl

@[simp] theorem ram_setByte (addr b : Word) (v : Byte) : (m.setByte addr v).ram b = m.ram b := rfl

theorem byteAt_setByte (addr b : Word) (v : Byte) :
    (m.setByte addr v).byteAt b = if b = addr then v else m.byteAt b := by
  show Function.update m.memory (addr - m.dramPhyStart) v (b - m.dramPhyStart) = _
  unfold byteAt
  by_cases h : b = addr
  · rw [if_pos h, h, Function.update_self]
  · have hd : b - m.dramPhyStart ≠ addr - m.dramPhyStart := fun e => h (by simpa using e)
    rw [if_neg h, Function.update_of_ne hd]

/-- The bytes of a longer access, in their order. -/
theorem phyReadLe_getLsbD (addr : Word) {n : ℕ} (hn : n ≤ 8)
    (h : ∀ k < n, m.ram (addr + BitVec.ofNat 32 k) = true) :
    ∃ v, phyReadLe addr n m = some (v, m) ∧ ∀ i < 64, v.getLsbD i =
      (decide (i < 8 * n) && (m.byteAt (addr + BitVec.ofNat 32 (i / 8))).getLsbD (i % 8)) := by
  induction n with
  | zero => exact ⟨0, rfl, by simp⟩
  | succ n ih =>
      obtain ⟨v, hv, hb⟩ := ih (by omega) fun k hk => h k (by omega)
      refine ⟨_, by rw [phyReadLe, m.phyReadm8_ram (h n (by omega))]; simp [hv]; rfl, ?_⟩
      intro i hi
      rw [BitVec.getLsbD_or, BitVec.getLsbD_shiftLeft, BitVec.getLsbD_setWidth, hb i hi]
      by_cases h₁ : i < 8 * n
      · simp [h₁, show i < 8 * (n + 1) by omega]
      · by_cases h₂ : i < 8 * (n + 1)
        · have hd : i / 8 = n := by omega
          have hm : i - 8 * n = i % 8 := by omega
          simp [h₁, h₂, hd, hm, hi]
          intro _
          omega
        · have hl : (m.byteAt (addr + BitVec.ofNat 32 n)).getLsbD (i - 8 * n) = false :=
            BitVec.getLsbD_of_ge _ _ (by omega)
          simp [h₁, h₂, hl]

/-! ### No access changes the ranges -/

theorem ram_devRead {n : ℕ} {addr : Word} {r : Word × Memory δ} (h : m.devRead n addr = some r)
    (b : Word) : r.2.ram b = m.ram b := by
  obtain ⟨q, -, rfl⟩ := Option.map_eq_some_iff.1 h
  rfl

theorem ram_phyReadm8 {addr : Word} {r : Byte × Memory δ} (h : m.phyReadm8 addr = some r)
    (b : Word) : r.2.ram b = m.ram b := by
  unfold phyReadm8 at h
  split at h
  · obtain ⟨q, hq, rfl⟩ := Option.map_eq_some_iff.1 h
    exact m.ram_devRead hq b
  · split at h
    · obtain rfl := Option.some.inj h
      rfl
    · cases h

theorem ram_phyReadLe {addr : Word} {n : ℕ} {r : BitVec 64 × Memory δ}
    (h : phyReadLe addr n m = some r) (b : Word) : r.2.ram b = m.ram b := by
  induction n generalizing m r with
  | zero =>
      obtain rfl := Option.some.inj h
      rfl
  | succ n ih =>
      rw [phyReadLe] at h
      obtain ⟨q, hq, h⟩ := Option.bind_eq_some_iff.1 h
      obtain ⟨q', hq', h⟩ := Option.bind_eq_some_iff.1 h
      obtain rfl := Option.some.inj h
      exact (ih q.2 hq').trans (m.ram_phyReadm8 hq b)

theorem ram_phyRead {n : ℕ} {addr : Word} {r : BitVec 64 × Memory δ} (h : m.phyRead n addr = some r)
    (b : Word) : r.2.ram b = m.ram b := by
  unfold phyRead at h
  split at h
  · obtain ⟨q, hq, rfl⟩ := Option.map_eq_some_iff.1 h
    exact m.ram_devRead hq b
  · split at h
    · exact m.ram_phyReadLe h b
    · cases h

theorem ram_phyWritem8 {addr : Word} {v : Byte} {m' : Memory δ} (h : m.phyWritem8 addr v = some m')
    (b : Word) : m'.ram b = m.ram b := by
  unfold phyWritem8 at h
  split at h
  · obtain ⟨q, -, rfl⟩ := Option.map_eq_some_iff.1 h
    rfl
  · split at h
    · obtain rfl := Option.some.inj h
      rfl
    · cases h

theorem ram_phyWrite {bytes : Memory δ → Option (Memory δ)} {n : ℕ} {addr v : Word} {m' : Memory δ}
    (hb : ∀ m', bytes m = some m' → ∀ b, m'.ram b = m.ram b)
    (h : m.phyWrite bytes n addr v = some m') (b : Word) : m'.ram b = m.ram b := by
  unfold phyWrite at h
  split at h
  · obtain ⟨q, -, rfl⟩ := Option.map_eq_some_iff.1 h
    rfl
  · split at h
    · exact hb m' h b
    · obtain rfl := Option.some.inj h
      rfl

theorem ram_phyWritem16 {addr : Word} {v : BitVec 16} {m' : Memory δ}
    (h : m.phyWritem16 addr v = some m') : ∀ b, m'.ram b = m.ram b := by
  refine m.ram_phyWrite (fun m' h b => ?_) h
  obtain ⟨m₁, h₁, h⟩ := Option.bind_eq_some_iff.1 h
  exact (m₁.ram_phyWritem8 h b).trans (m.ram_phyWritem8 h₁ b)

theorem ram_phyWritem32 {addr v : Word} {m' : Memory δ} (h : m.phyWritem32 addr v = some m') :
    ∀ b, m'.ram b = m.ram b := by
  refine m.ram_phyWrite (fun m' h b => ?_) h
  obtain ⟨m₁, h₁, h⟩ := Option.bind_eq_some_iff.1 h
  obtain ⟨m₂, h₂, h⟩ := Option.bind_eq_some_iff.1 h
  obtain ⟨m₃, h₃, h⟩ := Option.bind_eq_some_iff.1 h
  exact (m₃.ram_phyWritem8 h b).trans ((m₂.ram_phyWritem8 h₃ b).trans
    ((m₁.ram_phyWritem8 h₂ b).trans (m.ram_phyWritem8 h₁ b)))

/-- A memory of 4096 bytes, and no device. -/
def small : Memory Unit where
  mmio := ⟨fun _ _ _ => none, fun _ _ _ _ => none⟩
  dev := ()
  memory a := a.setWidth 8
  memorySize := 4096
  size_pos := by decide
  dramPhyStart := 0x80000000
  mmioPhyBase := 0
  mmioPhyEndAddr := 0x3fffffff

end Memory

end NanoCpu
