/-
**Loading an image into the emulator's memory** (`em/csrc/memory.cc`).

`load_address_fp` tests that the base address lies in the memory, once, and then reads the file
chunk by chunk to its end.  Nothing compares the length of the file with what is left of the memory
behind the base address.  The allocation is seen here as the beginning of the bytes of the process,
so that a store behind its end has a place to go, and every store is noted.

Main definitions:

* `FilePtr`, `FilePtr.fread` — a file that is read from its position on;
* `Alloc` — the allocation with what lies behind it, and the indices that were stored to;
* `Alloc.loadLoop`, `Alloc.loadAddressFp` — the loop over the chunks, and the function;
* `Alloc.LoadsInBounds` — the load is reported with nothing changed, or complete and inside the
  allocation.

Main results:

* `Alloc.loadLoop_eq` — the loop stores the rest of the file from its index on;
* `Alloc.loadsInBounds_iff` — **when a load stays in bounds**.
-/

import NanoCpu.EmMemory

set_option relaxedAutoImplicit false
set_option autoImplicit false

namespace NanoCpu

/-! ### The file -/

/-- A file that was opened, and the position in it. -/
structure FilePtr where
  contents : List Byte
  pos : ℕ

namespace FilePtr

/-- `CHUNK_SIZE`. -/
def chunkSize : ℕ := 8192

/-- What is left from the position on. -/
def rest (fp : FilePtr) : List Byte := fp.contents.drop fp.pos

/-- `fseek(fp, 0, SEEK_SET)`. -/
def rewind (fp : FilePtr) : FilePtr := { fp with pos := 0 }

/-- `fread` of bytes: as many as asked for, fewer at the end of the file only. -/
def fread (fp : FilePtr) (n : ℕ) : List Byte × FilePtr :=
  (fp.rest.take n, { fp with pos := fp.pos + (fp.rest.take n).length })

@[simp] theorem rest_rewind (fp : FilePtr) : fp.rewind.rest = fp.contents := rfl

theorem rest_fread (fp : FilePtr) (n : ℕ) : (fp.fread n).2.rest = fp.rest.drop n := by
  unfold fread rest
  rw [← List.drop_drop]
  by_cases h : n ≤ (fp.contents.drop fp.pos).length
  · rw [List.length_take_of_le h]
  · have hl : (fp.contents.drop fp.pos).length ≤ n := by omega
    rw [List.take_of_length_le hl, List.drop_of_length_le hl, List.drop_of_length_le (le_refl _)]

/-- A read that returns something gets on. -/
theorem rest_fread_lt (fp : FilePtr) {n : ℕ} (h : 0 < (fp.fread n).1.length) :
    (fp.fread n).2.rest.length < fp.rest.length := by
  rw [rest_fread, List.length_drop]
  simp only [fread, List.length_take] at h
  omega

end FilePtr

/-! ### The load -/

/-- The memory of `Memory::Memory` as the process has it: the bytes from its first one on, of which
the first `memory_size` are allocated, and the indices that were stored to. -/
structure Alloc where
  memory : ℕ → Byte
  memorySize : BitVec 64
  dramPhyStart : Word
  stored : List ℕ

namespace Alloc

/-- The given bytes are stored one after the other, from an index on. -/
def store (m : Alloc) (i : ℕ) (data : List Byte) : Alloc :=
  { m with
    memory := fun j => if i ≤ j then data[j - i]?.getD (m.memory j) else m.memory j
    stored := m.stored ++ List.range' i data.length }

/-- The loop of `load_address_fp`, whose next chunk goes to the index `i + pos`. -/
def loadLoop (m : Alloc) (i pos : ℕ) (fp : FilePtr) : Alloc :=
  let chunk := fp.fread FilePtr.chunkSize
  if _h : 0 < chunk.1.length then
    loadLoop (m.store (i + pos) chunk.1) i (pos + chunk.1.length) chunk.2
  else m
termination_by fp.rest.length
decreasing_by exact fp.rest_fread_lt ‹_›

/-- The test of the base address; the end of the memory is computed in 64 bits. -/
def inWindow (m : Alloc) (baseaddr : Word) : Bool :=
  decide (m.dramPhyStart ≤ baseaddr) &&
    decide (baseaddr.setWidth 64 < m.dramPhyStart.setWidth 64 + m.memorySize)

/-- `load_address_fp`. -/
def loadAddressFp (m : Alloc) (fp : FilePtr) (baseaddr : Word) : ℤ × Alloc :=
  if !m.inWindow baseaddr then (-1, m)
  else (0, m.loadLoop (baseaddr.toNat - m.dramPhyStart.toNat) 0 fp.rewind)

/-- The image fits into the memory behind the base address. -/
def Fits (m : Alloc) (fp : FilePtr) (baseaddr : Word) : Prop :=
  m.inWindow baseaddr = true ∧
    baseaddr.toNat - m.dramPhyStart.toNat + fp.contents.length ≤ m.memorySize.toNat

/-- **What a load promises.**  It returns an error and has stored nothing, or it has stored every
byte of the file at its place and nothing outside the allocation; an image that does not fit is an
error. -/
structure LoadsInBounds (m : Alloc) (fp : FilePtr) (baseaddr : Word) : Prop where
  error : (m.loadAddressFp fp baseaddr).1 ≠ 0 → (m.loadAddressFp fp baseaddr).2 = m
  bytes : (m.loadAddressFp fp baseaddr).1 = 0 → ∀ i b, fp.contents[i]? = some b →
    (m.loadAddressFp fp baseaddr).2.memory (baseaddr.toNat - m.dramPhyStart.toNat + i) = b
  inside : (m.loadAddressFp fp baseaddr).1 = 0 → ∀ j ∈ (m.loadAddressFp fp baseaddr).2.stored,
    j ∈ m.stored ∨ j < m.memorySize.toNat
  reported : ¬ m.Fits fp baseaddr → (m.loadAddressFp fp baseaddr).1 ≠ 0

/-! ### What the loop stores -/

theorem memory_store (m : Alloc) (i j : ℕ) (data : List Byte) :
    (m.store i data).memory (i + j) = data[j]?.getD (m.memory (i + j)) := by
  simp [store]

@[simp] theorem store_nil (m : Alloc) (i : ℕ) : m.store i [] = m := by
  simp [store]

/-- Two pieces one behind the other are one. -/
theorem store_store (m : Alloc) (i : ℕ) (a b : List Byte) :
    (m.store i a).store (i + a.length) b = m.store i (a ++ b) := by
  unfold store
  congr 1
  · funext j
    by_cases hj : i ≤ j
    · obtain ⟨k, rfl⟩ := Nat.exists_eq_add_of_le hj
      by_cases hk : k < a.length
      · simp [show ¬ a.length ≤ k by omega, List.getElem?_append_left hk]
      · have hk' : a.length ≤ k := by omega
        simp [hk', List.getElem?_append_right hk',
          show i + k - (i + a.length) = k - a.length by omega]
    · simp [hj, show ¬ i + a.length ≤ j by omega]
  · rw [List.append_assoc, List.length_append, List.range'_append_1]

/-- **The loop stores the rest of the file.** -/
theorem loadLoop_eq (m : Alloc) (i pos : ℕ) (fp : FilePtr) :
    m.loadLoop i pos fp = m.store (i + pos) fp.rest := by
  -- the recursion of the loop: the file gets shorter with every chunk
  induction m, pos, fp using loadLoop.induct i with
  | case1 m pos fp chunk h ih =>
      have hs : fp.rest = chunk.1 ++ chunk.2.rest := by
        rw [FilePtr.rest_fread]
        exact (List.take_append_drop _ _).symm
      rw [loadLoop, dif_pos h, ih, ← Nat.add_assoc, store_store, ← hs]
  | case2 m pos fp chunk h =>
      have he : fp.rest = [] := by
        simp only [chunk, FilePtr.fread, List.length_take, FilePtr.chunkSize] at h
        exact List.length_eq_zero_iff.1 (by omega)
      rw [loadLoop, dif_neg h, he, store_nil]

section

variable {m : Alloc} {fp : FilePtr} {baseaddr : Word}

theorem loadAddressFp_of_not_inWindow (h : m.inWindow baseaddr = false) :
    m.loadAddressFp fp baseaddr = (-1, m) := by
  simp [loadAddressFp, h]

theorem loadAddressFp_of_inWindow (h : m.inWindow baseaddr = true) :
    m.loadAddressFp fp baseaddr =
      (0, m.store (baseaddr.toNat - m.dramPhyStart.toNat) fp.contents) := by
  simp [loadAddressFp, h, loadLoop_eq]

/-! ### When a load stays in bounds -/

theorem LoadsInBounds.of_not_inWindow (h : m.inWindow baseaddr = false) :
    m.LoadsInBounds fp baseaddr := by
  have hr : m.loadAddressFp fp baseaddr = (-1, m) := loadAddressFp_of_not_inWindow h
  constructor <;> rw [hr] <;> simp

theorem LoadsInBounds.of_fits (h : m.Fits fp baseaddr) : m.LoadsInBounds fp baseaddr := by
  obtain ⟨hw, hlen⟩ := h
  have hr : m.loadAddressFp fp baseaddr =
    (0, m.store (baseaddr.toNat - m.dramPhyStart.toNat) fp.contents) :=
    loadAddressFp_of_inWindow hw
  refine ⟨?_, ?_, ?_, fun hn => absurd ⟨hw, hlen⟩ hn⟩
  · intro he
    rw [hr] at he
    exact absurd rfl he
  · intro _ i b hb
    rw [hr, memory_store, hb]
    rfl
  · intro _ j hj
    rw [hr] at hj
    rcases List.mem_append.1 hj with hj | hj
    · exact Or.inl hj
    · obtain ⟨-, hj⟩ := List.mem_range'_1.1 hj
      exact Or.inr (by omega)

/-- **When a load stays in bounds**: if its base address is outside the memory, or the memory behind
it holds the whole file. -/
theorem loadsInBounds_iff : m.LoadsInBounds fp baseaddr ↔
    m.inWindow baseaddr = false ∨
      baseaddr.toNat - m.dramPhyStart.toNat + fp.contents.length ≤ m.memorySize.toNat := by
  constructor
  · intro h
    cases hw : m.inWindow baseaddr with
    | false => exact Or.inl rfl
    | true =>
        refine Or.inr ?_
        by_contra hlen
        have hr := h.reported fun hf => hlen hf.2
        rw [loadAddressFp_of_inWindow hw] at hr
        exact hr rfl
  · intro h
    cases hw : m.inWindow baseaddr with
    | false => exact LoadsInBounds.of_not_inWindow hw
    | true => exact LoadsInBounds.of_fits ⟨hw, h.resolve_left (by simp [hw])⟩

/-- Two bytes of memory, and a file of two bytes that goes to the second one. -/
theorem load_beyond_end : ¬ ∀ (m : Alloc) (fp : FilePtr) (baseaddr : Word),
    m.LoadsInBounds fp baseaddr := by
  intro h
  have hw : inWindow ⟨fun _ => 0, 2, 0, []⟩ 1 = true := by decide
  have hr := (h ⟨fun _ => 0, 2, 0, []⟩ ⟨[0xaa, 0xbb], 0⟩ 1).inside
  rw [loadAddressFp_of_inWindow hw] at hr
  have h₂ : (2 : ℕ) ∈ ([] : List ℕ) ∨ 2 < (2#64).toNat := hr rfl 2 (by decide)
  exact absurd h₂ (by decide)

end

end Alloc

end NanoCpu
