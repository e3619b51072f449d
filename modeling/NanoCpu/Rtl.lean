/-
**The storage and selection primitives of `rtl/lib` and `rtl/general`.**

Every clocked element of the core is built from a handful of cells: a register with a load enable
(`mDFF_l`, `mDFF_lr`), a register file with several write ports (`mRF_nw_do`, `mRF_nwnr`, …), a
priority encoder, a priority multiplexer, a population count and a one-slot handshake buffer
(`hds_buf`).  They are embedded here once; reset is the initial state of the modules that use them.

Main definitions:

* `Word`, `Pc` — the words and program counters of the configuration;
* `ldff` — the next value of a register with a load enable;
* `rfWrite` — the contents of a register file after its write ports, in port order;
* `orMux` — the data of the selected lanes, or-ed together;
* `priorityEncoderGs`, `priorityEncoderRevGs` — the position of the lowest (highest) set bit;
* `HdsBuf` — the handshake buffer with the bypass on the pop side.

Main results:

* `rfWrite_of_forall_ne` — an address that no enabled port carries keeps its contents;
* `orMux_of_unique` — an AND-OR multiplexer with one selected lane passes the data of that lane.
-/

import Mathlib.Tactic

set_option relaxedAutoImplicit false
set_option autoImplicit false

namespace NanoCpu

variable {α β : Type*}

/-! ### Widths -/

/-- A machine word (`CONFIG_DW`, `CONFIG_AW`). -/
abbrev Word := BitVec 32

/-- A program counter: the address of an instruction without its two zero bits (`PC_W`). -/
abbrev Pc := BitVec 30

/-! ### Indices

The definitions of many modules hold a proof that their numerals are indices.  Each has the same
one, by name.
-/

/-- Numerals are indices of the logical registers. -/
instance neZero_thirtyTwo : NeZero 32 := inferInstance

/-- Numerals are indices of the physical registers and of the bytes of a line. -/
instance neZero_sixtyFour : NeZero 64 := inferInstance

/-- Numerals are indices of the scratch registers. -/
instance neZero_four : NeZero 4 := inferInstance

/-- The ways of both caches of the chip (`1 << CONFIG_IC_P_WAYS`, `1 << CONFIG_DC_P_WAYS`). -/
def cacheWays : ℕ := 2

instance : NeZero cacheWays := ⟨by decide⟩

/-! ### Registers -/

/-- `mDFF_l`: the register takes `d` when `load` is high and keeps its value otherwise. -/
def ldff (load : Bool) (d q : α) : α := if load then d else q

@[simp] theorem ldff_true (d q : α) : ldff true d q = d := rfl

@[simp] theorem ldff_false (d q : α) : ldff false d q = q := rfl

/-! ### Register files -/

/-- The write ports `0, …, n - 1` of a register file, in this order: a later port wins. -/
def rfWrite [DecidableEq β] (we : ℕ → Bool) (waddr : ℕ → β) (wdata : ℕ → α) :
    ℕ → (β → α) → β → α
  | 0, rf => rf
  | n + 1, rf =>
      if we n then Function.update (rfWrite we waddr wdata n rf) (waddr n) (wdata n)
      else rfWrite we waddr wdata n rf

section RfWrite

variable [DecidableEq β] {we : ℕ → Bool} {waddr : ℕ → β} {wdata : ℕ → α} {rf : β → α}

theorem rfWrite_of_forall_ne {n : ℕ} {a : β} (h : ∀ j < n, we j = true → waddr j ≠ a) :
    rfWrite we waddr wdata n rf a = rf a := by
  induction n with
  | zero => rfl
  | succ n ih =>
      have ih := ih fun j hj => h j (by omega)
      rw [rfWrite]
      split_ifs with hw
      · rw [Function.update_of_ne (h n (by omega) hw).symm, ih]
      · exact ih

/-- If all that is written to an address is `v`, and something is or `v` was there, then `v` is
there. -/
theorem rfWrite_eq_of_forall {n : ℕ} {a : β} {v : α}
    (h : ∀ j < n, we j = true → waddr j = a → wdata j = v)
    (hv : rf a = v ∨ ∃ j < n, we j = true ∧ waddr j = a) : rfWrite we waddr wdata n rf a = v := by
  induction n with
  | zero => simpa [rfWrite] using hv
  | succ n ih =>
      rw [rfWrite]
      by_cases hn : we n = true ∧ waddr n = a
      · rw [if_pos hn.1, hn.2, Function.update_self]
        exact h n (by omega) hn.1 hn.2
      · have hv' : rf a = v ∨ ∃ j < n, we j = true ∧ waddr j = a := by
          refine hv.imp id ?_
          rintro ⟨j, hj, hw, ha⟩
          rcases Nat.lt_succ_iff_lt_or_eq.1 hj with hlt | rfl
          · exact ⟨j, hlt, hw, ha⟩
          · exact absurd ⟨hw, ha⟩ hn
        have ih := ih (fun j hj => h j (by omega)) hv'
        split_ifs with hw
        · rw [Function.update_of_ne (fun e => hn ⟨hw, e.symm⟩), ih]
        · exact ih

theorem rfWrite_congr {e : ℕ → Bool} {a : ℕ → β} {d : ℕ → α} {n : ℕ}
    (h : ∀ j < n, we j = e j ∧ waddr j = a j ∧ wdata j = d j) :
    rfWrite we waddr wdata n rf = rfWrite e a d n rf := by
  induction n with
  | zero => rfl
  | succ n ih =>
      obtain ⟨h₁, h₂, h₃⟩ := h n (by omega)
      rw [rfWrite, rfWrite, ih fun j hj => h j (by omega), h₁, h₂, h₃]

/-- The ports from `m` on write after the first `m`. -/
theorem rfWrite_add (m n : ℕ) :
    rfWrite we waddr wdata (m + n) rf =
      rfWrite (fun j => we (m + j)) (fun j => waddr (m + j)) (fun j => wdata (m + j)) n
        (rfWrite we waddr wdata m rf) := by
  induction n with
  | zero => rfl
  | succ n ih => rw [← Nat.add_assoc, rfWrite, ih, rfWrite]

/-- Ports that all write the same value. -/
theorem rfWrite_const (b : α) (n : ℕ) (a : β) [Decidable (∃ j < n, we j = true ∧ waddr j = a)] :
    rfWrite we waddr (fun _ => b) n rf a = if ∃ j < n, we j = true ∧ waddr j = a then
      b else rf a := by
  split_ifs with h
  · obtain ⟨j, hj, hw, ha⟩ := h
    induction n with
    | zero => omega
    | succ n ih =>
        rw [rfWrite]
        by_cases hn : we n = true ∧ waddr n = a
        · rw [if_pos hn.1, hn.2, Function.update_self]
        · have hlt : j < n := by
            rcases Nat.lt_succ_iff_lt_or_eq.1 hj with h | rfl
            · exact h
            · exact absurd ⟨hw, ha⟩ hn
          have ih := ih hlt
          split_ifs with hwn
          · rw [Function.update_of_ne fun he => hn ⟨hwn, he.symm⟩, ih]
          · exact ih
  · push Not at h
    exact rfWrite_of_forall_ne h

/-- Ports above `m` that are all disabled do nothing. -/
theorem rfWrite_of_le {m n : ℕ} (hmn : m ≤ n) (h : ∀ j, m ≤ j → j < n → we j = false) :
    rfWrite we waddr wdata n rf = rfWrite we waddr wdata m rf := by
  induction n with
  | zero =>
      obtain rfl : m = 0 := by omega
      rfl
  | succ n ih =>
      rcases Nat.lt_or_eq_of_le hmn with hlt | rfl
      · rw [rfWrite, h n (by omega) (by omega), if_neg Bool.false_ne_true,
          ih (by omega) fun j hj hj' => h j hj (by omega)]
      · rfl

end RfWrite

/-! ### Selection -/

/-- `priority_encoder_gs`: the lowest set bit; the position is zero when there is none. -/
def priorityEncoderGs {n : ℕ} [NeZero n] (din : Fin n → Bool) : Fin n × Bool :=
  match Fin.find? din with
  | some i => (i, true)
  | none => (0, false)

/-- `priority_encoder_rev_gs` on the reversed vector: the highest set bit; the position is zero when
there is none. -/
def priorityEncoderRevGs {n : ℕ} [NeZero n] (din : Fin n → Bool) : Fin n × Bool :=
  match Fin.findRev? din with
  | some i => (i, true)
  | none => (0, false)

theorem priorityEncoderGs_mem {n : ℕ} [NeZero n] {din : Fin n → Bool}
    (h : (priorityEncoderGs din).2 = true) : din (priorityEncoderGs din).1 = true := by
  unfold priorityEncoderGs at h ⊢
  cases hf : Fin.find? din with
  | none => simp [hf] at h
  | some i => exact Fin.eq_true_of_find?_eq_some hf

theorem priorityEncoderRevGs_mem {n : ℕ} [NeZero n] {din : Fin n → Bool}
    (h : (priorityEncoderRevGs din).2 = true) : din (priorityEncoderRevGs din).1 = true := by
  unfold priorityEncoderRevGs at h ⊢
  cases hf : Fin.findRev? din with
  | none => simp [hf] at h
  | some i => exact Fin.eq_true_of_findRev?_eq_some hf

/-- Where a bit is set the encoder finds one. -/
theorem priorityEncoderGs_of_mem {n : ℕ} [NeZero n] {din : Fin n → Bool} {i : Fin n}
    (h : din i = true) : (priorityEncoderGs din).2 = true := by
  unfold priorityEncoderGs
  cases hf : Fin.find? din with
  | some j => rfl
  | none =>
      have := Fin.eq_false_of_find?_eq_none hf i
      rw [h] at this
      cases this

theorem priorityEncoderRevGs_of_mem {n : ℕ} [NeZero n] {din : Fin n → Bool} {i : Fin n}
    (h : din i = true) : (priorityEncoderRevGs din).2 = true := by
  unfold priorityEncoderRevGs
  cases hf : Fin.findRev? din with
  | some j => rfl
  | none =>
      have := Fin.eq_false_of_findRev?_eq_none hf i
      rw [h] at this
      cases this

theorem priorityEncoderGs_mem_or_zero {n : ℕ} [NeZero n] (din : Fin n → Bool) :
    din (priorityEncoderGs din).1 = true ∨ (priorityEncoderGs din).1 = 0 := by
  unfold priorityEncoderGs
  cases hf : Fin.find? din with
  | none => exact Or.inr rfl
  | some i => exact Or.inl (Fin.eq_true_of_find?_eq_some hf)

theorem priorityEncoderRevGs_mem_or_zero {n : ℕ} [NeZero n] (din : Fin n → Bool) :
    din (priorityEncoderRevGs din).1 = true ∨ (priorityEncoderRevGs din).1 = 0 := by
  unfold priorityEncoderRevGs
  cases hf : Fin.findRev? din with
  | none => exact Or.inr rfl
  | some i => exact Or.inl (Fin.eq_true_of_findRev?_eq_some hf)

/-- `pmux`: the data of the first selected way, or of way zero. -/
def pmux {n : ℕ} [NeZero n] {α : Type*} (sel : Fin n → Bool) (din : Fin n → α) : α :=
  din (priorityEncoderGs sel).1

theorem pmux_of_lowest {n : ℕ} [NeZero n] {α : Type*} {sel : Fin n → Bool} {k : Fin n}
    (din : Fin n → α)
    (h : sel k = true) (hlow : ∀ j < k, sel j = false) : pmux sel din = din k := by
  have hf : Fin.find? sel = some k := Fin.find?_eq_some_iff.2 ⟨h, hlow⟩
  simp [pmux, priorityEncoderGs, hf]

/-- The AND-OR multiplexer of a `for` loop over lanes: the data of all selected lanes, or-ed. -/
def orMux (or : α → α → α) (zero : α) (sel : ℕ → Bool) (din : ℕ → α) : ℕ → α
  | 0 => zero
  | n + 1 => or (orMux or zero sel din n) (if sel n then din n else zero)

section OrMux

variable {or : α → α → α} {zero : α} {sel : ℕ → Bool} {din : ℕ → α}

theorem orMux_of_forall_false (hz : or zero zero = zero) {n : ℕ} (h : ∀ j < n, sel j = false) :
    orMux or zero sel din n = zero := by
  induction n with
  | zero => rfl
  | succ n ih => simp [orMux, ih fun j hj => h j (by omega), h n (by omega), hz]

/-- If only one lane is selected the multiplexer passes its data. -/
theorem orMux_of_unique (hl : ∀ a, or zero a = a) (hr : ∀ a, or a zero = a) {n k : ℕ} (hk : k < n)
    (hs : sel k = true) (h : ∀ j < n, sel j = true → j = k) : orMux or zero sel din n = din k := by
  induction n with
  | zero => omega
  | succ n ih =>
      rcases Nat.lt_succ_iff_lt_or_eq.1 hk with hlt | rfl
      · have hn : sel n = false := by
          by_contra hn
          have := h n (by omega) (by simpa using hn)
          omega
        simp [orMux, hn, ih hlt fun j hj => h j (by omega), hr]
      · have hz : orMux or zero sel din k = zero := by
          refine orMux_of_forall_false (hl zero) fun j hj => ?_
          by_contra hsj
          have := h j (by omega) (by simpa using hsj)
          omega
        simp [orMux, hs, hz, hl]

end OrMux

/-! ### The handshake buffer -/

/-- `hds_buf` with `BYPASS`: its only state is whether the slot is taken. -/
structure HdsBuf where
  pending : Bool
  deriving DecidableEq, Repr

namespace HdsBuf

/-- `AREADY`: the slot is free, or is being emptied in this cycle. -/
def aready (b : HdsBuf) (aEn bEn bready : Bool) : Bool :=
  aEn && (!b.pending || (bEn && b.pending && bready))

/-- The slot after the edge. -/
def next (b : HdsBuf) (flush aEn avalid bEn bready : Bool) : HdsBuf :=
  let push := avalid && b.aready aEn bEn bready
  let pop := bEn && b.pending && bready
  ⟨ldff (push || pop || flush) ((push || !pop) && !flush) b.pending⟩

/-- What is in the slot after the edge has just come in, or could not leave. -/
theorem pending_next {b : HdsBuf} {avalid bready : Bool}
    (h : (b.next false true avalid true bready).pending = true) :
    (avalid && b.aready true true bready) = true ∨
      ((avalid && b.aready true true bready) = false ∧ b.pending = true ∧ bready = false) := by
  simp only [next, aready, ldff] at h ⊢
  cases hb : b.pending <;> cases avalid <;> cases bready <;> simp_all

/-- What cannot leave stays. -/
theorem pending_of_not_ready {b : HdsBuf} {avalid : Bool} (h : b.pending = true) :
    (b.next false true avalid true false).pending = true := by
  simp [next, aready, ldff, h]

end HdsBuf

end NanoCpu
