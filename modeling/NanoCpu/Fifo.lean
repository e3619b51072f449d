/-
**The first-word-fall-through FIFO** (`rtl/general/fifo_fwft_ctrl_rp_wp.v`, `fifo_fwft_ctrl.v`,
`fifo_fwft.v`).

The FIFO keeps its words in a register file with a registered read port, so a word that is pushed
into the empty FIFO, or pushed in the very cycle in which the word before it is popped, could not be
read in time.  Two small machines repair this: `state_r`/`dat_r` hold the first word of an empty
FIFO, and `rf_bypass`/`din_r` hold the word of a read-write collision.

The FIFO is compared with an endless stream `e` of which the words `R, …, W - 1` are inside; `R` and
`W` count all pops and pushes since the last flush and never wrap.

Main definitions:

* `Fifo`, `FifoIn`, `Fifo.next` — the circuit;
* `Fifo.Rep` — the FIFO holds the words `R, …, W - 1` of the stream `e`.

Main results:

* `Fifo.Rep.dout_eq` — what is presented is the oldest word;
* `Fifo.Rep.next` — **one cycle of the circuit is a push and a pop of the queue**, whatever is
  pushed and popped together, across any number of wrap-arounds.
-/

import NanoCpu.Rtl

set_option relaxedAutoImplicit false
set_option autoImplicit false

namespace NanoCpu

variable {α : Type*}

/-- The state of the FIFO and of its register file.  The pointers have one bit more than the
addresses. -/
structure Fifo (α : Type*) where
  wPtr : ℕ
  rPtr : ℕ
  stateR : Bool
  datR : α
  dinR : α
  rfBypass : Bool
  regfile : ℕ → α
  rfDout : α

/-- The inputs of one cycle. -/
structure FifoIn (α : Type*) where
  flush : Bool
  push : Bool
  din : α
  pop : Bool

namespace Fifo

/-- After reset every register is zero. -/
def reset (zero : α) : Fifo α where
  wPtr := 0
  rPtr := 0
  stateR := false
  datR := zero
  dinR := zero
  rfBypass := false
  regfile := fun _ => zero
  rfDout := zero

variable (d : ℕ)

/-- `ready`: not full. -/
def ready (f : Fifo α) : Bool :=
  (f.wPtr / 2 ^ d == f.rPtr / 2 ^ d) || (f.wPtr % 2 ^ d != f.rPtr % 2 ^ d)

/-- `valid`: not empty. -/
def valid (f : Fifo α) : Bool := f.wPtr != f.rPtr

def rptr (f : Fifo α) : ℕ := f.rPtr % 2 ^ d

def wptr (f : Fifo α) : ℕ := f.wPtr % 2 ^ d

def dout (f : Fifo α) : α :=
  if f.stateR then f.datR else if f.rfBypass then f.dinR else f.rfDout

/-- The state after the clock edge. -/
def next (f : Fifo α) (x : FifoIn α) : Fifo α :=
  let wPtrNxt := if x.flush then 0 else (f.wPtr + 1) % 2 ^ (d + 1)
  let rPtrNxt := if x.flush then 0 else (f.rPtr + 1) % 2 ^ (d + 1)
  let fwftNxt := !f.stateR && !f.valid && x.push
  let clrState := f.stateR && x.pop
  let rfConflict := (f.wptr d == rPtrNxt % 2 ^ d) && x.push && x.pop
  { wPtr := ldff (x.push || x.flush) wPtrNxt f.wPtr
    rPtr := ldff (x.pop || x.flush) rPtrNxt f.rPtr
    datR := ldff fwftNxt x.din f.datR
    dinR := ldff x.pop x.din f.dinR
    stateR := ldff (fwftNxt || clrState || x.flush) ((fwftNxt || !clrState) && !x.flush) f.stateR
    rfBypass := ldff (rfConflict || x.pop) (rfConflict || !x.pop) f.rfBypass
    regfile := if x.push then Function.update f.regfile (f.wptr d) x.din else f.regfile
    rfDout := ldff x.pop (f.regfile (rPtrNxt % 2 ^ d)) f.rfDout }

/-! ### The queue inside -/

/-- The FIFO `f` holds the words `R, …, W - 1` of the stream `e`. -/
structure Rep (f : Fifo α) (R W : ℕ) (e : ℕ → α) : Prop where
  wPtr_eq : f.wPtr = W % 2 ^ (d + 1)
  rPtr_eq : f.rPtr = R % 2 ^ (d + 1)
  le : R ≤ W
  le_add : W ≤ R + 2 ^ d
  regfile_eq : ∀ k, R ≤ k → k < W → f.regfile (k % 2 ^ d) = e k
  front : R < W → f.dout = e R
  idle : R = W → f.stateR = false

variable {d} {f : Fifo α} {R W : ℕ} {e : ℕ → α}

theorem rep_reset (zero : α) (e : ℕ → α) : (reset zero).Rep d 0 0 e where
  wPtr_eq := by simp [reset]
  rPtr_eq := by simp [reset]
  le := le_rfl
  le_add := Nat.zero_le _
  regfile_eq := by omega
  front := by omega
  idle := fun _ => rfl

theorem Rep.dout_eq (h : f.Rep d R W e) (hlt : R < W) : f.dout = e R := h.front hlt

theorem Rep.rptr_eq (h : f.Rep d R W e) : f.rptr d = R % 2 ^ d := by
  rw [rptr, h.rPtr_eq, Nat.pow_succ, Nat.mod_mul_right_mod]

theorem Rep.wptr_eq (h : f.Rep d R W e) : f.wptr d = W % 2 ^ d := by
  rw [wptr, h.wPtr_eq, Nat.pow_succ, Nat.mod_mul_right_mod]

/-- Numbers that are at most `M` apart have the same residue modulo `2 * M` only if they are
equal. -/
theorem eq_of_mod_two_mul {M a b : ℕ} (hM : 0 < M) (hab : a ≤ b) (hb : b ≤ a + M)
    (h : a % (M * 2) = b % (M * 2)) : a = b := by
  obtain ⟨c, rfl⟩ := Nat.exists_eq_add_of_le hab
  have h' : a + 0 ≡ a + c [MOD M * 2] := h
  have := Nat.ModEq.eq_of_lt_of_lt (Nat.ModEq.add_left_cancel' a h') (by omega) (by omega)
  omega

theorem Rep.valid_iff (h : f.Rep d R W e) : f.valid = true ↔ R < W := by
  have hle := h.le
  have hM : 0 < 2 ^ d := Nat.two_pow_pos d
  rw [valid, bne_iff_ne, h.wPtr_eq, h.rPtr_eq, Nat.pow_succ]
  constructor
  · intro hne
    rcases Nat.lt_or_eq_of_le hle with hlt | rfl
    · exact hlt
    · exact absurd rfl hne
  · intro hlt heq
    exact hlt.ne (eq_of_mod_two_mul hM hle h.le_add heq.symm)

/-- The full FIFO is the one whose pointers agree but for the top bit. -/
theorem Rep.lt_of_ready (h : f.Rep d R W e) (hr : f.ready d = true) : W < R + 2 ^ d := by
  have hM : 0 < 2 ^ d := Nat.two_pow_pos d
  refine lt_of_le_of_ne h.le_add fun hW => ?_
  rw [ready, Bool.or_eq_true, beq_iff_eq, bne_iff_ne] at hr
  have hw := h.wptr_eq
  have hp := h.rptr_eq
  rw [wptr, hW, Nat.add_mod_right] at hw
  rw [rptr] at hp
  have hq : f.wPtr / 2 ^ d = f.rPtr / 2 ^ d := by
    rcases hr with hr | hr
    · exact hr
    · exact absurd (hw.trans hp.symm) hr
  have heq : f.wPtr = f.rPtr := by
    rw [← Nat.div_add_mod f.wPtr (2 ^ d), ← Nat.div_add_mod f.rPtr (2 ^ d), hq, hw, hp]
  rw [h.wPtr_eq, h.rPtr_eq, Nat.pow_succ] at heq
  have := eq_of_mod_two_mul hM h.le h.le_add heq.symm
  omega

/-- Words of the queue lie in different places of the register file. -/
theorem eq_of_mod_of_lt {M R i j : ℕ} (hi : R ≤ i) (hi' : i < R + M) (hj : R ≤ j) (hj' : j < R + M)
    (h : i % M = j % M) : i = j := by
  obtain ⟨a, rfl⟩ := Nat.exists_eq_add_of_le hi
  obtain ⟨b, rfl⟩ := Nat.exists_eq_add_of_le hj
  have := Nat.ModEq.eq_of_lt_of_lt (Nat.ModEq.add_left_cancel' R h) (by omega) (by omega)
  omega

/-! ### One cycle -/

theorem Rep.next_flush (x : FifoIn α) (hx : x.flush = true) (f : Fifo α) (e : ℕ → α) :
    (f.next d x).Rep d 0 0 e where
  wPtr_eq := by simp [next, hx]
  rPtr_eq := by simp [next, hx]
  le := le_rfl
  le_add := Nat.zero_le _
  regfile_eq := by omega
  front := by omega
  idle := fun _ => by simp [next, hx]

theorem Rep.congr (h : f.Rep d R W e) {e' : ℕ → α} (he : ∀ k, R ≤ k → k < W → e k = e' k) :
    f.Rep d R W e' where
  wPtr_eq := h.wPtr_eq
  rPtr_eq := h.rPtr_eq
  le := h.le
  le_add := h.le_add
  regfile_eq k hk hk' := (h.regfile_eq k hk hk').trans (he k hk hk')
  front hlt := (h.front hlt).trans (he R le_rfl hlt)
  idle := h.idle

/-- The register file after a push holds the pushed word and the words that were there. -/
theorem Rep.regfile_push (h : f.Rep d R W e) (hW : W < R + 2 ^ d) {k : ℕ} (hk : R ≤ k)
    (hk' : k ≤ W) : Function.update f.regfile (f.wptr d) (e W) (k % 2 ^ d) = e k := by
  rw [h.wptr_eq]
  rcases Nat.lt_or_eq_of_le hk' with hlt | rfl
  · rw [Function.update_of_ne, h.regfile_eq k hk hlt]
    intro heq
    exact hlt.ne (eq_of_mod_of_lt hk (by omega) h.le hW heq)
  · exact Function.update_self _ _ _

/-- The read that a pop starts collides with a push exactly when the popped word is the last. -/
theorem Rep.conflict_iff (h : f.Rep d R W e) (hlt : R < W) :
    f.wptr d = (f.rPtr + 1) % 2 ^ (d + 1) % 2 ^ d ↔ W = R + 1 := by
  have hr : (f.rPtr + 1) % 2 ^ (d + 1) % 2 ^ d = (R + 1) % 2 ^ d := by
    rw [h.rPtr_eq, Nat.mod_add_mod, Nat.pow_succ, Nat.mod_mul_right_mod]
  have hle := h.le_add
  rw [h.wptr_eq, hr]
  constructor
  · intro heq
    exact eq_of_mod_of_lt (by omega) (by omega) le_rfl (by have := Nat.two_pow_pos d; omega) heq
  · rintro rfl
    rfl

/-- The front word after an edge that pops nothing. -/
theorem Rep.front_keep (h : f.Rep d R W e) {x : FifoIn α} (hx : x.flush = false)
    (hpop : x.pop = false) (hdin : x.push = true → e W = x.din)
    (hlt : R < if x.push then W + 1 else W) : (f.next d x).dout = e R := by
  rcases Nat.lt_or_eq_of_le h.le with hRW | rfl
  · have hv := h.valid_iff.2 hRW
    rw [← h.front hRW]
    simp [next, dout, hx, hpop, hv, ldff]
  · -- the word falls through the empty FIFO
    have hv : f.valid = false := by simp [← Bool.not_eq_true, h.valid_iff]
    have hp : x.push = true := by
      by_contra hp
      simp [hp] at hlt
    simp [next, dout, hx, hpop, hv, hp, h.idle rfl, ldff, hdin hp]

/-- The front word after an edge that pops one. -/
theorem Rep.front_pop (h : f.Rep d R W e) {x : FifoIn α} (hx : x.flush = false)
    (hpop : x.pop = true) (hRW : R < W) (hdin : x.push = true → e W = x.din)
    (hlt : R + 1 < if x.push then W + 1 else W) : (f.next d x).dout = e (R + 1) := by
  have hv := h.valid_iff.2 hRW
  have hr : (f.rPtr + 1) % 2 ^ (d + 1) % 2 ^ d = (R + 1) % 2 ^ d := by
    rw [h.rPtr_eq, Nat.mod_add_mod, Nat.pow_succ, Nat.mod_mul_right_mod]
  by_cases hc : W = R + 1
  · -- the next word is the one being pushed; the bypass register carries it
    have hp : x.push = true := by
      by_contra hp
      simp [hp] at hlt
      omega
    have hcon := (h.conflict_iff hRW).2 hc
    simp [next, dout, hx, hpop, hv, hp, ldff, hcon, ← hdin hp, hc]
  · have hcon : ¬ f.wptr d = (f.rPtr + 1) % 2 ^ (d + 1) % 2 ^ d := by rwa [h.conflict_iff hRW]
    have hlt' : R + 1 < W := by omega
    rw [hr] at hcon
    simp [next, dout, hx, hpop, hv, ldff, hcon, hr, h.regfile_eq (R + 1) (by omega) hlt']

/-- **One cycle of the circuit is one step of the queue.** -/
theorem Rep.next (h : f.Rep d R W e) {x : FifoIn α} (hx : x.flush = false)
    (hpush : x.push = true → W < R + 2 ^ d ∧ e W = x.din) (hpop : x.pop = true → R < W) :
    (f.next d x).Rep d (if x.pop then R + 1 else R) (if x.push then W + 1 else W) e where
  wPtr_eq := by
    cases hp : x.push <;> simp [Fifo.next, hx, hp, h.wPtr_eq, ldff]
  rPtr_eq := by
    cases hp : x.pop <;> simp [Fifo.next, hx, hp, h.rPtr_eq, ldff]
  le := by
    have hle := h.le
    split_ifs with h₁ h₂ h₂
    · omega
    · exact hpop h₁
    · omega
    · omega
  le_add := by
    have hle := h.le_add
    split_ifs with h₁ h₂ h₂
    · omega
    · have := (hpush h₁).1
      omega
    · omega
    · omega
  regfile_eq k hk hk' := by
    have hk : R ≤ k := by
      split_ifs at hk <;> omega
    cases hp : x.push with
    | false =>
        rw [hp] at hk'
        simpa [Fifo.next, hp] using h.regfile_eq k hk hk'
    | true =>
        rw [hp, if_pos rfl, Nat.lt_succ_iff] at hk'
        obtain ⟨hW, hd⟩ := hpush hp
        have := h.regfile_push hW hk hk'
        rw [hd] at this
        simpa [Fifo.next, hp] using this
  front hlt := by
    cases hp : x.pop with
    | false =>
        rw [hp] at hlt
        exact h.front_keep hx hp (fun h' => (hpush h').2) hlt
    | true =>
        rw [hp, if_pos rfl] at hlt
        exact h.front_pop hx hp (hpop hp) (fun h' => (hpush h').2) hlt
  idle heq := by
    cases hp : x.push with
    | false =>
        cases hpp : x.pop with
        | false =>
            have hRW : R = W := by simpa [hp, hpp] using heq
            simp [Fifo.next, hx, hp, hpp, ldff, h.idle hRW]
        | true =>
            cases hs : f.stateR <;> simp [Fifo.next, hx, hp, hpp, ldff, hs]
    | true =>
        -- a FIFO that is pushed into and yet empty afterwards was popped while it was empty
        have hle := h.le
        cases hpp : x.pop with
        | false =>
            simp [hp, hpp] at heq
            omega
        | true =>
            have := hpop hpp
            simp [hp, hpp] at heq
            omega

end Fifo

end NanoCpu
