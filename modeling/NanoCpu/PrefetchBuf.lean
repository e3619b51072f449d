/-
**The prefetch buffer** (`rtl/core/prefetch_buf.v`).

The fetch window is dealt out over as many banks as it has lanes, from the bank behind the last one
on, and the decoder takes from the bank of the oldest instruction on.  So the banks together are one
queue, and they are compared with an endless stream `e` of which the words `H, …, T - 1` are inside.

Main definitions:

* `PrefetchBuf`, `PrefetchIn`, `PrefetchBuf.next` — the circuit;
* `PrefetchBuf.Rep` — the buffer holds the words `H, …, T - 1` of the stream.

Main results:

* `PrefetchBuf.Rep.valid_iff`, `PrefetchBuf.Rep.out_eq` — what the decoder is shown;
* `PrefetchBuf.Rep.next` — **one cycle pushes and pops at the two ends of the queue**.
-/

import NanoCpu.Fifo
import NanoCpu.Interleave

set_option relaxedAutoImplicit false
set_option autoImplicit false

namespace NanoCpu

open Interleave

variable {α : Type*}

/-- The state of the buffer. -/
structure PrefetchBuf (α : Type*) where
  head : ℕ
  tail : ℕ
  bank : ℕ → Fifo α

/-- The inputs of one cycle; `iq` is the fetch window. -/
structure PrefetchIn (α : Type*) where
  flush : Bool
  iq : ℕ → α
  pushCnt : ℕ
  pushOffset : ℕ
  popCnt : ℕ

namespace PrefetchBuf

def reset (zero : α) : PrefetchBuf α := ⟨0, 0, fun _ => Fifo.reset zero⟩

variable (P D : ℕ)

def headL (s : PrefetchBuf α) (i : ℕ) : ℕ := (s.head + i) % 2 ^ P

def headR (s : PrefetchBuf α) (b : ℕ) : ℕ := (b + (2 ^ P - s.head)) % 2 ^ P

def tailR (s : PrefetchBuf α) (b : ℕ) : ℕ := (b + (2 ^ P - s.tail)) % 2 ^ P

/-- The lane of the window that goes to bank `b`. -/
def tailInv (s : PrefetchBuf α) (x : PrefetchIn α) (b : ℕ) : ℕ :=
  (b + (2 ^ P - s.tail) + x.pushOffset) % 2 ^ P

/-- `iq_ready`. -/
def ready (s : PrefetchBuf α) : Bool := (List.range (2 ^ P)).all fun b => (s.bank b).ready D

def idValid (s : PrefetchBuf α) (i : ℕ) : Bool := (s.bank (s.headL P i)).valid

/-- `{id_ins, id_pc, id_exc, id_bpu_upd}` of lane `i`. -/
def idOut (s : PrefetchBuf α) (i : ℕ) : α := (s.bank (s.headL P i)).dout

/-- The state after the clock edge. -/
def next (s : PrefetchBuf α) (x : PrefetchIn α) : PrefetchBuf α where
  head := if x.flush then 0 else (s.head + x.popCnt) % 2 ^ P
  tail := if x.flush then 0 else (s.tail + x.pushCnt) % 2 ^ P
  bank b := (s.bank b).next D
    { flush := x.flush
      push := decide (s.tailR P b < x.pushCnt)
      din := x.iq (s.tailInv P x b)
      pop := decide (s.headR P b < x.popCnt) }

/-! ### The queue inside -/

/-- The buffer holds the words `H, …, T - 1` of the stream `e`. -/
structure Rep (s : PrefetchBuf α) (H T : ℕ) (e : ℕ → α) : Prop where
  head_eq : s.head = H % 2 ^ P
  tail_eq : s.tail = T % 2 ^ P
  le : H ≤ T
  fifo : ∀ b < 2 ^ P, (s.bank b).Rep D (cnt (2 ^ P) b H) (cnt (2 ^ P) b T) fun k =>
    e (k * 2 ^ P + b)

variable {P D} {s : PrefetchBuf α} {x : PrefetchIn α} {H T : ℕ} {e : ℕ → α}

theorem rep_reset (zero : α) (e : ℕ → α) : (reset zero).Rep P D 0 0 e where
  head_eq := by simp [reset]
  tail_eq := by simp [reset]
  le := le_rfl
  fifo b hb := by
    rw [cnt_zero hb]
    exact Fifo.rep_reset zero _

theorem Rep.headL_eq (h : s.Rep P D H T e) (i : ℕ) : s.headL P i = (H + i) % 2 ^ P := by
  rw [headL, h.head_eq, Nat.mod_add_mod]

/-- The decoder is shown the words from `H` on, as many as there are. -/
theorem Rep.valid_iff (h : s.Rep P D H T e) {i : ℕ} (hi : i < 2 ^ P) :
    s.idValid P i = true ↔ H + i < T := by
  have hb : (H + i) % 2 ^ P < 2 ^ P := Nat.mod_lt _ (Nat.two_pow_pos P)
  rw [idValid, h.headL_eq, (h.fifo _ hb).valid_iff, lt_cnt_iff hb, cnt_lane hi, Nat.div_add_mod']

theorem Rep.out_eq (h : s.Rep P D H T e) {i : ℕ} (hi : i < 2 ^ P) (hlt : H + i < T) :
    s.idOut P i = e (H + i) := by
  have hb : (H + i) % 2 ^ P < 2 ^ P := Nat.mod_lt _ (Nat.two_pow_pos P)
  have hf := h.fifo _ hb
  have hlt' : cnt (2 ^ P) ((H + i) % 2 ^ P) H < cnt (2 ^ P) ((H + i) % 2 ^ P) T := by
    rwa [lt_cnt_iff hb, cnt_lane hi, Nat.div_add_mod']
  rw [idOut, h.headL_eq, hf.front hlt', cnt_lane hi, Nat.div_add_mod']

theorem Rep.congr (h : s.Rep P D H T e) {e' : ℕ → α} (he : ∀ k, H ≤ k → k < T → e k = e' k) :
    s.Rep P D H T e' where
  head_eq := h.head_eq
  tail_eq := h.tail_eq
  le := h.le
  fifo b hb := (h.fifo b hb).congr fun k hk hk' =>
    he _ ((cnt_le_iff hb k).1 hk) ((lt_cnt_iff hb k).1 hk')

/-! ### One cycle -/

theorem Rep.next_flush (s : PrefetchBuf α) (e : ℕ → α) (hx : x.flush = true) :
    (s.next P D x).Rep P D 0 0 e where
  head_eq := by simp [next, hx]
  tail_eq := by simp [next, hx]
  le := le_rfl
  fifo b hb := by
    rw [cnt_zero hb]
    exact Fifo.Rep.next_flush _ hx _ _

/-- The lane of the window that goes to a bank which is pushed into. -/
theorem Rep.tailInv_eq (h : s.Rep P D H T e) {b : ℕ}
    (hlt : lane (2 ^ P) T b + x.pushOffset < 2 ^ P) :
    s.tailInv P x b = lane (2 ^ P) T b + x.pushOffset := by
  have hl : (b + (2 ^ P - T % 2 ^ P)) % 2 ^ P = lane (2 ^ P) T b := rfl
  rw [tailInv, h.tail_eq, ← Nat.mod_add_mod, hl, Nat.mod_eq_of_lt hlt]

/-- **One cycle of the buffer**: at most a window is pushed, from its lane `pushOffset` on and only
into a buffer that is ready, and no more is popped than there is. -/
theorem Rep.next (h : s.Rep P D H T e) (hx : x.flush = false)
    (hw : x.pushCnt + x.pushOffset ≤ 2 ^ P) (hr : 0 < x.pushCnt → s.ready P D = true)
    (he : ∀ k < x.pushCnt, e (T + k) = x.iq (k + x.pushOffset)) (hp : x.popCnt ≤ 2 ^ P)
    (hle : H + x.popCnt ≤ T) : (s.next P D x).Rep P D (H + x.popCnt) (T + x.pushCnt) e where
  head_eq := by simp [PrefetchBuf.next, hx, h.head_eq]
  tail_eq := by simp [PrefetchBuf.next, hx, h.tail_eq]
  le := by omega
  fifo b hb := by
    have hf := h.fifo b hb
    have htl : s.tailR P b = lane (2 ^ P) T b := by rw [tailR, h.tail_eq, lane]
    have hhl : s.headR P b = lane (2 ^ P) H b := by rw [headR, h.head_eq, lane]
    rw [cnt_add hb hp, cnt_add hb (show x.pushCnt ≤ 2 ^ P by omega)]
    have hn := hf.next (x := ⟨x.flush, decide (s.tailR P b < x.pushCnt), x.iq (s.tailInv P x b),
      decide (s.headR P b < x.popCnt)⟩) hx ?_ ?_
    · rw [← htl, ← hhl]
      simp only [decide_eq_true_eq] at hn
      exact hn
    · intro hpush
      rw [decide_eq_true_eq, htl] at hpush
      have hready := hr (by omega)
      simp only [ready, List.all_eq_true, List.mem_range] at hready
      refine ⟨hf.lt_of_ready (hready b hb), ?_⟩
      change e (cnt (2 ^ P) b T * 2 ^ P + b) = x.iq (s.tailInv P x b)
      rw [cnt_mul_add hb, he _ hpush, h.tailInv_eq (by omega)]
    · intro hpop
      rw [decide_eq_true_eq, hhl] at hpop
      -- the bank holds the word that the lane stands for
      rw [lt_cnt_iff hb, cnt_mul_add hb]
      omega

end PrefetchBuf

end NanoCpu
