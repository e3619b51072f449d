/-
**The first-word-fall-through FIFO is a bounded queue** (`rtl/general/fifo_fwft.v`,
`fifo_fwft_ctrl.v`, `fifo_fwft_ctrl_rp_wp.v`).

The three files share one control; `fifo_fwft` ties it to a register file, and the last one exports
the two addresses.  Beside the circuit stands a record of its traffic since the last flush: the
words that were accepted, in order, and the words that were on `dout` when they were popped.  The
queue is what was accepted and has not been popped.

Main definitions:

* `Fifo.machine` — the FIFO whose user pushes while it is ready and pops while it is valid;
* `Traffic`, `Fifo.watched` — the words that went in and out;
* `Fifo.Holds` — the FIFO holds a given queue of words.

Main results:

* `Fifo.holds_next` — one cycle, whatever is pushed and popped together;
* `Fifo.queue_refined` — **at every time of every run the accepted words are the popped ones
  followed by the queue, and the circuit presents that queue**.
-/

import NanoCpu.Fifo
import NanoCpu.Machine

set_option relaxedAutoImplicit false
set_option autoImplicit false

namespace NanoCpu

variable {α : Type*}

/-- The words that were accepted and those that were popped since the last flush, oldest first. -/
structure Traffic (α : Type*) where
  accepted : List α
  popped : List α

namespace Fifo

/-- The FIFO with a user that pushes only while it is `ready` and pops only while it is `valid`.  A
flush wins over both. -/
def machine (d : ℕ) (zero : α) : Machine (Fifo α) (FifoIn α) where
  reset := Fifo.reset zero
  allowed f x := x.flush = true ∨
    ((x.push = true → f.ready d = true) ∧ (x.pop = true → f.valid = true))
  next f x := f.next d x

/-- What one cycle adds to the traffic. -/
def traffic (g : Traffic α) (f : Fifo α) (x : FifoIn α) : Traffic α :=
  if x.flush then ⟨[], []⟩
  else
    { accepted := g.accepted ++ (if x.push then [x.din] else [])
      popped := g.popped ++ (if x.pop then [f.dout] else []) }

/-- The FIFO beside the record of its traffic. -/
def watched (d : ℕ) (zero : α) : Machine (Fifo α × Traffic α) (FifoIn α) :=
  (machine d zero).observe ⟨[], []⟩ traffic fun _ _ _ => True

/-! ### The queue and the circuit -/

variable (d : ℕ)

/-- The FIFO holds the words of `q`, the oldest first. -/
def Holds (f : Fifo α) (q : List α) : Prop :=
  ∃ R e, f.Rep d R (R + q.length) e ∧ ∀ i a, q[i]? = some a → e (R + i) = a

variable {d} {f : Fifo α} {q : List α}

theorem holds_nil {e : ℕ → α} (h : f.Rep d 0 0 e) : f.Holds d [] :=
  ⟨0, e, h, by simp⟩

theorem Holds.valid_iff (h : f.Holds d q) : f.valid = true ↔ q ≠ [] := by
  obtain ⟨R, e, hf, -⟩ := h
  rw [hf.valid_iff, ← List.length_pos_iff]
  omega

theorem Holds.length_le (h : f.Holds d q) : q.length ≤ 2 ^ d := by
  obtain ⟨R, e, hf, -⟩ := h
  have := hf.le_add
  omega

/-- A FIFO that is not ready is full: its pointers differ in the top bit alone. -/
theorem Rep.ready_of_lt {R W : ℕ} {e : ℕ → α} (h : f.Rep d R W e) (hW : W < R + 2 ^ d) :
    f.ready d = true := by
  have hM : 0 < 2 ^ d := Nat.two_pow_pos d
  have hw : f.wPtr % 2 ^ d = W % 2 ^ d := h.wptr_eq
  have hr : f.rPtr % 2 ^ d = R % 2 ^ d := h.rptr_eq
  rw [ready, Bool.or_eq_true, beq_iff_eq, bne_iff_ne]
  by_cases heq : f.wPtr % 2 ^ d = f.rPtr % 2 ^ d
  · -- equal addresses are equal positions here, so the pointers agree altogether
    rw [hw, hr] at heq
    have hWR : R = W := eq_of_mod_of_lt le_rfl (by omega) h.le hW heq.symm
    left
    rw [h.wPtr_eq, h.rPtr_eq, hWR]
  · exact Or.inr heq

theorem Holds.ready_iff (h : f.Holds d q) : f.ready d = true ↔ q.length < 2 ^ d := by
  obtain ⟨R, e, hf, -⟩ := h
  constructor
  · intro hr
    have := hf.lt_of_ready hr
    omega
  · intro hlt
    exact hf.ready_of_lt (by omega)

/-- The front of the queue is on `dout`. -/
theorem Holds.dout_eq (h : f.Holds d q) {a : α} (ha : q.head? = some a) : f.dout = a := by
  obtain ⟨R, e, hf, he⟩ := h
  have hpos : 0 < q.length := by
    rw [List.length_pos_iff]
    rintro rfl
    simp at ha
  rw [hf.dout_eq (by omega)]
  exact he 0 a (by rw [← List.head?_eq_getElem?, ha])

/-- The words of the queue lie in the register file one after the other from `rptr` on. -/
theorem Holds.regfile_eq (h : f.Holds d q) {i : ℕ} {a : α} (ha : q[i]? = some a) :
    f.regfile ((f.rptr d + i) % 2 ^ d) = a := by
  obtain ⟨R, e, hf, he⟩ := h
  have hi : i < q.length := (List.getElem?_eq_some_iff.1 ha).1
  rw [hf.rptr_eq, Nat.mod_add_mod, hf.regfile_eq (R + i) (by omega) (by omega), he i a ha]

/-- `wptr` is the slot behind the last word of the queue. -/
theorem Holds.wptr_eq (h : f.Holds d q) : f.wptr d = (f.rptr d + q.length) % 2 ^ d := by
  obtain ⟨R, e, hf, -⟩ := h
  rw [hf.wptr_eq, hf.rptr_eq, Nat.mod_add_mod]

/-- A pushed word goes into the slot that `wptr` addresses. -/
theorem next_regfile_wptr (f : Fifo α) {x : FifoIn α} (hp : x.push = true) :
    (f.next d x).regfile (f.wptr d) = x.din := by
  simp [next, hp]

/-! ### One cycle -/

/-- The queue after a cycle. -/
def queueNext (q : List α) (x : FifoIn α) : List α :=
  if x.flush then [] else (if x.pop then q.tail else q) ++ (if x.push then [x.din] else [])

theorem holds_push {R : ℕ} {e : ℕ → α} (hf : f.Rep d R (R + q.length) e) (din : α) :
    f.Rep d R (R + q.length) (Function.update e (R + q.length) din) := by
  refine hf.congr fun k _ hk => ?_
  rw [Function.update_of_ne hk.ne]

/-- The stream that was told of the pushed word runs on over it. -/
theorem stream_push {R : ℕ} {e : ℕ → α} (he : ∀ i a, q[i]? = some a → e (R + i) = a) (x : FifoIn α)
    (i : ℕ) (a : α) (ha : (q ++ (if x.push then [x.din] else []))[i]? = some a) :
    Function.update e (R + q.length) x.din (R + i) = a := by
  rcases lt_trichotomy i q.length with hi | rfl | hi
  · rw [List.getElem?_append_left hi] at ha
    rw [Function.update_of_ne (by omega), he i a ha]
  · rw [List.getElem?_append_right le_rfl, Nat.sub_self] at ha
    rw [Function.update_self]
    cases hp : x.push with
    | false => simp [hp] at ha
    | true => simpa [hp] using ha
  · rw [List.getElem?_append_right hi.le] at ha
    obtain ⟨j, hj⟩ : ∃ j, i - q.length = j + 1 := ⟨i - q.length - 1, by omega⟩
    rw [hj] at ha
    cases hp : x.push <;> simp [hp] at ha

/-- **One cycle of the FIFO is one step of the queue.** -/
theorem holds_next (h : f.Holds d q) {zero : α} {x : FifoIn α} (hx : (machine d zero).allowed f x) :
    (f.next d x).Holds d (queueNext q x) := by
  have hready := h.ready_iff
  have hvalid := h.valid_iff
  obtain ⟨R, e, hf, he⟩ := h
  cases hfl : x.flush with
  | true =>
      rw [queueNext, if_pos hfl]
      exact holds_nil (Rep.next_flush x hfl f e)
  | false =>
      obtain ⟨hpush, hpop⟩ := hx.resolve_left (by simp [hfl])
      -- the stream is told which word is pushed now
      have hrep := (holds_push hf x.din).next hfl
        (fun hp => ⟨by have := hready.1 (hpush hp); omega, by simp⟩)
        (fun hp => by have := List.length_pos_iff.2 (hvalid.1 (hpop hp)); omega)
      have hstream := stream_push he x
      rw [queueNext, if_neg (by simp [hfl])]
      cases hp : x.pop with
      | false =>
          simp only [hp, Bool.false_eq_true, if_false] at hrep ⊢
          refine ⟨R, _, ?_, hstream⟩
          cases hq : x.push <;> simpa [hq, Nat.add_assoc] using hrep
      | true =>
          have hne : q ≠ [] := hvalid.1 (hpop hp)
          simp only [hp, if_true] at hrep ⊢
          obtain ⟨b, t, rfl⟩ := List.exists_cons_of_ne_nil hne
          refine ⟨R + 1, Function.update e (R + (b :: t).length) x.din, ?_, fun i a ha => ?_⟩
          · cases hq : x.push <;>
              simpa [hq, Nat.add_assoc, Nat.add_comm 1 _] using hrep
          · rw [Nat.add_assoc, Nat.add_comm 1 i]
            exact hstream (i + 1) a (by simpa using ha)

/-! ### Every run -/

/-- What was accepted is what was popped followed by the queue. -/
theorem holds_of_reach {zero : α} {s : Fifo α × Traffic α} (h : (watched d zero).Reach s) :
    ∃ q, s.2.accepted = s.2.popped ++ q ∧ s.1.Holds d q := by
  induction h with
  | reset => exact ⟨[], rfl, holds_nil (rep_reset zero fun _ => zero)⟩
  | @tick s x _ hx ih =>
      obtain ⟨q, hacc, hq⟩ := ih
      refine ⟨queueNext q x, ?_, holds_next hq hx.1⟩
      show (traffic s.2 s.1 x).accepted = (traffic s.2 s.1 x).popped ++ _
      cases hfl : x.flush with
      | true => simp [traffic, queueNext, hfl]
      | false =>
          cases hp : x.pop with
          | false => simp [traffic, queueNext, hfl, hp, hacc]
          | true =>
              -- the word that leaves is the front of the queue
              have hpop := (hx.1.resolve_left (by simp [hfl])).2 hp
              obtain ⟨b, t, rfl⟩ := List.exists_cons_of_ne_nil (hq.valid_iff.1 hpop)
              have hb : s.1.dout = b := hq.dout_eq rfl
              simp [traffic, queueNext, hfl, hp, hacc, hb]

/-- **The FIFO is a bounded queue.**  At every time of every run of pushes while it is ready, pops
while it is valid and flushes, for every depth: the accepted words are the popped ones followed by a
queue of at most `2 ^ d` words; `valid` says that the queue is not empty and `ready` that there is
room; `dout` is its front; and it lies in the register file from `rptr` on, up to `wptr`, the slot
into which the next push goes. -/
theorem queue_refined {zero : α} {s : Fifo α × Traffic α} (h : (watched d zero).Reach s) :
    ∃ q, s.2.accepted = s.2.popped ++ q ∧ q.length ≤ 2 ^ d ∧
      (s.1.valid = true ↔ q ≠ []) ∧ (s.1.ready d = true ↔ q.length < 2 ^ d) ∧
      (∀ a, q.head? = some a → s.1.dout = a ∧ s.1.regfile (s.1.rptr d) = a) ∧
      (∀ i a, q[i]? = some a → s.1.regfile ((s.1.rptr d + i) % 2 ^ d) = a) ∧
      s.1.wptr d = (s.1.rptr d + q.length) % 2 ^ d ∧
      ∀ x : FifoIn α, x.push = true → (s.1.next d x).regfile (s.1.wptr d) = x.din := by
  obtain ⟨q, hacc, hq⟩ := holds_of_reach h
  refine ⟨q, hacc, hq.length_le, hq.valid_iff, hq.ready_iff, fun a ha => ⟨hq.dout_eq ha, ?_⟩,
    fun i a ha => hq.regfile_eq ha, hq.wptr_eq, fun x hp => next_regfile_wptr s.1 hp⟩
  have h₀ := hq.regfile_eq (i := 0) (by rwa [← List.head?_eq_getElem?])
  rwa [Nat.add_zero, rptr, Nat.mod_mod] at h₀

/-- Two words fill a FIFO with one address bit; the third cycle pops the first of them. -/
theorem queue_refined_full :
    ∃ (s : Fifo ℕ × Traffic ℕ) (q : List ℕ), (watched 1 0).Reach s ∧ s.2.popped = [7] ∧
      s.2.accepted = s.2.popped ++ q ∧ (s.1.ready 1 = true ↔ q.length < 2 ^ 1) := by
  have h₁ := Machine.Reach.tick (M := watched 1 0) (x := ⟨false, true, 7, false⟩)
    Machine.Reach.reset (by simp [watched, machine, Machine.observe, ready, Fifo.reset])
  have h₂ := Machine.Reach.tick (x := ⟨false, true, 9, false⟩) h₁
    ⟨Or.inr ⟨fun _ => rfl, by simp⟩, trivial⟩
  have h₃ := Machine.Reach.tick (x := ⟨false, false, 0, true⟩) h₂
    ⟨Or.inr ⟨by simp, fun _ => rfl⟩, trivial⟩
  obtain ⟨q, hacc, -, -, hready, -⟩ := queue_refined h₃
  exact ⟨_, q, h₃, rfl, hacc, hready⟩

end Fifo

end NanoCpu
