/-
**The receive path of the emulator's serial port** (`em/csrc/peripheral/pb-uart.cc`).

A byte that was taken from the host is held in `RBR`, and `dat_ready` says so.  The device asks the
host for the next one at the end of every access and at every tick, unless an interrupt is pending;
whether the last one was read it does not test.  A read of `RBR` clears `dat_ready` only where it
accepts the interrupt for received data, and the read that accepts the other interrupt clears it as
well.

Main definitions:

* `unread`, `Delivered` — the byte that is held, and a receive path on which none is lost;
* `UartState.Exact` — nothing is lost, `LSR` shows whether a byte is held, and the interrupt line
  follows `IIR`;
* `UartState.InTime` — the polls and the reads that keep this.

Main results:

* `UartState.inv_run` — the invariant of the device, the interrupt line among it;
* `UartState.sound_after_iff` — one call;
* `UartState.receive_exact_iff` — **when the receive path is exact along a run**.
-/

import NanoCpu.EmUart

set_option relaxedAutoImplicit false
set_option autoImplicit false

namespace NanoCpu

/-! ### The receive path -/

/-- The byte that was taken last, if it was not read since. -/
def unread : List UartObs → Option Byte
  | .took b :: _ => some b
  | _ => none

/-- Every byte is read before the next one is taken, and the read returns it. -/
def Delivered : List UartObs → Prop
  | [] => True
  | .took _ :: l => unread l = none ∧ Delivered l
  | .rbr v :: l => (∀ b, unread l = some b → v = b) ∧ Delivered l

namespace UartState

/-- **The receive path is exact.**  Bit 0 of `LSR` is the one that a read of it returns; where there
is no processor there is no interrupt line. -/
structure Exact (e : UartEnv) (s : UartState) : Prop where
  delivered : Delivered s.log
  dataReady : s.dev.lsr.getLsbD 0 = (unread s.log).isSome
  line : e.inDifftest = false → (s.irr.getLsbD e.irq = true ↔ s.dev.iir.getLsbD 0 = false)

/-- If the device polls while it holds a byte, there is none to take. -/
def PollFree (e : UartEnv) (s : UartState) : Prop :=
  s.dev.pending = false → s.dev.datReady ≠ 0 → e.rx s.polls = none

/-- The calls that keep the receive path exact.  A write of the transmit register polls twice if
neither interrupt is enabled.  A read of `RBR` with a byte held is accepted as the interrupt for
received data, or the next byte comes at its own poll; `IIR` is not read with the other interrupt
pending and a byte held. -/
def InTime (e : UartEnv) (s : UartState) : UartEvent → Prop
  | .step => s.PollFree e
  | .read addr =>
      if uartAddr addr = 0 ∧ s.dev.dlab = false then
        s.dev.datReady ≠ 0 → s.dev.pending = true ∧ s.dev.iirSel = 2 ∨
          s.dev.pending = false ∧ (e.rx s.polls).isSome = true
      else if uartAddr addr = 2 ∧ s.dev.dlab = false ∧ s.dev.pending = true ∧ s.dev.iirSel = 1 then
        s.dev.datReady = 0
      else s.PollFree e
  | .write addr _ =>
      if uartAddr addr = 0 ∧ s.dev.dlab = false then
        (s.dev.pending = true → s.dev.iirSel = 1) →
          (s.dev.datReady ≠ 0 → e.rx s.polls = none) ∧
          (s.dev.ier &&& 0x3 = 0 → s.dev.datReady ≠ 0 ∨ (e.rx s.polls).isSome = true →
            e.rx (s.polls + 1) = none)
      else s.PollFree e

/-! ### The invariant -/

/-- What holds of the device in every run. -/
structure Inv (e : UartEnv) (s : UartState) : Prop where
  txFull : s.dev.txFull = 0
  datReady : s.dev.datReady = 0 ∨ s.dev.datReady = 1
  iir : s.dev.iir = 1 ∨ s.dev.iir = 2 ∨ s.dev.iir = 3 ∨ s.dev.iir = 4 ∨ s.dev.iir = 5
  ready : s.dev.iir = 4 → s.dev.datReady = 1
  rbr : ∀ b, unread s.log = some b → s.dev.rbr = b
  line : e.inDifftest = false → s.irr.getLsbD e.irq = s.dev.pending

theorem inv_init (e : UartEnv) : Inv e init where
  txFull := rfl
  datReady := Or.inl rfl
  iir := Or.inl rfl
  ready := by decide
  rbr := by simp [init, unread]
  line := by simp [init, DevicePbUart.pending, DevicePbUart.reset]

theorem irqcSetInterrupt_getLsbD (c : Fin 32) (r : Bool) (irr : Word) :
    (irqcSetInterrupt c r irr).getLsbD c = r := by
  have hc : (c : ℕ) < 32 := c.isLt
  cases r <;> simp [irqcSetInterrupt, hc]

variable {e : UartEnv} {s : UartState}

/-- A change of `IIR` together with the line. -/
theorem Inv.setInterrupt {r : Bool} (ht : s.dev.txFull = 0)
    (hd : s.dev.datReady = 0 ∨ s.dev.datReady = 1)
    (hi : s.dev.iir = 1 ∨ s.dev.iir = 2 ∨ s.dev.iir = 3 ∨ s.dev.iir = 4 ∨ s.dev.iir = 5)
    (hr : s.dev.iir = 4 → s.dev.datReady = 1) (hb : ∀ b, unread s.log = some b → s.dev.rbr = b)
    (hp : s.dev.pending = r) : (s.setInterrupt e r).Inv e := by
  unfold UartState.setInterrupt
  cases he : e.inDifftest with
  | true => exact ⟨ht, hd, hi, hr, hb, by simp [he]⟩
  | false => exact ⟨ht, hd, hi, hr, hb, fun _ => (irqcSetInterrupt_getLsbD _ _ _).trans hp.symm⟩

theorem Inv.poll (h : s.Inv e) : (s.poll e).Inv e := by
  obtain ⟨h₁, h₂, h₃, h₄, h₅, h₆⟩ := h
  unfold UartState.poll
  cases e.rx s.polls with
  | none => exact ⟨h₁, h₂, h₃, h₄, h₅, h₆⟩
  | some b => exact ⟨h₁, Or.inr rfl, h₃, fun _ => rfl, by simp [unread], h₆⟩

theorem Inv.raise (h : s.Inv e) : (s.raise e).Inv e := by
  obtain ⟨h₁, h₂, h₃, h₄, h₅, h₆⟩ := h
  unfold UartState.raise
  split
  · rename_i hr
    refine Inv.setInterrupt h₁ h₂ (by simp) (fun _ => h₂.resolve_left hr.1) h₅
      (by simp [DevicePbUart.pending])
  · split
    · exact Inv.setInterrupt h₁ h₂ (by simp) (by simp) h₅ (by simp [DevicePbUart.pending])
    · exact ⟨h₁, h₂, h₃, h₄, h₅, h₆⟩

theorem Inv.step (h : s.Inv e) : (s.step e).Inv e := by
  unfold UartState.step
  split
  · exact h
  · exact h.poll.raise

theorem Inv.acceptWrite (h : s.Inv e) (addr : Word) : (s.acceptWrite e addr).Inv e := by
  obtain ⟨h₁, h₂, h₃, h₄, h₅, h₆⟩ := h
  unfold UartState.acceptWrite
  split
  · refine Inv.setInterrupt h₁ h₂ ?_ ?_ h₅ ?_
    · rcases h₃ with h | h | h | h | h <;> simp [h]
    · rcases h₃ with h | h | h | h | h <;> simp [h]
    · rcases h₃ with h | h | h | h | h <;> simp [h, DevicePbUart.pending]
  · exact ⟨h₁, h₂, h₃, h₄, h₅, h₆⟩

theorem Inv.acceptRead (h : s.Inv e) (addr : Word) : (s.acceptRead e addr).Inv e := by
  obtain ⟨h₁, h₂, h₃, h₄, h₅, h₆⟩ := h
  unfold UartState.acceptRead
  split
  · refine Inv.setInterrupt h₁ (Or.inl rfl) ?_ ?_ h₅ ?_
    · rcases h₃ with h | h | h | h | h <;> simp [h]
    · rcases h₃ with h | h | h | h | h <;> simp [h]
    · rcases h₃ with h | h | h | h | h <;> simp [h, DevicePbUart.pending]
  · exact ⟨h₁, h₂, h₃, h₄, h₅, h₆⟩

theorem Inv.note (h : s.Inv e) (addr : Word) : (s.note addr).Inv e := by
  obtain ⟨h₁, h₂, h₃, h₄, h₅, h₆⟩ := h
  unfold UartState.note
  split
  · exact ⟨h₁, h₂, h₃, h₄, by simp [unread], h₆⟩
  · exact ⟨h₁, h₂, h₃, h₄, h₅, h₆⟩

theorem Inv.writeReg (h : s.Inv e) (addr : Word) (val : Byte) : (s.writeReg e addr val).Inv e := by
  obtain ⟨h₁, h₂, h₃, h₄, h₅, h₆⟩ := h
  unfold UartState.writeReg
  split
  · split
    · exact ⟨h₁, h₂, h₃, h₄, h₅, h₆⟩
    · exact Inv.step ⟨h₁, h₂, h₃, h₄, h₅, h₆⟩
  · split
    · split <;> exact ⟨h₁, h₂, h₃, h₄, h₅, h₆⟩
    · split <;> exact ⟨h₁, h₂, h₃, h₄, h₅, h₆⟩

theorem Inv.after (h : s.Inv e) (ev : UartEvent) : (s.after e ev).Inv e := by
  cases ev with
  | read addr => exact ((h.note _).acceptRead _).step
  | write addr val => exact ((h.acceptWrite _).writeReg _ _).step
  | step => exact h.step

/-- **The invariant of the device.** -/
theorem inv_run (e : UartEnv) (evs : List UartEvent) : (run e evs).Inv e := by
  induction evs using List.reverseRecOn with
  | nil => exact inv_init e
  | append_singleton evs ev ih => exact run_concat e evs ev ▸ ih.after ev

/-! ### One call -/

/-- The receive path and `dat_ready`. -/
structure Sound (s : UartState) : Prop where
  delivered : Delivered s.log
  ready : s.dev.datReady ≠ 0 ↔ (unread s.log).isSome = true

theorem lsr_getLsbD (d : DevicePbUart) : d.lsr.getLsbD 0 = d.datReady.getLsbD 0 := by
  simp only [DevicePbUart.lsr, BitVec.getLsbD_setWidth, BitVec.getLsbD_or, BitVec.getLsbD_shiftLeft]
  simp

theorem Inv.exact_iff_sound (h : s.Inv e) : s.Exact e ↔ s.Sound := by
  have hb : s.dev.lsr.getLsbD 0 = decide (s.dev.datReady ≠ 0) := by
    rw [lsr_getLsbD]
    rcases h.datReady with hd | hd <;> simp [hd]
  constructor
  · rintro ⟨hd, hr, -⟩
    exact ⟨hd, by rw [← hr, hb, decide_eq_true_iff]⟩
  · rintro ⟨hd, hr⟩
    refine ⟨hd, by rw [hb, Bool.eq_iff_iff, decide_eq_true_iff, hr], fun hdt => ?_⟩
    rw [h.line hdt, DevicePbUart.pending]
    rcases h.iir with hi | hi | hi | hi | hi <;> simp [hi]

theorem log_setInterrupt (r : Bool) : (s.setInterrupt e r).log = s.log := by
  unfold setInterrupt
  split <;> rfl

theorem dev_setInterrupt (r : Bool) : (s.setInterrupt e r).dev = s.dev := by
  unfold setInterrupt
  split <;> rfl

theorem polls_setInterrupt (r : Bool) : (s.setInterrupt e r).polls = s.polls := by
  unfold setInterrupt
  split <;> rfl

theorem sound_setInterrupt_iff (r : Bool) : (s.setInterrupt e r).Sound ↔ s.Sound := by
  constructor
  · rintro ⟨h₁, h₂⟩
    rw [log_setInterrupt] at h₁ h₂
    rw [dev_setInterrupt] at h₂
    exact ⟨h₁, h₂⟩
  · rintro ⟨h₁, h₂⟩
    exact ⟨by rwa [log_setInterrupt], by rwa [log_setInterrupt, dev_setInterrupt]⟩

theorem sound_raise_iff : (s.raise e).Sound ↔ s.Sound := by
  unfold raise
  split
  · rw [sound_setInterrupt_iff]
    exact ⟨fun ⟨h₁, h₂⟩ => ⟨h₁, h₂⟩, fun ⟨h₁, h₂⟩ => ⟨h₁, h₂⟩⟩
  · split
    · rw [sound_setInterrupt_iff]
      exact ⟨fun ⟨h₁, h₂⟩ => ⟨h₁, h₂⟩, fun ⟨h₁, h₂⟩ => ⟨h₁, h₂⟩⟩
    · exact Iff.rfl

theorem sound_step_of_pending (hp : s.dev.pending = true) : (s.step e).Sound ↔ s.Sound := by
  rw [step, if_pos hp]

theorem sound_step_of_none (hrx : e.rx s.polls = none) : (s.step e).Sound ↔ s.Sound := by
  unfold step
  split
  · exact Iff.rfl
  · rw [sound_raise_iff, poll, hrx]
    exact ⟨fun ⟨h₁, h₂⟩ => ⟨h₁, h₂⟩, fun ⟨h₁, h₂⟩ => ⟨h₁, h₂⟩⟩

theorem sound_step_of_some (hp : s.dev.pending = false) {b : Byte} (hrx : e.rx s.polls = some b)
    (hd : Delivered s.log) : (s.step e).Sound ↔ unread s.log = none := by
  rw [step, hp, if_neg (by simp), sound_raise_iff, poll, hrx]
  exact ⟨fun h => h.delivered.1, fun h => ⟨⟨h, hd⟩, by simp [unread]⟩⟩

/-- A step that polls with no byte held, or finds none. -/
theorem Sound.step_iff (h : s.Sound) : (s.step e).Sound ↔ s.PollFree e := by
  unfold PollFree
  cases hp : s.dev.pending with
  | true => simp [sound_step_of_pending hp, h]
  | false =>
      cases hrx : e.rx s.polls with
      | none => simp [sound_step_of_none hrx, h]
      | some b =>
          rw [sound_step_of_some hp hrx h.delivered]
          have hn : unread s.log = none ↔ ¬ s.dev.datReady ≠ 0 := by
            rw [h.ready, Bool.not_eq_true, Option.isSome_eq_false_iff, Option.isNone_iff_eq_none]
          simp [hn]

theorem log_raise : (s.raise e).log = s.log := by
  unfold raise
  split
  · rw [log_setInterrupt]
  · split
    · rw [log_setInterrupt]
    · rfl

theorem log_step_of_some (hp : s.dev.pending = false) {b : Byte} (hrx : e.rx s.polls = some b) :
    (s.step e).log = .took b :: s.log := by
  rw [step, hp, if_neg (by simp), log_raise, poll, hrx]

theorem delivered_of_step (h : Delivered (s.step e).log) : Delivered s.log := by
  unfold step at h
  split at h
  · exact h
  · rw [log_raise, poll] at h
    cases hrx : e.rx s.polls with
    | none => rwa [hrx] at h
    | some b =>
        rw [hrx] at h
        exact h.2

theorem acceptRead_rbr (hd : s.dev.dlab = false) : s.acceptRead e 0 =
    if s.dev.pending = true ∧ s.dev.iirSel = 2 then s.accepted e else s := by
  simp [acceptRead, hd]

theorem acceptRead_iir (hd : s.dev.dlab = false) : s.acceptRead e 2 =
    if s.dev.pending = true ∧ s.dev.iirSel = 1 then s.accepted e else s := by
  simp [acceptRead, hd]

theorem acceptRead_of_ne {addr : Word} (h0 : ¬ (addr = 0 ∧ s.dev.dlab = false))
    (h2 : ¬ (addr = 2 ∧ s.dev.dlab = false ∧ s.dev.pending = true ∧ s.dev.iirSel = 1)) :
    s.acceptRead e addr = s := by
  cases hd : s.dev.dlab with
  | true => simp [acceptRead, hd]
  | false =>
      simp only [hd, and_true] at h0
      simp only [hd, true_and] at h2
      rw [acceptRead, if_neg]
      intro h
      simp only [hd, Bool.and_eq_true, Bool.or_eq_true, decide_eq_true_eq] at h
      obtain ⟨hp, ⟨⟨-, h⟩, -⟩ | ⟨hs, h, -⟩⟩ := h
      · exact h0 h
      · exact h2 ⟨h, hp, hs⟩

/-- After an interrupt was accepted by a read, `dat_ready` is clear. -/
theorem accepted_spec (hi : s.Inv e) :
    (s.accepted e).log = s.log ∧ (s.accepted e).dev.datReady = 0 ∧
    (s.accepted e).dev.pending = false := by
  refine ⟨log_setInterrupt _, by rw [accepted, dev_setInterrupt], ?_⟩
  rw [accepted, dev_setInterrupt, DevicePbUart.pending]
  rcases hi.iir with h | h | h | h | h <;> simp [h]

/-- With `dat_ready` set and no byte held, only a poll that finds a byte mends it. -/
theorem sound_step_iff_of_read (hd : Delivered s.log) (hu : unread s.log = none)
    (hr : s.dev.datReady ≠ 0) :
    (s.step e).Sound ↔ s.dev.pending = false ∧ (e.rx s.polls).isSome = true := by
  have hns : ¬ s.Sound := fun h => absurd (h.ready.1 hr) (by simp [hu])
  cases hp : s.dev.pending with
  | true => simp [sound_step_of_pending hp, hns]
  | false =>
      cases hrx : e.rx s.polls with
      | none => simp [sound_step_of_none hrx, hns]
      | some b => simp [sound_step_of_some hp hrx hd, hu]

/-- A read of `RBR`: the byte is gone, so `dat_ready` must be cleared or there must be a next
one. -/
theorem sound_readm8_rbr_iff (hi : s.Inv e) (h : s.Sound) {addr : Word} (ha : uartAddr addr = 0)
    (hd : s.dev.dlab = false) : (s.readm8 e addr).2.Sound ↔ s.InTime e (.read addr) := by
  have hn : s.note 0 = { s with log := .rbr s.dev.rbr :: s.log } := by simp [note, hd]
  have hlog : Delivered (s.note 0).log := by rw [hn]; exact ⟨hi.rbr, h.delivered⟩
  have hu : unread (s.note 0).log = none := by rw [hn]; rfl
  have hdev : (s.note 0).dev = s.dev := by rw [hn]
  have hpolls : (s.note 0).polls = s.polls := by rw [hn]
  simp only [readm8, InTime, ha, hd, and_self, if_true]
  rw [acceptRead_rbr (by rw [hdev]; exact hd), hdev]
  by_cases hacc : s.dev.pending = true ∧ s.dev.iirSel = 2
  · obtain ⟨h₁, h₂, -⟩ := accepted_spec (hi.note 0)
    have hs : ((s.note 0).accepted e).Sound := ⟨h₁ ▸ hlog, by rw [h₁, h₂, hu]; simp⟩
    rw [if_pos hacc, hs.step_iff]
    exact ⟨fun _ _ => Or.inl hacc, fun _ _ hne => absurd h₂ hne⟩
  · rw [if_neg hacc]
    by_cases hr : s.dev.datReady = 0
    · have hs : (s.note 0).Sound := ⟨hlog, by rw [hdev, hu, hr]; simp⟩
      rw [hs.step_iff]
      exact ⟨fun _ hne => absurd hr hne, fun _ _ hne => absurd (by rw [hdev, hr]) hne⟩
    · rw [sound_step_iff_of_read hlog hu (by rwa [hdev]), hdev, hpolls]
      exact ⟨fun h _ => Or.inr h, fun h => (h hr).resolve_left hacc⟩

theorem Sound.unread_eq_none_iff (h : s.Sound) : unread s.log = none ↔ s.dev.datReady = 0 := by
  rw [← not_iff_not, ← ne_eq s.dev.datReady, h.ready, ← Option.isNone_iff_eq_none,
    ← Option.isSome_eq_false_iff, Bool.not_eq_false]

/-- A read of `IIR` that accepts the interrupt for the transmit register: `dat_ready` is cleared
with it. -/
theorem sound_readm8_iir_iff (hi : s.Inv e) (h : s.Sound) {addr : Word} (ha : uartAddr addr = 2)
    (hd : s.dev.dlab = false) (hacc : s.dev.pending = true ∧ s.dev.iirSel = 1) :
    (s.readm8 e addr).2.Sound ↔ s.dev.datReady = 0 := by
  have hn : s.note 2 = s := by simp [note]
  obtain ⟨h₁, h₂, h₃⟩ := accepted_spec hi
  rw [readm8, ha, hn, acceptRead_iir hd, if_pos hacc, ← h.unread_eq_none_iff]
  have hs : (s.accepted e).Sound ↔ unread s.log = none := by
    constructor
    · intro hs
      rw [← h₁, hs.unread_eq_none_iff, h₂]
    · intro hu
      exact ⟨h₁ ▸ h.delivered, by rw [h₁, h₂, hu]; simp⟩
  cases hrx : e.rx (s.accepted e).polls with
  | none => rw [sound_step_of_none hrx, hs]
  | some b => rw [sound_step_of_some h₃ hrx (h₁ ▸ h.delivered), h₁]

/-! ### Two polls in one write -/

theorem polls_step (hp : s.dev.pending = false) : (s.step e).polls = s.polls + 1 := by
  have hr : ∀ t : UartState, (t.raise e).polls = t.polls := by
    intro t
    unfold raise
    split
    · rw [polls_setInterrupt]
    · split
      · rw [polls_setInterrupt]
      · rfl
  rw [step, hp, if_neg (by simp), hr, poll]
  cases e.rx s.polls <;> rfl

theorem datReady_step (hp : s.dev.pending = false) :
    (s.step e).dev.datReady ≠ 0 ↔ s.dev.datReady ≠ 0 ∨ (e.rx s.polls).isSome = true := by
  have hr : ∀ t : UartState, (t.raise e).dev.datReady = t.dev.datReady := by
    intro t
    unfold raise
    split
    · rw [dev_setInterrupt]
    · split
      · rw [dev_setInterrupt]
      · rfl
  rw [step, hp, if_neg (by simp), hr, poll]
  cases e.rx s.polls <;> simp

theorem ier_bits (ier : Byte) : ier &&& 0x3 = 0 ↔ ier &&& 0x1 = 0 ∧ ier &&& 0x2 = 0 := by
  revert ier
  decide

/-- With a byte held after it and the transmit register written, a step leaves no interrupt pending
only if none is enabled. -/
theorem pending_step (hp : s.dev.pending = false) (ht : s.dev.txFull = 0)
    (hw : s.dev.rbrWritten ≠ 0) (hr : (s.step e).dev.datReady ≠ 0) :
    (s.step e).dev.pending = false ↔ s.dev.ier &&& 0x3 = 0 := by
  have hpoll : (s.poll e).dev.txFull = s.dev.txFull ∧ (s.poll e).dev.rbrWritten = s.dev.rbrWritten ∧
      (s.poll e).dev.ier = s.dev.ier ∧ (s.poll e).dev.pending = s.dev.pending ∧
      ((s.poll e).dev.datReady ≠ 0 ↔ (s.step e).dev.datReady ≠ 0) := by
    rw [datReady_step hp, poll]
    cases e.rx s.polls <;> simp [DevicePbUart.pending]
  obtain ⟨h₁, h₂, h₃, h₄, h₅⟩ := hpoll
  rw [ier_bits, step, hp, if_neg (by simp), raise, h₁, h₂, h₃]
  by_cases hb₀ : s.dev.ier &&& 0x1 = 0
  · by_cases hb₁ : s.dev.ier &&& 0x2 = 0
    · rw [if_neg fun h => h.2 hb₀, if_neg fun h => h.2.2 hb₁, h₄]
      exact ⟨fun _ => ⟨hb₀, hb₁⟩, fun _ => hp⟩
    · rw [if_neg fun h => h.2 hb₀, if_pos ⟨ht, hw, hb₁⟩, dev_setInterrupt]
      exact ⟨fun h => absurd h (by simp [DevicePbUart.pending]), fun h => absurd h.2 hb₁⟩
  · rw [if_pos ⟨h₅.2 hr, hb₀⟩, dev_setInterrupt]
    exact ⟨fun h => absurd h (by simp [DevicePbUart.pending]), fun h => absurd h.1 hb₀⟩

/-- Two steps one after the other. -/
theorem Sound.step_step_iff (h : s.Sound) (hp : s.dev.pending = false) (ht : s.dev.txFull = 0)
    (hw : s.dev.rbrWritten ≠ 0) : ((s.step e).step e).Sound ↔
      (s.dev.datReady ≠ 0 → e.rx s.polls = none) ∧
        (s.dev.ier &&& 0x3 = 0 → s.dev.datReady ≠ 0 ∨ (e.rx s.polls).isSome = true →
          e.rx (s.polls + 1) = none) := by
  have hsecond : (s.step e).PollFree e ↔ (s.dev.ier &&& 0x3 = 0 →
      s.dev.datReady ≠ 0 ∨ (e.rx s.polls).isSome = true → e.rx (s.polls + 1) = none) := by
    rw [PollFree, polls_step hp, ← datReady_step hp]
    constructor
    · exact fun hf hi hr => hf ((pending_step hp ht hw hr).2 hi) hr
    · exact fun hf hq hr => hf ((pending_step hp ht hw hr).1 hq) hr
  have hfirst : (s.step e).Sound ↔ (s.dev.datReady ≠ 0 → e.rx s.polls = none) := by
    rw [h.step_iff]
    exact ⟨fun hf => hf hp, fun hf _ => hf⟩
  constructor
  · intro h₂
    have h₁ : s.dev.datReady ≠ 0 → e.rx s.polls = none := by
      intro hr
      cases hrx : e.rx s.polls with
      | none => rfl
      | some b =>
          -- a byte taken on top of another is lost for good
          have hl : Delivered (.took b :: s.log) :=
            log_step_of_some hp hrx ▸ delivered_of_step h₂.delivered
          exact absurd (h.unread_eq_none_iff.1 hl.1) hr
    exact ⟨h₁, hsecond.1 ((hfirst.2 h₁).step_iff.1 h₂)⟩
  · rintro ⟨h₁, h₂⟩
    exact (hfirst.2 h₁).step_iff.2 (hsecond.2 h₂)

theorem acceptWrite_thr (hd : s.dev.dlab = false) : s.acceptWrite e 0 =
    if s.dev.pending = true ∧ s.dev.iirSel = 1 then
      setInterrupt e { s with dev := { s.dev with iir := s.dev.iir ||| 0x1 } } false
    else s := by
  simp [acceptWrite, hd]

theorem acceptWrite_of_ne {addr : Word} (h0 : ¬ (addr = 0 ∧ s.dev.dlab = false)) :
    s.acceptWrite e addr = s := by
  rw [acceptWrite, if_neg]
  intro h
  simp only [Bool.and_eq_true, decide_eq_true_eq, Bool.not_eq_true'] at h
  exact h0 h.2

/-- The transmit register is written with no interrupt pending. -/
theorem Sound.writeReg_thr_iff (h : s.Sound) (hp : s.dev.pending = false) (ht : s.dev.txFull = 0)
    (hd : s.dev.dlab = false) (val : Byte) : ((s.writeReg e 0 val).step e).Sound ↔
      (s.dev.datReady ≠ 0 → e.rx s.polls = none) ∧
        (s.dev.ier &&& 0x3 = 0 → s.dev.datReady ≠ 0 ∨ (e.rx s.polls).isSome = true →
          e.rx (s.polls + 1) = none) := by
  rw [writeReg, if_pos rfl, hd, if_neg (by simp)]
  exact Sound.step_step_iff ⟨h.delivered, h.ready⟩ hp ht (by simp)

/-- A write of the transmit register: two polls, unless the interrupt for received data is
pending. -/
theorem sound_writem8_thr_iff (hi : s.Inv e) (h : s.Sound) {addr : Word} {val : Byte}
    (ha : uartAddr addr = 0) (hd : s.dev.dlab = false) :
    (s.writem8 e addr val).Sound ↔ s.InTime e (.write addr val) := by
  simp only [InTime, ha, hd, and_self, if_true]
  rw [writem8, ha, acceptWrite_thr hd]
  by_cases hacc : s.dev.pending = true ∧ s.dev.iirSel = 1
  · -- the interrupt for the transmit register is accepted
    rw [if_pos hacc]
    generalize ht : setInterrupt e { s with dev := { s.dev with iir := s.dev.iir ||| 0x1 } } false =
      t
    have hlog : t.log = s.log := by rw [← ht, log_setInterrupt]
    have hpolls : t.polls = s.polls := by rw [← ht, polls_setInterrupt]
    have hdev : t.dev = { s.dev with iir := s.dev.iir ||| 0x1 } := by rw [← ht, dev_setInterrupt]
    have hp : t.dev.pending = false := by
      rw [hdev]
      rcases hi.iir with hc | hc | hc | hc | hc <;> simp [hc, DevicePbUart.pending]
    have hs : t.Sound := ⟨hlog ▸ h.delivered, by rw [hdev, hlog]; exact h.ready⟩
    rw [hs.writeReg_thr_iff hp (by rw [hdev]; exact hi.txFull) (by rw [hdev]; exact hd),
      hdev, hpolls]
    exact ⟨fun hx _ => hx, fun hx => hx fun _ => hacc.2⟩
  · rw [if_neg hacc]
    cases hp : s.dev.pending with
    | true =>
        have hsel : s.dev.iirSel ≠ 1 := fun hc => hacc ⟨hp, hc⟩
        have hu : ({ s with
            dev := { s.dev with rbrWritten := 1 }
            sent := if e.inDifftest then s.sent else s.sent ++ [val] } : UartState).Sound :=
          ⟨h.delivered, h.ready⟩
        rw [writeReg, if_pos rfl, hd, if_neg (by simp), sound_step_of_pending,
          sound_step_of_pending (by exact hp)]
        · exact ⟨fun _ hc => absurd (hc rfl) hsel, fun _ => hu⟩
        · rw [step, if_pos (by exact hp)]
          exact hp
    | false =>
        rw [h.writeReg_thr_iff hp hi.txFull hd]
        exact ⟨fun hx _ => hx, fun hx => hx (by simp)⟩

/-- Any other write changes nothing that the receive path depends on before the poll. -/
theorem writeReg_of_ne {addr : Word} (h0 : ¬ (addr = 0 ∧ s.dev.dlab = false)) (val : Byte) :
    ∃ d : DevicePbUart, s.writeReg e addr val = { s with dev := d } ∧ d.datReady = s.dev.datReady ∧
      d.iir = s.dev.iir := by
  unfold writeReg
  split
  · rename_i ha
    cases hd : s.dev.dlab with
    | false => exact absurd ⟨ha, hd⟩ h0
    | true => exact ⟨_, rfl, rfl, rfl⟩
  · split
    · split <;> exact ⟨_, rfl, rfl, rfl⟩
    · split
      · exact ⟨_, rfl, rfl, rfl⟩
      · exact ⟨s.dev, rfl, rfl, rfl⟩

/-! ### Any call -/

/-- **What one call does to the receive path.** -/
theorem sound_after_iff (hi : s.Inv e) (h : s.Sound) (ev : UartEvent) :
    (s.after e ev).Sound ↔ s.InTime e ev := by
  cases ev with
  | step => exact h.step_iff
  | read addr =>
      by_cases h0 : uartAddr addr = 0 ∧ s.dev.dlab = false
      · exact sound_readm8_rbr_iff hi h h0.1 h0.2
      · rw [InTime, if_neg h0]
        by_cases h2 : uartAddr addr = 2 ∧ s.dev.dlab = false ∧ s.dev.pending = true ∧
          s.dev.iirSel = 1
        · rw [if_pos h2]
          exact sound_readm8_iir_iff hi h h2.1 h2.2.1 h2.2.2
        · rw [if_neg h2, after, readm8, note, if_neg h0, acceptRead_of_ne h0 h2]
          exact h.step_iff
  | write addr val =>
      by_cases h0 : uartAddr addr = 0 ∧ s.dev.dlab = false
      · exact sound_writem8_thr_iff hi h h0.1 h0.2
      · rw [InTime, if_neg h0, after, writem8, acceptWrite_of_ne h0]
        obtain ⟨d, hw, hr, hiir⟩ := writeReg_of_ne (e := e) h0 val
        have hs : ({ s with dev := d } : UartState).Sound :=
          ⟨h.delivered, hr ▸ h.ready⟩
        rw [hw, hs.step_iff, PollFree, PollFree, DevicePbUart.pending, DevicePbUart.pending]
        simp only [hr, hiir]

/-! ### Runs -/

/-- **When the receive path is exact along a run**: if every call of it is in time. -/
theorem receive_exact_iff (e : UartEnv) (evs : List UartEvent) :
    (∀ k, (run e (evs.take k)).Exact e) ↔
      ∀ k ev, evs[k]? = some ev → (run e (evs.take k)).InTime e ev := by
  have hnext : ∀ k ev, evs[k]? = some ev →
      run e (evs.take (k + 1)) = (run e (evs.take k)).after e ev := by
    intro k ev hk
    rw [List.take_add_one, hk, ← run_concat]
    rfl
  constructor
  · intro h k ev hk
    rw [← sound_after_iff (inv_run e _) ((inv_run e _).exact_iff_sound.1 (h k)), ← hnext k ev hk]
    exact (inv_run e _).exact_iff_sound.1 (h (k + 1))
  · intro h k
    rw [(inv_run e _).exact_iff_sound]
    induction k with
    | zero => exact ⟨trivial, by simp [run, init, DevicePbUart.reset, unread]⟩
    | succ k ih =>
        cases hk : evs[k]? with
        | none => rwa [List.take_add_one, hk, Option.toList_none, List.append_nil]
        | some ev =>
            rw [hnext k ev hk]
            exact (sound_after_iff (inv_run e _) ih ev).2 (h k ev hk)

/-- After reset, with no interrupt enabled, bytes come at two ticks one after the other. -/
theorem byte_lost : ¬ ∀ e evs k, (run e (List.take k evs)).Exact e := by
  intro h
  have hd := (h ⟨false, 1, fun _ => some 0x41⟩ [.step, .step] 2).delivered
  exact absurd hd.1 (by decide)

end UartState

end NanoCpu
