/-
**The serial port of the emulator** (`em/csrc/peripheral/pb-uart.cc`).

The port has eight addresses; at two of them the divisor latch bit selects between two registers.
Both bytes of the divisor are kept in `DLR`, which is a variable of eight bits, and the latch bit is
kept as 0x80 and shifted once more when `LCR` is read.  So the upper byte of the divisor and the
latch bit read as zero, whatever was written.

The host's end of the line is an oracle: `rx n` is the answer of the call of `virt_uart_poll_read`
number `n`, none if no byte has come.

Main definitions:

* `DevicePbUart`, `UartState` — the members of the device; the device with the pending interrupts of
  the processor, what was sent, and what was taken and read on the receive path;
* `UartState.step`, `UartState.writem8`, `UartState.readm8` — the functions of the device;
* `UartEvent`, `UartState.run` — a sequence of accesses and of ticks of the device tree;
* `Written`, `ReadsBack` — the last value written to each register, and that reads return it.

Main results:

* `UartState.keeps_written` — what the device keeps of the values written;
* `readsBack_iff` — **when all reads return the last value written**.
-/

import NanoCpu.EmMemory

set_option relaxedAutoImplicit false
set_option autoImplicit false

namespace NanoCpu

/-! ### The device -/

/-- The members of the class that a function reads; all but `irq` are of eight bits. -/
structure DevicePbUart where
  rbr : Byte
  dlr : Byte
  ier : Byte
  lcrDlab : Byte
  iir : Byte
  rdy : Byte
  txFull : Byte
  doutOverun : Byte
  datReady : Byte
  rbrWritten : Byte

namespace DevicePbUart

/-- `reset`. -/
def reset : DevicePbUart where
  rbr := 0
  dlr := 0xa0
  ier := 0
  lcrDlab := 0
  iir := 0x1
  rdy := 1
  txFull := 0
  doutOverun := 0
  datReady := 0
  rbrWritten := 0

variable (d : DevicePbUart)

/-- `LCR_DLAB` as a condition. -/
def dlab : Bool := decide (d.lcrDlab ≠ 0)

/-- The test `(IIR & 0x1) == 0`: an interrupt of the device is pending. -/
def pending : Bool := decide (d.iir &&& 0x1 = 0)

/-- `IIR_sel`. -/
def iirSel : Byte := (d.iir >>> 1) &&& 0x3

/-- The value of `LSR`; the operands are promoted to `int`. -/
def lsr : Byte :=
  (d.rdy.setWidth 32 <<< 6 ||| (if d.txFull = 0 then (1 : Word) else 0) <<< 5 |||
    d.doutOverun.setWidth 32 <<< 1 ||| d.datReady.setWidth 32 : Word).setWidth 8

/-- The value that a read of the given address returns. -/
def value (addr : Word) : Byte :=
  if addr = 0 then if d.dlab then (d.dlr.setWidth 32 &&& 0xff : Word).setWidth 8 else d.rbr
  else if addr = 1 then
    if d.dlab then ((d.dlr.setWidth 32 >>> 8) &&& 0xff : Word).setWidth 8 else d.ier
  else if addr = 2 then d.iir
  else if addr = 3 then (d.lcrDlab.setWidth 32 <<< 7 ||| 0x3 : Word).setWidth 8
  else if addr = 4 then 0
  else if addr = 5 then d.lsr
  else if addr = 6 then 0x80
  else 0

end DevicePbUart

/-- `addr &= (pb_uart_mmio_size - 1)`. -/
def uartAddr (addr : Word) : Word := addr &&& (0x8 - 1)

/-- What happens at the two ends of the receive path: the device takes a byte from the host, and a
read of `RBR` returns a byte. -/
inductive UartObs
  | took (b : Byte)
  | rbr (v : Byte)
  deriving DecidableEq

/-- Where the device is: its interrupt, the host's answers, and whether the device tree has a
processor (the one of the memory that the simulated circuit uses has none). -/
structure UartEnv where
  inDifftest : Bool
  irq : Fin 32
  rx : ℕ → Option Byte

/-- The device, the `IRR` of the processor as the device drives it, the calls of
`virt_uart_poll_read` so far, the bytes that went to `virt_uart_putch`, and the receive path, newest
first. -/
structure UartState where
  dev : DevicePbUart
  irr : Word
  polls : ℕ
  sent : List Byte
  log : List UartObs

/-- `CPU::irqc_set_interrupt`. -/
def irqcSetInterrupt (channel : ℕ) (raise : Bool) (irr : Word) : Word :=
  if raise then irr ||| (1 : Word) <<< channel else irr &&& ~~~((1 : Word) <<< channel)

namespace UartState

/-- After `reset`, with no interrupt at the processor. -/
def init : UartState := ⟨DevicePbUart.reset, 0, 0, [], []⟩

variable (e : UartEnv) (s : UartState)

/-- `irqc_set_interrupt` where there is a processor. -/
def setInterrupt (raise : Bool) : UartState :=
  if e.inDifftest then s else { s with irr := irqcSetInterrupt e.irq raise s.irr }

/-- `virt_uart_poll_read((char *)&RBR)`, and `dat_ready = 1` if a byte has come. -/
def poll : UartState :=
  match e.rx s.polls with
  | some b =>
      { s with
        dev := { s.dev with rbr := b, datReady := 1 }, polls := s.polls + 1,
        log := .took b :: s.log }
  | none => { s with polls := s.polls + 1 }

/-- The interrupts of `step`, the one for received data first. -/
def raise : UartState :=
  if s.dev.datReady ≠ 0 ∧ s.dev.ier &&& 0x1 ≠ 0 then
    setInterrupt e { s with dev := { s.dev with iir := 0x4 } } true
  else if s.dev.txFull = 0 ∧ s.dev.rbrWritten ≠ 0 ∧ s.dev.ier &&& 0x2 ≠ 0 then
    setInterrupt e { s with dev := { s.dev with rbrWritten := 0, iir := 0x2 } } true
  else s

/-- `step`: nothing happens while an interrupt is pending. -/
def step : UartState := if s.dev.pending then s else (s.poll e).raise e

/-- The write of the transmit register accepts its interrupt. -/
def acceptWrite (addr : Word) : UartState :=
  if s.dev.pending && decide (s.dev.iirSel = 0x1) && (decide (addr = 0x0) && !s.dev.dlab) then
    setInterrupt e { s with dev := { s.dev with iir := s.dev.iir ||| 0x1 } } false
  else s

/-- The `switch` of `writem8`. -/
def writeReg (addr : Word) (val : Byte) : UartState :=
  if addr = 0 then
    if s.dev.dlab then
      { s with dev := { s.dev with
          dlr := (((s.dev.dlr.setWidth 32 >>> 8) &&& 0xff) <<< 8 ||| val.setWidth 32 :
            Word).setWidth 8 } }
    else
      step e { s with
        dev := { s.dev with rbrWritten := 1 }
        sent := if e.inDifftest then s.sent else s.sent ++ [val] }
  else if addr = 1 then
    if s.dev.dlab then
      { s with dev := { s.dev with
          dlr := ((s.dev.dlr.setWidth 32 &&& 0xff) ||| val.setWidth 32 <<< 8 : Word).setWidth 8 } }
    else { s with dev := { s.dev with ier := val &&& 0x0f } }
  else if addr = 3 then { s with dev := { s.dev with lcrDlab := val &&& 0x80 } }
  else s

/-- `writem8`. -/
def writem8 (addr : Word) (val : Byte) : UartState :=
  ((s.acceptWrite e (uartAddr addr)).writeReg e (uartAddr addr) val).step e

/-- A read of `RBR` is noted. -/
def note (addr : Word) : UartState :=
  if addr = 0 ∧ s.dev.dlab = false then { s with log := .rbr s.dev.rbr :: s.log } else s

/-- A read accepts the interrupt, whichever it is. -/
def accepted : UartState :=
  setInterrupt e { s with dev := { s.dev with datReady := 0, iir := s.dev.iir ||| 0x1 } } false

/-- The reads that accept an interrupt: of `RBR` the one for received data, of `IIR` the other. -/
def acceptRead (addr : Word) : UartState :=
  if s.dev.pending && (decide (s.dev.iirSel = 0x2) && decide (addr = 0x0) && !s.dev.dlab ||
      decide (s.dev.iirSel = 0x1) && (decide (addr = 0x2) && !s.dev.dlab)) then s.accepted e
  else s

/-- `readm8`. -/
def readm8 (addr : Word) : Byte × UartState :=
  (s.dev.value (uartAddr addr), ((s.note (uartAddr addr)).acceptRead e (uartAddr addr)).step e)

end UartState

/-! ### Runs -/

/-- The calls that the rest of the emulator makes: an access of the processor, and
`DeviceTree::step`. -/
inductive UartEvent
  | read (addr : Word)
  | write (addr : Word) (val : Byte)
  | step

namespace UartState

/-- The state after a call. -/
def after (e : UartEnv) (s : UartState) : UartEvent → UartState
  | .read addr => (s.readm8 e addr).2
  | .write addr val => s.writem8 e addr val
  | .step => s.step e

/-- The state after a sequence of calls. -/
def run (e : UartEnv) (evs : List UartEvent) : UartState := evs.foldl (after e) init

@[simp] theorem run_nil (e : UartEnv) : run e [] = init := rfl

@[simp] theorem run_concat (e : UartEnv) (evs : List UartEvent) (ev : UartEvent) :
    run e (evs ++ [ev]) = (run e evs).after e ev := by
  rw [run, run, List.foldl_append]
  rfl

/-! ### Read-back -/

/-- The registers that `step` and the interrupts leave alone. -/
def regs (s : UartState) : Byte × Byte × Byte := (s.dev.dlr, s.dev.ier, s.dev.lcrDlab)

variable (e : UartEnv) (s : UartState)

@[simp] theorem regs_setInterrupt (r : Bool) : (s.setInterrupt e r).regs = s.regs := by
  unfold setInterrupt
  split <;> rfl

@[simp] theorem regs_poll : (s.poll e).regs = s.regs := by
  unfold poll
  split <;> rfl

@[simp] theorem regs_raise : (s.raise e).regs = s.regs := by
  unfold raise
  split
  · exact regs_setInterrupt e _ _
  · split
    · exact regs_setInterrupt e _ _
    · rfl

@[simp] theorem regs_step : (s.step e).regs = s.regs := by
  unfold step
  split
  · rfl
  · rw [regs_raise, regs_poll]

@[simp] theorem regs_acceptWrite (addr : Word) : (s.acceptWrite e addr).regs = s.regs := by
  unfold acceptWrite
  split
  · exact regs_setInterrupt e _ _
  · rfl

@[simp] theorem regs_acceptRead (addr : Word) : (s.acceptRead e addr).regs = s.regs := by
  unfold acceptRead
  split
  · exact regs_setInterrupt e _ _
  · rfl

@[simp] theorem regs_readm8 (addr : Word) : (s.readm8 e addr).2.regs = s.regs := by
  rw [readm8, regs_step, regs_acceptRead, note]
  split <;> rfl

end UartState

/-- The last value written to each register, none if there was no write. -/
structure Written where
  dll : Option Byte
  dlm : Option Byte
  ier : Option Byte
  dlab : Option Bool

namespace Written

def init : Written := ⟨none, none, none, none⟩

/-- A write goes to the register that the latch bit selects. -/
def after (w : Written) : UartEvent → Written
  | .write addr val =>
      if uartAddr addr = 0 then if w.dlab = some true then { w with dll := some val } else w
      else if uartAddr addr = 1 then
        if w.dlab = some true then { w with dlm := some val } else { w with ier := some val }
      else if uartAddr addr = 3 then { w with dlab := some (val.getLsbD 7) }
      else w
  | _ => w

def run (evs : List UartEvent) : Written := evs.foldl after init

@[simp] theorem run_concat (evs : List UartEvent) (ev : UartEvent) :
    run (evs ++ [ev]) = (run evs).after ev := by
  rw [run, run, List.foldl_append]
  rfl

/-- The value returned at an address is the one last written to the register there. -/
structure Agrees (w : Written) (addr : Word) (ret : Byte) : Prop where
  dll : addr = 0 → w.dlab = some true → ∀ v, w.dll = some v → ret = v
  dlm : addr = 1 → w.dlab = some true → ∀ v, w.dlm = some v → ret = v
  ier : addr = 1 → w.dlab ≠ some true → ∀ v, w.ier = some v → ret &&& 0x0f = v &&& 0x0f
  dlab : addr = 3 → ∀ b, w.dlab = some b → ret.getLsbD 7 = b

/-- The registers of the device hold the values written, but for the upper byte of the divisor. -/
structure Kept (w : Written) (d : DevicePbUart) : Prop where
  dll : ∀ v, w.dll = some v → d.dlr = v
  ier : ∀ v, w.ier = some v → d.ier = v &&& 0x0f
  lcrDlab : d.lcrDlab = if w.dlab = some true then 0x80 else 0

end Written

/-- **Every read in a sequence of calls returns the last value written to its register.** -/
def ReadsBack (e : UartEnv) (evs : List UartEvent) : Prop :=
  ∀ pre addr post, evs = pre ++ .read addr :: post →
    (Written.run pre).Agrees (uartAddr addr) ((UartState.run e pre).readm8 e addr).1

/-! ### What the registers keep -/

/-- The lower byte of the divisor is what is written: there is nothing above it in `DLR`. -/
theorem dlr_write_low (dlr val : Byte) :
    (((dlr.setWidth 32 >>> 8) &&& 0xff) <<< 8 ||| val.setWidth 32 : Word).setWidth 8 = val := by
  ext i hi
  simp

/-- The upper byte of the divisor is lost when it is written. -/
theorem dlr_write_high (dlr val : Byte) :
    ((dlr.setWidth 32 &&& 0xff) ||| val.setWidth 32 <<< 8 : Word).setWidth 8 = dlr := by
  have hones : ∀ i : Fin 8, (255#8)[i] = true := by decide
  ext i hi
  simpa [hi] using fun _ => hones ⟨i, hi⟩

theorem dlr_read_low (dlr : Byte) : (dlr.setWidth 32 &&& 0xff : Word).setWidth 8 = dlr := by
  have hones : ∀ i : Fin 8, (255#8)[i] = true := by decide
  ext i hi
  simpa using fun _ => hones ⟨i, hi⟩

theorem dlr_read_high (dlr : Byte) : ((dlr.setWidth 32 >>> 8) &&& 0xff : Word).setWidth 8 = 0 := by
  ext i hi
  simp

theorem lcrDlab_eq (val : Byte) : val &&& 0x80 = if val.getLsbD 7 = true then 0x80 else 0 := by
  revert val
  decide

namespace UartState

variable (e : UartEnv) (s : UartState)

/-- What a write does to the registers. -/
theorem regs_writem8 (addr : Word) (val : Byte) : (s.writem8 e addr val).regs =
    if uartAddr addr = 0 then if s.dev.dlab then (val, s.dev.ier, s.dev.lcrDlab) else s.regs
    else if uartAddr addr = 1 then
      if s.dev.dlab then s.regs else (s.dev.dlr, val &&& 0x0f, s.dev.lcrDlab)
    else if uartAddr addr = 3 then (s.dev.dlr, s.dev.ier, val &&& 0x80)
    else s.regs := by
  have ha := s.regs_acceptWrite e (uartAddr addr)
  obtain ⟨hdlr, hier, hlcr⟩ : (s.acceptWrite e (uartAddr addr)).dev.dlr = s.dev.dlr ∧
      (s.acceptWrite e (uartAddr addr)).dev.ier = s.dev.ier ∧
      (s.acceptWrite e (uartAddr addr)).dev.lcrDlab = s.dev.lcrDlab := by
    simpa [regs, Prod.ext_iff] using ha
  have hdlab : (s.acceptWrite e (uartAddr addr)).dev.dlab = s.dev.dlab := by
    rw [DevicePbUart.dlab, hlcr, DevicePbUart.dlab]
  rw [writem8, regs_step, writeReg, hdlab]
  split
  · split
    · rw [← hier, ← hlcr, regs, dlr_write_low]
    · rw [regs_step, ← ha]
      rfl
  · split
    · split
      · rw [← ha, regs, dlr_write_high]
        rfl
      · rw [← hdlr, ← hlcr]
        rfl
    · split
      · rw [← hdlr, ← hier]
        rfl
      · exact ha

/-- **What the device keeps of the values written.** -/
theorem keeps_written (evs : List UartEvent) : (Written.run evs).Kept (run e evs).dev := by
  induction evs using List.reverseRecOn with
  | nil => exact ⟨by simp [Written.run, Written.init], by simp [Written.run, Written.init], rfl⟩
  | append_singleton evs ev ih =>
      rw [Written.run_concat, run_concat]
      generalize Written.run evs = w at ih ⊢
      generalize run e evs = s at ih ⊢
      obtain ⟨h₁, h₂, h₃⟩ := ih
      have hdlab : s.dev.dlab = decide (w.dlab = some true) := by
        rw [DevicePbUart.dlab, h₃]
        by_cases hw : w.dlab = some true <;> simp [hw]
      have hregs : ∀ t : UartState, t.regs = s.regs → w.Kept t.dev := by
        intro t ht
        obtain ⟨ht₁, ht₂, ht₃⟩ : t.dev.dlr = s.dev.dlr ∧ t.dev.ier = s.dev.ier ∧
            t.dev.lcrDlab = s.dev.lcrDlab := by
          simpa [regs, Prod.ext_iff] using ht
        exact ⟨by rwa [ht₁], by rwa [ht₂], by rwa [ht₃]⟩
      cases ev with
      | read addr => exact hregs _ (s.regs_readm8 e addr)
      | step => exact hregs _ (s.regs_step e)
      | write addr val =>
          have hr := s.regs_writem8 e addr val
          rw [after, Written.after]
          rw [hdlab] at hr
          by_cases h0 : uartAddr addr = 0
          · rw [if_pos h0] at hr ⊢
            by_cases hw : w.dlab = some true
            · simp only [hw, decide_true, if_true, regs, Prod.ext_iff] at hr ⊢
              exact ⟨fun v hv => hr.1.trans (Option.some.inj hv),
                hr.2.1 ▸ h₂, by rw [hr.2.2, h₃, hw]⟩
            · simp only [hw, decide_false, if_false, Bool.false_eq_true] at hr ⊢
              exact hregs _ hr
          · rw [if_neg h0] at hr ⊢
            by_cases h1 : uartAddr addr = 1
            · rw [if_pos h1] at hr ⊢
              by_cases hw : w.dlab = some true
              · simp only [hw, decide_true, if_true] at hr ⊢
                obtain ⟨k₁, k₂, k₃⟩ := hregs _ hr
                exact ⟨k₁, k₂, by rw [k₃, hw]⟩
              · simp only [hw, decide_false, if_false, Bool.false_eq_true, regs,
                  Prod.ext_iff] at hr ⊢
                refine ⟨hr.1 ▸ h₁, ?_, by rw [hr.2.2, h₃]⟩
                rintro v ⟨rfl⟩
                exact hr.2.1
            · rw [if_neg h1] at hr ⊢
              by_cases h3 : uartAddr addr = 3
              · simp only [h3, if_true, regs, Prod.ext_iff] at hr ⊢
                exact ⟨hr.1 ▸ h₁, hr.2.1 ▸ h₂, by rw [hr.2.2, lcrDlab_eq]; simp⟩
              · rw [if_neg h3] at hr ⊢
                exact hregs _ hr

end UartState

/-! ### When reads return what was written -/

namespace Written

/-- The upper byte of the divisor is read with zero as its last value only, and `LCR` with the latch
bit cleared. -/
structure Readable (w : Written) (addr : Word) : Prop where
  dlm : addr = 1 → w.dlab = some true → ∀ v, w.dlm = some v → v = 0
  dlab : addr = 3 → w.dlab ≠ some true

theorem Kept.agrees_iff {w : Written} {d : DevicePbUart} (h : w.Kept d) (addr : Word) :
    w.Agrees addr (d.value addr) ↔ w.Readable addr := by
  obtain ⟨h₁, h₂, h₃⟩ := h
  have hdlab : d.dlab = decide (w.dlab = some true) := by
    rw [DevicePbUart.dlab, h₃]
    by_cases hw : w.dlab = some true <;> simp [hw]
  have hv0 : w.dlab = some true → d.value 0 = d.dlr := by
    intro hw
    rw [DevicePbUart.value, if_pos rfl, hdlab, hw]
    exact dlr_read_low _
  have hv1 : d.value 1 = if w.dlab = some true then 0 else d.ier := by
    rw [DevicePbUart.value, if_neg (by decide), if_pos rfl, hdlab, dlr_read_high]
    by_cases hw : w.dlab = some true <;> simp [hw]
  have hv3 : (d.value 3).getLsbD 7 = false := by
    rw [DevicePbUart.value, if_neg (by decide), if_neg (by decide), if_neg (by decide),
      if_pos rfl, h₃]
    by_cases hw : w.dlab = some true <;> simp [hw]
  constructor
  · rintro ⟨-, hdlm, -, hd⟩
    refine ⟨?_, ?_⟩
    · rintro rfl hw v hv
      have hz := hdlm rfl hw v hv
      rw [hv1, if_pos hw] at hz
      exact hz.symm
    · rintro rfl hw
      have hb := hd rfl true hw
      rw [hv3] at hb
      exact absurd hb (by simp)
  · rintro ⟨hdlm, hd⟩
    refine ⟨?_, ?_, ?_, ?_⟩
    · rintro rfl hw v hv
      rw [hv0 hw, h₁ v hv]
    · rintro rfl hw v hv
      rw [hv1, if_pos hw, hdlm rfl hw v hv]
    · rintro rfl hw v hv
      rw [hv1, if_neg hw, h₂ v hv, BitVec.and_assoc, BitVec.and_self]
    · rintro rfl b hb
      rw [hv3]
      cases b with
      | false => rfl
      | true => exact absurd hb (hd rfl)

end Written

/-- **When all reads return the last value written**: if the upper byte of the divisor is read only
where zero was written to it last, and `LCR` only with the latch bit cleared. -/
theorem readsBack_iff (e : UartEnv) (evs : List UartEvent) : ReadsBack e evs ↔
    ∀ pre addr post, evs = pre ++ .read addr :: post → (Written.run pre).Readable
    (uartAddr addr) := by
  constructor
  · intro h pre addr post he
    exact ((UartState.keeps_written e pre).agrees_iff _).1 (h pre addr post he)
  · intro h pre addr post he
    exact ((UartState.keeps_written e pre).agrees_iff _).2 (h pre addr post he)

/-- The upper byte of the divisor is written with 0x12 and read again. -/
theorem divisor_high_lost : ¬ ∀ e evs, ReadsBack e evs := by
  intro h
  have hr := (h ⟨false, 1, fun _ => none⟩ [.write 3 0x80, .write 1 0x12, .read 1]
    [.write 3 0x80, .write 1 0x12] 1 [] rfl).dlm (by decide) (by decide) 0x12 (by decide)
  exact absurd hr (by decide)

end NanoCpu
