/-
**From issue to write-back** (`rtl/core/issue_rs.v`, `ro.v`, `prf.v`, the registers of `ex_pipe.v`,
and `wb_mux.v`).

Each lane has a reservation station in which instructions wait until their source registers are no
longer busy, a register stage in front of the execution pipe, into which the operands are read, and
a register stage behind it.  The two register stages are handshake buffers.  The lanes share the
physical register file; the port of lane 0 is also used by the results of loads and MSR reads, which
take precedence.

Main definitions:

* `Rs`, `RsIn`, `Rs.next` — a reservation station of any depth;
* `Prf`, `Prf.next` — the physical register file with its registered read ports;
* `ExStage`, `ExStage.next` — the stage in front of the execution pipe;
* `WbStage`, `WbStage.next` — the stage behind it;
* `WbMux` — the write ports after the arbitration with the load/store unit.

Main results:

* `Rs.freeAddr_mem`, `Rs.rdyAddr_mem` — a push goes to a free slot, and what is selected is taken
  and has its operands.
-/

import NanoCpu.Execute

set_option relaxedAutoImplicit false
set_option autoImplicit false

namespace NanoCpu

/-! ### The reservation station -/

/-- A reservation station with `n` slots and its output registers. -/
structure Rs (n : ℕ) where
  freeVec : Fin n → Bool
  payload : Fin n → Opp
  prs1Rf : Fin n → PReg
  prs2Rf : Fin n → PReg
  prs1ReRf : Fin n → Bool
  prs2ReRf : Fin n → Bool
  hasRdyFf : Bool
  rdyAddrFf : Fin n
  roPrs1 : PReg
  roPrs2 : PReg
  roPrs1Re : Bool
  roPrs2Re : Bool
  oppRdat : Opp

/-- The inputs of one cycle; `pop` is `ro_rs_pop`. -/
structure RsIn where
  flush : Bool
  push : Bool
  opp : Opp
  prs1 : PReg
  prs2 : PReg
  prs1Re : Bool
  prs2Re : Bool
  busytable : PReg → Bool
  pop : Bool

namespace Rs

variable {n : ℕ} [NeZero n]

def reset (n : ℕ) [NeZero n] (opp : Opp) : Rs n where
  freeVec := fun _ => true
  payload := fun _ => opp
  prs1Rf := fun _ => 0
  prs2Rf := fun _ => 0
  prs1ReRf := fun _ => false
  prs2ReRf := fun _ => false
  hasRdyFf := false
  rdyAddrFf := 0
  roPrs1 := 0
  roPrs2 := 0
  roPrs1Re := false
  roPrs2Re := false
  oppRdat := opp

def freeAddr (s : Rs n) : Fin n := (priorityEncoderGs s.freeVec).1

/-- `issue_rs_full`. -/
def full (s : Rs n) : Bool := !(priorityEncoderGs s.freeVec).2

def freeVecByp (s : Rs n) (x : RsIn) (a : Fin n) : Bool :=
  s.freeVec a || (x.pop && a == s.rdyAddrFf)

def rdyVec (s : Rs n) (x : RsIn) (a : Fin n) : Bool :=
  !s.freeVecByp x a && (!s.prs1ReRf a || !x.busytable (s.prs1Rf a)) &&
    (!s.prs2ReRf a || !x.busytable (s.prs2Rf a))

def hasRdy (s : Rs n) (x : RsIn) : Bool := (priorityEncoderGs (s.rdyVec x)).2

def rdyAddr (s : Rs n) (x : RsIn) : Fin n := (priorityEncoderGs (s.rdyVec x)).1

/-- A write port of one of the memories of the station. -/
def write {α : Type*} (s : Rs n) (x : RsIn) (d : α) (m : Fin n → α) : Fin n → α :=
  if x.push then Function.update m s.freeAddr d else m

/-- The state after the clock edge. -/
def next (s : Rs n) (x : RsIn) : Rs n where
  freeVec := fun a => x.flush || (x.pop && a == s.rdyAddrFf) ||
    (s.freeVec a && !(x.push && a == s.freeAddr))
  payload := s.write x x.opp s.payload
  prs1Rf := s.write x x.prs1 s.prs1Rf
  prs2Rf := s.write x x.prs2 s.prs2Rf
  prs1ReRf := s.write x x.prs1Re s.prs1ReRf
  prs2ReRf := s.write x x.prs2Re s.prs2ReRf
  hasRdyFf := s.hasRdy x && !x.flush
  rdyAddrFf := ldff (s.hasRdy x) (s.rdyAddr x) s.rdyAddrFf
  roPrs1 := ldff (s.hasRdy x) (s.prs1Rf (s.rdyAddr x)) s.roPrs1
  roPrs2 := ldff (s.hasRdy x) (s.prs2Rf (s.rdyAddr x)) s.roPrs2
  roPrs1Re := ldff (s.hasRdy x) (s.prs1ReRf (s.rdyAddr x)) s.roPrs1Re
  roPrs2Re := ldff (s.hasRdy x) (s.prs2ReRf (s.rdyAddr x)) s.roPrs2Re
  oppRdat := ldff (s.hasRdy x) (s.payload (s.rdyAddr x)) s.oppRdat

/-- A push goes to a free slot. -/
theorem freeAddr_mem {s : Rs n} (h : s.full = false) : s.freeVec s.freeAddr = true :=
  priorityEncoderGs_mem (by simpa [full] using h)

/-- The selected slot is taken and its operands are not busy. -/
theorem rdyAddr_mem {s : Rs n} {x : RsIn} (h : s.hasRdy x = true) :
    s.rdyVec x (s.rdyAddr x) = true :=
  priorityEncoderGs_mem h

end Rs

/-! ### The physical register file -/

/-- The registers, the registered read data of each port, and whether the port was read at another
register than zero (`prf_RADDR_zero_ff`). -/
structure Prf where
  regfile : PReg → Word
  rdata1 : ℕ → Word
  raddrNonzero : ℕ → Bool

namespace Prf

def reset : Prf := ⟨fun _ => 0, fun _ => 0, fun _ => false⟩

/-- What a read port shows: register zero reads as zero. -/
def rdata (s : Prf) (k : ℕ) : Word := if s.raddrNonzero k then s.rdata1 k else 0

/-- The value of a physical register as a read sees it. -/
def val (s : Prf) (p : PReg) : Word := if p = 0 then 0 else s.regfile p

def next (s : Prf) (re : ℕ → Bool) (raddr : ℕ → PReg) (we : ℕ → Bool) (waddr : ℕ → PReg)
    (wdata : ℕ → Word) : Prf where
  regfile := rfWrite we waddr wdata 2 s.regfile
  rdata1 := fun k => ldff (re k) (s.regfile (raddr k)) (s.rdata1 k)
  raddrNonzero := fun k => ldff (re k) (raddr k != 0) (s.raddrNonzero k)

/-- A read port shows the value that the register had at the edge. -/
theorem rdata_next (s : Prf) (re : ℕ → Bool) (raddr : ℕ → PReg) (we : ℕ → Bool) (waddr : ℕ → PReg)
    (wdata : ℕ → Word) (k : ℕ) :
    (s.next re raddr we waddr wdata).rdata k = if re k then s.val (raddr k) else s.rdata k := by
  by_cases hk : re k = true
  · by_cases h0 : raddr k = 0 <;> simp [rdata, next, hk, val, h0, ldff]
  · simp [rdata, next, hk, ldff]

end Prf

/-! ### The stage in front of the execution pipe -/

/-- The registers of `ro.v` of one lane. -/
structure ExStage where
  buf : HdsBuf
  opp : Opp
  prs1Re : Bool
  prs2Re : Bool

namespace ExStage

def reset (opp : Opp) : ExStage := ⟨⟨false⟩, opp, false, false⟩

/-- `ro_ready`. -/
def roReady (e : ExStage) (exReady : Bool) : Bool := e.buf.aready true true exReady

/-- The clock enable of the stage. -/
def pCe (e : ExStage) (roValid exReady : Bool) : Bool := roValid && e.roReady exReady

def next (e : ExStage) (flush roValid : Bool) (opp : Opp) (prs1Re prs2Re exReady : Bool) :
    ExStage where
  buf := e.buf.next flush true roValid true exReady
  opp := ldff (e.pCe roValid exReady) opp e.opp
  prs1Re := ldff (e.pCe roValid exReady) prs1Re e.prs1Re
  prs2Re := ldff (e.pCe roValid exReady) prs2Re e.prs2Re

/-- `ex_operand1`, `ex_operand2` from the two read ports of the lane. -/
def operand1 (e : ExStage) (rdata : Word) : Word := if e.prs1Re then rdata else e.opp.imm

def operand2 (e : ExStage) (rdata : Word) : Word := if e.prs2Re then rdata else e.opp.imm

end ExStage

/-! ### The stage behind the execution pipe -/

/-- The registers of `ex_pipe.v` of one lane. -/
structure WbStage where
  buf : HdsBuf
  robId : ℕ
  robBank : ℕ
  waddr : PReg
  prfWe : Bool
  wdata : Word
  fls : Bool
  exc : Bool
  opera : Word
  operb : Word
  flsTgt : Pc

namespace WbStage

def reset : WbStage where
  buf := ⟨false⟩
  robId := 0
  robBank := 0
  waddr := 0
  prfWe := false
  wdata := 0
  fls := false
  exc := false
  opera := 0
  operb := 0
  flsTgt := 0

/-- `ex_ready`. -/
def exReady (w : WbStage) (wbReady : Bool) : Bool := w.buf.aready true true wbReady

/-- `prf_WE_ex`. -/
def prfWeEx (w : WbStage) : Bool := w.prfWe && w.buf.pending

def next (w : WbStage) (flush exValid : Bool) (opp : Opp) (o : ExOut) (wbReady : Bool) :
    WbStage :=
  let pCe := exValid && w.exReady wbReady
  { buf := w.buf.next flush true exValid true wbReady
    robId := ldff pCe opp.robId w.robId
    robBank := ldff pCe opp.robBank w.robBank
    waddr := ldff pCe opp.prd w.waddr
    prfWe := ldff (pCe || flush) (o.prfWe && !flush) w.prfWe
    wdata := ldff pCe o.rfDout w.wdata
    fls := ldff (pCe || flush) o.fls w.fls
    exc := ldff (pCe || flush) o.exc w.exc
    opera := ldff pCe o.opera w.opera
    operb := ldff pCe o.operb w.operb
    flsTgt := ldff pCe o.seTgt w.flsTgt }

end WbStage

/-! ### The write ports -/

/-- `wb_mux`: lane 0 gives way to the load/store and MSR results. -/
structure WbMux where
  weLsuEpu : Bool
  waddrLsuEpu : PReg
  wdataLsuEpu : Word

namespace WbMux

def wbReady (m : WbMux) (robReady : ℕ → Bool) (i : ℕ) : Bool :=
  if i = 0 then !m.weLsuEpu && robReady 0 else robReady i

def prfWe (m : WbMux) (wb : ℕ → WbStage) (i : ℕ) : Bool :=
  if i = 0 then if m.weLsuEpu then true else (wb 0).prfWeEx else (wb i).prfWeEx

def prfWaddr (m : WbMux) (wb : ℕ → WbStage) (i : ℕ) : PReg :=
  if i = 0 then if m.weLsuEpu then m.waddrLsuEpu else (wb 0).waddr else (wb i).waddr

def prfWdata (m : WbMux) (wb : ℕ → WbStage) (i : ℕ) : Word :=
  if i = 0 then if m.weLsuEpu then m.wdataLsuEpu else (wb 0).wdata else (wb i).wdata

end WbMux

end NanoCpu
