/-
**The execution pipe** (`rtl/core/ex_pipe.v`, `ex_alu.v`, `ex_bru.v`, `ex_agu.v`,
`rtl/lib/mADD*.v`).

An execution pipe computes everything an ALU or a branch instruction produces, and the address of a
load, a store or an MSR access, whose own effect is left to commit.  It also compares the outcome of
the instruction with the prediction it was fetched under; any instruction may have been predicted
taken, a branch or not.

Main definitions:

* `maddCO` — the adder with carry and overflow that the ALU, the branch comparison and the address
  generation share;
* `exAlu`, `exBru` — the arithmetic unit and the branch unit;
* `Opp` — the payload that a reservation station hands to the pipe;
* `Opp.exPipe` — what the pipe sends to write-back;
* `Opp.actualNext`, `Opp.predictedNext` — the address the program goes to, and the one fetched next.

Main results:

* `Opp.exPipe_seTgt` — the redirect target is the actual next address;
* `Opp.exPipe_fls_iff` — the check fails exactly when the direction is wrong, or the branch is taken
  to another target than predicted;
* `Opp.predictedNext_eq` — where the check passes, the instruction fetched next is the right one.
-/

import NanoCpu.Insn

set_option relaxedAutoImplicit false
set_option autoImplicit false

namespace NanoCpu

/-! ### The adder -/

structure AddOut where
  sum : Word
  carry : Bool
  overflow : Bool
  deriving DecidableEq, Repr

/-- `mADD_c_o`: `a + b`, or `a - b` when `s` is high. -/
def maddCO (a b : Word) (s : Bool) : AddOut :=
  let op2 := if s then ~~~b else b
  let wide := a.zeroExtend 33 + op2.zeroExtend 33 + (BitVec.ofBool s).zeroExtend 33
  let sum := wide.setWidth 32
  { sum := sum, carry := wide.msb, overflow := a.msb == op2.msb && a.msb != sum.msb }

/-! ### The arithmetic unit -/

/-- `ex_alu`. -/
def exAlu (o : AluOpc) (operand1 operand2 addSum : Word) : Word :=
  let shiftLsw := if o.lsl then operand1.reverse else operand1
  let shiftMsw : Word := if o.asr then BitVec.signExtend 32 (BitVec.ofBool operand1.msb) else 0
  let shiftWide := (shiftMsw ++ shiftLsw) >>> (operand2.extractLsb' 0 5).toNat
  let shiftRight : Word := shiftWide.setWidth 32
  let datShifter := if o.lsl then shiftRight.reverse else shiftRight
  let datMove : Word := operand2.extractLsb' 0 17 ++ (0 : BitVec 15)
  (if o.add || o.sub then addSum else 0) ||| (if o.and then operand1 &&& operand2 else 0) |||
    (if o.or then operand1 ||| operand2 else 0) ||| (if o.xor then operand1 ^^^ operand2 else 0) |||
    (if o.lsl || o.lsr || o.asr then datShifter else 0) ||| (if o.mhi then datMove else 0)

/-! ### The branch unit -/

structure BruOut where
  taken : Bool
  tgt : Pc
  dout : Word
  doutValid : Bool
  deriving DecidableEq, Repr

/-- `ex_bru`. -/
def exBru (valid : Bool) (o : BruOpc) (pc : Pc) (imm operand1 operand2 : Word) (rfWe : Bool)
    (add : AddOut) : BruOut :=
  let cmpEq := operand1 == operand2
  let cmpLtS := add.sum.msb != add.overflow
  let cmpLtU := !add.carry
  let bccTaken := (o.beq && cmpEq) || (o.bne && !cmpEq) || (o.bgtu && (!cmpLtU && !cmpEq)) ||
    (o.bgt && (!cmpLtS && !cmpEq)) || (o.bleu && (cmpLtU || cmpEq)) || (o.ble && (cmpLtS || cmpEq))
  { taken := valid && (bccTaken || o.jmpreg || o.jmprel)
    tgt := (if bccTaken then pc + imm.extractLsb' 2 30 else 0) |||
      (if o.jmprel then pc + operand2.extractLsb' 2 30 else 0) |||
      (if o.jmpreg then operand1.extractLsb' 2 30 else 0)
    dout := (pc + 1) ++ (0 : BitVec 2)
    doutValid := (o.jmprel || o.jmpreg) && rfWe }

/-! ### The pipe -/

/-- The payload of a reservation station: what execution needs of an instruction, and where in the
reorder buffer it belongs. -/
structure Opp where
  alu : AluOpc
  epuOp : Bool
  bru : BruOpc
  lsuOp : Bool
  fe : Fe
  predTaken : Bool
  predTgt : Pc
  pc : Pc
  imm : Word
  prd : PReg
  prdWe : Bool
  robId : ℕ
  robBank : ℕ
  deriving DecidableEq, Repr

/-- What the pipe sends to write-back. -/
structure ExOut where
  prfWe : Bool
  rfDout : Word
  fls : Bool
  exc : Bool
  opera : Word
  operb : Word
  seTgt : Pc
  deriving DecidableEq, Repr

namespace Opp

/-- The shared adder: an address is `operand1 + imm`, a comparison subtracts. -/
def addOut (o : Opp) (operand1 operand2 : Word) : AddOut :=
  let aguEn := o.lsuOp || o.epuOp
  let addS := o.alu.sub || o.bru.beq || o.bru.bne || o.bru.bgtu || o.bru.bgt || o.bru.bleu ||
    o.bru.ble
  maddCO operand1 (if aguEn then o.imm else operand2) addS

def bruOut (o : Opp) (valid : Bool) (operand1 operand2 : Word) : BruOut :=
  exBru valid o.bru o.pc o.imm operand1 operand2 o.prdWe (o.addOut operand1 operand2)

/-- The combinational part of `ex_pipe`. -/
def exPipe (o : Opp) (valid : Bool) (operand1 operand2 : Word) : ExOut :=
  let add := o.addOut operand1 operand2
  let b := o.bruOut valid operand1 operand2
  let npc := o.pc + 1
  let exc := valid && o.fe.any
  { prfWe := valid && !(o.epuOp || o.lsuOp) && o.prdWe
    rfDout := if b.doutValid then b.dout else exAlu o.alu operand1 operand2 add.sum
    fls := valid && ((b.taken != o.predTaken) || (b.taken && b.tgt != o.predTgt))
    exc := exc
    opera := if exc then o.fe.toWord else add.sum
    operb := operand2
    seTgt := if b.taken then b.tgt else npc }

/-! ### The check of the prediction -/

/-- Whether and where the instruction branches. -/
def branch (o : Opp) (operand1 operand2 : Word) : Option Pc :=
  let b := o.bruOut true operand1 operand2
  if b.taken then some b.tgt else none

/-- The address of the next instruction in program order. -/
def actualNext (o : Opp) (operand1 operand2 : Word) : Pc :=
  (o.branch operand1 operand2).getD (o.pc + 1)

/-- The address the front-end went on with. -/
def predictedNext (o : Opp) : Pc := if o.predTaken then o.predTgt else o.pc + 1

theorem exPipe_seTgt (o : Opp) (operand1 operand2 : Word) :
    (o.exPipe true operand1 operand2).seTgt = o.actualNext operand1 operand2 := by
  simp only [exPipe, actualNext, branch]
  split_ifs <;> rfl

theorem exPipe_fls_iff (o : Opp) (operand1 operand2 : Word) :
    (o.exPipe true operand1 operand2).fls = true ↔
      o.branch operand1 operand2 ≠ if o.predTaken then some o.predTgt else none := by
  simp only [exPipe, branch]
  cases (o.bruOut true operand1 operand2).taken <;> cases o.predTaken <;> simp

/-- Where the check passes, the instruction fetched next is the right one. -/
theorem predictedNext_eq {o : Opp} {operand1 operand2 : Word}
    (h : (o.exPipe true operand1 operand2).fls = false) :
    o.predictedNext = o.actualNext operand1 operand2 := by
  rw [← Bool.not_eq_true, exPipe_fls_iff, not_not] at h
  rw [actualNext, h, predictedNext]
  split_ifs <;> rfl

end Opp

end NanoCpu
