/-
**The out-of-order back-end** (`rtl/core/rn.v`, `issue.v`, `ro.v`, `ex.v`, `wb_mux.v`, `rob.v`,
`cmt.v`, as they are connected in `ncpu64k.v`).

Decoded instructions enter at rename and leave at commit.  Everything between is inside this module;
what is outside are the decoder, which delivers up to two instructions a cycle, the D-cache, and the
request port of the I-cache.

Main definitions:

* `RInsn.opp`, `RInsn.pay` — what issue hands to a reservation station and to the reorder buffer;
* `Backend`, `BackendIn`, `Backend.next` — the back-end, for every depth `n` of the reservation
  stations and every depth `2 ^ D` of the banks of the reorder buffer;
* `Backend.machine` — the back-end under the promise that the decoder keeps.
-/

import NanoCpu.Commit
import NanoCpu.Rename
import NanoCpu.IssuePipe

set_option relaxedAutoImplicit false
set_option autoImplicit false

namespace NanoCpu

/-- The payload of a reservation station for an instruction with the given place in the reorder
buffer. -/
def RInsn.opp (r : RInsn) (robId robBank : ℕ) : Opp where
  alu := r.d.alu
  epuOp := r.d.epu.any
  bru := r.d.bru
  lsuOp := r.d.lsu.any
  fe := r.d.fe
  predTaken := r.d.bpuUpd.taken
  predTgt := r.d.bpuUpd.tgt
  pc := r.d.pc
  imm := r.d.imm
  prd := r.prd
  prdWe := r.d.lrdWe
  robId := robId
  robBank := robBank

/-- The payload of the reorder buffer. -/
def RInsn.pay (r : RInsn) : RobPay where
  epu := r.d.epu
  lsu := r.d.lsu
  bpuUpd := r.d.bpuUpd
  pc := r.d.pc
  lrd := r.d.lrd
  prd := r.prd
  prdWe := r.d.lrdWe
  pfree := r.pfree
  isBcc := r.d.bru.isBcc
  isBrel := r.d.bru.jmprel
  isBreg := r.d.bru.jmpreg

structure Backend (n : ℕ) where
  rn : Rename
  rob : Rob RobPay
  rs : ℕ → Rs n
  prf : Prf
  ex : ℕ → ExStage
  wb : ℕ → WbStage
  cmt : Cmt

/-- The inputs of one cycle: the instructions offered to rename, and the surroundings of commit. -/
structure BackendIn where
  rnValid : ℕ → Bool
  rnPushSize : ℕ
  rnInsn : ℕ → DecInsn
  dcStall : Bool
  dcDout : Word
  icinvReady : Bool
  rd : MsrRd

namespace Backend

variable {n : ℕ} [NeZero n]

/-- After reset; `z` stands for the contents of the registers that reset leaves undefined. -/
def reset (n : ℕ) [NeZero n] (z : RInsn) : Backend n where
  rn := Rename.reset z
  rob := Rob.reset z.pay
  rs := fun _ => Rs.reset n (z.opp 0 0)
  prf := Prf.reset
  ex := fun _ => ExStage.reset (z.opp 0 0)
  wb := fun _ => WbStage.reset
  cmt := Cmt.reset

variable (D : ℕ) (s : Backend n) (x : BackendIn)

/-! ### Commit -/

/-- What commit lane `i` shows. -/
def head (i : ℕ) : CmtHead :=
  ⟨s.rob.cmtPayload 1 i, s.rob.cmtFls 1 D i, s.rob.cmtExc 1 D i, s.rob.cmtVbank 1 D i⟩

def cmtIn : CmtIn := ⟨s.rob.cmtValid 1 D, s.head D, x.dcStall, x.dcDout, x.icinvReady, x.rd⟩

def flush : Bool := s.cmt.flush (s.cmtIn D x)

def fire (i : ℕ) : Bool := s.cmt.fire (s.cmtIn D x) i

def popSize : ℕ := s.cmt.popSize (s.cmtIn D x)

def mux : WbMux :=
  ⟨s.cmt.prfWeLsuEpu (s.cmtIn D x), (s.head D 0).pay.prd, s.cmt.prfWdataLsuEpu (s.cmtIn D x)⟩

/-! ### Rename and issue -/

/-- `&issue_ready`. -/
def issueReady : Bool := (List.range 2).all fun i => !(s.rs i).full && s.rob.ready 1 D

def rnIn : RenameIn where
  flush := s.flush D x
  valid := x.rnValid
  pushSize := x.rnPushSize
  insn := x.rnInsn
  issueReady := s.issueReady D
  cmtFire := s.fire D x
  cmtLrd := fun i => (s.head D i).pay.lrd
  cmtPfree := fun i => (s.head D i).pay.pfree
  cmtPrd := fun i => (s.head D i).pay.prd
  cmtPrdWe := fun i => (s.head D i).pay.prdWe
  prfWe := (s.mux D x).prfWe s.wb
  prfWaddr := (s.mux D x).prfWaddr s.wb

/-- `issue_p_ce`. -/
def issuePCe : Bool := s.rn.pCe (s.rnIn D x)

/-- `rob_push_size`. -/
def robPushSize : ℕ := if s.issuePCe D x then s.rn.issuePushSize else 0

/-- `rs_push`. -/
def rsPush (i : ℕ) : Bool := s.rn.issueValid i && s.issuePCe D x

def robIn : RobIn RobPay where
  flush := s.flush D x
  pushSize := s.robPushSize D x
  push := fun i => (s.rn.issue i).pay
  wbValid := fun i => (s.wb i).buf.pending
  wbRobId := fun i => (s.wb i).robId
  wbRobBank := fun i => (s.wb i).robBank
  wbFls := fun i => (s.wb i).fls
  wbExc := fun i => (s.wb i).exc
  wbVbank := fun i => ⟨(s.wb i).flsTgt, (s.wb i).operb, (s.wb i).opera⟩
  popSize := s.popSize D x

/-! ### Execution -/

def wbReady (i : ℕ) : Bool := (s.mux D x).wbReady (s.robIn D x).wbReady i

def exReady (i : ℕ) : Bool := (s.wb i).exReady (s.wbReady D x i)

def roReady (i : ℕ) : Bool := (s.ex i).roReady (s.exReady D x i)

/-- `ro_rs_pop`, which is also the clock enable of the stage in front of execution. -/
def roRsPop (i : ℕ) : Bool := (s.rs i).hasRdyFf && s.roReady D x i

def rsIn (i : ℕ) : RsIn where
  flush := s.flush D x
  push := s.rsPush D x i
  opp := (s.rn.issue i).opp (s.rob.freeId 1 D i) (s.rob.freeBank 1 i)
  prs1 := (s.rn.issue i).prs1
  prs2 := (s.rn.issue i).prs2
  prs1Re := (s.rn.issue i).d.lrs1Re
  prs2Re := (s.rn.issue i).d.lrs2Re
  busytable := s.rn.busytable
  pop := s.roRsPop D x i

def operand1 (i : ℕ) : Word := (s.ex i).operand1 (s.prf.rdata (2 * i))

def operand2 (i : ℕ) : Word := (s.ex i).operand2 (s.prf.rdata (2 * i + 1))

/-- What execution pipe `i` sends to write-back. -/
def exOut (i : ℕ) : ExOut :=
  (s.ex i).opp.exPipe (s.ex i).buf.pending (s.operand1 i) (s.operand2 i)

/-- The read ports of the register file, two for each lane. -/
def prfRe (k : ℕ) : Bool :=
  s.roRsPop D x (k / 2) && if k % 2 = 0 then (s.rs (k / 2)).roPrs1Re else (s.rs (k / 2)).roPrs2Re

def prfRaddr (k : ℕ) : PReg := if k % 2 = 0 then (s.rs (k / 2)).roPrs1 else (s.rs (k / 2)).roPrs2

/-! ### The next state -/

def next : Backend n where
  rn := s.rn.next (s.rnIn D x)
  rob := s.rob.next 1 D (s.robIn D x)
  rs := fun i => (s.rs i).next (s.rsIn D x i)
  prf := s.prf.next (s.prfRe D x) s.prfRaddr ((s.mux D x).prfWe s.wb) ((s.mux D x).prfWaddr s.wb)
    ((s.mux D x).prfWdata s.wb)
  ex := fun i => (s.ex i).next (s.flush D x) (s.rs i).hasRdyFf (s.rs i).oppRdat (s.rs i).roPrs1Re
    (s.rs i).roPrs2Re (s.exReady D x i)
  wb := fun i => (s.wb i).next (s.flush D x) (s.ex i).buf.pending (s.ex i).opp (s.exOut i)
    (s.wbReady D x i)
  cmt := s.cmt.next (s.cmtIn D x)

end Backend

/-- What the decoder promises: the valid lanes are the lowest ones, `rnPushSize` counts them, and
they carry decoded instructions. -/
structure BackendIn.Delivers (x : BackendIn) : Prop where
  le : x.rnPushSize ≤ 2
  valid : ∀ i, x.rnValid i = decide (i < x.rnPushSize)
  wellFormed : ∀ i < x.rnPushSize, (x.rnInsn i).WellFormed

/-- The back-end with a decoder in front of it; everything else may behave in any way. -/
def Backend.machine (n : ℕ) [NeZero n] (D : ℕ) (z : RInsn) : Machine (Backend n) BackendIn where
  reset := Backend.reset n z
  allowed _ x := x.Delivers
  next s x := s.next D x

end NanoCpu
