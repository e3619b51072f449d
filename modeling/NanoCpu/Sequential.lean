/-
**Sequential execution of decoded instructions.**

This is what the back-end is for: one instruction after the other, each reading the logical
registers that the ones before it have written.  An instruction of the load/store unit or the
exception unit takes its result from the outside, as an answer; everything else computes it with the
functions of the execution pipe.

Main definitions:

* `DecInsn.exec` — what an instruction sends to write-back when it reads the registers `regs`;
* `DecInsn.step` — the registers after it;
* `Retired`, `seqRun` — an instruction with its answer, and the registers after a list of them.
-/

import NanoCpu.Execute

set_option relaxedAutoImplicit false
set_option autoImplicit false

namespace NanoCpu

namespace DecInsn

variable (d : DecInsn)

/-- The instruction as the execution pipe gets it, with the fields that no result depends on left
zero. -/
def opp : Opp where
  alu := d.alu
  epuOp := d.epu.any
  bru := d.bru
  lsuOp := d.lsu.any
  fe := d.fe
  predTaken := d.bpuUpd.taken
  predTgt := d.bpuUpd.tgt
  pc := d.pc
  imm := d.imm
  prd := 0
  prdWe := d.lrdWe
  robId := 0
  robBank := 0

/-- The result comes from the load/store unit or the exception unit. -/
def isMem : Bool := d.lsu.any || d.epu.any

def operand1 (regs : LReg → Word) : Word := if d.lrs1Re then regs d.lrs1 else d.imm

def operand2 (regs : LReg → Word) : Word := if d.lrs2Re then regs d.lrs2 else d.imm

def exec (regs : LReg → Word) : ExOut := d.opp.exPipe true (d.operand1 regs) (d.operand2 regs)

/-- The value for the destination register, with the answer `ans` of the other units. -/
def result (regs : LReg → Word) (ans : Word) : Word :=
  if d.isMem then ans else (d.exec regs).rfDout

/-- The registers after the instruction. -/
def step (regs : LReg → Word) (ans : Word) : LReg → Word :=
  if d.lrdWe then Function.update regs d.lrd (d.result regs ans) else regs

end DecInsn

/-- An instruction that has been executed, with the answer it got. -/
structure Retired where
  insn : DecInsn
  ans : Word

/-- The registers after a list of instructions, from the registers `regs` on. -/
def seqFrom (regs : LReg → Word) (l : List Retired) : LReg → Word :=
  l.foldl (fun regs r => r.insn.step regs r.ans) regs

/-- The registers after a list of instructions, from reset on. -/
def seqRun (l : List Retired) : LReg → Word := seqFrom (fun _ => 0) l

theorem seqFrom_append (regs : LReg → Word) (l l' : List Retired) :
    seqFrom regs (l ++ l') = seqFrom (seqFrom regs l) l' := List.foldl_append

theorem seqRun_append (l l' : List Retired) : seqRun (l ++ l') = seqFrom (seqRun l) l' :=
  seqFrom_append _ l l'

theorem DecInsn.step_of_not_isMem {d : DecInsn} (hd : d.isMem = false) (regs : LReg → Word)
    (ans ans' : Word) : d.step regs ans = d.step regs ans' := by
  simp [DecInsn.step, DecInsn.result, hd]

/-- Without loads and MSR reads no answer matters. -/
theorem seqFrom_of_not_isMem (ans : Word) {l : List Retired} (hl : ∀ r ∈ l, r.insn.isMem = false)
    (regs : LReg → Word) : seqFrom regs l = seqFrom regs (l.map fun r => ⟨r.insn, ans⟩) := by
  induction l generalizing regs with
  | nil => rfl
  | cons r l ih =>
      have hr := DecInsn.step_of_not_isMem (hl r List.mem_cons_self) regs r.ans ans
      change seqFrom (r.insn.step regs r.ans) l = seqFrom (r.insn.step regs ans) _
      rw [hr]
      exact ih (fun r' h => hl r' (List.mem_cons_of_mem _ h)) _

/-- Instructions without a destination leave the registers as they are. -/
theorem seqFrom_of_not_lrdWe {l : List Retired} (hl : ∀ r ∈ l, r.insn.lrdWe = false)
    (regs : LReg → Word) : seqFrom regs l = regs := by
  induction l with
  | nil => rfl
  | cons r l ih =>
      have h₁ : r.insn.step regs r.ans = regs := by
        simp [DecInsn.step, hl r List.mem_cons_self]
      change seqFrom (r.insn.step regs r.ans) l = regs
      rw [h₁]
      exact ih fun r' h => hl r' (List.mem_cons_of_mem _ h)

theorem seqRun_cons {d : DecInsn} (hd : d.isMem = false) {l : List Retired}
    (hl : ∀ r ∈ l, r.insn.lrdWe = false) (a : Word) : seqRun (⟨d, a⟩ :: l) = seqRun [⟨d, 0⟩] := by
  change seqFrom (d.step (fun _ => 0) a) l = d.step (fun _ => 0) 0
  rw [seqFrom_of_not_lrdWe hl, DecInsn.step_of_not_isMem hd _ a 0]

end NanoCpu
