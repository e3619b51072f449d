/-
**The invariant of the out-of-order back-end.**

Instructions are numbered from the last flush on, in program order.  Beside the back-end runs a
trace: the log of the reorder buffer, the renamed instruction of each number, and the list of the
instructions that have been committed.  An instruction between rename and commit is in the issue
registers, or in the log; one that has not been written back is moreover in exactly one place of the
pipeline, in a reservation station, in front of an execution pipe or behind it.

A physical register is available when its busy bit is low.  The value of an available register is
final: it is the value that the instruction which allocated it computes, from registers that are
available too.

Main definitions:

* `Trace`, `Trace.next` — the trace;
* `Backend.Order` — rename, the reorder buffer and commit agree on the program order;
* `Loc`, `Backend.Place` — where the instructions are, and what the pipeline keeps of them there;
* `Backend.Values` — the available registers hold the results;
* `Backend.Inv` — the invariant.
-/

import NanoCpu.Backend
import NanoCpu.Sequential

set_option relaxedAutoImplicit false
set_option autoImplicit false
set_option linter.unusedSectionVars false

namespace NanoCpu

/-! ### The trace -/

/-- The log of the reorder buffer, the renamed instructions by number, and the committed ones, each
with what the load/store unit and the exception unit answered in the cycle of its commit. -/
structure Trace where
  log : RobLog RobPay
  ins : ℕ → RInsn
  retired : List (RInsn × Word)

namespace RInsn

variable (r : RInsn)

/-- The execution pipe does not look at where an instruction stands. -/
theorem exPipe_opp (a b : ℕ) (v : Bool) (o₁ o₂ : Word) :
    (r.opp a b).exPipe v o₁ o₂ = r.d.opp.exPipe v o₁ o₂ := rfl

/-- The operands from the values of the physical registers. -/
def operand1 (v : PReg → Word) : Word := if r.d.lrs1Re then v r.prs1 else r.d.imm

def operand2 (v : PReg → Word) : Word := if r.d.lrs2Re then v r.prs2 else r.d.imm

/-- What the instruction sends to write-back. -/
def out (v : PReg → Word) : ExOut := r.d.opp.exPipe true (r.operand1 v) (r.operand2 v)

/-- What the reorder buffer keeps of it. -/
def wbRec (v : PReg → Word) : WbRec :=
  ⟨(r.out v).fls, (r.out v).exc, ⟨(r.out v).seTgt, (r.out v).operb, (r.out v).opera⟩⟩

end RInsn

/-- The value of the register is there. -/
def Rename.Avail (s : Rename) (p : PReg) : Prop := p = 0 ∨ s.busytable p = false

/-- The values that an instruction reads are there. -/
def Rename.SrcAvail (s : Rename) (r : RInsn) : Prop :=
  (r.d.lrs1Re = true → s.Avail r.prs1) ∧ (r.d.lrs2Re = true → s.Avail r.prs2)

namespace Backend

variable {n : ℕ} [NeZero n]

/-- The number behind the youngest renamed instruction. -/
def nextNum (s : Backend n) (t : Trace) : ℕ := t.log.tail + s.rn.issuePushSize

/-- How many instructions rename takes. -/
def accepted (D : ℕ) (s : Backend n) (x : BackendIn) : ℕ := s.rn.accepted (s.rnIn D x) x.rnPushSize

end Backend

/-- The trace after a cycle of the back-end. -/
def Trace.next {n : ℕ} [NeZero n] (D : ℕ) (t : Trace) (s : Backend n) (x : BackendIn) : Trace where
  log := t.log.next 1 D (s.robIn D x)
  ins := fun m =>
    if s.nextNum t ≤ m ∧ m < s.nextNum t + s.accepted D x ∧ s.flush D x = false then
      s.rn.renamed (s.rnIn D x) (m - s.nextNum t)
    else t.ins m
  retired := t.retired ++ (List.range (s.popSize D x)).map fun i =>
    (t.ins (t.log.head + i), s.cmt.prfWdataLsuEpu (s.cmtIn D x))

namespace Backend

variable {n : ℕ} [NeZero n] (D : ℕ) (s : Backend n) (t : Trace)

/-! ### Program order -/

/-- Rename, the reorder buffer and commit agree on the program order. -/
structure Order : Prop where
  rob : s.rob.Rep 1 D t.log
  pay : ∀ m, t.log.Live m → (t.log.ent m).payload = (t.ins m).pay
  size_le : s.rn.issuePushSize ≤ 2
  issueValid : ∀ i, s.rn.issueValid i = decide (i < s.rn.issuePushSize)
  issue : ∀ i < s.rn.issuePushSize, s.rn.issue i = t.ins (t.log.tail + i)
  wf : ∀ m, t.log.head ≤ m → m < s.nextNum t → (t.ins m).d.WellFormed
  chain : Chain 0 s.rn.arat (fun p => s.rn.afl p = true) (fun m => (t.ins m).ren) t.log.head
    (s.nextNum t) s.rn.rat fun p => s.rn.fl p = true
  src : ∀ m, t.log.head ≤ m → m < s.nextNum t →
    (t.ins m).prs1 = Renaming.mapFrom (fun m => (t.ins m).ren) s.rn.arat t.log.head
        (m - t.log.head) (t.ins m).d.lrs1 ∧
      (t.ins m).prs2 = Renaming.mapFrom (fun m => (t.ins m).ren) s.rn.arat t.log.head
        (m - t.log.head) (t.ins m).d.lrs2

/-! ### Places -/

/-- A place of the pipeline: a slot of a reservation station, the stage in front of an execution
pipe, and the stage behind it. -/
inductive Loc (n : ℕ)
  | rs (i : ℕ) (a : Fin n)
  | ex (i : ℕ)
  | wb (i : ℕ)

/-- There is an instruction in the place. -/
def Occ : Loc n → Prop
  | .rs i a => (s.rs i).freeVec a = false
  | .ex i => (s.ex i).buf.pending = true
  | .wb i => (s.wb i).buf.pending = true

/-- What a place keeps of the instruction with number `m`. -/
def Holds (m : ℕ) : Loc n → Prop
  | .rs i a =>
      i < 2 ∧ (t.log.ent m).wb = none ∧ (s.rs i).payload a = (t.ins m).opp (robId 1 D m)
      (robBank 1 m) ∧
      (s.rs i).prs1Rf a = (t.ins m).prs1 ∧ (s.rs i).prs2Rf a = (t.ins m).prs2 ∧
      (s.rs i).prs1ReRf a = (t.ins m).d.lrs1Re ∧ (s.rs i).prs2ReRf a = (t.ins m).d.lrs2Re
  | .ex i =>
      i < 2 ∧ (t.log.ent m).wb = none ∧ (s.ex i).opp = (t.ins m).opp (robId 1 D m) (robBank 1 m) ∧
      s.rn.SrcAvail (t.ins m) ∧ s.operand1 i = (t.ins m).operand1 s.prf.val ∧
      s.operand2 i = (t.ins m).operand2 s.prf.val
  | .wb i =>
      i < 2 ∧ ((t.log.ent m).wb ≠ none → i = 0 ∧ s.cmt.pending = false) ∧ s.rn.SrcAvail (t.ins m) ∧
      (s.wb i).robId = robId 1 D m ∧ (s.wb i).robBank = robBank 1 m ∧
      (s.wb i).waddr = (t.ins m).prd ∧
      (s.wb i).prfWe = (!(t.ins m).d.isMem && (t.ins m).d.lrdWe) ∧
      (s.wb i).wdata = ((t.ins m).out s.prf.val).rfDout ∧
      (⟨(s.wb i).fls, (s.wb i).exc, ⟨(s.wb i).flsTgt, (s.wb i).operb, (s.wb i).opera⟩⟩ : WbRec) =
        (t.ins m).wbRec s.prf.val

/-- The occupied places hold different instructions of the log, `num` says which. -/
structure Place (num : Loc n → ℕ) : Prop where
  inj : ∀ k k', s.Occ k → s.Occ k' → num k = num k' → k = k'
  live : ∀ k, s.Occ k → t.log.Live (num k)
  holds : ∀ k, s.Occ k → s.Holds D t (num k) k
  rdy : ∀ i, (s.rs i).hasRdyFf = true → s.Occ (.rs i (s.rs i).rdyAddrFf) ∧
    (s.rs i).oppRdat = (s.rs i).payload (s.rs i).rdyAddrFf ∧
    (s.rs i).roPrs1 = (s.rs i).prs1Rf (s.rs i).rdyAddrFf ∧
    (s.rs i).roPrs2 = (s.rs i).prs2Rf (s.rs i).rdyAddrFf ∧
    (s.rs i).roPrs1Re = (s.rs i).prs1ReRf (s.rs i).rdyAddrFf ∧
    (s.rs i).roPrs2Re = (s.rs i).prs2ReRf (s.rs i).rdyAddrFf ∧
    s.rn.SrcAvail (t.ins (num (.rs i (s.rs i).rdyAddrFf)))

/-! ### Values -/

/-- The available registers hold the results. -/
structure Values (num : Loc n → ℕ) : Prop where
  arat : ∀ l, s.rn.Avail (s.rn.arat l)
  prd : ∀ m, t.log.head ≤ m → m < s.nextNum t → (t.ins m).d.lrdWe = true →
    s.rn.Avail (t.ins m).prd → (t.ins m).d.isMem = false ∧ s.rn.SrcAvail (t.ins m) ∧
      s.prf.val (t.ins m).prd = ((t.ins m).out s.prf.val).rfDout
  wb : ∀ m r, t.log.Live m → (t.log.ent m).wb = some r →
    s.rn.SrcAvail (t.ins m) ∧ r = (t.ins m).wbRec s.prf.val ∧
      ((t.ins m).d.lrdWe = true → (t.ins m).d.isMem = false →
        s.rn.Avail (t.ins m).prd ∨ (s.Occ (.wb 0) ∧ num (.wb 0) = m))

/-- The invariant. -/
structure Inv : Prop where
  order : s.Order D t
  cmt : s.cmt.Inv (s.rob.cmtValid 1 D 0) (s.head D 0)
  place : ∃ num, s.Place D t num ∧ s.Values t num

end Backend

namespace Backend

variable {n : ℕ} [NeZero n] {D : ℕ} {s : Backend n} {t : Trace} {x : BackendIn}

/-! ### What commit does -/

theorem cmtValid_zero_of_one (h : (s.cmtIn D x).valid 1 = true) : (s.cmtIn D x).valid 0 = true := by
  simp only [cmtIn, Rob.cmtValid, List.all_eq_true, List.mem_range] at h ⊢
  exact fun j hj => h j (by omega)

theorem fire_eq {i : ℕ} (hi : i < 2) : s.fire D x i = decide (i < s.popSize D x) :=
  Cmt.fire_eq cmtValid_zero_of_one hi

theorem popSize_le : s.popSize D x ≤ 2 := Cmt.popSize_le

theorem fire_of_lt {i : ℕ} (hi : i < s.popSize D x) : s.fire D x i = true := by
  have := popSize_le (s := s) (D := D) (x := x)
  rw [fire_eq (by omega), decide_eq_true_eq]
  exact hi

theorem popSize_of_flush (hx : s.flush D x = true) : s.popSize D x = 0 := by
  have h : ∀ i, s.cmt.fire (s.cmtIn D x) i = false := by
    intro i
    by_contra hne
    have := Cmt.flush_of_fire (by simpa using hne)
    rw [flush] at hx
    rw [hx] at this
    cases this
  simp [popSize, Cmt.popSize, h]

/-- Nothing goes in the cycle of a flush. -/
theorem flush_of_popped {i : ℕ} (h : i < s.popSize D x) : s.flush D x = false := by
  by_contra hne
  rw [popSize_of_flush (Bool.eq_true_of_not_eq_false hne)] at h
  exact Nat.not_lt_zero i h

/-- The reorder buffer as commit sees it. -/
theorem Order.ent_eq (ho : s.Order D t) {i : ℕ} (hi : i < 2) (hv : s.rob.cmtValid 1 D i = true) :
    t.log.Live (t.log.head + i) ∧
      (t.log.ent (t.log.head + i)).wb =
        some ⟨(s.head D i).fls, (s.head D i).exc, (s.head D i).vbank⟩ := by
  have hl := ((ho.rob.cmtValid_iff hi).1 hv i le_rfl).1
  refine ⟨⟨by omega, hl⟩, ?_⟩
  rw [ho.rob.cmt_eq hi hv]
  rfl

theorem Order.head_pay (ho : s.Order D t) {i : ℕ} (hi : i < 2)
    (hl : t.log.head + i < t.log.tail) : (s.head D i).pay = (t.ins (t.log.head + i)).pay := by
  rw [← ho.pay _ ⟨by omega, hl⟩]
  exact ho.rob.cmtPayload_eq hi hl

/-- The instructions that go are inside, and have been written back. -/
theorem Order.live_of_lt (ho : s.Order D t) {i : ℕ} (hi : i < s.popSize D x) :
    s.rob.cmtValid 1 D i = true ∧ t.log.Live (t.log.head + i) := by
  have hv : s.rob.cmtValid 1 D i = true := Cmt.valid_of_fire (x := s.cmtIn D x) (fire_of_lt hi)
  have := popSize_le (s := s) (D := D) (x := x)
  exact ⟨hv, (ho.ent_eq (by omega) hv).1⟩

theorem Order.head_popSize_le (ho : s.Order D t) : t.log.head + s.popSize D x ≤ t.log.tail := by
  by_contra hne
  have hle := ho.rob.le
  have := (ho.live_of_lt (x := x) (i := s.popSize D x - 1) (by omega)).2.2
  omega

end Backend

end NanoCpu
