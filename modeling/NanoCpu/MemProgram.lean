/-
**Programs on byte memory** (`rtl/core/id.v`, `ex_pipe.v`, `cmt_lsu.v` against `CPU::step` of
`em/csrc/cpu.cc`).

A program that leaves the MSRs alone is a function of its registers and its memory.  Here it runs
one instruction after the other as the decoder and the execution pipe understand them, with a memory
of bytes that answers the loads.  The emulator with translation and D-cache off does the same, as
long as it takes no exception.

Main definitions:

* `DecInsn.access`, `DecInsn.Plain` — what an instruction asks of the memory, and the instructions
  that ask nothing else;
* `MemPoint`, `Program.memAt`, `Program.accesses` — the program with its memory;
* `Em.StepCpu.Plain` — a step of the emulator that executes such an instruction.

Main results:

* `Program.mem_memAt` — the memory is what the accesses have made of it;
* `Em.StepCpu.plain_step` — one step of the emulator;
* `Em.StepCpu.after_memAt` — **the emulator runs the program on byte memory**.
-/

import NanoCpu.Lockstep

set_option relaxedAutoImplicit false
set_option autoImplicit false
set_option linter.unusedSectionVars false

namespace NanoCpu

open Em

/-! ### What an instruction asks of the memory -/

namespace DecInsn

variable (d : DecInsn) (regs : LReg → Word)

/-- The access of a load or a store: the execution pipe has its address and its data. -/
def access : Option LsuAcc :=
  if d.lsu.load || d.lsu.store then
    some ⟨d.lsu.store, d.lsu.size, d.lsu.signExt, (d.exec regs).opera, (d.exec regs).operb⟩
  else none

/-- What the memory answers. -/
def answer (mem : Em.Bytes) : Word := ((d.access regs).map fun a => a.emValue mem).getD 0

/-- The instruction raises no exception and asks nothing but an aligned access. -/
structure Plain : Prop where
  fe : d.fe.any = false
  epu : d.epu.any = false
  mem : d.lsu.any = (d.lsu.load || d.lsu.store)
  load : d.lsu.any = true → d.lsu.load = !d.lsu.store
  ok : ∀ a, d.access regs = some a → a.Ok

variable {d regs}

/-- A plain instruction that needs a unit is a load or a store. -/
theorem Plain.access_isSome (h : d.Plain regs) : (d.access regs).isSome = d.isMem := by
  rw [isMem, h.epu, Bool.or_false, h.mem, access]
  split_ifs with hm
  · rw [hm]
    rfl
  · rw [Bool.not_eq_true] at hm
    rw [hm]
    rfl

/-- What was predicted plays no part. -/
@[simp] theorem plain_access : d.plain.access regs = d.access regs := rfl

end DecInsn

/-! ### The program with its memory -/

/-- Where a program is, the registers, and the bytes. -/
structure MemPoint extends Point where
  mem : Em.Bytes

namespace Program

variable (P : Program) (m : MemPoint)

/-- One instruction. -/
def next : MemPoint where
  pc := (P.insn m.pc).nextPc m.regs
  regs := (P.insn m.pc).step m.regs ((P.insn m.pc).answer m.regs m.mem)
  mem := (((P.insn m.pc).access m.regs).map fun a => a.emBytes m.mem).getD m.mem

/-- The program after `k` instructions. -/
def memAt : ℕ → MemPoint
  | 0 => m
  | k + 1 => P.next (memAt k)

/-- The next instruction, and its access. -/
def insnAt (k : ℕ) : DecInsn := P.insn (P.memAt m k).pc

def accessAt (k : ℕ) : Option LsuAcc := (P.insnAt m k).access (P.memAt m k).regs

/-- The loads and stores of the first `k` instructions. -/
def accesses : ℕ → List LsuAcc
  | 0 => []
  | k + 1 => accesses k ++ (P.accessAt m k).toList

/-- The next instruction is plain. -/
def PlainAt (k : ℕ) : Prop := (P.insnAt m k).Plain (P.memAt m k).regs

variable {P m}

theorem emMem_append (m : Em.Bytes) (l l' : List LsuAcc) :
    emMem m (l ++ l') = emMem (emMem m l) l' :=
  List.foldl_append

/-- **The memory is what the accesses have made of it.** -/
theorem mem_memAt (k : ℕ) : (P.memAt m k).mem = emMem m.mem (P.accesses m k) := by
  induction k with
  | zero => rfl
  | succ k ih =>
      change ((P.accessAt m k).map fun a => a.emBytes (P.memAt m k).mem).getD (P.memAt m k).mem = _
      rw [accesses, emMem_append, ← ih]
      cases P.accessAt m k <;> rfl

/-- A store writes no register. -/
theorem lrdWe_of_store {pc : Pc} (h : (P.insn pc).lsu.store = true) :
    (P.insn pc).lrdWe = false := by
  have hs : (opcDec ((P pc).extractLsb' 5 7)).lsu.store = true := h
  have hi : idInst true (P pc) false false false = P pc := rfl
  simp [insn, idDec, hi, hs]

/-- An instruction that needs no unit has no access. -/
theorem accessAt_eq_none {k : ℕ} (h : (P.insnAt m k).isMem = false) : P.accessAt m k = none := by
  simp only [DecInsn.isMem, LsuOpc.any, Bool.or_eq_false_iff] at h
  simp [accessAt, DecInsn.access, h]

/-- What commits goes on where the program does, if a load gets what the memory holds. -/
theorem after_memAt {k : ℕ} {ans : Word} (h : (P.insnAt m k).isMem = false ∨
    ∃ a, P.accessAt m k = some a ∧ (a.store = false → ans = a.emValue (P.memAt m k).mem)) :
    (P.memAt m k).toPoint.after (.commit (P.insnAt m k) ans) = (P.memAt m (k + 1)).toPoint := by
  have hstep : (P.insnAt m k).step (P.memAt m k).regs ans =
      (P.insnAt m k).step (P.memAt m k).regs
        ((P.insnAt m k).answer (P.memAt m k).regs (P.memAt m k).mem) := by
    rcases h with h | ⟨a, ha, hans⟩
    · simp only [DecInsn.step, DecInsn.result, h, Bool.false_eq_true, if_false]
    · have hacc : (P.insnAt m k).access (P.memAt m k).regs = some a := ha
      cases hst : a.store with
      | true =>
          have hs : (P.insnAt m k).lsu.store = true := by
            rw [DecInsn.access] at hacc
            split_ifs at hacc
            rw [← Option.some.inj hacc] at hst
            exact hst
          have hwe := lrdWe_of_store hs
          rw [DecInsn.step, DecInsn.step, show (P.insnAt m k).lrdWe = false from hwe]
          rfl
      | false =>
          rw [hans hst, DecInsn.answer, hacc]
          rfl
  rw [Point.after, hstep]
  rfl

end Program

/-! ### The emulator -/

namespace Em

variable {c : Cpu} {C : Config} {M : MsrCode} {pc insn : Word} {r : Step} {op : Op}

/-- The instructions that ask nothing but an access to memory. -/
def Op.isPlain (op : Op) : Bool := op.isAlu || op.isTransfer || op.access.isSome

@[simp] theorem Cpu.setReg_mem (c : Cpu) (l : LReg) (v : Word) : (c.setReg l v).mem = c.mem := by
  rw [Cpu.setReg]
  split_ifs <;> rfl

@[simp] theorem Cpu.setReg_psr (c : Cpu) (l : LReg) (v : Word) : (c.setReg l v).psr = c.psr := by
  rw [Cpu.setReg]
  split_ifs <;> rfl

/-- What executes without an access leaves the bytes and the PSR. -/
theorem Cpu.execute_keeps (ho : Op.ofCode (opcode insn) = some op)
    (hp : (op.isAlu || op.isTransfer) = true)
    (h : c.execute C M pc insn = some r) : r.cpu.mem = c.mem ∧ r.cpu.psr = c.psr := by
  rw [Cpu.execute, ho] at h
  cases op
  case jmp | jmpILnk =>
    rw [← Option.some.inj h]
    exact ⟨Cpu.setReg_mem _ _ _, Cpu.setReg_psr _ _ _⟩
  case jmpI =>
    rw [← Option.some.inj h]
    exact ⟨rfl, rfl⟩
  case beq | bne | bgt | bgtu | ble | bleu =>
    simp only at h
    split at h <;> rw [← Option.some.inj h] <;> exact ⟨rfl, rfl⟩
  case ldwu | stw | ldhu | ldh | sth | ldbu | ldb | stb | barr | syscall | rete | wmsr | rmsr =>
    exact Bool.noConfusion hp
  all_goals
    obtain ⟨v, -, hv⟩ := Option.map_eq_some_iff.1 h
    rw [← hv]
    exact ⟨Cpu.setReg_mem _ _ _, Cpu.setReg_psr _ _ _⟩

/-- What the decoder makes of an instruction that accesses no MSR. -/
theorem plainInsn_of_op {w : Word} (hop : Op.ofCode (opcode w) = some op) (hp : op.isPlain = true)
    (pc : Pc) :
    let d := idDec true w false false false pc noUpd
    d.fe.any = false ∧ d.epu.any = false ∧ d.lsu.any = op.access.isSome ∧
      (d.lsu.load || d.lsu.store) = op.access.isSome := by
  intro d
  have h := opcode_of_some hop
  have hi : idInst true w false false false = w := rfl
  refine ⟨?_, ?_, ?_, ?_⟩
  · simp only [d, idDec, hi, h]
    cases op <;> first | exact Bool.noConfusion hp | rfl
  · change (opcDec (w.extractLsb' 5 7)).epu.any = _
    rw [h]
    cases op <;> first | exact Bool.noConfusion hp | rfl
  · change (opcDec (w.extractLsb' 5 7)).lsu.any = _
    rw [h]
    cases op <;> first | exact Bool.noConfusion hp | rfl
  · change ((opcDec (w.extractLsb' 5 7)).lsu.load || (opcDec (w.extractLsb' 5 7)).lsu.store) = _
    rw [h]
    cases op <;> first | exact Bool.noConfusion hp | rfl

/-- The operands of a load or a store. -/
structure MemInsn (d : DecInsn) (w : Word) (st : Bool) : Prop where
  rs1 : d.lrs1 = rs1 w ∧ d.lrs1Re = true
  rd : st = true → d.lrs2 = rd w ∧ d.lrs2Re = true
  imm : d.imm = (simm15 w).signExtend 32
  bru : d.bru.any = false
  alu : d.alu.sub = false

theorem memInsn_of_access {w : Word} {st sg : Bool} {sz : BitVec 3}
    (hop : Op.ofCode (opcode w) = some op)
    (ha : op.access = some (st, sz, sg)) (pc : Pc) :
    MemInsn (idDec true w false false false pc noUpd) w st := by
  set d := idDec true w false false false pc noUpd with hd
  have h := opcode_of_some hop
  have hi : idInst true w false false false = w := rfl
  refine ⟨⟨(rs1_eq (w := w)).symm, ?_⟩, fun hst => ?_, ?_, ?_, ?_⟩
  · simp only [hd, idDec, hi, h]
    cases op <;> cases ha <;> rfl
  · rw [rd_eq]
    constructor <;> simp only [hd, idDec, hi, h] <;> cases op <;> cases ha <;>
      first | rfl | cases hst
  · rw [simm15_signExtend]
    simp only [hd, idDec, hi, h]
    cases op <;> cases ha <;> simp [opcDec, Op.code, BruOpc.isBcc]
  · change (opcDec (w.extractLsb' 5 7)).bru.any = false
    rw [h]
    cases op <;> cases ha <;> rfl
  · change (opcDec (w.extractLsb' 5 7)).alu.sub = false
    rw [h]
    cases op <;> cases ha <;> rfl

/-- The address that the execution pipe computes is that of the emulator, and so is the data of a
store. -/
theorem access_of_op {w : Word} {st sg : Bool} {sz : BitVec 3}
    (hop : Op.ofCode (opcode w) = some op)
    (ha : op.access = some (st, sz, sg)) (pc : Pc) (regs : LReg → Word) :
    ∃ v, (idDec true w false false false pc noUpd).access regs =
        some ⟨st, sz, sg, regs (rs1 w) + (simm15 w).signExtend 32, v⟩ ∧
        (st = true → v = regs (rd w)) := by
  obtain ⟨hfe, -⟩ := plainInsn_of_op hop (by simp [Op.isPlain, ha]) pc
  have hlsu := idDec_access hop ha pc noUpd
  have hm := memInsn_of_access hop ha pc
  set d := idDec true w false false false pc noUpd with hd
  have hexc : (true && d.fe.any) = false := by rw [hfe, Bool.and_false]
  have hagu : (d.lsu.any || d.epu.any) = true := by
    rw [hlsu]
    cases st <;> rfl
  have hadd : (d.exec regs).opera = regs (rs1 w) + (simm15 w).signExtend 32 := by
    have hb := hm.bru
    simp only [BruOpc.any, BruOpc.isBcc, Bool.or_eq_false_iff] at hb
    simp only [DecInsn.exec, Opp.exPipe, DecInsn.opp, hexc, Bool.false_eq_true, if_false,
      Opp.addOut, hagu, if_true, hm.alu, hb, Bool.or_self]
    rw [maddCO_add, hm.imm, DecInsn.operand1, hm.rs1.2, if_pos rfl, hm.rs1.1]
  refine ⟨(d.exec regs).operb, ?_, fun hst => ?_⟩
  · rw [DecInsn.access, hadd, hlsu]
    cases st <;> rfl
  · obtain ⟨e₁, e₂⟩ := hm.rd hst
    change d.operand2 regs = _
    rw [DecInsn.operand2, e₂, if_pos rfl, e₁]

/-- With translation and the D-cache off an access goes to memory, where it is aligned. -/
theorem Cpu.accessMem_off {size : ℕ} {st : Bool} {k : Word → Bool → Step} (hm : c.psr.dmme = false)
    (hd : c.psr.dce = false) (h : c.accessMem C pc insn size st k = some r) :
    (c.getReg (rs1 insn) + (simm15 insn).signExtend 32).toNat % size = 0 ∧
      r = k (c.getReg (rs1 insn) + (simm15 insn).signExtend 32) true := by
  rw [Cpu.accessMem] at h
  split at h
  · cases h
  · rename_i hal
    simp only [Cpu.dmmuTranslateVma, hm, hd, Bool.false_eq_true, if_false, Bool.not_false,
      Bool.or_true] at h
    exact ⟨not_not.1 hal, (Option.some.inj h).symm⟩

/-- A load or a store, with translation and the D-cache off. -/
theorem Cpu.execute_plain_access {st sg : Bool} {sz : BitVec 3}
    (hop : Op.ofCode (opcode insn) = some op)
    (ha : op.access = some (st, sz, sg)) (hm : c.psr.dmme = false) (hd : c.psr.dce = false)
    (h : c.execute C M pc insn = some r) (p : Pc) :
    ∃ a, (idDec true insn false false false p noUpd).access c.getReg = some a ∧ a.Ok ∧
      r.cpu.mem = a.emBytes c.mem ∧ r.cpu.psr = c.psr ∧
      (st = false → rd insn ≠ 0 → r.cpu.getReg (rd insn) = a.emValue c.mem) := by
  obtain ⟨v, hv, hwd⟩ := access_of_op hop ha p c.getReg
  rw [Cpu.execute_access hop ha] at h
  obtain ⟨hal, hr⟩ := Cpu.accessMem_off hm hd h
  refine ⟨_, hv, ⟨?_, ?_⟩, ?_, ?_, fun hst h0 => ?_⟩
  · change sz.toNat ≤ 2
    cases op <;> cases ha <;> decide
  · have hb : 2 ^ sz.toNat = DcOp.bytes sz := by
      cases op <;> cases ha <;> rfl
    rw [hb] at hal
    exact hal
  · rw [hr]
    cases st with
    | true =>
        rw [if_pos rfl, hwd rfl]
        rfl
    | false =>
        rw [if_neg Bool.false_ne_true]
        exact Cpu.setReg_mem _ _ _
  · rw [hr]
    cases st with
    | true => rfl
    | false =>
        rw [if_neg Bool.false_ne_true]
        exact Cpu.setReg_psr _ _ _
  · subst hst
    rw [hr, if_neg Bool.false_ne_true]
    change (c.setReg (rd insn) _).getReg (rd insn) = _
    rw [Cpu.getReg_setReg c h0, Function.update_self]
    rfl

/-- An instruction that the emulator executes, with translation and the D-cache off. -/
theorem Cpu.execute_plain {P : Program} {m : MemPoint} (hop : Op.ofCode (opcode (P m.pc)) = some op)
    (hp : op.isPlain = true) (hregs : c.getReg = m.regs) (hmem : c.mem = m.mem)
    (hm : c.psr.dmme = false)
    (hd : c.psr.dce = false) (h : c.execute C M (Epu.pcWord m.pc) (P m.pc) = some r)
    (he : r.exit ≠ .handleException) (hal : r.pcNxt.toNat % 4 = 0)
    (hbase : ¬ (Op.ofCode (opcode (P m.pc)) = some .jmp ∧ rd (P m.pc) = rs1 (P m.pc) ∧
      rd (P m.pc) ≠ 0 ∧ c.getReg (rs1 (P m.pc)) ≠ Epu.pcWord m.pc + 4)) :
    r.cpu.getReg = (P.next m).regs ∧ r.pcNxt = Epu.pcWord (P.next m).pc ∧
      r.cpu.mem = (P.next m).mem ∧ r.cpu.psr = c.psr ∧ (P.insn m.pc).Plain m.regs := by
  obtain ⟨hfe, hepu, hlsu, hls⟩ : (P.insn m.pc).fe.any = false ∧ (P.insn m.pc).epu.any = false ∧
      (P.insn m.pc).lsu.any = op.access.isSome ∧
        ((P.insn m.pc).lsu.load || (P.insn m.pc).lsu.store) = op.access.isSome :=
    plainInsn_of_op hop hp m.pc
  have hw : Op.ofCode (opcode (P m.pc)) ≠ some .wmsr := by
    rw [hop]
    rintro h
    obtain rfl := Option.some.inj h
    cases hp
  have hcommit := @Cpu.execute_commit _ _ _ _ _ _ ((P.insn m.pc).answer m.regs m.mem) h he hw
    hfe hbase hal
  rw [hregs] at hcommit
  have hload : (P.insn m.pc).lsu.any = true → (P.insn m.pc).lsu.load =
      !(P.insn m.pc).lsu.store := by
    intro ha
    have hls' : ((P.insn m.pc).lsu.load || (P.insn m.pc).lsu.store) = true :=
      hls.trans (hlsu.symm.trans ha)
    have hx := (opcDec_exclusive ((P m.pc).extractLsb' 5 7)).2.2.2.1
    cases hl : (P.insn m.pc).lsu.load with
    | true =>
        rw [show (P.insn m.pc).lsu.store = false from hx hl]
        rfl
    | false =>
        rw [hl, Bool.false_or] at hls'
        rw [hls']
        rfl
  cases hacc : op.access with
  | none =>
      have hno : (P.insn m.pc).access m.regs = none := by
        rw [DecInsn.access, hls, hacc]
        rfl
      have hmem0 : (P.insn m.pc).isMem = false := by
        rw [DecInsn.isMem, hlsu, hepu, hacc]
        rfl
      have hat : (op.isAlu || op.isTransfer) = true := by
        rw [Op.isPlain, hacc] at hp
        simpa using hp
      obtain ⟨h₁, h₂⟩ := hcommit fun hx => by
        rw [show (idDec true (P m.pc) false false false m.pc noUpd).isMem = false from hmem0] at hx
        cases hx
      obtain ⟨h₃, h₄⟩ := Cpu.execute_keeps hop hat h
      refine ⟨h₁, h₂, ?_, h₄, ⟨hfe, hepu, hlsu.trans hls.symm, hload, fun a ha => ?_⟩⟩
      · rw [h₃, hmem, Program.next, hno]
        rfl
      · rw [hno] at ha
        cases ha
  | some a =>
      obtain ⟨st, sz, sg⟩ := a
      obtain ⟨a, ha, hok, h₃, h₄, h₅⟩ := Cpu.execute_plain_access hop hacc hm hd h m.pc
      rw [hregs] at ha
      have ha' : (P.insn m.pc).access m.regs = some a := ha
      obtain ⟨h₁, h₂⟩ := hcommit fun _ hwe => by
        obtain ⟨-, -, hrd, hwe'⟩ := memInsn_of_op hop
          (show op.isMem = true by cases op <;> cases hacc <;> rfl) m.pc noUpd
        rw [hwe'] at hwe
        simp only [hacc, Option.map_some, Option.getD_some, Bool.and_eq_true, Bool.not_eq_true',
          Bool.or_eq_false_iff, bne_iff_ne, ne_eq] at hwe
        rw [hrd] at hwe ⊢
        rw [h₅ hwe.1.2 hwe.2, DecInsn.answer, ha', hmem]
        rfl
      refine ⟨h₁, h₂, ?_, h₄, ⟨hfe, hepu, hlsu.trans hls.symm, hload, fun a' ha'' => ?_⟩⟩
      · rw [h₃, hmem, Program.next, ha']
        rfl
      · rw [ha', Option.some.injEq] at ha''
        rwa [← ha'']

namespace StepCpu

variable {ι : Type} {A : Setup ι} {b : Bool} {P : Program} {c c₀ : StepCpu ι} {m : MemPoint}

variable (A b P) in
/-- The emulator executes a plain instruction of the program, takes no exception, and does not link
into the base of a jump. -/
def Plain (c : StepCpu ι) : Prop :=
  ∃ r, c.step A c.pc b A.event = some r ∧ r.event.excp = false ∧
    r.event.insn = P (c.pc.extractLsb' 2 30) ∧
    r.npc.toNat % 4 = 0 ∧ ¬ c.LinksBase (P (c.pc.extractLsb' 2 30)) ∧
      ∃ op, Op.ofCode (opcode (P (c.pc.extractLsb' 2 30))) = some op ∧ op.isPlain = true

instance (c : StepCpu ι) : Decidable (c.Plain A b P) :=
  match h : c.step A c.pc b A.event with
  | none => isFalse fun ⟨_, hr, _⟩ => nomatch h.symm.trans hr
  | some r => decidable_of_iff (r.event.excp = false ∧ r.event.insn = P (c.pc.extractLsb' 2 30) ∧
      r.npc.toNat % 4 = 0 ∧ ¬ c.LinksBase (P (c.pc.extractLsb' 2 30)) ∧
        (Op.ofCode (opcode (P (c.pc.extractLsb' 2 30)))).any Op.isPlain = true)
      ⟨fun ha => ⟨r, h, ha.1, ha.2.1, ha.2.2.1,
        ha.2.2.2.1, by simpa [Option.any_eq_true] using ha.2.2.2.2⟩,
        fun ⟨_, hr, h₁, h₂, h₃, h₄, h₅⟩ => by
          obtain rfl := Option.some.inj (h.symm.trans hr)
          exact ⟨h₁, h₂, h₃, h₄, by simpa [Option.any_eq_true] using h₅⟩⟩

/-- The emulator is where the program is, with translation and the D-cache off. -/
structure Shows (c : StepCpu ι) (m : MemPoint) : Prop where
  regs : c.getReg = m.regs
  pc : c.pc = Epu.pcWord m.pc
  mem : c.mem = m.mem
  dmme : c.psr.dmme = false
  dce : c.psr.dce = false

/-- **One step of the emulator** is one instruction of the program on byte memory. -/
theorem plain_step (hs : c.Shows m) (hp : c.Plain A b P) :
    (∃ c', c.runStep A b = some c' ∧ c'.Shows (P.next m)) ∧ (P.insn m.pc).Plain m.regs := by
  obtain ⟨r, hr, he, hi, hal, hbase, op, hop, hplain⟩ := hp
  rw [hs.pc, Epu.extractLsb'_pcWord] at hi hbase hop
  rcases step_cases hr with ⟨hx, -⟩ | ⟨c', insn, hc', hd⟩
  · rw [hx] at he
    cases he
  · obtain rfl : insn = P m.pc := (decodeExecute_insn hd).symm.trans hi
    have hregs : c'.getReg = m.regs := by rw [← hs.regs, ← hc']
    have hw : Op.ofCode (opcode (P m.pc)) ≠ some .wmsr := by
      rw [hop]
      rintro h
      obtain rfl := Option.some.inj h
      cases hplain
    rw [decodeExecute, if_neg hw, hs.pc] at hd
    obtain ⟨s, hs', hl⟩ := Option.map_eq_some_iff.1 hd
    have hexit : s.exit ≠ .handleException := by
      rw [← hl, leave_excp rfl, decide_eq_false_iff_not] at he
      exact he
    have hcpu : r.cpu.toCpu = s.cpu := by rw [← hl]; rfl
    have hnpc : r.npc = s.pcNxt := by rw [← hl]; rfl
    rw [hnpc] at hal
    rw [LinksBase, hs.regs, hs.pc, ← hregs] at hbase
    have hpsr : c'.psr = c.psr := congrArg Cpu.psr hc'
    obtain ⟨h₁, h₂, h₃, h₄, h₅⟩ := Cpu.execute_plain hop hplain hregs
      ((congrArg Cpu.mem hc').trans hs.mem) (by rw [hpsr, hs.dmme]) (by rw [hpsr, hs.dce]) hs'
        hexit hal hbase
    refine ⟨⟨{ r.cpu with pc := r.npc }, ?_, ?_, ?_, ?_, ?_, ?_⟩, h₅⟩
    · rw [runStep, hr, Option.map_some]
    · change r.cpu.getReg = _
      rw [hcpu, h₁]
    · exact hnpc.trans h₂
    · change r.cpu.mem = _
      rw [hcpu, h₃]
    · change r.cpu.psr.dmme = _
      rw [hcpu, h₄, hpsr, hs.dmme]
    · change r.cpu.psr.dce = _
      rw [hcpu, h₄, hpsr, hs.dce]

/-- **The emulator runs the program on byte memory**, as long as it executes plain instructions. -/
theorem after_memAt (hs : c₀.Shows m) {N : ℕ}
    (hp : ∀ k < N, ∀ c, c₀.after A b k = some c → c.Plain A b P) :
    (∀ k ≤ N, ∃ c, c₀.after A b k = some c ∧ c.Shows (P.memAt m k)) ∧ ∀ k < N, P.PlainAt m k := by
  have key : ∀ k ≤ N, ∃ c, c₀.after A b k = some c ∧ c.Shows (P.memAt m k) := by
    intro k hk
    induction k with
    | zero => exact ⟨c₀, rfl, hs⟩
    | succ k ih =>
        obtain ⟨c, hc, hsh⟩ := ih (by omega)
        obtain ⟨⟨c', hc', hsh'⟩, -⟩ := plain_step hsh (hp k hk c hc)
        exact ⟨c', by rw [after, hc, Option.bind_some, hc'], hsh'⟩
  refine ⟨key, fun k hk => ?_⟩
  obtain ⟨c, hc, hsh⟩ := key k hk.le
  exact (plain_step hsh (hp k hk c hc)).2

end StepCpu

end Em

end NanoCpu
