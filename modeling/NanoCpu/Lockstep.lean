/-
**The core and the emulator in lockstep** (`rtl/core/ncpu64k.v` against `CPU::step` of
`em/csrc/cpu.cc`).

The core fetches ahead, renames, executes out of order and flushes what was predicted wrongly; the
emulator takes one step for every instruction.  Beside a run of the core on a program the emulator
takes a step for every event of commit.  What the program does not decide (what a load or a read of
an MSR returns, and whether an exception is taken and where to) is compared at each event.  As long
as these agree the instructions, the registers and the addresses do, with the one exception of a
jump that links into its own base.

Main definitions:

* `Em.StepCpu.runStep`, `Em.StepCpu.after` — the emulator, one instruction after the other;
* `Event.AgreesWith` — an event and a step of the emulator agree in what the program does not
  decide;
* `Em.StepCpu.LinksBase` — the jump that the two levels execute differently;
* `Core.onProgram` — the core on a program, with what commit has done.

Main results:

* `Em.StepCpu.step_event` — one event;
* `Em.StepCpu.after_run` — a path and the emulator;
* `Core.lockstep` — **the registers of the core are those of the emulator** in every run.
-/

import NanoCpu.EmDifftest
import NanoCpu.LsuLanes
import NanoCpu.Prediction

set_option relaxedAutoImplicit false
set_option autoImplicit false
set_option linter.unusedSectionVars false

namespace NanoCpu

open Em

/-- The events of a path. -/
theorem Program.Follows.getElem {P : Program} {p : Point} {W : List Event → Answer} {l : List Event}
    (h : P.Follows p W l) {k : ℕ} (hk : k < l.length) :
    l[k]? = some (P.event (p.run (l.take k)) (W (l.take k))) ∧
      l.take (k + 1) = l.take k ++ [P.event (p.run (l.take k)) (W (l.take k))] := by
  have htake : ∀ j ≤ l.length, l.take j = P.path p W j := by
    intro j hj
    have hp : P.path p W j <+: l := by
      rw [h]
      simpa using Program.path_isPrefix (P := P) (p := p) (W := W) hj
    have := List.prefix_iff_eq_take.1 hp
    rw [this, Program.length_path]
  have hs : l.take (k + 1) = l.take k ++ [P.event (p.run (l.take k)) (W (l.take k))] := by
    rw [htake k (by omega), htake (k + 1) hk, Program.path]
  refine ⟨?_, hs⟩
  have hget : (l.take (k + 1))[k]? = _ := congrArg (·[k]?) hs
  rw [List.getElem?_take_of_lt (Nat.lt_succ_self k), List.getElem?_append_right (by simp)] at hget
  rw [hget]
  simp [Nat.min_eq_left hk.le]

/-! ### The emulator, step by step -/

namespace Em.StepCpu

variable {ι : Type} (A : Setup ι)

/-- `CPU::run_step`, and the step that the checker takes. -/
def runStep (difftest : Bool) (c : StepCpu ι) : Option (StepCpu ι) :=
  (c.step A c.pc difftest A.event).map fun r => { r.cpu with pc := r.npc }

/-- The emulator after `k` instructions, none if it has stopped. -/
def after (difftest : Bool) (c : StepCpu ι) : ℕ → Option (StepCpu ι)
  | 0 => some c
  | k + 1 => (after difftest c k).bind (runStep A difftest)

/-- The instruction links into its own base register, which holds another address than the next
one. -/
def LinksBase (c : StepCpu ι) (insn : Word) : Prop :=
  Op.ofCode (opcode insn) = some .jmp ∧ rd insn = rs1 insn ∧ rd insn ≠ 0 ∧
    c.getReg (rs1 insn) ≠ c.pc + 4

instance (c : StepCpu ι) (insn : Word) : Decidable (c.LinksBase insn) :=
  inferInstanceAs (Decidable (_ ∧ _))

end Em.StepCpu

/-- An event and a step of the emulator agree in what the program does not decide: the instruction
is executed, it is not the jump that the levels execute differently, and the value that it gets from
outside is the one that the emulator gets; or an exception is taken, to the same address. -/
def Event.AgreesWith {ι : Type} (P : Program) (c : StepCpu ι) (r : Stepped ι) : Event → Prop
  | .commit d ans => r.event.excp = false ∧ r.event.insn = P (c.pc.extractLsb' 2 30) ∧
      (d.isMem = true → d.lrdWe = true → ans = r.cpu.getReg d.lrd) ∧
      ¬ c.LinksBase (P (c.pc.extractLsb' 2 30)) ∧ r.npc.toNat % 4 = 0
  | .except tgt => r.event.excp = true ∧ r.npc = Epu.pcWord tgt

theorem Epu.extractLsb'_pcWord (pc : Pc) : (Epu.pcWord pc).extractLsb' 2 30 = pc := by
  refine BitVec.eq_of_getLsbD_eq fun i hi => ?_
  rw [BitVec.getLsbD_extractLsb', Epu.pcWord, BitVec.getLsbD_append]
  simp [hi, show ¬ 2 + i < 2 by omega]

/-! ### The registers after a step -/

namespace Em

variable {c : Cpu} {C : Config} {M : MsrCode} {pc insn : Word} {r : Step}

theorem Cpu.getReg_congr {c c' : Cpu} (h : c.r = c'.r) : c.getReg = c'.getReg := by
  funext l
  rw [Cpu.getReg, Cpu.getReg, h]

theorem Cpu.setReg_r (c : Cpu) (l : LReg) (v : Word) :
    (c.setReg l v).r = if l = 0 then c.r else Function.update c.r l v := by
  rw [Cpu.setReg]
  split_ifs <;> rfl

theorem Cpu.getReg_setReg (c : Cpu) {l : LReg} (hl : l ≠ 0) (v : Word) :
    (c.setReg l v).getReg = Function.update c.getReg l v := by
  funext i
  simp only [Cpu.getReg, Cpu.setReg, if_neg hl]
  by_cases hi : i = l
  · subst hi
    rw [if_neg hl, Function.update_self, Function.update_self]
  · rw [Function.update_of_ne hi, Function.update_of_ne hi, Cpu.getReg]

/-- The file of a destination that is written, or of none. -/
theorem Cpu.getReg_of_r {c' : Cpu} {d : DecInsn} (hw : d.WellFormed) {v : Word}
    (h : c'.r = if d.lrdWe then Function.update c.r d.lrd v else c.r) :
    c'.getReg = if d.lrdWe then Function.update c.getReg d.lrd v else c.getReg := by
  cases hd : d.lrdWe with
  | false =>
      rw [hd, if_neg Bool.false_ne_true] at h
      rw [if_neg Bool.false_ne_true, Cpu.getReg_congr h]
  | true =>
      have hl := hw.we_lrd hd
      rw [hd, if_pos rfl] at h
      rw [if_pos rfl, ← Cpu.getReg_setReg c hl]
      refine Cpu.getReg_congr ?_
      rw [h, Cpu.setReg_r, if_neg hl]

/-- A step that leaves by an exception keeps the registers. -/
theorem Cpu.execute_handle (h : c.execute C M pc insn = some r) (he : r.exit = .handleException) :
    r.cpu.r = c.r := by
  have haccess : ∀ {size : ℕ} {store : Bool} {k : Word → Bool → Step},
      c.accessMem C pc insn size store k = some r → (∀ pa u, (k pa u).exit ≠ .handleException) →
        r.cpu.r = c.r := by
    intro size store k hr hk
    rw [Cpu.accessMem] at hr
    split at hr
    · cases hr
    · split at hr
      · rw [← Option.some.inj hr]
        rfl
      · rw [← Option.some.inj hr]
        rfl
      · rw [← Option.some.inj hr] at he
        exact absurd he (hk _ _)
  have hbreak : ∀ c' : Cpu, (c'.break_ pc).exit ≠ .handleException := fun c' h' => by cases h'
  cases ho : Op.ofCode (opcode insn) with
  | none =>
      rw [Cpu.execute, ho] at h
      rw [← Option.some.inj h]
      rfl
  | some op =>
      cases hacc : op.access with
      | some a =>
          rw [Cpu.execute_access ho (show op.access = some (a.1, a.2.1, a.2.2) from hacc)] at h
          refine haccess h fun pa u => ?_
          split
          · exact hbreak _
          · exact hbreak _
      | none =>
          rw [Cpu.execute, ho] at h
          cases op
          case jmp | jmpI | jmpILnk =>
            rw [← Option.some.inj h] at he
            cases he
          case beq | bne | bgt | bgtu | ble | bleu =>
            simp only at h
            split at h <;> rw [← Option.some.inj h] at he <;> cases he
          case ldwu | stw | ldhu | ldh | sth | ldbu | ldb | stb => cases hacc
          case barr =>
            rw [← Option.some.inj h] at he
            cases he
          case syscall =>
            simp only at h
            split at h
            · cases h
            · rw [← Option.some.inj h]
              rfl
          case rete => rw [← Option.some.inj h]
          all_goals
            obtain ⟨v, -, hv⟩ := Option.map_eq_some_iff.1 h
            rw [← hv] at he
            cases he

/-- An arithmetic instruction is executed only with a count that C++ defines. -/
theorem shiftBelow_of_execute {op : Op} (ho : Op.ofCode (opcode insn) = some op)
    (ha : op.isAlu = true) (h : c.execute C M pc insn = some r) : ShiftBelow c insn := by
  have hv : ∃ v, c.value M insn op = some v := by
    rw [Cpu.execute, ho] at h
    cases op <;> first
      | exact Bool.noConfusion ha
      | exact (Option.map_eq_some_iff.1 h).imp fun _ hv => hv.1
  obtain ⟨v, hv⟩ := hv
  have hshift : ∀ {f : ℕ → Word} {b : Word}, Cpu.shift f b = some v → b.toNat < 32 := by
    intro f b hb
    rw [Cpu.shift] at hb
    split_ifs at hb with hlt
    exact hlt
  rw [ShiftBelow, ho]
  cases op <;> first
    | trivial
    | exact hshift hv

/-- The instructions of loads, stores, barriers and MSRs for the decoder. -/
def Op.isMem : Op → Bool
  | .barr | .wmsr | .rmsr => true
  | op => op.access.isSome

/-- The instructions that the decoder knows. -/
def Op.isDecoded (op : Op) : Bool :=
  op.isAlu || op.isTransfer || op.isMem || op == .syscall || op == .rete

/-- What the decoder makes of an instruction that accesses memory or an MSR. -/
theorem memInsn_of_op {op : Op} {w : Word} (hop : Op.ofCode (opcode w) = some op)
    (hm : op.isMem = true) (pc : Pc) (upd : BpuUpd) :
    let d := idDec true w false false false pc upd
    d.isMem = true ∧ d.bru.any = false ∧ d.lrd = rd w ∧
      d.lrdWe = (!(op == .barr || op == .wmsr || (op.access.map Prod.fst).getD false) &&
        d.lrd != 0) := by
  intro d
  have h := opcode_of_some hop
  have hi : idInst true w false false false = w := rfl
  refine ⟨?_, ?_, ?_, ?_⟩
  · change ((opcDec (w.extractLsb' 5 7)).lsu.any || (opcDec (w.extractLsb' 5 7)).epu.any) = true
    rw [h]
    cases op <;> first | exact Bool.noConfusion hm | rfl
  · change (opcDec (w.extractLsb' 5 7)).bru.any = false
    rw [h]
    cases op <;> first | exact Bool.noConfusion hm | rfl
  · rw [rd_eq]
    simp only [d, idDec, hi, h]
    cases op <;> first | exact Bool.noConfusion hm | rfl
  · simp only [d, idDec, hi, h]
    cases op <;> first | exact Bool.noConfusion hm | rfl

/-- The other opcodes are illegal for the decoder. -/
theorem einsn_of_not_isDecoded {op : Op} {w : Word} (hop : Op.ofCode (opcode w) = some op)
    (hd : op.isDecoded = false) (pc : Pc) (upd : BpuUpd) :
    (idDec true w false false false pc upd).fe.einsn = true := by
  have h := opcode_of_some hop
  have hi : idInst true w false false false = w := rfl
  simp only [idDec, hi, h]
  cases op <;> first | exact Bool.noConfusion hd | rfl

/-- An instruction without a branch goes on at the next address. -/
theorem nextPc_of_not_bru {d : DecInsn} (hb : d.bru.any = false) (regs : LReg → Word) :
    d.nextPc regs = d.pc + 1 := by
  rw [DecInsn.nextPc, Opp.actualNext, Opp.branch_of_not_any (o := d.opp) hb]
  rfl

section Commit

variable {pc : Pc} {op : Op} {ans : Word}

/-- An arithmetic instruction. -/
theorem Cpu.execute_alu (ho : Op.ofCode (opcode insn) = some op) (ha : op.isAlu = true)
    (h : c.execute C M (Epu.pcWord pc) insn = some r)
    (hfe : (idDec true insn false false false pc noUpd).fe.any = false) :
    r.cpu.getReg = (idDec true insn false false false pc noUpd).step c.getReg ans ∧
      r.pcNxt = Epu.pcWord ((idDec true insn false false false pc noUpd).nextPc c.getReg) := by
  have hword : AluWord insn := by
    intro o hop
    rw [ho] at hop
    rwa [← Option.some.inj hop]
  obtain ⟨st, hst, -, hr, hn, -⟩ :=
    alu_agrees C M c insn pc noUpd hword (shiftBelow_of_execute ho ha h)
  obtain rfl := Option.some.inj (h.symm.trans hst)
  have hi := aluInsn_of_op ha (opcode_of_some ho) pc noUpd
  have hexc : ((idDec true insn false false false pc noUpd).exec c.getReg).exc = false := by
    change (true && (idDec true insn false false false pc noUpd).fe.any) = false
    rw [hfe]
    rfl
  refine ⟨(Cpu.getReg_of_r (idDec_wellFormed _ _ _ _ _ _ _) hr).trans ?_,
    (hn hexc).trans (congrArg _ (DecInsn.exec_seTgt _ _))⟩
  rw [DecInsn.step, DecInsn.result, DecInsn.isMem, hi.lsu, hi.epu]
  rfl

/-- The base of a jump holds the address of a word if the next address is one. -/
theorem Cpu.aligned_of_jmp (ho : Op.ofCode (opcode insn) = some .jmp)
    (h : c.execute C M (Epu.pcWord pc) insn = some r)
    (hbase : ¬ (rd insn = rs1 insn ∧ rd insn ≠ 0 ∧ c.getReg (rs1 insn) ≠ Epu.pcWord pc + 4))
    (hal : r.pcNxt.toNat % 4 = 0) : (c.getReg (rs1 insn)).toNat % 4 = 0 := by
  rw [Cpu.execute, ho] at h
  rw [← Option.some.inj h] at hal
  change ((c.setReg (rd insn) (Epu.pcWord pc + 4)).getReg (rs1 insn)).toNat % 4 = 0 at hal
  by_cases h0 : rd insn = 0
  · rwa [Cpu.setReg, if_pos h0] at hal
  · rw [Cpu.getReg_setReg c h0] at hal
    by_cases hr : rd insn = rs1 insn
    · -- it holds the next address
      rw [← hr, Function.update_self] at hal
      have heq : c.getReg (rs1 insn) = Epu.pcWord pc + 4 := by
        by_contra hne
        exact hbase ⟨hr, h0, hne⟩
      rwa [heq]
    · rwa [Function.update_of_ne (Ne.symm hr)] at hal

/-- A control transfer. -/
theorem Cpu.execute_transfer (ho : Op.ofCode (opcode insn) = some op) (ht : op.isTransfer = true)
    (h : c.execute C M (Epu.pcWord pc) insn = some r)
    (hbase : ¬ (op = .jmp ∧ rd insn = rs1 insn ∧ rd insn ≠ 0 ∧
      c.getReg (rs1 insn) ≠ Epu.pcWord pc + 4)) (hal : r.pcNxt.toNat % 4 = 0) :
    r.cpu.getReg = (idDec true insn false false false pc noUpd).step c.getReg ans ∧
      r.pcNxt = Epu.pcWord ((idDec true insn false false false pc noUpd).nextPc c.getReg) := by
  have hi := bruInsn_of_op ht (opcode_of_some ho) pc noUpd
  have hb : op = .jmp → (c.getReg (rs1 insn)).toNat % 4 = 0 := by
    rintro rfl
    exact Cpu.aligned_of_jmp ho h (fun hne => hbase ⟨rfl, hne⟩) hal
  obtain ⟨st, hst, -, hn, hr⟩ := (transfer_agrees_iff C M c insn op pc noUpd ho ht hb).2 hbase
  obtain rfl := Option.some.inj (h.symm.trans hst)
  refine ⟨(Cpu.getReg_of_r (idDec_wellFormed _ _ _ _ _ _ _) hr).trans ?_,
    hn.trans (congrArg _ (DecInsn.exec_seTgt _ _))⟩
  rw [DecInsn.step, DecInsn.result, DecInsn.isMem, hi.lsu, hi.epu]
  rfl

/-- The value of an instruction that gets it from outside. -/
theorem step_of_setReg {d : DecInsn} {v : Word} (hm : d.isMem = true) (hrd : d.lrd = rd insn)
    (hwe : d.lrdWe = (d.lrd != 0)) (hr : r.cpu = c.setReg (rd insn) v)
    (hans : d.isMem = true → d.lrdWe = true → ans = r.cpu.getReg d.lrd) :
    r.cpu.getReg = d.step c.getReg ans := by
  by_cases h0 : rd insn = 0
  · rw [DecInsn.step, hwe, hrd, h0, hr, Cpu.setReg, if_pos h0]
    rfl
  · have hd : d.lrdWe = true := by
      rw [hwe, hrd, bne_iff_ne]
      exact h0
    have ha : ans = v := by
      rw [hans hm hd, hr, Cpu.getReg_setReg c h0, hrd, Function.update_self]
    rw [DecInsn.step, hd, if_pos rfl, DecInsn.result, hm, if_pos rfl, hr,
      Cpu.getReg_setReg c h0, hrd, ha]

/-- A load, a store, a barrier or a read of an MSR. -/
theorem Cpu.execute_mem (ho : Op.ofCode (opcode insn) = some op) (hm : op.isMem = true)
    (hw : op ≠ .wmsr)
    (h : c.execute C M (Epu.pcWord pc) insn = some r) (he : r.exit ≠ .handleException)
    (hans : (idDec true insn false false false pc noUpd).isMem = true →
      (idDec true insn false false false pc noUpd).lrdWe = true →
        ans = r.cpu.getReg (idDec true insn false false false pc noUpd).lrd) :
    r.cpu.getReg = (idDec true insn false false false pc noUpd).step c.getReg ans ∧
      r.pcNxt = Epu.pcWord ((idDec true insn false false false pc noUpd).nextPc c.getReg) := by
  obtain ⟨hmem, hbru, hrd, hwe⟩ := memInsn_of_op ho hm pc noUpd
  have hnext : Epu.pcWord ((idDec true insn false false false pc noUpd).nextPc c.getReg) =
      Epu.pcWord pc + 4 := by
    rw [nextPc_of_not_bru hbru]
    exact Epu.pcWord_succ pc
  rw [hnext]
  have hkeep : (idDec true insn false false false pc noUpd).lrdWe = false → r.cpu.r = c.r →
      r.cpu.getReg = (idDec true insn false false false pc noUpd).step c.getReg ans := by
    intro hd hr
    rw [DecInsn.step, hd, if_neg Bool.false_ne_true, Cpu.getReg_congr hr]
  cases hacc : op.access with
  | some a =>
      obtain ⟨st, sz, sg⟩ := a
      rw [Cpu.execute_access ho hacc, Cpu.accessMem] at h
      rw [hacc] at hwe
      split at h
      · cases h
      · split at h
        · rw [← Option.some.inj h] at he
          exact absurd rfl he
        · rw [← Option.some.inj h] at he
          exact absurd rfl he
        · rename_i pa u _
          have hwm : (op == .barr || op == .wmsr) = false := by
            cases op <;> first | exact absurd rfl hw | cases hacc; done | rfl
          have hwe' : (idDec true insn false false false pc noUpd).lrdWe =
              (!st && (idDec true insn false false false pc noUpd).lrd != 0) := by
            rw [hwe, hwm]
            rfl
          cases st with
          | true =>
              rw [if_pos rfl] at h
              refine ⟨hkeep hwe' ?_, ?_⟩ <;> rw [← Option.some.inj h]
              · cases u <;> rfl
              · rfl
          | false =>
              rw [if_neg Bool.false_ne_true] at h
              refine ⟨step_of_setReg hmem hrd hwe'
                (congrArg Step.cpu (Option.some.inj h)).symm hans, ?_⟩
              rw [← Option.some.inj h]
              rfl
  | none =>
      rw [hacc] at hwe
      rw [Cpu.execute, ho] at h
      cases op <;> first
        | exact absurd rfl hw
        | exact Bool.noConfusion hm
        | cases hacc; done
        | skip
      case barr =>
        rw [← Option.some.inj h] at hkeep ⊢
        exact ⟨hkeep hwe rfl, rfl⟩
      case rmsr =>
        obtain ⟨v, -, hv⟩ := Option.map_eq_some_iff.1 h
        refine ⟨step_of_setReg hmem hrd hwe (congrArg Step.cpu hv).symm hans, ?_⟩
        rw [← hv]
        rfl

/-- **An instruction that both levels execute** does the same to the registers and goes on at the
same address, if what it gets from outside is the same. -/
theorem Cpu.execute_commit (h : c.execute C M (Epu.pcWord pc) insn = some r)
    (he : r.exit ≠ .handleException) (hw : Op.ofCode (opcode insn) ≠ some .wmsr)
    (hfe : (idDec true insn false false false pc noUpd).fe.any = false)
    (hbase : ¬ (Op.ofCode (opcode insn) = some .jmp ∧ rd insn = rs1 insn ∧ rd insn ≠ 0 ∧
      c.getReg (rs1 insn) ≠ Epu.pcWord pc + 4))
    (hal : r.pcNxt.toNat % 4 = 0)
    (hans : (idDec true insn false false false pc noUpd).isMem = true →
      (idDec true insn false false false pc noUpd).lrdWe = true →
        ans = r.cpu.getReg (idDec true insn false false false pc noUpd).lrd) :
    r.cpu.getReg = (idDec true insn false false false pc noUpd).step c.getReg ans ∧
      r.pcNxt = Epu.pcWord ((idDec true insn false false false pc noUpd).nextPc c.getReg) := by
  cases ho : Op.ofCode (opcode insn) with
  | none =>
      rw [Cpu.execute, ho] at h
      rw [← Option.some.inj h] at he
      exact absurd rfl he
  | some op =>
      rw [ho, Option.some.injEq] at hbase
      have hw' : op ≠ .wmsr := fun h' => hw (by rw [ho, h'])
      cases halu : op.isAlu with
      | true => exact Cpu.execute_alu ho halu h hfe
      | false =>
          cases htr : op.isTransfer with
          | true => exact Cpu.execute_transfer ho htr h hbase hal
          | false =>
              cases hmem : op.isMem with
              | true => exact Cpu.execute_mem ho hmem hw' h he hans
              | false =>
                  exfalso
                  cases hdec : op.isDecoded with
                  | false =>
                      have := einsn_of_not_isDecoded ho hdec pc noUpd
                      simp [Fe.any, this] at hfe
                  | true =>
                      -- a system call or a return leaves by an exception
                      rw [Cpu.execute, ho] at h
                      cases op <;> first
                        | exact Bool.noConfusion halu
                        | exact Bool.noConfusion htr
                        | exact Bool.noConfusion hmem
                        | exact Bool.noConfusion hdec
                        | skip
                      case syscall =>
                        simp only at h
                        split at h
                        · cases h
                        · rw [← Option.some.inj h] at he
                          exact he rfl
                      case rete =>
                        rw [← Option.some.inj h] at he
                        exact he rfl

end Commit

/-! ### One step of the emulator -/

/-- The code behind the cache operations leaves the registers as they are. -/
structure CacheCode.KeepsRegs (K : CacheCode) : Prop where
  icInvalidate : ∀ c v, (K.icInvalidate c v).r = c.r
  dcInvalidate : ∀ c v, (K.dcInvalidate c v).r = c.r
  dcFlush : ∀ c v, (K.dcFlush c v).r = c.r

@[simp] theorem MsrCpu.irqcSetInterrupt_toCpu (c : MsrCpu) (ch : ℕ) (b : Bool) :
    (c.irqcSetInterrupt ch b).toCpu = c.toCpu := by
  unfold MsrCpu.irqcSetInterrupt
  split_ifs <;> rfl

@[simp] theorem MsrCpu.tscUpdateTcr_toCpu (c : MsrCpu) (C : MsrConfig) :
    (c.tscUpdateTcr C).toCpu = c.toCpu := by
  simp [MsrCpu.tscUpdateTcr]

@[simp] theorem MsrCpu.tscClk_toCpu (c : MsrCpu) (C : MsrConfig) :
    (c.tscClk C).toCpu = c.toCpu := by
  unfold MsrCpu.tscClk
  split_ifs <;> simp

/-- A write of an MSR keeps the registers. -/
theorem MsrCpu.wmsr_r {c c' : MsrCpu} {C : MsrConfig} {K : CacheCode} (hK : K.KeepsRegs)
    {i : BitVec 16} {v : Word} (h : c.wmsr C K i v = some c') : c'.r = c.r := by
  have hset : ∀ r, (c.setMsr C K r v).r = c.r := by
    intro r
    cases r <;> first
      | exact hK.icInvalidate _ _
      | exact hK.dcInvalidate _ _
      | exact hK.dcFlush _ _
      | exact congrArg Cpu.r (MsrCpu.tscUpdateTcr_toCpu _ _)
      | rfl
  unfold MsrCpu.wmsr at h
  split at h
  · rw [← Option.some.inj h]
  · rw [← Option.some.inj h]
  · rw [← Option.some.inj h]
    split_ifs
    · exact hset _
    · rfl
  · split_ifs at h
    rw [← Option.some.inj h]

namespace StepCpu

variable {ι : Type} {A : Setup ι} {c : StepCpu ι} {r : Stepped ι} {e : ArchEvent}

theorem leave_excp {s : Step} (he : e.excp = false) :
    (c.leave e s).event.excp = decide (s.exit = .handleException) := by
  rw [leave]
  by_cases h : s.exit = .handleException <;> simp [h, he]

/-- A step raises an exception in front of the instruction, or it executes the word that it has
fetched. -/
theorem step_cases {b : Bool} (h : c.step A c.pc b e = some r) :
    (r.event.excp = true ∧ r.cpu.r = c.r) ∨
      ∃ (c' : StepCpu ι) (insn : Word), c'.toCpu = c.toCpu ∧
        c'.decodeExecute A c.pc insn ⟨insn, false⟩ = some r := by
  obtain ⟨c₁, hc₁, h⟩ : ∃ c₁ : StepCpu ι, c₁.toCpu = c.toCpu ∧
      (if c₁.irqcHandleIrqs then
          some (c₁.leave { e with excp := false } (c₁.toCpu.stepRaise A.C c.pc 0 .eirq))
        else c₁.stepInsn A c.pc { e with excp := false }) = some r := by
    cases b with
    | false =>
        refine ⟨{ c with toMsrCpu := c.tscClk A.C }, MsrCpu.tscClk_toCpu c.toMsrCpu A.C, ?_⟩
        rw [← h, step, if_neg Bool.false_ne_true]
    | true =>
        refine ⟨c, rfl, ?_⟩
        rw [← h, step, if_pos rfl]
  have hr : c₁.toCpu.r = c.r := congrArg Cpu.r hc₁
  split at h
  · rw [← Option.some.inj h]
    exact Or.inl ⟨rfl, hr⟩
  · rw [stepInsn] at h
    split at h
    · rw [← Option.some.inj h]
      exact Or.inl ⟨rfl, hr⟩
    · rw [← Option.some.inj h]
      exact Or.inl ⟨rfl, hr⟩
    · split at h
      · cases h
      · refine Or.inr ⟨_, _, ?_, h⟩
        exact hc₁

variable {insn : Word} {pc : Pc} {ans : Word}

/-- An exception keeps the registers. -/
theorem decodeExecute_excp (h : c.decodeExecute A (Epu.pcWord pc) insn e = some r)
    (he : e.excp = false) (hr : r.event.excp = true) : r.cpu.r = c.r := by
  rw [decodeExecute] at h
  split at h
  · obtain ⟨c', -, hc'⟩ := Option.map_eq_some_iff.1 h
    rw [← hc', he] at hr
    cases hr
  · obtain ⟨s, hs, hl⟩ := Option.map_eq_some_iff.1 h
    rw [← hl, leave_excp he, decide_eq_true_eq] at hr
    rw [← hl]
    exact Cpu.execute_handle hs hr

theorem decodeExecute_insn {pc : Word} (h : c.decodeExecute A pc insn e = some r) :
    r.event.insn = e.insn := by
  rw [decodeExecute] at h
  split at h
  · obtain ⟨c', -, hc'⟩ := Option.map_eq_some_iff.1 h
    rw [← hc']
  · obtain ⟨s, -, hl⟩ := Option.map_eq_some_iff.1 h
    rw [← hl, leave]
    split_ifs <;> rfl

/-- An instruction that is executed. -/
theorem decodeExecute_commit (hK : A.K.KeepsRegs)
    (h : c.decodeExecute A (Epu.pcWord pc) insn e = some r) (he : e.excp = false)
    (hr : r.event.excp = false)
    (hfe : (idDec true insn false false false pc noUpd).fe.any = false)
    (hbase : ¬ (Op.ofCode (opcode insn) = some .jmp ∧ rd insn = rs1 insn ∧ rd insn ≠ 0 ∧
      c.getReg (rs1 insn) ≠ Epu.pcWord pc + 4)) (hal : r.npc.toNat % 4 = 0)
    (hans : (idDec true insn false false false pc noUpd).isMem = true →
      (idDec true insn false false false pc noUpd).lrdWe = true →
        ans = r.cpu.getReg (idDec true insn false false false pc noUpd).lrd) :
    r.cpu.getReg = (idDec true insn false false false pc noUpd).step c.getReg ans ∧
      r.npc = Epu.pcWord ((idDec true insn false false false pc noUpd).nextPc c.getReg) := by
  rw [decodeExecute] at h
  split at h
  · rename_i hw
    obtain ⟨c', hc', hr'⟩ := Option.map_eq_some_iff.1 h
    rw [wmsr] at hc'
    obtain ⟨c'', hc'', hc'⟩ := Option.map_eq_some_iff.1 hc'
    obtain ⟨-, hbru, -, hwe⟩ := memInsn_of_op hw rfl pc noUpd
    rw [← hr', ← hc']
    constructor
    · rw [DecInsn.step, hwe]
      exact Cpu.getReg_congr (MsrCpu.wmsr_r hK hc'')
    · rw [nextPc_of_not_bru hbru]
      exact (Epu.pcWord_succ pc).symm
  · rename_i hw
    obtain ⟨s, hs, hl⟩ := Option.map_eq_some_iff.1 h
    rw [← hl, leave_excp he, decide_eq_false_iff_not] at hr
    rw [← hl] at hal hans ⊢
    exact Cpu.execute_commit hs hr hw hfe hbase hal hans

/-- **One event**: a step of the emulator that agrees with it does the same to the registers and
goes on at the same address. -/
theorem step_event (hK : A.K.KeepsRegs) {P : Program} {b : Bool} {p : Point} {a : Answer}
    (hregs : c.getReg = p.regs) (hpc : c.pc = Epu.pcWord p.pc)
    (h : c.step A c.pc b A.event = some r) (ha : (P.event p a).AgreesWith P c r)
    (hfe : ∀ d ans, P.event p a = .commit d ans → d.fe.any = false) :
    r.cpu.getReg = (p.after (P.event p a)).regs ∧ r.npc = Epu.pcWord
    (p.after (P.event p a)).pc := by
  cases a with
  | commit ans =>
      obtain ⟨he, hi, hans, hbase, hal⟩ := ha
      rw [hpc, Epu.extractLsb'_pcWord] at hi hbase
      rcases step_cases h with ⟨hx, -⟩ | ⟨c', insn, hr', hd⟩
      · rw [hx] at he
        cases he
      · have hregs' : c'.getReg = p.regs := (Cpu.getReg_congr (congrArg Cpu.r hr')).trans hregs
        obtain rfl : insn = P p.pc := (decodeExecute_insn hd).symm.trans hi
        rw [hpc] at hd
        rw [LinksBase, hregs, hpc, ← hregs'] at hbase
        have := decodeExecute_commit hK hd rfl he (hfe _ _ rfl) hbase hal hans
        rwa [hregs'] at this
  | except tgt =>
      obtain ⟨he, hn⟩ := ha
      refine ⟨?_, hn⟩
      rcases step_cases h with ⟨-, hr⟩ | ⟨c', insn, hr', hd⟩
      · exact (Cpu.getReg_congr hr).trans hregs
      · rw [hpc] at hd
        exact (Cpu.getReg_congr ((decodeExecute_excp hd rfl he).trans (congrArg Cpu.r hr'))).trans
          hregs

variable {b : Bool} {P : Program} {W : List Event → Answer} {p : Point} {l : List Event}
  {c₀ : StepCpu ι}

variable (A b P) in
/-- The emulator takes the next step, and agrees with the event. -/
def Agrees (c : StepCpu ι) (e : Event) : Prop :=
  ∃ r, c.step A c.pc b A.event = some r ∧ e.AgreesWith P c r

instance (c : StepCpu ι) (r : Stepped ι) : (e : Event) → Decidable (e.AgreesWith P c r)
  | .commit d ans => by
      unfold Event.AgreesWith
      infer_instance
  | .except tgt => inferInstanceAs (Decidable (r.event.excp = true ∧ r.npc = Epu.pcWord tgt))

instance (c : StepCpu ι) (e : Event) : Decidable (c.Agrees A b P e) :=
  match h : c.step A c.pc b A.event with
  | none => isFalse fun ⟨_, hr, _⟩ => nomatch h.symm.trans hr
  | some r => decidable_of_iff (e.AgreesWith P c r)
      ⟨fun ha => ⟨r, h, ha⟩, fun ⟨_, hr, ha⟩ => Option.some.inj (h.symm.trans hr) ▸ ha⟩

/-- **A path and the emulator**: as long as the emulator agrees with the events it has the registers
and the address of the path. -/
theorem after_run (hK : A.K.KeepsRegs) (hl : P.Follows p W l)
    (hfe : ∀ d ans, .commit d ans ∈ l → d.fe.any = false) (hregs : c₀.getReg = p.regs)
    (hpc : c₀.pc = Epu.pcWord p.pc) {k : ℕ} (hk : k ≤ l.length)
    (hA : ∀ j < k, ∀ e c, l[j]? = some e → c₀.after A b j = some c → c.Agrees A b P e) :
    ∃ c, c₀.after A b k = some c ∧ c.getReg = (p.run (l.take k)).regs ∧
      c.pc = Epu.pcWord (p.run (l.take k)).pc := by
  induction k with
  | zero => exact ⟨c₀, rfl, hregs, hpc⟩
  | succ k ih =>
      obtain ⟨c, hc, hr, hp⟩ := ih (by omega) fun j hj => hA j (by omega)
      obtain ⟨hget, htake⟩ := hl.getElem (k := k) (by omega)
      obtain ⟨r, hstep, ha⟩ := hA k (by omega) _ c hget hc
      obtain ⟨h₁, h₂⟩ := step_event hK hr hp hstep ha fun d ans hd =>
        hfe d ans (hd ▸ List.mem_of_getElem? hget)
      refine ⟨{ r.cpu with pc := r.npc }, ?_, ?_⟩
      · rw [after, hc, Option.bind_some, runStep, hstep, Option.map_some]
      · rw [htake, Point.run_snoc]
        exact ⟨h₁, h₂⟩

end StepCpu

end Em

/-! ### The core on a program -/

namespace Core

variable {n : ℕ} [NeZero n] {C : CoreCfg} {s : Core n} {x : CoreIn} {h : CoreLog}
  {pcRst : Pc} {u : Bpu}
  {w : IqWord} {z : RInsn} {P : Program} {q : Core n × CoreLog} {l : List Event}

/-- The core on a program, with what commit has done. -/
def onProgram (n : ℕ) [NeZero n] (C : CoreCfg) (pcRst : Pc) (u : Bpu) (w : IqWord) (z : RInsn)
    (P : Program) : Machine ((Core n × CoreLog) × List Event) CoreIn :=
  (observed n C pcRst u w z).observe [] (fun l q x => l ++ events C q.1 q.2 x) fun _ q x =>
    Fetched P C q.1 x

/-- The answers that a list of events has got. -/
def answersOf (l : List Event) (l' : List Event) : Answer :=
  (l[l'.length]?.map Event.answer).getD (.commit 0)

/-- A run gets the answers that it gets. -/
theorem running_of_onProgram (hr : (onProgram n C pcRst u w z P).Reach (q, l)) {L : List Event}
    (hL : l <+: L) : (running n C pcRst u w z P (answersOf L)).Reach (q, l) := by
  have key : ∀ r, (onProgram n C pcRst u w z P).Reach r → r.2 <+: L →
      (running n C pcRst u w z P (answersOf L)).Reach r := by
    intro r hr
    induction hr with
    | reset => exact fun _ => Machine.Reach.reset
    | @tick r x _ hx ih =>
        intro hL
        have hpre : r.2 <+: L := (List.prefix_append _ _).trans hL
        refine Machine.Reach.tick (ih hpre) ⟨hx.1, hx.2, fun k e he => ?_⟩
        have hlt : k < (events C r.1.1 r.1.2 x).length := (List.getElem?_eq_some_iff.1 he).1
        have hget : L[(r.2 ++ (events C r.1.1 r.1.2 x).take k).length]? = some e := by
          obtain ⟨L', rfl⟩ := hL
          rw [List.length_append, List.length_take_of_le hlt.le]
          change (r.2 ++ events C r.1.1 r.1.2 x ++ L')[r.2.length + k]? = some e
          rw [List.append_assoc, List.getElem?_append_right (Nat.le_add_right _ _),
            Nat.add_sub_cancel_left, List.getElem?_append_left hlt, he]
        rw [answersOf, hget]
        exact e.gets_answer
  exact key _ hr hL

/-- What commits raises no exception. -/
theorem fe_of_onProgram (hP : 1 ≤ C.P) (hr : (onProgram n C pcRst u w z P).Reach (q, l)) :
    ∀ d ans, .commit d ans ∈ l → d.fe.any = false := by
  have key : (observed n C pcRst u w z).Reach q ∧ ∀ d ans, .commit d ans ∈ l →
      d.fe.any = false := by
    refine Machine.Reach.inv (M := onProgram n C pcRst u w z P)
      (P := fun r => (observed n C pcRst u w z).Reach r.1 ∧ ∀ d ans, .commit d ans ∈ r.2 →
        d.fe.any = false) ⟨Machine.Reach.reset, fun d ans hm => by cases hm⟩ ?_ hr
    rintro ⟨⟨s, h⟩, l⟩ x ⟨hq, hl⟩ ⟨hx, -⟩
    refine ⟨Machine.Reach.tick hq hx, fun d ans hm => ?_⟩
    obtain ⟨-, ht, -⟩ := feeds_of_reach hP hq
    rcases List.mem_append.1 hm with hm | hm
    · exact hl d ans hm
    · cases hf : s.flush C x with
      | true =>
          rw [events, hf, if_pos rfl] at hm
          split_ifs at hm
          · cases hm
          · rw [List.mem_singleton] at hm
            cases hm
      | false =>
          rw [events_of_move hf, List.mem_map] at hm
          obtain ⟨i, hi, he⟩ := hm
          rw [List.mem_range] at hi
          injection he with he
          rw [← he]
          exact (Backend.inv_of_reach ht).fe_of_fire (x := s.beIn x)
            (lt_of_lt_of_le hi Cmt.popSize_le) (Backend.fire_of_lt hi)
  exact key.2

/-- Where the core goes on when what has committed is done. -/
def goesOn (s : Core n) (h : CoreLog) : Pc :=
  if s.be.cmt.seFls then s.be.cmt.seTgt else IqWord.after h.log.start h.log.word h.trace.log.head

/-- The instruction is that of the program at the address of the emulator. -/
def SameInsn {ι : Type} (P : Program) (c : StepCpu ι) : Event → Prop
  | .commit d _ => d = P.insn (c.pc.extractLsb' 2 30)
  | .except _ => True

/-- **The core and the emulator in lockstep.**  In every run of the core on a program, as long as
the emulator agrees with what the program does not decide, it executes the instructions that commit,
and then has the registers and the next address of the core. -/
theorem lockstep {ι : Type} {A : Setup ι} (hK : A.K.KeepsRegs) {b : Bool} {c₀ : StepCpu ι}
    (hP : 1 ≤ C.P)
    (hr : (onProgram n C pcRst u w z P).Reach ((s, h), l)) (hpc : c₀.pc = Epu.pcWord pcRst)
    (hz : ∀ i, c₀.getReg i = 0)
    (hA : ∀ k e c, l[k]? = some e → c₀.after A b k = some c → c.Agrees A b P e) :
    (∃ c, c₀.after A b l.length = some c ∧ c.getReg = s.be.archRegs ∧
      c.pc = Epu.pcWord (s.goesOn h)) ∧
      ∀ k e, l[k]? = some e → ∃ c, c₀.after A b k = some c ∧ SameInsn P c e := by
  have hp := path_of_reach hP (running_of_onProgram hr List.prefix_rfl)
  have hfe := fe_of_onProgram hP hr
  have hrun : ∀ {k}, k ≤ l.length → _ := fun {k} hk =>
    StepCpu.after_run (A := A) (b := b) hK hp.follows hfe (funext hz) hpc hk fun j _ => hA j
  constructor
  · obtain ⟨c, hc, h₁, h₂⟩ := hrun le_rfl
    rw [List.take_length] at h₁ h₂
    exact ⟨c, hc, h₁.trans hp.regs, h₂.trans (congrArg _ hp.pc)⟩
  · intro k e he
    have hk : k < l.length := (List.getElem?_eq_some_iff.1 he).1
    obtain ⟨c, hc, -, h₂⟩ := hrun hk.le
    obtain ⟨hget, -⟩ := hp.follows.getElem hk
    refine ⟨c, hc, ?_⟩
    obtain rfl := Option.some.inj (he.symm.trans hget)
    cases answersOf l (l.take k) with
    | commit a =>
        change P.insn _ = P.insn (c.pc.extractLsb' 2 30)
        rw [h₂, Epu.extractLsb'_pcWord]
    | except t => exact trivial

/-! ### A load, a store and a branch -/

/-- The core on the program without what is asked is the core on the program. -/
theorem onProgram_of_running {W : List Event → Answer} {r : (Core n × CoreLog) × List Event}
    (hr : (running n C pcRst u w z P W).Reach r) : (onProgram n C pcRst u w z P).Reach r := by
  induction hr with
  | reset => exact Machine.Reach.reset
  | tick _ hx ih => exact Machine.Reach.tick ih ⟨hx.1, hx.2.1⟩

end Core

/-- A memory with the word `v` at every address below the reset vector, and the program from there
on. -/
def Program.bytes (P : Program) (v : Word) : Bytes := fun a =>
  ((if a < 0x30000000 then v else P (a.extractLsb' 2 30)) >>> (8 * (a.toNat % 4))).setWidth 8

namespace Core

/-- The emulator at reset with the program `mixed`, which loads the word 0x11223344. -/
def mixedStart : StepCpu Unit :=
  { MsrCpu.zero.reset with mem := mixed.bytes 0x11223344, icache := (), pc := 0x30000000 }

/-- The core and the emulator on the program `mixed`. -/
theorem mixed_run :
    (∀ e ∈ (timed Frontend.bpuRst mixed 0x11223344 26).1.2, e.Gets (.commit 0x11223344)) ∧
      (timed Frontend.bpuRst mixed 0x11223344 26).1.2.length = 4 ∧
      (timed Frontend.bpuRst mixed 0x11223344 26).1.1.1.be.archRegs 2 = 0x11223345 ∧
      (timed Frontend.bpuRst mixed 0x11223344 26).1.1.1.goesOn
        (timed Frontend.bpuRst mixed 0x11223344 26).1.1.2 = 0xc000005 ∧
      ∀ k < 4, ∀ e ∈ (timed Frontend.bpuRst mixed 0x11223344 26).1.2[k]?,
        ∀ c ∈ mixedStart.after Dpi.plainSetup false k, c.Agrees Dpi.plainSetup false mixed e := by
  decide +kernel

/-- The load, the instruction that takes its value, the store and the branch: the emulator has the
registers of the core behind them, and goes on at the target of the branch. -/
theorem lockstep_mixed :
    ∃ c, mixedStart.after Dpi.plainSetup false 4 = some c ∧
      c.getReg = (timed Frontend.bpuRst mixed 0x11223344 26).1.1.1.be.archRegs ∧
        c.getReg 2 = 0x11223345 ∧ c.pc = 0x30000014 := by
  obtain ⟨hget, hl, h2, hgo, hA⟩ := mixed_run
  have hr := timed_reach hget
  clear hget
  revert hr hl h2 hgo hA
  generalize (timed Frontend.bpuRst mixed 0x11223344 26).1 = r
  obtain ⟨⟨s, h⟩, l⟩ := r
  intro hl h2 hgo hA hr
  have hl' : l.length = 4 := hl
  obtain ⟨c, hc, hregs, hpc⟩ := (lockstep (A := Dpi.plainSetup) (b := false)
    ⟨fun _ _ => rfl, fun _ _ => rfl, fun _ _ => rfl⟩ (by decide) (onProgram_of_running hr)
    (show mixedStart.pc = Epu.pcWord 0xc000000 from rfl) (fun i => by decide +revert)
    fun k e c he hc => hA k (hl' ▸ (List.getElem?_eq_some_iff.1 he).1) e he c hc).1
  rw [hl'] at hc
  refine ⟨c, hc, hregs, (congrFun hregs 2).trans h2, ?_⟩
  rw [hpc, show s.goesOn h = 0xc000005 from hgo]
  rfl

end Core

end NanoCpu
