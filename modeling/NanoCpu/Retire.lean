/-
**The back-end executes the program in order.**

The history of the back-end is the trace beside it; nothing in the circuit reads it.  In every
reachable state the architectural registers, that is the physical registers read through the
architectural map, are those of a sequential machine that has executed the committed instructions
one after the other.

Main definitions:

* `Backend.traced` — the back-end with its trace;
* `Backend.archRegs` — the architectural registers.

Main results:

* `Backend.inv_of_reach` — the invariant holds in every reachable state;
* `Backend.ins_of_reach` — what is promised of the program holds of every instruction inside;
* `Backend.archRegs_eq` — the refinement of the sequential machine.
-/

import NanoCpu.BackendValues

set_option relaxedAutoImplicit false
set_option autoImplicit false
set_option linter.unusedSectionVars false

namespace NanoCpu

open Renaming

/-- The trace after reset; `z` stands for what is in the memories. -/
def Trace.reset (z : RInsn) : Trace := ⟨RobLog.empty fun _ => ⟨z.pay, none⟩, fun _ => z, []⟩

namespace Backend

variable {n : ℕ} [NeZero n]

/-- The back-end with its trace. -/
def traced (n : ℕ) [NeZero n] (D : ℕ) (z : RInsn) : Machine (Backend n × Trace) BackendIn :=
  (machine n D z).observe (Trace.reset z) (fun t s x => t.next D s x) fun _ _ _ => True

variable {D : ℕ} {s : Backend n} {t : Trace} {x : BackendIn} {z : RInsn}

/-- After reset all registers but zero are free, and none is mapped. -/
theorem partition_reset (z : RInsn) :
    PlacePartition (0 : PReg) (Rename.reset z).arat fun p => (Rename.reset z).afl p = true where
  inj l l' _ h := absurd rfl h
  free_iff p hp := by
    simp only [Rename.reset, bne_iff_ne, ne_eq, hp, not_false_eq_true, true_iff]
    exact fun _ h => hp h.symm
  not_free_zero := by simp [Rename.reset]

theorem inv_reset (n : ℕ) [NeZero n] (D : ℕ) (z : RInsn) : (reset n z).Inv D (Trace.reset z) := by
  have hocc : ∀ k : Loc n, ¬ (reset n z).Occ k := by
    intro k hk
    cases k <;> simp [Occ, reset, Rs.reset, ExStage.reset, WbStage.reset] at hk
  have hnum : (reset n z).nextNum (Trace.reset z) = 0 := rfl
  refine ⟨⟨Rob.rep_reset z.pay _, ?_, Nat.zero_le 2, ?_, ?_, ?_, ?_, ?_⟩, Cmt.inv_reset _ _,
    fun _ => 0, ⟨?_, ?_, ?_, ?_⟩, ⟨?_, ?_, ?_⟩⟩
  · rintro m ⟨-, hm⟩
    exact absurd hm (Nat.not_lt_zero m)
  · intro i
    rfl
  · intro i hi
    exact absurd hi (Nat.not_lt_zero i)
  · intro m _ hm
    exact absurd hm (Nat.not_lt_zero m)
  · exact (partition_reset z).chain _ 0
  · intro m _ hm
    exact absurd hm (Nat.not_lt_zero m)
  · intro k _ hk
    exact absurd hk (hocc k)
  · intro k hk
    exact absurd hk (hocc k)
  · intro k hk
    exact absurd hk (hocc k)
  · intro i hi
    cases hi
  · intro l
    exact Or.inl rfl
  · intro m _ hm
    exact absurd hm (Nat.not_lt_zero m)
  · rintro m r ⟨-, hm⟩
    exact absurd hm (Nat.not_lt_zero m)

/-- The invariant holds in every reachable state. -/
theorem inv_of_reach (h : (traced n D z).Reach (s, t)) : s.Inv D t := by
  refine Machine.Reach.inv (P := fun q => q.1.Inv D q.2) (inv_reset n D z) ?_ h
  rintro ⟨s, t⟩ x hi hx
  exact Inv.next hi hx.1

/-! ### Promises about the program -/

/-- The back-end with its trace, under a further promise. -/
def tracedIf (n : ℕ) [NeZero n] (D : ℕ) (z : RInsn) (ok : Backend n → BackendIn → Prop) :
    Machine (Backend n × Trace) BackendIn :=
  (machine n D z).observe (Trace.reset z) (fun t s x => t.next D s x) fun _ s x => ok s x

variable {ok : Backend n → BackendIn → Prop}

theorem traced_of_tracedIf {q : Backend n × Trace} (h : (tracedIf n D z ok).Reach q) :
    (traced n D z).Reach q := by
  refine Machine.Reach.map (M := tracedIf n D z ok) (N := traced n D z) id
    (fun _ x => x) rfl ?_ ?_ h
  · intro q x _ _ hx
    exact ⟨hx.1, trivial⟩
  · intro q x _
    rfl

/-- What is promised of every instruction that is delivered holds of every instruction between
rename and commit. -/
theorem ins_of_reach {P : DecInsn → Prop} (hP : ∀ s x, ok s x → ∀ i < x.rnPushSize, P (x.rnInsn i))
    (h : (tracedIf n D z ok).Reach (s, t)) {m : ℕ} (h₁ : t.log.head ≤ m) (h₂ : m < s.nextNum t) :
    P (t.ins m).d := by
  refine Machine.Reach.inv (P := fun q => ∀ m, q.2.log.head ≤ m → m < q.1.nextNum q.2 →
    P (q.2.ins m).d) ?_ ?_ h m h₁ h₂
  · intro m _ hm
    exact absurd hm (Nat.not_lt_zero m)
  · rintro ⟨s, t⟩ x hb hx m hm hm'
    change (t.next D s x).log.head ≤ m at hm
    change m < (s.next D x).nextNum (t.next D s x) at hm'
    change P ((t.next D s x).ins m).d
    cases hf : s.flush D x with
    | true =>
        rw [nextNum_next_flush hf] at hm'
        exact absurd hm' (Nat.not_lt_zero m)
    | false =>
        rw [Trace.next_head hf] at hm
        rcases lt_nextNum_cases hf hm' with h | ⟨k, hk, rfl⟩
        · rw [Trace.next_ins_of_lt h]
          exact hb m (le_trans (Nat.le_add_right _ _) hm) h
        · rw [Trace.next_ins_new hf hk]
          refine hP s x hx.2 k (lt_of_lt_of_le hk ?_)
          rw [accepted, Rename.accepted]
          split_ifs <;> omega

/-! ### The architectural registers -/

/-- The physical registers, read through the architectural map. -/
def archRegs (s : Backend n) (l : LReg) : Word := s.prf.val (s.rn.arat l)

/-- A committed instruction without its renaming. -/
def retiredOf (r : RInsn × Word) : Retired := ⟨r.1.d, r.2⟩

/-- An instruction that goes, with the answer it gets. -/
def retiredAt (D : ℕ) (s : Backend n) (t : Trace) (x : BackendIn) (i : ℕ) : Retired :=
  ⟨(t.ins (t.log.head + i)).d, s.cmt.prfWdataLsuEpu (s.cmtIn D x)⟩

/-- The instructions that go in one cycle, one after the other. -/
theorem seqFrom_retired (h : s.Inv D t) (hf : s.flush D x = false) (k : ℕ)
    (hk : k ≤ s.popSize D x) :
    seqFrom s.archRegs ((List.range k).map (s.retiredAt D t x)) = fun l =>
      (s.next D x).prf.val (mapFrom (fun m => (t.ins m).ren) s.rn.arat t.log.head k l) := by
  obtain ⟨ho, hc, num, hp, hv⟩ := h
  induction k with
  | zero =>
      funext l
      exact (val_next_of_avail ho hc hp hv (hv.arat l)).symm
  | succ k ih =>
      have hlive := (ho.live_of_lt (x := x) (i := k) (by omega)).2
      have hlt := lt_nextNum_of_live (s := s) hlive
      set m := t.log.head + k with hm
      have hwf := ho.wf m hlive.1 hlt
      rw [List.range_succ, List.map_append, seqFrom_append, ih (by omega)]
      set regs := fun l => (s.next D x).prf.val
        (mapFrom (fun m => (t.ins m).ren) s.rn.arat t.log.head k l) with hregs
      have hstep : seqFrom regs ([k].map (s.retiredAt D t x)) =
          (t.ins m).d.step regs (s.cmt.prfWdataLsuEpu (s.cmtIn D x)) := rfl
      rw [hstep, DecInsn.step]
      funext l
      rw [mapFrom, Renaming.map]
      cases hwe : (t.ins m).d.lrdWe with
      | false =>
          have : (t.ins m).ren.we = false := hwe
          simp only [← hm, this, Bool.false_eq_true, if_false]
          rfl
      | true =>
          have hren : (t.ins m).ren.we = true := hwe
          simp only [← hm, hren, if_true]
          by_cases hl : l = (t.ins m).d.lrd
          · subst hl
            rw [Function.update_self, show (t.ins m).d.lrd = (t.ins m).ren.lrd from rfl,
              Function.update_self]
            obtain ⟨hsrc, hav⟩ := avail_of_popped ho hc hp hv hf
              (show k < s.popSize D x by omega) hwe
            change _ = (s.next D x).prf.val (t.ins m).prd
            rw [← hm] at hsrc hav
            have hops : (t.ins m).d.exec regs = (t.ins m).out (s.next D x).prf.val := by
              obtain ⟨e₁, e₂⟩ := ho.src m hlive.1 hlt
              have hk' : m - t.log.head = k := by omega
              rw [hk'] at e₁ e₂
              rw [DecInsn.exec, RInsn.out, DecInsn.operand1, DecInsn.operand2, RInsn.operand1,
                RInsn.operand2, e₁, e₂]
            have hval : (s.next D x).prf.val (t.ins m).prd =
                if (t.ins m).d.isMem then s.cmt.prfWdataLsuEpu (s.cmtIn D x)
                else ((t.ins m).out s.prf.val).rfDout := by
              rcases hav with hav | hport
              · obtain ⟨hmem, -, hval⟩ := hv.prd m hlive.1 hlt hwe hav
                rw [val_next_of_avail ho hc hp hv hav, hval, hmem, if_neg Bool.false_ne_true]
              · exact val_next_of_port ho hc hp hv hlive.1 hlt hwe hport
            rw [hval, DecInsn.result]
            cases hmem : (t.ins m).d.isMem with
            | true => rfl
            | false => rw [hops, (out_next_of_srcAvail ho hc hp hv (hsrc hmem)).2.2]
          · have hl' : l ≠ (t.ins m).ren.lrd := hl
            rw [Function.update_of_ne hl, Function.update_of_ne hl']

/-- One cycle executes the committed instructions on the architectural registers. -/
theorem archRegs_next (h : s.Inv D t) :
    (s.next D x).archRegs = seqFrom s.archRegs
    ((List.range (s.popSize D x)).map (s.retiredAt D t x)) := by
  obtain ⟨ho, hc, num, hp, hv⟩ := h
  cases hf : s.flush D x with
  | true =>
      rw [popSize_of_flush hf]
      funext l
      rw [archRegs, (ho.arch_next_flush hf).1]
      exact val_next_of_avail ho hc hp hv (hv.arat l)
  | false =>
      rw [seqFrom_retired ⟨ho, hc, num, hp, hv⟩ hf _ le_rfl]
      funext l
      rw [archRegs, ho.next_arat, mapFrom_congr (f := fun m => (t.ins m).ren)]
      intro j hj
      have h₁ := ho.head_popSize_le (x := x)
      have h₂ : t.log.tail ≤ s.nextNum t := Nat.le_add_right _ _
      rw [Trace.next_ins_of_lt (by omega)]

/-- The architectural registers are those of the sequential machine. -/
theorem archRegs_eq (h : (traced n D z).Reach (s, t)) :
    s.archRegs = seqRun (t.retired.map retiredOf) := by
  have : s.Inv D t ∧ s.archRegs = seqRun (t.retired.map retiredOf) := by
    refine Machine.Reach.inv
      (P := fun q => q.1.Inv D q.2 ∧ q.1.archRegs = seqRun (q.2.retired.map retiredOf))
      ⟨inv_reset n D z, ?_⟩ ?_ h
    · funext l
      rfl
    · rintro ⟨s, t⟩ x ⟨hi, ha⟩ hx
      refine ⟨Inv.next hi hx.1, ?_⟩
      have hret : (t.next D s x).retired.map retiredOf =
          t.retired.map retiredOf ++ (List.range (s.popSize D x)).map (s.retiredAt D t x) := by
        simp [Trace.next, retiredOf, retiredAt]
      change (s.next D x).archRegs = seqRun ((t.next D s x).retired.map retiredOf)
      rw [hret, seqRun_append, ← ha]
      exact archRegs_next hi
  exact this.2

end Backend

end NanoCpu
