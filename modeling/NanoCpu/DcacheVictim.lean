/-
**The victim of a D-cache miss.**

The way that a miss replaces is the one that the clock shows in the cycle of the miss; the clock
goes on in the next cycle, and the second stage keeps the way.  An observer notes the cache and the
memory in that cycle, as it does for the operations of the cache.  What the state machine then does
is done to that one way: its tag is replaced, its line is written back if it was dirty, the beats of
the new line go to it, and so do the bytes of the store that was waiting.

Main definitions:

* `DcOp.victim`, `DcOp.victimSlot` — the way of the clock, and its slot in the set of the access;
* `DcOp.Filling` — how far a miss has come, `DcOp.Filled` — what it has done;
* `DcOp.VictimKept` — the write enables and the bus in every state of a miss;
* `Dcache.misses` — the cache under any requests, with an observer of its misses.

Main results:

* `Dcache.filling_of_reach` — what the observer's note says;
* `Dcache.set_invariants` — **dirty ways are valid, a tag matches one way at most, and a miss keeps
  its victim**.
-/

import NanoCpu.DcacheOps

set_option relaxedAutoImplicit false
set_option autoImplicit false
set_option linter.unusedSectionVars false

namespace NanoCpu

open WriteBack

namespace DcOp

variable {n : ℕ} [NeZero n] (S : ℕ) (o : DcOp n)

/-- The way that the clock shows. -/
def victim : Fin n := pmux o.cache.freeWay id

/-- The slot of that way in the set of the access. -/
def victimSlot : Fin n × Fin (2 ^ S) := (o.victim, Dcache.setFin S o.addr)

/-- The memory with the line of the victim written back, if it was dirty. -/
def writtenBack (l : ℕ) : Fin 64 → Byte :=
  if (o.cache.contents S).dirty (o.victimSlot S) = true ∧
      (o.cache.contents S).line (o.victimSlot S) = some l then
    (o.cache.contents S).data (o.victimSlot S)
  else lineMem o.mem.mem l

/-- The victim's slot has been given to the line of the access, and the first `k` bytes of it are
there. -/
def FilledTo (s : Dcache n) (m : AxiMem) (k : ℕ) : Prop :=
  ∃ d, s.contents S =
      ((o.cache.contents S).evict (o.victimSlot S) (o.addr / 64)).setData (o.victimSlot S) d ∧
    ∀ i : Fin 64, (i : ℕ) < k → d i = lineMem m.mem (o.addr / 64) i

/-- **What a miss has done** when the cache is idle again.  The victim's slot has the line of the
access as memory has it, with the bytes of the store; no other slot has changed; memory has the line
of a dirty victim and is otherwise unchanged. -/
structure Filled (s : Dcache n) (m : AxiMem) : Prop where
  line : (s.contents S).line = Function.update (o.cache.contents S).line (o.victimSlot S)
    (some (o.addr / 64))
  other : ∀ b ≠ o.victimSlot S, (s.contents S).dirty b = (o.cache.contents S).dirty b ∧
    (s.contents S).data b = (o.cache.contents S).data b
  data : (s.contents S).data (o.victimSlot S) = lineMem ((o.cache.hitAccess o.inp).apply m.mem)
    (o.addr / 64)
  dirty : o.cache.s1o.wmsk ≠ 0 → (s.contents S).dirty (o.victimSlot S) = true
  mem : ∀ l, lineMem m.mem l = o.writtenBack S l

/-- How far a miss has come. -/
def Filling (s : Dcache n) (m : AxiMem) : Prop :=
  match s.state with
  | .replace => o.Kept S s ∧ m.mem = o.mem.mem
  | .writeback => s.s2o = o.cache.s2oNxt S o.inp ∧ s.s2o.fls = false ∧
      s.contents S = (o.cache.contents S).evict (o.victimSlot S) (o.addr / 64) ∧
      (o.cache.contents S).dirty (o.victimSlot S) = true ∧
      ∃ v, (o.cache.contents S).line (o.victimSlot S) = some v ∧ s.Sends S m o.victim v ∧
        ∀ l, l ≠ v → lineMem m.mem l = lineMem o.mem.mem l
  | .refill => s.s2o = o.cache.s2oNxt S o.inp ∧ s.arAddr = o.addr / 64 * 64 ∧
      o.FilledTo S s m s.refillCnt ∧ ∀ l, lineMem m.mem l = o.writtenBack S l
  | .reload => s.s2o = o.cache.s2oNxt S o.inp ∧ o.FilledTo S s m 64 ∧
      ∀ l, lineMem m.mem l = o.writtenBack S l
  | .idle => o.Filled S s m
  | _ => False

/-- **A miss keeps its victim.**  In each state: whose tag is written and with what, whose line is
sent and where to, which way takes the beats, and which the bytes of the store. -/
structure VictimKept (s : Dcache n) (m : AxiMem) : Prop where
  selected : ∀ w, o.cache.freeWay w = decide (w = o.victim)
  tag : s.state = .replace → (∀ w, s.s1iTagVWe w = decide (w = o.victim)) ∧
    s.s1iReplaceTagV S = (Dcache.tagOf S o.addr, true) ∧ ∀ x, s.s1iLineAddr S x =
      Dcache.setOf S o.addr
  writeback : s.state = .writeback → (∀ w, s.s2iWbWay w = decide (w = o.victim)) ∧
    m.w = AxiBurst.beats (Dcache.wordBeat ((o.cache.contents S).data (o.victimSlot S))) m.w.length ∧
    ∃ v, (o.cache.contents S).line (o.victimSlot S) = some v ∧ s.awAddr = 64 * v
  refill : s.state = .refill → ∀ x w, s.s2iPayloadWe S x w = if w = o.victim then 0b1111 else 0
  reload : s.state = .reload → ∀ x w, s.s2iDWe S x w = decide (w = o.victim) ∧
    s.s2iPayloadWe S x w = if w = o.victim then o.cache.s1o.wmsk else 0
  filled : s.state = .idle → o.Filled S s m

end DcOp

namespace Dcache

variable {n : ℕ} [NeZero n] {S : ℕ} {s : Dcache n} {m : AxiMem} {x : DcIn n} {m₀ : ℕ → Byte}
  {pay : Fin n → ℕ × ℕ → ℕ → Byte} {o : DcOp n}

/-- An access misses in this cycle. -/
def missesIn (S : ℕ) (s : Dcache n) (x : DcIn n) : Bool := decide (s.stateNxt S x = .replace)

/-- What the observer notes in a cycle. -/
def noteMiss (S : ℕ) (g : Option (DcOp n)) (s : Dcache n) (m : AxiMem) (x : DcIn n) :
    Option (DcOp n) :=
  if s.missesIn S x then some ⟨s, m, x⟩ else if s.state = .idle then none else g

/-- The cache under any requests, with an observer of its misses. -/
def misses (n : ℕ) [NeZero n] (S : ℕ) (pay : Fin n → ℕ × ℕ → ℕ → Byte) (m₀ : ℕ → Byte) :
    Machine ((Dcache n × AxiMem) × Option (DcOp n)) (DcIn n) :=
  (machine n S pay m₀).observe none (fun g q x => noteMiss S g q.1 q.2 x) fun _ q x => q.1.Alone x

/-! ### The victim -/

/-- The second stage has the way of the clock. -/
theorem way_of_s2o (hk : s.s2o = o.cache.s2oNxt S o.inp) {fw : Fin n} (h : s.Missed S fw) :
    fw = o.victim := by
  have hfree : o.cache.freeWay = s.s2o.fsmFreeWay := by
    rw [hk]
    rfl
  rw [DcOp.victim, hfree]
  exact (pmux_of_unique h.way id).symm

theorem slot_of_s2o (hk : s.s2o = o.cache.s2oNxt S o.inp) : s.slot S o.victim = o.victimSlot S := by
  rw [slot, DcOp.victimSlot, hk]
  rfl

theorem paddr_of_s2o (hk : s.s2o = o.cache.s2oNxt S o.inp) : s.s2o.paddr.toNat = o.addr := by
  rw [hk]
  rfl

/-- Only an idle cycle goes on with a replacement. -/
theorem idle_of_replace (hn : s.stateNxt S x = .replace) : s.state = .idle := by
  by_contra hidle
  cases hst : s.state with
  | idle => exact hidle hst
  | boot | replace | refill | writeback | invalidate | reload | flush | uncachedBoot | uncachedRead
  | uncachedWrite =>
      rw [stateNxt, hst] at hn
      dsimp only at hn
      first | cases hn | (split_ifs at hn)

/-- The cycle of a miss. -/
theorem filling_start (h : s.Shape S m) (hs : s.missesIn S x = true) :
    (⟨s, m, x⟩ : DcOp n).Filling S (s.next S x) (m.next s.axiOut x.axi) := by
  have hn : (s.next S x).state = .replace := of_decide_eq_true hs
  have hst : s.state = .idle := idle_of_replace hn
  have hb := h.bus
  rw [Bus, hst] at hb
  rw [DcOp.Filling, hn]
  rcases idle_steps (S := S) (x := x) hst with ⟨-, hn', -⟩ | ⟨-, -, hn'⟩ | ⟨hready, -⟩ |
    ⟨-, -, -, -, hn'⟩ | ⟨-, -, -, -, -, -, hn'⟩ | ⟨-, -, -, -, -, -, hn'⟩
  case inr.inr.inl => exact ⟨kept_next_idle hst hready, hb.write.mem_next⟩
  all_goals
    rw [hn] at hn'
    cases hn'

/-! ### The cycles of a miss -/

/-- The cycle in which the tag is replaced. -/
theorem filling_next_replace (h : s.Shape S m) (hp : o.Filling S s m) (hst : s.state = .replace)
    (ha : m.Answers x.axi) : o.Filling S (s.next S x) (m.next s.axiOut x.axi) := by
  have hb := h.bus
  have hstage := h.stage
  rw [Bus, hst] at hb
  rw [Stage, hst] at hstage
  rw [DcOp.Filling, hst] at hp
  obtain ⟨hk, hm⟩ := hp
  obtain ⟨fw, hmiss, -, -, hfd, hft⟩ := hstage
  obtain rfl : fw = o.victim := way_of_s2o hk.s2o hmiss
  have hs2 : (s.next S x).s2o = o.cache.s2oNxt S o.inp :=
    (next_s2o_of_stall (by simp [hst])).trans hk.s2o
  have hc : (s.next S x).contents S = (o.cache.contents S).evict (o.victimSlot S)
      (o.addr / 64) := by
    rw [contents_next_replace hmiss hst, hk.contents, slot_of_s2o hk.s2o, hk.paddr]
  have hmem : (m.next s.axiOut x.axi).mem = o.mem.mem := hb.write.mem_next.trans hm
  have hdirty : (o.cache.contents S).dirty (o.victimSlot S) = s.s2o.freeDirty := by
    rw [hfd, hk.contents, slot_of_s2o hk.s2o]
  have hstn : (s.next S x).state = s.stateNxt S x := rfl
  rw [DcOp.Filling, hstn, stateNxt, hst]
  cases hfd' : s.s2o.freeDirty with
  | false =>
      obtain ⟨-, -, -, -, hcnt⟩ := BusQuiet.next_ar (S := S) hb ha (by simp [arSet, hst, hfd'])
        (by simp [awSet, hst, hfd']) (by simp [hst])
      refine ⟨hs2, ?_, ?_, fun l => ?_⟩
      · change ldff (s.arSet x) (s.axiPaddrNxt S) _ = _
        rw [← hk.paddr]
        simp [arSet, axiPaddrNxt, fsmUncachedReq, awSet, hst, hfd']
      · refine ⟨(o.cache.contents S).data (o.victimSlot S), ?_, fun i hi => ?_⟩
        · rw [hc]
          simp [Contents.setData, Contents.evict]
        · rw [hcnt] at hi
          exact absurd hi (Nat.not_lt_zero _)
      · rw [hmem, DcOp.writtenBack, if_neg]
        rw [hdirty, hfd']
        simp
  | true =>
      have haw : s.awSet = true := by simp [awSet, hst, hfd']
      have hv := victim_line h.ok hmiss hft (by rw [← hfd, hfd'])
      rw [hk.contents, slot_of_s2o hk.s2o] at hv
      have hmiss' := (hmiss.next (x := x) (by simp [hst])).1
      have hway : ∀ w, (s.next S x).s2iWbWay w = decide (w = o.victim) := by
        intro w
        rw [s2iWbWay, hmiss'.fls, if_neg Bool.false_ne_true, hmiss'.way]
      refine ⟨hs2, by rw [hs2, ← hk.s2o, hmiss.fls], hc, by rw [hdirty, hfd'], _, hv,
        Sends.start hb ha haw (Or.inl hst) hway ?_,
        fun l _ => by rw [hmem]⟩
      rw [axiPaddrNxt]
      simp [fsmUncachedReq, haw, hst, Nat.mul_comm]

/-- A cycle of the write-back of the victim. -/
theorem filling_next_writeback (h : s.Shape S m) (hp : o.Filling S s m) (hst : s.state = .writeback)
    (ha : m.Answers x.axi) : o.Filling S (s.next S x) (m.next s.axiOut x.axi) := by
  have hb := h.bus
  rw [Bus, hst] at hb
  rw [DcOp.Filling, hst] at hp
  obtain ⟨hk, hfls, hc, hd, v, hv, hsend, hm⟩ := hp
  obtain ⟨k, hb⟩ := hb
  have hs2 : (s.next S x).s2o = o.cache.s2oNxt S o.inp :=
    (next_s2o_of_stall (by simp [hst])).trans hk
  have hc' : (s.next S x).contents S = (o.cache.contents S).evict (o.victimSlot S) (o.addr / 64) :=
    (contents_next (s2iReady_of_state (by simp [hst])) (by simp [hst])).trans hc
  have hm' : ∀ l, l ≠ v → lineMem (m.next s.axiOut x.axi).mem l = lineMem o.mem.mem l :=
    fun l hl => (hsend.mem_next hb hl).trans (hm l hl)
  rw [DcOp.Filling]
  rcases hb.next (S := S) hst ha with ⟨hB, hn, -⟩ | ⟨-, -, hf, -⟩ | ⟨hB, rfl, -, hn, hb'⟩
  · rw [hn]
    exact ⟨hs2, by rw [hs2, ← hk, hfls], hc', hd, v, hv, hsend.next hst hb hB, hm'⟩
  · rw [hfls] at hf
    cases hf
  · -- all bytes of the victim are in memory
    rw [hn]
    refine ⟨hs2, ?_, ?_, fun l => ?_⟩
    · change ldff (s.arSet x) (s.axiPaddrNxt S) _ = _
      rw [show s.arSet x = true by simp [arSet, hst, hB, hfls], ← paddr_of_s2o hk]
      simp [axiPaddrNxt, fsmUncachedReq, hst]
    · refine ⟨(o.cache.contents S).data (o.victimSlot S), ?_, fun i hi => ?_⟩
      · rw [hc']
        simp [Contents.setData, Contents.evict]
      · rw [hb'.refillCnt] at hi
        exact absurd hi (Nat.not_lt_zero _)
    · rw [DcOp.writtenBack, hv]
      by_cases hl : l = v
      · rw [hl, if_pos ⟨hd, rfl⟩, hsend.landed hb ha hB, slot_of_s2o hk, hc, Contents.evict_data]
      · rw [if_neg fun h' => hl (Option.some.inj h'.2).symm, hm' l hl]

/-- A cycle of the refill: a beat goes to the victim's slot, behind those that are there. -/
theorem filling_next_refill (h : s.Shape S m) (hp : o.Filling S s m) (hst : s.state = .refill)
    (ha : m.Answers x.axi) : o.Filling S (s.next S x) (m.next s.axiOut x.axi) := by
  have hb := h.bus
  have hstage := h.stage
  rw [Bus, hst] at hb
  rw [Stage, hst] at hstage
  rw [DcOp.Filling, hst] at hp
  obtain ⟨hk, har, ⟨d, hc, hd⟩, hm⟩ := hp
  obtain ⟨c, hb⟩ := hb
  obtain ⟨fw, hrepl, -⟩ := hstage
  obtain rfl : fw = o.victim := way_of_s2o hk hrepl.toMissed
  have hs2 : (s.next S x).s2o = o.cache.s2oNxt S o.inp :=
    (next_s2o_of_stall (by simp [hst])).trans hk
  have hmem : (m.next s.axiOut x.axi).mem = m.mem := hb.write.mem_next
  have hm' : ∀ l, lineMem (m.next s.axiOut x.axi).mem l = o.writtenBack S l := by
    intro l
    rw [hmem]
    exact hm l
  have har' : (s.next S x).arAddr = o.addr / 64 * 64 := by
    change ldff (s.arSet x) _ _ = _
    rw [show s.arSet x = false by simp [arSet, hst]]
    exact har
  have hc' : (s.next S x).contents S =
      ((o.cache.contents S).evict (o.victimSlot S) (o.addr / 64)).setData (o.victimSlot S) fun i =>
        if (i : ℕ) / 4 = c then x.axi.rData (4 * (c % 2) + i % 4) else d i := by
    rw [contents_next_refill hrepl.toMissed hst hb.refillCnt, slot_of_s2o hk, hc]
    simp [Contents.setData]
  have hold : ∀ i : Fin 64, (i : ℕ) < 4 * c →
      (if (i : ℕ) / 4 = c then x.axi.rData (4 * (c % 2) + i % 4) else d i) =
        lineMem (m.next s.axiOut x.axi).mem (o.addr / 64) i := by
    intro i hi
    rw [if_neg (by omega), hmem]
    exact hd i (by rw [hb.refillCnt]; exact hi)
  have hnew : s.hdsAxiR x = true → ∀ i : Fin 64, (i : ℕ) < 4 * c + 4 →
      (if (i : ℕ) / 4 = c then x.axi.rData (4 * (c % 2) + i % 4) else d i) =
        lineMem (m.next s.axiOut x.axi).mem (o.addr / 64) i := by
    intro hR i hi
    by_cases hlt : (i : ℕ) < 4 * c
    · exact hold i hlt
    · rw [if_pos (by omega), hmem]
      exact hb.rData_eq ha hR har (by omega) hi
  rw [DcOp.Filling]
  rcases hb.next (S := S) hst ha with ⟨-, hn, hb'⟩ | ⟨hR, -, hn, hb'⟩ | ⟨hR, rfl, hn, -⟩ <;> rw [hn]
  · exact ⟨hs2, har', ⟨_, hc', fun i hi => hold i (by rwa [hb'.refillCnt] at hi)⟩, hm'⟩
  · exact ⟨hs2, har', ⟨_, hc', fun i hi => hnew hR i (by rw [hb'.refillCnt] at hi; omega)⟩, hm'⟩
  · exact ⟨hs2, ⟨_, hc', fun i hi => hnew hR i (by omega)⟩, hm'⟩

/-- The cycle after the refill, in which the store is performed. -/
theorem filling_next_reload (h : s.Shape S m) (hp : o.Filling S s m) (hst : s.state = .reload) :
    o.Filling S (s.next S x) (m.next s.axiOut x.axi) := by
  have hb := h.bus
  have hstage := h.stage
  rw [Bus, hst] at hb
  rw [Stage, hst] at hstage
  rw [DcOp.Filling, hst] at hp
  obtain ⟨hk, ⟨d, hc, hd⟩, hm⟩ := hp
  obtain ⟨fw, hrepl, -⟩ := hstage
  obtain rfl : fw = o.victim := way_of_s2o hk hrepl.toMissed
  have hn : (s.next S x).state = .idle := by
    change s.stateNxt S x = _
    simp [stateNxt, hst]
  have hacc : s.missAccess = o.cache.hitAccess o.inp := by
    rw [missAccess, hk]
    rfl
  have hmem : (m.next s.axiOut x.axi).mem = m.mem := hb.write.mem_next
  have hslot : ∀ b : Fin n × Fin (2 ^ S),
      b.1 = o.victim ∧ (b.2 : ℕ) = setOf S o.addr ↔ b = o.victimSlot S := by
    intro b
    rw [Prod.ext_iff, Fin.ext_iff (a := b.2)]
    rfl
  have hwr := (wrote_reload (x := x) hrepl.toMissed hst).1
  rw [hacc] at hwr
  have hline : ((s.next S x).contents S).line = (s.contents S).line := by
    simp only [contents, hwr.tagV]
  have hdirty : ∀ b, ((s.next S x).contents S).dirty b = if b = o.victimSlot S then
      s.s2o.d o.victim || decide (o.cache.s1o.wmsk ≠ 0) else (s.contents S).dirty b := by
    intro b
    rw [← if_congr (hslot b) rfl rfl]
    exact hwr.d b.1 b.2
  have hdata : ∀ b i, ((s.next S x).contents S).data b i = if b = o.victimSlot S ∧
      (i : ℕ) / 4 = wordOf o.addr ∧ o.cache.s1o.wmsk.getLsbD (i % 4) = true then
        byteOf o.cache.s1o.wdat (i % 4)
      else (s.contents S).data b i := by
    intro b i
    refine (hwr.pay b.1 (b.2, i / 4) (i % 4)).trans (if_congr ?_ rfl rfl)
    rw [Prod.mk.injEq, ← hslot b]
    constructor
    · rintro ⟨h₁, h₂, h₃, h₄⟩
      exact ⟨⟨h₁, h₃⟩, h₄, h₂⟩
    · rintro ⟨⟨h₁, h₃⟩, h₄, h₂⟩
      exact ⟨h₁, h₂, h₃, h₄⟩
  rw [DcOp.Filling, hn]
  refine ⟨?_, fun b hb' => ⟨?_, ?_⟩, ?_, fun hw => ?_, fun l => by rw [hmem]; exact hm l⟩
  · rw [hline, hc]
    rfl
  · rw [hdirty, if_neg hb', hc]
    simp [Contents.setData, Contents.evict, hb']
  · funext i
    rw [hdata, if_neg fun h' => hb' h'.1, hc]
    simp [Contents.setData, Contents.evict, hb']
  · funext i
    refine Eq.trans ?_ (lineMem_apply_self (o.cache.hitAccess o.inp) _ i).symm
    rw [hdata, hc, Contents.setData_data, Function.update_self, hd i i.isLt, hmem]
    exact if_congr (by simp [hitAccess, DcOp.addr]) rfl rfl
  · rw [hdirty, if_pos rfl, decide_eq_true hw, Bool.or_true]

theorem filling_next (h : s.Shape S m) (hp : o.Filling S s m) (hst : s.state ≠ .idle)
    (ha : m.Answers x.axi) : o.Filling S (s.next S x) (m.next s.axiOut x.axi) := by
  cases hs : s.state
  case idle => exact absurd hs hst
  case replace => exact filling_next_replace h hp hs ha
  case writeback => exact filling_next_writeback h hp hs ha
  case refill => exact filling_next_refill h hp hs ha
  case reload => exact filling_next_reload h hp hs
  all_goals
    rw [DcOp.Filling, hs] at hp
    exact hp.elim

/-! ### All cycles -/

/-- The cache is in order, and the miss that the observer has noted is going on or done. -/
theorem filling_of_reach (hS : S ≤ 7) {g : Option (DcOp n)}
    (hr : (misses n S pay m₀).Reach ((s, m), g)) :
    s.Shape S m ∧ ∀ o, g = some o → o.cache.Shape S o.mem ∧ o.Filling S s m := by
  refine Machine.Reach.inv (P := fun q => q.1.1.Shape S q.1.2 ∧
    ∀ o, q.2 = some o → o.cache.Shape S o.mem ∧ o.Filling S q.1.1 q.1.2) ?_ ?_ hr
  · refine ⟨shape_reset pay m₀, fun o ho => ?_⟩
    cases ho
  · rintro ⟨⟨s, m⟩, g⟩ x ⟨h, hg⟩ ⟨ha, hx⟩
    refine ⟨h.next hS hx ha, fun o ho => ?_⟩
    change noteMiss S g s m x = some o at ho
    change _ ∧ o.Filling S (s.next S x) (m.next s.axiOut x.axi)
    rw [noteMiss] at ho
    split_ifs at ho with hs hst
    · rw [Option.some_inj] at ho
      rw [← ho]
      exact ⟨h, filling_start h hs⟩
    · exact ⟨(hg o ho).1, filling_next h (hg o ho).2 hst ha⟩

/-- What the write enables and the bus say of the victim. -/
theorem victimKept_of_filling (h : s.Shape S m) (h₀ : o.cache.Shape S o.mem)
    (hp : o.Filling S s m) : o.VictimKept S s m := by
  have hstage := h.stage
  rw [Stage] at hstage
  rw [DcOp.Filling] at hp
  refine ⟨?_, fun hst => ?_, fun hst => ?_, fun hst x w => ?_, fun hst x w => ?_, fun hst => ?_⟩
  · obtain ⟨k, hk⟩ := h₀.free
    rw [DcOp.victim, pmux_of_unique hk]
    exact hk
  · rw [hst] at hstage hp
    obtain ⟨fw, hmiss, -⟩ := hstage
    obtain rfl : fw = o.victim := way_of_s2o hp.1.s2o hmiss
    refine ⟨fun w => ?_, ?_, fun x => ?_⟩
    · simp [s1iTagVWe, hst, hmiss.way]
    · rw [s1iReplaceTagV, if_pos hst, hp.1.paddr]
    · rw [← hp.1.paddr, ← hmiss.lineAddr]
      simp [s1iLineAddr, hst]
  · rw [hst] at hp
    obtain ⟨hk, -, hc, -, v, hv, hsend, -⟩ := hp
    refine ⟨hsend.way, ?_, v, hv, hsend.addr⟩
    have hw := hsend.w
    rwa [hc, Contents.evict_data, slot_of_s2o hk] at hw
  · rw [hst] at hstage hp
    obtain ⟨fw, hrepl, -⟩ := hstage
    obtain rfl : fw = o.victim := way_of_s2o hp.1 hrepl.toMissed
    have hready : s.s2iReady S x = false := s2iReady_of_state (by simp [hst])
    simp [s2iPayloadWe, s2iPayloadTgtWe, hready, hst, hrepl.way]
  · rw [hst] at hstage hp
    obtain ⟨fw, hrepl, -⟩ := hstage
    obtain rfl : fw = o.victim := way_of_s2o hp.1 hrepl.toMissed
    have hready : s.s2iReady S x = false := s2iReady_of_state (by simp [hst])
    have hwm : s.s2o.wmsk = o.cache.s1o.wmsk := by
      rw [hp.1]
      rfl
    constructor
    · simp [s2iDWe, hready, hst, hrepl.way]
    · simp [s2iPayloadWe, s2iPayloadTgtWe, hready, hst, hrepl.way, hwm]
  · rwa [hst] at hp

/-- **The invariants of the sets**: dirty ways are valid, at most one way of a set matches a tag,
and from the cycle of a miss on everything is done to the way that was selected in it. -/
theorem set_invariants (hS : S ≤ 7) {g : Option (DcOp n)}
    (hr : (misses n S pay m₀).Reach ((s, m), g)) :
    (∀ w, ∀ i < 2 ^ S, s.d w i = true → (s.tagV w i).2 = true) ∧
      (∀ i < 2 ^ S, ∀ t w w', s.tagV w i = (t, true) → s.tagV w' i = (t, true) → w = w') ∧
      ∀ o, g = some o → o.VictimKept S s m := by
  obtain ⟨h, hg⟩ := filling_of_reach hS hr
  refine ⟨fun w i hi hd => ?_, fun i hi t w w' hw hw' => ?_, fun o ho => ?_⟩
  · have hv := h.ok.valid (w, ⟨i, hi⟩) hd
    simp only [contents] at hv
    split_ifs at hv with ht
    · exact ht
    · cases hv
  · have hl : ∀ w, s.tagV w i = (t, true) →
        (s.contents S).line (w, ⟨i, hi⟩) = some (t * 2 ^ S + i) := by
      intro w hw
      simp [contents, hw]
    exact (Prod.mk.inj (h.ok.uniq _ _ _ (hl w hw) (hl w' hw'))).1
  · exact victimKept_of_filling h (hg o ho).1 (hg o ho).2

theorem misses_of_ops {g : Option (DcOp n)} (hr : (ops n S pay m₀).Reach ((s, m), g)) :
    ∃ g', (misses n S pay m₀).Reach ((s, m), g') := by
  have key : ∀ q, (ops n S pay m₀).Reach q → ∃ g', (misses n S pay m₀).Reach (q.1, g') := by
    intro q hq
    induction hq with
    | reset => exact ⟨none, Machine.Reach.reset⟩
    | @tick q x _ hx ih =>
        obtain ⟨g', hg⟩ := ih
        exact ⟨noteMiss S g' q.1.1 q.1.2 x, Machine.Reach.tick hg hx⟩
  exact key _ hr

/-- The first store after the boot misses. -/
theorem set_invariants_store :
    ∃ s m o, (misses 4 4 (fun _ _ _ => 0) fun _ => 0).Reach ((s, m), some o) ∧
    s.state = .replace ∧ o.cache.s1o.wmsk = 1 ∧ ∀ w, s.s1iTagVWe w = decide (w = o.victim) := by
  have hS : 4 ≤ 7 := by decide
  obtain ⟨s₀, m₀, h₀, hst₀, hr₀, ht₀, -⟩ := at_idle (n := 4) 4 (fun _ _ _ => 0) (fun _ => 0) hS
  obtain ⟨s, m, h, hst, hs, ht, -⟩ := h₀.ask hS hst₀ hr₀ (r := access 1 1 0) ⟨rfl, rfl⟩
  obtain ⟨h, hr, -⟩ := h
  obtain ⟨g, hr⟩ := ops_of_cached hS hr
  have hfresh := (progress_of_reach hS hr).1.fresh (Or.inl hst) (by rw [hs]; rfl)
  obtain ⟨g, hr⟩ := misses_of_ops hr
  have hhit : s.s2iHit 4 (quiet 4 false) = false := by
    simp [s2iHit, s2iHitVec, hfresh.tagV, ht, ht₀]
  have hn : s.missesIn 4 (quiet 4 false) = true := by
    refine decide_eq_true ?_
    rw [stateNxt, hst, hs, hhit]
    rfl
  have hnext : (misses 4 4 (fun _ _ _ => 0) fun _ => 0).Reach
      ((s.next 4 (quiet 4 false), m.next s.axiOut AxiIn.silent),
        noteMiss 4 g s m (quiet 4 false)) :=
    Machine.Reach.tick hr ⟨m.answers_silent, fun _ _ _ => rfl⟩
  rw [noteMiss, if_pos hn] at hnext
  have hst' : (s.next 4 (quiet 4 false)).state = .replace := of_decide_eq_true hn
  refine ⟨_, _, _, hnext, hst', ?_, (((set_invariants hS hnext).2.2 _ rfl).tag hst').1⟩
  change s.s1o.wmsk = 1
  rw [hs]
  rfl

end Dcache

end NanoCpu
