/-
**Every stall of a cache ends.**

While a cache boots, fetches or writes back a line, or does an access around itself, the pipeline in
front of it stands still.  The memory is only promised to be fair: what it is asked for all the time
it does in the end.  Then a cache is ready again and again, whatever it is asked to do.

Main definitions:

* `AxiWait`, `AxiMem.Grants`, `AxiMem.Fair` — what a master waits for, and a memory that does not
  starve it;
* `Icache.rank`, `Dcache.rank` — how far a cache is from being ready;
* `Icache.wait`, `Dcache.wait` — what it waits for.

Main results:

* `Icache.fetch_stall_ends`, `Dcache.access_stall_ends` — **the cache is ready again and again**.
-/

import NanoCpu.AxiDiscipline
import NanoCpu.DcacheFlat
import NanoCpu.IcacheFlat
import NanoCpu.Progress

set_option relaxedAutoImplicit false
set_option autoImplicit false

open Filter

/-! ### A fair memory -/

/-- What a master waits for. -/
inductive AxiWait
  | ar | r | aw | w | b
  deriving DecidableEq, Repr

namespace AxiMem

/-- If the memory is asked for it in this cycle it does it. -/
def Grants (m : AxiMem) (o : AxiOut) (i : AxiIn) : AxiWait → Prop
  | .ar => o.arValid = true → i.arReady = true
  | .r => m.rd.isSome = true → o.rReady = true → i.rValid = true
  | .aw => o.awValid = true → i.awReady = true
  | .w => o.wValid = true → i.wReady = true
  | .b => m.aw.isSome = true → m.wDone = true → o.bReady = true → i.bValid = true

/-- A memory that does not let its master wait for ever. -/
def Fair (m : ℕ → AxiMem) (o : ℕ → AxiOut) (i : ℕ → AxiIn) : Prop :=
  ∀ q, ∃ᶠ k in atTop, (m k).Grants (o k) (i k) q

variable {m : AxiMem} {o : AxiOut} {i : AxiIn} {b : AxiBurst} {c k : ℕ}

/-- Without a beat only the address can have been granted. -/
theorem Reads.granted (h : m.Reads o b c) (hrr : o.rReady = true)
    (hR : (i.rValid && o.rReady) = false)
    (hg : m.Grants o i (if o.arValid then .ar else .r)) : o.arValid = true ∧ i.arReady = true := by
  cases hv : o.arValid with
  | true =>
      rw [hv, if_pos rfl] at hg
      exact ⟨rfl, hg hv⟩
  | false =>
      rw [hv, if_neg Bool.false_ne_true] at hg
      have hrv := hg (by rw [h.rd, hv]; rfl) hrr
      rw [hrv, hrr] at hR
      cases hR

/-- Without a response only the address or a beat can have been granted. -/
theorem Writes.granted (h : m.Writes o b k) (hbr : o.bReady = true)
    (hB : (i.bValid && o.bReady) = false)
    (hg : m.Grants o i (if o.awValid then .aw else if o.wValid then .w else .b)) :
    (o.awValid = true ∧ i.awReady = true) ∨ (o.wValid && i.wReady) = true := by
  cases hv : o.awValid with
  | true =>
      rw [hv, if_pos rfl] at hg
      exact Or.inl ⟨rfl, hg hv⟩
  | false =>
      rw [hv, if_neg Bool.false_ne_true] at hg
      cases hw : o.wValid with
      | true =>
          rw [hw, if_pos rfl] at hg
          right
          rw [hg hw]
          rfl
      | false =>
          rw [hw, if_neg Bool.false_ne_true] at hg
          have hk : k = b.len + 1 := by
            have h₁ := h.wValid
            have h₂ := h.le
            rw [hw] at h₁
            have : ¬ k ≤ b.len := of_decide_eq_false h₁.symm
            omega
          have hbv := hg (by rw [h.mAw, hv]; rfl)
            (by rw [h.wDone, hk]; exact decide_eq_true rfl) hbr
          rw [hbv, hbr] at hB
          cases hB

/-- A prompt memory has all bytes of a burst the cycle after the last one has been sent. -/
theorem Writes.landed (h : m.Writes o b c) (ha : m.aw.isSome = true) (hd : m.wDone = true)
    (hl : m.landed = false) :
    (m.next o (AxiIn.prompt m)).wDone = true ∧ (m.next o (AxiIn.prompt m)).landed = true := by
  have hav : o.awValid = false := by
    by_contra hne
    rw [h.mAw, if_pos (Bool.eq_true_of_not_eq_false hne)] at ha
    cases ha
  have hwv : o.wValid = false := by
    have hc : c = b.len + 1 := of_decide_eq_true (h.wDone.symm.trans hd)
    rw [h.wValid, decide_eq_false_iff_not]
    omega
  have hb : (AxiIn.prompt m).bValid = false := by
    change (m.wDone && m.landed) = false
    rw [hl, Bool.and_false]
  have haw : (m.next o (AxiIn.prompt m)).aw = m.aw := by simp [AxiMem.next, hav, hb]
  have hin : (m.next o (AxiIn.prompt m)).incoming = m.incoming := by
    funext p
    rw [incoming, incoming, haw]
    simp [AxiMem.next, hwv, hb]
  refine ⟨by simp [AxiMem.next, hwv, hb, hd], landed_iff.2 ⟨by rw [haw, ha], fun p v hp => ?_⟩⟩
  rw [hin] at hp
  simp [AxiMem.next, AxiIn.prompt, hp]

/-- A prompt memory is fair, if no beat is wider than the bus. -/
theorem fair_prompt {m : ℕ → AxiMem} {o : ℕ → AxiOut} {i : ℕ → AxiIn}
    (hw : ∀ k, (m k).NoWrite (o k) ∨ ∃ b c, (m k).Writes (o k) b c)
    (hs : ∀ k b c, (m k).rd = some (b, c) → b.size ≤ 3) (hi : ∀ k, i k = AxiIn.prompt (m k))
    (hm : ∀ k, m (k + 1) = (m k).next (o k) (i k)) : Fair m o i := by
  intro q
  cases q with
  | ar => exact Frequently.of_forall fun k _ => by rw [hi k]; rfl
  | r =>
      refine Frequently.of_forall fun k hr _ => ?_
      obtain ⟨⟨b, c⟩, hbc⟩ := Option.isSome_iff_exists.1 hr
      rw [hi k]
      change ((m k).rd.any fun r => decide (r.1.size ≤ 3)) = true
      rw [hbc]
      exact decide_eq_true (hs k b c hbc)
  | aw => exact Frequently.of_forall fun k _ => by rw [hi k]; rfl
  | w => exact Frequently.of_forall fun k _ => by rw [hi k]; rfl
  | b =>
      -- of two cycles that wait for a response the second one has it
      by_contra hne
      obtain ⟨K, hK⟩ := eventually_atTop.1 (not_frequently.1 hne)
      have hwait : ∀ k, K ≤ k → (m k).aw.isSome = true ∧ (m k).wDone = true ∧
          (m k).landed = false := by
        intro k hk
        have hg := hK k hk
        simp only [Grants, hi k, not_forall] at hg
        obtain ⟨ha, hd, -, hb⟩ := hg
        refine ⟨ha, hd, ?_⟩
        change ¬ ((m k).wDone && (m k).landed) = true at hb
        rw [hd, Bool.true_and] at hb
        exact Bool.eq_false_of_not_eq_true hb
      obtain ⟨ha, hd, hl⟩ := hwait K le_rfl
      rcases hw K with h | ⟨b, c, h⟩
      · rw [h.aw] at ha
        cases ha
      · have hnext := (h.landed ha hd hl).2
        rw [← hi K, ← hm K, (hwait (K + 1) (by omega)).2.2] at hnext
        cases hnext

end AxiMem

namespace NanoCpu

/-! ### The I-cache -/

namespace Icache

variable {n : ℕ} [NeZero n] {S : ℕ} {s : Icache n} {m : AxiMem} {x : IcIn n}

/-- How far the cache is from being ready. -/
def rank (S : ℕ) (s : Icache n) : ℕ :=
  match s.state with
  | .idle => 0
  | .reload => 1
  | .refill => 2 * (8 - s.refillCnt / 8) + s.arValid.toNat + 1
  | .replace => 20
  | .uncachedRead => 2 * (4 - s.uncachedCnt / 4) + s.arValid.toNat
  | .uncachedBoot => 20
  | .invalidate => 21
  | .boot => 22 + (2 ^ S - s.bootCnt)

/-- What the cache waits for in a burst. -/
def wait (s : Icache n) : AxiWait := if s.arValid then .ar else .r

/-- A cycle of a burst brings the cache nearer, or what it waits for does not come. -/
def Nearer (S : ℕ) (s : Icache n) (m : AxiMem) (x : IcIn n) : Prop :=
  (s.next S x).rank S < s.rank S ∨
    ((s.next S x).rank S = s.rank S ∧ (s.next S x).wait = s.wait ∧ ¬ m.Grants s.axiOut x.axi s.wait)

/-- A cycle of a burst in which no beat comes. -/
theorem wait_next {b : AxiBurst} {c : ℕ} (h : m.Reads s.axiOut b c) (hR : s.hdsAxiR x = false)
    (hst : s.state = .refill ∨ s.state = .uncachedRead) (har : s.arSet x = false) :
    (s.next S x).arValid.toNat < s.arValid.toNat ∨
      ((s.next S x).arValid = s.arValid ∧ ¬ m.Grants s.axiOut x.axi s.wait) := by
  have hv : (s.next S x).arValid = (s.arValid && !x.axi.arReady) := by
    rw [next_arValid, har, Bool.false_or]
  have hrr : s.rReady = true := by rcases hst with hst | hst <;> simp [rReady, hst]
  by_cases hc : s.arValid = true ∧ x.axi.arReady = true
  · left
    rw [hv, hc.1, hc.2]
    exact Nat.zero_lt_one
  · refine Or.inr ⟨?_, fun hg => hc (h.granted hrr hR hg)⟩
    rw [hv]
    cases ha : s.arValid <;> cases hy : x.axi.arReady <;> simp_all

theorem BusRefill.nearer {c : ℕ} (h : s.BusRefill m c) (hst : s.state = .refill)
    (ha : m.Answers x.axi) : s.Nearer S m x := by
  have hc : s.refillCnt = 8 * c := h.refillCnt
  have hle : c ≤ 7 := h.read.le
  have hk : s.rank S = 2 * (8 - c) + s.arValid.toNat + 1 := by
    rw [rank, hst, hc]
    simp
  rcases h.next (S := S) hst ha with ⟨hR, hst', h'⟩ | ⟨-, hlt, hst', h'⟩ | ⟨-, -, hst', -⟩
  · have hk' : (s.next S x).rank S = 2 * (8 - c) + (s.next S x).arValid.toNat + 1 := by
      rw [rank, hst', h'.refillCnt]
      simp
    rcases wait_next (S := S) h.read hR (Or.inl hst)
      (by simp [arSet, fsmUncachedRdReq, hst]) with hv | ⟨hv, hg⟩
    · left
      omega
    · exact Or.inr ⟨by rw [hk, hk', hv], by rw [wait, wait, hv], hg⟩
  · left
    have hk' : (s.next S x).rank S = 2 * (8 - (c + 1)) + (s.next S x).arValid.toNat + 1 := by
      rw [rank, hst', h'.refillCnt]
      simp
    have := (s.next S x).arValid.toNat_le
    omega
  · left
    have hk' : (s.next S x).rank S = 1 := by rw [rank, hst']
    omega

theorem BusUncached.nearer {k : ℕ} (h : s.BusUncached m k) (hst : s.state = .uncachedRead)
    (ha : m.Answers x.axi) : s.Nearer S m x := by
  have hc : s.uncachedCnt = 4 * k := h.uncachedCnt
  have hlt := h.lt
  have hk : s.rank S = 2 * (4 - k) + s.arValid.toNat := by
    rw [rank, hst, hc]
    simp
  rcases h.next (S := S) hst ha with ⟨hR, hst', h'⟩ | ⟨-, hlt', hst', h'⟩ | ⟨-, -, hst', -⟩
  · have hk' : (s.next S x).rank S = 2 * (4 - k) + (s.next S x).arValid.toNat := by
      rw [rank, hst', h'.uncachedCnt]
      simp
    have har : s.arSet x = false := by simp [arSet, fsmUncachedRdReq, hst, hR]
    rcases wait_next (S := S) h.read hR (Or.inr hst) har with hv | ⟨hv, hg⟩
    · left
      omega
    · exact Or.inr ⟨by rw [hk, hk', hv], by rw [wait, wait, hv], hg⟩
  · left
    have hk' : (s.next S x).rank S = 2 * (4 - (k + 1)) + (s.next S x).arValid.toNat := by
      rw [rank, hst', h'.uncachedCnt]
      simp
    have hv := (s.next S x).arValid.toNat_le
    omega
  · left
    have hk' : (s.next S x).rank S = 0 := by rw [rank, hst']
    omega

/-- Every cycle outside of the idle state brings the cache nearer, or it waits. -/
theorem Bus.nearer (h : s.Bus m) (hbt : s.state = .boot → s.bootCnt < 2 ^ S) (ha : m.Answers x.axi)
    (hst : s.state ≠ .idle) : s.Nearer S m x := by
  have hr := h.reading
  have hstn : (s.next S x).state = s.stateNxt S x := rfl
  cases hs : s.state with
  | idle => exact absurd hs hst
  | refill =>
      rw [Reading, hs] at hr
      obtain ⟨c, hc⟩ := hr
      exact hc.nearer hs ha
  | uncachedRead =>
      rw [Reading, hs] at hr
      obtain ⟨k, hk⟩ := hr
      exact hk.nearer hs ha
  | reload =>
      left
      rw [rank, rank, hs, show (s.next S x).state = .idle by simp [hstn, stateNxt, hs]]
      exact Nat.zero_lt_one
  | replace =>
      left
      obtain ⟨hst', hb⟩ := BusQuiet.next_replace (S := S) (h.quiet (by simp [hs])) ha hs
      have hv := (s.next S x).arValid.toNat_le
      rw [rank, rank, hs, hst', hb.refillCnt]
      dsimp only
      omega
  | uncachedBoot =>
      left
      obtain ⟨hst', hb⟩ := BusQuiet.next_uncached (S := S) (h.quiet (by simp [hs])) ha hs
      have hv := (s.next S x).arValid.toNat_le
      rw [rank, rank, hs, hst', hb.uncachedCnt]
      dsimp only
      omega
  | invalidate =>
      left
      rw [rank, rank, hs, hstn, stateNxt, hs]
      dsimp only
      split_ifs <;> simp
  | boot =>
      left
      have hlt := hbt hs
      by_cases hl : s.bootCnt + 1 = 2 ^ S
      · rw [rank, rank, hs, hstn, stateNxt, hs]
        simp [hl]
      · rw [rank, rank, hs, hstn, stateNxt, hs]
        simp only [if_neg hl]
        rw [show (s.next S x).bootCnt = s.bootCnt + 1 from Nat.mod_eq_of_lt (by omega)]
        omega

/-- The state that the ways of a reachable cache end in. -/
theorem bus_of_reach {tagV : Fin n → ℕ → ℕ × Bool} {pay : Fin n → ℕ × ℕ → ℕ → Byte} {m₀ : ℕ → Byte}
    {q : Icache n × AxiMem} (h : (machine n S tagV pay m₀).Reach q) :
    q.1.Bus q.2 ∧ q.1.bootCnt < 2 ^ S := by
  refine h.inv (P := fun q => q.1.Bus q.2 ∧ q.1.bootCnt < 2 ^ S)
    ⟨bus_reset tagV pay m₀, Nat.two_pow_pos S⟩ fun q x hq ha => ?_
  exact ⟨hq.1.next ha, Nat.mod_lt _ (Nat.two_pow_pos S)⟩

/-- If the memory is fair the I-cache comes back from whatever it does. -/
theorem leadsTo_ready {tagV : Fin n → ℕ → ℕ × Bool} {pay : Fin n → ℕ × ℕ → ℕ → Byte} {m₀ : ℕ → Byte}
    {q : Icache n × AxiMem} {xs : ℕ → IcIn n} (hq : (machine n S tagV pay m₀).Reach q)
    (hx : (machine n S tagV pay m₀).Runs q xs)
    (hf : AxiMem.Fair (fun k => ((machine n S tagV pay m₀).after q xs k).2)
      (fun k => ((machine n S tagV pay m₀).after q xs k).1.axiOut) fun k => (xs k).axi) :
    LeadsTo (fun _ => True) fun k => ((machine n S tagV pay m₀).after q xs k).1.stallReq =
      false := by
  set M := machine n S tagV pay m₀ with hM
  have hidle : ∀ k, (M.after q xs k).1.state = .idle → (M.after q xs k).1.stallReq = false :=
    fun k h => by rw [stallReq, fsmIdle, h]; rfl
  refine LeadsTo.of_waits (fun k => (M.after q xs k).1.rank S) (fun k => (M.after q xs k).1.wait)
    (fun u k => (M.after q xs k).2.Grants (M.after q xs k).1.axiOut (xs k).axi u) hf fun k _ => ?_
  by_cases hst : (M.after q xs k).1.state = .idle
  · exact Or.inl (hidle k hst)
  · obtain ⟨hb, hlt⟩ := bus_of_reach (hM ▸ hq.after hx k)
    rcases hb.nearer (S := S) (fun _ => hlt) (hx k) hst with h | h
    · exact Or.inr (Or.inr (Or.inl ⟨trivial, h⟩))
    · exact Or.inr (Or.inr (Or.inr ⟨trivial, h⟩))

/-- **The I-cache is ready again and again**, whatever is fetched, killed and invalidated, if the
memory is fair. -/
theorem fetch_stall_ends {tagV : Fin n → ℕ → ℕ × Bool} {pay : Fin n → ℕ × ℕ → ℕ → Byte}
    {m₀ : ℕ → Byte}
    {q : Icache n × AxiMem} {xs : ℕ → IcIn n} (hq : (machine n S tagV pay m₀).Reach q)
    (hx : (machine n S tagV pay m₀).Runs q xs)
    (hf : AxiMem.Fair (fun k => ((machine n S tagV pay m₀).after q xs k).2)
      (fun k => ((machine n S tagV pay m₀).after q xs k).1.axiOut) fun k => (xs k).axi) :
    ∃ᶠ k in atTop, ((machine n S tagV pay m₀).after q xs k).1.stallReq = false :=
  (leadsTo_ready hq hx hf).frequently

omit [NeZero n] in
/-- No beat is wider than eight bytes. -/
theorem Bus.size_le (h : s.Bus m) {b : AxiBurst} {c : ℕ} (hrd : m.rd = some (b, c)) :
    b.size ≤ 3 := by
  have hr := h.reading
  rw [Reading] at hr
  split at hr
  · obtain ⟨c, hb⟩ := hr
    rw [hb.read.rd] at hrd
    split_ifs at hrd
    cases hrd
    exact le_rfl
  · obtain ⟨c, hb⟩ := hr
    rw [hb.read.rd] at hrd
    split_ifs at hrd
    cases hrd
    exact Nat.le_succ 2
  · rw [hr.read.rd] at hrd
    cases hrd

/-- Fetches of the first window, from a memory that holds at each address its last byte. -/
def fetching : Machine (Icache cacheWays × AxiMem) (IcIn cacheWays) :=
  machine cacheWays 0 (fun _ _ => (0, false)) (fun _ _ _ => 0) (BitVec.ofNat 8)

theorem stall_ends_fetching :
    ∃ᶠ k in atTop, (fetching.after fetching.reset
      (fetching.steered (fun q => promptFetch q.2) fetching.reset) k).1.stallReq = false := by
  have hstep : ∀ q, fetching.Reach q → fetching.allowed q (promptFetch q.2) ∧
      fetching.Reach (fetching.next q (promptFetch q.2)) := fun q hq =>
    have ha : q.2.Answers (AxiIn.prompt q.2) := q.2.answers_prompt
    ⟨ha, Machine.Reach.tick hq ha⟩
  have hP : ∀ k, _ := Machine.after_steered_inv Machine.Reach.reset fun q hq => (hstep q hq).2
  refine fetch_stall_ends Machine.Reach.reset (Machine.runs_steered Machine.Reach.reset hstep)
    (AxiMem.fair_prompt (fun k => .inl (bus_of_reach (hP k)).1.write)
      (fun k b c hrd => (bus_of_reach (hP k)).1.size_le hrd) (fun k => ?_) fun k => rfl)
  rw [Machine.steered_eq]
  rfl

end Icache

/-! ### The D-cache -/

namespace Dcache

variable {n : ℕ} [NeZero n] {S : ℕ} {s : Dcache n} {m : AxiMem} {x : DcIn n}

/-- How far the cache is from being ready. -/
def rank (S : ℕ) (s : Dcache n) (m : AxiMem) : ℕ :=
  match s.state with
  | .idle => 0
  | .reload | .invalidate => 1
  | .refill => 2 * (16 - s.refillCnt / 4) + s.arValid.toNat + 1
  | .uncachedRead => s.arValid.toNat + 1
  | .uncachedWrite => s.awValid.toNat + (1 - m.w.length) + 1
  | .uncachedBoot => 4
  | .writeback => s.awValid.toNat + (16 - m.w.length) + 40
  | .replace | .flush => 60
  | .boot => 61 + (2 ^ S - s.bootCnt)

/-- What the cache waits for in a burst. -/
def wait (s : Dcache n) : AxiWait :=
  if s.state = .refill ∨ s.state = .uncachedRead then (if s.arValid then .ar else .r)
  else if s.awValid then .aw else if s.wValid then .w else .b

/-- A cycle of a burst brings the cache nearer, or what it waits for does not come. -/
def Nearer (S : ℕ) (s : Dcache n) (m : AxiMem) (x : DcIn n) : Prop :=
  (s.next S x).rank S (m.next s.axiOut x.axi) < s.rank S m ∨
    ((s.next S x).rank S (m.next s.axiOut x.axi) = s.rank S m ∧ (s.next S x).wait = s.wait ∧
      ¬ m.Grants s.axiOut x.axi s.wait)

/-- A cycle of a burst in which no beat comes. -/
theorem wait_next_read {b : AxiBurst} {c : ℕ} (h : m.Reads s.axiOut b c) (hR : s.hdsAxiR x = false)
    (hst : s.state = .refill ∨ s.state = .uncachedRead) :
    (s.next S x).arValid.toNat < s.arValid.toNat ∨
      ((s.next S x).arValid = s.arValid ∧ ¬ m.Grants s.axiOut x.axi s.wait) := by
  have har : s.arSet x = false := by rcases hst with hst | hst <;> simp [arSet, hst]
  have hv : (s.next S x).arValid = (s.arValid && !x.axi.arReady) := by
    rw [next_arValid, har, Bool.false_or]
  have hrr : s.rReady = true := by rcases hst with hst | hst <;> simp [rReady, hst]
  by_cases hc : s.arValid = true ∧ x.axi.arReady = true
  · left
    rw [hv, hc.1, hc.2]
    exact Nat.zero_lt_one
  · refine Or.inr ⟨?_, fun hg => hc (h.granted hrr hR ?_)⟩
    · rw [hv]
      cases ha : s.arValid <;> cases hy : x.axi.arReady <;> simp_all
    · rwa [wait, if_pos hst] at hg

/-- A cycle of a burst without a response. -/
theorem wait_next_write {b : AxiBurst} {k : ℕ} (h : m.Writes s.axiOut b k)
    (hB : s.hdsAxiB x = false) (hst : s.state = .writeback ∨ s.state = .uncachedWrite)
    (h' : (m.next s.axiOut x.axi).Writes (s.next S x).axiOut b (k + (s.hdsAxiW x).toNat)) :
    (s.next S x).awValid.toNat + (b.len + 1 - (m.next s.axiOut x.axi).w.length) <
        s.awValid.toNat + (b.len + 1 - m.w.length) ∨
      ((s.next S x).awValid = s.awValid ∧ (s.next S x).wValid = s.wValid ∧
        (m.next s.axiOut x.axi).w.length = m.w.length ∧ ¬ m.Grants s.axiOut x.axi s.wait) := by
  have haw : s.awSet = false := by rcases hst with hst | hst <;> simp [awSet, hst]
  have hv : (s.next S x).awValid = (s.awValid && !x.axi.awReady) := by
    rw [next_awValid, haw, Bool.false_or]
  have hbr : s.bReady = true := by rcases hst with hst | hst <;> simp [bReady, hst]
  have hB' : (x.axi.bValid && s.bReady) = false := by rw [Bool.and_comm]; exact hB
  have hle : k + (s.hdsAxiW x).toNat ≤ b.len + 1 := h'.le
  have hvle : (s.next S x).awValid.toNat ≤ s.awValid.toNat := by
    rw [hv]
    cases s.awValid <;> cases x.axi.awReady <;> simp
  rw [h.length, h'.length]
  by_cases hw : s.hdsAxiW x = true
  · left
    rw [hw] at hle ⊢
    simp only [Bool.toNat_true] at hle ⊢
    omega
  · rw [Bool.not_eq_true] at hw
    by_cases hc : s.awValid = true ∧ x.axi.awReady = true
    · left
      rw [hv, hc.1, hc.2, hw]
      simp
    · refine Or.inr ⟨?_, ?_, by rw [hw]; rfl, fun hg => ?_⟩
      · rw [hv]
        cases ha : s.awValid <;> cases hy : x.axi.awReady <;> simp_all
      · have h₁ : (s.next S x).wValid = decide (k + (s.hdsAxiW x).toNat ≤ b.len) := h'.wValid
        have h₂ : s.wValid = decide (k ≤ b.len) := h.wValid
        rw [h₁, h₂, hw]
        rfl
      · have hne : ¬ (s.state = .refill ∨ s.state = .uncachedRead) := by
          rcases hst with hst | hst <;> simp [hst]
        rw [wait, if_neg hne] at hg
        rcases h.granted hbr hB' hg with hg | hg
        · exact hc hg
        · rw [show s.hdsAxiW x = true from hg] at hw
          cases hw

theorem BusRefill.nearer {c : ℕ} (h : s.BusRefill m c) (hst : s.state = .refill)
    (ha : m.Answers x.axi) : s.Nearer S m x := by
  have hle : c ≤ 15 := h.read.le
  have hk : s.rank S m = 2 * (16 - c) + s.arValid.toNat + 1 := by
    rw [rank, hst, h.refillCnt]
    simp
  rcases h.next (S := S) hst ha with ⟨hR, hst', h'⟩ | ⟨-, hlt, hst', h'⟩ | ⟨-, -, hst', -⟩
  · have hk' : (s.next S x).rank S (m.next s.axiOut x.axi) =
        2 * (16 - c) + (s.next S x).arValid.toNat + 1 := by
      rw [rank, hst', h'.refillCnt]
      simp
    rcases wait_next_read (S := S) h.read hR (Or.inl hst) with hv | ⟨hv, hg⟩
    · left
      omega
    · exact Or.inr ⟨by rw [hk, hk', hv], by simp [wait, hst, hst', hv], hg⟩
  · left
    have hk' : (s.next S x).rank S (m.next s.axiOut x.axi) =
        2 * (16 - (c + 1)) + (s.next S x).arValid.toNat + 1 := by
      rw [rank, hst', h'.refillCnt]
      simp
    have := (s.next S x).arValid.toNat_le
    omega
  · left
    have hk' : (s.next S x).rank S (m.next s.axiOut x.axi) = 1 := by rw [rank, hst']
    omega

theorem BusUncachedRead.nearer (h : s.BusUncachedRead m) (hst : s.state = .uncachedRead)
    (ha : m.Answers x.axi) : s.Nearer S m x := by
  have hk : s.rank S m = s.arValid.toNat + 1 := by rw [rank, hst]
  rcases h.next (S := S) hst ha with ⟨hR, hst', -⟩ | ⟨-, hst', -⟩
  · have hk' : (s.next S x).rank S (m.next s.axiOut x.axi) = (s.next S x).arValid.toNat + 1 := by
      rw [rank, hst']
    rcases wait_next_read (S := S) h.read hR (Or.inr hst) with hv | ⟨hv, hg⟩
    · left
      omega
    · exact Or.inr ⟨by rw [hk, hk', hv], by simp [wait, hst, hst', hv], hg⟩
  · left
    have hk' : (s.next S x).rank S (m.next s.axiOut x.axi) = 0 := by rw [rank, hst']
    omega

theorem BusWriteback.nearer {k : ℕ} (h : s.BusWriteback m k) (hst : s.state = .writeback)
    (ha : m.Answers x.axi) : s.Nearer S m x := by
  have hk : s.rank S m = s.awValid.toNat + (16 - m.w.length) + 40 := by rw [rank, hst]
  rcases h.next (S := S) hst ha with ⟨hB, hst', h'⟩ | ⟨-, -, -, hst', -⟩ | ⟨-, -, -, hst', h'⟩
  · have hk' : (s.next S x).rank S (m.next s.axiOut x.axi) =
        (s.next S x).awValid.toNat + (16 - (m.next s.axiOut x.axi).w.length) + 40 := by
          rw [rank, hst']
    have haw : (s.next S x).awAddr = s.awAddr := by
      change ldff s.awSet _ _ = _
      rw [show s.awSet = false by simp [awSet, hst]]
      rfl
    have hw' := h'.write
    rw [haw] at hw'
    rcases wait_next_write (S := S) h.write hB (Or.inl hst) hw' with hv | ⟨hv, hwv, hl, hg⟩
    · left
      simp only [Nat.reduceAdd] at hv
      omega
    · exact Or.inr ⟨by rw [hk, hk', hv, hl], by simp [wait, hst, hst', hv, hwv], hg⟩
  · left
    have hk' : (s.next S x).rank S (m.next s.axiOut x.axi) = 0 := by rw [rank, hst']
    omega
  · left
    have hk' : (s.next S x).rank S (m.next s.axiOut x.axi) =
        2 * (16 - (s.next S x).refillCnt / 4) + (s.next S x).arValid.toNat + 1 := by rw [rank, hst']
    have := (s.next S x).arValid.toNat_le
    omega

theorem BusUncachedWrite.nearer {k : ℕ} (h : s.BusUncachedWrite m k)
    (hst : s.state = .uncachedWrite) (ha : m.Answers x.axi) : s.Nearer S m x := by
  have hk : s.rank S m = s.awValid.toNat + (1 - m.w.length) + 1 := by rw [rank, hst]
  rcases h.next (S := S) hst ha with ⟨hB, hst', h'⟩ | ⟨-, -, hst', -⟩
  · have hk' : (s.next S x).rank S (m.next s.axiOut x.axi) =
        (s.next S x).awValid.toNat + (1 - (m.next s.axiOut x.axi).w.length) + 1 := by
          rw [rank, hst']
    have haw : (s.next S x).awAddr = s.awAddr := by
      change ldff s.awSet _ _ = _
      rw [show s.awSet = false by simp [awSet, hst]]
      rfl
    have hw' := h'.write
    rw [haw, next_s2o_of_stall (by simp [hst])] at hw'
    rcases wait_next_write (S := S) h.write hB (Or.inr hst) hw' with hv | ⟨hv, hwv, hl, hg⟩
    · left
      simp only [Nat.reduceAdd] at hv
      omega
    · exact Or.inr ⟨by rw [hk, hk', hv, hl], by simp [wait, hst, hst', hv, hwv], hg⟩
  · left
    have hk' : (s.next S x).rank S (m.next s.axiOut x.axi) = 0 := by rw [rank, hst']
    omega

/-- Every cycle outside of the idle state brings the cache nearer, or it waits. -/
theorem Bus.nearer (h : s.Bus m) (hbt : s.bootCnt < 2 ^ S) (ha : m.Answers x.axi)
    (hst : s.state ≠ .idle) : s.Nearer S m x := by
  have hstn : (s.next S x).state = s.stateNxt S x := rfl
  rw [Bus] at h
  cases hs : s.state with
  | idle => exact absurd hs hst
  | refill =>
      rw [hs] at h
      obtain ⟨c, hc⟩ := h
      exact hc.nearer hs ha
  | writeback =>
      rw [hs] at h
      obtain ⟨k, hk⟩ := h
      exact hk.nearer hs ha
  | uncachedRead =>
      rw [hs] at h
      exact BusUncachedRead.nearer h hs ha
  | uncachedWrite =>
      rw [hs] at h
      obtain ⟨k, hk⟩ := h
      exact hk.nearer hs ha
  | reload | invalidate =>
      left
      rw [rank, rank, hs, show (s.next S x).state = .idle by simp [hstn, stateNxt, hs]]
      exact Nat.zero_lt_one
  | uncachedBoot =>
      left
      have h₁ := (s.next S x).arValid.toNat_le
      have h₂ := (s.next S x).awValid.toNat_le
      rw [rank, rank, hs, hstn, stateNxt, hs]
      dsimp only
      split_ifs <;> dsimp only <;> omega
  | replace | flush =>
      left
      have h₁ := (s.next S x).arValid.toNat_le
      have h₂ := (s.next S x).awValid.toNat_le
      rw [rank, rank, hs, hstn, stateNxt, hs]
      dsimp only
      split_ifs <;> dsimp only <;> omega
  | boot =>
      left
      by_cases hl : s.bootCnt + 1 = 2 ^ S
      · rw [rank, rank, hs, hstn, stateNxt, hs]
        simp [hl]
      · rw [rank, rank, hs, hstn, stateNxt, hs]
        simp only [if_neg hl]
        rw [show (s.next S x).bootCnt = s.bootCnt + 1 from Nat.mod_eq_of_lt (by omega)]
        omega

theorem ready_of_reach {pay : Fin n → ℕ × ℕ → ℕ → Byte} {m₀ : ℕ → Byte} {q : Dcache n × AxiMem}
    (h : (machine n S pay m₀).Reach q) : q.1.Bus q.2 ∧ q.1.bootCnt < 2 ^ S := by
  refine h.inv (P := fun q => q.1.Bus q.2 ∧ q.1.bootCnt < 2 ^ S)
    ⟨bus_reset pay m₀, Nat.two_pow_pos S⟩ fun q x hq ha => ?_
  exact ⟨hq.1.next ha, Nat.mod_lt _ (Nat.two_pow_pos S)⟩

/-- If the memory is fair the D-cache comes back from whatever it does. -/
theorem leadsTo_ready {pay : Fin n → ℕ × ℕ → ℕ → Byte} {m₀ : ℕ → Byte} {q : Dcache n × AxiMem}
    {xs : ℕ → DcIn n} (hq : (machine n S pay m₀).Reach q) (hx : (machine n S pay m₀).Runs q xs)
    (hf : AxiMem.Fair (fun k => ((machine n S pay m₀).after q xs k).2)
      (fun k => ((machine n S pay m₀).after q xs k).1.axiOut) fun k => (xs k).axi) :
    LeadsTo (fun _ => True) fun k => ((machine n S pay m₀).after q xs k).1.stallReq = false := by
  set M := machine n S pay m₀ with hM
  refine LeadsTo.of_waits (fun k => (M.after q xs k).1.rank S (M.after q xs k).2)
    (fun k => (M.after q xs k).1.wait)
    (fun u k => (M.after q xs k).2.Grants (M.after q xs k).1.axiOut (xs k).axi u) hf fun k _ => ?_
  by_cases hst : (M.after q xs k).1.state = .idle
  · left
    simp [stallReq, hst]
  · obtain ⟨hb, hlt⟩ := ready_of_reach (hM ▸ hq.after hx k)
    rcases hb.nearer (S := S) hlt (hx k) hst with h | h
    · exact Or.inr (Or.inr (Or.inl ⟨trivial, h⟩))
    · exact Or.inr (Or.inr (Or.inr ⟨trivial, h⟩))

/-- **The D-cache is ready again and again**, whatever is loaded, stored, killed, invalidated and
flushed, if the memory is fair. -/
theorem access_stall_ends {pay : Fin n → ℕ × ℕ → ℕ → Byte} {m₀ : ℕ → Byte} {q : Dcache n × AxiMem}
    {xs : ℕ → DcIn n} (hq : (machine n S pay m₀).Reach q) (hx : (machine n S pay m₀).Runs q xs)
    (hf : AxiMem.Fair (fun k => ((machine n S pay m₀).after q xs k).2)
      (fun k => ((machine n S pay m₀).after q xs k).1.axiOut) fun k => (xs k).axi) :
    ∃ᶠ k in atTop, ((machine n S pay m₀).after q xs k).1.stallReq = false :=
  (leadsTo_ready hq hx hf).frequently

/-- No access is to more than eight bytes. -/
structure Sized (s : Dcache n) : Prop where
  s1o : s.s1o.size.toNat ≤ 3
  s2o : s.s2o.size.toNat ≤ 3

theorem Sized.next (h : s.Sized) (hx : x.size.toNat ≤ 3) : (s.next S x).Sized := by
  constructor
  · change (ldff s.pCe _ s.s1o).size.toNat ≤ 3
    cases s.pCe
    · exact h.s1o
    · exact hx
  · change (ldff s.pCe _ s.s2o).size.toNat ≤ 3
    cases s.pCe
    · exact h.s2o
    · exact h.s1o

theorem Bus.size_le (h : s.Bus m) (hs : s.Sized) {b : AxiBurst} {c : ℕ} (hrd : m.rd = some (b, c)) :
    b.size ≤ 3 := by
  rw [Bus] at h
  split at h
  · obtain ⟨c, hb⟩ := h
    rw [hb.read.rd] at hrd
    split_ifs at hrd
    cases hrd
    exact Nat.le_succ 2
  · obtain ⟨c, hb⟩ := h
    rw [hb.read.rd] at hrd
    cases hrd
  · rw [h.read.rd] at hrd
    split_ifs at hrd
    cases hrd
    exact hs.s2o
  · obtain ⟨c, hb⟩ := h
    rw [hb.read.rd] at hrd
    cases hrd
  · rw [h.read.rd] at hrd
    cases hrd

/-- Stores and loads of page zero in turn, each 17 words behind the one before; the second half of
the page is not cached, and the memory answers at once. -/
def rounds (q : Dcache cacheWays × AxiMem) : DcIn cacheWays :=
  let a := q.1.s1o
  { pageZero cacheWays (access (if a.wmsk = 0 then 15 else 0) 0x11223344 (a.vpo + 0x44))
    (AxiIn.prompt q.2) with
    uncached := a.vpo.msb }

/-- The cache of the chip. -/
def going : Machine (Dcache cacheWays × AxiMem) (DcIn cacheWays) :=
  machine cacheWays 4 (fun _ _ _ => 0) fun _ => 0

/-- The states that the accesses lead to. -/
def Going (q : Dcache cacheWays × AxiMem) : Prop := going.Reach q ∧ q.1.Sized

theorem Going.next {q : Dcache cacheWays × AxiMem} (h : Going q) :
    going.allowed q (rounds q) ∧ Going (going.next q (rounds q)) := by
  have ha : q.2.Answers (AxiIn.prompt q.2) := q.2.answers_prompt
  exact ⟨ha, Machine.Reach.tick h.1 ha, h.2.next (show ((2 : BitVec 3)).toNat ≤ 3 by decide)⟩

/-- The accesses go on for ever. -/
theorem stall_ends_rounds :
    ∃ᶠ k in atTop, (going.after going.reset (going.steered rounds going.reset) k).1.stallReq =
      false := by
  have h0 : Going going.reset := ⟨Machine.Reach.reset, by decide, by decide⟩
  have hP : ∀ k, Going (going.after going.reset (going.steered rounds going.reset) k) :=
    Machine.after_steered_inv h0 fun q hq => hq.next.2
  refine access_stall_ends Machine.Reach.reset (Machine.runs_steered h0 fun q hq => hq.next)
    (AxiMem.fair_prompt (fun k => (ready_of_reach (hP k).1).1.polite.2)
      (fun k b c hrd => (ready_of_reach (hP k).1).1.size_le (hP k).2 hrd)
        (fun k => ?_) fun k => rfl)
  rw [Machine.steered_eq]
  rfl

end Dcache

end NanoCpu
