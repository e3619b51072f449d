/-
**The chain of PCs through the front-end** (`rtl/core/frontend.v`, `prefetch_buf.v`).

Beside the front-end runs a log of what has been pushed into the prefetch buffer since the last
flush, and of the cycle in which each window was asked for.  What leaves the buffer is the beginning
of the log; the log starts at the target of the flush and goes on, each time, where the instruction
before was predicted to go; and all of it was asked for after the flush.

Main definitions:

* `FetchLog`, `FetchLog.next` — the log;
* `Frontend.logged` — the front-end with its log;
* `Frontend.Window` — a window of which the lanes from an offset on are to be pushed;
* `Frontend.Fetches` — the invariant.

Main results:

* `Frontend.Fetches.next` — one cycle keeps the invariant, whatever stalls or flushes;
* `Frontend.pc_chain` — the chain.
-/

import NanoCpu.Frontend
import NanoCpu.Machine

set_option relaxedAutoImplicit false
set_option autoImplicit false

namespace NanoCpu

/-! ### Counting and choosing lanes -/

theorem popcnt_succ (f : ℕ → Bool) (n : ℕ) : popcnt f (n + 1) = popcnt f n + (f n).toNat := by
  rw [popcnt, List.range_succ, List.countP_append, popcnt]
  cases h : f n <;> simp [h]

/-- Counting an interval. -/
theorem popcnt_interval {f : ℕ → Bool} {a c n : ℕ}
    (hf : ∀ i < n, f i = (decide (a ≤ i) && decide (i < c))) : popcnt f n = min c n - a := by
  induction n with
  | zero => simp [popcnt]
  | succ n ih =>
      rw [popcnt_succ, ih fun i hi => hf i (by omega), hf n (by omega)]
      by_cases h₁ : a ≤ n <;> by_cases h₂ : n < c <;> simp [h₁, h₂] <;> omega

/-- The lowest selected lane is chosen. -/
theorem pmuxV_of_first {α : Type*} {sel : ℕ → Bool} {din : ℕ → α} {n i : ℕ} (hi : i < n)
    (hs : sel i = true) (hlt : ∀ j < i, sel j = false) : pmuxV sel din n = (din i, true) := by
  have hf : (List.range n).find? sel = some i := by
    rw [List.find?_range_eq_some]
    exact ⟨hs, List.mem_range.2 hi, fun j hj => by simp [hlt j hj]⟩
  rw [pmuxV, hf]

theorem pmuxV_of_none {α : Type*} {sel : ℕ → Bool} {din : ℕ → α} {n : ℕ}
    (h : ∀ i < n, sel i = false) : (pmuxV sel din n).2 = false := by
  have hf : (List.range n).find? sel = none := by
    rw [List.find?_eq_none]
    intro i hi
    rw [h i (List.mem_range.1 hi)]
    exact Bool.false_ne_true
  rw [pmuxV, hf]

/-- Either no lane is selected, or there is a first one. -/
theorem first_or_none (sel : ℕ → Bool) (n : ℕ) :
    (∀ i < n, sel i = false) ∨ ∃ i < n, sel i = true ∧ ∀ j < i, sel j = false := by
  induction n with
  | zero => exact .inl fun i hi => absurd hi (Nat.not_lt_zero i)
  | succ n ih =>
      rcases ih with h | ⟨i, hi, hs, hlt⟩
      · cases hn : sel n with
        | true => exact .inr ⟨n, by omega, hn, h⟩
        | false =>
            refine .inl fun i hi => ?_
            rcases Nat.lt_succ_iff_lt_or_eq.1 hi with hlt | rfl
            · exact h i hlt
            · exact hn
      · exact .inr ⟨i, by omega, hs, hlt⟩

/-! ### Following the predictions -/

/-- Where the first `k` words lead from `start`. -/
def IqWord.after (start : Pc) (w : ℕ → IqWord) : ℕ → Pc
  | 0 => start
  | k + 1 => (w k).succ

namespace IqWord

theorem after_congr {start : Pc} {w w' : ℕ → IqWord} {k : ℕ}
    (h : ∀ j < k, (w j).succ = (w' j).succ) : after start w k = after start w' k := by
  cases k with
  | zero => rfl
  | succ k => exact h k (Nat.lt_succ_self k)

/-- Going on behind the first `n` words. -/
theorem after_add {start : Pc} {w v : ℕ → IqWord} {n k : ℕ}
    (h : ∀ j < k, (w (n + j)).succ = (v j).succ) :
    after start w (n + k) = after (after start w n) v k := by
  cases k with
  | zero => rfl
  | succ k => exact h k (Nat.lt_succ_self k)

end IqWord

/-- The log: how many words have been pushed and popped since the last flush, which they were, what
has been shown to the decoder, and when the windows were asked for. -/
structure FetchLog where
  now : ℕ
  flushAt : ℕ
  start : Pc
  s1At : ℕ
  s2At : ℕ
  word : ℕ → IqWord
  wordAt : ℕ → ℕ
  pushed : ℕ
  popped : ℕ
  out : List IqWord

namespace Frontend

variable (P D p b : ℕ)

/-- What leaves the buffer in this cycle. -/
def delivered (s : Frontend) (x : FrontendIn) : List IqWord :=
  (List.range (s.idPopCnt P x)).map (s.buf.idOut P)

end Frontend

namespace FetchLog

/-- Reset counts as a flush to the reset vector. -/
def reset (pcRst : Pc) (zero : IqWord) : FetchLog :=
  ⟨1, 0, pcRst, 0, 0, fun _ => zero, fun _ => 0, 0, 0, []⟩

variable (P D : ℕ)

def next (l : FetchLog) (s : Frontend) (x : FrontendIn) : FetchLog where
  now := l.now + 1
  flushAt := if x.flush then l.now else l.flushAt
  start := if x.flush then x.flushTgt else l.start
  s1At := if s.pCe P D x then l.now else l.s1At
  s2At := if s.pCe P D x then l.s1At else l.s2At
  word := fun k => if l.pushed ≤ k ∧ k < l.pushed + s.iqPushCnt P D x then
    (s.bufIn P D x).iq (k - l.pushed + s.s2oPushOffset) else l.word k
  wordAt := fun k => if l.pushed ≤ k ∧ k < l.pushed + s.iqPushCnt P D x then l.s2At else l.wordAt k
  pushed := if x.flush then 0 else l.pushed + s.iqPushCnt P D x
  popped := if x.flush then 0 else l.popped + s.idPopCnt P x
  out := if x.flush then [] else l.out ++ s.delivered P x

variable {P D} {l : FetchLog} {s : Frontend} {x : FrontendIn}

theorem next_word_old {k : ℕ} (hk : k < l.pushed) : (l.next P D s x).word k = l.word k :=
  if_neg (by omega)

theorem next_word_new {k : ℕ} (hk : k < s.iqPushCnt P D x) :
    (l.next P D s x).word (l.pushed + k) = (s.bufIn P D x).iq (k + s.s2oPushOffset) := by
  change (if l.pushed ≤ l.pushed + k ∧ l.pushed + k < l.pushed + s.iqPushCnt P D x then
    (s.bufIn P D x).iq (l.pushed + k - l.pushed + s.s2oPushOffset) else l.word (l.pushed + k)) = _
  rw [if_pos (by omega), Nat.add_sub_cancel_left]

theorem next_wordAt_old {k : ℕ} (hk : k < l.pushed) : (l.next P D s x).wordAt k = l.wordAt k :=
  if_neg (by omega)

theorem next_wordAt_new {k : ℕ} (hk : l.pushed ≤ k) (hk' : k < l.pushed + s.iqPushCnt P D x) :
    (l.next P D s x).wordAt k = l.s2At :=
  if_pos ⟨hk, hk'⟩

/-- The beginning of the chain stays. -/
theorem next_after (hf : x.flush = false) {k : ℕ} (hk : k ≤ l.pushed) :
    IqWord.after (l.next P D s x).start (l.next P D s x).word k =
      IqWord.after l.start l.word k := by
  have hstart : (l.next P D s x).start = l.start := by simp [next, hf]
  rw [hstart]
  exact IqWord.after_congr fun j hj => by rw [next_word_old (by omega)]

end FetchLog

namespace Frontend

/-- The front-end with its log; it asks nothing of its surroundings. -/
def logged (P D p b : ℕ) (pcRst : Pc) (bpu : Bpu) (zero : IqWord) :
    Machine (Frontend × FetchLog) FrontendIn where
  reset := (Frontend.reset pcRst bpu zero, FetchLog.reset pcRst zero)
  allowed _ _ := True
  next q x := (q.1.next P D p b x, q.2.next P D q.1 x)

variable {P D p b : ℕ} {s : Frontend} {x : FrontendIn} {l : FetchLog}

/-! ### The window of the second stage -/

/-- The window in the second stage is empty, or the lanes from the PC on. -/
structure Stage1 (P : ℕ) (s : Frontend) : Prop where
  off_lt : s.s1oPushOffset < 2 ^ P
  aligned : (∀ i < 2 ^ P, s.s1oFetchAligned i = false) ∨
    ((∀ i < 2 ^ P, s.s1oFetchAligned i = decide (s.s1oPushOffset ≤ i)) ∧
      ∀ i, s.s1oPc i = s.pc + BitVec.ofNat 30 i - BitVec.ofNat 30 s.s1oPushOffset)

/-- The `k`-th instruction that the second stage hands on. -/
def s1Word (b : ℕ) (s : Frontend) (k : ℕ) : IqWord :=
  ⟨0, s.s1oPc (s.s1oPushOffset + k), s.immu.eitm, s.immu.eipf,
    s.bpu.upd b s.s1oFetchAligned (s.s1oPushOffset + k)⟩

/-- The `k`-th instruction that the third stage hands on. -/
def s2Word (s : Frontend) (ins : ℕ → BitVec 32) (k : ℕ) : IqWord :=
  ⟨ins (k + s.s2oPushOffset), s.s2oPc (k + s.s2oPushOffset), s.s2oEitm, s.s2oEipf,
    s.s2oUpd (k + s.s2oPushOffset)⟩

theorem taken_of_not_aligned {i : ℕ} (h : s.s1oFetchAligned i = false) : s.taken b i = false := by
  simp [taken, Bpu.taken, h]

theorem validMsk_iff (j : ℕ) : s.validMsk b j = true ↔ ∀ i < j, s.taken b i = false := by
  induction j with
  | zero => simp [validMsk]
  | succ j ih =>
      rw [validMsk, Bool.and_eq_true, ih, Bool.not_eq_true']
      constructor
      · rintro ⟨h, hj⟩ i hi
        rcases Nat.lt_succ_iff_lt_or_eq.1 hi with hlt | rfl
        · exact h i hlt
        · exact hj
      · exact fun h => ⟨fun i hi => h i (by omega), h j (Nat.lt_succ_self j)⟩

/-- The lanes that the second stage hands on follow the PC, and lead to the next one. -/
theorem Stage1.window (h : s.Stage1 P) :
    s.s1oPushOffset + s.s1oPushCnt P b ≤ 2 ^ P ∧
      (∀ k < s.s1oPushCnt P b, (s.s1Word b k).pc = IqWord.after s.pc (s.s1Word b) k) ∧
      (if (s.predBranch P b).2 then (s.predBranch P b).1
        else s.pc + BitVec.ofNat 30 (s.s1oPushCnt P b)) =
        IqWord.after s.pc (s.s1Word b) (s.s1oPushCnt P b) := by
  have hoff := h.off_lt
  rcases h.aligned with hno | ⟨hal, hpc⟩
  · -- nothing is in the stage
    have hcnt : s.s1oPushCnt P b = 0 := by
      rw [s1oPushCnt, popcnt_interval (a := 0) (c := 0)]
      · omega
      · intro i hi
        simp [hno i hi]
    have hp : (s.predBranch P b).2 = false :=
      pmuxV_of_none fun i hi => taken_of_not_aligned (hno i hi)
    rw [hcnt, hp, if_neg Bool.false_ne_true]
    refine ⟨by omega, fun k hk => absurd hk (Nat.not_lt_zero k), ?_⟩
    simp [IqWord.after]
  · have hword : ∀ k, (s.s1Word b k).pc = s.pc + BitVec.ofNat 30 k := by
      intro k
      change s.s1oPc (s.s1oPushOffset + k) = _
      rw [hpc]
      bv_omega
    have hafter : ∀ {k}, (∀ j < k, s.taken b (s.s1oPushOffset + j) = false) →
        IqWord.after s.pc (s.s1Word b) k = s.pc + BitVec.ofNat 30 k := by
      intro k hk
      cases k with
      | zero => simp [IqWord.after]
      | succ k =>
          have ht : (s.s1Word b k).upd.taken = false := hk k (Nat.lt_succ_self k)
          rw [IqWord.after, IqWord.succ, ht, if_neg Bool.false_ne_true, hword, BitVec.ofNat_add,
            ← BitVec.add_assoc]
          rfl
    rcases first_or_none (s.taken b) (2 ^ P) with hnt | ⟨j, hj, htj, hlt⟩
    · have hcnt : s.s1oPushCnt P b = 2 ^ P - s.s1oPushOffset := by
        rw [s1oPushCnt, popcnt_interval (a := s.s1oPushOffset) (c := 2 ^ P), Nat.min_self]
        intro i hi
        have hm : s.validMsk b i = true := (validMsk_iff i).2 fun k hk => hnt k (by omega)
        simp [hal i hi, hm, hi]
      have hp : (s.predBranch P b).2 = false := pmuxV_of_none hnt
      rw [hp, if_neg Bool.false_ne_true]
      refine ⟨by omega, fun k hk => ?_, ?_⟩
      · rw [hword, hafter fun i hi => hnt _ (by omega)]
      · rw [hafter fun i hi => hnt _ (by omega)]
    · have hoj : s.s1oPushOffset ≤ j := by
        by_contra hne
        have := taken_of_not_aligned (b := b) (s := s) (i := j) (by rw [hal j hj]; simp; omega)
        rw [htj] at this
        cases this
      have hcnt : s.s1oPushCnt P b = j + 1 - s.s1oPushOffset := by
        rw [s1oPushCnt, popcnt_interval (a := s.s1oPushOffset) (c := j + 1),
          Nat.min_eq_left (by omega)]
        intro i hi
        have hm : s.validMsk b i = decide (i < j + 1) := by
          rw [Bool.eq_iff_iff, validMsk_iff, decide_eq_true_eq]
          constructor
          · intro hall
            by_contra hne
            rw [hall j (by omega)] at htj
            cases htj
          · exact fun hij k hk => hlt k (by omega)
        rw [hal i hi, hm]
      have hp : s.predBranch P b = (s.bpu.npc j, true) := pmuxV_of_first hj htj hlt
      rw [hp, if_pos rfl]
      refine ⟨by omega, fun k hk => ?_, ?_⟩
      · rw [hword, hafter fun i hi => hlt _ (by omega)]
      · have hc : s.s1oPushCnt P b = (j - s.s1oPushOffset) + 1 := by omega
        have hl : s.s1oPushOffset + (j - s.s1oPushOffset) = j := by omega
        have ht : (s.s1Word b (j - s.s1oPushOffset)).upd = s.bpu.upd b s.s1oFetchAligned j := by
          rw [s1Word, hl]
        have ht' : (s.bpu.upd b s.s1oFetchAligned j).taken = true := htj
        rw [hc, IqWord.after, IqWord.succ, ht, ht', if_pos rfl]
        rfl

/-! ### The invariant -/

/-- What the third stage holds, where its instructions do not matter. -/
abbrev s2Blank (s : Frontend) : ℕ → IqWord := s.s2Word fun _ => 0

/-- The front-end holds the log, and the windows behind it continue the chain. -/
structure Fetches (P D : ℕ) (s : Frontend) (l : FetchLog) : Prop where
  buf : s.buf.Rep P D l.popped l.pushed l.word
  out : l.out = (List.range l.popped).map l.word
  chain : ∀ k < l.pushed, (l.word k).pc = IqWord.after l.start l.word k
  s2_fits : s.s2oPushCnt + s.s2oPushOffset ≤ 2 ^ P
  s2_chain : ∀ k < s.s2oPushCnt,
    (s.s2Blank k).pc = IqWord.after (IqWord.after l.start l.word l.pushed) s.s2Blank k
  pc_eq : s.pc = IqWord.after (IqWord.after l.start l.word l.pushed) s.s2Blank s.s2oPushCnt
  s1 : s.Stage1 P
  s1_valid : s.icS1oValid = false → ∀ i < 2 ^ P, s.s1oFetchAligned i = false
  s2_valid : s.icS2oValid = false → s.s2oPushCnt = 0
  now : l.flushAt < l.now
  word_fresh : ∀ k < l.pushed, l.flushAt < l.wordAt k
  s2_fresh : 0 < s.s2oPushCnt → l.flushAt < l.s2At
  s1_fresh : (∃ i < 2 ^ P, s.s1oFetchAligned i = true) → l.flushAt < l.s1At

theorem fetches_reset (P D : ℕ) (pcRst : Pc) (bpu : Bpu) (zero : IqWord) :
    (reset pcRst bpu zero).Fetches P D (FetchLog.reset pcRst zero) where
  buf := PrefetchBuf.rep_reset _ _
  out := rfl
  chain k hk := absurd hk (Nat.not_lt_zero k)
  s2_fits := Nat.zero_le _
  s2_chain k hk := absurd hk (Nat.not_lt_zero k)
  pc_eq := rfl
  s1 := ⟨Nat.two_pow_pos P, Or.inl fun _ _ => rfl⟩
  s1_valid _ _ _ := rfl
  s2_valid _ := rfl
  now := Nat.zero_lt_one
  word_fresh k hk := absurd hk (Nat.not_lt_zero k)
  s2_fresh h := absurd h (Nat.lt_irrefl 0)
  s1_fresh := by
    rintro ⟨i, -, hi⟩
    cases hi

theorem idPopCnt_of_not_idCe (hc : x.idCe = false) : s.idPopCnt P x = 0 := by
  rw [idPopCnt, popcnt_interval (a := 0) (c := 0)]
  · omega
  · simp [hc]

/-- The decoder takes what there is, but at most two. -/
theorem Fetches.idPopCnt_eq (h : s.Fetches P D l) (hP : 1 ≤ P) (hc : x.idCe = true) :
    s.idPopCnt P x = min (l.pushed - l.popped) 2 := by
  have h2 : 2 ≤ 2 ^ P := Nat.le_self_pow (by omega) 2
  rw [idPopCnt, popcnt_interval (a := 0) (c := l.pushed - l.popped), Nat.sub_zero]
  intro i hi
  rw [hc, Bool.and_true, Bool.eq_iff_iff, h.buf.valid_iff (by omega)]
  simp
  omega

theorem Fetches.popCnt_le (h : s.Fetches P D l) (hP : 1 ≤ P) :
    s.idPopCnt P x ≤ 2 ∧ l.popped + s.idPopCnt P x ≤ l.pushed := by
  have hle := h.buf.le
  cases hc : x.idCe with
  | false =>
      rw [idPopCnt_of_not_idCe hc]
      omega
  | true =>
      rw [h.idPopCnt_eq hP hc]
      omega

/-- What leaves the buffer continues what has left it. -/
theorem Fetches.delivered_eq (h : s.Fetches P D l) (hP : 1 ≤ P) :
    l.out ++ s.delivered P x = (List.range (l.popped + s.idPopCnt P x)).map l.word := by
  have h2 : 2 ≤ 2 ^ P := Nat.le_self_pow (by omega) 2
  obtain ⟨h₁, h₂⟩ := h.popCnt_le (x := x) hP
  rw [h.out, List.range_add, List.map_append, List.map_map, delivered]
  congr 1
  refine List.map_congr_left fun i hi => ?_
  rw [List.mem_range] at hi
  exact h.buf.out_eq (by omega) (by omega)

/-- The new window of the first stage. -/
theorem stage1_new (P : ℕ) (s : Frontend) (hc : s.pCe P D x = true) :
    (s.next P D p b x).Stage1 P := by
  have hoff : s.s1iPushOffset P D b x = (s.pcNxt P D b x).toNat % 2 ^ P := by
    rw [s1iPushOffset, popcnt_interval (a := 0) (c := (s.pcNxt P D b x).toNat % 2 ^ P)]
    · have := Nat.mod_lt (s.pcNxt P D b x).toNat (Nat.two_pow_pos P)
      omega
    · intro i _
      rw [s1iFetchAligned, Bool.eq_iff_iff]
      simp
  refine ⟨?_, ?_⟩
  · simp only [next, hc, ldff, if_true, hoff]
    exact Nat.mod_lt _ (Nat.two_pow_pos P)
  · cases hf : x.flush with
    | true =>
        left
        intro i _
        simp [next, hc, hf, ldff]
    | false =>
        right
        refine ⟨fun i _ => ?_, fun i => ?_⟩
        · simp only [next, hc, hf, ldff, Bool.or_false, if_true, Bool.not_false,
            Bool.and_true, hoff]
          rfl
        · simp [next, hc, ldff, s1iPc]

/-- A flush empties the buffer and both windows. -/
theorem Fetches.next_flush (h : s.Fetches P D l) (hf : x.flush = true) :
    (s.next P D p b x).Fetches P D (l.next P D s x) := by
  have hpc : (s.next P D p b x).pc = x.flushTgt := by simp [next, pcNxt, hf]
  have hcnt : (s.next P D p b x).s2oPushCnt = 0 := by simp [next, hf, ldff]
  have hal : ∀ i, (s.next P D p b x).s1oFetchAligned i = false := by
    intro i
    simp [next, hf, ldff]
  have hpush : (l.next P D s x).pushed = 0 := by simp [FetchLog.next, hf]
  have hpop : (l.next P D s x).popped = 0 := by simp [FetchLog.next, hf]
  refine ⟨?_, ?_, ?_, ?_, ?_, ?_, ?_, ?_, ?_, ?_, ?_, ?_, ?_⟩
  · rw [hpush, hpop]
    exact PrefetchBuf.Rep.next_flush _ _ hf
  · rw [hpop]
    simp [FetchLog.next, hf]
  · intro k hk
    rw [hpush] at hk
    exact absurd hk (Nat.not_lt_zero k)
  · rw [hcnt]
    have := h.s2_fits
    have := h.s1.off_lt
    cases hc : s.pCe P D x <;> simp [next, hc, ldff] <;> omega
  · intro k hk
    rw [hcnt] at hk
    exact absurd hk (Nat.not_lt_zero k)
  · rw [hpc, hcnt, hpush]
    simp [IqWord.after, FetchLog.next, hf]
  · cases hc : s.pCe P D x with
    | true => exact stage1_new P s hc
    | false =>
        refine ⟨?_, .inl fun i _ => hal i⟩
        simpa [next, hc, ldff] using h.s1.off_lt
  · exact fun _ i _ => hal i
  · exact fun _ => hcnt
  · simp [FetchLog.next, hf]
  · intro k hk
    rw [hpush] at hk
    exact absurd hk (Nat.not_lt_zero k)
  · intro hlt
    rw [hcnt] at hlt
    exact absurd hlt (Nat.lt_irrefl 0)
  · rintro ⟨i, -, hi⟩
    rw [hal] at hi
    cases hi

/-- Nothing but the buffer moves while the front-end waits. -/
theorem next_of_not_pCe (hf : x.flush = false) (hc : s.pCe P D x = false) :
    (s.next P D p b x).pc = s.pc ∧ (s.next P D p b x).s1oFetchAligned = s.s1oFetchAligned ∧
      (s.next P D p b x).s1oPushOffset = s.s1oPushOffset ∧ (s.next P D p b x).s1oPc = s.s1oPc ∧
      (s.next P D p b x).s2oPushCnt = s.s2oPushCnt ∧ (s.next P D p b x).s2Blank = s.s2Blank ∧
      (s.next P D p b x).s2oPushOffset = s.s2oPushOffset ∧ (s.next P D p b x).icS1oValid =
        s.icS1oValid ∧
      (s.next P D p b x).icS2oValid = s.icS2oValid ∧ s.iqPushCnt P D x = 0 := by
  refine ⟨?_, ?_, ?_, ?_, ?_, ?_, ?_, ?_, ?_, ?_⟩
  · simp [next, pcNxt, hf, hc]
  · simp [next, hf, hc, ldff]
  · simp [next, hc, ldff]
  · simp [next, hc, ldff]
  · simp [next, hf, hc, ldff]
  · funext k
    simp [s2Blank, s2Word, next, hc, ldff]
  · simp [next, hc, ldff]
  · simp [next, hc, ldff]
  · simp [next, hc, ldff]
  · simp [iqPushCnt, hc]

/-- The buffer after a cycle without a flush. -/
theorem Fetches.buf_next (h : s.Fetches P D l) (hP : 1 ≤ P) (hf : x.flush = false) :
    (s.next P D p b x).buf.Rep P D (l.next P D s x).popped (l.next P D s x).pushed
      (l.next P D s x).word := by
  obtain ⟨h₁, h₂⟩ := h.popCnt_le (x := x) hP
  have h2 : 2 ≤ 2 ^ P := Nat.le_self_pow (by omega) 2
  have hle : s.iqPushCnt P D x ≤ s.s2oPushCnt := by
    rw [iqPushCnt]
    split_ifs
    · exact le_rfl
    · exact Nat.zero_le _
  have hfits := h.s2_fits
  have hpush : (l.next P D s x).pushed = l.pushed + s.iqPushCnt P D x := by simp [FetchLog.next, hf]
  have hpop : (l.next P D s x).popped = l.popped + s.idPopCnt P x := by simp [FetchLog.next, hf]
  rw [hpush, hpop]
  refine PrefetchBuf.Rep.next (x := s.bufIn P D x) (h.buf.congr fun k _ hk => ?_) hf ?_ ?_ ?_ ?_ h₂
  · rw [FetchLog.next_word_old hk]
  · exact le_trans (Nat.add_le_add_right hle _) hfits
  · intro hpos
    have : s.pCe P D x = true := by
      by_contra hne
      have h0 : s.iqPushCnt P D x = 0 := by simp [iqPushCnt, hne]
      exact absurd hpos
        (by rw [show (s.bufIn P D x).pushCnt = s.iqPushCnt P D x from rfl, h0]; omega)
    rw [pCe, Bool.and_eq_true] at this
    exact this.2
  · exact fun k hk => FetchLog.next_word_new hk
  · exact le_trans h₁ h2

theorem Fetches.next_wait (h : s.Fetches P D l) (hP : 1 ≤ P) (hf : x.flush = false)
    (hc : s.pCe P D x = false) : (s.next P D p b x).Fetches P D (l.next P D s x) := by
  obtain ⟨e₁, e₂, e₃, e₄, e₅, e₆, e₇, e₈, e₉, e₀⟩ := next_of_not_pCe (p := p) (b := b) hf hc
  have hpush : (l.next P D s x).pushed = l.pushed := by simp [FetchLog.next, hf, e₀]
  have hfl : (l.next P D s x).flushAt = l.flushAt := by simp [FetchLog.next, hf]
  refine ⟨h.buf_next hP hf, ?_, ?_, ?_, ?_, ?_, ?_, ?_, ?_, ?_, ?_, ?_, ?_⟩
  · have hpop : (l.next P D s x).popped = l.popped + s.idPopCnt P x := by simp [FetchLog.next, hf]
    have hout : (l.next P D s x).out = l.out ++ s.delivered P x := by simp [FetchLog.next, hf]
    rw [hpop, hout, h.delivered_eq hP]
    refine List.map_congr_left fun k hk => ?_
    have := (h.popCnt_le (x := x) hP).2
    rw [List.mem_range] at hk
    rw [FetchLog.next_word_old (by omega)]
  · intro k hk
    rw [hpush] at hk
    rw [FetchLog.next_word_old hk, FetchLog.next_after hf (by omega)]
    exact h.chain k hk
  · rw [e₅, e₇]
    exact h.s2_fits
  · intro k hk
    rw [e₅] at hk
    rw [e₆, hpush, FetchLog.next_after hf le_rfl]
    exact h.s2_chain k hk
  · rw [e₁, e₅, e₆, hpush, FetchLog.next_after hf le_rfl]
    exact h.pc_eq
  · refine ⟨e₃ ▸ h.s1.off_lt, ?_⟩
    rw [e₁, e₂, e₃, e₄]
    exact h.s1.aligned
  · rw [e₂, e₈]
    exact h.s1_valid
  · rw [e₅, e₉]
    exact h.s2_valid
  · rw [hfl]
    exact Nat.lt_succ_of_lt h.now
  · intro k hk
    rw [hpush] at hk
    rw [hfl, FetchLog.next_wordAt_old hk]
    exact h.word_fresh k hk
  · rw [e₅, hfl]
    simpa [FetchLog.next, hc] using h.s2_fresh
  · rw [e₂, hfl]
    simpa [FetchLog.next, hc] using h.s1_fresh

/-- All stages move: the third one is pushed, and the second one takes its place. -/
theorem Fetches.next_move (h : s.Fetches P D l) (hP : 1 ≤ P) (hf : x.flush = false)
    (hc : s.pCe P D x = true) : (s.next P D p b x).Fetches P D (l.next P D s x) := by
  obtain ⟨w₁, w₂, w₃⟩ := h.s1.window (b := b)
  have hcnt : s.iqPushCnt P D x = s.s2oPushCnt := by
    rw [iqPushCnt, hc, Bool.and_true]
    cases hv : s.icS2oValid with
    | true => rw [if_pos rfl]
    | false => rw [if_neg Bool.false_ne_true, h.s2_valid hv]
  have hpush : (l.next P D s x).pushed = l.pushed + s.s2oPushCnt := by
    simp [FetchLog.next, hf, hcnt]
  have hfl : (l.next P D s x).flushAt = l.flushAt := by simp [FetchLog.next, hf]
  have hnew : ∀ k < s.s2oPushCnt, (l.next P D s x).word (l.pushed + k) = s.s2Word x.ins k := by
    intro k hk
    rw [FetchLog.next_word_new (by omega)]
    rfl
  have hadd : ∀ k ≤ s.s2oPushCnt, IqWord.after (l.next P D s x).start (l.next P D s x).word
      (l.pushed + k) = IqWord.after (IqWord.after l.start l.word l.pushed) s.s2Blank k := by
    intro k hk
    rw [IqWord.after_add (v := s.s2Blank), FetchLog.next_after hf le_rfl]
    intro j hj
    rw [hnew j (by omega)]
    rfl
  have hpc : (s.next P D p b x).pc = IqWord.after s.pc (s.s1Word b) (s.s1oPushCnt P b) := by
    rw [← w₃]
    simp [next, pcNxt, hf, hc]
  have h2cnt : (s.next P D p b x).s2oPushCnt = s.s1oPushCnt P b := by simp [next, hf, hc, ldff]
  have h2off : (s.next P D p b x).s2oPushOffset = s.s1oPushOffset := by simp [next, hc, ldff]
  have h2word : (s.next P D p b x).s2Blank = s.s1Word b := by
    funext k
    simp [s2Blank, s2Word, s1Word, next, hc, ldff, Nat.add_comm]
  have hend : IqWord.after (l.next P D s x).start (l.next P D s x).word
      (l.next P D s x).pushed = s.pc := by
    rw [hpush, hadd _ le_rfl, ← h.pc_eq]
  refine ⟨h.buf_next hP hf, ?_, ?_, ?_, ?_, ?_, stage1_new P s hc, ?_, ?_, ?_, ?_, ?_, ?_⟩
  · have hpop : (l.next P D s x).popped = l.popped + s.idPopCnt P x := by simp [FetchLog.next, hf]
    have hout : (l.next P D s x).out = l.out ++ s.delivered P x := by simp [FetchLog.next, hf]
    rw [hpop, hout, h.delivered_eq hP]
    refine List.map_congr_left fun k hk => ?_
    have := (h.popCnt_le (x := x) hP).2
    rw [List.mem_range] at hk
    rw [FetchLog.next_word_old (by omega)]
  · intro k hk
    rw [hpush] at hk
    rcases Nat.lt_or_ge k l.pushed with hlt | hge
    · rw [FetchLog.next_word_old hlt, FetchLog.next_after hf (by omega)]
      exact h.chain k hlt
    · obtain ⟨j, rfl⟩ := Nat.exists_eq_add_of_le hge
      rw [hnew j (by omega), hadd j (by omega)]
      exact h.s2_chain j (by omega)
  · rw [h2cnt, h2off]
    omega
  · intro k hk
    rw [h2cnt] at hk
    rw [h2word, hend]
    exact w₂ k hk
  · rw [hpc, h2cnt, h2word, hend]
  · intro hv
    simp [next, hc, ldff] at hv
  · intro hv
    have hv' : s.icS1oValid = false := by simpa [next, hc, ldff] using hv
    rw [h2cnt, s1oPushCnt, popcnt_interval (a := 0) (c := 0)]
    · omega
    · intro i hi
      simp [h.s1_valid hv' i hi]
  · rw [hfl]
    exact Nat.lt_succ_of_lt h.now
  · intro k hk
    rw [hpush] at hk
    rw [hfl]
    rcases Nat.lt_or_ge k l.pushed with hlt | hge
    · rw [FetchLog.next_wordAt_old hlt]
      exact h.word_fresh k hlt
    · rw [FetchLog.next_wordAt_new hge (by omega)]
      exact h.s2_fresh (by omega)
  · intro hpos
    rw [h2cnt] at hpos
    have hs1 : l.flushAt < l.s1At := by
      refine h.s1_fresh ?_
      by_contra hne
      push Not at hne
      rw [s1oPushCnt, popcnt_interval (a := 0) (c := 0)] at hpos
      · omega
      · intro i hi
        simp [hne i hi]
    simpa [FetchLog.next, hc, hf] using hs1
  · intro _
    simpa [FetchLog.next, hc, hf] using h.now

theorem Fetches.next (h : s.Fetches P D l) (hP : 1 ≤ P) (x : FrontendIn) :
    (s.next P D p b x).Fetches P D (l.next P D s x) := by
  cases hf : x.flush with
  | true => exact h.next_flush hf
  | false =>
      cases hc : s.pCe P D x with
      | true => exact h.next_move hP hf hc
      | false => exact h.next_wait hP hf hc

theorem fetches_of_reach {pcRst : Pc} {bpu : Bpu} {zero : IqWord} (hP : 1 ≤ P)
    (h : (logged P D p b pcRst bpu zero).Reach (s, l)) : s.Fetches P D l := by
  refine Machine.Reach.inv (P := fun q => q.1.Fetches P D q.2)
    (fetches_reset P D pcRst bpu zero) ?_ h
  rintro ⟨s, l⟩ x hi _
  exact hi.next hP x

/-- **The chain of PCs.**  Whatever stalls, flushes and predictions there are: of the instructions
that leave the prefetch buffer since the last flush the first has the target of the flush as its PC,
and every other one the PC that the one before it is predicted to go to.  They are the words that
were pushed since then, in order and each once, and all of them were asked for after the flush. -/
theorem pc_chain {pcRst : Pc} {bpu : Bpu} {zero : IqWord} (hP : 1 ≤ P)
    (h : (logged P D p b pcRst bpu zero).Reach (s, l)) (x : FrontendIn) :
    (∀ w ∈ (l.out ++ s.delivered P x).head?, w.pc = l.start) ∧
      (l.out ++ s.delivered P x).IsChain (fun w w' => w'.pc = w.succ) ∧
      ∃ n ≤ l.pushed, l.out ++ s.delivered P x = (List.range n).map l.word ∧
        ∀ k < n, l.flushAt < l.wordAt k := by
  have hi := fetches_of_reach hP h
  obtain ⟨-, hle⟩ := hi.popCnt_le (x := x) hP
  rw [hi.delivered_eq hP]
  refine ⟨fun w hw => ?_, ?_, _, hle, rfl, fun k hk => hi.word_fresh k (by omega)⟩
  · rw [List.head?_map, List.head?_range] at hw
    split_ifs at hw with h0
    · cases hw
    · have hw' : l.word 0 = w := by simpa using hw
      rw [← hw']
      exact hi.chain 0 (by omega)
  · rw [List.isChain_iff_getElem]
    intro k hk
    rw [List.length_map, List.length_range] at hk
    simp only [List.getElem_map, List.getElem_range]
    exact hi.chain (k + 1) (by omega)

/-- The predictor after reset: no entry of the BTB is valid. -/
def bpuRst : Bpu where
  pht := fun _ => 0
  btb := fun _ => ⟨false, 0, 0, false, false⟩
  ghsr := 0
  s1oImme := false
  s1oPc := fun _ => 0
  s1oPhtAddr := fun _ => 0
  s1oBtbAddr := fun _ => 0
  s1oPhtCount := fun _ => 0
  s1oBtb := fun _ => ⟨false, 0, 0, false, false⟩

def emptyWord : IqWord := ⟨0, 0, false, false, ⟨0, 0, 0, false, 0, false⟩⟩

/-- A cycle in which nothing stalls and the I-cache shows NOPs. -/
def freeIn : FrontendIn where
  flush := false
  flushTgt := 0
  icStall := false
  ins := fun _ => 0
  idCe := true
  imme := false
  rm := true
  ice := false
  tlbl := ⟨false, 0, 0⟩
  tlbh := ⟨false, 0, 0⟩
  bpuWb := ⟨false, false, false, false, false, 0, 0, ⟨0, 0, 0, false, 0, false⟩⟩

/-- The first two instructions after reset, in the configuration of the chip. -/
theorem pc_chain_reset :
    ∃ s l, (logged 2 2 3 3 0xc000000 bpuRst emptyWord).Reach (s, l) ∧
      (l.out ++ s.delivered 2 freeIn).map IqWord.pc = [0xc000000, 0xc000001] ∧
      ∃ n ≤ l.pushed, l.out ++ s.delivered 2 freeIn = (List.range n).map l.word ∧
        ∀ k < n, l.flushAt < l.wordAt k := by
  have hr : (logged 2 2 3 3 0xc000000 bpuRst emptyWord).Reach
      ((logged 2 2 3 3 0xc000000 bpuRst emptyWord).run (List.replicate 3 freeIn)) :=
    Machine.reach_run fun _ _ _ => trivial
  exact ⟨_, _, hr, by decide +kernel, (pc_chain (by decide) hr freeIn).2.2⟩

end Frontend

end NanoCpu
