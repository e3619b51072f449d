/-
**The banks of the prefetch buffer are one queue.**

The front-end pushes windows of any length and from any lane on while the buffer is ready, and the
decoder pops no more than it is shown.  Beside the buffer we keep the words that went in and the
words that came out since the last flush.  What came out, followed by what is inside, is what went
in.

Main definitions:

* `IqLog` — the words that went in and came out;
* `PrefetchBuf.Sends` — what the front-end and the decoder promise;
* `PrefetchBuf.machine` — the buffer with its log;
* `PrefetchBuf.Holds` — the buffer shows a list of words, and none of its banks overflows.

Main results:

* `PrefetchBuf.Logged.next` — one cycle;
* `PrefetchBuf.one_queue` — the banks are one queue, and the front-end keeps its promise.
-/

import Mathlib.Data.List.GetD
import NanoCpu.FetchChain

set_option relaxedAutoImplicit false
set_option autoImplicit false

namespace NanoCpu

open Interleave

variable {α : Type*}

/-- The words in a FIFO, by its pointers. -/
def Fifo.count (d : ℕ) (f : Fifo α) : ℕ := (f.wPtr + 2 ^ (d + 1) - f.rPtr) % 2 ^ (d + 1)

theorem Fifo.Rep.count_eq {d R W : ℕ} {f : Fifo α} {e : ℕ → α} (h : f.Rep d R W e) :
    f.count d = W - R := by
  have hle := h.le
  have hadd := h.le_add
  have hM : 0 < 2 ^ d := Nat.two_pow_pos d
  have hlt : W - R < 2 ^ (d + 1) := by rw [Nat.pow_succ]; omega
  rw [Fifo.count, h.wPtr_eq, h.rPtr_eq]
  generalize 2 ^ (d + 1) = N at hlt ⊢
  have hN : 0 < N := by omega
  obtain ⟨k, rfl⟩ := Nat.exists_eq_add_of_le hle
  rw [Nat.add_sub_cancel_left] at hlt ⊢
  have hr := Nat.mod_lt R hN
  rw [Nat.add_mod R k N, Nat.mod_eq_of_lt hlt]
  by_cases hc : R % N + k < N
  · rw [Nat.mod_eq_of_lt hc, show R % N + k + N - R % N = k + N by omega, Nat.add_mod_right,
      Nat.mod_eq_of_lt hlt]
  · have hw : (R % N + k) % N = R % N + k - N := by
      rw [Nat.mod_eq_sub_mod (by omega), Nat.mod_eq_of_lt (by omega)]
    rw [hw, show R % N + k - N + N - R % N = k by omega, Nat.mod_eq_of_lt hlt]

/-- The words that went into the buffer, and those that came out, since the last flush. -/
structure IqLog (α : Type*) where
  pushed : List α
  popped : List α

namespace PrefetchBuf

variable (P D : ℕ)

/-- The words that a cycle pushes. -/
def window (x : PrefetchIn α) : List α :=
  (List.range x.pushCnt).map fun k => x.iq (k + x.pushOffset)

/-- The words that a cycle pops. -/
def taken (s : PrefetchBuf α) (x : PrefetchIn α) : List α := (List.range x.popCnt).map (s.idOut P)

/-- A window is pushed only into a buffer that is ready, and the decoder takes no more than it is
shown. -/
structure Sends (s : PrefetchBuf α) (x : PrefetchIn α) : Prop where
  fits : x.pushCnt + x.pushOffset ≤ 2 ^ P
  ready : 0 < x.pushCnt → s.ready P D = true
  lanes : x.popCnt ≤ 2 ^ P
  valid : ∀ i < x.popCnt, s.idValid P i = true

def logNext (s : PrefetchBuf α) (l : IqLog α) (x : PrefetchIn α) : IqLog α :=
  if x.flush then ⟨[], []⟩ else ⟨l.pushed ++ window x, l.popped ++ s.taken P x⟩

/-- The buffer with its log. -/
def machine (zero : α) : Machine (PrefetchBuf α × IqLog α) (PrefetchIn α) where
  reset := (reset zero, ⟨[], []⟩)
  allowed q x := q.1.Sends P D x
  next q x := (q.1.next P D x, q.1.logNext P q.2 x)

/-- The buffer shows the words of `q`, as many as there are lanes, and each bank has room for its
words and for one that is pushed. -/
structure Holds (s : PrefetchBuf α) (q : List α) : Prop where
  valid : ∀ i < 2 ^ P, s.idValid P i = decide (i < q.length)
  out : ∀ i < 2 ^ P, ∀ w, q[i]? = some w → s.idOut P i = w
  room : ∀ b < 2 ^ P, (s.bank b).count D ≤ 2 ^ D
  push : ∀ x, s.Sends P D x → ∀ b < 2 ^ P, s.tailR P b < x.pushCnt → (s.bank b).count D < 2 ^ D

/-- The buffer beside its log. -/
structure Logged (zero : α) (s : PrefetchBuf α) (l : IqLog α) : Prop where
  rep : s.Rep P D l.popped.length l.pushed.length fun k => l.pushed.getD k zero
  pre : l.popped <+: l.pushed

variable {P D} {zero : α} {s : PrefetchBuf α} {l : IqLog α} {x : PrefetchIn α}

theorem logged_reset (zero : α) : Logged P D zero (reset zero) ⟨[], []⟩ :=
  ⟨rep_reset zero _, List.nil_prefix⟩

/-- The words that are taken are the next ones. -/
theorem Logged.taken_eq (h : Logged P D zero s l) (hx : s.Sends P D x) :
    l.popped.length + x.popCnt ≤ l.pushed.length ∧
      l.popped ++ s.taken P x = l.pushed.take (l.popped.length + x.popCnt) := by
  have hlanes := hx.lanes
  have hle : l.popped.length + x.popCnt ≤ l.pushed.length := by
    cases hc : x.popCnt with
    | zero => exact h.pre.length_le
    | succ n =>
        have := (h.rep.valid_iff (show n < 2 ^ P by omega)).1 (hx.valid n (by omega))
        omega
  refine ⟨hle, ?_⟩
  obtain ⟨r, hr⟩ := h.pre
  have hlen := congrArg List.length hr
  rw [List.length_append] at hlen
  rw [← hr, List.take_length_add_append]
  congr 1
  refine List.ext_getElem (by simp [taken]; omega) fun i h₁ h₂ => ?_
  have hi : i < x.popCnt := by simpa [taken] using h₁
  have hout := h.rep.out_eq (show i < 2 ^ P by omega)
    (show l.popped.length + i < l.pushed.length by omega)
  have hget : (s.taken P x)[i] = s.idOut P i := by simp [taken]
  rw [hget, hout, ← hr, List.getElem_take, List.getD_append_right _ _ _ _ (by omega),
    Nat.add_sub_cancel_left, List.getD_eq_getElem _ _ (by omega)]

/-- **One cycle** pushes its window and pops what the decoder takes. -/
theorem Logged.next (h : Logged P D zero s l) (hx : s.Sends P D x) :
    Logged P D zero (s.next P D x) (s.logNext P l x) := by
  cases hf : x.flush with
  | true =>
      have hl : s.logNext P l x = ⟨[], []⟩ := by simp [logNext, hf]
      rw [hl]
      exact ⟨Rep.next_flush s _ hf, List.nil_prefix⟩
  | false =>
      have hl : s.logNext P l x = ⟨l.pushed ++ window x, l.popped ++ s.taken P x⟩ := by
        simp [logNext, hf]
      obtain ⟨hle, htaken⟩ := h.taken_eq hx
      rw [hl]
      constructor
      · have hrep : s.Rep P D l.popped.length l.pushed.length fun k =>
          (l.pushed ++ window x).getD k zero :=
          h.rep.congr fun k _ hk => (List.getD_append _ _ _ _ hk).symm
        have hn := hrep.next hf hx.fits hx.ready (fun k hk => ?_) hx.lanes hle
        · have h₁ : (l.popped ++ s.taken P x).length = l.popped.length + x.popCnt := by simp [taken]
          have h₂ : (l.pushed ++ window x).length = l.pushed.length + x.pushCnt := by simp [window]
          show Rep P D _ (l.popped ++ s.taken P x).length (l.pushed ++ window x).length _
          rw [h₁, h₂]
          exact hn
        · rw [List.getD_append_right _ _ _ _ (Nat.le_add_right _ _), Nat.add_sub_cancel_left,
            List.getD_eq_getElem _ _ (by simpa [window] using hk)]
          simp [window]
      · show l.popped ++ s.taken P x <+: l.pushed ++ window x
        rw [htaken]
        exact (List.take_prefix _ _).trans (List.prefix_append _ _)

theorem logged_of_reach (h : (machine P D zero).Reach (s, l)) : Logged P D zero s l := by
  refine Machine.Reach.inv (P := fun q => Logged P D zero q.1 q.2) (logged_reset zero) ?_ h
  rintro ⟨s, l⟩ x hi hx
  exact hi.next hx

/-- What is inside. -/
theorem Logged.holds (h : Logged P D zero s l) :
    ∃ q, l.popped ++ q = l.pushed ∧ s.Holds P D q := by
  obtain ⟨q, hq⟩ := h.pre
  have hlen := congrArg List.length hq
  rw [List.length_append] at hlen
  refine ⟨q, hq, ?_, ?_, ?_, ?_⟩
  · intro i hi
    rw [Bool.eq_iff_iff, h.rep.valid_iff hi, decide_eq_true_iff]
    omega
  · intro i hi w hw
    obtain ⟨hiq, hw⟩ := List.getElem?_eq_some_iff.1 hw
    rw [h.rep.out_eq hi (by omega), ← hq, List.getD_append_right _ _ _ _ (Nat.le_add_right _ _),
      Nat.add_sub_cancel_left, List.getD_eq_getElem _ _ hiq, hw]
  · intro b hb
    have hf := h.rep.fifo b hb
    rw [hf.count_eq, Nat.sub_le_iff_le_add, Nat.add_comm]
    exact hf.le_add
  · intro x hx b hb hpush
    have hf := h.rep.fifo b hb
    have hready := hx.ready (by omega)
    simp only [PrefetchBuf.ready, List.all_eq_true, List.mem_range] at hready
    have := hf.lt_of_ready (hready b hb)
    have := hf.le
    rw [hf.count_eq]
    omega

/-- The pushes and pops of the front-end. -/
theorem sends_of_fetches {P D : ℕ} {s : Frontend} {l : FetchLog} (hP : 1 ≤ P) (h : s.Fetches P D l)
    (x : FrontendIn) : s.buf.Sends P D (s.bufIn P D x) := by
  have h2 : 2 ≤ 2 ^ P := Nat.le_self_pow (by omega) 2
  obtain ⟨h₁, h₂⟩ := h.popCnt_le (x := x) hP
  have hfits := h.s2_fits
  refine ⟨?_, ?_, le_trans h₁ h2, ?_⟩
  · show s.iqPushCnt P D x + s.s2oPushOffset ≤ 2 ^ P
    unfold Frontend.iqPushCnt
    split <;> omega
  · intro hpos
    change 0 < s.iqPushCnt P D x at hpos
    unfold Frontend.iqPushCnt at hpos
    split at hpos
    · rename_i hc
      rw [Frontend.pCe, Bool.and_eq_true, Bool.and_eq_true] at hc
      exact hc.2.2
    · omega
  · intro i hi
    change i < s.idPopCnt P x at hi
    exact (h.buf.valid_iff (by omega)).2 (by omega)

/-- **One queue.**  For every sequence of pushes, pops and flushes that keeps the promise, the words
that came out of the buffer, followed by those that it shows and holds, are the words that went in;
and the front-end keeps the promise in every cycle. -/
theorem one_queue (P D : ℕ) (zero : α) :
    (∀ s l, (machine P D zero).Reach (s, l) → ∃ q, l.popped ++ q = l.pushed ∧ s.Holds P D q) ∧
      ∀ (p b : ℕ) (pcRst : Pc) (bpu : Bpu) (z : IqWord) (s : Frontend) (l : FetchLog)
        (x : FrontendIn), 1 ≤ P → (Frontend.logged P D p b pcRst bpu z).Reach (s, l) →
          s.buf.Sends P D (s.bufIn P D x) :=
  ⟨fun _ _ h => (logged_of_reach h).holds,
    fun _ _ _ _ _ _ _ x hP h => sends_of_fetches hP (Frontend.fetches_of_reach hP h) x⟩

instance (s : PrefetchBuf α) (x : PrefetchIn α) : Decidable (s.Sends P D x) :=
  decidable_of_iff (x.pushCnt + x.pushOffset ≤ 2 ^ P ∧ (0 < x.pushCnt → s.ready P D = true) ∧
      x.popCnt ≤ 2 ^ P ∧ ∀ i < x.popCnt, s.idValid P i = true)
    ⟨fun h => ⟨h.1, h.2.1, h.2.2.1, h.2.2.2⟩, fun h => ⟨h.fits, h.ready, h.lanes, h.valid⟩⟩

/-- Windows of three and four words, of which two words are popped, and a flush; then two words,
which are popped while four come in, and of these three are popped in one cycle. -/
def windows : List (PrefetchIn ℕ) :=
  [⟨false, fun k => 10 + k, 3, 1, 0⟩, ⟨false, fun k => 20 + k, 4, 0, 2⟩,
    ⟨true, fun _ => 0, 0, 0, 0⟩,
    ⟨false, fun k => 30 + k, 2, 2, 0⟩, ⟨false, fun k => 40 + k, 4, 0, 2⟩,
      ⟨false, fun _ => 0, 0, 0, 3⟩]

/-- Behind these six cycles. -/
theorem one_queue_windows : ∃ q, [32, 33, 40, 41, 42] ++ q = [32, 33, 40, 41, 42, 43] ∧
    ((machine 2 2 0).run windows).1.Holds 2 2 q := by
  have hsends : ∀ k < 6, ∀ x ∈ windows[k]?,
      ((machine 2 2 0).run (windows.take k)).1.Sends 2 2 x := by
    decide
  have hr : (machine 2 2 0).Reach ((machine 2 2 0).run windows) :=
    Machine.reach_run fun k x hx => hsends k (List.getElem?_eq_some_iff.1 hx).1 x hx
  have hpop : ((machine 2 2 0).run windows).2.popped = [32, 33, 40, 41, 42] := by decide
  have hpush : ((machine 2 2 0).run windows).2.pushed = [32, 33, 40, 41, 42, 43] := by decide
  rw [← hpop, ← hpush]
  exact (one_queue 2 2 0).1 _ _ hr

end PrefetchBuf

end NanoCpu
