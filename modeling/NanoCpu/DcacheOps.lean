/-
**Operations of the D-cache.**

An invalidation, a flush and an uncached access are done by the state machine alone.  An observer
notes the cache and the memory at the start of each of them; when the machine is idle again, what
has become of both can be said in terms of that start.

Main definitions:

* `DcOp`, `Dcache.ops` — an operation with its start, and the cache with the observer;
* `DcOp.Progress` — how far an operation has come, `DcOp.Done` — what it has done.

Main results:

* `Dcache.progress_of_reach` — what the observer's note says;
* `Dcache.invalidate_set` — an invalidation drops the lines of its set, and nothing else;
* `Dcache.invalidate_drops_other` — among them lines at other addresses;
* `Dcache.flush_pushes` — a flush writes its line to memory, and nothing else;
* `Dcache.uncached_access` — an uncached access goes to memory, and nothing else.
-/

import NanoCpu.DcacheFlat
import NanoCpu.DcacheShape

set_option relaxedAutoImplicit false
set_option autoImplicit false
set_option linter.unusedSectionVars false

namespace NanoCpu

open WriteBack

/-- An operation: the cache, the memory and the inputs of the cycle that started it. -/
structure DcOp (n : ℕ) where
  cache : Dcache n
  mem : AxiMem
  inp : DcIn n

namespace DcOp

variable {n : ℕ} [NeZero n] (S : ℕ) (o : DcOp n)

/-- The physical address. -/
def addr : ℕ := (o.cache.s2iPaddr o.inp).toNat

/-- The number of bytes of an access of the given size. -/
def bytes (size : BitVec 3) : ℕ := if size = 0 then 1 else if size = 1 then 2 else 4

def isInv : Prop := o.cache.s1o.inv = true

def isFls : Prop := o.cache.s1o.inv = false ∧ o.cache.s1o.fls = true

def isUncached : Prop := o.cache.s1o.inv = false ∧ o.cache.s1o.fls = false

/-- An uncached access has written its bytes, or has the bytes of memory at the output. -/
structure DoneUncached (s : Dcache n) (m : AxiMem) : Prop where
  store : o.cache.s1o.wmsk ≠ 0 → ∀ p, m.mem p =
    if p / bytes o.cache.s1o.size = o.addr / bytes o.cache.s1o.size then
      byteOf o.cache.s1o.wdat (p % 4) else o.mem.mem p
  load : o.cache.s1o.wmsk = 0 → m.mem = o.mem.mem ∧
    ∀ p, o.addr ≤ p → p < o.addr + 2 ^ o.cache.s1o.size.toNat → p / 4 = o.addr / 4 →
      byteOf s.dout (p % 4) = o.mem.mem p

/-- What an operation has done when the cache is idle again. -/
structure Done (s : Dcache n) (m : AxiMem) : Prop where
  inv : o.isInv → m.mem = o.mem.mem ∧
    s.contents S = (o.cache.contents S).clear fun b => b.2 = Dcache.setFin S o.addr
  fls : o.isFls → s.contents S = o.cache.contents S ∧ ∀ p, m.mem p =
    if p / 64 = o.addr / 64 then o.cache.dirtyView S o.mem.mem p else o.mem.mem p
  uncached : o.isUncached → s.contents S = o.cache.contents S ∧ o.DoneUncached s m

/-- The slots have not changed, and the registers of the second stage are those of the operation. -/
structure Kept (s : Dcache n) : Prop where
  contents : s.contents S = o.cache.contents S
  s2o : s.s2o = o.cache.s2oNxt S o.inp

/-- The beat of an uncached store. -/
def beat (s : Dcache n) : AxiBeat := ⟨s.uncachedData, s.uncachedStrb⟩

/-- How far an operation has come. -/
def Progress (s : Dcache n) (m : AxiMem) : Prop :=
  match s.state with
  | .invalidate => o.isInv ∧ o.Kept S s ∧ m.mem = o.mem.mem
  | .flush => o.isFls ∧ o.Kept S s ∧ m.mem = o.mem.mem
  | .writeback => o.isFls ∧ o.Kept S s ∧ (∃ a, s.Matched S a ∧ s.s2o.d a = true) ∧
      ∀ l, l ≠ o.addr / 64 → lineMem m.mem l = lineMem o.mem.mem l
  | .uncachedBoot => o.isUncached ∧ o.Kept S s ∧ m.mem = o.mem.mem
  | .uncachedRead => o.isUncached ∧ o.Kept S s ∧ o.cache.s1o.wmsk = 0 ∧ s.arAddr = o.addr ∧
      m.mem = o.mem.mem
  | .uncachedWrite => o.isUncached ∧ o.Kept S s ∧ o.cache.s1o.wmsk ≠ 0 ∧ s.awAddr = o.addr ∧
      m.w = AxiBurst.beats (fun _ => beat s) m.w.length ∧
      ∀ p, p / bytes o.cache.s1o.size ≠ o.addr / bytes o.cache.s1o.size → m.mem p = o.mem.mem p
  | .idle => o.Done S s m
  | _ => False

variable {S o} {s : Dcache n} {x : DcIn n}

theorem Kept.next (h : o.Kept S s) (hst : s.state = .flush ∨ s.state = .writeback ∨
    s.state = .uncachedBoot ∨ s.state = .uncachedRead ∨ s.state = .uncachedWrite) :
    o.Kept S (s.next S x) := by
  have hidle : s.state ≠ .idle := by rcases hst with hst | hst | hst | hst | hst <;> simp [hst]
  refine ⟨(Dcache.contents_next (Dcache.s2iReady_of_state hidle) ?_).trans h.contents,
    (Dcache.next_s2o_of_stall hidle).trans h.s2o⟩
  rcases hst with hst | hst | hst | hst | hst <;> simp [hst]

theorem Kept.paddr (h : o.Kept S s) : s.s2o.paddr.toNat = o.addr := by
  rw [h.s2o]
  rfl

end DcOp

namespace Dcache

variable {n : ℕ} [NeZero n] {S : ℕ} {s : Dcache n} {m : AxiMem} {x : DcIn n} {m₀ : ℕ → Byte}
  {pay : Fin n → ℕ × ℕ → ℕ → Byte} {o : DcOp n}

/-- What the observer notes in a cycle. -/
def noteOp (g : Option (DcOp n)) (s : Dcache n) (m : AxiMem) (x : DcIn n) : Option (DcOp n) :=
  if s.starts x then some ⟨s, m, x⟩ else if s.state = .idle then none else g

/-- The cache under any requests, with an observer of its operations. -/
def ops (n : ℕ) [NeZero n] (S : ℕ) (pay : Fin n → ℕ × ℕ → ℕ → Byte) (m₀ : ℕ → Byte) :
    Machine ((Dcache n × AxiMem) × Option (DcOp n)) (DcIn n) :=
  (machine n S pay m₀).observe none (fun g q x => noteOp g q.1 q.2 x) fun _ q x => q.1.Alone x

/-! ### The start -/

theorem kept_next_idle (hst : s.state = .idle) (hready : s.s2iReady S x = false) :
    (⟨s, m, x⟩ : DcOp n).Kept S (s.next S x) :=
  ⟨contents_next hready (by simp [hst]), next_s2o_of_idle hst⟩

/-- A flush of a line that is not in the cache is done at once. -/
theorem done_of_flush_miss (hS : S ≤ 7) (h : s.Shape S m) (hst : s.state = .idle)
    (hr : s.s1o.req = true) (hready : s.s2iReady S x = false) (hi : s.s1o.inv = false)
    (hf : s.s1o.fls = true) (hh : s.s2iHit S x = false) :
    (⟨s, m, x⟩ : DcOp n).Done S (s.next S x) (m.next s.axiOut x.axi) := by
  have hb := h.bus
  rw [Bus, hst] at hb
  have hmem := hb.write.mem_next (i := x.axi)
  have hfresh := h.fresh (Or.inl hst) hr
  refine ⟨fun h' => ?_, fun _ => ⟨contents_next hready (by simp [hst]), fun p => ?_⟩, fun h' => ?_⟩
  · rw [DcOp.isInv, hi] at h'
    cases h'
  · rw [hmem]
    split_ifs with hp
    · refine (dirtyView_of_clean (fun a ha => ?_) m.mem).symm
      rw [hp] at ha
      exact absurd ha (absent_of_not_hit hS hfresh hh a)
    · rfl
  · have := h'.2
    rw [hf] at this
    cases this

/-- The cycle that starts an operation. -/
theorem progress_start (hS : S ≤ 7) (h : s.Shape S m) (hs : s.starts x = true) :
    (⟨s, m, x⟩ : DcOp n).Progress S (s.next S x) (m.next s.axiOut x.axi) := by
  have hst : s.state = .idle := by
    simp only [starts, Bool.and_eq_true, decide_eq_true_eq] at hs
    exact hs.1.1
  have hr : s.s1o.req = true := by
    simp only [starts, Bool.and_eq_true] at hs
    exact hs.1.2
  have hb := h.bus
  rw [Bus, hst] at hb
  have hmem := hb.write.mem_next (i := x.axi)
  rw [DcOp.Progress]
  rcases idle_steps (S := S) (x := x) hst with ⟨hready, hn, hmiss⟩ | ⟨-, hs', -⟩ | ⟨-, hs', -⟩ |
    ⟨hready, -, -, hi, hn⟩ | ⟨hready, -, -, hi, hf, hh, hn⟩ | ⟨hready, -, -, hi, hf, hu, hn⟩
  · obtain ⟨hi, hf, hh⟩ := hmiss hs
    rw [hn]
    exact done_of_flush_miss hS h hst hr hready hi hf hh
  · rw [hs] at hs'
    cases hs'
  · rw [hs] at hs'
    cases hs'
  · rw [hn]
    exact ⟨hi, kept_next_idle hst hready, hmem⟩
  · rw [hn]
    exact ⟨⟨hi, hf⟩, kept_next_idle hst hready, hmem⟩
  · rw [hn]
    exact ⟨⟨hi, hf⟩, kept_next_idle hst hready, hmem⟩

/-! ### The cycles of an operation -/

/-- An invalidation is done in one cycle. -/
theorem progress_next_invalidate (h : s.Shape S m) (hp : o.Progress S s m)
    (hst : s.state = .invalidate) : o.Progress S (s.next S x) (m.next s.axiOut x.axi) := by
  have hb := h.bus
  have hstage := h.stage
  rw [Bus, hst] at hb
  rw [Stage, hst] at hstage
  rw [DcOp.Progress, hst] at hp
  obtain ⟨hi, hk, hm⟩ := hp
  have hn : (s.next S x).state = .idle := by
    change s.stateNxt S x = _
    simp [stateNxt, hst]
  rw [DcOp.Progress, hn]
  refine ⟨fun _ => ⟨hb.write.mem_next.trans hm, ?_⟩, fun h' => ?_, fun h' => ?_⟩
  · rw [contents_next_invalidate hst hstage.2, hk.contents, hk.paddr]
  · exact absurd h'.1 (by rw [show o.cache.s1o.inv = true from hi]; simp)
  · exact absurd h'.1 (by rw [show o.cache.s1o.inv = true from hi]; simp)

/-- The line that a flush matches, seen at the start of the operation. -/
theorem dirtyView_of_matched (h : s.Shape S m) (hk : o.Kept S s) {a : Fin n} (hmat : s.Matched S a)
    {p : ℕ} (hp : p / 64 = o.addr / 64) : o.cache.dirtyView S o.mem.mem p =
      if s.s2o.d a then (s.contents S).data (s.slot S a) (Fin.ofNat 64 p) else o.mem.mem p := by
  have hset : s.slot S a = (a, setFin S p) := by
    rw [slot, hk.paddr]
    simp only [setFin, setOf, hp]
  have hline : (o.cache.contents S).line (a, setFin S p) = some (p / 64) := by
    rw [← hk.contents, ← hset, hmat.line, hk.paddr, hp]
  have hdirty : (o.cache.contents S).dirty (a, setFin S p) = s.s2o.d a := by
    rw [← hk.contents, ← hset, hmat.dirty]
  have hok := h.ok
  rw [hk.contents] at hok
  cases hd : s.s2o.d a with
  | true =>
      rw [hd] at hdirty
      rw [dirtyView_of_dirty hok hline hdirty, hset, hk.contents, if_pos rfl]
  | false =>
      rw [hd] at hdirty
      rw [if_neg Bool.false_ne_true]
      refine dirtyView_of_clean (fun b hb => ?_) _
      rw [hok.uniq _ _ _ hb hline]
      exact hdirty

/-- The first cycle of a flush: a clean line needs nothing. -/
theorem progress_next_flush (h : s.Shape S m) (hp : o.Progress S s m) (hst : s.state = .flush) :
    o.Progress S (s.next S x) (m.next s.axiOut x.axi) := by
  have hb := h.bus
  have hstage := h.stage
  rw [Bus, hst] at hb
  rw [Stage, hst] at hstage
  rw [DcOp.Progress, hst] at hp
  obtain ⟨hi, hk, hm⟩ := hp
  obtain ⟨a, hmat⟩ := hstage
  have hk' : o.Kept S (s.next S x) := hk.next (Or.inl hst)
  have hmem : (m.next s.axiOut x.axi).mem = o.mem.mem := hb.write.mem_next.trans hm
  have hs2 : (s.next S x).s2o = s.s2o := next_s2o_of_stall (by simp [hst])
  have hd : s.s2oMatchDirty = s.s2o.d a := pmux_of_unique hmat.way _
  have hn : (s.next S x).state = s.stateNxt S x := rfl
  rw [DcOp.Progress, hn, stateNxt, hst, hd]
  cases hd' : s.s2o.d a with
  | true => exact ⟨hi, hk', ⟨a, hmat.next (Or.inl hst), by rw [hs2, hd']⟩, fun l _ => by rw [hmem]⟩
  | false =>
      refine ⟨fun h' => ?_, fun _ => ⟨hk'.contents, fun p => ?_⟩, fun h' => ?_⟩
      · exact absurd hi.1 (by rw [show o.cache.s1o.inv = true from h']; simp)
      · rw [hmem]
        split_ifs with hpl
        · rw [dirtyView_of_matched h hk hmat hpl, hd', if_neg Bool.false_ne_true]
        · rfl
      · exact absurd hi.2 (by rw [h'.2]; simp)

/-- A cycle of the write-back of a flush. -/
theorem progress_next_writeback (h : s.Shape S m) (hp : o.Progress S s m)
    (hst : s.state = .writeback)
    (ha : m.Answers x.axi) : o.Progress S (s.next S x) (m.next s.axiOut x.axi) := by
  have hb := h.bus
  have hstage := h.stage
  rw [Bus, hst] at hb
  rw [Stage, hst] at hstage
  rw [DcOp.Progress, hst] at hp
  obtain ⟨hi, hk, ⟨a, hmat, hd⟩, hm⟩ := hp
  obtain ⟨k, hb⟩ := hb
  have hsend : s.Sends S m a (o.addr / 64) := by
    rcases hstage with ⟨a', hmat', hsend⟩ | ⟨fw, v, hrepl, -⟩
    · have : a' = a := by
        have := hmat.way a'
        rw [hmat'.way a'] at this
        simpa [eq_comm] using this
      rw [← this, ← hk.paddr]
      exact hsend
    · have := hrepl.fls
      rw [hmat.fls] at this
      cases this
  have hk' : o.Kept S (s.next S x) := hk.next (Or.inr (Or.inl hst))
  have hs2 : (s.next S x).s2o = s.s2o := next_s2o_of_stall (by simp [hst])
  have hmem : ∀ l, l ≠ o.addr / 64 → lineMem (m.next s.axiOut x.axi).mem l = lineMem o.mem.mem l :=
    fun l hl => (hsend.mem_next hb hl).trans (hm l hl)
  rw [DcOp.Progress]
  rcases hb.next (S := S) hst ha with ⟨-, hn, -⟩ | ⟨hB, -, -, hn, -⟩ | ⟨-, -, hf, -⟩
  · rw [hn]
    exact ⟨hi, hk', ⟨a, hmat.next (Or.inr hst), by rw [hs2, hd]⟩, hmem⟩
  · -- the line is in memory
    rw [hn]
    refine ⟨fun h' => ?_, fun _ => ⟨hk'.contents, fun p => ?_⟩, fun h' => ?_⟩
    · exact absurd hi.1 (by rw [show o.cache.s1o.inv = true from h']; simp)
    · have hF : ∀ G : ℕ → Byte, lineMem G (p / 64) (Fin.ofNat 64 p) = G p := by
        intro G
        simp only [lineMem, Fin.val_ofNat]
        congr 1
        omega
      split_ifs with hpl
      · rw [dirtyView_of_matched h hk hmat hpl, hd, if_pos rfl,
          ← hF (m.next s.axiOut x.axi).mem, hpl, hsend.landed hb ha hB]
      · rw [← hF (m.next s.axiOut x.axi).mem, hmem _ hpl, hF]
    · exact absurd hi.2 (by rw [h'.2]; simp)
  · rw [hmat.fls] at hf
    cases hf

/-- The first cycle of an uncached access. -/
theorem progress_next_uncachedBoot (h : s.Shape S m) (hp : o.Progress S s m)
    (hst : s.state = .uncachedBoot) (ha : m.Answers x.axi) :
    o.Progress S (s.next S x) (m.next s.axiOut x.axi) := by
  have hb := h.bus
  rw [Bus, hst] at hb
  rw [DcOp.Progress, hst] at hp
  obtain ⟨hi, hk, hm⟩ := hp
  have hk' : o.Kept S (s.next S x) := hk.next (by simp [hst])
  have hmem : (m.next s.axiOut x.axi).mem = o.mem.mem := hb.write.mem_next.trans hm
  have haddr : s.axiPaddrNxt S = o.addr := by
    rw [axiPaddrNxt, show s.fsmUncachedReq =
      true by simp [fsmUncachedReq, hst], if_pos rfl, hk.paddr]
  have hwm : s.s2o.wmsk = o.cache.s1o.wmsk := by
    rw [hk.s2o]
    rfl
  rw [DcOp.Progress]
  rcases BusQuiet.next_uncached (S := S) hb ha hst with ⟨hn, hw, -⟩ | ⟨hn, hw, hb'⟩ <;> rw [hn]
  · refine ⟨hi, hk', by rw [← hwm, hw], ?_, hmem⟩
    change ldff (s.arSet x) (s.axiPaddrNxt S) _ = _
    rw [show s.arSet x = true by simp [arSet, hst, hw], haddr]
    rfl
  · refine ⟨hi, hk', by rw [← hwm]; exact hw, ?_, ?_, fun p _ => by rw [hmem]⟩
    · change ldff s.awSet (s.axiPaddrNxt S) _ = _
      rw [show s.awSet = true by simpa [awSet, hst] using hw, haddr]
      rfl
    · rw [hb'.write.length, List.eq_nil_of_length_eq_zero hb'.write.length]
      rfl

/-- A cycle of an uncached load. -/
theorem progress_next_uncachedRead (h : s.Shape S m) (hp : o.Progress S s m)
    (hst : s.state = .uncachedRead) (ha : m.Answers x.axi) :
    o.Progress S (s.next S x) (m.next s.axiOut x.axi) := by
  have hb := h.bus
  have hstage := h.stage
  rw [Bus, hst] at hb
  rw [Stage, hst] at hstage
  rw [DcOp.Progress, hst] at hp
  obtain ⟨hi, hk, hw, har, hm⟩ := hp
  have hk' : o.Kept S (s.next S x) := hk.next (by simp [hst])
  have hs2 : (s.next S x).s2o = s.s2o := next_s2o_of_stall (by simp [hst])
  have hmem : (m.next s.axiOut x.axi).mem = o.mem.mem := hb.write.mem_next.trans hm
  have hsize : s.s2o.size = o.cache.s1o.size := by
    rw [hk.s2o]
    rfl
  rw [DcOp.Progress]
  rcases BusUncachedRead.next (S := S) hb hst ha with ⟨-, hn, -⟩ | ⟨hR, hn, -⟩ <;> rw [hn]
  · refine ⟨hi, hk', hw, ?_, hmem⟩
    change ldff (s.arSet x) _ _ = _
    rw [show s.arSet x = false by simp [arSet, hst]]
    exact har
  · refine ⟨fun h' => ?_, fun h' => ?_,
      fun _ => ⟨hk'.contents, ⟨fun h' => absurd hw h', fun _ => ⟨hmem, ?_⟩⟩⟩⟩
    · exact absurd hi.1 (by rw [show o.cache.s1o.inv = true from h']; simp)
    · exact absurd hi.2 (by rw [h'.2]; simp)
    · intro p hp₁ hp₂ hp₄
      have hv : x.axi.rValid = true := by
        rw [hdsAxiR, Bool.and_eq_true] at hR
        exact hR.1
      obtain ⟨-, -, hdata⟩ := hb.read.data ha hv
      have hbyte := hdata p
      simp only [AxiBurst.beatAddr, Nat.zero_mul, Nat.add_zero, har, hsize] at hbyte
      have hlane : 4 * (o.addr / 4 % 2) + p % 4 = p % 8 := by omega
      have hrd : (s.next S x).rdataFf = packBytes (alignR x.axi.rData s.arAddr) := by
        change ldff (s.hdsAxiR x) _ _ = _
        rw [hR]
        rfl
      rw [dout, hs2, if_pos hstage, hrd, byteOf_packBytes _ (Nat.mod_lt _ (by omega)), alignR,
        har, hlane, hbyte hp₁ hp₂, hm]

/-- The bytes that an uncached store covers. -/
theorem covers_beat (hk : o.Kept S s) (p : ℕ) :
    (DcOp.beat s).Covers o.addr p ↔
      p / DcOp.bytes o.cache.s1o.size = o.addr / DcOp.bytes o.cache.s1o.size := by
  have hsize : s.s2o.size = o.cache.s1o.size := by
    rw [hk.s2o]
    rfl
  simp only [AxiBeat.Covers, DcOp.beat, uncachedStrb, hk.paddr, hsize, DcOp.bytes]
  by_cases h0 : o.cache.s1o.size = 0
  · simp only [if_pos h0, decide_eq_true_eq]
    omega
  · by_cases h1 : o.cache.s1o.size = 1
    · simp only [if_neg h0, if_pos h1, decide_eq_true_eq]
      omega
    · simp only [if_neg h0, if_neg h1, decide_eq_true_eq]
      omega

theorem beat_data (hk : o.Kept S s) {p : ℕ}
    (hp : p / DcOp.bytes o.cache.s1o.size = o.addr / DcOp.bytes o.cache.s1o.size) :
    (DcOp.beat s).data (p % 8) = byteOf o.cache.s1o.wdat (p % 4) := by
  have hsize : s.s2o.size = o.cache.s1o.size := by
    rw [hk.s2o]
    rfl
  have hwdat : s.s2o.wdat = o.cache.s1o.wdat := by
    rw [hk.s2o]
    rfl
  have h4 : p % 8 % 4 = p % 4 := by omega
  simp only [DcOp.beat, uncachedData, hk.paddr, hsize, hwdat, DcOp.bytes, h4] at hp ⊢
  by_cases h0 : o.cache.s1o.size = 0
  · rw [if_pos h0] at hp
    rw [if_pos h0, if_pos (by omega)]
  · by_cases h1 : o.cache.s1o.size = 1
    · rw [if_neg h0, if_pos h1] at hp
      rw [if_neg h0, if_pos h1, if_pos (by omega)]
    · rw [if_neg h0, if_neg h1] at hp
      rw [if_neg h0, if_neg h1, if_pos (by omega)]

/-- What the memory has been sent of an uncached store. -/
theorem written_beat (hk : o.Kept S s) (size : ℕ) {k p : ℕ} (hle : k ≤ 1) :
    (⟨o.addr, 0, size⟩ : AxiBurst).written (AxiBurst.beats (fun _ => DcOp.beat s) k) p =
      if k = 1 ∧ p / DcOp.bytes o.cache.s1o.size = o.addr / DcOp.bytes o.cache.s1o.size then
        some (byteOf o.cache.s1o.wdat (p % 4))
      else none := by
  have hbeat : ∀ i < k, (⟨o.addr, 0, size⟩ : AxiBurst).beatAddr i = o.addr := by
    intro i hi
    obtain rfl : i = 0 := by omega
    simp [AxiBurst.beatAddr]
  split_ifs with hp
  · rw [AxiBurst.written_of_mem (i := 0) (by omega), beat_data hk hp.2]
    · rw [hbeat 0 (by omega), covers_beat hk]
      exact hp.2
    · intro j hj _
      omega
  · refine AxiBurst.written_eq_none fun i hi hc => hp ⟨by omega, ?_⟩
    rw [hbeat i hi, covers_beat hk] at hc
    exact hc

/-- A cycle of an uncached store. -/
theorem progress_next_uncachedWrite (h : s.Shape S m) (hp : o.Progress S s m)
    (hst : s.state = .uncachedWrite) (ha : m.Answers x.axi) :
    o.Progress S (s.next S x) (m.next s.axiOut x.axi) := by
  have hb := h.bus
  rw [Bus, hst] at hb
  rw [DcOp.Progress, hst] at hp
  obtain ⟨hi, hk, hwm, haw, hw, hm⟩ := hp
  obtain ⟨k, hb⟩ := hb
  have hk' : o.Kept S (s.next S x) := hk.next (by simp [hst])
  have hs2 : (s.next S x).s2o = s.s2o := next_s2o_of_stall (by simp [hst])
  have hlen : m.w.length = k := hb.write.length
  have hle : k ≤ 1 := hb.write.le
  rw [hlen] at hw
  have hinc : ∀ p u, m.incoming p = some u →
      p / DcOp.bytes o.cache.s1o.size = o.addr / DcOp.bytes o.cache.s1o.size ∧
        u = byteOf o.cache.s1o.wdat (p % 4) := by
    intro p u hu
    rw [AxiMem.incoming, hb.write.mAw] at hu
    split_ifs at hu
    · cases hu
    · rw [Option.bind_some, haw, hw, written_beat hk _ hle] at hu
      split_ifs at hu with hc
      rw [Option.some_inj] at hu
      exact ⟨hc.2, hu.symm⟩
  have hother : ∀ p, p / DcOp.bytes o.cache.s1o.size ≠ o.addr / DcOp.bytes o.cache.s1o.size →
      (m.next s.axiOut x.axi).mem p = o.mem.mem p := by
    intro p hne
    rw [AxiMem.next_mem_of_incoming ?_, hm p hne]
    cases hu : m.incoming p with
    | none => rfl
    | some u => exact absurd (hinc p u hu).1 hne
  have hbeat : DcOp.beat (s.next S x) = DcOp.beat s := by
    rw [DcOp.beat, DcOp.beat]
    simp only [AxiBeat.mk.injEq]
    constructor <;> funext l <;> simp only [uncachedData, uncachedStrb, hs2]
  rw [DcOp.Progress]
  rcases BusUncachedWrite.next (S := S) hb hst ha with ⟨hB, hn, hb'⟩ | ⟨hB, rfl, hn, -⟩ <;> rw [hn]
  · refine ⟨hi, hk', hwm, ?_, ?_, hother⟩
    · change ldff s.awSet _ _ = _
      rw [show s.awSet = false by simp [awSet, hst]]
      exact haw
    · have hB' : (x.axi.bValid && s.axiOut.bReady) = false := by
        rw [Bool.and_comm]
        exact hB
      rw [hb'.write.length, hbeat]
      change (if s.hdsAxiW x then s.wBeat :: m.w else if _ then [] else m.w) = _
      rw [hB', hw, wBeat, hst]
      cases hW : s.hdsAxiW x with
      | false => rfl
      | true =>
          have hk0 : k = 0 := by
            have hv : s.wValid = decide (k ≤ 0) := hb.write.wValid
            rw [hdsAxiW, Bool.and_eq_true, hv, decide_eq_true_iff] at hW
            omega
          rw [hk0]
          rfl
  · -- the response has come
    have hB' : x.axi.bValid = true := by
      rw [hdsAxiB, Bool.and_eq_true] at hB
      exact hB.2
    obtain ⟨-, -, hland⟩ := hb.write.of_bValid ha hB'
    refine ⟨fun h' => ?_, fun h' => ?_,
      fun _ => ⟨hk'.contents, ⟨fun _ p => ?_, fun h' => absurd h' hwm⟩⟩⟩
    · exact absurd hi.1 (by rw [show o.cache.s1o.inv = true from h']; simp)
    · exact absurd hi.2 (by rw [h'.2]; simp)
    · split_ifs with hc
      · refine AxiMem.next_mem_eq (hland p _ ?_) (fun u hu => (hinc p u hu).2) _ _
        rw [haw, hw, written_beat hk _ hle, if_pos ⟨rfl, hc⟩]
      · exact hother p hc

/-! ### All cycles -/

theorem progress_next (h : s.Shape S m) (hp : o.Progress S s m) (hst : s.state ≠ .idle)
    (ha : m.Answers x.axi) : o.Progress S (s.next S x) (m.next s.axiOut x.axi) := by
  cases hs : s.state
  case idle => exact absurd hs hst
  case invalidate => exact progress_next_invalidate h hp hs
  case flush => exact progress_next_flush h hp hs
  case writeback => exact progress_next_writeback h hp hs ha
  case uncachedBoot => exact progress_next_uncachedBoot h hp hs ha
  case uncachedRead => exact progress_next_uncachedRead h hp hs ha
  case uncachedWrite => exact progress_next_uncachedWrite h hp hs ha
  all_goals
    rw [DcOp.Progress, hs] at hp
    exact hp.elim

/-- The cache is in order, and the operation that the observer has noted is going on or done. -/
theorem progress_of_reach (hS : S ≤ 7) {g : Option (DcOp n)}
    (hr : (ops n S pay m₀).Reach ((s, m), g)) :
    s.Shape S m ∧ ∀ o, g = some o → o.cache.Shape S o.mem ∧ o.Progress S s m := by
  refine Machine.Reach.inv (P := fun q => q.1.1.Shape S q.1.2 ∧
    ∀ o, q.2 = some o → o.cache.Shape S o.mem ∧ o.Progress S q.1.1 q.1.2) ?_ ?_ hr
  · refine ⟨shape_reset pay m₀, fun o ho => ?_⟩
    cases ho
  · rintro ⟨⟨s, m⟩, g⟩ x ⟨h, hg⟩ ⟨ha, hx⟩
    refine ⟨h.next hS hx ha, fun o ho => ?_⟩
    change noteOp g s m x = some o at ho
    change _ ∧ o.Progress S (s.next S x) (m.next s.axiOut x.axi)
    rw [noteOp] at ho
    split_ifs at ho with hs hst
    · rw [Option.some_inj] at ho
      rw [← ho]
      exact ⟨h, progress_start hS h hs⟩
    · exact ⟨(hg o ho).1, progress_next h (hg o ho).2 hst ha⟩

/-- When the cache is idle again the operation is done. -/
theorem done_of_reach (hS : S ≤ 7) (hr : (ops n S pay m₀).Reach ((s, m), some o))
    (hst : s.state = .idle) : o.cache.Shape S o.mem ∧ o.Done S s m := by
  obtain ⟨h₀, hp⟩ := (progress_of_reach hS hr).2 o rfl
  rw [DcOp.Progress, hst] at hp
  exact ⟨h₀, hp⟩

/-- The slots and the memory decide what is seen. -/
theorem dirtyView_congr {s' : Dcache n} (ho : (s.contents S).Ok) (hc : s'.contents S = s.contents S)
    {mem mem' : ℕ → Byte} {p : ℕ} (hm : mem' p = mem p ∨ mem' p = s.dirtyView S mem p) :
    s'.dirtyView S mem' p = s.dirtyView S mem p := by
  by_cases hcl : ∀ a, (s.contents S).line a = some (p / 64) → (s.contents S).dirty a = false
  · have h₁ := dirtyView_of_clean hcl mem
    rw [dirtyView_of_clean (by rw [hc]; exact hcl), h₁]
    rw [h₁] at hm
    exact hm.elim id id
  · push Not at hcl
    obtain ⟨⟨w, i⟩, hl, hd⟩ := hcl
    obtain rfl : i = setFin S p := Fin.ext (set_of_line hl)
    replace hd := Bool.eq_true_of_not_eq_false hd
    rw [dirtyView_of_dirty ho hl hd,
      dirtyView_of_dirty (by rw [hc]; exact ho) (by rw [hc]; exact hl) (by rw [hc]; exact hd), hc]

/-! ### Operations on a small cache

Runs with a memory that takes everything at once, and answers when all is written. -/

section SmallRuns

variable {g : Option (DcOp n)} {b : AxiBurst} {k : ℕ}

/-- Cached accesses are requests like any other. -/
theorem ops_of_cached {h : DcHist} (hS : S ≤ 7) (hr : (cached n S pay m₀).Reach ((s, m), h)) :
    ∃ g, (ops n S pay m₀).Reach ((s, m), g) := by
  have key : ∀ q, (cached n S pay m₀).Reach q → ∃ g, (ops n S pay m₀).Reach (q.1, g) := by
    intro q hq
    induction hq with
    | reset => exact ⟨none, Machine.Reach.reset⟩
    | @tick q x hq hx ih =>
        obtain ⟨g, hg⟩ := ih
        obtain ⟨⟨s, m⟩, h⟩ := q
        refine ⟨noteOp g s m x, Machine.Reach.tick hg ⟨hx.1, fun _ hreq hinv => ?_⟩⟩
        have := ((observed_of_reach hS hq).inv.front hreq).2.1
        rw [hinv] at this
        cases this
  exact key _ hr

/-- A cycle without a request, in which the state machine works on. -/
theorem reach_work (hr : (ops n S pay m₀).Reach ((s, m), g)) (hst : s.state ≠ .idle) {axi : AxiIn}
    (ha : m.Answers axi) :
    (ops n S pay m₀).Reach ((s.next S (pageZero n noReq axi), m.next s.axiOut axi), g) := by
  have hg : noteOp g s m (pageZero n noReq axi) = g := by simp [noteOp, starts, hst]
  have ht : (ops n S pay m₀).Reach ((s.next S (pageZero n noReq axi), m.next s.axiOut axi),
      noteOp g s m (pageZero n noReq axi)) :=
    Machine.Reach.tick (x := pageZero n noReq axi) hr ⟨ha, fun _ _ _ => rfl⟩
  rwa [hg] at ht

/-- The state machine writes the burst `b` of a flush or an uncached store, and has sent `k`
beats. -/
def Writing (s : Dcache n) (m : AxiMem) (b : AxiBurst) (k : ℕ) : Prop :=
  (s.state = .writeback ∧ s.s2o.fls = true ∧ b = ⟨s.awAddr, 15, 2⟩ ∧ s.BusWriteback m k) ∨
    (s.state = .uncachedWrite ∧ b = ⟨s.awAddr, 0, s.s2o.size.toNat⟩ ∧ s.BusUncachedWrite m k)

theorem Writing.writes (h : s.Writing m b k) : s.state ≠ .idle ∧ m.Writes s.axiOut b k := by
  rcases h with ⟨hst, -, rfl, hb⟩ | ⟨hst, rfl, hb⟩
  · exact ⟨by simp [hst], hb.write⟩
  · exact ⟨by simp [hst], hb.write⟩

/-- A cycle without the response. -/
theorem Writing.next (h : s.Writing m b k) (ha : m.Answers x.axi) (hx : x.axi.bValid = false) :
    (s.next S x).Writing (m.next s.axiOut x.axi) b (k + (s.hdsAxiW x).toNat) ∧
      (s.next S x).contents S = s.contents S ∧ (s.next S x).s1o = s.s1o := by
  have hidle := h.writes.1
  have hB : s.hdsAxiB x = false := by rw [hdsAxiB, hx, Bool.and_false]
  have hs2 : (s.next S x).s2o = s.s2o := next_s2o_of_stall hidle
  have haw : s.awSet = false := by rcases h with ⟨hst, -⟩ | ⟨hst, -⟩ <;> simp [awSet, hst]
  have haddr : (s.next S x).awAddr = s.awAddr := by
    change ldff s.awSet _ _ = _
    rw [haw]
    rfl
  refine ⟨?_, contents_next (s2iReady_of_state hidle) ?_, next_s1o_of_stall hidle⟩
  · rcases h with ⟨hst, hf, rfl, hb⟩ | ⟨hst, rfl, hb⟩
    · rcases hb.next (S := S) hst ha with ⟨-, hn, hb'⟩ | ⟨hB', -⟩ | ⟨hB', -⟩
      · exact Or.inl ⟨hn, by rw [hs2, hf], by rw [haddr], hb'⟩
      · rw [hB] at hB'
        cases hB'
      · rw [hB] at hB'
        cases hB'
    · rcases hb.next (S := S) hst ha with ⟨-, hn, hb'⟩ | ⟨hB', -⟩
      · exact Or.inr ⟨hn, by rw [haddr, hs2], hb'⟩
      · rw [hB] at hB'
        cases hB'
  · rcases h with ⟨hst, -⟩ | ⟨hst, -⟩ <;> simp [hst]

/-- A memory that takes all it is sent, and writes it. -/
def takeAll : AxiIn := { AxiIn.silent with awReady := true, wReady := true, land := fun _ => true }

theorem answers_takeAll (m : AxiMem) : m.Answers takeAll :=
  ⟨fun h => Bool.noConfusion h, fun h => Bool.noConfusion h⟩

/-- Everything is sent. -/
theorem Writing.sent (j : ℕ) : ∀ {s : Dcache n} {m : AxiMem} {k : ℕ}, s.Writing m b k →
    (ops n S pay m₀).Reach ((s, m), g) → b.len + 1 - k + s.awValid.toNat = j →
    ∃ (s' : Dcache n) (m' : AxiMem), (ops n S pay m₀).Reach ((s', m'), g) ∧
      s'.Writing m' b (b.len + 1) ∧ s'.awValid = false ∧ s'.contents S = s.contents S ∧
      s'.s1o = s.s1o := by
  induction j using Nat.strong_induction_on with
  | _ j ih =>
      intro s m k h hr hj
      have hw := h.writes.2
      have hle := hw.le
      by_cases hdone : k = b.len + 1 ∧ s.awValid = false
      · exact ⟨s, m, hr, by rw [← hdone.1]; exact h, hdone.2, rfl, rfl⟩
      · have hn := h.next (S := S) (x := pageZero n noReq takeAll) (answers_takeAll m) rfl
        have hr' := reach_work hr h.writes.1 (answers_takeAll m)
        have hav : (s.next S (pageZero n noReq takeAll)).awValid = false := by
          have haw : s.awSet = false := by rcases h with ⟨hst, -⟩ | ⟨hst, -⟩ <;> simp [awSet, hst]
          rw [next_awValid, haw]
          simp [pageZero, takeAll]
        have hhds : s.hdsAxiW (pageZero n noReq takeAll) = decide (k ≤ b.len) := by
          have : s.wValid = decide (k ≤ b.len) := hw.wValid
          rw [hdsAxiW, this]
          simp [pageZero, takeAll]
        have hlt : b.len + 1 - (k + (s.hdsAxiW (pageZero n noReq takeAll)).toNat) +
            (s.next S (pageZero n noReq takeAll)).awValid.toNat < j := by
          rw [hav, hhds, ← hj]
          by_cases hk : k ≤ b.len
          · simp [hk]
            omega
          · have hk' : k = b.len + 1 := by omega
            have : s.awValid = true := by
              by_contra hne
              exact hdone ⟨hk', by simpa using hne⟩
            simp [hk', this]
        obtain ⟨s', m', h₁, h₂, h₃, h₄, h₅⟩ := ih _ hlt hn.1 hr' rfl
        exact ⟨s', m', h₁, h₂, h₃, h₄.trans hn.2.1, h₅.trans hn.2.2⟩

/-- The write comes to its end. -/
theorem Writing.finish (h : s.Writing m b k) (hr : (ops n S pay m₀).Reach ((s, m), g)) :
    ∃ (s' : Dcache n) (m' : AxiMem), (ops n S pay m₀).Reach ((s', m'), g) ∧ s'.state = .idle ∧
      s'.contents S = s.contents S ∧ s'.s1o = s.s1o := by
  obtain ⟨s₁, m₁, hr₁, h₁, hav₁, hc₁, hs₁⟩ := h.sent _ hr rfl
  -- all bytes land
  have hn₂ := h₁.next (S := S) (x := pageZero n noReq takeAll) (answers_takeAll m₁) rfl
  have hr₂ := reach_work hr₁ h₁.writes.1 (answers_takeAll m₁)
  have hW₁ : s₁.hdsAxiW (pageZero n noReq takeAll) = false := by
    have : s₁.wValid = decide (b.len + 1 ≤ b.len) := h₁.writes.2.wValid
    rw [hdsAxiW, this]
    simp
  rw [hW₁, Bool.toNat_false, Nat.add_zero] at hn₂
  set s₂ := s₁.next S (pageZero n noReq takeAll) with hs₂
  set m₂ := m₁.next s₁.axiOut takeAll with hm₂
  have hinc : ∀ p, m₂.incoming p = m₁.incoming p := by
    intro p
    have h₃ : m₂.aw = m₁.aw := by
      rw [hm₂]
      have : s₁.axiOut.awValid = false := hav₁
      simp [AxiMem.next, this, takeAll, AxiIn.silent]
    have h₄ : m₂.w = m₁.w := by
      rw [hm₂]
      have : s₁.axiOut.wValid = false := by
        rw [h₁.writes.2.wValid]
        simp
      simp [AxiMem.next, this, takeAll, AxiIn.silent]
    rw [AxiMem.incoming, AxiMem.incoming, h₃, h₄]
  have hav₂ : s₂.axiOut.awValid = false := by
    have haw : s₁.awSet = false := by rcases h₁ with ⟨hst, -⟩ | ⟨hst, -⟩ <;> simp [awSet, hst]
    change s₂.awValid = false
    rw [hs₂, next_awValid, haw, hav₁]
    rfl
  have hw₂ : m₂.Writes s₂.axiOut b (b.len + 1) := hn₂.1.writes.2
  have ha : m₂.Answers { AxiIn.silent with bValid := true } := by
    refine ⟨fun h => Bool.noConfusion h, fun _ => ⟨?_, ?_, fun p v hp => ?_⟩⟩
    · rw [hw₂.mAw, hav₂]
      rfl
    · rw [hw₂.wDone]
      simp
    · rw [hinc] at hp
      rw [hm₂]
      simp [AxiMem.next, takeAll, hp]
  have hr₃ := reach_work hr₂ hn₂.1.writes.1 ha
  refine ⟨_, _, hr₃, ?_, ?_, ?_⟩
  · rcases hn₂.1 with ⟨hst, hf, -, hb⟩ | ⟨hst, -, hb⟩
    · have hB : s₂.hdsAxiB (pageZero n noReq { AxiIn.silent with bValid := true }) = true := by
        simp [hdsAxiB, bReady, hst, pageZero]
      change s₂.stateNxt S _ = _
      rw [stateNxt, hst]
      simp [hB, hf]
    · have hB : s₂.hdsAxiB (pageZero n noReq { AxiIn.silent with bValid := true }) = true := by
        simp [hdsAxiB, bReady, hst, pageZero]
      change s₂.stateNxt S _ = _
      rw [stateNxt, hst]
      simp [hB]
  · rw [contents_next (s2iReady_of_state hn₂.1.writes.1) ?_, hn₂.2.1, hc₁]
    rcases hn₂.1 with ⟨hst, -⟩ | ⟨hst, -⟩ <;> simp [hst]
  · rw [next_s1o_of_stall hn₂.1.writes.1, hn₂.2.2, hs₁]

/-- An idle cycle in which a request comes in. -/
theorem next_ask (h : s.Shape S m) (hst : s.state = .idle) (hq : s.s1o.req = false) (r : DcReq) :
    (s.next S (pageZero n r AxiIn.silent)).state = .idle ∧
      (s.next S (pageZero n r AxiIn.silent)).s1o = ⟨r, setOf S r.vpo.toNat⟩ ∧
      (s.next S (pageZero n r AxiIn.silent)).contents S = s.contents S ∧
      (m.next s.axiOut AxiIn.silent).mem = m.mem := by
  have hb := h.bus
  rw [Bus, hst] at hb
  have hready : s.s2iReady S (pageZero n r AxiIn.silent) = false := by simp [s2iReady, hq]
  refine ⟨?_, ?_, contents_next hready (by simp [hst]),
    hb.write.mem_next (i := AxiIn.silent)⟩
  · change s.stateNxt S _ = _
    simp [stateNxt, hst, hq]
  · rw [next_s1o_of_idle hst, s1oNxt]
    simp [s1iLineAddr, hst, pageZero]

theorem reach_ask (hr : (ops n S pay m₀).Reach ((s, m), g)) (hS : S ≤ 7) (hst : s.state = .idle)
    (hq : s.s1o.req = false) (r : DcReq) :
    ∃ (s' : Dcache n) (m' : AxiMem), (ops n S pay m₀).Reach ((s', m'), none) ∧ s'.state = .idle ∧
      s'.s1o = ⟨r, setOf S r.vpo.toNat⟩ ∧ s'.contents S = s.contents S ∧ m'.mem = m.mem := by
  have hg : noteOp g s m (pageZero n r AxiIn.silent) = none := by simp [noteOp, starts, hst, hq]
  have ht : (ops n S pay m₀).Reach
      ((s.next S (pageZero n r AxiIn.silent), m.next s.axiOut AxiIn.silent),
      noteOp g s m (pageZero n r AxiIn.silent)) :=
    Machine.Reach.tick (x := pageZero n r AxiIn.silent) hr ⟨m.answers_silent, fun _ h' => by
      rw [hq] at h'
      cases h'⟩
  rw [hg] at ht
  exact ⟨_, _, ht, next_ask (progress_of_reach hS hr).1 hst hq r⟩

/-- A cycle on page zero with no request behind, in which the access that is compared is uncached or
not. -/
def quiet (n : ℕ) (u : Bool) : DcIn n := ⟨noReq, 0, false, u, AxiIn.silent, fun _ _ => 0⟩

/-- The cycle that starts an operation. -/
theorem reach_start (hr : (ops n S pay m₀).Reach ((s, m), g)) {u : Bool}
    (hs : s.starts (quiet n u) = true) :
    (ops n S pay m₀).Reach ((s.next S (quiet n u), m.next s.axiOut AxiIn.silent),
      some ⟨s, m, quiet n u⟩) := by
  have hg : noteOp g s m (quiet n u) = some ⟨s, m, quiet n u⟩ := by rw [noteOp, if_pos hs]
  have ht : (ops n S pay m₀).Reach ((s.next S (quiet n u), m.next s.axiOut AxiIn.silent),
      noteOp g s m (quiet n u)) :=
    Machine.Reach.tick hr ⟨m.answers_silent, fun _ _ _ => rfl⟩
  rwa [hg] at ht

theorem addr_quiet {u : Bool} {r : DcReq} {l : ℕ} (hs : s.s1o = ⟨r, l⟩) :
    (⟨s, m, quiet n u⟩ : DcOp n).addr = r.vpo.toNat := by
  rw [DcOp.addr, s2iPaddr_toNat, hs]
  simp [quiet]

/-- The cycle that starts the flush of a line that the cache holds. -/
theorem next_flush_start (hS : S ≤ 7) (h : s.Shape S m) (hst : s.state = .idle) {v : BitVec 13}
    {w : Fin n} (hs : s.s1o = ⟨⟨true, 0, 0, 0, v, false, true⟩, setOf S v.toNat⟩)
    (hl : (s.contents S).line (w, setFin S v.toNat) = some (v.toNat / 64)) :
    (s.next S (quiet n false)).state = .flush ∧ (s.next S (quiet n false)).contents S =
      s.contents S ∧ (s.next S (quiet n false)).s1o.req = false := by
  have hreq : s.s1o.req = true := by rw [hs]
  have hfls : s.s1o.fls = true := by rw [hs]
  have hpa : (s.s2iPaddr (quiet n false)).toNat = v.toNat := addr_quiet (m := m) (u := false) hs
  have hhit : s.s2iHit S (quiet n false) = true := by
    rw [s2iHit, decide_eq_true_iff]
    refine ⟨w, (hitVec_iff hS (h.fresh (Or.inl hst) hreq) w).2 ?_⟩
    rw [hpa]
    exact hl
  have hready : s.s2iReady S (quiet n false) = false := by simp [s2iReady, hfls]
  refine ⟨?_, contents_next hready (by simp [hst]), ?_⟩
  · change s.stateNxt S _ = _
    simp [stateNxt, hst, hs, hhit]
  · rw [next_s1o_of_idle hst]
    rfl

/-- A flush of a line that the cache holds. -/
theorem reach_flush (hS : S ≤ 7) (hr : (ops n S pay m₀).Reach ((s, m), g)) (hst : s.state = .idle)
    (hq : s.s1o.req = false) {v : BitVec 13} {w : Fin n}
    (hl : (s.contents S).line (w, setFin S v.toNat) = some (v.toNat / 64)) :
    ∃ (s' : Dcache n) (m' : AxiMem) (o : DcOp n), (ops n S pay m₀).Reach ((s', m'), some o) ∧
      s'.state = .idle ∧ s'.s1o.req = false ∧ o.isFls ∧ o.addr = v.toNat ∧ o.mem.mem = m.mem ∧
      o.cache.contents S = s.contents S ∧ s'.contents S = s.contents S := by
  obtain ⟨s₁, m₁, hr₁, hst₁, hs₁, hc₁, hm₁⟩ :=
    reach_ask hr hS hst hq ⟨true, 0, 0, 0, v, false, true⟩
  have hfls : s₁.s1o.inv = false ∧ s₁.s1o.fls = true := by
    rw [hs₁]
    exact ⟨rfl, rfl⟩
  have hpa : (s₁.s2iPaddr (quiet n false)).toNat = v.toNat := addr_quiet (m := m₁) (u := false) hs₁
  have hr₂ := reach_start (u := false) hr₁ (by simp [starts, hst₁, hs₁])
  obtain ⟨hst₂, hc₂, hq₂⟩ := next_flush_start hS (progress_of_reach hS hr₁).1 hst₁ hs₁
    (by rw [hc₁]; exact hl)
  have hr₃ := reach_work hr₂ (by simp [hst₂]) (AxiMem.answers_silent _)
  set s₂ := s₁.next S (quiet n false) with hs₂
  set m₂ := m₁.next s₁.axiOut AxiIn.silent with hm₂
  have hsh₂ := (progress_of_reach hS hr₂).1
  have hb₂ := hsh₂.bus
  have hstage₂ := hsh₂.stage
  rw [Bus, hst₂] at hb₂
  rw [Stage, hst₂] at hstage₂
  obtain ⟨a, hmat⟩ := hstage₂
  have hc₃ : (s₂.next S (pageZero n noReq AxiIn.silent)).contents S = s.contents S := by
    rw [contents_next (s2iReady_of_state (by simp [hst₂])) (by simp [hst₂]), hc₂, hc₁]
  have hq₃ : (s₂.next S (pageZero n noReq AxiIn.silent)).s1o.req = false := by
    rw [next_s1o_of_stall (by simp [hst₂]), hq₂]
  cases hd : s₂.s2oMatchDirty with
  | false =>
      refine ⟨_, _, _, hr₃, ?_, hq₃, hfls, hpa, hm₁, hc₁, hc₃⟩
      change s₂.stateNxt S _ = _
      simp [stateNxt, hst₂, hd]
  | true =>
      have hst₃ : (s₂.next S (pageZero n noReq AxiIn.silent)).state = .writeback := by
        change s₂.stateNxt S _ = _
        simp [stateNxt, hst₂, hd]
      have hbw := BusQuiet.next_aw (S := S) (x := pageZero n noReq AxiIn.silent) hb₂
        (AxiMem.answers_silent _) (by simp [awSet, hst₂, hd]) (Or.inr hst₂)
      have hwr : (s₂.next S (pageZero n noReq AxiIn.silent)).Writing
        (m₂.next s₂.axiOut AxiIn.silent)
          ⟨(s₂.next S (pageZero n noReq AxiIn.silent)).awAddr, 15, 2⟩ 0 := by
        refine Or.inl ⟨hst₃, ?_, rfl, hbw⟩
        rw [next_s2o_of_stall (by simp [hst₂])]
        exact hmat.fls
      obtain ⟨s₄, m₄, hr₄, hst₄, hc₄, hs₄⟩ := hwr.finish hr₃
      exact ⟨s₄, m₄, _, hr₄, hst₄, by rw [hs₄, hq₃], hfls, hpa, hm₁, hc₁, hc₄.trans hc₃⟩

/-- An uncached store. -/
theorem reach_uncachedStore (hS : S ≤ 7) (hr : (ops n S pay m₀).Reach ((s, m), g))
    (hst : s.state = .idle)
    (hq : s.s1o.req = false) (size : BitVec 3) {k : BitVec 4} (hw : k ≠ 0) (wdat : Word)
    (v : BitVec 13) :
    ∃ (s' : Dcache n) (m' : AxiMem) (o : DcOp n), (ops n S pay m₀).Reach ((s', m'), some o) ∧
      s'.state = .idle ∧ s'.s1o.req = false ∧ s'.contents S = s.contents S ∧
      ∀ p, m'.mem p = if p / DcOp.bytes size = v.toNat / DcOp.bytes size then byteOf wdat (p % 4)
        else m.mem p := by
  obtain ⟨s₁, m₁, hr₁, hst₁, hs₁, hc₁, hm₁⟩ :=
    reach_ask hr hS hst hq ⟨true, size, k, wdat, v, false, false⟩
  have hunc : s₁.s1o.inv = false ∧ s₁.s1o.fls = false := by
    rw [hs₁]
    exact ⟨rfl, rfl⟩
  have hu : (quiet n true).uncached = true ∧ (quiet n true).kill = false := ⟨rfl, rfl⟩
  have hr₂ := reach_start (u := true) hr₁ (by simp [starts, hst₁, hs₁, hu])
  have hready : s₁.s2iReady S (quiet n true) = false := by simp [s2iReady, hu]
  have hc₂ := contents_next (S := S) (s := s₁) (x := quiet n true) hready (by simp [hst₁])
  have hq₂ : (s₁.next S (quiet n true)).s1o.req = false := by
    rw [next_s1o_of_idle hst₁]
    rfl
  have hst₂ : (s₁.next S (quiet n true)).state = .uncachedBoot := by
    change s₁.stateNxt S _ = _
    simp [stateNxt, hst₁, hs₁, hu]
  have hwm₂ : (s₁.next S (quiet n true)).s2o.wmsk = k := by
    rw [next_s2o_of_idle hst₁]
    change s₁.s1o.wmsk = k
    rw [hs₁]
  have hr₃ := reach_work hr₂ (by simp [hst₂]) (AxiMem.answers_silent _)
  set s₂ := s₁.next S (quiet n true) with hs₂
  set m₂ := m₁.next s₁.axiOut AxiIn.silent with hm₂
  have hb₂ := (progress_of_reach hS hr₂).1.bus
  rw [Bus, hst₂] at hb₂
  have hwr : (s₂.next S (pageZero n noReq AxiIn.silent)).Writing (m₂.next s₂.axiOut AxiIn.silent)
      ⟨(s₂.next S (pageZero n noReq AxiIn.silent)).awAddr, 0,
        (s₂.next S (pageZero n noReq AxiIn.silent)).s2o.size.toNat⟩ 0 := by
    rcases BusQuiet.next_uncached (S := S) (x := pageZero n noReq AxiIn.silent) hb₂
      (AxiMem.answers_silent _) hst₂ with ⟨-, hw', -⟩ | ⟨hn, -, hb'⟩
    · exact absurd (hwm₂.symm.trans hw') hw
    · exact Or.inr ⟨hn, rfl, hb'⟩
  obtain ⟨s₄, m₄, hr₄, hst₄, hc₄, hs₄⟩ := hwr.finish hr₃
  refine ⟨s₄, m₄, _, hr₄, hst₄, ?_, ?_, fun p => ?_⟩
  · rw [hs₄, next_s1o_of_stall (by simp [hst₂]), hq₂]
  · rw [hc₄, contents_next (s2iReady_of_state (by simp [hst₂])) (by simp [hst₂]), hc₂, hc₁]
  · have hdone := ((done_of_reach hS hr₄ hst₄).2.uncached hunc).2.store
    have hwm : s₁.s1o.wmsk = k := by rw [hs₁]
    have := hdone (by change s₁.s1o.wmsk ≠ 0; rw [hwm]; exact hw) p
    rw [addr_quiet hs₁] at this
    rw [this, ← hm₁]
    simp only [hs₁]

end SmallRuns

/-! ### Invalidations -/

/-- **An invalidation empties its set.**  Memory is not written; what is seen at an address of
another set stays, and at an address of the set of the invalidated one it is what memory has. -/
theorem invalidate_set (hS : S ≤ 7) (hr : (ops n S pay m₀).Reach ((s, m), some o))
    (hst : s.state = .idle) (hi : o.isInv) (p : ℕ) :
    m.mem p = o.mem.mem p ∧ s.dirtyView S m.mem p =
      if setOf S p = setOf S o.addr then o.mem.mem p else o.cache.dirtyView S o.mem.mem p := by
  obtain ⟨h₀, hdone⟩ := done_of_reach hS hr hst
  obtain ⟨hm, hc⟩ := hdone.inv hi
  refine ⟨by rw [hm], ?_⟩
  split_ifs with hp
  · rw [dirtyView_of_clean (fun a ha => ?_), hm]
    have hset : a.2 = setFin S o.addr := Fin.ext ((set_of_line ha).trans hp)
    rw [hc]
    simp [Contents.clear, hset]
  · -- the slots that can hold the line are left alone
    have hne : setFin S p ≠ setFin S o.addr := fun he => hp (congrArg Fin.val he)
    have hother : ∀ w, (s.contents S).line (w, setFin S p) =
        (o.cache.contents S).line (w, setFin S p) ∧
        (s.contents S).dirty (w, setFin S p) = (o.cache.contents S).dirty (w, setFin S p) ∧
        (s.contents S).data (w, setFin S p) = (o.cache.contents S).data (w, setFin S p) := by
      intro w
      rw [hc]
      simp [Contents.clear, hne]
    by_cases hcl : ∀ w, (o.cache.contents S).line (w, setFin S p) = some (p / 64) →
        (o.cache.contents S).dirty (w, setFin S p) = false
    · have clean : ∀ {t : Dcache n}, (∀ w, (t.contents S).line (w, setFin S p) = some (p / 64) →
          (t.contents S).dirty (w, setFin S p) = false) → ∀ mem, t.dirtyView S mem p = mem p := by
        intro t ht mem
        refine dirtyView_of_clean ?_ mem
        rintro ⟨w, i⟩ hl
        obtain rfl : i = setFin S p := Fin.ext (set_of_line hl)
        exact ht w hl
      rw [clean (fun w => by rw [(hother w).1, (hother w).2.1]; exact hcl w), clean hcl, hm]
    · push Not at hcl
      obtain ⟨w, hl, hd⟩ := hcl
      replace hd := Bool.eq_true_of_not_eq_false hd
      obtain ⟨h₁, h₂, h₃⟩ := hother w
      rw [dirtyView_of_dirty h₀.ok hl hd, dirtyView_of_dirty (by rw [hc]; exact h₀.ok.clear _)
        (h₁.trans hl) (h₂.trans hd), h₃]

/-- A store to address zero, and the invalidation of address 1024. -/
theorem reach_store_invalidate :
    ∃ s m o, (ops 4 4 (fun _ _ _ => 0) fun _ => 0).Reach ((s, m), some o) ∧
      s.state = .idle ∧ o.isInv ∧
      o.addr = 1024 ∧ o.cache.dirtyView 4 o.mem.mem 0 = 1 ∧ o.mem.mem = fun _ => 0 := by
  have hS : 4 ≤ 7 := by decide
  have hflat : flatMem (fun _ => 0)
      [⟨(access 1 1 0).vpo.toNat, (access 1 1 0).wmsk, (access 1 1 0).wdat⟩] 0 = 1 := by decide
  obtain ⟨s, m, h, hst, hq, -⟩ := at_store (n := 4) 4 (fun _ _ _ => 0) (fun _ => 0) hS
    (a := access 1 1 0) ⟨rfl, rfl, rfl⟩
  have hview := (h.inv hS).dirtyView_eq (by simp [hst]) 0
  rw [hflat] at hview
  obtain ⟨h, hr, hm, -⟩ := h
  obtain ⟨g, hr⟩ := ops_of_cached hS hr
  have hok := (progress_of_reach hS hr).1.ok
  obtain ⟨s₁, m₁, hr₁, hst₁, hs₁, hc₁, hm₁⟩ :=
    reach_ask hr hS hst hq ⟨true, 0, 0, 0, 1024, true, false⟩
  have hr₂ := reach_start (u := false) hr₁ (by simp [starts, hst₁, hs₁])
  have hst₂ : (s₁.next 4 (quiet 4 false)).state = .invalidate := by
    change s₁.stateNxt 4 _ = _
    simp [stateNxt, hst₁, hs₁]
  have hr₃ := reach_work hr₂ (by simp [hst₂]) (AxiMem.answers_silent _)
  have hst₃ : ((s₁.next 4 (quiet 4 false)).next 4 (pageZero 4 noReq AxiIn.silent)).state =
      .idle := by
    change stateNxt 4 _ _ = _
    rw [stateNxt, hst₂]
  refine ⟨_, _, _, hr₃, hst₃, ?_, addr_quiet hs₁, ?_, ?_⟩
  · change s₁.s1o.inv = true
    rw [hs₁]
  · rw [← hview]
    exact dirtyView_congr hok hc₁ (Or.inl (by rw [hm₁]))
  · rw [← hm, ← hm₁]

/-- The stored byte, which the invalidation has dropped, and a byte of another set. -/
theorem invalidate_set_store :
    ∃ s m o, (ops 4 4 (fun _ _ _ => 0) fun _ => 0).Reach ((s, m), some o) ∧ o.isInv ∧
      s.dirtyView 4 m.mem 0 = 0 ∧ s.dirtyView 4 m.mem 64 = o.cache.dirtyView 4 o.mem.mem 64 := by
  obtain ⟨s, m, o, hr, hst, hi, ha, -, hm⟩ := reach_store_invalidate
  have h₀ := (invalidate_set (by decide) hr hst hi 0).2
  have h₁ := (invalidate_set (by decide) hr hst hi 64).2
  rw [ha] at h₀ h₁
  rw [if_pos (by decide), hm] at h₀
  rw [if_neg (by decide)] at h₁
  exact ⟨s, m, o, hr, hi, h₀, h₁⟩

/-- **An invalidation loses modified bytes of other lines**: address 1024 is in another line than
address zero, but in the same set. -/
theorem invalidate_drops_other :
    ∃ s m o, (ops 4 4 (fun _ _ _ => 0) fun _ => 0).Reach ((s, m), some o) ∧
      s.state = .idle ∧ o.isInv ∧
      0 / 64 ≠ o.addr / 64 ∧ o.cache.dirtyView 4 o.mem.mem 0 = 1 ∧ s.dirtyView 4 m.mem 0 = 0 := by
  obtain ⟨s, m, o, hr, hst, hi, ha, hv, hm⟩ := reach_store_invalidate
  have hdone := (done_of_reach (by decide) hr hst).2.inv hi
  refine ⟨s, m, o, hr, hst, hi, by rw [ha]; decide, hv, ?_⟩
  rw [dirtyView_of_clean (fun a h' => ?_), hdone.1, hm]
  have hset : a.2 = setFin 4 1024 := by
    refine Fin.ext ((set_of_line h').trans ?_)
    decide
  rw [hdone.2, ha]
  simp [Contents.clear, hset]

/-! ### Flushes -/

/-- **A flush writes its line to memory.**  Memory then has the bytes of the line that are seen
through the cache; no other byte of memory has changed, nothing in the cache has, and what is seen
is the same at every address.  In particular the bytes of the line that are cached and modified are
in memory. -/
theorem flush_pushes (hS : S ≤ 7) (hr : (ops n S pay m₀).Reach ((s, m), some o))
    (hst : s.state = .idle) (hf : o.isFls) :
    (∀ p, p / 64 = o.addr / 64 → m.mem p = s.dirtyView S m.mem p) ∧
      (∀ p, p / 64 ≠ o.addr / 64 → m.mem p = o.mem.mem p) ∧
      (∀ p, s.dirtyView S m.mem p = o.cache.dirtyView S o.mem.mem p) ∧
      s.contents S = o.cache.contents S ∧
      ∀ p w, p / 64 = o.addr / 64 → (s.contents S).line (w, setFin S p) = some (p / 64) →
        (s.contents S).dirty (w, setFin S p) = true →
          m.mem p = (s.contents S).data (w, setFin S p) (Fin.ofNat 64 p) := by
  obtain ⟨h₀, hdone⟩ := done_of_reach hS hr hst
  obtain ⟨hc, hm⟩ := hdone.fls hf
  have hview : ∀ p, s.dirtyView S m.mem p = o.cache.dirtyView S o.mem.mem p := by
    intro p
    refine dirtyView_congr h₀.ok hc ?_
    rw [hm p]
    split_ifs
    · exact Or.inr rfl
    · exact Or.inl rfl
  have hline : ∀ p, p / 64 = o.addr / 64 → m.mem p = s.dirtyView S m.mem p := by
    intro p hp
    rw [hview, hm, if_pos hp]
  refine ⟨hline, fun p hp => ?_, hview, hc, fun p w hp hl hd => ?_⟩
  · rw [hm, if_neg hp]
  · rw [hline p hp, dirtyView_of_dirty (by rw [hc]; exact h₀.ok) hl hd]

/-- The flush of a byte that has been stored. -/
theorem flush_pushes_store :
    ∃ s m o, (ops 4 4 (fun _ _ _ => 0) fun _ => 0).Reach ((s, m), some o) ∧
      s.state = .idle ∧ o.isFls ∧ o.mem.mem 0 = 0 ∧ m.mem 0 = 1 := by
  have hS : 4 ≤ 7 := by decide
  have hflat : flatMem (fun _ => 0)
      [⟨(access 1 1 0).vpo.toNat, (access 1 1 0).wmsk, (access 1 1 0).wdat⟩] 0 = 1 := by decide
  obtain ⟨s, m, h, hst, hq, fw, ht, -⟩ := at_store (n := 4) 4 (fun _ _ _ => 0) (fun _ => 0) hS
    (a := access 1 1 0) ⟨rfl, rfl, rfl⟩
  have hview := (h.inv hS).dirtyView_eq (by simp [hst]) 0
  rw [hflat] at hview
  obtain ⟨h, hr, hm, -⟩ := h
  obtain ⟨g, hr⟩ := ops_of_cached hS hr
  have hok := (progress_of_reach hS hr).1.ok
  have hl : (s.contents 4).line (fw, setFin 4 (0 : BitVec 13).toNat) =
      some ((0 : BitVec 13).toNat / 64) := by
    rw [line_eq_some_iff, ht]
    exact if_pos ⟨rfl, by decide⟩
  obtain ⟨s', m', o, hr', hst', -, hf, ha, hm', hc, -⟩ := reach_flush hS hr hst hq hl
  obtain ⟨h₁, -, h₂, -⟩ := flush_pushes hS hr' hst' hf
  refine ⟨s', m', o, hr', hst', hf, by rw [hm', hm], ?_⟩
  rw [h₁ 0 (by rw [ha]; decide), h₂, ← hview]
  exact dirtyView_congr hok hc (Or.inl (by rw [hm']))

/-- **A flush leaves memory alone where the line is clean**, also where memory has been changed
behind the cache: a load of address zero, an uncached store to it, and its flush. -/
theorem flush_keeps_stale :
    ∃ s m o w, (ops 4 4 (fun _ _ _ => 0) fun _ => 0).Reach ((s, m), some o) ∧
      s.state = .idle ∧ o.isFls ∧ o.addr = 0 ∧ (s.contents 4).line (w, setFin 4 0) = some 0 ∧
      (s.contents 4).data (w, setFin 4 0) 0 ≠ m.mem 0 := by
  have hS : 4 ≤ 7 := by decide
  obtain ⟨s, m, h, hst, hq, fw, ht, hd⟩ := at_store (n := 4) 4 (fun _ _ _ => 0) (fun _ => 0) hS
    (a := access 0 0 0) ⟨rfl, rfl, rfl⟩
  have hl : (s.contents 4).line (fw, setFin 4 0) = some (0 / 64) := by
    rw [line_eq_some_iff, ht]
    exact if_pos ⟨rfl, by decide⟩
  have hclean : ∀ a, (s.contents 4).dirty a = false := by
    intro a
    change s.d a.1 a.2 = false
    rw [hd]
    simp [access]
  -- the line has been read from memory
  have hdata : (s.contents 4).data (fw, setFin 4 0) 0 = 0 := by
    have hp := (h.inv hS).phase
    rw [Phase, hst] at hp
    rw [hp.1.data _ _ hl id]
    change flatMem (fun _ => 0) [⟨0, 0, 0⟩] (64 * 0 + 0) = 0
    decide
  obtain ⟨h, hr, hm, -⟩ := h
  obtain ⟨g, hr⟩ := ops_of_cached hS hr
  obtain ⟨s₁, m₁, o₁, hr₁, hst₁, hq₁, hc₁, hm₁⟩ := reach_uncachedStore hS hr hst hq 0
    (k := 1) (by decide) 1 0
  obtain ⟨s₂, m₂, o₂, hr₂, hst₂, -, hf₂, ha₂, hom₂, hoc₂, hc₂⟩ := reach_flush hS hr₁ hst₁ hq₁
    (v := 0) (w := fw) (by rw [hc₁]; exact hl)
  refine ⟨s₂, m₂, o₂, fw, hr₂, hst₂, hf₂, ha₂, by rw [hc₂, hc₁]; exact hl, ?_⟩
  have hview := ((done_of_reach hS hr₂ hst₂).2.fls hf₂).2 0
  rw [if_pos (by rw [ha₂]; decide),
    dirtyView_of_clean (fun a _ => by rw [hoc₂, hc₁]; exact hclean a), hom₂,
    hm₁, if_pos (by decide)] at hview
  rw [hview, hc₂, hc₁, hdata]
  decide

end Dcache

end NanoCpu
