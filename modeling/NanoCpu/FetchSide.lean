/-
**Fetching from memory** (`rtl/core/frontend.v` with `icache.v`, `immu.v` and a memory behind the
AXI port, against the fetch of `CPU::step` in `em/csrc/cpu.cc`).

The front-end asks the I-cache for the window of its next PC and the MMU for its page; the page
number reaches the cache a step later, and the window is at the output another step later, when the
front-end pushes what its prediction has left of it.  Flushes, writes of the TLB, invalidations of
sets and the bus come as they like in between.  Here the three run together, in front of a correct
memory.

Main definitions:

* `FetchSide`, `FetchSide.next` — the front-end with the I-cache and the memory;
* `FetchTag` — what a request is looked up with, and `FetchTags`, an observer that keeps it beside
  the request;
* `FetchSide.logged` — the machine with its observers.

Main results:

* `FetchSide.Inv.next` — the window that the cache works on is that of the front-end, and its page
  that of the lookup;
* `FetchSide.fetches_as_emulator` — **every word in the prefetch buffer is the one the emulator
  fetches** at its PC.
-/

import NanoCpu.Epu
import NanoCpu.FetchChain
import NanoCpu.IcacheFlat
import NanoCpu.Translate

set_option relaxedAutoImplicit false
set_option autoImplicit false
set_option linter.unusedSectionVars false

namespace NanoCpu

open Em

/-! ### Windows and words -/

/-- Instruction `i` of the window of a PC. -/
def windowPc (q : Pc) (i : ℕ) : Pc := q.extractLsb' 2 28 ++ BitVec.ofNat 2 i

/-- The page offset of the window of a PC. -/
def windowVpo (q : Pc) : BitVec 13 := q.extractLsb' 2 9 ++ (0 : BitVec 4)

/-- The physical address of a PC in a page. -/
def pcPaddr (ppn : Ppn) (pc : Pc) : Word := ppn ++ (Epu.pcWord pc).extractLsb' 0 13

theorem windowPc_toNat (q : Pc) {i : ℕ} (hi : i < 4) :
    (windowPc q i).toNat = q.toNat / 4 * 4 + i := by
  have hq := q.isLt
  have hor := Nat.shiftLeft_add_eq_or_of_lt (show i < 2 ^ 2 by omega) (q.toNat / 4 % 2 ^ 28)
  rw [windowPc, BitVec.toNat_append, BitVec.extractLsb'_toNat, BitVec.toNat_ofNat,
    Nat.shiftRight_eq_div_pow, Nat.mod_eq_of_lt (a := i) (by omega), ← hor, Nat.shiftLeft_eq]
  omega

theorem windowVpo_toNat (q : Pc) : (windowVpo q).toNat = q.toNat / 4 % 512 * 16 := by
  rw [windowVpo, BitVec.toNat_append, BitVec.extractLsb'_toNat, Nat.shiftRight_eq_div_pow]
  simp [Nat.shiftLeft_eq]

theorem pcWord_toNat (pc : Pc) : (Epu.pcWord pc).toNat = pc.toNat * 4 := by
  rw [Epu.pcWord, BitVec.toNat_append]
  simp [Nat.shiftLeft_eq]

theorem append_toNat (ppn : Ppn) (o : BitVec 13) :
    (ppn ++ o).toNat = ppn.toNat * 2 ^ 13 + o.toNat := by
  rw [BitVec.toNat_append, ← Nat.shiftLeft_add_eq_or_of_lt o.isLt, Nat.shiftLeft_eq]

/-- A window is in one page. -/
theorem pageOf_windowPc (q : Pc) {i : ℕ} (hi : i < 4) :
    pageOf (Epu.pcWord (windowPc q i)) = pageOf (Epu.pcWord q) := by
  refine BitVec.eq_of_toNat_eq ?_
  simp only [pageOf, BitVec.extractLsb'_toNat, Nat.shiftRight_eq_div_pow, pcWord_toNat,
    windowPc_toNat q hi]
  omega

/-- A window consists of the words of its instructions. -/
theorem pcPaddr_windowPc (ppn : Ppn) (q : Pc) {i : ℕ} (hi : i < 4) :
    (pcPaddr ppn (windowPc q i)).toNat = (ppn ++ windowVpo q).toNat / 16 * 16 + 4 * i := by
  rw [pcPaddr, append_toNat, append_toNat, BitVec.extractLsb'_toNat, Nat.shiftRight_eq_div_pow,
    pcWord_toNat, windowPc_toNat q hi, windowVpo_toNat]
  omega

theorem packBytes_congr {f g : ℕ → Byte} (h : ∀ j < 4, f j = g j) : packBytes f = packBytes g := by
  rw [packBytes, h 3 (by omega), h 2 (by omega), h 1 (by omega), h 0 (by omega), packBytes]

/-- An aligned word of the memory. -/
theorem packBytes_eq (F : ℕ → Byte) {a : Word} (ha : a.toNat % 4 = 0) :
    packBytes (fun j => F (a.toNat + j)) = Em.phyReadm32 (fun v => F v.toNat) a := by
  have hadd : ∀ j < 4, (a + BitVec.ofNat 32 j).toNat = a.toNat + j := by
    intro j hj
    have := a.isLt
    rw [BitVec.toNat_add, BitVec.toNat_ofNat]
    omega
  have h₁ : (a + 1).toNat = a.toNat + 1 := hadd 1 (by omega)
  have h₂ : (a + 2).toNat = a.toNat + 2 := hadd 2 (by omega)
  have h₃ : (a + 3).toNat = a.toNat + 3 := hadd 3 (by omega)
  rw [packBytes, Em.phyReadm32, h₁, h₂, h₃]
  refine BitVec.eq_of_getLsbD_eq fun i hi => ?_
  simp only [BitVec.getLsbD_append, BitVec.getLsbD_or, BitVec.getLsbD_shiftLeft,
    BitVec.getLsbD_setWidth]
  grind

/-! ### The front-end with the I-cache -/

/-- What a request is looked up with: the TLB before the edge, and two bits of the PSR. -/
structure FetchTag where
  mmu : Immu tlbP
  imme : Bool
  rm : Bool

/-- The answer for a PC. -/
def FetchTag.answer (t : FetchTag) (pc : Pc) : Immu tlbP :=
  t.mmu.next true (pageOf (Epu.pcWord pc)) t.imme t.rm ⟨false, 0, 0⟩ ⟨false, 0, 0⟩

theorem FetchTag.answer_windowPc (t : FetchTag) (q : Pc) {i : ℕ} (hi : i < 4) :
    t.answer (windowPc q i) = t.answer q := by
  rw [answer, pageOf_windowPc q hi, answer]

/-- What an observer keeps: the tags of the requests in the two stages and of the words that have
been pushed, and the requests in the pipeline of the cache. -/
structure FetchTags where
  s1 : FetchTag
  s2 : FetchTag
  word : ℕ → FetchTag
  pipe : FetchPipe

/-- The front-end with the I-cache and its memory. -/
structure FetchSide (n : ℕ) where
  fe : Frontend
  ic : Icache n
  mem : AxiMem

/-- The inputs of one cycle: the flush, the decoder, the registers of commit that fetching depends
on, the branch that commits, the invalidation of a set, the bus, and what a payload RAM shows after
a write. -/
structure FetchSideIn (n : ℕ) where
  flush : Bool
  flushTgt : Pc
  idCe : Bool
  imme : Bool
  rm : Bool
  ice : Bool
  tlbl : TlbWr tlbP
  tlbh : TlbWr tlbP
  bpuWb : BpuWb
  invWe : Bool
  invLine : ℕ
  axi : AxiIn
  unc : Fin n → ℕ → Byte

namespace FetchSide

variable {n : ℕ} [NeZero n]

section Step

variable (D p b S : ℕ) (seg : Bool) (s : FetchSide n) (x : FetchSideIn n)

/-- `iq_ins`. -/
def ins (i : ℕ) : BitVec 32 := packBytes fun j => s.ic.ins (4 * i + j)

def feIn : FrontendIn where
  flush := x.flush
  flushTgt := x.flushTgt
  icStall := s.ic.stallReq
  ins := s.ins
  idCe := x.idCe
  imme := x.imme
  rm := x.rm
  ice := x.ice
  tlbl := x.tlbl
  tlbh := x.tlbh
  bpuWb := x.bpuWb

def icIn : IcIn n where
  iqReady := s.fe.buf.ready 2 D
  vpo := windowVpo (s.fe.pcNxt 2 D b (s.feIn x))
  ppn := s.fe.immu.ppn
  uncached := s.fe.s2iUncached seg
  kill := s.fe.s2iKillReq
  invWe := x.invWe
  invLine := x.invLine
  axi := x.axi
  unc := x.unc

def next : FetchSide n :=
  ⟨s.fe.next 2 D p b (s.feIn x), s.ic.next S (s.icIn D b seg x), s.mem.next s.ic.axiOut x.axi⟩

/-- The observer after a cycle, beside the log `l`. -/
def tagsNext (t : FetchTags) (l : FetchLog) : FetchTags where
  s1 := ldff (s.fe.pCe 2 D (s.feIn x)) ⟨s.fe.immu, x.imme, x.rm⟩ t.s1
  s2 := ldff (s.fe.pCe 2 D (s.feIn x)) t.s1 t.s2
  word := fun k => if l.pushed ≤ k ∧ k < l.pushed + s.fe.iqPushCnt 2 D (s.feIn x) then
    t.s2 else t.word k
  pipe := Icache.pipeNext t.pipe s.ic (s.icIn D b seg x)

end Step

/-- The machine in front of a correct memory, with its observers. -/
def logged (n : ℕ) [NeZero n] (D p b S : ℕ) (seg : Bool) (pcRst : Pc) (u : Bpu) (w : IqWord)
    (t₀ : FetchTag) (tagV : Fin n → ℕ → ℕ × Bool) (pay : Fin n → ℕ × ℕ → ℕ → Byte) (m₀ : ℕ → Byte) :
    Machine (FetchSide n × FetchLog × FetchTags) (FetchSideIn n) where
  reset := (⟨Frontend.reset pcRst u w, Icache.reset tagV pay, AxiMem.idle m₀⟩,
    FetchLog.reset pcRst w, ⟨t₀, t₀, fun _ => t₀, ⟨none, none⟩⟩)
  allowed q x := q.1.mem.Answers x.axi
  next q x := (q.1.next D p b S seg x, q.2.1.next 2 D q.1.fe (q.1.feIn x),
    q.1.tagsNext D b seg x q.2.2 q.2.1)

variable {D p b S : ℕ} {seg : Bool} {s : FetchSide n} {x : FetchSideIn n} {l : FetchLog}
  {t : FetchTags} {F : ℕ → Byte}

/-- The front-end and the cache take a step together. -/
theorem pCe_icIn : s.ic.pCe (s.icIn D b seg x) = s.fe.pCe 2 D (s.feIn x) := rfl

theorem s1iPc_eq (s : Frontend) (x : FrontendIn) {i : ℕ} (hi : i < 4) :
    s.s1iPc 2 D b x i = windowPc (s.pcNxt 2 D b x) i := by
  have hoff : s.s1iPushOffset 2 D b x = (s.pcNxt 2 D b x).toNat % 4 := by
    rw [Frontend.s1iPushOffset, popcnt_interval (a := 0) (c := (s.pcNxt 2 D b x).toNat % 4)]
    · omega
    · intro j _
      rw [Frontend.s1iFetchAligned, Bool.eq_iff_iff]
      simp
  refine BitVec.eq_of_toNat_eq ?_
  have hq := (s.pcNxt 2 D b x).isLt
  rw [Frontend.s1iPc, hoff, windowPc_toNat _ hi, BitVec.toNat_sub, BitVec.toNat_add,
    BitVec.toNat_ofNat, BitVec.toNat_ofNat]
  omega

/-! ### The invariant -/

/-- A word is the one in memory at its PC, in the page that the lookup gives. -/
structure Fetched (F : ℕ → Byte) (t : FetchTag) (w : IqWord) : Prop where
  eitm : w.eitm = (t.answer w.pc).eitm
  eipf : w.eipf = (t.answer w.pc).eipf
  ins : w.eitm = false → w.eipf = false →
    w.ins = Em.phyReadm32 (fun v => F v.toNat) (pcPaddr (t.answer w.pc).ppn w.pc)

/-- The window of `q` is in the first stage of the cache, and its page in the MMU. -/
structure Stage1 (s : FetchSide n) (t : FetchTags) (q : Pc) : Prop where
  pc : ∀ i < 4, s.fe.s1oPc i = windowPc q i
  pipe : t.pipe.stage1 = some (windowVpo q)
  eitm : s.fe.immu.eitm = (t.s1.answer q).eitm
  eipf : s.fe.immu.eipf = (t.s1.answer q).eipf
  ppn : s.fe.immu.ppn = (t.s1.answer q).ppn

/-- The window of `q` is at the output of the cache. -/
structure Stage2 (s : FetchSide n) (t : FetchTags) (q : Pc) : Prop where
  pc : ∀ i < 4, s.fe.s2oPc i = windowPc q i
  eitm : s.fe.s2oEitm = (t.s2.answer q).eitm
  eipf : s.fe.s2oEipf = (t.s2.answer q).eipf
  pipe : t.pipe.stage2 = some ((t.s2.answer q).ppn ++ windowVpo q,
    (t.s2.answer q).eitm || (t.s2.answer q).eipf)

structure Inv (D S : ℕ) (F : ℕ → Byte) (s : FetchSide n) (l : FetchLog) (t : FetchTags) : Prop where
  ic : s.ic.Inv S F s.mem t.pipe
  fe : s.fe.Fetches 2 D l
  stage1 : s.fe.icS1oValid = true → ∃ q, s.Stage1 t q
  stage2 : s.fe.icS2oValid = true → ∃ q, s.Stage2 t q
  words : ∀ k < l.pushed, Fetched F (t.word k) (l.word k)

theorem vpn_eq (s : Frontend) (x : FrontendIn) :
    s.vpn 2 D b x = pageOf (Epu.pcWord (s.pcNxt 2 D b x)) := by
  refine BitVec.eq_of_toNat_eq ?_
  simp only [Frontend.vpn, pageOf, BitVec.extractLsb'_toNat, Nat.shiftRight_eq_div_pow,
    pcWord_toNat]
  omega

theorem inv_reset (pcRst : Pc) (u : Bpu) (w : IqWord) (t₀ : FetchTag) (tagV : Fin n → ℕ → ℕ × Bool)
    (pay : Fin n → ℕ × ℕ → ℕ → Byte) (m₀ : ℕ → Byte) :
    Inv D S m₀ (⟨Frontend.reset pcRst u w, Icache.reset tagV pay, AxiMem.idle m₀⟩ : FetchSide n)
      (FetchLog.reset pcRst w) ⟨t₀, t₀, fun _ => t₀, ⟨none, none⟩⟩ where
  ic := Icache.inv_reset tagV pay m₀
  fe := Frontend.fetches_reset 2 D pcRst u w
  stage1 h := by cases h
  stage2 h := by cases h
  words k hk := absurd hk (Nat.not_lt_zero k)

/-- Nothing but the TLB changes while the pipeline waits. -/
theorem stages_wait (hc : s.fe.pCe 2 D (s.feIn x) = false) :
    ((s.next D p b S seg x).fe.icS1oValid = s.fe.icS1oValid ∧
      (s.next D p b S seg x).fe.icS2oValid = s.fe.icS2oValid) ∧
    (∀ q, s.Stage1 t q → (s.next D p b S seg x).Stage1 (s.tagsNext D b seg x t l) q) ∧
      ∀ q, s.Stage2 t q → (s.next D p b S seg x).Stage2 (s.tagsNext D b seg x t l) q := by
  have hpipe : (s.tagsNext D b seg x t l).pipe = t.pipe :=
    if_neg (by rw [pCe_icIn, hc]; exact Bool.false_ne_true)
  have hold : ∀ {α : Type} (d q : α), ldff (s.fe.pCe 2 D (s.feIn x)) d q = q := by
    intro α d q
    rw [hc]
    rfl
  have h₁ : (s.tagsNext D b seg x t l).s1 = t.s1 := hold _ _
  have h₂ : (s.tagsNext D b seg x t l).s2 = t.s2 := hold _ _
  have himmu : (s.next D p b S seg x).fe.immu.eitm = s.fe.immu.eitm ∧
      (s.next D p b S seg x).fe.immu.eipf = s.fe.immu.eipf ∧
        (s.next D p b S seg x).fe.immu.ppn = s.fe.immu.ppn := by
    simp [next, Frontend.next, Immu.next, hc, ldff, Immu.eitm, Immu.eipf, Immu.ppn, Immu.tlbMiss,
      Immu.permDenied]
  obtain ⟨hm, hf, hp⟩ := himmu
  refine ⟨⟨hold _ _, hold _ _⟩, fun q hq => ?_, fun q hq => ?_⟩
  · refine ⟨fun i hi => (congrFun (hold _ _) i).trans
      (hq.pc i hi), by rw [hpipe]; exact hq.pipe, ?_, ?_, ?_⟩
    · rw [hm, h₁]
      exact hq.eitm
    · rw [hf, h₁]
      exact hq.eipf
    · rw [hp, h₁]
      exact hq.ppn
  · refine ⟨fun i hi => (congrFun (hold _ _) i).trans (hq.pc i hi), ?_, ?_, ?_⟩
    · rw [h₂]
      exact (hold _ _).trans hq.eitm
    · rw [h₂]
      exact (hold _ _).trans hq.eipf
    · rw [h₂, hpipe]
      exact hq.pipe

/-- The window of the next PC goes into the first stage. -/
theorem stage1_move (hc : s.fe.pCe 2 D (s.feIn x) = true) :
    (s.next D p b S seg x).Stage1 (s.tagsNext D b seg x t l) (s.fe.pcNxt 2 D b (s.feIn x)) := by
  have load : ∀ {α : Type} (d q : α), ldff (s.fe.pCe 2 D (s.feIn x)) d q = d := by
    intro α d q
    rw [hc]
    rfl
  have hpipe : (s.tagsNext D b seg x t l).pipe.stage1 =
      some (windowVpo (s.fe.pcNxt 2 D b (s.feIn x))) := by
    rw [show (s.tagsNext D b seg x t l).pipe = _ from if_pos (by rw [pCe_icIn, hc])]
    rfl
  have h₁ : (s.tagsNext D b seg x t l).s1 = ⟨s.fe.immu, x.imme, x.rm⟩ := load _ _
  refine ⟨fun i hi => (congrFun (load _ _) i).trans (s1iPc_eq s.fe _ hi), hpipe, ?_, ?_, ?_⟩
  all_goals
    rw [h₁, FetchTag.answer, ← vpn_eq]
    simp [next, Frontend.next, Immu.next, hc, ldff, Immu.eitm, Immu.eipf, Immu.ppn, Immu.tlbMiss,
      Immu.permDenied]
    try rfl

/-- The window of the first stage goes on, with its page. -/
theorem Stage1.move {q : Pc} (h : s.Stage1 t q) (hc : s.fe.pCe 2 D (s.feIn x) = true) :
    (s.next D p b S seg x).Stage2 (s.tagsNext D b seg x t l) q := by
  have load : ∀ {α : Type} (d q : α), ldff (s.fe.pCe 2 D (s.feIn x)) d q = d := by
    intro α d q
    rw [hc]
    rfl
  have hpipe : (s.tagsNext D b seg x t l).pipe.stage2 =
      some (s.fe.immu.ppn ++ windowVpo q, s.fe.immu.eitm || s.fe.immu.eipf) := by
    rw [show (s.tagsNext D b seg x t l).pipe = _ from if_pos (by rw [pCe_icIn, hc]), h.pipe]
    rfl
  have h₂ : (s.tagsNext D b seg x t l).s2 = t.s1 := load _ _
  refine ⟨fun i hi => (congrFun (load _ _) i).trans (h.pc i hi), ?_, ?_, ?_⟩
  · rw [h₂, ← h.eitm]
    exact load _ _
  · rw [h₂, ← h.eipf]
    exact load _ _
  · rw [hpipe, h₂, ← h.ppn, ← h.eitm, ← h.eipf]

/-- What the front-end pushes was fetched from memory. -/
theorem Inv.pushed (h : s.Inv D S F l t) {k : ℕ} (hk : k < s.fe.iqPushCnt 2 D (s.feIn x)) :
    Fetched F t.s2 ((s.fe.bufIn 2 D (s.feIn x)).iq (k + s.fe.s2oPushOffset)) := by
  have hfits := h.fe.s2_fits
  rw [Frontend.iqPushCnt] at hk
  split at hk
  case isFalse => exact absurd hk (Nat.not_lt_zero k)
  case isTrue hv =>
    rw [Bool.and_eq_true] at hv
    obtain ⟨q, hq⟩ := h.stage2 hv.1
    have hi : k + s.fe.s2oPushOffset < 4 := by omega
    have hans := t.s2.answer_windowPc q hi
    have hpc : ((s.fe.bufIn 2 D (s.feIn x)).iq (k + s.fe.s2oPushOffset)).pc =
      windowPc q (k + s.fe.s2oPushOffset) :=
      hq.pc _ hi
    have hm : ((s.fe.bufIn 2 D (s.feIn x)).iq (k + s.fe.s2oPushOffset)).eitm =
        (t.s2.answer q).eitm := hq.eitm
    have hf : ((s.fe.bufIn 2 D (s.feIn x)).iq (k + s.fe.s2oPushOffset)).eipf =
        (t.s2.answer q).eipf := hq.eipf
    have hins : ((s.fe.bufIn 2 D (s.feIn x)).iq (k + s.fe.s2oPushOffset)).ins =
        packBytes fun j => s.ic.ins (4 * (k + s.fe.s2oPushOffset) + j) := rfl
    generalize (s.fe.bufIn 2 D (s.feIn x)).iq (k + s.fe.s2oPushOffset) = w at hpc hm hf hins ⊢
    refine ⟨by rw [hpc, hans, hm], by rw [hpc, hans, hf], fun h₁ h₂ => ?_⟩
    have hidle : s.ic.state = .idle := Icache.idle_of_pCe (s := s.ic) (x := s.icIn D 0 false x) hv.2
    have hpipe := hq.pipe
    rw [← hm, ← hf, h₁, h₂, Bool.or_false] at hpipe
    have h2 := h.ic.stage2
    rw [hpipe, Option.map_some] at h2
    have hpa : (t.s2.answer q).ppn ++ windowVpo q = s.ic.s2oPaddr := by
      split_ifs at h2
      simpa using h2
    have hout := h.ic.out (by rw [hpipe, hpa])
    rw [Icache.Out, hidle] at hout
    have ha := pcPaddr_windowPc (t.s2.answer q).ppn q hi
    rw [hins, hpc, hans, ← packBytes_eq F (by omega)]
    refine packBytes_congr fun j hj => ?_
    have hb := hout (4 * (k + s.fe.s2oPushOffset) + j) (by omega)
    rw [Icache.Shows, ← hpa] at hb
    rw [hb, ha, Nat.add_assoc]

/-- The words of the log are those of the observer, old and new. -/
theorem Inv.words_next (h : s.Inv D S F l t) {k : ℕ}
    (hk : k < (l.next 2 D s.fe (s.feIn x)).pushed) :
    Fetched F ((s.tagsNext D b seg x t l).word k) ((l.next 2 D s.fe (s.feIn x)).word k) := by
  rw [FetchLog.next] at hk
  simp only at hk
  split at hk
  · exact absurd hk (Nat.not_lt_zero k)
  · rcases Nat.lt_or_ge k l.pushed with hlt | hge
    · rw [FetchLog.next_word_old hlt, show (s.tagsNext D b seg x t l).word k = t.word k from
        if_neg (by omega)]
      exact h.words k hlt
    · obtain ⟨j, rfl⟩ := Nat.exists_eq_add_of_le hge
      rw [FetchLog.next_word_new (by omega),
        show (s.tagsNext D b seg x t l).word (l.pushed + j) = t.s2 from if_pos ⟨hge, hk⟩]
      exact h.pushed (by omega)

/-- **The invariant is kept.** -/
theorem Inv.next (h : s.Inv D S F l t) (hS : S ≤ 7) (hx : s.mem.Answers x.axi) :
    (s.next D p b S seg x).Inv D S F (l.next 2 D s.fe (s.feIn x)) (s.tagsNext D b seg x t l) := by
  have hic : (s.next D p b S seg x).ic.Inv S F (s.next D p b S seg x).mem
    (s.tagsNext D b seg x t l).pipe :=
    h.ic.next hS hx
  have hfe : (s.next D p b S seg x).fe.Fetches 2 D (l.next 2 D s.fe (s.feIn x)) :=
    h.fe.next (by omega) _
  cases hc : s.fe.pCe 2 D (s.feIn x) with
  | true =>
      refine ⟨hic, hfe, fun _ => ⟨_, stage1_move hc⟩, fun hv => ?_, fun k => h.words_next⟩
      have hv' : s.fe.icS1oValid = true := by
        simpa [FetchSide.next, Frontend.next, hc, ldff] using hv
      obtain ⟨q, hq⟩ := h.stage1 hv'
      exact ⟨q, hq.move hc⟩
  | false =>
      obtain ⟨⟨hv₁, hv₂⟩, hs₁, hs₂⟩ := @stages_wait _ _ _ p b S seg _ _ l t hc
      refine ⟨hic, hfe, fun hv => ?_, fun hv => ?_, fun k => h.words_next⟩
      · rw [hv₁] at hv
        obtain ⟨q, hq⟩ := h.stage1 hv
        exact ⟨q, hs₁ q hq⟩
      · rw [hv₂] at hv
        obtain ⟨q, hq⟩ := h.stage2 hv
        exact ⟨q, hs₂ q hq⟩

/-! ### Every reachable state -/

section Runs

variable {pcRst : Pc} {u : Bpu} {w : IqWord} {t₀ : FetchTag} {tagV : Fin n → ℕ → ℕ × Bool}
  {pay : Fin n → ℕ × ℕ → ℕ → Byte} {m₀ : ℕ → Byte}

theorem inv_of_reach (hS : S ≤ 7)
    (hr : (logged n D p b S seg pcRst u w t₀ tagV pay m₀).Reach (s, l, t)) : s.Inv D S m₀ l t := by
  refine Machine.Reach.inv (M := logged n D p b S seg pcRst u w t₀ tagV pay m₀)
    (P := fun q => q.1.Inv D S m₀ q.2.1 q.2.2) (inv_reset pcRst u w t₀ tagV pay m₀) ?_ hr
  rintro ⟨s, l, t⟩ x h hx
  exact h.next hS hx

/-- **The front-end fetches what the emulator fetches.**  Whatever flushes, predictions, writes of
the TLB and invalidations there are, and whatever the bus takes: a word that has been pushed since
the last flush has the exception that `immu_translate_vma` raises for its PC, with the TLB and the
PSR of the cycle in which it was asked for; and if that raises none, it is the word of memory at the
address it returns. -/
theorem fetches_as_emulator (hS : S ≤ 7)
    (hr : (logged n D p b S seg pcRst u w t₀ tagV pay m₀).Reach (s, l, t)) {k : ℕ}
    (hk : k < l.pushed)
    {C : MsrConfig} (hC : C.immuTlbCount = 2 ^ tlbP) {d : Dmmu tlbP} {c : MsrCpu}
    (hc : TlbUnpacked (t.word k).mmu d c)
    (himme : c.psr.imme = (t.word k).imme) (hrm : c.psr.rm = (t.word k).rm) :
    ((l.word k).eitm = true ↔ c.immuTranslateVma C (Epu.pcWord (l.word k).pc) = .error .tlbMiss) ∧
      ((l.word k).eipf = true ↔ c.immuTranslateVma C (Epu.pcWord (l.word k).pc) =
        .error .pageFault) ∧
        ∀ pa unc, c.immuTranslateVma C (Epu.pcWord (l.word k).pc) = .ok (pa, unc) →
          (l.word k).ins = Em.phyReadm32 (fun v => m₀ v.toNat) pa := by
  have hw := (inv_of_reach hS hr).words k hk
  have hag := Immu.lookup_agrees hc C hC (Epu.pcWord (l.word k).pc)
  have hans : (t.word k).mmu.lookup (Epu.pcWord (l.word k).pc) c.psr =
      (t.word k).answer (l.word k).pc := by
    rw [Immu.lookup, himme, hrm]
    rfl
  rw [hans] at hag
  refine ⟨hw.eitm ▸ hag.miss_iff, hw.eipf ▸ hag.fault_iff, fun pa unc hok => ?_⟩
  have hm : (l.word k).eitm = false := by
    by_contra hne
    rw [Bool.not_eq_false, hw.eitm, hag.miss_iff, hok] at hne
    cases hne
  have hf : (l.word k).eipf = false := by
    by_contra hne
    rw [Bool.not_eq_false, hw.eipf, hag.fault_iff, hok] at hne
    cases hne
  rw [hw.ins hm hf, (hag.ok_eq pa unc hok).1, pcPaddr]

end Runs

/-! ### A page -/

/-- The inputs of a run: the first page of the program is mapped to the address 0x80000000 in the
cycles 1 and 2, translation and the cache are on from the third one on, and there are two flushes,
to the first word of the page and to the page behind it.  The memory answers at once. -/
def pageIn (k : ℕ) (m : AxiMem) : FetchSideIn cacheWays where
  flush := k == 4 || k == 40
  flushTgt := if k = 4 then 0xc000000 else 0xc000800
  idCe := true
  imme := decide (3 ≤ k)
  rm := true
  ice := decide (3 ≤ k)
  tlbl := ⟨k == 1, 0, 0x30000001⟩
  tlbh := ⟨k == 2, 0, 0x80000018⟩
  bpuWb := Frontend.freeIn.bpuWb
  invWe := false
  invLine := 0
  axi := AxiIn.prompt m
  unc := fun _ _ => 0

/-- Nothing has been looked up. -/
def noTag : FetchTag := ⟨Immu.reset, false, false⟩

/-- The chip fetches from a memory that holds at each address of the upper half its last byte. -/
def fetching : Machine (FetchSide cacheWays × FetchLog × FetchTags) (FetchSideIn cacheWays) :=
  logged cacheWays 2 3 3 0 true 0xc000000 Frontend.bpuRst Frontend.emptyWord noTag
    (fun _ _ => (0, false)) (fun _ _ _ => 0) fun a => if a < 0x80000000 then 0 else BitVec.ofNat 8 a

def fetched : ℕ → FetchSide cacheWays × FetchLog × FetchTags
  | 0 => fetching.reset
  | k + 1 => fetching.next (fetched k) (pageIn k (fetched k).1.mem)

theorem reach_fetched (k : ℕ) : fetching.Reach (fetched k) := by
  induction k with
  | zero => exact Machine.Reach.reset
  | succ k ih => exact Machine.Reach.tick ih (AxiMem.answers_prompt _)

/-- The emulator in supervisor mode, with translation and the I-cache on. -/
def paging : MsrCpu :=
  { MsrCpu.zero.reset with psr :=
    { MsrCpu.zero.reset.psr with rm := true, imme := true, ice := true } }

/-- The translation of an address with a TLB of the circuit. -/
def paged (t : FetchTag) (va : Word) : Except Cpu.MmuFault (Word × Bool) :=
  (paging.withTlb t.mmu (Dmmu.reset (p := tlbP))).immuTranslateVma
    (MsrConfig.default.withMmu tlbP tlbP true true) va

/-- The sixth word of the first page comes through the cache from where the page is, and the first
word behind the page is a miss. -/
theorem fetches_as_emulator_paged :
    ((fetched 36).2.1.word 5).ins = 0x17161514 ∧ ((fetched 60).2.1.word 0).eitm = true := by
  constructor
  · obtain ⟨hk, hpc, himme, hrm, hok⟩ : 5 < (fetched 36).2.1.pushed ∧
        ((fetched 36).2.1.word 5).pc = 0xc000005 ∧ ((fetched 36).2.2.word 5).imme = true ∧
          ((fetched 36).2.2.word 5).rm = true ∧
            paged ((fetched 36).2.2.word 5) 0x30000014 = .ok (0x80000014, false) := by
      decide +kernel
    have hr := reach_fetched 36
    generalize fetched 36 = r at hr hk hpc himme hrm hok ⊢
    obtain ⟨s, l, t⟩ := r
    have key :=
      (fetches_as_emulator (Nat.zero_le 7) hr hk
        (C := MsrConfig.default.withMmu tlbP tlbP true true) rfl
      (tlbUnpacked_withTlb paging (t.word 5).mmu Dmmu.reset) himme.symm hrm.symm).2.2
    rw [key 0x80000014 false (by rw [hpc]; exact hok)]
    decide +kernel
  · obtain ⟨hk, hpc, himme, hrm, hmiss⟩ : 0 < (fetched 60).2.1.pushed ∧
        ((fetched 60).2.1.word 0).pc = 0xc000800 ∧ ((fetched 60).2.2.word 0).imme = true ∧
          ((fetched 60).2.2.word 0).rm = true ∧
            paged ((fetched 60).2.2.word 0) 0x30002000 = .error .tlbMiss := by
      decide +kernel
    have hr := reach_fetched 60
    generalize fetched 60 = r at hr hk hpc himme hrm hmiss ⊢
    obtain ⟨s, l, t⟩ := r
    refine (fetches_as_emulator (Nat.zero_le 7) hr hk
      (C := MsrConfig.default.withMmu tlbP tlbP true true) rfl
      (tlbUnpacked_withTlb paging (t.word 0).mmu Dmmu.reset) himme.symm hrm.symm).1.2 ?_
    rw [hpc]
    exact hmiss

end FetchSide

end NanoCpu
