/-
**Which lines the D-cache writes to memory.**

A dirty flag should mean that its line has been stored to since it came from memory, or went there
for the last time.  Two places of the state machine break this: a flush leaves the flag set, and the
end of a miss writes back the flag that the victim had.  In runs that stay away from both, the cache
writes to memory only lines that have been stored to.

Main definitions:

* `Dcache.storedNext` — the lines that have been stored to since they came from or went to memory;
* `Dcache.FlagRight` — the two places are not passed with a dirty line;
* `Dcache.tracked` — the cache with an observer of these lines.

Main results:

* `Dcache.dirty_stored` — dirty slots hold lines that have been stored to;
* `Dcache.writeback_stored` — **no write-back without a store**, in runs that stay away from both
  places;
* `Dcache.writeback_spurious` — one without a store, in a run that does not.
-/

import NanoCpu.DcacheOps

set_option relaxedAutoImplicit false
set_option autoImplicit false
set_option linter.unusedSectionVars false

namespace NanoCpu

open WriteBack

namespace Dcache

variable {n : ℕ} [NeZero n] {S : ℕ} {s : Dcache n} {m : AxiMem} {x : DcIn n} {m₀ : ℕ → Byte}
  {pay : Fin n → ℕ × ℕ → ℕ → Byte} {σ : ℕ → Bool}

/-! ### The observer -/

/-- The lines that have been stored to since they were read from memory or written to it, after this
cycle. -/
def storedNext (S : ℕ) (σ : ℕ → Bool) (s : Dcache n) (x : DcIn n) (l : ℕ) : Bool :=
  if (s.done S x).any (fun a => decide (a.wmsk ≠ 0 ∧ a.addr / 64 = l)) then true
  else if s.state = .refill ∧ s.hdsAxiRLast x = true ∧ l = s.s2o.paddr.toNat / 64 then false
  else if s.state = .writeback ∧ s.hdsAxiB x = true ∧ l = s.awAddr / 64 then false
  else σ l

/-- The state machine neither leaves the first cycle of a flush with a dirty line, nor ends the miss
of a load whose victim was dirty. -/
def FlagRight (s : Dcache n) : Prop :=
  (s.state = .flush → s.s2oMatchDirty = false) ∧
    (s.state = .reload → s.s2o.wmsk = 0 → s.s2o.freeDirty = false)

/-- The cache under any requests, with an observer of the lines that are stored to. -/
def tracked (n : ℕ) [NeZero n] (S : ℕ) (pay : Fin n → ℕ × ℕ → ℕ → Byte) (m₀ : ℕ → Byte)
    (ok : Dcache n → Prop) :
    Machine (((Dcache n × AxiMem) × Option (DcOp n)) × (ℕ → Bool)) (DcIn n) :=
  (ops n S pay m₀).observe (fun _ => false) (fun σ q x => storedNext S σ q.1.1 x) fun _ q
    _ => ok q.1.1

/-- The state machine starts to write a line to memory. -/
def StartsWb (s : Dcache n) : Prop := (s.state = .replace ∨ s.state = .flush) ∧ s.awSet = true

/-! ### Dirty lines have been stored to -/

/-- Dirty slots hold lines that have been stored to. -/
def DirtyStored (S : ℕ) (s : Dcache n) (σ : ℕ → Bool) : Prop :=
  ∀ a l, (s.contents S).line a = some l → (s.contents S).dirty a = true → σ l = true

/-- Cycles that only empty slots or leave them alone. -/
theorem DirtyStored.mono (h : s.DirtyStored S σ) {s' : Dcache n} {σ' : ℕ → Bool}
    (hl : ∀ a l, (s'.contents S).line a = some l → (s'.contents S).dirty a = true →
      (s.contents S).line a = some l ∧ (s.contents S).dirty a = true)
    (hσ : ∀ a l, (s'.contents S).line a = some l → (s'.contents S).dirty a = true → σ l = true →
      σ' l = true) : s'.DirtyStored S σ' := by
  intro a l ha hd
  obtain ⟨h₁, h₂⟩ := hl a l ha hd
  exact hσ a l ha hd (h a l h₁ h₂)

/-- An access to a line that is held. -/
theorem DirtyStored.wrote (h : s.DirtyStored S σ) {s' : Dcache n} {σ' : ℕ → Bool} {a : DcAccess}
    {w₀ : Fin n} {e : Bool} (hline : (s.contents S).line (w₀, setFin S a.addr) = some (a.addr / 64))
    (hwr : s.Wrote S s' a w₀ e) (hσ : ∀ l, σ l = true → σ' l = true)
    (he : e = true ∨ a.wmsk ≠ 0 → σ' (a.addr / 64) = true) : s'.DirtyStored S σ' := by
  intro b l hb hd
  have hl : (s'.contents S).line = (s.contents S).line := by simp only [contents, hwr.tagV]
  rw [hl] at hb
  have hd' : s'.d b.1 b.2 = true := hd
  rw [hwr.d] at hd'
  split_ifs at hd' with hc
  · have hbs : b = (w₀, setFin S a.addr) := Prod.ext hc.1 (Fin.ext hc.2)
    rw [hbs, hline, Option.some_inj] at hb
    rw [← hb]
    refine he ?_
    simpa using hd'
  · exact hσ l (h b l hb hd')

/-- Where no access is done, a line stays stored unless it comes from memory or has arrived
there. -/
theorem storedNext_of_none (hd : s.done S x = none) {l : ℕ} (h₁ : s.state ≠ .refill)
    (h₂ : s.state ≠ .writeback) : storedNext S σ s x l = σ l := by
  rw [storedNext, hd]
  simp [h₁, h₂]

theorem storedNext_of_done {a : DcAccess} (hd : s.done S x = some a) (hst : s.state ≠ .refill)
    (hst' : s.state ≠ .writeback) (l : ℕ) :
    storedNext S σ s x l = (decide (a.wmsk ≠ 0 ∧ a.addr / 64 = l) || σ l) := by
  rw [storedNext, hd]
  simp only [Option.any_some, hst, hst', false_and, if_false]
  cases decide (a.wmsk ≠ 0 ∧ a.addr / 64 = l) <;> simp

/-- An access that hits. -/
theorem DirtyStored.next_idle (hS : S ≤ 7) (h : s.DirtyStored S σ) (hsh : s.Shape S m)
    (hst : s.state = .idle) : (s.next S x).DirtyStored S (storedNext S σ s x) := by
  cases hready : s.s2iReady S x with
  | false =>
      have hd : s.done S x = none := by simp [done, hready, hst]
      refine h.mono (fun a l ha hda => ?_) fun a l _ _ hl => ?_
      · rw [contents_next hready (by simp [hst])] at ha hda
        exact ⟨ha, hda⟩
      · rw [storedNext_of_none hd (by simp [hst]) (by simp [hst])]
        exact hl
  | true =>
      have hready' := hready
      simp only [s2iReady, Bool.and_eq_true] at hready'
      obtain ⟨⟨⟨⟨⟨⟨-, hr⟩, -⟩, -⟩, hhit⟩, -⟩, -⟩ := hready'
      have hfresh := hsh.fresh (Or.inl hst) hr
      obtain ⟨hw, hvec, hline⟩ := hitVec_unique hS hfresh hsh.ok.uniq hhit
      have hd : s.done S x = some (s.hitAccess x) := by rw [done, if_pos hready]
      have hσ := storedNext_of_done (σ := σ) hd (by simp [hst]) (by simp [hst])
      refine h.wrote hline (wrote_hit hS hfresh hst hready hvec).1 (fun l hl => ?_) fun he => ?_
      · rw [hσ, hl, Bool.or_true]
      · rw [hσ]
        rcases he with he | he
        · have hl : σ ((s.hitAccess x).addr / 64) = true := h _ _ hline he
          rw [hl, Bool.or_true]
        · rw [decide_eq_true ⟨he, rfl⟩, Bool.true_or]

/-- The end of a miss. -/
theorem DirtyStored.next_reload (h : s.DirtyStored S σ) (hsh : s.Shape S m)
    (hst : s.state = .reload)
    (hok : s.FlagRight) : (s.next S x).DirtyStored S (storedNext S σ s x) := by
  have hstage := hsh.stage
  rw [Stage, hst] at hstage
  obtain ⟨fw, hrepl, hfd⟩ := hstage
  have hd : s.done S x = some s.missAccess := by
    rw [done, if_neg (by simp [s2iReady_of_state, hst]), if_pos hst]
  have hσ := storedNext_of_done (σ := σ) hd (by simp [hst]) (by simp [hst])
  refine h.wrote hrepl.line (wrote_reload hrepl.toMissed hst).1 (fun l hl => ?_) fun he => ?_
  · rw [hσ, hl, Bool.or_true]
  · rw [hσ]
    by_cases hw : s.s2o.wmsk = 0
    · -- a load does not take over the flag of its victim
      rcases he with he | he
      · rw [hfd, hok.2 hst hw] at he
        cases he
      · exact absurd hw he
    · rw [decide_eq_true ⟨hw, rfl⟩, Bool.true_or]

/-- A line that is written back or read is in no dirty slot. -/
theorem DirtyStored.next_bus (h : s.DirtyStored S σ) (hsh : s.Shape S m)
    (hst : s.state = .writeback ∨ s.state = .refill)
    (hf : s.state = .writeback → s.s2o.fls = false) :
    (s.next S x).DirtyStored S (storedNext S σ s x) := by
  have hidle : s.state ≠ .idle := by rcases hst with hst | hst <;> simp [hst]
  have hd : s.done S x = none := done_of_state hidle (by rcases hst with hst | hst <;> simp [hst])
  have hstage := hsh.stage
  have hb := hsh.bus
  rw [Stage] at hstage
  rw [Bus] at hb
  refine h.mono (fun a l ha hda => ?_) fun a l ha hda hl => ?_
  · simp only [contents] at ha hda ⊢
    rw [next_tagV (by rcases hst with hst | hst <;> simp [hst])] at ha
    rw [next_d (s2iReady_of_state hidle) (by rcases hst with hst | hst <;> simp [hst])] at hda
    exact ⟨ha, hda⟩
  · have ha' : (s.contents S).line a = some l := by
      simp only [contents] at ha ⊢
      rwa [next_tagV (by rcases hst with hst | hst <;> simp [hst])] at ha
    have hda' : (s.contents S).dirty a = true := by
      simp only [contents] at hda ⊢
      rwa [next_d (s2iReady_of_state hidle) (by rcases hst with hst | hst <;> simp [hst])] at hda
    rw [storedNext, hd]
    rcases hst with hst | hst
    · rw [hst] at hstage
      rcases hstage with ⟨a', hmat, -⟩ | ⟨fw, v, -, -, hsend, habs⟩
      · have := hmat.fls
        rw [hf hst] at this
        cases this
      · have hne : l ≠ s.awAddr / 64 := by
          rintro rfl
          refine habs a ?_
          rw [ha', hsend.addr]
          congr 1
          omega
        simp [hst, hne, hl]
    · rw [hst] at hstage
      obtain ⟨fw, hrepl, -⟩ := hstage
      have hne : l ≠ s.s2o.paddr.toNat / 64 := by
        rintro rfl
        have := hsh.ok.uniq _ _ _ ha' hrepl.line
        rw [this] at hda'
        have hclean : (s.contents S).dirty (s.slot S fw) = false := hrepl.clean
        rw [hda'] at hclean
        cases hclean
      simp [hst, hne, hl]

theorem DirtyStored.next (hS : S ≤ 7) (h : s.DirtyStored S σ) (hsh : s.Shape S m)
    (hok : s.FlagRight) (hf : s.state = .writeback → s.s2o.fls = false) :
    (s.next S x).DirtyStored S (storedNext S σ s x) := by
  have hstage := hsh.stage
  rw [Stage] at hstage
  -- the cycles that store nothing, and take no line from the bus
  have plain : s.state ≠ .idle → s.state ≠ .reload → s.state ≠ .refill → s.state ≠ .writeback →
      (∀ a l, ((s.next S x).contents S).line a = some l → ((s.next S x).contents S).dirty a = true →
        (s.contents S).line a = some l ∧ (s.contents S).dirty a = true) →
      (s.next S x).DirtyStored S (storedNext S σ s x) := by
    intro h₁ h₂ h₃ h₄ hl
    refine h.mono hl fun a l _ _ hσ => ?_
    rw [storedNext_of_none (done_of_state h₁ h₂) h₃ h₄]
    exact hσ
  cases hst : s.state <;> rw [hst] at hstage
  case idle => exact h.next_idle hS hsh hst
  case reload => exact h.next_reload hsh hst hok
  case refill => exact h.next_bus hsh (Or.inr hst) hf
  case writeback => exact h.next_bus hsh (Or.inl hst) hf
  case boot =>
    refine plain (by simp [hst]) (by simp [hst]) (by simp [hst]) (by simp [hst]) fun a l ha => ?_
    have ht : (s.next S x).tagV a.1 a.2 = (0, false) := by
      change (if _ then s.s1iReplaceTagV S else s.tagV a.1 a.2) = _
      rw [show s.s1iReplaceTagV S = (0, false) by simp [s1iReplaceTagV, hst], hstage.2.1, ite_self]
    simp [contents, ht] at ha
  case replace =>
    obtain ⟨fw, hmiss, -⟩ := hstage
    refine plain (by simp [hst]) (by simp [hst]) (by simp [hst]) (by simp [hst]) fun a l ha hd => ?_
    rw [contents_next_replace hmiss hst, Contents.evict_line, Function.update_apply] at ha
    rw [contents_next_replace hmiss hst, Contents.evict_dirty, Function.update_apply] at hd
    split_ifs at ha hd
    exact ⟨ha, hd⟩
  case invalidate =>
    refine plain (by simp [hst]) (by simp [hst]) (by simp [hst]) (by simp [hst]) fun a l ha hd => ?_
    rw [contents_next_invalidate hst hstage.2] at ha hd
    simp only [Contents.clear] at ha hd
    split_ifs at ha hd
    exact ⟨ha, hd⟩
  all_goals
    refine plain (by simp [hst]) (by simp [hst]) (by simp [hst]) (by simp [hst]) fun a l ha hd => ?_
    rw [contents_next (s2iReady_of_state (by simp [hst])) (by simp [hst])] at ha hd
    exact ⟨ha, hd⟩

/-- In a run that stays away from the two places no flush is ever written back. -/
theorem fls_next (hsh : s.Shape S m) (ha : m.Answers x.axi) (hok : s.FlagRight)
    (hf : s.state = .writeback → s.s2o.fls = false) (hn : (s.next S x).state = .writeback) :
    (s.next S x).s2o.fls = false := by
  have hstage := hsh.stage
  have hb := hsh.bus
  have hstn : (s.next S x).state = s.stateNxt S x := rfl
  rw [Stage] at hstage
  rw [Bus] at hb
  cases hst : s.state <;> rw [hst] at hstage hb
  case replace =>
    obtain ⟨fw, hmiss, -⟩ := hstage
    rw [next_s2o_of_stall (by simp [hst])]
    exact hmiss.fls
  case writeback =>
    rw [next_s2o_of_stall (by simp [hst])]
    exact hf hst
  case flush =>
    rw [hstn, stateNxt, hst, hok.1 hst] at hn
    cases hn
  case idle =>
    rcases idle_steps (S := S) (x := x) hst with ⟨-, h', -⟩ | ⟨-, -, h'⟩ | ⟨-, -, -, -, -, -, h'⟩ |
      ⟨-, -, -, -, h'⟩ | ⟨-, -, -, -, -, -, h'⟩ | ⟨-, -, -, -, -, -, h'⟩ <;>
    · rw [h'] at hn
      cases hn
  case boot =>
    rw [hstn, stateNxt, hst] at hn
    by_cases hc : s.bootCnt + 1 = 2 ^ S <;> simp [hc] at hn
  case refill =>
    obtain ⟨c, hb⟩ := hb
    rcases hb.next (S := S) hst ha with ⟨-, h', -⟩ | ⟨-, -, h', -⟩ | ⟨-, -, h', -⟩ <;>
    · rw [h'] at hn
      cases hn
  case uncachedBoot =>
    rcases BusQuiet.next_uncached (S := S) hb ha hst with ⟨h', -⟩ | ⟨h', -⟩ <;>
    · rw [h'] at hn
      cases hn
  case uncachedRead =>
    rcases BusUncachedRead.next (S := S) hb hst ha with ⟨-, h', -⟩ | ⟨-, h', -⟩ <;>
    · rw [h'] at hn
      cases hn
  case uncachedWrite =>
    obtain ⟨k, hb⟩ := hb
    rcases BusUncachedWrite.next (S := S) hb hst ha with ⟨-, h', -⟩ | ⟨-, -, h', -⟩ <;>
    · rw [h'] at hn
      cases hn
  all_goals
    rw [hstn, stateNxt, hst] at hn
    cases hn

theorem dirty_stored (hS : S ≤ 7) {g : Option (DcOp n)}
    (hr : (tracked n S pay m₀ FlagRight).Reach (((s, m), g), σ)) :
    s.Shape S m ∧ s.DirtyStored S σ ∧ (s.state = .writeback → s.s2o.fls = false) := by
  refine Machine.Reach.inv (P := fun q => q.1.1.1.Shape S q.1.1.2 ∧ q.1.1.1.DirtyStored S q.2 ∧
    (q.1.1.1.state = .writeback → q.1.1.1.s2o.fls = false)) ?_ ?_ hr
  · refine ⟨shape_reset pay m₀, fun a l ha => ?_, fun h => DcState.noConfusion h⟩
    cases ha
  · rintro ⟨⟨⟨s, m⟩, g⟩, σ⟩ x ⟨hsh, h, hf⟩ ⟨⟨ha, hx⟩, hok⟩
    exact ⟨hsh.next hS hx ha, h.next hS hsh hok hf, fls_next hsh ha hok hf⟩

/-! ### No write-back without a store -/

/-- The line that a write-back begins to write is dirty. -/
theorem dirty_of_startsWb (h : s.Shape S m) (hw : s.StartsWb) : ∃ a,
    (s.contents S).line a = some (s.axiPaddrNxt S / 64) ∧ (s.contents S).dirty a = true := by
  obtain ⟨hst, haw⟩ := hw
  have hstage := h.stage
  rw [Stage] at hstage
  rcases hst with hst | hst <;> rw [hst] at hstage
  · obtain ⟨fw, hmiss, -, -, hfd, hft⟩ := hstage
    have hd : s.s2o.freeDirty = true := by simpa [awSet, hst] using haw
    rw [hd] at hfd
    refine ⟨s.slot S fw, ?_, hfd.symm⟩
    rw [victim_line h.ok hmiss hft hfd.symm, axiPaddrNxt]
    simp [fsmUncachedReq, hst, haw]
  · obtain ⟨a, hmat⟩ := hstage
    have hd : s.s2o.d a = true := by
      have : s.s2oMatchDirty = true := by simpa [awSet, hst] using haw
      rwa [s2oMatchDirty, pmux_of_unique hmat.way] at this
    refine ⟨s.slot S a, ?_, by rw [← hmat.dirty, hd]⟩
    rw [hmat.line, axiPaddrNxt]
    simp [fsmUncachedReq, hst]

/-- **No write-back without a store**: in every run in which no flush of a dirty line has been
carried out, and no miss of a load has ended whose victim was dirty, the cache begins to write only
lines to memory that have been stored to since they were last read or written. -/
theorem writeback_stored (hS : S ≤ 7) {g : Option (DcOp n)}
    (hr : (tracked n S pay m₀ FlagRight).Reach (((s, m), g), σ)) (hw : s.StartsWb) :
    σ (s.axiPaddrNxt S / 64) = true := by
  obtain ⟨hsh, hds, -⟩ := dirty_stored hS hr
  obtain ⟨a, hl, hd⟩ := dirty_of_startsWb hsh hw
  exact hds a _ hl hd

/-! ### A store and its flushes -/

section Flushes

variable {g : Option (DcOp n)} {o : DcOp n} {ok : Dcache n → Prop}

theorem flagRight_of_idle (hst : s.state = .idle) : s.FlagRight := by
  constructor
  · intro h
    rw [hst] at h
    cases h
  · intro h
    rw [hst] at h
    cases h

/-- A run of stores alone stays away from the two places. -/
theorem tracked_of_stores (hS : S ≤ 7) {h : DcHist} (hr : (cached n S pay m₀).Reach ((s, m), h))
    (hst : ∀ a ∈ h.asked, a.wmsk ≠ 0) :
    ∃ g σ, (tracked n S pay m₀ FlagRight).Reach (((s, m), g), σ) := by
  have key : ∀ q, (cached n S pay m₀).Reach q → (∀ a ∈ q.2.asked, a.wmsk ≠ 0) →
      ∃ g σ, (tracked n S pay m₀ FlagRight).Reach ((q.1, g), σ) := by
    intro q hq
    induction hq with
    | reset => exact fun _ => ⟨none, fun _ => false, Machine.Reach.reset⟩
    | @tick q x hq hx ih =>
        intro hall
        obtain ⟨⟨s, m⟩, h⟩ := q
        have hall' : ∀ a ∈ h.asked, a.wmsk ≠ 0 := fun a ha => hall a (List.mem_append_left _ ha)
        obtain ⟨g, σ, hg⟩ := ih hall'
        have hobs := observed_of_reach hS hq
        refine ⟨noteOp g s m x, storedNext S σ s x,
          Machine.Reach.tick hg ⟨⟨hx.1, fun _ hreq hinv => ?_⟩, fun hfl => ?_, fun hrl hw => ?_⟩⟩
        · have := (hobs.inv.front hreq).2.1
          rw [hinv] at this
          cases this
        · have hp := hobs.inv.phase
          rw [Phase, show s.state = .flush from hfl] at hp
          exact hp.elim
        · -- the access that ends is one of the stores
          refine absurd hw (hall' s.missAccess ?_)
          rw [hobs.asked, pending, show s.state = .reload from hrl]
          simp
  exact key _ hr hst

/-- A request for a flush, and the cycle that starts it. -/
theorem tracked_flush (hS : S ≤ 7) (hok : ∀ s : Dcache n, s.state = .idle → ok s)
    (hr : (tracked n S pay m₀ ok).Reach (((s, m), g), σ)) (hst : s.state = .idle)
    (hq : s.s1o.req = false) {v : BitVec 13} {w : Fin n}
    (hl : (s.contents S).line (w, setFin S v.toNat) = some (v.toNat / 64))
    (hd : (s.contents S).dirty (w, setFin S v.toNat) = true) :
    ∃ (s' : Dcache n) (m' : AxiMem) (g' : Option (DcOp n)),
      (tracked n S pay m₀ ok).Reach (((s', m'), g'), σ) ∧ s'.StartsWb ∧
      s'.axiPaddrNxt S / 64 = v.toNat / 64 := by
  have hsh := (progress_of_reach hS hr.of_observe).1
  set x₁ := pageZero n ⟨true, 0, 0, 0, v, false, true⟩ AxiIn.silent with hx₁
  obtain ⟨hst₁, hs₁, hc₁, -⟩ := next_ask hsh hst hq ⟨true, 0, 0, 0, v, false, true⟩
  have hσ₁ : storedNext S σ s x₁ = σ := by
    funext l
    refine storedNext_of_none ?_ (by simp [hst]) (by simp [hst])
    simp [done, s2iReady, hq, hst]
  have hr₁ : (tracked n S pay m₀ ok).Reach (((s.next S x₁, m.next s.axiOut AxiIn.silent),
      noteOp g s m x₁), storedNext S σ s x₁) := by
    refine Machine.Reach.tick (x := x₁) hr ⟨⟨m.answers_silent, fun _ h' => ?_⟩, hok s hst⟩
    rw [show s.s1o.req = false from hq] at h'
    cases h'
  rw [hσ₁] at hr₁
  have hsh₁ := (progress_of_reach hS hr₁.of_observe).1
  obtain ⟨hst₂, hc₂, -⟩ := next_flush_start hS hsh₁ hst₁ hs₁ (w := w) (by rw [hc₁]; exact hl)
  have hσ₂ : storedNext S σ (s.next S x₁) (quiet n false) = σ := by
    funext l
    refine storedNext_of_none ?_ (by rw [hst₁]; simp) (by rw [hst₁]; simp)
    have hfl : (s.next S x₁).s1o.fls = true := by rw [hs₁]
    rw [done, if_neg (by simp [s2iReady, hfl]), if_neg (by rw [hst₁]; simp)]
  have hr₂ := Machine.Reach.tick (x := quiet n false) hr₁
    ⟨⟨AxiMem.answers_silent _, fun _ _ _ => rfl⟩, hok _ hst₁⟩
  have hsh₂ := (progress_of_reach hS hr₂.of_observe).1
  have hstage := hsh₂.stage
  have hpa : ((s.next S x₁).next S (quiet n false)).s2o.paddr.toNat = v.toNat := by
    rw [next_s2o_of_idle hst₁]
    exact addr_quiet (m := m) (u := false) hs₁
  refine ⟨(s.next S x₁).next S (quiet n false), _,
    _, by rw [← hσ₂]; exact hr₂, ⟨Or.inr hst₂, ?_⟩, ?_⟩
  · change ((s.next S x₁).next S (quiet n false)).Stage S _ at hstage
    rw [Stage, hst₂] at hstage
    obtain ⟨a, hmat⟩ := hstage
    have hl₂ : (((s.next S x₁).next S (quiet n false)).contents S).line (w, setFin S v.toNat) =
        some (((s.next S x₁).next S (quiet n false)).s2o.paddr.toNat / 64) := by
      rw [hc₂, hc₁, hpa]
      exact hl
    have hslot := hsh₂.ok.uniq _ _ _ hmat.line hl₂
    have hda : ((s.next S x₁).next S (quiet n false)).s2o.d a = true := by
      rw [hmat.dirty, hslot, hc₂, hc₁]
      exact hd
    rw [awSet, hst₂]
    exact (pmux_of_unique hmat.way _).trans hda
  · rw [axiPaddrNxt]
    simp [fsmUncachedReq, hst₂, hpa]

/-- A byte has been stored at address zero. -/
theorem reach_store_zero :
    ∃ (s : Dcache 4) (m : AxiMem) (h : DcHist) (fw : Fin 4),
      (cached 4 4 (fun _ _ _ => 0) fun _ => 0).Reach ((s, m), h) ∧ (∀ a ∈ h.asked, a.wmsk ≠ 0) ∧
      s.state = .idle ∧ s.s1o.req = false ∧
      (s.contents 4).line (fw, setFin 4 (0 : BitVec 13).toNat) = some ((0 : BitVec 13).toNat / 64) ∧
      (s.contents 4).dirty (fw, setFin 4 (0 : BitVec 13).toNat) = true := by
  have hS : 4 ≤ 7 := by decide
  obtain ⟨s, m, h, hst, hq, fw, ht, hd⟩ := at_store (n := 4) 4 (fun _ _ _ => 0) (fun _ => 0) hS
    (a := access 1 1 0) ⟨rfl, rfl, rfl⟩
  obtain ⟨h, hr, -, hlog⟩ := h
  refine ⟨s, m, h, fw, hr, ?_, hst, hq, ?_, ?_⟩
  · rw [(observed_of_reach hS hr).asked, hlog, pending, hst]
    simp [access]
  · rw [line_eq_some_iff, ht]
    exact if_pos ⟨rfl, by decide⟩
  · change s.d fw (setOf 4 0) = true
    rw [hd]
    simp [access, setOf]

/-- The flush of a byte that has been stored begins with a write-back of its line. -/
theorem writeback_stored_flush :
    ∃ s m g σ, (tracked 4 4 (fun _ _ _ => 0) (fun _ => 0) FlagRight).Reach (((s, m), g), σ) ∧
      s.StartsWb ∧ σ 0 = true := by
  have hS : 4 ≤ 7 := by decide
  obtain ⟨s, m, h, fw, hr, hasked, hst, hq, hl, hdirty⟩ := reach_store_zero
  obtain ⟨g, σ, hr⟩ := tracked_of_stores hS hr hasked
  obtain ⟨s', m', g', hr', hw, ha⟩ :=
    tracked_flush hS (fun _ => flagRight_of_idle) hr hst hq (v := 0) (w := fw) hl hdirty
  have := writeback_stored hS hr' hw
  rw [ha] at this
  exact ⟨s', m', g', σ, hr', hw, this⟩

/-- When the flush of a dirty line has ended, the line is in memory: it counts as not stored to. -/
theorem unstored_of_flush (hS : S ≤ 7) (hr : (tracked n S pay m₀ ok).Reach (((s, m), some o), σ))
    (hst : s.state = .idle) (hf : o.isFls) {b : Fin n × Fin (2 ^ S)}
    (hl : (o.cache.contents S).line b = some (o.addr / 64))
    (hd : (o.cache.contents S).dirty b = true) : σ (o.addr / 64) = false := by
  generalize hq : (((s, m), some o), σ) = q at hr
  cases hr with
  | reset => cases hq
  | @tick q x hr hx =>
      obtain ⟨⟨⟨t, u⟩, g⟩, τ⟩ := q
      obtain ⟨hsh, hprog⟩ := progress_of_reach hS hr.of_observe
      obtain ⟨⟨⟨rfl, rfl⟩, hg⟩, rfl⟩ : ((s = t.next S x ∧ m = u.next t.axiOut x.axi) ∧
          some o = noteOp g t u x) ∧ σ = storedNext S τ t x := by
        simpa only [tracked, ops, machine, Machine.observe, Prod.mk.injEq] using hq
      rw [noteOp] at hg
      split_ifs at hg with hs hidle
      · -- a flush that ends at once does not find its line
        obtain rfl := Option.some_inj.mp hg
        have hti : t.state = .idle := by
          simp only [starts, Bool.and_eq_true, decide_eq_true_eq] at hs
          exact hs.1.1
        have hreq : t.s1o.req = true := by
          simp only [starts, Bool.and_eq_true] at hs
          exact hs.1.2
        refine absurd hl (absent_of_not_hit hS (hsh.fresh (Or.inl hti) hreq) ?_ b)
        rcases idle_steps (S := S) (x := x) hti with ⟨-, -, hmiss⟩ | ⟨-, hs', -⟩ | ⟨-, hs', -⟩ |
          ⟨-, -, -, -, hn⟩ | ⟨-, -, -, -, -, -, hn⟩ | ⟨-, -, -, -, -, -, hn⟩
        · exact (hmiss hs).2.2
        · rw [hs] at hs'
          cases hs'
        · rw [hs] at hs'
          cases hs'
        all_goals
          rw [hst] at hn
          cases hn
      · have hp := (hprog o hg.symm).2
        have hn : t.stateNxt S x = .idle := hst
        have hb := hsh.bus
        have hstage := hsh.stage
        rw [DcOp.Progress] at hp
        rw [Bus] at hb
        rw [Stage] at hstage
        cases htst : t.state <;> rw [htst] at hp hb hstage
        case idle => exact absurd htst hidle
        case invalidate => exact absurd hf.1 (by rw [show o.cache.s1o.inv = true from hp.1]; simp)
        case flush =>
          -- the line is dirty, and a dirty line is written back
          obtain ⟨a, hmat⟩ := hstage
          have hda : t.s2oMatchDirty = true := by
            have hslot := hsh.ok.uniq b _ _ (by rw [hp.2.1.contents, hp.2.1.paddr]; exact hl)
              hmat.line
            rw [s2oMatchDirty, pmux_of_unique hmat.way, hmat.dirty, ← hslot, hp.2.1.contents]
            exact hd
          rw [stateNxt, htst, hda] at hn
          cases hn
        case writeback =>
          obtain ⟨k, hb⟩ := hb
          have hB : t.hdsAxiB x = true := by
            rcases hb.next (S := S) htst hx.1.1 with ⟨-, hn', -⟩ | ⟨hB, -⟩ | ⟨hB, -⟩
            · rw [hst] at hn'
              cases hn'
            · exact hB
            · exact hB
          have haw : t.awAddr = 64 * (o.addr / 64) := by
            rcases hstage with ⟨a, -, hsend⟩ | ⟨fw, v, hrepl, -⟩
            · rw [hsend.addr, hp.2.1.paddr]
            · obtain ⟨a, hmat, -⟩ := hp.2.2.1
              have := hrepl.fls
              rw [hmat.fls] at this
              cases this
          have hdone : t.done S x = none := done_of_state (by simp [htst]) (by simp [htst])
          rw [storedNext, hdone]
          simp [htst, hB, haw]
        case uncachedBoot => exact absurd hf.2 (by rw [hp.1.2]; simp)
        case uncachedRead => exact absurd hf.2 (by rw [hp.1.2]; simp)
        case uncachedWrite => exact absurd hf.2 (by rw [hp.1.2]; simp)
        all_goals exact hp.elim

/-- **A write-back without a store**: a byte is stored, and its line is flushed twice.  The second
flush begins to write the line to memory again. -/
theorem writeback_spurious :
    ∃ s m g σ, (tracked 4 4 (fun _ _ _ => 0) (fun _ => 0) fun _ => True).Reach (((s, m), g), σ) ∧
      s.StartsWb ∧ σ (s.axiPaddrNxt 4 / 64) = false := by
  have hS : 4 ≤ 7 := by decide
  obtain ⟨s, m, h, fw, hr, -, hst, hq, hl, hdirty⟩ := reach_store_zero
  obtain ⟨g, hr⟩ := ops_of_cached hS hr
  obtain ⟨s₁, m₁, o, hr₁, hst₁, hq₁, hfls, haddr, -, hco, hcs⟩ :=
    reach_flush hS hr hst hq (v := 0) (w := fw) hl
  obtain ⟨σ, hr₁⟩ : ∃ σ, (tracked 4 4 (fun _ _ _ => 0) (fun _ => 0) fun _ => True).Reach
      (((s₁, m₁), some o), σ) := Machine.Reach.observed _ _ hr₁
  have hσ : σ (o.addr / 64) = false := by
    refine unstored_of_flush hS hr₁ hst₁ hfls (b := (fw, setFin 4 0)) ?_ ?_
    · rw [hco, haddr]
      exact hl
    · rw [hco]
      exact hdirty
  obtain ⟨s₂, m₂, g₂, hr₂, hw, ha⟩ := tracked_flush hS (fun _ _ => trivial) hr₁ hst₁ hq₁ (v := 0)
    (w := fw) (by rw [hcs]; exact hl) (by rw [hcs]; exact hdirty)
  refine ⟨s₂, m₂, g₂, σ, hr₂, hw, ?_⟩
  rw [ha, ← haddr]
  exact hσ

end Flushes

end Dcache

end NanoCpu
