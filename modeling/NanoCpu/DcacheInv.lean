/-
**The D-cache represents a flat memory.**

Here the cache is asked for cached loads and stores only, one after the other or back to back, some
of which are killed.  Between the cycle in which an access misses and the one in which it is done
the cache goes through several states; what holds in each of them is `Dcache.Phase`.  The slots of
the cache and the memory together represent a flat memory (`WriteBack.Contents.Rep`), and each cycle
is at most one step of a write-back cache.

Main definitions:

* `Dcache.Phase`, `Dcache.Inv` — the invariant;
* `Dcache.done` — the access that is done in a cycle.

Main results:

* `Dcache.phase_next_hit`, `Dcache.phase_next_miss`, `Dcache.phase_next_replace`, … — the cycles of
  the state machine;
* `Dcache.Inv.next` — the invariant is kept.
-/

import NanoCpu.DcacheLines

set_option relaxedAutoImplicit false
set_option autoImplicit false
set_option linter.unusedSectionVars false

namespace NanoCpu

open WriteBack

namespace Dcache

variable {n : ℕ} [NeZero n] {S : ℕ} {s : Dcache n} {m : AxiMem} {x : DcIn n} {F : ℕ → Byte}

/-! ### The invariant -/

/-- The victim line `v` is written back from the slot of the victim. -/
structure Sending (S : ℕ) (s : Dcache n) (m : AxiMem) (F : ℕ → Byte) (fw : Fin n)
    (v : ℕ) : Prop where
  rep : (s.contents S).Rep (lineMem m.mem) (lineMem F) (fun b => b = s.slot S fw) fun l => l = v
  addr : s.awAddr = 64 * v
  data : (s.contents S).data (s.slot S fw) = lineMem F v
  w : m.w = AxiBurst.beats (wordBeat (lineMem F v)) m.w.length
  reAddr : m.w.length < 16 → s.payReAddr = (setOf S s.s2o.paddr.toNat, m.w.length)
  payQ : m.w.length < 16 → s.payQ fw = s.pay fw s.payReAddr
  absent : ∀ b, (s.contents S).line b ≠ some v

/-- The state of an access, by the state of the state machine. -/
def Phase (S : ℕ) (s : Dcache n) (m : AxiMem) (F : ℕ → Byte) : Prop :=
  match s.state with
  | .boot => s.s1o.req = false ∧ (∀ w i, s.tagV w i = (0, false)) ∧ (∀ w i, s.d w i = false) ∧
      m.mem = F
  | .idle => (s.contents S).Rep (lineMem m.mem) (lineMem F) (fun _ => False) (fun _ => False) ∧
      (s.s1o.req = true →
        ∀ w, s.s1oTagV w = s.tagV w s.s1o.lineAddr ∧ s.s1oD w = s.d w s.s1o.lineAddr)
  | .replace => (s.contents S).Rep (lineMem m.mem) (lineMem F) (fun _ => False) (fun _ => False) ∧
      ∃ fw, s.Missed S fw ∧ (∀ b, (s.contents S).line b ≠ some (s.s2o.paddr.toNat / 64)) ∧
        s.s2o.freeDirty = s.d fw s.s2o.lineAddr ∧ s.s2o.freeTag = (s.tagV fw s.s2o.lineAddr).1
  | .writeback => ∃ fw v, s.Replaced S fw ∧ s.Sending S m F fw v
  | .refill => ∃ fw, s.Replaced S fw ∧
      (s.contents S).Rep (lineMem m.mem) (lineMem F) (fun b => b = s.slot S fw) (fun _ => False) ∧
        s.arAddr = s.s2o.paddr.toNat / 64 * 64 ∧
        ∀ o : Fin 64, (o : ℕ) < s.refillCnt →
          (s.contents S).data (s.slot S fw) o = lineMem F (s.s2o.paddr.toNat / 64) o
  | .reload => ∃ fw, s.Replaced S fw ∧
      (s.contents S).Rep (lineMem m.mem) (lineMem F) (fun _ => False) (fun _ => False)
  | _ => False

/-- The invariant of a cache that is asked for cached accesses only. -/
structure Inv (S : ℕ) (s : Dcache n) (m : AxiMem) (F : ℕ → Byte) : Prop where
  bus : s.Bus m
  free : ∃ k, ∀ w, s.freeWay w = decide (w = k)
  front : s.s1o.req = true → s.s1o.lineAddr = setOf S s.s1o.vpo.toNat ∧ s.s1o.inv = false ∧
    s.s1o.fls = false
  phase : s.Phase S m F
/-! ### The cycles of the state machine -/

/-- What is asked of the cache in this cycle are cached accesses, or accesses that are killed. -/
structure Cached (s : Dcache n) (x : DcIn n) : Prop where
  inv : x.inv = false
  fls : x.fls = false
  uncached : s.state = .idle → s.s1o.req = true → x.uncached = true → x.kill = true

theorem phase_next_boot (h : s.Inv S m F) (hst : s.state = .boot) :
    (s.next S x).Phase S (m.next s.axiOut x.axi) F := by
  have hb := h.bus
  have hp := h.phase
  rw [Bus, hst] at hb
  rw [Phase, hst] at hp
  obtain ⟨h₁, h₂, h₃, h₄⟩ := hp
  have ht : ∀ w i, (s.next S x).tagV w i = (0, false) := by
    intro w i
    change (if _ then s.s1iReplaceTagV S else s.tagV w i) = _
    have hz : s.s1iReplaceTagV S = (0, false) := by simp [s1iReplaceTagV, hst]
    rw [hz, h₂, ite_self]
  have hd : ∀ w i, (s.next S x).d w i = false := by
    intro w i
    change (if _ then s.s2iDWdat w else s.d w i) = _
    rw [s2iDWdat, hst, h₃]
    simp
  have hs : (s.next S x).s1o = s.s1o := next_s1o_of_stall (by simp [hst])
  have hm : (m.next s.axiOut x.axi).mem = F := hb.write.mem_next.trans h₄
  have hstn : (s.next S x).state = if s.bootCnt + 1 = 2 ^ S then .idle else .boot := by
    change s.stateNxt S x = _
    simp [stateNxt, hst]
  by_cases hc : s.bootCnt + 1 = 2 ^ S
  · rw [Phase, hstn, if_pos hc, hm, hs, h₁]
    refine ⟨Contents.rep_of_empty (fun a => ?_) fun a => hd a.1 a.2, fun hr => ?_⟩
    · simp [contents, ht]
    · cases hr
  · rw [Phase, hstn, if_neg hc]
    exact ⟨by rw [hs, h₁], ht, hd, hm⟩

theorem Inv.fresh (h : s.Inv S m F) (hst : s.state = .idle) (hr : s.s1o.req = true) :
    s.Fresh S := by
  have hp := h.phase
  rw [Phase, hst] at hp
  exact ⟨(h.front hr).1, fun w => (hp.2 hr w).1, fun w => (hp.2 hr w).2⟩

/-- An idle cycle in which no access is done. -/
theorem phase_next_idle (h : s.Inv S m F) (hst : s.state = .idle) (hr : s.s2iReady S x = false)
    (hn : (s.next S x).state = .idle) : (s.next S x).Phase S (m.next s.axiOut x.axi) F := by
  have hb := h.bus
  have hp := h.phase
  rw [Bus, hst] at hb
  rw [Phase, hst] at hp
  have hf := fresh_next_idle (S := S) (x := x) hst
  rw [Phase, hn, hb.write.mem_next, contents_next hr (by simp [hst])]
  exact ⟨hp.1, fun _ w => ⟨hf.tagV w, hf.d w⟩⟩
/-- A miss. -/
theorem phase_next_miss (hS : S ≤ 7) (h : s.Inv S m F) (hst : s.state = .idle)
    (hr : s.s1o.req = true)
    (hm : s.s2iHit S x = false) (hu : x.uncached = false) (hn : (s.next S x).state = .replace) :
    (s.next S x).Phase S (m.next s.axiOut x.axi) F := by
  have hb := h.bus
  have hp := h.phase
  rw [Bus, hst] at hb
  rw [Phase, hst] at hp
  have hready : s.s2iReady S x = false := by simp [s2iReady, hm]
  obtain ⟨hl, -, hf⟩ := h.front hr
  obtain ⟨k, hk⟩ := h.free
  have hc := contents_next (S := S) (x := x) hready (by simp [hst])
  have hs2 : (s.next S x).s2o = s.s2oNxt S x := next_s2o_of_idle hst
  rw [Phase, hn, hb.write.mem_next, hc]
  refine ⟨hp.1, k, missed_next_idle hS hst hl hf hu hk, ?_, ?_, ?_⟩
  · rw [hs2]
    exact absent_of_not_hit hS (h.fresh hst hr) hm
  · rw [hs2, next_d hready (by simp [hst])]
    change pmux s.freeWay s.s1oD = s.d k s.s1o.lineAddr
    rw [pmux_of_unique hk, (hp.2 hr k).2]
  · rw [hs2, next_tagV (by simp [hst])]
    change (pmux s.freeWay s.s1oTagV).1 = (s.tagV k s.s1o.lineAddr).1
    rw [pmux_of_unique hk, (hp.2 hr k).1]

/-- The bytes of a line that an access leaves. -/
theorem lineMem_apply_self (a : DcAccess) (F : ℕ → Byte) (o : Fin 64) :
    lineMem (a.apply F) (a.addr / 64) o =
      if (o : ℕ) / 4 = wordOf a.addr ∧ a.wmsk.getLsbD (o % 4) = true then byteOf a.wdat (o % 4)
      else lineMem F (a.addr / 64) o := by
  have ho := o.isLt
  have h₁ : (64 * (a.addr / 64) + o) % 4 = o % 4 := by omega
  have h₂ : (64 * (a.addr / 64) + o) / 4 = a.addr / 4 ↔ (o : ℕ) / 4 = wordOf a.addr := by
    rw [wordOf]
    omega
  rw [lineMem, DcAccess.apply, h₁, lineMem]
  simp only [h₂]

/-- The write of an access keeps the representation, unless it clears a dirty flag. -/
theorem rep_access {s' : Dcache n} {a : DcAccess} {w₀ : Fin n} {e : Bool} {mem : ℕ → Fin 64 → Byte}
    (hrep : (s.contents S).Rep mem (lineMem F) (fun _ => False) fun _ => False)
    (hline : (s.contents S).line (w₀, setFin S a.addr) = some (a.addr / 64))
    (hwr : s.Wrote S s' a w₀ e) (he : s.d w₀ (setOf S a.addr) = true → e = true) :
    (s'.contents S).Rep mem (lineMem (a.apply F)) (fun _ => False) fun _ => False := by
  have hslot : ∀ b : Fin n × Fin (2 ^ S), b.1 = w₀ ∧ (b.2 : ℕ) = setOf S a.addr ↔
      b = (w₀, setFin S a.addr) := by
    intro b
    rw [Prod.ext_iff, Fin.ext_iff (a := b.2)]
    rfl
  by_cases hc : (e || decide (a.wmsk ≠ 0)) = true
  · have hdata : ∀ b, (s'.contents S).data b = Function.update (s.contents S).data
      (w₀, setFin S a.addr) (lineMem (a.apply F) (a.addr / 64)) b := by
      intro b
      funext o
      have hnew : (s'.contents S).data b o = if b.1 = w₀ ∧ a.wmsk.getLsbD (o % 4) = true ∧
          ((b.2 : ℕ), (o : ℕ) / 4) = (setOf S a.addr, wordOf a.addr) then byteOf a.wdat (o % 4)
        else (s.contents S).data b o := hwr.pay _ _ _
      rw [hnew, Function.update_apply]
      by_cases hb : b = (w₀, setFin S a.addr)
      · rw [if_pos hb, lineMem_apply_self, ← hrep.data _ _ hline id, hb]
        simp only [setFin, true_and, Prod.mk.injEq]
        exact if_congr and_comm rfl rfl
      · rw [if_neg hb, if_neg]
        rintro ⟨h₁, -, h₂⟩
        exact hb ((hslot b).1 ⟨h₁, (Prod.mk.inj h₂).1⟩)
    have hcont : s'.contents S = (s.contents S).store (w₀, setFin S a.addr)
        (lineMem (a.apply F) (a.addr / 64)) := by
      rw [Contents.store, ← funext hdata]
      simp only [contents, hwr.tagV, Contents.mk.injEq, and_true, true_and]
      funext b
      rw [hwr.d, hc, Function.update_apply]
      simp only [hslot b]
    have hstore := hrep.store hline (lineMem (a.apply F) (a.addr / 64))
    rwa [← lineMem_apply, ← hcont] at hstore
  · -- a load that leaves the flag alone
    simp only [Bool.or_eq_true, decide_eq_true_eq, not_or, not_not, Bool.not_eq_true] at hc
    have hcont : s'.contents S = s.contents S := by
      simp only [contents, hwr.tagV, Contents.mk.injEq, true_and]
      constructor
      · funext b
        rw [hwr.d, hc.1, hc.2]
        split_ifs with hb
        · cases hold : s.d w₀ (setOf S a.addr) with
          | false => simp [hb.1, hb.2, hold]
          | true =>
              rw [he hold] at hc
              exact Bool.noConfusion hc.1
        · rfl
      · funext b o
        rw [hwr.pay, hc.2]
        simp
    rw [hcont, apply_of_load hc.2]
    exact hrep


/-- A word of a slot, as a piece of a flat memory. -/
theorem pay_of_rep {w : Fin n} {p j : ℕ}
    (hd : (s.contents S).data (w, setFin S p) = lineMem F (p / 64))
    (hj : j < 4) : s.pay w (setOf S p, wordOf p) j = F (p / 4 * 4 + j) := by
  have hdata := congrFun hd ⟨4 * wordOf p + j, by rw [wordOf]; omega⟩
  simp only [contents, lineMem, setFin] at hdata
  rw [show (4 * wordOf p + j) / 4 =
    wordOf p by omega, show (4 * wordOf p + j) % 4 = j by omega] at hdata
  rw [hdata, wordOf]
  congr 1
  omega

/-- An access that hits. -/
theorem phase_next_hit (hS : S ≤ 7) (h : s.Inv S m F) (hst : s.state = .idle)
    (hready : s.s2iReady S x = true) :
    (s.next S x).Phase S (m.next s.axiOut x.axi) ((s.hitAccess x).apply F) ∧
      (s.s1o.wmsk = 0 → ∀ j < 4, (s.next S x).s2oMatchPayload j =
        F ((s.s2iPaddr x).toNat / 4 * 4 + j)) := by
  have hb := h.bus
  have hp := h.phase
  rw [Bus, hst] at hb
  rw [Phase, hst] at hp
  have hready' := hready
  simp only [s2iReady, Bool.and_eq_true, Bool.not_eq_true'] at hready'
  obtain ⟨⟨⟨⟨⟨⟨-, hr⟩, hinv⟩, hfls⟩, hhit⟩, hu⟩, hk⟩ := hready'
  have hf := h.fresh hst hr
  obtain ⟨hw, hvec, hline⟩ := hitVec_unique hS hf hp.1.uniq hhit
  obtain ⟨hwr, hout⟩ := wrote_hit hS hf hst hready hvec
  have hn : (s.next S x).state = .idle := by
    change s.stateNxt S x = _
    simp [stateNxt, hst, hr, hinv, hfls, hu, hhit]
  refine ⟨?_, fun hm j hj => ?_⟩
  · rw [Phase, hn, hb.write.mem_next]
    have hf' := fresh_next_idle (S := S) (x := x) hst
    exact ⟨rep_access hp.1 hline hwr id, fun _ w => ⟨hf'.tagV w, hf'.d w⟩⟩
  · rw [hout hm]
    exact pay_of_rep (hp.1.data _ _ hline id) hj

/-- The cycle in which the tag is replaced. -/
theorem phase_next_replace (h : s.Inv S m F) (hst : s.state = .replace) (ha : m.Answers x.axi) :
    (s.next S x).Phase S (m.next s.axiOut x.axi) F := by
  have hb := h.bus
  have hp := h.phase
  rw [Bus, hst] at hb
  rw [Phase, hst] at hp
  obtain ⟨hrep, fw, hmiss, habs, hdirty, hftag⟩ := hp
  obtain ⟨hmiss', hslot'⟩ := hmiss.next (x := x) (by simp [hst])
  have hs2 : (s.next S x).s2o = s.s2o := next_s2o_of_stall (by simp [hst])
  have hc := contents_next_replace (x := x) hmiss hst
  have hevict := hrep.evict habs (s.slot S fw)
  rw [← hc, ← hslot'] at hevict
  have hrepl : (s.next S x).Replaced S fw := by
    refine ⟨hmiss', ?_, ?_⟩
    · rw [hc, hslot', hs2, Contents.evict_line, Function.update_self]
    · have : ((s.next S x).contents S).dirty (s.slot S fw) = false := by
        rw [hc, Contents.evict_dirty, Function.update_self]
      rw [hs2]
      exact this
  have hdd : (s.contents S).dirty (s.slot S fw) = s.s2o.freeDirty := by
    rw [hdirty, hmiss.lineAddr]
    rfl
  have hmem := hb.write.mem_next (i := x.axi)
  cases hfd : s.s2o.freeDirty with
  | false =>
      have hn : (s.next S x).state = .refill := by
        change s.stateNxt S x = _
        simp [stateNxt, hst, hfd]
      obtain ⟨-, -, -, -, hcnt⟩ := BusQuiet.next_ar (S := S) hb ha (by simp [arSet, hst, hfd])
        (by simp [awSet, hst, hfd]) (by simp [hst])
      rw [Phase, hn]
      refine ⟨fw, hrepl, ?_, ?_, fun o ho => ?_⟩
      · refine hevict.landed (fun l _ => by rw [hmem]) fun l hl => ?_
        rw [hslot', hdd, hfd] at hl
        exact absurd hl.2 Bool.false_ne_true
      · change ldff (s.arSet x) (s.axiPaddrNxt S) _ = _
        rw [hs2]
        simp [arSet, axiPaddrNxt, fsmUncachedReq, awSet, hst, hfd]
      · rw [hcnt] at ho
        exact absurd ho (Nat.not_lt_zero _)
  | true =>
      have hn : (s.next S x).state = .writeback := by
        change s.stateNxt S x = _
        simp [stateNxt, hst, hfd]
      have haw : s.awSet = true := by simp [awSet, hst, hfd]
      -- the victim is dirty, so it is a line
      have hsome := hrep.valid (s.slot S fw) (by rw [hdd, hfd])
      obtain ⟨v, hv⟩ := Option.isSome_iff_exists.1 hsome
      have hvtag : v = s.s2o.freeTag * 2 ^ S + s.s2o.lineAddr := by
        rw [hftag, hmiss.lineAddr]
        simp only [contents, slot, setFin] at hv
        split_ifs at hv
        rw [Option.some_inj] at hv
        exact hv.symm
      have hdata := hrep.data _ _ hv id
      rw [Phase, hn]
      have hway : ∀ w, (s.next S x).s2iWbWay w = decide (w = fw) := by
        intro w
        rw [s2iWbWay, hmiss'.fls, if_neg Bool.false_ne_true, hmiss'.way]
      have hsends := Sends.start hb ha haw (Or.inl hst) hway (v := v) (by
        rw [axiPaddrNxt, hvtag]
        simp [fsmUncachedReq, haw, hst, Nat.mul_comm])
      have hdata' : ((s.next S x).contents S).data ((s.next S x).slot S fw) = lineMem F v := by
        rw [hc, hslot', Contents.evict_data, hdata]
      refine ⟨fw, v, hrepl, ?_, hsends.addr, hdata', ?_, hsends.reAddr, hsends.payQ, ?_⟩
      · rw [hmem]
        have : (fun l => l = v) =
            fun l => (s.contents S).line ((s.next S x).slot S fw) = some l ∧
              (s.contents S).dirty ((s.next S x).slot S fw) = true := by
          funext l
          rw [hslot', hv, hdd, hfd]
          simp [eq_comm]
        rw [this]
        exact hevict
      · rw [← hdata']
        exact hsends.w
      · intro b hb'
        rw [hc, Contents.evict_line, Function.update_apply] at hb'
        split_ifs at hb' with hbs
        · rw [Option.some_inj] at hb'
          exact habs _ (hb' ▸ hv)
        · exact hbs (hrep.uniq _ _ _ hb' hv)

/-- The victim as a line on its way to memory. -/
theorem Sending.sends {fw : Fin n} {v : ℕ} (h : s.Sending S m F fw v) (hr : s.Missed S fw) :
    s.Sends S m fw v := by
  refine ⟨fun w => ?_, h.addr, ?_, h.reAddr, h.payQ⟩
  · rw [s2iWbWay, hr.fls, if_neg Bool.false_ne_true, hr.way]
  · rw [h.data]
    exact h.w

/-- A cycle of a write-back. -/
theorem phase_next_writeback (h : s.Inv S m F) (hst : s.state = .writeback) (ha : m.Answers x.axi) :
    (s.next S x).Phase S (m.next s.axiOut x.axi) F := by
  have hb := h.bus
  have hp := h.phase
  rw [Bus, hst] at hb
  rw [Phase, hst] at hp
  obtain ⟨k, hb⟩ := hb
  obtain ⟨fw, v, hrepl, hsend⟩ := hp
  have hsends := hsend.sends hrepl.toMissed
  obtain ⟨hmiss', hslot'⟩ := hrepl.toMissed.next (x := x) (by simp [hst])
  have hs2 : (s.next S x).s2o = s.s2o := next_s2o_of_stall (by simp [hst])
  have hready : s.s2iReady S x = false := s2iReady_of_state (by simp [hst])
  have hc := contents_next (S := S) (x := x) hready (by simp [hst])
  have hd := next_d (S := S) (x := x) hready (by simp [hst])
  have hrepl' : (s.next S x).Replaced S fw := by
    refine ⟨hmiss', ?_, ?_⟩
    · rw [hc, hslot', hs2]
      exact hrepl.line
    · rw [hd, hs2]
      exact hrepl.clean
  -- the memory changes in the line of the victim only
  have hmem : ∀ l, ¬ l = v → lineMem (m.next s.axiOut x.axi).mem l = lineMem m.mem l :=
    fun l hl => hsends.mem_next hb hl
  rcases hb.next (S := S) hst ha with ⟨hB, hn, hb'⟩ | ⟨-, -, hf, -⟩ | ⟨hB, rfl, -, hn, hb'⟩
  · -- the response has not come
    have hs' := hsends.next hst hb hB
    have hdata' : ((s.next S x).contents S).data ((s.next S x).slot S fw) = lineMem F v := by
      rw [hc, hslot']
      exact hsend.data
    rw [Phase, hn]
    refine ⟨fw, v, hrepl', ?_, hs'.addr, hdata', ?_, hs'.reAddr, hs'.payQ, ?_⟩
    · rw [hc, hslot']
      exact hsend.rep.sending hmem
    · rw [← hdata']
      exact hs'.w
    · rw [hc]
      exact hsend.absent
  · rw [hrepl.fls] at hf
    cases hf
  · -- all bytes of the victim are in memory
    rw [Phase, hn]
    refine ⟨fw, hrepl', ?_, ?_, fun o ho => ?_⟩
    · rw [hc, hslot']
      refine hsend.rep.landed hmem ?_
      rintro l rfl
      rw [hsends.landed hb ha hB, hsend.data]
    · have har : s.arSet x = true := by simp [arSet, hst, hB, hrepl.fls]
      change ldff (s.arSet x) (s.axiPaddrNxt S) _ = _
      rw [har, hs2]
      simp [axiPaddrNxt, fsmUncachedReq, hst]
    · rw [hb'.refillCnt] at ho
      exact absurd ho (by omega)

/-- A cycle of a refill. -/
theorem phase_next_refill (h : s.Inv S m F) (hst : s.state = .refill) (ha : m.Answers x.axi) :
    (s.next S x).Phase S (m.next s.axiOut x.axi) F := by
  have hb := h.bus
  have hp := h.phase
  rw [Bus, hst] at hb
  rw [Phase, hst] at hp
  obtain ⟨c, hb⟩ := hb
  obtain ⟨fw, hrepl, hrep, har, hdata⟩ := hp
  obtain ⟨hmiss', hslot'⟩ := hrepl.toMissed.next (x := x) (by simp [hst])
  have hs2 : (s.next S x).s2o = s.s2o := next_s2o_of_stall (by simp [hst])
  have hready : s.s2iReady S x = false := s2iReady_of_state (by simp [hst])
  have hc := contents_next_refill (x := x) hrepl.toMissed hst hb.refillCnt
  have hd := next_d (S := S) (x := x) hready (by simp [hst])
  have hmem := hb.write.mem_next (i := x.axi)
  have hfill := hrep.filling (a := s.slot S fw) rfl fun o =>
    if (o : ℕ) / 4 = c then x.axi.rData (4 * (c % 2) + o % 4) else
      (s.contents S).data (s.slot S fw) o
  rw [← hc, ← hmem] at hfill
  have hrepl' : (s.next S x).Replaced S fw := by
    refine ⟨hmiss', ?_, ?_⟩
    · rw [hc, hslot', hs2]
      exact hrepl.line
    · rw [hd, hs2]
      exact hrepl.clean
  -- the words so far stay, and a beat brings the next one
  have hold : ∀ o : Fin 64, (o : ℕ) < 4 * c →
      ((s.next S x).contents S).data (s.slot S fw) o = lineMem F (s.s2o.paddr.toNat / 64) o := by
    intro o ho
    rw [hc, Contents.setData_data, Function.update_self, if_neg (by omega)]
    exact hdata o (by rw [hb.refillCnt]; exact ho)
  have hline : lineMem m.mem (s.s2o.paddr.toNat / 64) = lineMem F (s.s2o.paddr.toNat / 64) := by
    refine hrep.mem _ id fun a hl => ?_
    rw [hrep.uniq _ _ _ hl hrepl.line]
    exact hrepl.clean
  have hnew : s.hdsAxiR x = true → ∀ o : Fin 64, (o : ℕ) < 4 * c + 4 →
      ((s.next S x).contents S).data (s.slot S fw) o = lineMem F (s.s2o.paddr.toNat / 64) o := by
    intro hR o ho
    by_cases hlt : (o : ℕ) < 4 * c
    · exact hold o hlt
    · rw [hc, Contents.setData_data, Function.update_self, if_pos (by omega), ← hline]
      exact hb.rData_eq ha hR har (by omega) ho
  rcases hb.next (S := S) hst ha with ⟨hR, hn, hb'⟩ | ⟨hR, -, hn, hb'⟩ | ⟨hR, rfl, hn, hb'⟩
  · rw [Phase, hn]
    refine ⟨fw, hrepl', by rw [hslot']; exact hfill, ?_, fun o ho => ?_⟩
    · change ldff (s.arSet x) _ _ = _
      rw [show s.arSet x = false by simp [arSet, hst], hs2]
      exact har
    · rw [hb'.refillCnt] at ho
      rw [hslot', hs2]
      exact hold o ho
  · rw [Phase, hn]
    refine ⟨fw, hrepl', by rw [hslot']; exact hfill, ?_, fun o ho => ?_⟩
    · change ldff (s.arSet x) _ _ = _
      rw [show s.arSet x = false by simp [arSet, hst], hs2]
      exact har
    · rw [hb'.refillCnt] at ho
      rw [hslot', hs2]
      exact hnew hR o (by omega)
  · rw [Phase, hn]
    refine ⟨fw, hrepl', ?_⟩
    refine (hfill.filled (l := s.s2o.paddr.toNat / 64) ?_ ?_)
    · rw [hc]
      exact hrepl.line
    · funext o
      exact hnew hR o (by have := o.isLt; omega)

/-- The cycle after a refill, in which the access is done. -/
theorem phase_next_reload (h : s.Inv S m F) (hst : s.state = .reload) :
    (s.next S x).Phase S (m.next s.axiOut x.axi) (s.missAccess.apply F) ∧
      (s.s2o.wmsk = 0 → ∀ j < 4, (s.next S x).s2oMatchPayload j =
        F (s.s2o.paddr.toNat / 4 * 4 + j)) := by
  have hb := h.bus
  have hp := h.phase
  rw [Bus, hst] at hb
  rw [Phase, hst] at hp
  obtain ⟨fw, hrepl, hrep⟩ := hp
  obtain ⟨hwr, hout⟩ := wrote_reload (x := x) hrepl.toMissed hst
  have hn : (s.next S x).state = .idle := by
    change s.stateNxt S x = _
    simp [stateNxt, hst]
  refine ⟨?_, fun hm j hj => ?_⟩
  · rw [Phase, hn, hb.write.mem_next]
    refine ⟨rep_access hrep hrepl.line hwr fun hd => ?_, fun hr w => ?_⟩
    · have hclean := hrepl.clean
      rw [show setOf S s.missAccess.addr = setOf S s.s2o.paddr.toNat from rfl, hclean] at hd
      cases hd
    · rw [next_s1o_of_stall (by simp [hst])] at hr
      have hf := fresh_next_reload (x := x) hst (h.front hr).1
      exact ⟨hf.tagV w, hf.d w⟩
  · rw [hout hm]
    exact pay_of_rep (hrep.data _ _ hrepl.line id) hj

/-! ### All cycles -/

/-- The access that is done in this cycle. -/
def done (S : ℕ) (s : Dcache n) (x : DcIn n) : Option DcAccess :=
  if s.s2iReady S x then some (s.hitAccess x)
  else if s.state = .reload then some s.missAccess
  else none

/-- The flat memory after this cycle. -/
def flatNext (S : ℕ) (s : Dcache n) (x : DcIn n) (F : ℕ → Byte) : ℕ → Byte :=
  (s.done S x).elim F fun a => a.apply F

theorem flatNext_of_none (h : s.done S x = none) : s.flatNext S x F = F := by rw [flatNext, h]; rfl

theorem done_of_state (h : s.state ≠ .idle) (h' : s.state ≠ .reload) : s.done S x = none := by
  simp [done, s2iReady_of_state h, h']

theorem front_next (h : s.Inv S m F) (hx : s.Cached x) (hr : (s.next S x).s1o.req = true) :
    (s.next S x).s1o.lineAddr = setOf S (s.next S x).s1o.vpo.toNat ∧ (s.next S x).s1o.inv = false ∧
      (s.next S x).s1o.fls = false := by
  by_cases hst : s.state = .idle
  · rw [next_s1o_of_idle hst]
    refine ⟨?_, hx.inv, hx.fls⟩
    change s.s1iLineAddr S x = setOf S x.vpo.toNat
    simp [s1iLineAddr, hst]
  · rw [next_s1o_of_stall hst] at hr ⊢
    exact h.front hr

/-- What an idle cycle can do. -/
theorem idle_cases (h : s.Inv S m F) (hst : s.state = .idle) (hx : s.Cached x) :
    (s.s2iReady S x = true ∧ s.s1o.req = true ∧ x.kill = false ∧ (s.next S x).state = .idle) ∨
      (s.s2iReady S x = false ∧ (s.s1o.req = false ∨ x.kill = true) ∧ (s.next S x).state = .idle) ∨
      (s.s2iReady S x = false ∧ s.s1o.req = true ∧ x.kill = false ∧ x.uncached = false ∧
        s.s2iHit S x = false ∧ (s.next S x).state = .replace) := by
  have hstn : (s.next S x).state = s.stateNxt S x := rfl
  rw [hstn, stateNxt, hst]
  cases hr : s.s1o.req with
  | false => simp [s2iReady, hr]
  | true =>
      obtain ⟨-, hi, hf⟩ := h.front hr
      have hu := hx.uncached hst hr
      cases hk : x.kill with
      | true => simp [s2iReady, hr, hi, hf, hk]
      | false =>
          have hu' : x.uncached = false := by
            by_contra hne
            rw [hk] at hu
            exact Bool.noConfusion (hu (by simpa using hne))
          cases hh : s.s2iHit S x <;> simp [s2iReady, hst, hr, hi, hf, hk, hu', hh]

theorem phase_next (hS : S ≤ 7) (h : s.Inv S m F) (hx : s.Cached x) (ha : m.Answers x.axi) :
    (s.next S x).Phase S (m.next s.axiOut x.axi) (s.flatNext S x F) := by
  cases hst : s.state with
  | boot =>
      rw [flatNext_of_none (done_of_state (by simp [hst]) (by simp [hst]))]
      exact phase_next_boot h hst
  | idle =>
      rcases idle_cases h hst hx with ⟨hr, -⟩ | ⟨hr, -, hn⟩ | ⟨hr, hreq, -, hu, hm, hn⟩
      · rw [flatNext, done, if_pos hr]
        exact (phase_next_hit hS h hst hr).1
      · rw [flatNext_of_none (by simp [done, hr, hst])]
        exact phase_next_idle h hst hr hn
      · rw [flatNext_of_none (by simp [done, hr, hst])]
        exact phase_next_miss hS h hst hreq hm hu hn
  | replace =>
      rw [flatNext_of_none (done_of_state (by simp [hst]) (by simp [hst]))]
      exact phase_next_replace h hst ha
  | writeback =>
      rw [flatNext_of_none (done_of_state (by simp [hst]) (by simp [hst]))]
      exact phase_next_writeback h hst ha
  | refill =>
      rw [flatNext_of_none (done_of_state (by simp [hst]) (by simp [hst]))]
      exact phase_next_refill h hst ha
  | reload =>
      rw [flatNext, done, if_neg (by simp [s2iReady_of_state, hst]), if_pos hst]
      exact (phase_next_reload h hst).1
  | invalidate | flush | uncachedBoot | uncachedRead | uncachedWrite =>
      have hp := h.phase
      rw [Phase, hst] at hp
      exact hp.elim

/-- **The invariant is kept by every cycle.** -/
theorem Inv.next (hS : S ≤ 7) (h : s.Inv S m F) (hx : s.Cached x) (ha : m.Answers x.axi) :
    (s.next S x).Inv S (m.next s.axiOut x.axi) (s.flatNext S x F) :=
  ⟨h.bus.next ha, free_next h.free, front_next h hx, phase_next hS h hx ha⟩

theorem inv_reset (pay : Fin n → ℕ × ℕ → ℕ → Byte) (m₀ : ℕ → Byte) :
    (reset pay).Inv S (AxiMem.idle m₀) m₀ :=
  ⟨bus_reset pay m₀, ⟨0, fun _ => rfl⟩, fun h => Bool.noConfusion h,
    rfl, fun _ _ => rfl, fun _ _ => rfl, rfl⟩

end Dcache

end NanoCpu
