/-
**The D-cache refines flat memory.**

An observer of the cache writes down the accesses that it takes on and those that it has done.  What
the loads return, and what is in memory, is then what a flat memory would have: a list of bytes that
every store changes at once.

Main definitions:

* `DcHist`, `Dcache.cached` — the observer, and the cache under cached loads and stores;
* `Dcache.dirtyView`, `Dcache.view` — memory overlaid with the dirty lines, without and with the
  line that is being written back.

Main results:

* `Dcache.observed_of_reach` — the invariant of the observer's notes;
* `Dcache.refines_flat` — **the cache refines flat memory**;
* `Dcache.victim_not_dirty` — while a victim is written back the dirty lines alone do not suffice.
-/

import NanoCpu.DcacheInv
import NanoCpu.Machine

set_option relaxedAutoImplicit false
set_option autoImplicit false
set_option linter.unusedSectionVars false

namespace NanoCpu

open WriteBack

/-- What an observer writes down: the accesses that the cache has taken on and has not been told to
drop, those that it has done, and the one whose data is at the output. -/
structure DcHist where
  asked : List DcAccess
  log : List DcAccess
  out : Option DcAccess

namespace Dcache

variable {n : ℕ} [NeZero n] {S : ℕ} {s : Dcache n} {m : AxiMem} {x : DcIn n} {F m₀ : ℕ → Byte}
  {pay : Fin n → ℕ × ℕ → ℕ → Byte}

/-- The cache takes on an access in the cycle in which it compares the tags. -/
def taken (s : Dcache n) (x : DcIn n) : Option DcAccess :=
  if s.state = .idle ∧ s.s1o.req = true ∧ x.kill = false then some (s.hitAccess x) else none

end Dcache

def DcHist.next {n : ℕ} [NeZero n] (S : ℕ) (h : DcHist) (s : Dcache n) (x : DcIn n) : DcHist where
  asked := h.asked ++ (s.taken x).toList
  log := h.log ++ (s.done S x).toList
  out := s.done S x

namespace Dcache

variable {n : ℕ} [NeZero n] {S : ℕ} {s : Dcache n} {m : AxiMem} {x : DcIn n} {F m₀ : ℕ → Byte}
  {pay : Fin n → ℕ × ℕ → ℕ → Byte} {h : DcHist}

/-- The cache with a memory behind it. -/
def machine (n : ℕ) [NeZero n] (S : ℕ) (pay : Fin n → ℕ × ℕ → ℕ → Byte) (m₀ : ℕ → Byte) :
    Machine (Dcache n × AxiMem) (DcIn n) where
  reset := (reset pay, AxiMem.idle m₀)
  allowed q x := q.2.Answers x.axi
  next q x := (q.1.next S x, q.2.next q.1.axiOut x.axi)

/-- The cache under cached loads and stores, with an observer. -/
def cached (n : ℕ) [NeZero n] (S : ℕ) (pay : Fin n → ℕ × ℕ → ℕ → Byte) (m₀ : ℕ → Byte) :
    Machine ((Dcache n × AxiMem) × DcHist) (DcIn n) :=
  (machine n S pay m₀).observe ⟨[], [], none⟩ (fun h q x => h.next S q.1 x) fun _ q x =>
    q.1.Cached x

/-! ### The view of memory -/

/-- The way in which the line of an address is dirty. -/
def dirtyWay (S : ℕ) (s : Dcache n) (p : ℕ) : Option (Fin n) :=
  Fin.find? fun w => s.d w (setOf S p) && decide (s.tagV w (setOf S p) = (tagOf S p, true))

/-- The memory, overlaid with the valid dirty lines. -/
def dirtyView (S : ℕ) (s : Dcache n) (mem : ℕ → Byte) (p : ℕ) : Byte :=
  match s.dirtyWay S p with
  | some w => s.pay w (setOf S p, wordOf p) (p % 4)
  | none => mem p

/-- The memory, overlaid with the valid dirty lines and with the line that is being written back. -/
def view (S : ℕ) (s : Dcache n) (mem : ℕ → Byte) (p : ℕ) : Byte :=
  if s.state = .writeback ∧ p / 64 = s.awAddr / 64 then
    pmux s.s2iWbWay s.pay (setOf S s.s2o.paddr.toNat, wordOf p) (p % 4)
  else s.dirtyView S mem p

/-- A dirty line is seen as it is in its slot. -/
theorem dirtyView_of_dirty (ho : (s.contents S).Ok) {p : ℕ} {w : Fin n}
    (hl : (s.contents S).line (w, setFin S p) = some (p / 64))
    (hd : (s.contents S).dirty (w, setFin S p) = true) (mem : ℕ → Byte) :
    s.dirtyView S mem p = (s.contents S).data (w, setFin S p) (Fin.ofNat 64 p) := by
  have hsome : s.dirtyWay S p = some w := by
    cases hw : s.dirtyWay S p with
    | none =>
        have hf := Fin.eq_false_of_find?_eq_none hw w
        rw [line_eq_some_iff] at hl
        have hd' : s.d w (setOf S p) = true := hd
        simp [hl, hd'] at hf
    | some w' =>
        have hw' := Fin.eq_true_of_find?_eq_some hw
        rw [Bool.and_eq_true, decide_eq_true_iff] at hw'
        have := ho.uniq _ _ _ (line_eq_some_iff.2 hw'.2) hl
        rw [(Prod.mk.inj this).1]
  rw [dirtyView, hsome]
  simp only [contents, setFin, Fin.val_ofNat, wordOf]
  rw [show p % 64 / 4 = p / 4 % 16 by omega, show p % 64 % 4 = p % 4 by omega]

/-- Any other line is seen as it is in memory. -/
theorem dirtyView_of_clean {p : ℕ}
    (hc : ∀ a, (s.contents S).line a = some (p / 64) → (s.contents S).dirty a = false)
    (mem : ℕ → Byte) : s.dirtyView S mem p = mem p := by
  have hnone : s.dirtyWay S p = none := by
    rw [dirtyWay, Fin.find?_eq_none_iff]
    intro w
    by_contra hw
    rw [Bool.not_eq_false, Bool.and_eq_true, decide_eq_true_iff] at hw
    have hd : s.d w (setOf S p) = false := hc (w, setFin S p) (line_eq_some_iff.2 hw.2)
    rw [hw.1] at hd
    cases hd
  rw [dirtyView, hnone]

/-- A line that is not on its way to memory is seen as it is in the flat memory. -/
theorem dirtyView_eq {skip : Fin n × Fin (2 ^ S) → Prop} {away : ℕ → Prop}
    (hr : (s.contents S).Rep (lineMem m.mem) (lineMem F) skip away)
    (hs : ∀ a, skip a → (s.contents S).dirty a = false) {p : ℕ} (hp : ¬ away (p / 64)) :
    s.dirtyView S m.mem p = F p := by
  have hF : ∀ G : ℕ → Byte, lineMem G (p / 64) (Fin.ofNat 64 p) = G p := by
    intro G
    simp only [lineMem, Fin.val_ofNat]
    congr 1
    omega
  by_cases hc : ∀ a, (s.contents S).line a = some (p / 64) → (s.contents S).dirty a = false
  · rw [dirtyView_of_clean hc, ← hF m.mem, ← hF F, hr.mem _ hp hc]
  · push Not at hc
    obtain ⟨⟨w, i⟩, hl, hd⟩ := hc
    obtain rfl : i = setFin S p := Fin.ext (set_of_line hl)
    replace hd := Bool.eq_true_of_not_eq_false hd
    have hns : ¬ skip (w, setFin S p) := by
      intro h'
      rw [hs _ h'] at hd
      cases hd
    rw [dirtyView_of_dirty hr.ok hl hd, hr.data _ _ hl hns, hF]

/-- Outside a write-back the dirty lines are all that memory lacks. -/
theorem Inv.dirtyView_eq (h : s.Inv S m F) (hst : s.state ≠ .writeback) (p : ℕ) :
    s.dirtyView S m.mem p = F p := by
  have hp := h.phase
  rw [Phase] at hp
  have hno : ∀ a : Fin n × Fin (2 ^ S), False → (s.contents S).dirty a = false := fun _ h => h.elim
  cases hs : s.state <;> rw [hs] at hp
  case boot =>
    obtain ⟨-, -, hd, rfl⟩ := hp
    rw [dirtyView, dirtyWay, Fin.find?_eq_none_iff.2]
    intro w
    simp [hd]
  case idle => exact Dcache.dirtyView_eq hp.1 hno id
  case replace => exact Dcache.dirtyView_eq hp.1 hno id
  case refill =>
    obtain ⟨fw, hrepl, hrep, -⟩ := hp
    refine Dcache.dirtyView_eq hrep ?_ id
    rintro a rfl
    exact hrepl.clean
  case reload => exact Dcache.dirtyView_eq hp.choose_spec.2 hno id
  case writeback => exact absurd hs hst
  all_goals exact hp.elim

theorem Inv.view_eq (h : s.Inv S m F) (p : ℕ) : s.view S m.mem p = F p := by
  by_cases hst : s.state = .writeback
  · have hp := h.phase
    rw [Phase, hst] at hp
    obtain ⟨fw, v, hrepl, hsend⟩ := hp
    have hv : s.awAddr / 64 = v := by rw [hsend.addr]; omega
    rw [view, hv]
    split_ifs with hc
    · have hway : ∀ w, s.s2iWbWay w = decide (w = fw) := by
        intro w
        rw [s2iWbWay, hrepl.fls, if_neg Bool.false_ne_true, hrepl.way]
      have hdata := congrFun hsend.data ⟨p % 64, Nat.mod_lt _ (by omega)⟩
      simp only [contents, slot, setFin, lineMem] at hdata
      rw [pmux_of_unique hway, wordOf, show p / 4 % 16 = p % 64 / 4 by omega,
        show p % 4 = p % 64 % 4 by omega, hdata]
      congr 1
      omega
    · refine Dcache.dirtyView_eq hsend.rep ?_ fun hp => hc ⟨hst, hp⟩
      rintro a rfl
      exact hrepl.clean
  · rw [view, if_neg (fun hc => hst hc.1)]
    exact h.dirtyView_eq hst p

/-! ### The observer -/

/-- The access that the state machine works on. -/
def pending (s : Dcache n) : Option DcAccess :=
  match s.state with
  | .replace | .writeback | .refill | .reload => some s.missAccess
  | _ => none

theorem flatMem_next (l : List DcAccess) :
    flatMem m₀ (l ++ (s.done S x).toList) = s.flatNext S x (flatMem m₀ l) := by
  rw [flatMem, List.foldl_append, flatNext]
  cases s.done S x <;> rfl

/-- What a load gets. -/
theorem Inv.dout_next (hS : S ≤ 7) (h : s.Inv S m F) {a : DcAccess} (hd : s.done S x = some a)
    (hl : a.wmsk = 0) {j : ℕ} (hj : j < 4) :
    byteOf (s.next S x).dout j = s.flatNext S x F (a.addr / 4 * 4 + j) := by
  have hF : s.flatNext S x F = F := by
    rw [flatNext, hd]
    exact apply_of_load hl F
  rw [hF, dout]
  rw [done] at hd
  split_ifs at hd with hr hst
  · have hst : s.state = .idle := by
      by_contra hne
      rw [s2iReady_of_state hne] at hr
      cases hr
    have hu : (s.next S x).s2o.uncached = false := by
      rw [next_s2o_of_idle hst]
      simp only [s2iReady, Bool.and_eq_true, Bool.not_eq_true'] at hr
      exact hr.1.2
    rw [Option.some_inj] at hd
    subst hd
    rw [hu, if_neg Bool.false_ne_true, byteOf_packBytes _ hj]
    exact (phase_next_hit hS h hst hr).2 hl j hj
  · have hp := h.phase
    rw [Phase, hst] at hp
    obtain ⟨fw, hrepl, -⟩ := hp
    rw [Option.some_inj] at hd
    subst hd
    rw [next_s2o_of_stall (by simp [hst]), hrepl.uncached, if_neg Bool.false_ne_true,
      byteOf_packBytes _ hj]
    exact (phase_next_reload h hst).2 hl j hj

/-- What the cache works on is the last access that it has taken on. -/
theorem Inv.pending_next (h : s.Inv S m F) (hx : s.Cached x) (ha : m.Answers x.axi) :
    s.pending.toList ++ (s.taken x).toList =
    (s.done S x).toList ++ (s.next S x).pending.toList := by
  have hs2 : s.state ≠ .idle → (s.next S x).missAccess = s.missAccess := by
    intro hst
    rw [missAccess, missAccess, next_s2o_of_stall hst]
  have hb := h.bus
  cases hst : s.state with
  | idle =>
      rcases idle_cases h hst hx with ⟨hr, hreq, hk, hn⟩ | ⟨hr, hc, hn⟩ | ⟨hr, hreq, hk, -, -, hn⟩
      · simp [pending, taken, done, hst, hn, hr, hreq, hk]
      · rcases hc with hc | hc <;> simp [pending, taken, done, hst, hn, hr, hc]
      · have : (s.next S x).missAccess = s.hitAccess x := by
          rw [missAccess, next_s2o_of_idle hst]
          rfl
        simp [pending, taken, done, hst, hn, hr, hreq, hk, this]
  | boot =>
      have hn : (s.next S x).state = .idle ∨ (s.next S x).state = .boot := by
        change s.stateNxt S x = _ ∨ s.stateNxt S x = _
        simp only [stateNxt, hst]
        split_ifs <;> simp
      rcases hn with hn | hn <;> simp [pending, taken, done, hst, hn, s2iReady_of_state]
  | replace =>
      have hn : (s.next S x).state = .writeback ∨ (s.next S x).state = .refill := by
        change s.stateNxt S x = _ ∨ s.stateNxt S x = _
        simp only [stateNxt, hst]
        split_ifs <;> simp
      rcases hn with hn | hn <;>
        simp [pending, taken, done, hst, hn, s2iReady_of_state, hs2]
  | refill =>
      rw [Bus, hst] at hb
      obtain ⟨c, hb⟩ := hb
      rcases hb.next (S := S) hst ha with ⟨-, hn, -⟩ | ⟨-, -, hn, -⟩ | ⟨-, -, hn, -⟩ <;>
        simp [pending, taken, done, hst, hn, s2iReady_of_state, hs2]
  | writeback =>
      rw [Bus, hst] at hb
      obtain ⟨k, hb⟩ := hb
      have hp := h.phase
      rw [Phase, hst] at hp
      obtain ⟨fw, v, hrepl, -⟩ := hp
      rcases hb.next (S := S) hst ha with ⟨-, hn, -⟩ | ⟨-, -, hf, -⟩ | ⟨-, -, -, hn, -⟩
      · simp [pending, taken, done, hst, hn, s2iReady_of_state, hs2]
      · rw [hrepl.fls] at hf
        cases hf
      · simp [pending, taken, done, hst, hn, s2iReady_of_state, hs2]
  | reload =>
      have hn : (s.next S x).state = .idle := by
        change s.stateNxt S x = _
        simp [stateNxt, hst]
      simp [pending, taken, done, hst, hn, s2iReady_of_state]
  | invalidate | flush | uncachedBoot | uncachedRead | uncachedWrite =>
      have hp := h.phase
      rw [Phase, hst] at hp
      exact hp.elim

/-- What the observer's notes say about the cache. -/
structure Observed (S : ℕ) (m₀ : ℕ → Byte) (s : Dcache n) (m : AxiMem) (h : DcHist) : Prop where
  inv : s.Inv S m (flatMem m₀ h.log)
  asked : h.asked = h.log ++ s.pending.toList
  out : ∀ a, h.out = some a → a.wmsk = 0 → ∀ j < 4,
    byteOf s.dout j = flatMem m₀ h.log (a.addr / 4 * 4 + j)

theorem observed_of_reach (hS : S ≤ 7) (hr : (cached n S pay m₀).Reach ((s, m), h)) :
    s.Observed S m₀ m h := by
  refine Machine.Reach.inv (P := fun q => q.1.1.Observed S m₀ q.1.2 q.2) ?_ ?_ hr
  · refine ⟨inv_reset pay m₀, rfl, fun a ha => ?_⟩
    cases ha
  · rintro ⟨⟨s, m⟩, h⟩ x ho hx
    have hi : s.Inv S m (flatMem m₀ h.log) := ho.inv
    refine ⟨?_, ?_, fun a ha hl j hj => ?_⟩
    · have := hi.next hS hx.2 hx.1
      rw [← flatMem_next] at this
      exact this
    · change h.asked ++ _ = (h.log ++ _) ++ (s.next S x).pending.toList
      rw [List.append_assoc, ← hi.pending_next hx.2 hx.1, ← List.append_assoc,
        show h.asked = h.log ++ s.pending.toList from ho.asked]
    · change byteOf (s.next S x).dout j = flatMem m₀ (h.log ++ (s.done S x).toList) _
      rw [flatMem_next]
      exact hi.dout_next hS ha hl hj

/-- A killed access changes nothing, in the cache and in memory. -/
theorem Inv.next_of_kill (h : s.Inv S m F) (hx : s.Cached x) (hst : s.state = .idle)
    (hk : x.kill = true) :
    (s.next S x).state = .idle ∧ (s.next S x).tagV = s.tagV ∧ (s.next S x).d = s.d ∧
      (s.next S x).pay = s.pay ∧ (m.next s.axiOut x.axi).mem = m.mem ∧ s.done S x = none ∧
      s.taken x = none := by
  have hb := h.bus
  rw [Bus, hst] at hb
  have hready : s.s2iReady S x = false := by simp [s2iReady, hk]
  have hn : (s.next S x).state = .idle := by
    rcases idle_cases h hst hx with ⟨-, -, hk', -⟩ | ⟨-, -, hn⟩ | ⟨-, -, hk', -⟩
    · rw [hk] at hk'
      cases hk'
    · exact hn
    · rw [hk] at hk'
      cases hk'
  exact ⟨hn, next_tagV (by simp [hst]), next_d hready (by simp [hst]),
    next_pay hready (by simp [hst]),
    hb.write.mem_next, by simp [done, hready, hst], by simp [taken, hk]⟩

/-! ### The first accesses

A store and a load to page zero, with a memory that answers at once. -/

section FirstAccesses

variable {r : DcReq} {log : List DcAccess}

/-- A cycle with a request to page zero. -/
def pageZero (n : ℕ) (r : DcReq) (axi : AxiIn) : DcIn n := ⟨r, 0, false, false, axi, fun _ _ => 0⟩

/-- An access to page zero. -/
def access (wmsk : BitVec 4) (wdat : Word) (vpo : BitVec 13) : DcReq :=
  ⟨true, 2, wmsk, wdat, vpo, false, false⟩

def noReq : DcReq := ⟨false, 2, 0, 0, 0, false, false⟩

/-- A state that the cache comes to, with memory as it was at the start. -/
def At (S : ℕ) (pay : Fin n → ℕ × ℕ → ℕ → Byte) (m₀ : ℕ → Byte) (s : Dcache n) (m : AxiMem)
    (log : List DcAccess) : Prop :=
  ∃ h, (cached n S pay m₀).Reach ((s, m), h) ∧ m.mem = m₀ ∧ h.log = log

theorem At.inv (hS : S ≤ 7) (h : s.At S pay m₀ m log) : s.Inv S m (flatMem m₀ log) := by
  obtain ⟨h, hr, -, rfl⟩ := h
  exact (observed_of_reach hS hr).inv

theorem Inv.noWrite (h : s.Inv S m F) (hst : s.state ≠ .writeback) : m.NoWrite s.axiOut := by
  have hb := h.bus
  have hp := h.phase
  rw [Bus] at hb
  rw [Phase] at hp
  cases hs : s.state <;> rw [hs] at hb hp
  case refill => exact hb.choose_spec.write
  case writeback => exact absurd hs hst
  case uncachedRead => exact hp.elim
  case uncachedWrite => exact hp.elim
  all_goals exact hb.write

theorem At.next (hS : S ≤ 7) (h : s.At S pay m₀ m log) (hst : s.state ≠ .writeback)
    (hr : r.inv = false ∧ r.fls = false) {axi : AxiIn} (ha : m.Answers axi) :
    (s.next S (pageZero n r axi)).At S pay m₀ (m.next s.axiOut axi)
      (log ++ (s.done S (pageZero n r axi)).toList) := by
  have hw := (h.inv hS).noWrite hst
  obtain ⟨h, hr', hm, rfl⟩ := h
  refine ⟨h.next S s (pageZero n r axi), Machine.Reach.tick hr'
    ⟨ha, ⟨hr.1, hr.2, fun _ _ h => Bool.noConfusion h⟩⟩, ?_, rfl⟩
  rw [← hm]
  exact hw.mem_next (i := axi)

/-- The boot takes as many cycles as there are sets. -/
theorem at_boot (S : ℕ) (pay : Fin n → ℕ × ℕ → ℕ → Byte) (m₀ : ℕ → Byte) (hS : S ≤ 7) {k : ℕ}
    (hk : k < 2 ^ S) : ∃ s m, At S pay m₀ s m [] ∧ s.state = .boot ∧ s.bootCnt = k := by
  induction k with
  | zero => exact ⟨_, _, ⟨_, Machine.Reach.reset, rfl, rfl⟩, rfl, rfl⟩
  | succ k ih =>
      obtain ⟨s, m, hat, hst, hc⟩ := ih (by omega)
      have hnext := hat.next (r := noReq) hS (by simp [hst]) ⟨rfl, rfl⟩ m.answers_silent
      rw [done_of_state (by simp [hst]) (by simp [hst])] at hnext
      refine ⟨_, _, hnext, ?_, ?_⟩
      · change s.stateNxt S _ = _
        simp only [stateNxt, hst, hc]
        rw [if_neg (by omega)]
      · change (s.bootCnt + 1) % 2 ^ S = _
        rw [hc, Nat.mod_eq_of_lt hk]

theorem at_idle (S : ℕ) (pay : Fin n → ℕ × ℕ → ℕ → Byte) (m₀ : ℕ → Byte) (hS : S ≤ 7) :
    ∃ s m, At S pay m₀ s m [] ∧ s.state = .idle ∧ s.s1o.req = false ∧
      (∀ w i, s.tagV w i = (0, false)) ∧ ∀ w i, s.d w i = false := by
  have hpos := Nat.two_pow_pos S
  obtain ⟨s, m, hat, hst, hc⟩ := at_boot S pay m₀ hS (k := 2 ^ S - 1) (by omega)
  have hp := (hat.inv hS).phase
  rw [Phase, hst] at hp
  have hnext := hat.next (r := noReq) hS (by simp [hst]) ⟨rfl, rfl⟩ m.answers_silent
  rw [done_of_state (by simp [hst]) (by simp [hst])] at hnext
  refine ⟨_, _, hnext, ?_, ?_, fun w i => ?_, fun w i => ?_⟩
  · change s.stateNxt S _ = _
    simp only [stateNxt, hst, hc]
    rw [if_pos (by omega)]
  · rw [next_s1o_of_stall (by simp [hst])]
    exact hp.1
  · change (if _ then s.s1iReplaceTagV S else s.tagV w i) = _
    have hz : s.s1iReplaceTagV S = (0, false) := by simp [s1iReplaceTagV, hst]
    rw [hz, hp.2.1, ite_self]
  · change (if _ then s.s2iDWdat w else s.d w i) = _
    rw [s2iDWdat, hst, hp.2.2.1]
    simp

/-- An idle cycle in which a request comes in. -/
theorem At.ask (hS : S ≤ 7) (h : s.At S pay m₀ m log) (hst : s.state = .idle)
    (hr : s.s1o.req = false) (hq : r.inv = false ∧ r.fls = false) :
    ∃ (s' : Dcache n) (m' : AxiMem), s'.At S pay m₀ m' log ∧ s'.state = .idle ∧
      s'.s1o = ⟨r, setOf S r.vpo.toNat⟩ ∧
      s'.tagV = s.tagV ∧ s'.d = s.d ∧ s'.freeWay = s.freeWayNxt := by
  have hready : s.s2iReady S (pageZero n r AxiIn.silent) = false := by simp [s2iReady, hr]
  have hnext := h.next hS (by simp [hst]) hq m.answers_silent
  rw [show s.done S (pageZero n r AxiIn.silent) =
    none by simp [done, hready, hst], Option.toList_none, List.append_nil] at hnext
  refine ⟨_, _, hnext, ?_, ?_, next_tagV (by simp [hst]), next_d hready (by simp [hst]), rfl⟩
  · change s.stateNxt S _ = _
    simp [stateNxt, hst, hr]
  · rw [next_s1o_of_idle hst, s1oNxt]
    simp [s1iLineAddr, hst, pageZero]

/-- A request to page zero that misses. -/
theorem At.miss (hS : S ≤ 7) (h : s.At S pay m₀ m log) (hst : s.state = .idle) {a : DcReq}
    (hs : s.s1o = ⟨a, setOf S a.vpo.toNat⟩) (ha : a.req = true ∧ a.inv = false ∧ a.fls = false)
    (hmiss : ∀ w, s.tagV w (setOf S a.vpo.toNat) ≠ (tagOf S a.vpo.toNat, true)) :
    ∃ (s' : Dcache n) (m' : AxiMem), s'.At S pay m₀ m' log ∧ s'.state = .replace ∧
      s'.tagV = s.tagV ∧ s'.d = s.d ∧
      s'.s1o.req = false ∧ s'.s2o.fsmFreeWay = s.freeWay ∧ s'.s2o.d = s.s1oD ∧
      s'.missAccess = ⟨a.vpo.toNat, a.wmsk, a.wdat⟩ := by
  have hi := h.inv hS
  have hp : (s.s2iPaddr (pageZero n noReq AxiIn.silent)).toNat = a.vpo.toNat := by
    rw [s2iPaddr_toNat, hs]
    simp [pageZero]
  have hreq : s.s1o.req = true := by rw [hs]; exact ha.1
  have hhit : s.s2iHit S (pageZero n noReq AxiIn.silent) = false := by
    rw [s2iHit, decide_eq_false_iff_not]
    rintro ⟨w, hw⟩
    rw [hitVec_iff hS (hi.fresh hst hreq), line_eq_some_iff, hp] at hw
    exact hmiss w hw
  have hready : s.s2iReady S (pageZero n noReq AxiIn.silent) = false := by simp [s2iReady, hhit]
  have hnext := h.next (r := noReq) hS (by simp [hst]) ⟨rfl, rfl⟩ m.answers_silent
  rw [show s.done S (pageZero n noReq AxiIn.silent) = none by simp [done, hready, hst],
    Option.toList_none, List.append_nil] at hnext
  refine ⟨_, _, hnext, ?_, next_tagV (by simp [hst]), next_d hready (by simp [hst]), ?_, ?_, ?_, ?_⟩
  · change s.stateNxt S _ = _
    have h₁ : s.s1o.inv = false := by rw [hs]; exact ha.2.1
    have h₂ : s.s1o.fls = false := by rw [hs]; exact ha.2.2
    have h₃ : (pageZero n noReq AxiIn.silent).uncached = false ∧
      (pageZero n noReq AxiIn.silent).kill = false := ⟨rfl, rfl⟩
    simp [stateNxt, hst, hreq, h₁, h₂, hhit, h₃]
  · rw [next_s1o_of_idle hst]
    rfl
  · rw [next_s2o_of_idle hst]
    rfl
  · rw [next_s2o_of_idle hst]
    rfl
  · rw [missAccess, next_s2o_of_idle hst]
    change DcAccess.mk (s.s2iPaddr _).toNat s.s1o.wmsk s.s1o.wdat = _
    rw [hp, hs]

/-- A refill with a prompt memory. -/
theorem At.refill (hS : S ≤ 7) (k : ℕ) : ∀ {s : Dcache n} {m : AxiMem}, s.At S pay m₀ m log →
    s.state = .refill → 64 - s.refillCnt + s.arValid.toNat = k →
    ∃ (s' : Dcache n) (m' : AxiMem), s'.At S pay m₀ m' log ∧ s'.state = .reload ∧ s'.tagV = s.tagV ∧
      s'.d = s.d ∧ s'.s1o = s.s1o ∧ s'.s2o = s.s2o := by
  induction k using Nat.strong_induction_on with
  | _ k ih =>
      intro s m h hst hk
      have hi := h.inv hS
      have hb := hi.bus
      have hph := hi.phase
      rw [Bus, hst] at hb
      rw [Phase, hst] at hph
      obtain ⟨c, hb⟩ := hb
      obtain ⟨fw, -, -, har, -⟩ := hph
      have hcnt := hb.refillCnt
      have hle : c ≤ 15 := hb.read.le
      have ha := m.answers_prompt
      have hR : s.hdsAxiR (pageZero n noReq (AxiIn.prompt m)) = !s.arValid := by
        have hrd : m.rd = if s.arValid then none else some (⟨s.arAddr, 15, 2⟩, c) := hb.read.rd
        change ((m.rd.any fun r => decide (r.1.size ≤ 3)) && s.rReady) = _
        rw [hrd, rReady, hst]
        cases s.arValid <;> simp
      have hv : (s.next S (pageZero n noReq (AxiIn.prompt m))).arValid = false := by
        rw [next_arValid, show s.arSet _ = false by simp [arSet, hst]]
        simp [pageZero, AxiIn.prompt]
      have hnext := h.next (r := noReq) hS (by simp [hst]) ⟨rfl, rfl⟩ ha
      rw [done_of_state (by simp [hst]) (by simp [hst]), Option.toList_none,
        List.append_nil] at hnext
      have htag := next_tagV (S := S) (s := s) (x := pageZero n noReq (AxiIn.prompt m))
        (by simp [hst])
      have hd := next_d (S := S) (s := s) (x := pageZero n noReq (AxiIn.prompt m))
        (s2iReady_of_state (by simp [hst])) (by simp [hst])
      have hs1 := next_s1o_of_stall (S := S) (s := s) (x := pageZero n noReq (AxiIn.prompt m))
        (by simp [hst])
      have hs2 := next_s2o_of_stall (S := S) (s := s) (x := pageZero n noReq (AxiIn.prompt m))
        (by simp [hst])
      rcases hb.next (S := S) (x := pageZero n noReq (AxiIn.prompt m)) hst ha with
        ⟨hR', hn, hb'⟩ | ⟨-, hc, hn, hb'⟩ | ⟨-, -, hn, -⟩
      · -- the address is taken
        rw [hR] at hR'
        have hlt : 64 - (s.next S (pageZero n noReq (AxiIn.prompt m))).refillCnt +
            (s.next S (pageZero n noReq (AxiIn.prompt m))).arValid.toNat < k := by
          rw [hb'.refillCnt, hv, ← hk, hcnt, show s.arValid = true by simpa using hR']
          simp
        obtain ⟨s', m', h₁, h₂, h₃, h₄, h₅, h₆⟩ := ih _ hlt hnext hn rfl
        exact ⟨s', m', h₁, h₂, h₃.trans htag, h₄.trans hd, h₅.trans hs1, h₆.trans hs2⟩
      · -- a word comes
        have hlt : 64 - (s.next S (pageZero n noReq (AxiIn.prompt m))).refillCnt +
            (s.next S (pageZero n noReq (AxiIn.prompt m))).arValid.toNat < k := by
          rw [hb'.refillCnt, hv, ← hk, hcnt]
          simp only [Bool.toNat_false]
          omega
        obtain ⟨s', m', h₁, h₂, h₃, h₄, h₅, h₆⟩ := ih _ hlt hnext hn rfl
        exact ⟨s', m', h₁, h₂, h₃.trans htag, h₄.trans hd, h₅.trans hs1, h₆.trans hs2⟩
      · exact ⟨_, _, hnext, hn, htag, hd, hs1, hs2⟩

/-- The tags after the first access: only one way is taken. -/
def OneTag (s : Dcache n) (fw : Fin n) (i t : ℕ) : Prop :=
  ∀ w i', s.tagV w i' = if w = fw ∧ i' = i then (t, true) else (0, false)

/-- The first access: it misses, nothing has to be written back, and memory does not change.  Its
line is the only one in the cache, and dirty if it was a store. -/
theorem at_store (S : ℕ) (pay : Fin n → ℕ × ℕ → ℕ → Byte) (m₀ : ℕ → Byte) (hS : S ≤ 7) {a : DcReq}
    (ha : a.req = true ∧ a.inv = false ∧ a.fls = false) :
    ∃ (s : Dcache n) (m : AxiMem), s.At S pay m₀ m [⟨a.vpo.toNat, a.wmsk, a.wdat⟩] ∧
      s.state = .idle ∧
      s.s1o.req = false ∧ ∃ fw, s.OneTag fw (setOf S a.vpo.toNat) (tagOf S a.vpo.toNat) ∧
        ∀ w i, s.d w i = decide ((w = fw ∧ i = setOf S a.vpo.toNat) ∧ a.wmsk ≠ 0) := by
  obtain ⟨s₀, m₀', h₀, hst₀, hr₀, ht₀, hd₀⟩ := at_idle S pay m₀ hS
  obtain ⟨s₁, m₁, h₁, hst₁, hs₁, ht₁, hd₁, -⟩ := h₀.ask hS hst₀ hr₀ (r := a) ha.2
  obtain ⟨s₂, m₂, h₂, hst₂, ht₂, hd₂, hr₂, -, hsd₂, hm₂⟩ := h₁.miss hS hst₁ hs₁ ha fun w => by
    rw [ht₁, ht₀]
    simp
  -- the victim is a slot that nobody has used
  have hi₂ := h₂.inv hS
  have hp₂ := hi₂.phase
  rw [Phase, hst₂] at hp₂
  obtain ⟨hrep, fw, hmiss, -, hfd, -⟩ := hp₂
  have hclean : s₂.s2o.freeDirty = false := by
    rw [hfd]
    by_contra hne
    have := hrep.valid (s₂.slot S fw) (by
      rw [hmiss.lineAddr] at hne
      exact Bool.eq_true_of_not_eq_false hne)
    simp [contents, ht₂, ht₁, ht₀] at this
  have hp : s₂.s2o.paddr.toNat = a.vpo.toNat := congrArg DcAccess.addr hm₂
  have h₃ := h₂.next (r := noReq) hS (by simp [hst₂]) ⟨rfl, rfl⟩ m₂.answers_silent
  rw [done_of_state (by simp [hst₂]) (by simp [hst₂]), Option.toList_none, List.append_nil] at h₃
  have hst₃ : (s₂.next S (pageZero n noReq AxiIn.silent)).state = .refill := by
    change s₂.stateNxt S _ = _
    simp [stateNxt, hst₂, hclean]
  have ht₃ : (s₂.next S (pageZero n noReq AxiIn.silent)).OneTag fw (setOf S a.vpo.toNat)
      (tagOf S a.vpo.toNat) := by
    intro w i
    change (if s₂.s1iTagVWe w = true ∧ i = s₂.s1iLineAddr S _ then s₂.s1iReplaceTagV S
      else s₂.tagV w i) = _
    have e₁ : s₂.s1iTagVWe w = decide (w = fw) := by simp [s1iTagVWe, hst₂, hmiss.way]
    have e₂ : s₂.s1iLineAddr S (pageZero n noReq AxiIn.silent) = setOf S a.vpo.toNat := by
      rw [← hp, ← hmiss.lineAddr]
      simp [s1iLineAddr, hst₂]
    have e₃ : s₂.s1iReplaceTagV S = (tagOf S a.vpo.toNat, true) := by
      simp [s1iReplaceTagV, hst₂, hp]
    rw [e₁, e₂, e₃, ht₂, ht₁, ht₀]
    simp only [decide_eq_true_iff]
  obtain ⟨s₄, m₄, h₄, hst₄, ht₄, hd₄, hs1₄, hs2₄⟩ := At.refill hS _ h₃ hst₃ rfl
  have h₅ := h₄.next (r := noReq) hS (by simp [hst₄]) ⟨rfl, rfl⟩ m₄.answers_silent
  have hmac : s₄.missAccess = ⟨a.vpo.toNat, a.wmsk, a.wdat⟩ := by
    rw [← hm₂, missAccess, missAccess, hs2₄, next_s2o_of_stall (by simp [hst₂])]
  have hdone : s₄.done S (pageZero n noReq AxiIn.silent) = some ⟨a.vpo.toNat, a.wmsk, a.wdat⟩ := by
    rw [done, if_neg (by simp [s2iReady_of_state, hst₄]), if_pos hst₄, hmac]
  rw [hdone] at h₅
  -- the flags are still those after reset
  have hd₃ : ∀ w i, (s₂.next S (pageZero n noReq AxiIn.silent)).d w i = false := by
    intro w i
    change (if _ then s₂.s2iDWdat w else s₂.d w i) = _
    rw [s2iDWdat, hst₂, hd₂, hd₁, hd₀]
    simp
  have hs2d : s₄.s2o.d fw = false := by
    have hf := (h₁.inv hS).fresh hst₁ (by rw [hs₁]; exact ha.1)
    rw [hs2₄, next_s2o_of_stall (by simp [hst₂]), hsd₂, hf.d, hd₁, hd₀]
  have hmiss₄ : s₄.Missed S fw := by
    obtain ⟨hm', -⟩ := hmiss.next (x := pageZero n noReq AxiIn.silent) (by simp [hst₂])
    refine ⟨?_, ?_, ?_, ?_, ?_⟩ <;> rw [hs2₄]
    · exact hm'.way
    · exact hm'.fls
    · exact hm'.uncached
    · exact hm'.lineAddr
    · exact hm'.payloadAddr
  refine ⟨_, _, h₅, ?_, ?_, fw, fun w i => ?_, fun w i => ?_⟩
  · change s₄.stateNxt S _ = _
    simp [stateNxt, hst₄]
  · rw [next_s1o_of_stall (by simp [hst₄]), hs1₄, next_s1o_of_stall (by simp [hst₂])]
    exact hr₂
  · rw [next_tagV (by simp [hst₄]), ht₄]
    exact ht₃ w i
  · rw [((wrote_reload hmiss₄ hst₄).1).d, hmac, hs2d, hd₄, hd₃]
    split_ifs with hc
    · simp [hc]
    · simp [hc]

/-- The victim pointer comes to every way. -/
theorem At.rotate (hS : S ≤ 7) (k : ℕ) :
    ∀ {s : Dcache n} {m : AxiMem} {f w : Fin n}, s.At S pay m₀ m log →
    s.state = .idle → s.s1o.req = false → (∀ w', s.freeWay w' = decide (w' = f)) → (f + k) % n = w →
    ∃ (s' : Dcache n) (m' : AxiMem), s'.At S pay m₀ m' log ∧ s'.state = .idle ∧ s'.s1o.req = false ∧
      s'.tagV = s.tagV ∧ s'.d = s.d ∧ ∀ w', s'.freeWay w' = decide (w' = w) := by
  induction k with
  | zero =>
      intro s m f w h hst hr hf hw
      obtain rfl : f = w := Fin.ext (by rw [← hw, Nat.add_zero, Nat.mod_eq_of_lt f.isLt])
      exact ⟨s, m, h, hst, hr, rfl, rfl, hf⟩
  | succ k ih =>
      intro s m f w h hst hr hf hw
      obtain ⟨s', m', h', hst', hs', ht', hd', hf'⟩ := h.ask hS hst hr (r := noReq) ⟨rfl, rfl⟩
      have hfn : ∀ w', s'.freeWay w' = decide (w' = Fin.ofNat n (f + 1)) := by
        rw [hf']
        exact freeWayNxt_eq hf
      obtain ⟨s'', m'', h'', hst'', hr'', ht'', hd'', hf''⟩ := ih h' hst' (by rw [hs']; rfl) hfn
        (show (((Fin.ofNat n (f + 1) : Fin n) : ℕ) + k) % n = w by
          rw [← hw, Fin.val_ofNat, Nat.mod_add_mod]
          congr 1
          omega)
      exact ⟨s'', m'', h'', hst'', hr'', ht''.trans ht', hd''.trans hd', hf''⟩

end FirstAccesses

/-! ### Refinement -/

/-- **The D-cache refines flat memory.**  The accesses are done in the order in which they are taken
on, the last one being done if the state machine is busy; a load has at the output the bytes of the
flat memory that the accesses before it have left; a killed access changes nothing; and the flat
memory is the memory overlaid with the valid dirty lines, together with the line that is just being
written back. -/
theorem refines_flat (hS : S ≤ 7) (hr : (cached n S pay m₀).Reach ((s, m), h)) :
    h.asked = h.log ++ s.pending.toList ∧
      (∀ a, h.out = some a → a.wmsk = 0 → ∀ j < 4,
        byteOf s.dout j = flatMem m₀ h.log (a.addr / 4 * 4 + j)) ∧
      (∀ x : DcIn n, s.Cached x → s.state = .idle → s.s1o.req = true → x.kill = true →
        (s.next S x).state = .idle ∧ (s.next S x).tagV = s.tagV ∧ (s.next S x).d = s.d ∧
          (s.next S x).pay = s.pay ∧ (m.next s.axiOut x.axi).mem = m.mem ∧
          (h.next S s x).log = h.log ∧ (h.next S s x).asked = h.asked) ∧
      (∀ p, s.view S m.mem p = flatMem m₀ h.log p) ∧
      (s.state ≠ .writeback → ∀ p, s.dirtyView S m.mem p = flatMem m₀ h.log p) := by
  have ho := observed_of_reach hS hr
  refine ⟨ho.asked, ho.out, fun x hx hst _ hk => ?_, ho.inv.view_eq, ho.inv.dirtyView_eq⟩
  obtain ⟨h₁, h₂, h₃, h₄, h₅, h₆, h₇⟩ := ho.inv.next_of_kill hx hst hk
  refine ⟨h₁, h₂, h₃, h₄, h₅, ?_, ?_⟩
  · simp [DcHist.next, h₆]
  · simp [DcHist.next, h₇]

/-- The store of one byte to address zero, in the configuration of the system. -/
theorem refines_flat_store :
    ∃ s m h, (cached 4 4 (fun _ _ _ => 0) fun _ => 0).Reach ((s, m), h) ∧ s.state = .idle ∧
      h.log = [⟨0, 1, 1⟩] ∧ s.dirtyView 4 m.mem 0 = 1 := by
  obtain ⟨s, m, ⟨h, hr, -, hl⟩, hst, -⟩ :=
    at_store (n := 4) 4 (fun _ _ _ => 0) (fun _ => 0) (by decide)
    (a := access 1 1 0) ⟨rfl, rfl, rfl⟩
  refine ⟨s, m, h, hr, hst, hl, ?_⟩
  rw [(refines_flat (by decide) hr).2.2.2.2 (by simp [hst]) 0, hl]
  decide

/-- **While a victim is being written back the valid dirty lines and memory do not make up the flat
memory**: the byte of the first store is in neither, after a load has taken its slot. -/
theorem victim_not_dirty :
    ∃ s m h, (cached 4 4 (fun _ _ _ => 0) fun _ => 0).Reach ((s, m), h) ∧
      s.dirtyView 4 m.mem 0 ≠ flatMem (fun _ => 0) h.log 0 := by
  have hS : 4 ≤ 7 := by decide
  have hflat : flatMem (fun _ => 0)
      [⟨(access 1 1 0).vpo.toNat, (access 1 1 0).wmsk, (access 1 1 0).wdat⟩] 0 = 1 := by decide
  obtain ⟨s, m, h, hst, hr, fw, ht, hdf⟩ := at_store (n := 4) 4 (fun _ _ _ => 0) (fun _ => 0) hS
    (a := access 1 1 0) ⟨rfl, rfl, rfl⟩
  -- a load of another line of the set comes when the pointer is at this way
  obtain ⟨f, hf⟩ := (h.inv hS).free
  obtain ⟨s₁, m₁, h₁, hst₁, hr₁, ht₁, hd₁, hf₁⟩ := h.rotate hS (fw + 7 - f) (w := fw + 3) hst hr hf
    (by have := fw.isLt; have := f.isLt; rw [Fin.val_add]; change _ = ((fw : ℕ) + 3) % 4; omega)
  obtain ⟨s₂, m₂, h₂, hst₂, hs₂, ht₂, hd₂, hf₂⟩ :=
    h₁.ask hS hst₁ hr₁ (r := access 0 0 1024) ⟨rfl, rfl⟩
  obtain ⟨s₃, m₃, h₃, hst₃, ht₃, hd₃, -, hf₃, -, hm₃⟩ :=
    h₂.miss hS hst₂ hs₂ ⟨rfl, rfl, rfl⟩ fun w => by
    rw [ht₂, ht₁, ht]
    split_ifs <;> decide
  have hp₃ := (h₃.inv hS).phase
  rw [Phase, hst₃] at hp₃
  obtain ⟨-, fw', hmiss, -, hfd, -⟩ := hp₃
  obtain rfl : fw' = fw := by
    have h₁ := hmiss.way fw
    rw [hf₃, hf₂, freeWayNxt_eq hf₁] at h₁
    have h₂ : fw = Fin.ofNat 4 ((fw + 3 : Fin 4) + 1) := by
      clear * -
      revert fw
      decide
    rw [← h₂] at h₁
    simpa [eq_comm] using h₁
  have hp : s₃.s2o.paddr.toNat = 1024 := congrArg DcAccess.addr hm₃
  have hl : s₃.s2o.lineAddr = 0 := by
    rw [hmiss.lineAddr, hp]
    decide
  have h₄ := h₃.next (r := noReq) hS (by simp [hst₃]) ⟨rfl, rfl⟩ m₃.answers_silent
  rw [done_of_state (by simp [hst₃]) (by simp [hst₃]), Option.toList_none, List.append_nil] at h₄
  obtain ⟨h', hr', hm', hlog⟩ := h₄
  refine ⟨_, _, h', hr', ?_⟩
  have hno : (s₃.next 4 (pageZero 4 noReq AxiIn.silent)).dirtyWay 4 0 = none := by
    rw [dirtyWay, Fin.find?_eq_none_iff]
    intro w
    have htag : (s₃.next 4 (pageZero 4 noReq AxiIn.silent)).tagV w 0 ≠ (0, true) := by
      change (if s₃.s1iTagVWe w = true ∧ 0 = s₃.s1iLineAddr 4 _ then s₃.s1iReplaceTagV 4
        else s₃.tagV w 0) ≠ _
      rw [show s₃.s1iTagVWe w = decide (w = fw') by simp [s1iTagVWe, hst₃, hmiss.way],
        show s₃.s1iLineAddr 4 (pageZero 4 noReq AxiIn.silent) = 0 by simp [s1iLineAddr, hst₃, hl],
        show s₃.s1iReplaceTagV 4 = (1, true) by simp [s1iReplaceTagV, hst₃, hp, tagOf],
        ht₃, ht₂, ht₁, ht]
      by_cases hw : w = fw' <;> simp [hw]
    have h0 : setOf 4 0 = 0 ∧ tagOf 4 0 = 0 := by decide
    simp [h0, htag]
  rw [dirtyView, hno, hm', hlog, hflat]
  change (0 : Byte) ≠ 1
  decide

end Dcache

end NanoCpu
