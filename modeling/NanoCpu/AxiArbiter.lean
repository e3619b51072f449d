/-
**The bus arbiters** (`rtl/fabric/axi4_arbiter_r.v`, `axi4_arbiter_w.v`).

Two masters share a bus.  One arbiter grants it for reads, the other for writes.  Each of them keeps
the granted port, and for each port a flag that is set when the port is granted with a request and
cleared with its last response; the bus is locked while the flag of the granted port is set.  The
two are the same but for one thing: the arbiter of the writes sets the flag of port 1 in every
cycle.

Main definitions:

* `AxiArb`, `AxiArb.next` — an arbiter; `Axi4ArbiterR.next`, `Axi4ArbiterW.next` — the two of them;
* `ArbLog`, `ArbLog.Allows` — the requests that are presented or outstanding, and what masters with
  one request at a time and a slave promise;
* `AxiArb.Keeps` — the granted port keeps the bus;
* `AxiArb.Releases` — a flag is set only for a request, and the only port that requests is granted.

Main results:

* `AxiArb.Keeps.next` — in both arbiters the granted port keeps the bus;
* `AxiArb.release_iff` — the arbiter of the reads releases the bus; the arbiter of the writes does
  so exactly as long as port 1 has a request.
-/

import NanoCpu.Machine
import NanoCpu.Rtl

set_option relaxedAutoImplicit false
set_option autoImplicit false

namespace NanoCpu

/-- The ports of the two masters. -/
inductive AxiPort
  | s0 | s1
  deriving DecidableEq, Repr

namespace AxiPort

def other : AxiPort → AxiPort
  | .s0 => .s1
  | .s1 => .s0

theorem eq_or_eq_other (p q : AxiPort) : q = p ∨ q = p.other := by
  cases p <;> cases q <;> simp [other]

theorem other_ne (p : AxiPort) : p.other ≠ p := by cases p <;> simp [other]

@[simp] theorem other_other (p : AxiPort) : p.other.other = p := by cases p <;> rfl

end AxiPort

/-! ### The arbiters -/

/-- The granted port, and the flags. -/
structure AxiArb where
  st : AxiPort
  pending : AxiPort → Bool

/-- The inputs of one cycle: the valid signals of the address channels, the ready signals of the
response channels, whether the bus shows a last response, and whether it accepts an address. -/
structure ArbIn where
  valid : AxiPort → Bool
  ready : AxiPort → Bool
  last : Bool
  accept : Bool

namespace AxiArb

def reset : AxiArb := ⟨.s0, fun _ => false⟩

variable (dflt : AxiPort → Bool) (s : AxiArb) (x : ArbIn)

/-- `s0_pending_clr`, `s1_pending_clr`: the granted port takes its last response. -/
def pendingClr (p : AxiPort) : Bool := decide (s.st = p) && x.last && x.ready p

/-- `fsm_state_nxt`, and `s0_pending_set` and `s1_pending_set`, which have the values `dflt` where
the state machine says nothing. -/
def fsm : AxiPort × (AxiPort → Bool) :=
  if x.valid s.st then (s.st, Function.update dflt s.st true)
  else if s.pending s.st && !s.pendingClr x s.st then (s.st, dflt)
  else if s.pending s.st && s.pendingClr x s.st then (s.st.other, dflt)
  else if x.valid s.st.other then (s.st.other, Function.update dflt s.st.other true)
  else (s.st, dflt)

def pendingSet : AxiPort → Bool := (s.fsm dflt x).2

def next : AxiArb where
  st := (s.fsm dflt x).1
  pending p := ldff (s.pendingSet dflt x p || s.pendingClr x p)
    (s.pendingSet dflt x p || !s.pendingClr x p) (s.pending p)

end AxiArb

/-- The arbiter of the reads. -/
def Axi4ArbiterR.next : AxiArb → ArbIn → AxiArb := AxiArb.next fun _ => false

/-- The arbiter of the writes; `s1_pending_set` is one by default. -/
def Axi4ArbiterW.next : AxiArb → ArbIn → AxiArb := AxiArb.next fun p => decide (p = .s1)

/-! ### The requests -/

/-- For each port, whether it has presented a request that is not accepted yet, and whether a
request of it is accepted and not answered yet. -/
structure ArbLog where
  held : AxiPort → Bool
  out : AxiPort → Bool

namespace ArbLog

def reset : ArbLog := ⟨fun _ => false, fun _ => false⟩

variable (e : ArbLog) (s : AxiArb) (x : ArbIn)

/-- The address of the granted port is accepted. -/
def accepted (s : AxiArb) (x : ArbIn) (p : AxiPort) : Bool :=
  decide (s.st = p) && x.valid p && x.accept

def next : ArbLog where
  held p := x.valid p && !accepted s x p
  out p := accepted s x p || (e.out p && !s.pendingClr x p)

/-- A request is presented or outstanding. -/
def busy (p : AxiPort) : Bool := x.valid p || e.out p

/-- The promises of the masters and the slave: a request stays until it is accepted, the next one
comes when the one before has been answered, and a last response is an answer to a request. -/
structure Allows : Prop where
  hold : ∀ p, e.held p = true → x.valid p = true
  one : ∀ p, x.valid p = true → e.out p = false
  answer : x.last = true → ∃ p, e.out p = true

end ArbLog

namespace AxiArb

/-- An arbiter with two masters and a slave. -/
def machine (dflt : AxiPort → Bool) : Machine (AxiArb × ArbLog) ArbIn where
  reset := (reset, ArbLog.reset)
  allowed q x := q.2.Allows x
  next q x := (q.1.next dflt x, q.2.next q.1 x)

/-- The granted port keeps the bus: what is outstanding is from the granted port and locks the
bus. -/
def Keeps (s : AxiArb) (e : ArbLog) : Prop := ∀ p, e.out p = true → s.st = p ∧ s.pending p = true

/-- The flags are set only for requests, and while nothing is outstanding the only port that
requests is granted. -/
structure Releases (dflt : AxiPort → Bool) (s : AxiArb) (e : ArbLog) (x : ArbIn) : Prop where
  pending : ∀ p, s.pending p = true → e.busy x p = true
  grant : ∀ p, (∀ q, e.out q = false) → x.valid p = true → x.valid p.other = false →
    (s.next dflt x).st = p

variable {dflt : AxiPort → Bool} {s : AxiArb} {e : ArbLog} {x : ArbIn}

/-! ### What a cycle does -/

theorem fsm_of_valid (h : x.valid s.st = true) :
    s.fsm dflt x = (s.st, Function.update dflt s.st true) := if_pos h

theorem fsm_of_locked (hv : x.valid s.st = false) (hp : s.pending s.st = true)
    (hc : s.pendingClr x s.st = false) : s.fsm dflt x = (s.st, dflt) := by
  simp [fsm, hv, hp, hc]

theorem fsm_of_free (hv : x.valid s.st = false) (hp : s.pending s.st = false) :
    s.fsm dflt x = if x.valid s.st.other then (s.st.other, Function.update dflt s.st.other true)
      else (s.st, dflt) := by
  simp [fsm, hv, hp]

/-- A flag after the edge. -/
theorem next_pending (p : AxiPort) :
    (s.next dflt x).pending p = (s.pendingSet dflt x p || (s.pending p && !s.pendingClr x p)) := by
  change ldff _ _ _ = _
  cases s.pendingSet dflt x p <;> cases s.pendingClr x p <;> cases s.pending p <;> rfl

/-- A flag that is set by default is set. -/
theorem pending_of_dflt {p : AxiPort} (h : dflt p = true) : (s.next dflt x).pending p = true := by
  have hset : s.pendingSet dflt x p = true := by
    rw [pendingSet, fsm]
    split_ifs <;> simp only [Function.update_apply, h, ite_self]
  rw [next_pending, hset, Bool.true_or]

theorem pendingClr_of_ne {p : AxiPort} (h : s.st ≠ p) : s.pendingClr x p = false := by
  simp [pendingClr, h]

theorem accepted_of_ne {p : AxiPort} (h : s.st ≠ p) : ArbLog.accepted s x p = false := by
  simp [ArbLog.accepted, h]

/-- While a request of the granted port is presented or outstanding, the grant stays up to its last
response. -/
theorem Keeps.st_next (h : s.Keeps e) (hb : e.busy x s.st = true)
    (hc : x.valid s.st = true ∨ s.pendingClr x s.st = false) : (s.next dflt x).st = s.st := by
  cases hv : x.valid s.st with
  | true => exact congrArg Prod.fst (fsm_of_valid hv)
  | false =>
      rw [hv] at hc
      have hout : e.out s.st = true := by simpa [ArbLog.busy, hv] using hb
      exact congrArg Prod.fst (fsm_of_locked hv (h _ hout).2 (hc.resolve_left Bool.false_ne_true))

/-- A request of the granted port sets its flag. -/
theorem pending_of_valid (h : x.valid s.st = true) : (s.next dflt x).pending s.st = true := by
  have hset : s.pendingSet dflt x s.st = true := by
    rw [pendingSet, fsm_of_valid h]
    exact Function.update_self _ _ _
  rw [next_pending, hset, Bool.true_or]

/-- A cycle keeps the bus with the granted port. -/
theorem Keeps.next (h : s.Keeps e) : (s.next dflt x).Keeps (e.next s x) := by
  intro p ho
  have ho' : (ArbLog.accepted s x p || (e.out p && !s.pendingClr x p)) = true := ho
  by_cases hp : s.st = p
  · subst hp
    cases hv : x.valid s.st with
    | true => exact ⟨congrArg Prod.fst (fsm_of_valid hv), pending_of_valid hv⟩
    | false =>
        simp only [ArbLog.accepted, hv, Bool.and_false, Bool.false_and, Bool.false_or,
          Bool.and_eq_true, Bool.not_eq_true'] at ho'
        have hpend := (h _ ho'.1).2
        refine ⟨congrArg Prod.fst (fsm_of_locked hv hpend ho'.2), ?_⟩
        rw [next_pending, hpend, ho'.2]
        simp
  · rw [accepted_of_ne hp, Bool.false_or, Bool.and_eq_true] at ho'
    exact absurd (h p ho'.1).1 hp

/-! ### The flags -/

/-- A flag that is not set by default is set for a request of the granted port only. -/
def Right (dflt : AxiPort → Bool) (s : AxiArb) (e : ArbLog) : Prop :=
  ∀ p, dflt p = false → s.pending p = true → s.st = p ∧ (e.held p = true ∨ e.out p = true)

/-- A request that is presented stays or is accepted. -/
theorem held_or_out_next {p : AxiPort} (h : x.valid p = true) :
    (e.next s x).held p = true ∨ (e.next s x).out p = true := by
  change (x.valid p && !ArbLog.accepted s x p) = true ∨
    (ArbLog.accepted s x p || (e.out p && !s.pendingClr x p)) = true
  rw [h]
  cases ArbLog.accepted s x p <;> simp

/-- The state machine sets a flag for a request of the port that it grants. -/
theorem of_pendingSet {p : AxiPort} (hd : dflt p = false) (hs : s.pendingSet dflt x p = true) :
    x.valid p = true ∧ (s.next dflt x).st = p := by
  have hfree : dflt p = true → x.valid p = true ∧ (s.next dflt x).st = p := by
    intro h
    rw [hd] at h
    cases h
  have hgrant : ∀ q, Function.update dflt q true p = true → x.valid q = true →
      (s.next dflt x).st = q → x.valid p = true ∧ (s.next dflt x).st = p := by
    intro q hu hv hq
    rw [Function.update_apply] at hu
    split_ifs at hu with hpq
    · exact hpq ▸ ⟨hv, hq⟩
    · exact hfree hu
  change (s.fsm dflt x).2 p = true at hs
  have hst : (s.next dflt x).st = (s.fsm dflt x).1 := rfl
  rw [fsm] at hs hst
  split_ifs at hs hst with h₁ h₂ h₃ h₄
  · exact hgrant _ hs h₁ hst
  · exact hfree hs
  · exact hfree hs
  · exact hgrant _ hs h₄ hst
  · exact hfree hs

theorem Right.next (h : s.Right dflt e) (hx : e.Allows x) :
    (s.next dflt x).Right dflt (e.next s x) := by
  intro p hd hpend
  rw [next_pending, Bool.or_eq_true] at hpend
  rcases hpend with hset | hold
  · obtain ⟨hv, hst⟩ := of_pendingSet hd hset
    exact ⟨hst, held_or_out_next hv⟩
  · rw [Bool.and_eq_true, Bool.not_eq_true'] at hold
    obtain ⟨rfl, hb⟩ := h p hd hold.1
    cases hv : x.valid s.st with
    | true => exact ⟨congrArg Prod.fst (fsm_of_valid hv), held_or_out_next hv⟩
    | false =>
        have hout : e.out s.st = true := by
          refine hb.resolve_left fun hh => ?_
          rw [hx.hold _ hh] at hv
          cases hv
        refine ⟨congrArg Prod.fst (fsm_of_locked hv hold.1 hold.2), Or.inr ?_⟩
        change (ArbLog.accepted s x s.st || (e.out s.st && !s.pendingClr x s.st)) = true
        rw [hout, hold.2]
        simp

theorem right_of_reach (h : (machine dflt).Reach (s, e)) : s.Right dflt e :=
  Machine.Reach.inv (P := fun q => q.1.Right dflt q.2) (fun p _ hp => by cases hp)
    (fun q x hq hx => Right.next (x := x) hq hx) h

theorem Right.busy (h : s.Right dflt e) (hx : e.Allows x) {p : AxiPort} (hd : dflt p = false)
    (hp : s.pending p = true) : e.busy x p = true := by
  rcases (h p hd hp).2 with hh | ho
  · simp [ArbLog.busy, hx.hold p hh]
  · simp [ArbLog.busy, ho]

/-- Where the flags are right the only port that requests is granted. -/
theorem releases_of_pending (h : ∀ p, s.pending p = true → e.busy x p = true) :
    s.Releases dflt e x := by
  refine ⟨h, fun p hout hv hv' => ?_⟩
  rcases s.st.eq_or_eq_other p with rfl | rfl
  · exact congrArg Prod.fst (fsm_of_valid hv)
  · rw [AxiPort.other_other] at hv'
    have hp : s.pending s.st = false := by
      by_contra hne
      have := h _ (Bool.eq_true_of_not_eq_false hne)
      rw [ArbLog.busy, hv', hout] at this
      cases this
    refine congrArg Prod.fst ((fsm_of_free hv' hp).trans (if_pos hv))

end AxiArb

/-- The two arbiters with their surroundings. -/
abbrev Axi4ArbiterR.machine := AxiArb.machine fun _ => false

abbrev Axi4ArbiterW.machine := AxiArb.machine fun p => decide (p = .s1)

/-- **When the arbiters release the bus.**  The arbiter of the reads does so in every reachable
state.  The arbiter of the writes does so all along a run exactly if port 1 has a request, presented
or outstanding, in every cycle of the run but the first. -/
theorem AxiArb.release_iff (l : List ArbIn) :
    (∀ (s : AxiArb) (e : ArbLog) (x : ArbIn), Axi4ArbiterR.machine.Reach (s, e) → e.Allows x →
      s.Releases (fun _ => false) e x) ∧
    ((∀ k x, l[k]? = some x → (Axi4ArbiterW.machine.run (l.take k)).2.Allows x) →
      ((∀ k x, l[k]? = some x → (Axi4ArbiterW.machine.run (l.take k)).1.Releases
          (fun p => decide (p = .s1)) (Axi4ArbiterW.machine.run (l.take k)).2 x) ↔
        ∀ k x, 0 < k → l[k]? = some x →
          (Axi4ArbiterW.machine.run (l.take k)).2.busy x .s1 = true)) := by
  refine ⟨fun s e x hr hx => releases_of_pending fun p hp => (right_of_reach hr).busy hx rfl hp,
    fun hl => ⟨fun h k x hk hx => ?_, fun h k x hx => releases_of_pending fun p hp => ?_⟩⟩
  · -- the flag of port 1 is set from the first edge on
    refine (h k x hx).pending .s1 ?_
    obtain ⟨j, rfl⟩ := Nat.exists_eq_succ_of_ne_zero (Nat.pos_iff_ne_zero.1 hk)
    have hlt : j < l.length := by
      have := (List.getElem?_eq_some_iff.1 hx).1
      omega
    rw [List.take_succ_eq_append_getElem hlt, Machine.run, List.foldl_append]
    exact pending_of_dflt rfl
  · have hreach : Axi4ArbiterW.machine.Reach (Axi4ArbiterW.machine.run (l.take k)) := by
      refine Machine.reach_run fun j y hy => ?_
      have hj : j < k := by
        have := (List.getElem?_eq_some_iff.1 hy).1
        rw [List.length_take] at this
        omega
      rw [List.getElem?_take_of_lt hj] at hy
      rw [List.take_take, Nat.min_eq_left hj.le]
      exact hl j y hy
    cases p with
    | s0 => exact (right_of_reach hreach).busy (hl k x hx) rfl hp
    | s1 =>
        rcases Nat.eq_zero_or_pos k with rfl | hk
        · cases hp
        · exact h k x hk hx

/-- A cycle in which port `p` requests, and the bus does not accept it. -/
def ArbIn.ask (p : AxiPort) : ArbIn := ⟨fun q => decide (q = p), fun _ => false, false, false⟩

/-- Port 0 reads, and port 1 writes in two cycles. -/
theorem AxiArb.release_iff_ask :
    AxiArb.reset.Releases (fun _ => false) ArbLog.reset (ArbIn.ask .s0) ∧
      (Axi4ArbiterW.machine.run [ArbIn.ask .s1]).1.Releases (fun p => decide (p = .s1))
        (Axi4ArbiterW.machine.run [ArbIn.ask .s1]).2 (ArbIn.ask .s1) := by
  have h₀ : ∀ p, ArbLog.reset.Allows (ArbIn.ask p) :=
    fun p => ⟨fun q hq => (by cases hq), fun q _ => rfl, fun h => by cases h⟩
  have h₁ : (Axi4ArbiterW.machine.run [ArbIn.ask .s1]).2.Allows (ArbIn.ask .s1) := by
    refine ⟨fun q hq => ?_, fun q _ => by cases q <;> rfl, fun h => by cases h⟩
    cases q with
    | s0 => exact absurd hq (by decide)
    | s1 => rfl
  refine ⟨(AxiArb.release_iff []).1 _ _ _ Machine.Reach.reset (h₀ .s0),
    ((AxiArb.release_iff [ArbIn.ask .s1, ArbIn.ask .s1]).2 fun k x hx => ?_).2
      (fun k x hk hx => ?_) 1 _ rfl⟩
  · match k with
    | 0 =>
        obtain rfl := Option.some_inj.1 hx
        exact h₀ .s1
    | 1 =>
        obtain rfl := Option.some_inj.1 hx
        exact h₁
    | k + 2 => cases hx
  · match k with
    | 1 =>
        obtain rfl := Option.some_inj.1 hx
        rfl
    | k + 2 => cases hx

/-- **A port that has written once is locked out.**  Port 0 has written and been answered, nothing
is outstanding, and port 1 has never asked for anything; its flag is set, and port 0, which asks
again, is not granted. -/
theorem AxiArb.write_locked_out :
    ∃ (s : AxiArb) (e : ArbLog) (x : ArbIn), Axi4ArbiterW.machine.Reach (s, e) ∧ e.Allows x ∧
      (∀ q, e.out q = false) ∧ x.valid .s0 = true ∧ x.valid .s1 = false ∧ s.pending .s1 = true ∧
      e.busy x .s1 = false ∧ (Axi4ArbiterW.next s x).st ≠ .s0 := by
  set ask : ArbIn := ⟨fun q => decide (q = .s0), fun _ => true, false, true⟩ with hask
  set wait : ArbIn := ⟨fun _ => false, fun _ => true, true, true⟩ with hwait
  have h₁ : Axi4ArbiterW.machine.Reach (Axi4ArbiterW.machine.run [ask]) :=
    Machine.Reach.tick Machine.Reach.reset
      ⟨fun p hp => (by cases hp), fun p _ => rfl, fun h => by cases h⟩
  have h₂ : Axi4ArbiterW.machine.Reach (Axi4ArbiterW.machine.run [ask, wait]) := by
    refine Machine.Reach.tick h₁ ⟨fun p hp => ?_, fun p hp => (by cases hp),
      fun _ => ⟨.s0, by decide⟩⟩
    cases p <;> exact absurd hp (by decide)
  exact ⟨_, _, ask, h₂, ⟨fun p hp => absurd hp (by cases p <;> decide),
    fun p _ => by cases p <;> decide,
    fun h => by cases h⟩, fun q => by cases q <;> decide, rfl, rfl, by decide, by decide, by decide⟩

end NanoCpu
