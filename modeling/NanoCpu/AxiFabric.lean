/-
**The bus of two masters** (`rtl/fabric/axi4_arbiter.v`, `axi4_mux_r.v`, `axi4_mux_w.v`,
`axi4_buf_r.v`, `axi4_buf_w.v`).

Behind each arbiter the channels of the granted port are put on one bus, and a register slice stands
between this bus and the slave.  An address goes through one slot of the slice and its responses
come back through another, so the response that the granted port takes may be one cycle older than
what the slave does, and the grant must not have moved on.  The reads and the writes are two such
paths; the path of the writes has a third slot for the data.

Beside a path runs a log of the addresses that it has accepted, with their ports, of those that the
slave has accepted, and of the responses that the slave has given and the masters have got.  The
masters have one request at a time, and hold it until it is accepted; the slave gives the responses
of a request after it has accepted it, and of each request once.

Main definitions:

* `AxiSlot` — a slot of a register slice, with `hds_buf` without the bypass;
* `AxiPath`, `AxiPath.next` — an address channel and its response channel with arbiter and slice;
* `PathLog`, `PathLog.Allows` — the log, and the promises of the masters and the slave;
* `AxiPath.Logged` — what the log says of the path;
* `AxiWrite`, `WriteLog`, `AxiWrite.Orders` — the path of the writes with its data.

Main results:

* `AxiPath.Logged.next`, `AxiWrite.Orders.next` — one cycle keeps the logs in step with the circuit;
* `Axi4Arbiter.routes` — every response goes to the port that has asked.
-/

import NanoCpu.AxiArbiter

set_option relaxedAutoImplicit false
set_option autoImplicit false

namespace NanoCpu

/-! ### The slots of the slices -/

/-- `hds_buf` with `BYPASS` zero, and the register behind it. -/
structure AxiSlot (α : Type*) where
  buf : HdsBuf
  dat : α

namespace AxiSlot

variable {α : Type*}

def reset (dat : α) : AxiSlot α := ⟨⟨false⟩, dat⟩

/-- `AREADY`. -/
def aready (b : AxiSlot α) : Bool := !b.buf.pending

/-- `BVALID`. -/
def bvalid (b : AxiSlot α) : Bool := b.buf.pending

def next (b : AxiSlot α) (avalid : Bool) (d : α) (bready : Bool) : AxiSlot α :=
  let push := avalid && b.aready
  let pop := b.bvalid && bready
  ⟨⟨ldff (push || pop) (push || !pop) b.buf.pending⟩, ldff push d b.dat⟩

/-- What is in the slot. -/
def contents (b : AxiSlot α) : List α := if b.bvalid then [b.dat] else []

variable {b : AxiSlot α} (avalid : Bool) (d : α) (bready : Bool)

/-- A full slot keeps what it holds until it is taken. -/
theorem next_of_full (h : b.bvalid = true) :
    (b.next avalid d bready).bvalid = !bready ∧ (b.next avalid d bready).dat = b.dat := by
  have h' : b.buf.pending = true := h
  cases bready <;> simp [next, aready, bvalid, h', ldff]

/-- An empty slot takes what it is offered. -/
theorem next_of_empty (h : b.bvalid = false) :
    (b.next avalid d bready).bvalid = avalid ∧
      (avalid = true → (b.next avalid d bready).dat = d) := by
  have h' : b.buf.pending = false := h
  cases avalid <;> simp [next, aready, bvalid, h', ldff]

/-- A slot is a queue of one element: what has gone in is what has come out and what is inside. -/
theorem contents_next (b : AxiSlot α) :
    b.contents ++ (if avalid && b.aready then [d] else []) =
      (if b.bvalid && bready then [b.dat] else []) ++ (b.next avalid d bready).contents := by
  cases hb : b.bvalid with
  | true =>
      obtain ⟨h₁, h₂⟩ := next_of_full avalid d bready hb
      have ha : b.aready = false := congrArg (!·) hb
      rw [contents, contents, hb, ha, h₁, h₂]
      cases bready <;> simp
  | false =>
      obtain ⟨h₁, h₂⟩ := next_of_empty avalid d bready hb
      have ha : b.aready = true := congrArg (!·) hb
      rw [contents, contents, hb, ha, h₁]
      cases avalid with
      | false => simp
      | true => simp [h₂ rfl]

end AxiSlot

/-- An element of a list that may have grown by one. -/
theorem getElem?_append_ite {α : Type*} {l : List α} {c : Bool} {b v : α} {i : ℕ}
    (h : (l ++ if c then [b] else [])[i]? = some v) :
    l[i]? = some v ∨ (c = true ∧ i = l.length ∧ b = v) := by
  rcases Nat.lt_or_ge i l.length with hlt | hge
  · rw [List.getElem?_append_left hlt] at h
    exact Or.inl h
  · rw [List.getElem?_append_right hge] at h
    cases c with
    | false => cases h
    | true =>
        rw [if_pos rfl, List.getElem?_singleton] at h
        split_ifs at h with h0
        exact Or.inr ⟨rfl, by omega, Option.some_inj.1 h⟩

/-! ### A path -/

/-- The arbiter, and the slots of the slice for the address and for the response. -/
structure AxiPath (α ρ : Type*) where
  arb : AxiArb
  req : AxiSlot α
  resp : AxiSlot ρ

/-- The inputs of one cycle: the address channels of the masters and their ready signals for
responses, and what the slave does. -/
structure PathIn (α ρ : Type*) where
  valid : AxiPort → Bool
  addr : AxiPort → α
  ready : AxiPort → Bool
  slaveReady : Bool
  slaveValid : Bool
  slaveResp : ρ

/-- What has been presented, and the addresses and responses that have gone by. -/
structure PathLog (α ρ : Type*) where
  arb : ArbLog
  cur : AxiPort → α
  asked : List (AxiPort × α)
  sent : List α
  given : List ρ
  got : List (AxiPort × ρ)

variable {α ρ ω : Type*}

namespace AxiPath

variable (dflt : AxiPort → Bool) (last : ρ → Bool) (s : AxiPath α ρ) (x : PathIn α ρ)

def reset (a : α) (r : ρ) : AxiPath α ρ := ⟨AxiArb.reset, AxiSlot.reset a, AxiSlot.reset r⟩

/-- What the arbiter sees. -/
def arbIn : ArbIn := ⟨x.valid, x.ready, s.resp.bvalid && last s.resp.dat, s.req.aready⟩

/-- `m_ARVALID`, `m_AWVALID`. -/
def reqValid : Bool := x.valid s.arb.st

/-- `m_ARADDR` and its companions. -/
def reqAddr : α := x.addr s.arb.st

/-- `m_RREADY`, `m_BREADY`. -/
def respReady : Bool := x.ready s.arb.st

/-- The granted port takes its last response. -/
def ends : Bool := s.resp.bvalid && last s.resp.dat && s.respReady x

def next : AxiPath α ρ where
  arb := s.arb.next dflt (s.arbIn last x)
  req := s.req.next (s.reqValid x) (s.reqAddr x) x.slaveReady
  resp := s.resp.next x.slaveValid x.slaveResp (s.respReady x)

end AxiPath

namespace PathLog

variable (last : ρ → Bool) (L : PathLog α ρ) (s : AxiPath α ρ) (x : PathIn α ρ)

def reset (a : α) : PathLog α ρ := ⟨ArbLog.reset, fun _ => a, [], [], [], []⟩

def next : PathLog α ρ where
  arb := L.arb.next s.arb (s.arbIn last x)
  cur := x.addr
  asked := L.asked ++ if s.reqValid x && s.req.aready then [(s.arb.st, s.reqAddr x)] else []
  sent := L.sent ++ if s.req.bvalid && x.slaveReady then [s.req.dat] else []
  given := L.given ++ if x.slaveValid && s.resp.aready then [x.slaveResp] else []
  got := L.got ++ if s.resp.bvalid && s.respReady x then [(s.arb.st, s.resp.dat)] else []

/-- How many requests have been answered to the end. -/
def done : ℕ := (L.got.map Prod.snd).countP last

/-- The masters hold a request until it is accepted and have one at a time; the slave answers each
request that it has accepted once. -/
structure Allows : Prop where
  hold : ∀ p, L.arb.held p = true → x.valid p = true ∧ x.addr p = L.cur p
  one : ∀ p, x.valid p = true → L.arb.out p = false
  answer : x.slaveValid = true → L.given.countP last < L.sent.length

end PathLog

namespace AxiPath

/-- A path with its log. -/
def machine (dflt : AxiPort → Bool) (last : ρ → Bool) (a : α) (r : ρ) :
    Machine (AxiPath α ρ × PathLog α ρ) (PathIn α ρ) where
  reset := (reset a r, PathLog.reset a)
  allowed q x := q.2.Allows last x
  next q x := (q.1.next dflt last x, q.2.next last q.1 x)

/-- Addresses and responses go through the slice in order; a request is outstanding exactly while
the last address has not been answered, and it is that of the granted port; a response that waits
belongs to an address that the slave has accepted; and all responses went to the ports that had
asked. -/
structure Logged (last : ρ → Bool) (s : AxiPath α ρ) (L : PathLog α ρ) : Prop where
  keeps : s.arb.Keeps L.arb
  reqs : L.asked.map Prod.snd = L.sent ++ s.req.contents
  resps : L.given = L.got.map Prod.snd ++ s.resp.contents
  count : L.asked.length = L.done last + if L.arb.out s.arb.st then 1 else 0
  owner : L.arb.out s.arb.st = true → ∃ a, L.asked[L.done last]? = some (s.arb.st, a)
  due : s.resp.bvalid = true → L.done last < L.sent.length
  routed : ∀ i p r, L.got[i]? = some (p, r) →
    ∃ a, L.asked[((L.got.take i).map Prod.snd).countP last]? = some (p, a)

variable {dflt : AxiPort → Bool} {last : ρ → Bool} {s : AxiPath α ρ} {L : PathLog α ρ}
  {x : PathIn α ρ} {a : α} {r : ρ}

theorem logged_reset (a : α) (r : ρ) : (reset a r).Logged last (PathLog.reset a) where
  keeps p h := by cases h
  reqs := rfl
  resps := rfl
  count := rfl
  owner h := by cases h
  due h := by cases h
  routed i p b h := by cases h

/-! ### One cycle of a path -/

/-- The slave has accepted no more than was asked. -/
theorem Logged.sent_le (h : s.Logged last L) : L.sent.length ≤ L.asked.length := by
  have := congrArg List.length h.reqs
  rw [List.length_map, List.length_append] at this
  omega

/-- A response that waits is one for the granted port. -/
theorem Logged.out_of_resp (h : s.Logged last L) (hr : s.resp.bvalid = true) :
    L.arb.out s.arb.st = true := by
  have h₁ := h.due hr
  have h₂ := h.sent_le
  have h₃ := h.count
  by_contra hne
  rw [if_neg hne] at h₃
  omega

/-- A request that is presented is the only one. -/
theorem Logged.resp_of_valid (h : s.Logged last L) (hx : L.Allows last x)
    (hv : s.reqValid x = true) : L.arb.out s.arb.st = false ∧ s.resp.bvalid = false := by
  have ho := hx.one _ hv
  refine ⟨ho, ?_⟩
  by_contra hne
  rw [h.out_of_resp (Bool.eq_true_of_not_eq_false hne)] at ho
  cases ho

/-- The last response is taken. -/
theorem pendingClr_eq : s.arb.pendingClr (s.arbIn last x) s.arb.st =
    (s.resp.bvalid && last s.resp.dat && s.respReady x) := by
  simp only [AxiArb.pendingClr, decide_true, Bool.true_and, arbIn, respReady]

/-- While a request of the granted port is presented or outstanding and its last response is not
taken, the grant stays. -/
theorem Logged.st_next (h : s.Logged last L)
    (hb : (s.reqValid x || L.arb.out s.arb.st) = true)
    (hc : (s.resp.bvalid && last s.resp.dat && s.respReady x) = false) :
    (s.next dflt last x).arb.st = s.arb.st :=
  h.keeps.st_next hb (Or.inr (pendingClr_eq.trans hc))

/-- What is outstanding after the cycle. -/
theorem Logged.out_next (h : s.Logged last L) :
    (L.next last s x).arb.out (s.next dflt last x).arb.st =
      ((s.reqValid x && s.req.aready) ||
        (L.arb.out s.arb.st && !(s.resp.bvalid && last s.resp.dat && s.respReady x))) := by
  have hst : (L.next last s x).arb.out s.arb.st = ((s.reqValid x && s.req.aready) ||
      (L.arb.out s.arb.st && !(s.resp.bvalid && last s.resp.dat && s.respReady x))) := by
    change (ArbLog.accepted s.arb (s.arbIn last x) s.arb.st ||
      (L.arb.out s.arb.st && !s.arb.pendingClr (s.arbIn last x) s.arb.st)) = _
    rw [pendingClr_eq]
    simp only [ArbLog.accepted, decide_true, Bool.true_and, arbIn, reqValid]
  have hk : (s.next dflt last x).arb.Keeps (L.next last s x).arb := h.keeps.next
  rw [← hst]
  rcases s.arb.st.eq_or_eq_other (s.next dflt last x).arb.st with he | he
  · rw [he]
  · -- the grant has moved: nothing is outstanding
    have h₁ : (L.next last s x).arb.out s.arb.st = false := by
      by_contra hne
      have := (hk _ (Bool.eq_true_of_not_eq_false hne)).1
      rw [he] at this
      exact s.arb.st.other_ne this
    have h₂ : L.arb.out s.arb.st.other = false := by
      by_contra hne
      exact s.arb.st.other_ne (h.keeps _ (Bool.eq_true_of_not_eq_false hne)).1.symm
    rw [h₁, he]
    change (ArbLog.accepted s.arb (s.arbIn last x) s.arb.st.other ||
      (L.arb.out s.arb.st.other && _)) = _
    rw [AxiArb.accepted_of_ne s.arb.st.other_ne.symm, h₂]
    rfl

/-- The grant after the cycle is that of before if something is outstanding then. -/
theorem Logged.st_of_out (h : s.Logged last L)
    (ho : (L.next last s x).arb.out (s.next dflt last x).arb.st = true) :
    (s.next dflt last x).arb.st = s.arb.st := by
  rw [h.out_next] at ho
  have hk : (s.next dflt last x).arb.Keeps (L.next last s x).arb := h.keeps.next
  refine (hk s.arb.st ?_).1
  change (ArbLog.accepted s.arb (s.arbIn last x) s.arb.st ||
    (L.arb.out s.arb.st && !s.arb.pendingClr (s.arbIn last x) s.arb.st)) = true
  rw [pendingClr_eq]
  simpa only [ArbLog.accepted, decide_true, Bool.true_and, arbIn, reqValid] using ho

theorem done_next : (L.next last s x).done last = L.done last +
    if s.resp.bvalid && last s.resp.dat && s.respReady x then 1 else 0 := by
  change ((L.got ++ _).map Prod.snd).countP last = _
  rw [List.map_append, List.countP_append, PathLog.done]
  congr 1
  cases s.resp.bvalid <;> cases s.respReady x <;> cases hl : last s.resp.dat <;> simp [hl]

/-- An address is accepted when nothing is outstanding. -/
theorem Logged.of_accepted (h : s.Logged last L) (hx : L.Allows last x)
    (hv : (s.reqValid x && s.req.aready) = true) :
    L.arb.out s.arb.st = false ∧ s.resp.bvalid = false :=
  h.resp_of_valid hx (Bool.and_eq_true_iff.1 hv).1

/-- What has been asked for keeps its number. -/
theorem asked_next {k : ℕ} {q : AxiPort × α} (hk : L.asked[k]? = some q) :
    (L.next last s x).asked[k]? = some q := by
  change (L.asked ++ _)[k]? = _
  rw [List.getElem?_append_left (List.getElem?_eq_some_iff.1 hk).1, hk]

/-- The requests that are outstanding. -/
theorem Logged.count_next (h : s.Logged last L) (hx : L.Allows last x) :
    (L.next last s x).asked.length = (L.next last s x).done last +
      if (L.next last s x).arb.out (s.next dflt last x).arb.st then 1 else 0 := by
  rw [h.out_next, done_next]
  change (L.asked ++ _).length = _
  rw [List.length_append, h.count]
  by_cases hv : (s.reqValid x && s.req.aready) = true
  · obtain ⟨h₁, h₂⟩ := h.of_accepted hx hv
    simp [hv, h₁, h₂]
  · rw [if_neg hv, Bool.eq_false_of_not_eq_true hv, Bool.false_or]
    cases hc : (s.resp.bvalid && last s.resp.dat && s.respReady x) with
    | false => simp
    | true =>
        simp only [Bool.and_eq_true] at hc
        simp [h.out_of_resp hc.1.1]

/-- The last address is that of the granted port. -/
theorem Logged.owner_next (h : s.Logged last L) (hx : L.Allows last x)
    (ho : (L.next last s x).arb.out (s.next dflt last x).arb.st = true) :
    ∃ a, (L.next last s x).asked[(L.next last s x).done last]? = some
    ((s.next dflt last x).arb.st, a) := by
  have hst := h.st_of_out ho
  rw [h.out_next, Bool.or_eq_true] at ho
  rw [hst, done_next]
  rcases ho with hv | ho
  · -- the address has just been accepted
    obtain ⟨h₁, h₂⟩ := h.of_accepted hx hv
    have hlen := h.count
    rw [h₁, if_neg Bool.false_ne_true, Nat.add_zero] at hlen
    refine ⟨s.reqAddr x, ?_⟩
    change (L.asked ++ _)[_]? = _
    rw [h₂, Bool.false_and, Bool.false_and, if_neg Bool.false_ne_true, Nat.add_zero, ← hlen,
      List.getElem?_append_right le_rfl, Nat.sub_self, if_pos hv]
    rfl
  · rw [Bool.and_eq_true, Bool.not_eq_true'] at ho
    obtain ⟨a, ha⟩ := h.owner ho.1
    refine ⟨a, ?_⟩
    rw [ho.2, if_neg Bool.false_ne_true, Nat.add_zero]
    exact asked_next ha

/-- A response that waits. -/
theorem Logged.due_next (h : s.Logged last L) (hx : L.Allows last x)
    (hr : (s.next dflt last x).resp.bvalid = true) :
    (L.next last s x).done last < (L.next last s x).sent.length := by
  have hsent : L.sent.length ≤ (L.next last s x).sent.length := by
    change _ ≤ (L.sent ++ _).length
    rw [List.length_append]
    exact Nat.le_add_right _ _
  refine lt_of_lt_of_le ?_ hsent
  rw [done_next]
  have hr' : (s.resp.next x.slaveValid x.slaveResp (s.respReady x)).bvalid = true := hr
  cases hb : s.resp.bvalid with
  | true =>
      rw [(AxiSlot.next_of_full _ _ _ hb).1, Bool.not_eq_true'] at hr'
      rw [hr', Bool.and_false, if_neg Bool.false_ne_true, Nat.add_zero]
      exact h.due hb
  | false =>
      rw [(AxiSlot.next_of_empty _ _ _ hb).1] at hr'
      have hans := hx.answer hr'
      rw [h.resps, AxiSlot.contents, hb, if_neg Bool.false_ne_true, List.append_nil] at hans
      rw [Bool.false_and, Bool.false_and, if_neg Bool.false_ne_true, Nat.add_zero]
      exact hans

/-- Where the responses went. -/
theorem Logged.routed_next (h : s.Logged last L) {i : ℕ} {p : AxiPort} {r : ρ}
    (hi : (L.next last s x).got[i]? = some (p, r)) :
    ∃ a, (L.next last s x).asked[(((L.next last s x).got.take i).map Prod.snd).countP last]? = some
    (p, a) := by
  change (L.got ++ _)[i]? = _ at hi
  change ∃ a, (L.next last s x).asked[(((L.got ++ _).take i).map Prod.snd).countP last]? = _
  rcases getElem?_append_ite hi with hi | ⟨hc, rfl, hpr⟩
  · obtain ⟨a, ha⟩ := h.routed i p r hi
    rw [List.take_append_of_le_length (List.getElem?_eq_some_iff.1 hi).1.le]
    exact ⟨a, asked_next ha⟩
  · -- a response for the granted port
    obtain ⟨rfl, rfl⟩ := Prod.mk.inj hpr
    obtain ⟨a, ha⟩ := h.owner (h.out_of_resp (Bool.and_eq_true_iff.1 hc).1)
    rw [List.take_left]
    exact ⟨a, asked_next ha⟩

/-- **One cycle** keeps the log in step with the path. -/
theorem Logged.next (h : s.Logged last L) (hx : L.Allows last x) :
    (s.next dflt last x).Logged last (L.next last s x) where
  keeps := h.keeps.next
  reqs := by
    change (L.asked ++ _).map Prod.snd = (L.sent ++ _) ++ (s.req.next _ _ _).contents
    rw [List.append_assoc, ← s.req.contents_next _ _ _, ← List.append_assoc, ← h.reqs,
      List.map_append]
    congr 1
    split_ifs <;> rfl
  resps := by
    change L.given ++ _ = (L.got ++ _).map Prod.snd ++ (s.resp.next _ _ _).contents
    rw [List.map_append, List.append_assoc, h.resps, List.append_assoc, s.resp.contents_next]
    congr 2
    split_ifs <;> rfl
  count := h.count_next hx
  owner := h.owner_next hx
  due := h.due_next hx
  routed _ _ _ := h.routed_next

theorem logged_of_reach (h : (machine dflt last a r).Reach (s, L)) : s.Logged last L := by
  refine Machine.Reach.inv (P := fun q => q.1.Logged last q.2) (logged_reset a r) ?_ h
  rintro ⟨s, L⟩ x hi hx
  exact hi.next hx

/-! ### What a path does -/

/-- Every address reaches the slave, and every response reaches a master, once and in order; the
responses go to the port whose address they answer; the grant stays from the first cycle of a
request on the bus to its last response; and an address that is presented stays, on the bus and at
the slave, until it is accepted. -/
structure Routes (dflt : AxiPort → Bool) (last : ρ → Bool) (s : AxiPath α ρ) (L : PathLog α ρ) :
    Prop where
  requests : L.asked.map Prod.snd = L.sent ++ s.req.contents
  responses : L.given = L.got.map Prod.snd ++ s.resp.contents
  routed : ∀ i p r, L.got[i]? = some (p, r) →
    ∃ a, L.asked[((L.got.take i).map Prod.snd).countP last]? = some (p, a)
  granted : ∀ x, L.Allows last x → (s.reqValid x || L.arb.out s.arb.st) = true →
    (s.resp.bvalid && last s.resp.dat && s.respReady x) = false →
    (s.next dflt last x).arb.st = s.arb.st
  held : ∀ x y, L.Allows last x → (L.next last s x).Allows last y → s.reqValid x = true →
    s.req.aready = false → (s.next dflt last x).reqValid y = true ∧
      (s.next dflt last x).reqAddr y = s.reqAddr x
  heldSlave : ∀ x : PathIn α ρ, s.req.bvalid = true → x.slaveReady = false →
    (s.next dflt last x).req.bvalid = true ∧ (s.next dflt last x).req.dat = s.req.dat

theorem Logged.to_routes (h : s.Logged last L) : s.Routes dflt last L := by
  refine ⟨h.reqs, h.resps, h.routed, fun x _ hb hc => h.st_next hb hc, fun x y hx hy hv ha => ?_,
    fun x hb hr => ?_⟩
  · have hst : (s.next dflt last x).arb.st = s.arb.st := by
      refine h.st_next (by rw [hv, Bool.true_or]) ?_
      rw [(h.resp_of_valid hx hv).2, Bool.false_and, Bool.false_and]
    have hheld : (L.next last s x).arb.held s.arb.st = true := by
      change (x.valid s.arb.st && !ArbLog.accepted s.arb (s.arbIn last x) s.arb.st) = true
      have hv' : x.valid s.arb.st = true := hv
      simp [ArbLog.accepted, arbIn, ha, hv']
    obtain ⟨h₁, h₂⟩ := hy.hold _ hheld
    rw [reqValid, reqAddr, hst]
    exact ⟨h₁, h₂⟩
  · obtain ⟨h₁, h₂⟩ := AxiSlot.next_of_full (s.reqValid x) (s.reqAddr x) x.slaveReady hb
    exact ⟨h₁.trans (by rw [hr]; rfl), h₂⟩

end AxiPath

/-! ### The path of the writes -/

/-- The path with the slot for the data. -/
structure AxiWrite (α ω ρ : Type*) where
  path : AxiPath α ρ
  w : AxiSlot ω

structure WriteIn (α ω ρ : Type*) extends PathIn α ρ where
  wvalid : AxiPort → Bool
  wdat : AxiPort → ω
  slaveWReady : Bool

/-- The beats that have been accepted, with their ports, those that the slave has accepted, and for
each port whether its request has all its data. -/
structure WriteLog (α ω ρ : Type*) where
  path : PathLog α ρ
  ws : List (AxiPort × ω)
  wsent : List ω
  wdone : AxiPort → Bool

namespace AxiWrite

variable (dflt : AxiPort → Bool) (last : ρ → Bool) (wlast : ω → Bool) (s : AxiWrite α ω ρ)
  (x : WriteIn α ω ρ)

/-- `m_WVALID`. -/
def wValid : Bool := x.wvalid s.path.arb.st

/-- `m_WDATA` and its companions. -/
def wDat : ω := x.wdat s.path.arb.st

def next : AxiWrite α ω ρ where
  path := s.path.next dflt last x.toPathIn
  w := s.w.next (s.wValid x) (s.wDat x) x.slaveWReady

end AxiWrite

namespace WriteLog

variable (last : ρ → Bool) (wlast : ω → Bool) (L : WriteLog α ω ρ) (s : AxiWrite α ω ρ)
  (x : WriteIn α ω ρ)

def next : WriteLog α ω ρ where
  path := L.path.next last s.path x.toPathIn
  ws := L.ws ++ if s.wValid x && s.w.aready then [(s.path.arb.st, s.wDat x)] else []
  wsent := L.wsent ++ if s.w.bvalid && x.slaveWReady then [s.w.dat] else []
  wdone := fun p =>
    (L.wdone p || (decide (s.path.arb.st = p) && s.wValid x && s.w.aready && wlast (s.wDat x))) &&
      !s.path.arb.pendingClr (s.path.arbIn last x.toPathIn) p

/-- Moreover a master sends data only for its request, and no more than that; and the slave answers
a request after it has got all its data. -/
structure Allows : Prop extends L.path.Allows last x.toPathIn where
  data : ∀ p, x.wvalid p = true → (x.valid p || L.path.arb.out p) = true ∧ L.wdone p = false
  answerData : x.slaveValid = true → L.path.given.countP last < L.wsent.countP wlast

end WriteLog

namespace AxiWrite

/-- The path of the writes with its log. -/
def machine (dflt : AxiPort → Bool) (last : ρ → Bool) (wlast : ω → Bool) (a : α) (w : ω) (r : ρ) :
    Machine (AxiWrite α ω ρ × WriteLog α ω ρ) (WriteIn α ω ρ) where
  reset := (⟨AxiPath.reset a r, AxiSlot.reset w⟩, ⟨PathLog.reset a, [], [], fun _ => false⟩)
  allowed q x := q.2.Allows last wlast x
  next q x := (q.1.next dflt last x, q.2.next last wlast q.1 x)

/-- The data go through the slice in order.  A beat behind `k` complete bursts belongs to request
`k`: to the port of address `k`, or to the granted port if it still presents that address. -/
structure Orders (last : ρ → Bool) (wlast : ω → Bool) (s : AxiWrite α ω ρ) (L : WriteLog α ω ρ) :
    Prop where
  data : L.ws.map Prod.snd = L.wsent ++ s.w.contents
  count : (L.ws.map Prod.snd).countP wlast =
    L.path.done last + if L.wdone s.path.arb.st then 1 else 0
  own : ∀ p, L.wdone p = true →
    s.path.arb.st = p ∧ (L.path.arb.held p = true ∨ L.path.arb.out p = true)
  due : s.path.resp.bvalid = true → L.path.done last < L.wsent.countP wlast
  burst : ∀ i p b, L.ws[i]? = some (p, b) →
    (∃ a, L.path.asked[((L.ws.take i).map Prod.snd).countP wlast]? = some (p, a)) ∨
      (((L.ws.take i).map Prod.snd).countP wlast = L.path.asked.length ∧ s.path.arb.st = p ∧
        L.path.arb.held p = true)

variable {dflt : AxiPort → Bool} {last : ρ → Bool} {wlast : ω → Bool} {s : AxiWrite α ω ρ}
  {L : WriteLog α ω ρ} {x : WriteIn α ω ρ} {a : α} {w : ω} {r : ρ}

/-- While data are accepted the last response is not taken. -/
theorem Orders.resp_of_wValid (h : s.Orders last wlast L) (hx : L.Allows last wlast x)
    (hw : s.wValid x = true) : s.path.resp.bvalid = false := by
  by_contra hne
  have h₁ := h.due (Bool.eq_true_of_not_eq_false hne)
  have h₂ := congrArg (List.countP wlast) h.data
  rw [List.countP_append, h.count, (hx.data _ hw).2, if_neg Bool.false_ne_true] at h₂
  omega

/-- The granted port stays granted from its request to its last response. -/
theorem st_of_request (hl : s.path.Logged last L.path)
    (hx : L.Allows last wlast x) {p : AxiPort}
    (ho : L.path.arb.held p = true ∨ L.path.arb.out p = true ∨ x.valid p = true)
    (hp : s.path.arb.st = p)
    (hc : (s.path.resp.bvalid && last s.path.resp.dat && s.path.respReady x.toPathIn) = false) :
    (s.next dflt last x).path.arb.st = p := by
  subst hp
  refine hl.st_next ?_ hc
  rcases ho with ho | ho | ho
  · have : s.path.reqValid x.toPathIn = true := (hx.hold _ ho).1
    rw [this, Bool.true_or]
  · rw [ho, Bool.or_true]
  · have : s.path.reqValid x.toPathIn = true := ho
    rw [this, Bool.true_or]

/-- When data are accepted, the granted port has a request without all its data, and no last
response is taken. -/
theorem Orders.accepted (h : s.Orders last wlast L) (hx : L.Allows last wlast x)
    (hw : (s.wValid x && s.w.aready) = true) :
    L.wdone s.path.arb.st = false ∧ (x.valid s.path.arb.st || L.path.arb.out s.path.arb.st) = true ∧
      s.path.ends last x.toPathIn = false := by
  have hv : s.wValid x = true := (Bool.and_eq_true_iff.1 hw).1
  refine ⟨(hx.data _ hv).2, (hx.data _ hv).1, ?_⟩
  rw [AxiPath.ends, h.resp_of_wValid hx hv, Bool.false_and, Bool.false_and]

/-- The ports with all their data after the cycle. -/
theorem wdone_next (p : AxiPort) : (L.next last wlast s x).wdone p =
    ((L.wdone p || (decide (s.path.arb.st = p) && (s.wValid x && s.w.aready) && wlast
      (s.wDat x))) && !(decide (s.path.arb.st = p) && s.path.ends last x.toPathIn)) := by
  change ((L.wdone p || (decide (s.path.arb.st = p) && s.wValid x && s.w.aready && _)) && _) = _
  rw [Bool.and_assoc (decide (s.path.arb.st = p))]
  congr 2
  by_cases hp : s.path.arb.st = p
  · subst hp
    rw [AxiPath.pendingClr_eq, decide_eq_true rfl, Bool.true_and, AxiPath.ends]
  · rw [AxiArb.pendingClr_of_ne hp, decide_eq_false hp, Bool.false_and]

/-- A request of the granted port stays granted until its last response is taken. -/
theorem stays (hl : s.path.Logged last L.path) (hx : L.Allows last wlast x) {p : AxiPort}
    (ho : L.path.arb.held p = true ∨ L.path.arb.out p = true ∨ x.valid p = true)
    (hp : s.path.arb.st = p) (hc : s.path.ends last x.toPathIn = false) :
    (s.next dflt last x).path.arb.st = p ∧
      ((L.path.next last s.path x.toPathIn).arb.held p = true ∨
        (L.path.next last s.path x.toPathIn).arb.out p = true) := by
  refine ⟨st_of_request hl hx ho hp hc, ?_⟩
  have hv : x.valid p = true ∨ L.path.arb.out p = true := by
    rcases ho with ho | ho | ho
    · exact Or.inl (hx.hold _ ho).1
    · exact Or.inr ho
    · exact Or.inl ho
  rcases hv with hv | hv
  · exact AxiArb.held_or_out_next (x := s.path.arbIn last x.toPathIn) hv
  · right
    subst hp
    change (ArbLog.accepted _ _ _ || (L.path.arb.out s.path.arb.st && !AxiArb.pendingClr _ _ _)) =
      true
    rw [AxiPath.ends] at hc
    rw [AxiPath.pendingClr_eq, hv, hc]
    simp

theorem stays_of_accepted (h : s.Orders last wlast L) (hl : s.path.Logged last L.path)
    (hx : L.Allows last wlast x) (hw : (s.wValid x && s.w.aready) = true) :
    (s.next dflt last x).path.arb.st = s.path.arb.st ∧
      ((L.path.next last s.path x.toPathIn).arb.held s.path.arb.st = true ∨
        (L.path.next last s.path x.toPathIn).arb.out s.path.arb.st = true) := by
  obtain ⟨-, h₂, h₃⟩ := h.accepted hx hw
  refine stays hl hx ?_ rfl h₃
  rcases Bool.or_eq_true_iff.1 h₂ with h₂ | h₂
  · exact Or.inr (Or.inr h₂)
  · exact Or.inr (Or.inl h₂)

/-- The last response is taken for a request with all its data only. -/
theorem Orders.wdone_of_ends (h : s.Orders last wlast L) (hc : s.path.ends last x.toPathIn = true) :
    L.wdone s.path.arb.st = true := by
  rw [AxiPath.ends, Bool.and_eq_true, Bool.and_eq_true] at hc
  have h₁ := h.due hc.1.1
  have h₂ := congrArg (List.countP wlast) h.data
  rw [List.countP_append, h.count] at h₂
  by_contra hne
  rw [if_neg hne] at h₂
  omega

theorem Orders.data_next (h : s.Orders last wlast L) :
    (L.next last wlast s x).ws.map Prod.snd =
      (L.next last wlast s x).wsent ++ (s.next dflt last x).w.contents := by
  change (L.ws ++ _).map Prod.snd = (L.wsent ++ _) ++ (s.w.next _ _ _).contents
  rw [List.append_assoc, ← s.w.contents_next _ _ _, ← List.append_assoc, ← h.data, List.map_append]
  congr 1
  split_ifs <;> rfl

/-- The complete bursts. -/
theorem Orders.count_next (h : s.Orders last wlast L) (hl : s.path.Logged last L.path)
    (hx : L.Allows last wlast x) :
    ((L.next last wlast s x).ws.map Prod.snd).countP wlast =
    (L.next last wlast s x).path.done last +
      if (L.next last wlast s x).wdone (s.next dflt last x).path.arb.st then 1 else 0 := by
  have hws : ((L.next last wlast s x).ws.map Prod.snd).countP wlast =
    (L.ws.map Prod.snd).countP wlast +
      if (s.wValid x && s.w.aready) && wlast (s.wDat x) then 1 else 0 := by
    change ((L.ws ++ _).map Prod.snd).countP wlast = _
    rw [List.map_append, List.countP_append]
    congr 1
    cases (s.wValid x && s.w.aready) <;> cases hd : wlast (s.wDat x) <;> simp [hd]
  rw [hws, h.count]
  change _ = (L.path.next last s.path x.toPathIn).done last + _
  rw [AxiPath.done_next, ← AxiPath.ends, wdone_next]
  cases hw : (s.wValid x && s.w.aready) with
  | true =>
      obtain ⟨h₁, -, h₃⟩ := h.accepted hx hw
      rw [(stays_of_accepted h hl hx hw).1, h₁, h₃]
      simp
  | false =>
      cases hd : L.wdone s.path.arb.st with
      | true =>
          cases hc : s.path.ends last x.toPathIn with
          | true =>
              by_cases hp : s.path.arb.st = (s.next dflt last x).path.arb.st
              · rw [← hp, hd]
                simp
              · -- the other port has no data
                have : L.wdone (s.next dflt last x).path.arb.st = false := by
                  by_contra hne
                  exact hp (h.own _ (Bool.eq_true_of_not_eq_false hne)).1
                rw [this]
                simp
          | false =>
              rw [(stays hl hx (Or.imp_right Or.inl (h.own _ hd).2) rfl hc).1, hd]
              simp
      | false =>
          have hno : L.wdone (s.next dflt last x).path.arb.st = false := by
            by_contra hne
            have hp := (h.own _ (Bool.eq_true_of_not_eq_false hne)).1
            rw [← hp, hd] at hne
            exact hne rfl
          have hc : s.path.ends last x.toPathIn = false := by
            by_contra hne
            rw [h.wdone_of_ends (Bool.eq_true_of_not_eq_false hne)] at hd
            cases hd
          rw [hno, hc]
          simp

/-- The ports with all their data. -/
theorem Orders.own_next (h : s.Orders last wlast L) (hl : s.path.Logged last L.path)
    (hx : L.Allows last wlast x) (p : AxiPort) (hp : (L.next last wlast s x).wdone p = true) :
    (s.next dflt last x).path.arb.st = p ∧ ((L.next last wlast s x).path.arb.held p = true ∨
      (L.next last wlast s x).path.arb.out p = true) := by
  rw [wdone_next, Bool.and_eq_true, Bool.or_eq_true] at hp
  obtain ⟨hp, hc⟩ := hp
  rcases hp with hp | hp
  · obtain ⟨hst, ho⟩ := h.own p hp
    exact stays hl hx (Or.imp_right Or.inl ho) hst (by simpa [hst] using hc)
  · rw [Bool.and_eq_true, Bool.and_eq_true, decide_eq_true_eq] at hp
    obtain ⟨⟨rfl, hw⟩, -⟩ := hp
    exact stays_of_accepted h hl hx hw

/-- A response that waits. -/
theorem Orders.due_next (h : s.Orders last wlast L) (hl : s.path.Logged last L.path)
    (hx : L.Allows last wlast x) (hr : (s.next dflt last x).path.resp.bvalid = true) :
    (L.next last wlast s x).path.done last < (L.next last wlast s x).wsent.countP wlast := by
  have hsent : L.wsent.countP wlast ≤ (L.next last wlast s x).wsent.countP wlast := by
    change _ ≤ (L.wsent ++ _).countP wlast
    rw [List.countP_append]
    exact Nat.le_add_right _ _
  refine lt_of_lt_of_le ?_ hsent
  change (L.path.next last s.path x.toPathIn).done last < _
  rw [AxiPath.done_next]
  have hr' : (s.path.resp.next x.slaveValid x.slaveResp (s.path.respReady x.toPathIn)).bvalid =
      true := hr
  cases hb : s.path.resp.bvalid with
  | true =>
      rw [(AxiSlot.next_of_full _ _ _ hb).1, Bool.not_eq_true'] at hr'
      rw [hr', Bool.and_false, if_neg Bool.false_ne_true, Nat.add_zero]
      exact h.due hb
  | false =>
      rw [(AxiSlot.next_of_empty _ _ _ hb).1] at hr'
      have hans := hx.answerData hr'
      rw [hl.resps, AxiSlot.contents, hb, if_neg Bool.false_ne_true, List.append_nil] at hans
      rw [Bool.false_and, Bool.false_and, if_neg Bool.false_ne_true, Nat.add_zero]
      exact hans

/-- The next address, if the granted port presents it: it is accepted, or the port holds it. -/
theorem asked_or_held (hl : s.path.Logged last L.path) (hx : L.Allows last wlast x)
    (hv : x.valid s.path.arb.st = true) :
    (∃ a, (L.path.next last s.path x.toPathIn).asked[L.path.asked.length]? =
      some (s.path.arb.st, a)) ∨
      (L.path.asked.length = (L.path.next last s.path x.toPathIn).asked.length ∧
        (s.next dflt last x).path.arb.st = s.path.arb.st ∧
          (L.path.next last s.path x.toPathIn).arb.held s.path.arb.st = true) := by
  have hlen : (L.path.next last s.path x.toPathIn).asked =
    L.path.asked ++ if s.path.reqValid x.toPathIn && s.path.req.aready then
      [(s.path.arb.st, s.path.reqAddr x.toPathIn)] else [] := rfl
  have hv' : s.path.reqValid x.toPathIn = true := hv
  rw [hlen, hv', Bool.true_and]
  cases ha : s.path.req.aready with
  | true =>
      exact Or.inl ⟨_, by rw [if_pos rfl, List.getElem?_append_right le_rfl, Nat.sub_self]; rfl⟩
  | false =>
      refine Or.inr ⟨by simp, ?_, ?_⟩
      · refine (stays hl hx (Or.inr (Or.inr hv)) rfl ?_).1
        rw [AxiPath.ends, (hl.resp_of_valid hx.toAllows hv').2, Bool.false_and, Bool.false_and]
      · change (x.valid s.path.arb.st && !ArbLog.accepted s.path.arb _ s.path.arb.st) = true
        simp [ArbLog.accepted, AxiPath.arbIn, ha, hv]

/-- Whose data they are. -/
theorem Orders.burst_next (h : s.Orders last wlast L) (hl : s.path.Logged last L.path)
    (hx : L.Allows last wlast x) {i : ℕ} {p : AxiPort} {b : ω}
    (hi : (L.next last wlast s x).ws[i]? = some (p, b)) :
    (∃ a, (L.next last wlast s x).path.asked[
        (((L.next last wlast s x).ws.take i).map Prod.snd).countP wlast]? = some (p, a)) ∨
      ((((L.next last wlast s x).ws.take i).map Prod.snd).countP wlast =
        (L.next last wlast s x).path.asked.length ∧ (s.next dflt last x).path.arb.st = p ∧
          (L.next last wlast s x).path.arb.held p = true) := by
  change (L.ws ++ _)[i]? = _ at hi
  change (∃ a, (L.path.next last s.path x.toPathIn).asked[(((L.ws ++ _).take i).map Prod.snd).countP
    wlast]? = _) ∨ (((L.ws ++ _).take i).map Prod.snd).countP wlast =
      (L.path.next last s.path x.toPathIn).asked.length ∧ _ ∧ _
  rcases getElem?_append_ite hi with hi | ⟨hc, rfl, hpr⟩
  · rw [List.take_append_of_le_length (List.getElem?_eq_some_iff.1 hi).1.le]
    rcases h.burst i p b hi with ⟨a, ha⟩ | ⟨hk, rfl, hh⟩
    · exact Or.inl ⟨a, AxiPath.asked_next ha⟩
    · rw [hk]
      exact asked_or_held hl hx (hx.hold _ hh).1
  · -- data of the granted port
    obtain ⟨rfl, -⟩ := Prod.mk.inj hpr
    obtain ⟨h₁, h₂, -⟩ := h.accepted hx hc
    have hcount := h.count
    rw [h₁, if_neg Bool.false_ne_true, Nat.add_zero] at hcount
    rw [List.take_left, hcount]
    cases ho : L.path.arb.out s.path.arb.st with
    | true =>
        obtain ⟨a, ha⟩ := hl.owner ho
        exact Or.inl ⟨a, AxiPath.asked_next ha⟩
    | false =>
        rw [ho, Bool.or_false] at h₂
        have := hl.count
        rw [ho, if_neg Bool.false_ne_true, Nat.add_zero] at this
        rw [← this]
        exact asked_or_held hl hx h₂

/-- **One cycle** keeps the data in step with the addresses. -/
theorem Orders.next (h : s.Orders last wlast L) (hl : s.path.Logged last L.path)
    (hx : L.Allows last wlast x) :
    (s.next dflt last x).Orders last wlast (L.next last wlast s x) where
  data := h.data_next
  count := h.count_next hl hx
  own := h.own_next hl hx
  due := h.due_next hl hx
  burst _ _ _ := h.burst_next hl hx

theorem orders_of_reach (h : (machine dflt last wlast a w r).Reach (s, L)) :
    s.path.Logged last L.path ∧ s.Orders last wlast L := by
  refine Machine.Reach.inv
    (P := fun q => q.1.path.Logged last q.2.path ∧ q.1.Orders last wlast q.2) ?_ ?_ h
  · refine ⟨AxiPath.logged_reset a r, rfl, rfl, ?_, ?_, ?_⟩
    · intro p hp
      cases hp
    · intro hp
      cases hp
    · intro i p b hi
      cases hi
  · rintro ⟨s, L⟩ x ⟨hl, ho⟩ hx
    exact ⟨hl.next hx.toAllows, ho.next hl hx⟩

end AxiWrite

/-! ### The two paths -/

/-- The path of the reads: `rlast` is `RLAST`. -/
abbrev Axi4Arbiter.reads (rlast : ρ → Bool) (a : α) (r : ρ) :=
  AxiPath.machine (fun _ => false) rlast a r

/-- The path of the writes: `wlast` is `WLAST`, and every response is a last one. -/
abbrev Axi4Arbiter.writes (wlast : ω → Bool) (a : α) (w : ω) (r : ρ) :=
  AxiWrite.machine (fun p => decide (p = .s1)) (fun _ => true) wlast a w r

/-- **Every response goes to the port that has asked.**  Both paths route; and the data of the
writes go to the slave once and in order, where those behind `k` complete bursts are of the port
whose address is the one with number `k`, or which still presents it and is granted. -/
theorem Axi4Arbiter.routes {β γ : Type*} (rlast : ρ → Bool) (wlast : ω → Bool) (a : α)
    (r : ρ) (a' : β) (w : ω) (b : γ) :
    (∀ s L, (reads rlast a r).Reach (s, L) → s.Routes (fun _ => false) rlast L) ∧
    ∀ s L, (writes wlast a' w b).Reach (s, L) →
      s.path.Routes (fun p => decide (p = .s1)) (fun _ => true) L.path ∧
      L.ws.map Prod.snd = L.wsent ++ s.w.contents ∧
      ∀ i p d, L.ws[i]? = some (p, d) →
        (∃ a, L.path.asked[((L.ws.take i).map Prod.snd).countP wlast]? = some (p, a)) ∨
          (((L.ws.take i).map Prod.snd).countP wlast = L.path.asked.length ∧ s.path.arb.st = p ∧
            L.path.arb.held p = true) := by
  refine ⟨fun s L h => (AxiPath.logged_of_reach h).to_routes, fun s L h => ?_⟩
  obtain ⟨hl, ho⟩ := AxiWrite.orders_of_reach h
  exact ⟨hl.to_routes, ho.data, ho.burst⟩

/-! ### Two masters at once -/

/-- Both masters ask from the first cycle on, for two beats each, and take what they get; the slave
accepts every address, and answers as soon as it may. -/
def bothRead (L : PathLog ℕ Bool) : PathIn ℕ Bool where
  valid p := !(L.asked.map Prod.fst).contains p
  addr p := if p = .s0 then 8 else 16
  ready _ := true
  slaveReady := true
  slaveValid := decide (L.given.countP id < L.sent.length)
  slaveResp := decide (L.given.length % 2 = 1)

/-- The same with two beats of data for each address, and one response. -/
def bothWrite (L : WriteLog ℕ Bool Bool) : WriteIn ℕ Bool Bool where
  valid p := !(L.path.asked.map Prod.fst).contains p
  addr p := if p = .s0 then 8 else 16
  ready _ := true
  slaveReady := true
  slaveValid := decide (L.path.given.length < L.wsent.countP id)
  slaveResp := true
  wvalid p := decide ((L.ws.map Prod.fst).count p < 2)
  wdat p := decide ((L.ws.map Prod.fst).count p = 1)
  slaveWReady := true

def readBoth : ℕ → AxiPath ℕ Bool × PathLog ℕ Bool
  | 0 => (Axi4Arbiter.reads id 0 false).reset
  | k + 1 => (Axi4Arbiter.reads id 0 false).next (readBoth k) (bothRead (readBoth k).2)

def writeBoth : ℕ → AxiWrite ℕ Bool Bool × WriteLog ℕ Bool Bool
  | 0 => (Axi4Arbiter.writes id 0 false false).reset
  | k + 1 => (Axi4Arbiter.writes id 0 false false).next (writeBoth k) (bothWrite (writeBoth k).2)

instance (P : AxiPort → Prop) [DecidablePred P] : Decidable (∀ p, P p) :=
  decidable_of_iff (P .s0 ∧ P .s1) ⟨fun h p => by cases p; exacts [h.1, h.2], fun h => ⟨h _, h _⟩⟩

instance (L : PathLog ℕ Bool) (x : PathIn ℕ Bool) : Decidable (L.Allows id x) :=
  decidable_of_iff ((∀ p, L.arb.held p = true → x.valid p = true ∧ x.addr p = L.cur p) ∧
    (∀ p, x.valid p = true → L.arb.out p = false) ∧
      (x.slaveValid = true → L.given.countP id < L.sent.length))
    ⟨fun h => ⟨h.1, h.2.1, h.2.2⟩, fun h => ⟨h.hold, h.one, h.answer⟩⟩

instance (L : WriteLog ℕ Bool Bool) (x : WriteIn ℕ Bool Bool) :
    Decidable (L.Allows (fun _ => true) id x) :=
  decidable_of_iff (((∀ p, L.path.arb.held p = true → x.valid p = true ∧ x.addr p = L.path.cur p) ∧
    (∀ p, x.valid p = true → L.path.arb.out p = false) ∧
      (x.slaveValid = true → L.path.given.countP (fun _ => true) < L.path.sent.length)) ∧
    (∀ p, x.wvalid p = true → (x.valid p || L.path.arb.out p) = true ∧ L.wdone p = false) ∧
      (x.slaveValid = true → L.path.given.countP (fun _ => true) < L.wsent.countP id))
    ⟨fun h => ⟨⟨h.1.1, h.1.2.1, h.1.2.2⟩, h.2.1, h.2.2⟩,
      fun h => ⟨⟨h.hold, h.one, h.answer⟩, h.data, h.answerData⟩⟩

theorem reach_readBoth {k : ℕ} (h : ∀ j < k, (readBoth j).2.Allows id (bothRead (readBoth j).2)) :
    (Axi4Arbiter.reads id 0 false).Reach (readBoth k) := by
  induction k with
  | zero => exact Machine.Reach.reset
  | succ k ih => exact Machine.Reach.tick (ih fun j hj => h j (by omega)) (h k (Nat.lt_succ_self k))

theorem reach_writeBoth {k : ℕ}
    (h : ∀ j < k, (writeBoth j).2.Allows (fun _ => true) id (bothWrite (writeBoth j).2)) :
    (Axi4Arbiter.writes id 0 false false).Reach (writeBoth k) := by
  induction k with
  | zero => exact Machine.Reach.reset
  | succ k ih => exact Machine.Reach.tick (ih fun j hj => h j (by omega)) (h k (Nat.lt_succ_self k))

/-- Port 0 gets its two beats, and then port 1 its own; and so do the data of the writes go to the
slave. -/
theorem Axi4Arbiter.routes_both :
    let q := readBoth 13
    let v := writeBoth 12
    (q.2.got = [(.s0, false), (.s0, true), (.s1, false), (.s1, true)] ∧
      v.2.ws = [(.s0, false), (.s0, true), (.s1, false), (.s1, true)] ∧
        v.2.path.got = [(.s0, true), (.s1, true)]) ∧
    q.1.Routes (fun _ => false) id q.2 ∧ (∃ a, v.2.path.asked[1]? = some (.s1, a)) := by
  intro q v
  have hroutes := routes id id 0 false 0 false false
  have hr := hroutes.1 q.1 q.2 (reach_readBoth (k := 13) (by decide +kernel))
  obtain ⟨-, -, hw⟩ := hroutes.2 v.1 v.2 (reach_writeBoth (k := 12) (by decide +kernel))
  have hws : v.2.ws = [(.s0, false), (.s0, true), (.s1, false), (.s1, true)] := by decide +kernel
  have hlen : v.2.path.asked.length = 2 := by decide +kernel
  refine ⟨⟨by decide +kernel, hws, by decide +kernel⟩, hr, ?_⟩
  -- the third word belongs to the second address
  have h := hw 2 .s1 false (by rw [hws]; rfl)
  rw [hws, hlen] at h
  exact h.resolve_right fun hne => absurd hne.1 (by decide)

end NanoCpu
