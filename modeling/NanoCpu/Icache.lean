/-
**The I-cache** (`rtl/core/icache.v`, `rtl/general/align_r.v`, `pmux.v`, `rtl/lib/mRAM_s_s_be.v`).

A set-associative cache with lines of 64 bytes, from which windows of 16 bytes are fetched.  The
tags and the windows of the addressed set are read in the first stage and compared in the second;
what is fetched is at the output in the third.  A miss, an uncached fetch and the invalidation of a
set are done by a state machine that stalls the pipeline meanwhile.  A refill reads eight beats of
eight bytes, and an uncached fetch four times four bytes, each with an address of its own.  The
geometry is a parameter: there are `n` ways and `2 ^ S` sets.

Main definitions:

* `IcState` — the states of the state machine;
* `IcIn` — the inputs of one cycle;
* `Icache`, `Icache.next` — the cache;
* `Icache.stallReq`, `Icache.icinvReady`, `Icache.axiOut` — its outputs.
-/

import NanoCpu.DcacheBus

set_option relaxedAutoImplicit false
set_option autoImplicit false

namespace NanoCpu

inductive IcState
  | boot | idle | replace | refill | invalidate | reload | uncachedBoot | uncachedRead
  deriving DecidableEq, Repr

/-- The inputs of one cycle: whether the queue behind the cache takes a window, the page offset for
the first stage, what the second stage is told about its request, the invalidation of a set, the
bus, and what a payload RAM shows after a write. -/
structure IcIn (n : ℕ) where
  iqReady : Bool
  vpo : BitVec 13
  ppn : Ppn
  uncached : Bool
  kill : Bool
  invWe : Bool
  invLine : ℕ
  axi : AxiIn
  unc : Fin n → ℕ → Byte

/-- The registers and the RAMs.  An address of a payload RAM is a set and a window of the line. -/
structure Icache (n : ℕ) where
  state : IcState
  freeWay : Fin n → Bool
  bootCnt : ℕ
  refillCnt : ℕ
  uncachedCnt : ℕ
  tagV : Fin n → ℕ → ℕ × Bool
  pay : Fin n → ℕ × ℕ → ℕ → Byte
  payReAddr : ℕ × ℕ
  payQ : Fin n → ℕ → Byte
  s1oTagV : Fin n → ℕ × Bool
  s1oValid : Bool
  s1oVpo : BitVec 13
  s1oOpInvLine : ℕ
  s1oLineAddr : ℕ
  s1oPayloadAddr : ℕ × ℕ
  s2oLineAddr : ℕ
  s2oValid : Bool
  s2oPaddr : Word
  s2oFsmFreeWay : Fin n → Bool
  s2oUncachedInflight : Bool
  s2oMissInflight : Bool
  ins : ℕ → Byte
  arValid : Bool
  arAddr : ℕ

namespace Icache

variable {n : ℕ} [NeZero n]

/-- After reset the contents of the RAMs are arbitrary. -/
def reset (tagV : Fin n → ℕ → ℕ × Bool) (pay : Fin n → ℕ × ℕ → ℕ → Byte) : Icache n where
  state := .boot
  freeWay := fun w => decide (w = 0)
  bootCnt := 0
  refillCnt := 0
  uncachedCnt := 0
  tagV := tagV
  pay := pay
  payReAddr := (0, 0)
  payQ := fun _ _ => 0
  s1oTagV := fun _ => (0, false)
  s1oValid := false
  s1oVpo := 0
  s1oOpInvLine := 0
  s1oLineAddr := 0
  s1oPayloadAddr := (0, 0)
  s2oLineAddr := 0
  s2oValid := false
  s2oPaddr := 0
  s2oFsmFreeWay := fun _ => false
  s2oUncachedInflight := false
  s2oMissInflight := false
  ins := fun _ => 0
  arValid := false
  arAddr := 0

/-- The window of an address in its line. -/
def windowOf (a : ℕ) : ℕ := a / 16 % 4

variable (S : ℕ) (s : Icache n) (x : IcIn n)

def fsmIdle : Bool := decide (s.state = .idle)

def stallReq : Bool := !s.fsmIdle

/-- `msr_icinv_ready`. -/
def icinvReady : Bool := !s.fsmIdle

/-- `p_ce` of the front-end. -/
def pCe : Bool := !s.stallReq && x.iqReady

/-! ### The second stage -/

def s2iPaddr : Word := x.ppn ++ s.s1oVpo

def s2iHitVec (w : Fin n) : Bool :=
  (s.s1oTagV w).2 && decide ((s.s1oTagV w).1 = Dcache.tagOf S (s.s2iPaddr x).toNat)

def s2iHit : Bool := decide (∃ w, s.s2iHitVec S x w = true)

def s1oMatchPayload : ℕ → Byte := pmux (s.s2iHitVec S x) s.payQ

def s2iUncachedInflight : Bool := s.pCe x && s.s1oValid && x.uncached && !x.kill

def s2iMissInflight : Bool :=
  s.pCe x && s.s1oValid && !s.s2iHit S x && !x.uncached && !x.kill

/-! ### The state machine -/

def rReady : Bool := decide (s.state = .refill) || decide (s.state = .uncachedRead)

def hdsAxiR : Bool := x.axi.rValid && s.rReady

def hdsAxiRLast : Bool := s.hdsAxiR x && x.axi.rLast

def stateNxt : IcState :=
  match s.state with
  | .boot => if s.bootCnt + 1 = 2 ^ S then .idle else .boot
  | .idle =>
      if x.invWe then .invalidate
      else if s.s2iUncachedInflight x then .uncachedBoot
      else if s.s2iMissInflight S x then .replace
      else .idle
  | .replace => .refill
  | .refill => if s.hdsAxiRLast x then .reload else .refill
  | .invalidate =>
      if s.s2oUncachedInflight then .uncachedBoot
      else if s.s2oMissInflight then .replace
      else .idle
  | .reload => .idle
  | .uncachedBoot => .uncachedRead
  | .uncachedRead => if decide (16 ≤ s.uncachedCnt + 4) && s.hdsAxiR x then .idle else .uncachedRead

def fsmUncachedRdReq : Bool :=
  match s.state with
  | .uncachedBoot => true
  | .uncachedRead => !decide (16 ≤ s.uncachedCnt + 4) && s.hdsAxiR x
  | _ => false

/-- The victim of a miss moves on in every cycle. -/
def freeWayNxt (w : Fin n) : Bool :=
  if s.freeWay (lastWay n) then decide (w = 0)
  else decide (w ≠ 0) && s.freeWay ⟨w - 1, wayBefore_lt w⟩

def refillCntNxt : ℕ :=
  if decide (s.state = .refill) && s.hdsAxiR x then (s.refillCnt + 8) % 64 else s.refillCnt

def uncachedCntNxt : ℕ :=
  if decide (s.state = .uncachedRead) && s.hdsAxiR x then (s.uncachedCnt + 4) % 16 else
    s.uncachedCnt

/-! ### The tags -/

def s1iLineAddr : ℕ :=
  match s.state with
  | .boot => s.bootCnt
  | .invalidate => s.s1oOpInvLine
  | .replace => s.s2oLineAddr
  | .reload => s.s1oLineAddr
  | _ => Dcache.setOf S x.vpo.toNat

def s1iReplaceTagV : ℕ × Bool :=
  if s.state = .replace then (Dcache.tagOf S s.s2oPaddr.toNat, true) else (0, false)

def s1iTagVRe : Bool := s.pCe x || decide (s.state = .reload)

def s1iTagVWe (w : Fin n) : Bool :=
  decide (s.state = .boot) || decide (s.state = .invalidate) ||
    (decide (s.state = .replace) && s.freeWay w)

/-! ### The payload -/

def s1iPayloadAddr : ℕ × ℕ :=
  match s.state with
  | .refill => (Dcache.setOf S s.s2oPaddr.toNat, s.refillCnt / 16)
  | .reload => s.s1oPayloadAddr
  | _ => (Dcache.setOf S x.vpo.toNat, windowOf x.vpo.toNat)

/-- `align_r` from the bus to a window: a beat is one half of a window. -/
def s1iPayloadTgtWe (j : ℕ) : Bool :=
  decide (s.state = .refill) && decide (s.refillCnt / 8 % 2 = j / 8)

def s1iPayloadDin (j : ℕ) : Byte := x.axi.rData (j % 8)

def s1iPayloadWe (w : Fin n) (j : ℕ) : Bool := s.s1iPayloadTgtWe j && s.s2oFsmFreeWay w

/-- The two steps of `align_r` for an uncached beat: the half of the bus that the address selects,
and its place in the window. -/
def s1iUncachedWe (j : ℕ) : Bool :=
  decide (s.state = .uncachedRead) && decide (s.arAddr / 4 % 4 = j / 4)

def s1iUncachedDin (j : ℕ) : Byte := Dcache.alignR x.axi.rData s.arAddr (j % 4)

def s2iRefillGetDat : Bool := decide (windowOf s.s2oPaddr.toNat = s.refillCnt / 16)

def s2iUncachedGetDat : Bool := decide (windowOf s.s2oPaddr.toNat = windowOf s.arAddr)

/-- What the output loads. -/
def s2iIns (j : ℕ) : Byte :=
  match s.state with
  | .refill => if s.s2iRefillGetDat && s.s1iPayloadTgtWe j then s1iPayloadDin x j else s.ins j
  | .uncachedRead =>
      if s.s2iUncachedGetDat && s.s1iUncachedWe j then s.s1iUncachedDin x j else s.ins j
  | _ => s.s1oMatchPayload S x j

/-- The register of the read address. -/
def payReAddrNxt : ℕ × ℕ := ldff (s.s1iTagVRe x) (s.s1iPayloadAddr S x) s.payReAddr

/-! ### The bus -/

def arSet : Bool := decide (s.state = .replace) || s.fsmUncachedRdReq x

def arClr : Bool := s.arValid && x.axi.arReady

/-- The next beat of an uncached window, or the line. -/
def axiPaddrNxt : ℕ :=
  if s.fsmUncachedRdReq x then s.s2oPaddr.toNat / 16 * 16 + s.uncachedCntNxt x
  else s.s2oPaddr.toNat / 64 * 64

/-- What the cache puts on the bus; it does not write. -/
def axiOut : AxiOut where
  arValid := s.arValid
  ar := ⟨s.arAddr, if s.state = .refill then 7 else 0, if s.state = .refill then 3 else 2⟩
  rReady := s.rReady
  awValid := false
  aw := ⟨0, 0, 0⟩
  wValid := false
  w := ⟨fun _ => 0, fun _ => false⟩
  wLast := false
  bReady := false

/-! ### The next state -/

def next : Icache n where
  state := s.stateNxt S x
  freeWay := s.freeWayNxt
  bootCnt := (s.bootCnt + 1) % 2 ^ S
  refillCnt := s.refillCntNxt x
  uncachedCnt := s.uncachedCntNxt x
  tagV := fun w i =>
    if s.s1iTagVWe w = true ∧ i = s.s1iLineAddr S x then s.s1iReplaceTagV S else s.tagV w i
  pay := fun w a j =>
    if s.s1iPayloadWe w j = true ∧ a = s.s1iPayloadAddr S x then s1iPayloadDin x j else s.pay w a j
  payReAddr := s.payReAddrNxt S x
  payQ := fun w =>
    if decide (s.state = .refill) && s.s2oFsmFreeWay w then x.unc w else
      s.pay w (s.payReAddrNxt S x)
  s1oTagV := fun w => ldff (s.s1iTagVRe x) (s.tagV w (s.s1iLineAddr S x)) (s.s1oTagV w)
  s1oValid := ldff (s.pCe x) true s.s1oValid
  s1oVpo := ldff (s.pCe x) x.vpo s.s1oVpo
  s1oOpInvLine := ldff s.fsmIdle x.invLine s.s1oOpInvLine
  s1oLineAddr := ldff (s.pCe x) (s.s1iLineAddr S x) s.s1oLineAddr
  s1oPayloadAddr := ldff (s.pCe x) (s.s1iPayloadAddr S x) s.s1oPayloadAddr
  s2oLineAddr := ldff (s.pCe x) s.s1oLineAddr s.s2oLineAddr
  s2oValid := ldff (s.pCe x) s.s1oValid s.s2oValid
  s2oPaddr := ldff (s.pCe x) (s.s2iPaddr x) s.s2oPaddr
  s2oFsmFreeWay := ldff (decide (s.state = .replace)) s.freeWay s.s2oFsmFreeWay
  s2oUncachedInflight := ldff s.fsmIdle (s.s2iUncachedInflight x) s.s2oUncachedInflight
  s2oMissInflight := ldff s.fsmIdle (s.s2iMissInflight S x) s.s2oMissInflight
  ins := ldff (s.pCe x || decide (s.state = .refill) || decide (s.state = .uncachedRead))
    (s.s2iIns S x) s.ins
  arValid := ldff (s.arSet x || s.arClr x) (s.arSet x || !s.arClr x) s.arValid
  arAddr := ldff (s.arSet x) (s.axiPaddrNxt x) s.arAddr

end Icache

end NanoCpu
