/-
**The D-cache** (`rtl/core/dcache.v`, `rtl/general/align_r.v`, `align_w.v`, `pmux.v`,
`rtl/lib/mRAM_s_s_be.v`).

A set-associative write-back cache with lines of 64 bytes.  The tags of the addressed set are read
in the first stage, compared in the second, where a store that hits writes its bytes, and a load
that hits reads its word, which is at the output in the third.  Everything else (a miss, an uncached
access, an operation on a line) is done by a state machine that stalls the pipeline meanwhile.  The
geometry is a parameter: there are `n` ways and `2 ^ S` sets, in a page of `2 ^ 13` bytes.

Main definitions:

* `byteOf`, `packBytes` — the bytes of a word;
* `DcState` — the states of the state machine;
* `DcReq`, `DcIn` — a request as it goes into the first stage, and the inputs of one cycle;
* `Dcache`, `Dcache.next` — the cache;
* `Dcache.stallReq`, `Dcache.dout`, `Dcache.axiOut` — its outputs.
-/

import NanoCpu.Axi
import NanoCpu.Lsu

set_option relaxedAutoImplicit false
set_option autoImplicit false

namespace NanoCpu

/-! ### Bytes and ways -/

/-- Byte `j` of a word. -/
def byteOf (w : Word) (j : ℕ) : Byte := w.extractLsb' (8 * j) 8

/-- The word of four bytes. -/
def packBytes (f : ℕ → Byte) : Word := f 3 ++ f 2 ++ f 1 ++ f 0

theorem byteOf_packBytes (f : ℕ → Byte) {j : ℕ} (hj : j < 4) : byteOf (packBytes f) j = f j := by
  apply BitVec.eq_of_getLsbD_eq
  intro i hi
  obtain rfl | rfl | rfl | rfl : j = 0 ∨ j = 1 ∨ j = 2 ∨ j = 3 := by omega
  all_goals
    simp only [byteOf, packBytes, BitVec.getLsbD_extractLsb', BitVec.getLsbD_append, hi]
    grind

/-- The way with the highest number. -/
def lastWay (n : ℕ) [NeZero n] : Fin n := ⟨n - 1, Nat.sub_lt (NeZero.pos n) one_pos⟩

/-- The way before another one is a way. -/
theorem wayBefore_lt {n : ℕ} (w : Fin n) : (w : ℕ) - 1 < n := lt_of_le_of_lt (Nat.sub_le _ _) w.isLt

/-! ### The state -/

inductive DcState
  | boot | idle | replace | refill | writeback | invalidate | reload | flush
  | uncachedBoot | uncachedRead | uncachedWrite
  deriving DecidableEq, Repr

/-- A request: an access with its byte mask, which is zero for a load, or an operation on a line. -/
structure DcReq where
  req : Bool
  size : BitVec 3
  wmsk : BitVec 4
  wdat : Word
  vpo : BitVec 13
  inv : Bool
  fls : Bool

/-- The inputs of one cycle: a request for the first stage; the page number, the kill and the
uncached signal for the request in the second; the bus; and what a payload RAM shows after a
write. -/
structure DcIn (n : ℕ) extends DcReq where
  ppn : Ppn
  kill : Bool
  uncached : Bool
  axi : AxiIn
  unc : Fin n → ℕ → Byte

/-- The output registers of the first stage: a request, and the set it has read the tags of. -/
structure DcS1o extends DcReq where
  lineAddr : ℕ

/-- The output registers of the second stage: the access, its victim, and the flags of its set. -/
structure DcS2o (n : ℕ) where
  lineAddr : ℕ
  fsmFreeWay : Fin n → Bool
  fls : Bool
  paddr : Word
  d : Fin n → Bool
  freeDirty : Bool
  freeTag : ℕ
  payloadAddr : ℕ × ℕ
  size : BitVec 3
  wdat : Word
  wmsk : BitVec 4
  uncached : Bool

/-- The registers and the RAMs.  An address of a payload RAM is a set and a word in the line. -/
structure Dcache (n : ℕ) where
  state : DcState
  freeWay : Fin n → Bool
  bootCnt : ℕ
  refillCnt : ℕ
  tagV : Fin n → ℕ → ℕ × Bool
  d : Fin n → ℕ → Bool
  pay : Fin n → ℕ × ℕ → ℕ → Byte
  payReAddr : ℕ × ℕ
  payQ : Fin n → ℕ → Byte
  s1oTagV : Fin n → ℕ × Bool
  rfD : Fin n → Bool
  rfBypass : Fin n → Bool
  rfDFf : Fin n → Bool
  s1o : DcS1o
  s2o : DcS2o n
  s2oMatchVec : Fin n → Bool
  s2oWbAddr : ℕ
  arValid : Bool
  arAddr : ℕ
  awValid : Bool
  awAddr : ℕ
  wValid : Bool
  wLast : Bool
  rdataFf : Word

namespace Dcache

variable {n : ℕ} [NeZero n]

/-- After reset the tags and the flags are cleared; the contents of the payload RAMs are
arbitrary. -/
def reset (pay : Fin n → ℕ × ℕ → ℕ → Byte) : Dcache n where
  state := .boot
  freeWay := fun w => decide (w = 0)
  bootCnt := 0
  refillCnt := 0
  tagV := fun _ _ => (0, false)
  d := fun _ _ => false
  pay := pay
  payReAddr := (0, 0)
  payQ := fun _ _ => 0
  s1oTagV := fun _ => (0, false)
  rfD := fun _ => false
  rfBypass := fun _ => false
  rfDFf := fun _ => false
  s1o := ⟨⟨false, 0, 0, 0, 0, false, false⟩, 0⟩
  s2o := ⟨0, fun _ => false, false, 0, fun _ => false, false, 0, (0, 0), 0, 0, 0, false⟩
  s2oMatchVec := fun _ => false
  s2oWbAddr := 0
  arValid := false
  arAddr := 0
  awValid := false
  awAddr := 0
  wValid := false
  wLast := false
  rdataFf := 0

/-- The set of an address. -/
def setOf (S : ℕ) (a : ℕ) : ℕ := a / 64 % 2 ^ S

/-- The tag of an address. -/
def tagOf (S : ℕ) (a : ℕ) : ℕ := a / 64 / 2 ^ S

/-- The word of an address in its line. -/
def wordOf (a : ℕ) : ℕ := a / 4 % 16

variable (S : ℕ) (s : Dcache n) (x : DcIn n)

def stallReq : Bool := decide (s.state ≠ .idle)

def pCe : Bool := !s.stallReq

/-! ### The second stage -/

def s1oD (w : Fin n) : Bool := if s.rfBypass w then s.rfDFf w else s.rfD w

def s2iPaddr : Word := x.ppn ++ s.s1o.vpo

def s2iHitVec (w : Fin n) : Bool :=
  (s.s1oTagV w).2 && decide ((s.s1oTagV w).1 = tagOf S (s.s2iPaddr x).toNat)

def s2iHit : Bool := decide (∃ w, s.s2iHitVec S x w = true)

def s2iMatchVec (w : Fin n) : Bool :=
  if s.state = .reload then s.s2o.fsmFreeWay w else s.s2iHitVec S x w

def s2iMatchVecCe : Bool := s.pCe || decide (s.state = .reload)

def s2iWbWay (w : Fin n) : Bool := if s.s2o.fls then s.s2oMatchVec w else s.s2o.fsmFreeWay w

def s2oMatchPayload : ℕ → Byte := pmux s.s2oMatchVec s.payQ

def s2oMatchDirty : Bool := pmux s.s2oMatchVec s.s2o.d

def s2oWbPayload : ℕ → Byte := pmux s.s2iWbWay s.payQ

def s1oFreeDirty : Bool := pmux s.freeWay s.s1oD

def s2iFreeTag : ℕ := (pmux s.freeWay s.s1oTagV).1

/-! ### The handshakes -/

def rReady : Bool := decide (s.state = .refill) || decide (s.state = .uncachedRead)

def hdsAxiR : Bool := x.axi.rValid && s.rReady

def hdsAxiRLast : Bool := s.hdsAxiR x && x.axi.rLast

def hdsAxiW : Bool := s.wValid && x.axi.wReady

def hdsAxiWLast : Bool := s.hdsAxiW x && s.wLast

def bReady : Bool := decide (s.state = .writeback) || decide (s.state = .uncachedWrite)

def hdsAxiB : Bool := s.bReady && x.axi.bValid

/-! ### The state machine -/

def stateNxt : DcState :=
  match s.state with
  | .boot => if s.bootCnt + 1 = 2 ^ S then .idle else .boot
  | .idle =>
      if s.s1o.req then
        if s.s1o.inv then .invalidate
        else if s.s1o.fls then (if s.s2iHit S x then .flush else .idle)
        else if x.uncached && !x.kill then .uncachedBoot
        else if !s.s2iHit S x && !x.uncached && !x.kill then .replace
        else .idle
      else .idle
  | .replace => if s.s2o.freeDirty then .writeback else .refill
  | .writeback => if s.hdsAxiB x then (if s.s2o.fls then .idle else .refill) else .writeback
  | .refill => if s.hdsAxiRLast x then .reload else .refill
  | .invalidate => .idle
  | .reload => .idle
  | .flush => if s.s2oMatchDirty then .writeback else .idle
  | .uncachedBoot => if s.s2o.wmsk ≠ 0 then .uncachedWrite else .uncachedRead
  | .uncachedRead => if s.hdsAxiR x then .idle else .uncachedRead
  | .uncachedWrite => if s.hdsAxiB x then .idle else .uncachedWrite

/-- An access that hits is done in this cycle. -/
def s2iReady : Bool :=
  decide (s.state = .idle) && s.s1o.req && !s.s1o.inv && !s.s1o.fls && s.s2iHit S x &&
    !x.uncached && !x.kill

def arSet : Bool :=
  match s.state with
  | .replace => !s.s2o.freeDirty
  | .writeback => s.hdsAxiB x && !s.s2o.fls
  | .uncachedBoot => decide (s.s2o.wmsk = 0)
  | _ => false

def awSet : Bool :=
  match s.state with
  | .replace => s.s2o.freeDirty
  | .flush => s.s2oMatchDirty
  | .uncachedBoot => decide (s.s2o.wmsk ≠ 0)
  | _ => false

def fsmUncachedReq : Bool := decide (s.state = .uncachedBoot)

/-- The victim of a miss moves on in every cycle. -/
def freeWayNxt (w : Fin n) : Bool :=
  if s.freeWay (lastWay n) then decide (w = 0)
  else decide (w ≠ 0) && s.freeWay ⟨w - 1, wayBefore_lt w⟩

/-- Look ahead one address, since the payload RAM takes a cycle. -/
def s2iWbRe : Bool :=
  (decide (s.state ≠ .uncachedBoot) && s.awSet) ||
    (decide (s.state = .writeback) && s.hdsAxiW x && decide (s.refillCnt ≠ 0))

def refillCntNxt : ℕ :=
  if (decide (s.state = .refill) && s.hdsAxiR x) || s.s2iWbRe x then (s.refillCnt + 4) % 64
  else s.refillCnt

/-! ### The tags -/

def s1iLineAddr : ℕ :=
  match s.state with
  | .boot => s.bootCnt
  | .invalidate => s.s2o.lineAddr
  | .replace => s.s2o.lineAddr
  | .reload => s.s1o.lineAddr
  | _ => setOf S x.vpo.toNat

def s1iReplaceTagV : ℕ × Bool :=
  if s.state = .replace then (tagOf S s.s2o.paddr.toNat, true) else (0, false)

def s1iTagVRe : Bool := s.pCe || decide (s.state = .reload)

def s1iTagVWe (w : Fin n) : Bool :=
  decide (s.state = .boot) || decide (s.state = .invalidate) ||
    (decide (s.state = .replace) && s.s2o.fsmFreeWay w)

/-! ### The dirty flags -/

def s2iDWaddr : ℕ :=
  match s.state with
  | .idle => s.s1o.lineAddr
  | .reload => s.s2o.lineAddr
  | _ => s.s1iLineAddr S x

def s2iDWdat (w : Fin n) : Bool :=
  match s.state with
  | .idle => s.s1oD w || decide (s.s1o.wmsk ≠ 0)
  | .reload => s.s2o.d w || decide (s.s2o.wmsk ≠ 0)
  | _ => false

def s2iDWe (w : Fin n) : Bool :=
  decide (s.state = .boot) || decide (s.state = .invalidate) ||
    (decide (s.state = .replace) && s.s2o.fsmFreeWay w) ||
    (decide (s.state = .reload) && s.s2o.fsmFreeWay w) || (s.s2iReady S x && s.s2iHitVec S x w)

def rfConflict (w : Fin n) : Bool := decide (s.s1iLineAddr S x = s.s2iDWaddr S x) && s.s2iDWe S x w

/-! ### The payload -/

def s2iPayloadAddr : ℕ × ℕ :=
  if s.s2iWbRe x then (setOf S s.s2o.paddr.toNat, s.refillCnt / 4)
  else
    match s.state with
    | .refill => (setOf S s.s2o.paddr.toNat, s.refillCnt / 4)
    | .reload => s.s2o.payloadAddr
    | _ => (setOf S s.s1o.vpo.toNat, wordOf s.s1o.vpo.toNat)

/-- `align_r`: the half of the bus that the address selects. -/
def alignR (rdata : ℕ → Byte) (addr j : ℕ) : Byte := rdata (4 * (addr / 4 % 2) + j)

def s2iPayloadDin : ℕ → Byte :=
  match s.state with
  | .idle => byteOf s.s1o.wdat
  | .reload => byteOf s.s2o.wdat
  | _ => alignR x.axi.rData s.refillCnt

def s2iPayloadRe : Bool := s.pCe || s.s2iWbRe x || decide (s.state = .reload)

def s2iPayloadTgtWe : BitVec 4 :=
  (if s.s2iReady S x then s.s1o.wmsk else 0) ||| (if s.state = .reload then s.s2o.wmsk else 0) |||
    (if s.state = .refill then 0b1111 else 0)

def s2iPayloadWe (w : Fin n) : BitVec 4 :=
  if (s.s2iReady S x && s.s2iHitVec S x w) || (decide (s.state = .reload) && s.s2o.fsmFreeWay w) ||
      (decide (s.state = .refill) && s.s2o.fsmFreeWay w) then
    s.s2iPayloadTgtWe S x
  else 0

/-- The register of the read address. -/
def payReAddrNxt : ℕ × ℕ := ldff (s.s2iPayloadRe x) (s.s2iPayloadAddr S x) s.payReAddr

/-! ### The bus -/

/-- The address of an uncached access, of the victim, or of the line of the access. -/
def axiPaddrNxt : ℕ :=
  if s.fsmUncachedReq then s.s2o.paddr.toNat
  else if decide (s.state = .replace) && s.awSet then (s.s2o.freeTag * 2 ^ S + s.s2o.lineAddr) * 64
  else s.s2o.paddr.toNat / 64 * 64

def wvalidClr : Bool := s.hdsAxiWLast x

def wlastSet : Bool :=
  (decide (s.state = .writeback) && s.hdsAxiW x && decide (64 ≤ s.refillCnt + 4)) ||
    (s.fsmUncachedReq && s.awSet)

/-- The byte lanes of an uncached write. -/
def uncachedStrb (l : ℕ) : Bool :=
  let a := s.s2o.paddr.toNat % 8
  if s.s2o.size = 0 then decide (a = l)
  else if s.s2o.size = 1 then decide (a / 2 = l / 2)
  else decide (a / 4 = l / 4)

def uncachedData (l : ℕ) : Byte :=
  let a := s.s2o.paddr.toNat % 8
  if s.s2o.size = 0 then (if a = l then byteOf s.s2o.wdat (l % 4) else 0)
  else if s.s2o.size = 1 then (if a / 2 = l / 2 then byteOf s.s2o.wdat (l % 4) else 0)
  else if a / 4 = l / 4 then byteOf s.s2o.wdat (l % 4) else 0

/-- `align_w`: the word on both halves of the bus, one of them enabled. -/
def wBeat : AxiBeat :=
  if s.state = .writeback then
    ⟨fun l => s.s2oWbPayload (l % 4), fun l => decide (s.s2oWbAddr / 4 % 2 = l / 4)⟩
  else ⟨s.uncachedData, s.uncachedStrb⟩

/-- What the cache puts on the bus. -/
def axiOut : AxiOut where
  arValid := s.arValid
  ar := ⟨s.arAddr, if s.state = .uncachedRead then 0 else 15,
    if s.state = .uncachedRead then s.s2o.size.toNat else 2⟩
  rReady := s.rReady
  awValid := s.awValid
  aw := ⟨s.awAddr, if s.state = .uncachedWrite then 0 else 15,
    if s.state = .uncachedWrite then s.s2o.size.toNat else 2⟩
  wValid := s.wValid
  w := s.wBeat
  wLast := s.wLast
  bReady := s.bReady

def arClr : Bool := s.arValid && x.axi.arReady

def awClr : Bool := s.awValid && x.axi.awReady

/-- The output of a load. -/
def dout : Word := if s.s2o.uncached then s.rdataFf else packBytes s.s2oMatchPayload

/-! ### The next state -/

/-- What the registers of the first stage load. -/
def s1oNxt : DcS1o := ⟨x.toDcReq, s.s1iLineAddr S x⟩

/-- What the registers of the second stage load. -/
def s2oNxt : DcS2o n where
  lineAddr := s.s1o.lineAddr
  fsmFreeWay := s.freeWay
  fls := s.s1o.fls
  paddr := s.s2iPaddr x
  d := s.s1oD
  freeDirty := s.s1oFreeDirty
  freeTag := s.s2iFreeTag
  payloadAddr := s.s2iPayloadAddr S x
  size := s.s1o.size
  wdat := s.s1o.wdat
  wmsk := s.s1o.wmsk
  uncached := x.uncached

def next : Dcache n where
  state := s.stateNxt S x
  freeWay := s.freeWayNxt
  bootCnt := (s.bootCnt + 1) % 2 ^ S
  refillCnt := s.refillCntNxt x
  tagV := fun w i =>
    if s.s1iTagVWe w = true ∧ i = s.s1iLineAddr S x then s.s1iReplaceTagV S else s.tagV w i
  d := fun w i => if s.s2iDWe S x w = true ∧ i = s.s2iDWaddr S x then s.s2iDWdat w else s.d w i
  pay := fun w a j =>
    if (s.s2iPayloadWe S x w).getLsbD j = true ∧ a = s.s2iPayloadAddr S x then s.s2iPayloadDin x j
    else s.pay w a j
  payReAddr := s.payReAddrNxt S x
  payQ := fun w => if s.s2iPayloadWe S x w ≠ 0 then x.unc w else s.pay w (s.payReAddrNxt S x)
  s1oTagV := fun w => ldff s.s1iTagVRe (s.tagV w (s.s1iLineAddr S x)) (s.s1oTagV w)
  rfD := fun w => ldff s.s1iTagVRe (s.d w (s.s1iLineAddr S x)) (s.rfD w)
  rfBypass := fun w => ldff (s.rfConflict S x w || s.s1iTagVRe) (s.rfConflict S x w || !s.s1iTagVRe)
    (s.rfBypass w)
  rfDFf := fun w => ldff s.s1iTagVRe (s.s2iDWdat w) (s.rfDFf w)
  s1o := ldff s.pCe (s.s1oNxt S x) s.s1o
  s2o := ldff s.pCe (s.s2oNxt S x) s.s2o
  s2oMatchVec := ldff s.s2iMatchVecCe (s.s2iMatchVec S x) s.s2oMatchVec
  s2oWbAddr := ldff (s.s2iWbRe x) s.refillCnt s.s2oWbAddr
  arValid := ldff (s.arSet x || s.arClr x) (s.arSet x || !s.arClr x) s.arValid
  arAddr := ldff (s.arSet x) (s.axiPaddrNxt S) s.arAddr
  awValid := ldff (s.awSet || s.awClr x) (s.awSet || !s.awClr x) s.awValid
  awAddr := ldff s.awSet (s.axiPaddrNxt S) s.awAddr
  wValid := ldff (s.awSet || s.wvalidClr x) (s.awSet || !s.wvalidClr x) s.wValid
  wLast := ldff (s.wlastSet x || s.wvalidClr x) (s.wlastSet x || !s.wvalidClr x) s.wLast
  rdataFf := ldff (s.hdsAxiR x) (packBytes (alignR x.axi.rData s.arAddr)) s.rdataFf

end Dcache

end NanoCpu
