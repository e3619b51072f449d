/-
**The AXI slave of the emulator, write bursts** (`em/csrc/peripheral/axi4-crossbar.cc`, `axi4.cc`).

A write takes an address, the beats of its data, and an answer.  The crossbar advances it in two
callbacks: at the rising edge it takes what the master and itself agreed on, at the falling edge it
decides what it takes next and whether it answers.  For the memory it answers when the simulator of
the memory has answered, which is asked when the last beat has been written.  For a device it
answers at the falling edge after the address, without a look at the beats that are still to come;
and it reads every beat from the device before it writes it.

Main definitions:

* `AxiW`, `WriteRequest`, `CrossbarW` — a beat, a request under way, the write side of the crossbar;
* `CrossbarW.acceptBeat`, `CrossbarW.clkRising`, `CrossbarW.clkFalling`, `CrossbarW.next` — the
  callbacks;
* `SlaveLog` — the write that is open on the bus, with its beats so far;
* `CrossbarW.Orderly` — what a slave owes; `AxiAr.Fits` — the writes for which the crossbar does it.

Main results:

* `CrossbarW.acceptBeat_eq` — a beat of a write that fits is applied lane by lane;
* `CrossbarW.orderly_of_fits` — the crossbar is orderly as long as the writes it accepts fit;
* `CrossbarW.early_answer` — a device access is answered before its data.
-/

import NanoCpu.Crossbar
import NanoCpu.EmMemoryBounds

set_option relaxedAutoImplicit false
set_option autoImplicit false

namespace NanoCpu

/-- A beat on the write data channel. -/
structure AxiW where
  data : BitVec 64
  strb : BitVec 8
  deriving DecidableEq

/-- `Axi4CrossbarRequest`, of a write. -/
structure WriteRequest where
  address : BitVec 64
  isMmio : Bool
  len : BitVec 8
  size : BitVec 8
  offset : BitVec 8
  id : BitVec 8
  respInflight : Bool
  deriving DecidableEq

/-- The write side of the crossbar with the memory behind it and what it drives on the bus.
`waitRespB` is the number of the request of the response, which is always the one of `waitReqW`;
`pending` counts the writes that the simulator of the memory has taken and not answered. -/
structure CrossbarW (δ : Type) where
  mem : Memory δ
  waitReqW : Option WriteRequest
  waitRespB : Option (BitVec 8)
  pending : ℕ
  awReady : Bool
  wReady : Bool
  bValid : Bool
  bId : BitVec 8
  fault : Option Fault

/-- The inputs of one cycle.  First the devices, which others use too; then the master at the rising
edge, and whether the simulator of the memory takes a request then; last the address that the master
shows at the falling edge, whether the simulator would take a request, and whether it answers
one. -/
structure CrossbarWIn (δ : Type) where
  dev : δ
  aw : Option AxiAr
  w : Option AxiW
  bReady : Bool
  willAcceptLast : Bool
  awNext : Option (BitVec 64)
  willAccept : Bool
  dramResp : Bool

namespace CrossbarW

open Crossbar MemM

variable {δ : Type}

/-! ### A beat -/

/-- The accesses of `pwrite` and `check_wstrb`; no other size is accepted. -/
def widthOf : ℕ → Option MmioWidth
  | 8 => some .m64
  | 4 => some .m32
  | 2 => some .m16
  | 1 => some .m8
  | _ => none

def pwrite (m : Memory δ) (address dat : BitVec 64) (beatsize : ℕ) : Except Fault (Memory δ) :=
  match widthOf beatsize with
  | none => .error .abort
  | some width =>
      match write width (address.setWidth 32) (dat >>> (bytelane address <<< 3)) m with
      | .ok _ m => .ok m
      | .error _ _ => .error .abort

/-- The strobe that `check_wstrb` expects: the lanes of the access, as far as the bus has them. -/
def excpWstrb (address : BitVec 64) (width : MmioWidth) : BitVec 8 :=
  ((0xff >>> bytelane address) &&& BitVec.ofNat 8 (2 ^ width.bytes - 1)) <<< bytelane address

def checkWstrb (address : BitVec 64) (wstrb : BitVec 8) (beatsize : ℕ) : Except Fault Unit :=
  match widthOf beatsize with
  | none => .error .abort
  | some width => if wstrb = excpWstrb address width then .ok () else .error .abort

/-- `axi_get_wdata`: the lanes of the strobe from the bus, the other ones from `src`. -/
def axiGetWdata (w : AxiW) (src : BitVec 64) : BitVec 64 :=
  if w.strb = 0xff then w.data
  else combine (fun i => if w.strb.getLsbD i then byteOf w.data i else byteOf src i) 8

/-- The address of the next beat. -/
def waddr (req : WriteRequest) : BitVec 64 :=
  req.address + BitVec.ofNat 64 (req.offset.toNat * req.size.toNat)

/-- A beat is accepted: it is read, mixed with the data on the bus and written. -/
def acceptBeat (m : Memory δ) (w : AxiW) (req : WriteRequest) :
    Except Fault (Memory δ × WriteRequest) :=
  if 8 < req.size.toNat then .error .abort
  else do
    let (wdat, m) ← pread m (waddr req) req.size.toNat
    checkWstrb (waddr req) w.strb req.size.toNat
    let m ← pwrite m (waddr req) (axiGetWdata w wdat) req.size.toNat
    let req := { req with offset := req.offset + 1 }
    if req.len.toNat < req.offset.toNat then .error .abort else .ok (m, req)

/-! ### The rising edge -/

/-- `axi_request`, of a write. -/
def axiRequest (m : Memory δ) (aw : AxiAr) : Except Fault WriteRequest :=
  let len : BitVec 8 := aw.len + 1
  let size : BitVec 8 := 1 <<< aw.size.toNat
  if (getConstraint m aw.addr).1 < len.toNat ∨ (getConstraint m aw.addr).2 < size.toNat then
    .error .abort
  else .ok {
    address := aw.addr
    isMmio := isMmio m aw.addr
    len := len
    size := size
    offset := 0
    id := aw.id
    respInflight := false }

/-- The assertion of `axi_check_waddr_fire`. -/
def burstOk (aw : AxiAr) : Bool := aw.burst == 1 || (aw.burst == 2 && aw.addr &&& 0x3f == 0)

variable (s : CrossbarW δ) (x : CrossbarWIn δ)

/-- The last write is acknowledged. -/
def wackFire : Except Fault (CrossbarW δ) :=
  if s.bValid && x.bReady then
    if s.waitRespB.isNone then .error .abort
    else .ok { s with waitRespB := none, waitReqW := none }
  else .ok s

/-- An address is accepted. -/
def waddrFire : Except Fault (CrossbarW δ) :=
  match x.aw with
  | some aw =>
      if s.awReady then
        if !burstOk aw || s.waitReqW.isSome then .error .abort
        else (axiRequest s.mem aw).map fun req => { s with waitReqW := some req }
      else .ok s
  | none => .ok s

/-- A beat is accepted. -/
def wdataFire : Except Fault (CrossbarW δ) :=
  match x.w with
  | some w =>
      if s.wReady then
        match s.waitReqW with
        | none => .error .abort
        | some req =>
            (acceptBeat s.mem w req).map fun r => { s with mem := r.1, waitReqW := some r.2 }
      else .ok s
  | none => .ok s

/-- After the last beat the simulator of the memory is asked, as soon as it takes a request. -/
def lastBeat : CrossbarW δ :=
  match s.waitReqW with
  | some req =>
      if !req.respInflight && req.offset == req.len then
        if req.isMmio then { s with waitReqW := some { req with respInflight := true } }
        else if x.willAcceptLast then
          { s with waitReqW := some { req with respInflight := true }, pending := s.pending + 1 }
        else s
      else s
  | none => s

/-- `clk_rising` up to the address. -/
def addressed : Except Fault (CrossbarW δ) := do (← s.wackFire x).waddrFire x

def clkRising : Except Fault (CrossbarW δ) := do
  let s ← s.addressed x
  let s ← s.wdataFire x
  return s.lastBeat x

/-! ### The falling edge -/

/-- Whether an address is accepted next. -/
def acceptWaddr : Bool :=
  s.waitReqW.isNone && match x.awNext with
    | some a => isMmio s.mem a || x.willAccept
    | none => false

/-- Whether a beat is accepted next: with the address, or if there are beats to go. -/
def acceptWdata : Bool :=
  s.acceptWaddr x || match s.waitReqW with
    | some req => (req.isMmio || x.willAccept) && req.offset != req.len
    | none => false

/-- The next response. -/
def nextWresp : CrossbarW δ :=
  match s.waitRespB, s.waitReqW with
  | none, some req =>
      if req.isMmio then { s with waitRespB := some req.id }
      else if x.dramResp then { s with waitRespB := some req.id, pending := s.pending - 1 }
      else s
  | _, _ => s

/-- The response is put on the bus. -/
def putWack : CrossbarW δ := { s with bValid := s.waitRespB.isSome, bId := s.waitRespB.getD s.bId }

def clkFalling : CrossbarW δ :=
  (nextWresp { s with awReady := s.acceptWaddr x, wReady := s.acceptWdata x } x).putWack

/-- The devices as they are at the beginning of the cycle. -/
def withDev : CrossbarW δ := { s with mem := { s.mem with dev := x.dev } }

/-- One cycle; a program that has ended stays where it is. -/
def next : CrossbarW δ :=
  if s.fault.isSome then s
  else match (s.withDev x).clkRising x with
    | .ok s => s.clkFalling x
    | .error e => { s with fault := some e }

def reset (m : Memory δ) : CrossbarW δ where
  mem := m
  waitReqW := none
  waitRespB := none
  pending := 0
  awReady := false
  wReady := false
  bValid := false
  bId := 0
  fault := none

/-- The simulator of the memory has a write to answer at the falling edge. -/
def owes : Prop := ∀ t, (s.withDev x).clkRising x = .ok t → 0 < t.pending

/-- The master keeps an address until it is taken; the simulator of the memory only answers what it
was asked. -/
def machine (m : Memory δ) : Machine (CrossbarW δ) (CrossbarWIn δ) where
  reset := reset m
  allowed s x := (s.awReady = true → x.aw.isSome = true) ∧ (x.dramResp = true → s.owes x)
  next s x := s.next x

end CrossbarW

/-! ### The write on the bus -/

/-- A write that is open: its address, the beats it has had, and the bytes before it. -/
structure OpenWrite where
  aw : AxiAr
  beats : List AxiW
  before : Word → Byte

/-- What is seen of the writes: the open one; whether there was a beat outside a write; whether a
beat was read from a device. -/
structure SlaveLog where
  opened : Option OpenWrite
  stray : Bool
  devRead : Bool

/-- The first `n` lanes of a beat on the bus word at `base`. -/
def AxiW.lanes (w : AxiW) (base : Word) (f : Word → Byte) : ℕ → Word → Byte
  | 0 => f
  | n + 1 =>
      if w.strb.getLsbD n then
        Function.update (AxiW.lanes w base f n) (MemM.addrOf base n) (MemM.byteOf w.data n)
      else AxiW.lanes w base f n

namespace AxiAr

/-- The bus word of a beat. -/
def busWord (aw : AxiAr) (k : ℕ) : Word := BitVec.ofNat 32 ((aw.burstAddr k).toNat / 8 * 8)

/-- The byte `j` of beat `k`. -/
def byteAddr (aw : AxiAr) (k j : ℕ) : Word := MemM.addrOf ((aw.burstAddr k).setWidth 32) j

end AxiAr

/-- The bytes after the beats, in their order. -/
def OpenWrite.after (o : OpenWrite) : Word → Byte :=
  o.beats.zipIdx.foldl (fun f p => p.1.lanes (o.aw.busWord p.2) f 8) o.before

namespace SlaveLog

open Crossbar MemM

variable {δ : Type} (g : SlaveLog) (s : CrossbarW δ) (x : CrossbarWIn δ)

/-- The answer closes a write. -/
def ack : SlaveLog := if s.bValid && x.bReady then { g with opened := none } else g

/-- An address opens one. -/
def address : SlaveLog :=
  match x.aw with
  | some aw => if s.awReady then { g with opened := some ⟨aw, [], s.mem.byteAt⟩ } else g
  | none => g

/-- A beat belongs to the write that is open, if that has beats to go. -/
def beat : SlaveLog :=
  match x.w with
  | some w =>
      if s.wReady then
        match g.opened with
        | some o =>
            if o.beats.length < o.aw.beats then
              { g with opened := some { o with beats := o.beats ++ [w] } }
            else { g with stray := true }
        | none => { g with stray := true }
      else g
  | none => g

/-- Whether `wdataFire` reads a device: one of the bytes of the beat is one. -/
def reads (s : CrossbarW δ) (x : CrossbarWIn δ) : Bool :=
  match x.w, s.waitReqW with
  | some _, some req => s.wReady &&
      (List.range req.size.toNat).any fun j =>
        s.mem.mapped (addrOf ((CrossbarW.waddr req).setWidth 32) j)
  | _, _ => false

/-- The same, after the other parts of `clk_rising`. -/
def readsDev (s : CrossbarW δ) (x : CrossbarWIn δ) : Bool :=
  match (s.withDev x).addressed x with
  | .ok s => reads s x
  | .error _ => false

/-- The log of a cycle: the answer, the address and the beat that master and slave agree on. -/
def upd (g : SlaveLog) (s : CrossbarW δ) (x : CrossbarWIn δ) : SlaveLog :=
  if s.fault.isSome then g
  else { ((g.ack s x).address s x).beat s x with devRead := g.devRead || readsDev s x }

end SlaveLog

/-- A write fits: it has less than 256 beats, they are for memory bytes, each for some lanes of one
bus word, and a wrapping burst starts with its block. -/
structure AxiAr.Fits {δ : Type} (m : Memory δ) (aw : AxiAr) : Prop where
  short : aw.len ≠ 255
  dram : Crossbar.isMmio m aw.addr = false
  unmapped : ∀ k < aw.beats, ∀ j < aw.bytes, m.mapped (aw.byteAddr k j) = false
  oneWord : ∀ k < aw.beats, (aw.burstAddr k).toNat % 8 + aw.bytes ≤ 8
  start : aw.burst = 2 → aw.addr.toNat % (aw.bytes * aw.beats) = 0

namespace CrossbarW

open Crossbar MemM

variable {δ : Type}

/-- **Orderly writes**: an answer is raised only when all beats of the open write are there; these
are applied to the memory, in their order and no others; no beat comes outside a write; and no
device is read for a write. -/
structure Orderly (s : CrossbarW δ) (g : SlaveLog) : Prop where
  answered : s.fault = none → s.bValid = true → ∃ o, g.opened = some o ∧ o.beats.length = o.aw.beats
  applied : s.fault = none → ∀ o, g.opened = some o → s.mem.byteAt = o.after
  noStray : g.stray = false
  noRead : g.devRead = false

/-- The crossbar takes an address without an assertion that fails. -/
def Accepts (m : Memory δ) (aw : AxiAr) : Prop :=
  burstOk aw = true ∧ ∃ req, axiRequest m aw = .ok req

/-- The crossbar with the log, where some writes are not asked for. -/
def logged (m : Memory δ) (ok : Memory δ → AxiAr → Prop) :
    Machine (CrossbarW δ × SlaveLog) (CrossbarWIn δ) :=
  (machine m).observe ⟨none, false, false⟩ SlaveLog.upd fun _ s x =>
    ∀ aw, x.aw = some aw → s.awReady = true → Accepts s.mem aw → ok s.mem aw

/-! ### The addresses of a burst -/

theorem bytes_le_eight {m : Memory δ} {aw : AxiAr} (h : aw.Fits m) : aw.bytes ≤ 8 := by
  have := h.oneWord 0 (Nat.succ_pos _)
  omega

/-- A wrapping burst that starts with its block does not wrap. -/
theorem burstAddr_eq {m : Memory δ} {aw : AxiAr} (h : aw.Fits m) {k : ℕ} (hk : k < aw.beats) :
    aw.burstAddr k = aw.addr + BitVec.ofNat 64 (k * aw.bytes) := by
  have hadd : BitVec.ofNat 64 (aw.addr.toNat + k * aw.bytes) =
      aw.addr + BitVec.ofNat 64 (k * aw.bytes) := by
    rw [BitVec.ofNat_add, BitVec.ofNat_toNat, BitVec.setWidth_eq]
  unfold AxiAr.burstAddr
  split
  · rename_i hb
    have hlow : aw.low = aw.addr.toNat := Nat.div_mul_cancel (Nat.dvd_of_mod_eq_zero (h.start hb))
    have hlt : k * aw.bytes < aw.bytes * aw.beats := by
      rw [Nat.mul_comm]
      exact Nat.mul_lt_mul_of_pos_left hk (Nat.two_pow_pos _)
    rw [hlow, Nat.sub_self, Nat.zero_add, Nat.mod_eq_of_lt hlt, hadd]
  · exact hadd

/-- The access of a beat that is not longer than the bus word. -/
theorem exists_width {aw : AxiAr} (h : aw.bytes ≤ 8) :
    ∃ width, widthOf aw.bytes = some width ∧ width.bytes = aw.bytes := by
  unfold AxiAr.bytes at h ⊢
  have hs : aw.size.toNat ≤ 3 := by
    by_contra hs
    have : 2 ^ 4 ≤ 2 ^ aw.size.toNat := Nat.pow_le_pow_right (by decide) (by omega)
    omega
  generalize aw.size.toNat = n at hs
  interval_cases n
  · exact ⟨.m8, rfl, rfl⟩
  · exact ⟨.m16, rfl, rfl⟩
  · exact ⟨.m32, rfl, rfl⟩
  · exact ⟨.m64, rfl, rfl⟩

theorem widthOf_bytes {n : ℕ} {width : MmioWidth} (h : widthOf n = some width) :
    width.bytes = n := by
  unfold widthOf at h
  split at h <;> cases h <;> rfl

/-! ### The read before the write -/

section Read

variable {m : Memory δ} {addr : Word} {n : ℕ}

/-- A read of memory bytes that succeeds finds them all, and changes nothing. -/
theorem phyReadLe_unmapped (hm : ∀ j < n, m.mapped (addrOf addr j) = false)
    {r : BitVec 64 × Memory δ}
    (h : Memory.phyReadLe addr n m = some r) : r.2 = m ∧ Inside m addr n := by
  induction n generalizing r with
  | zero =>
      cases h
      exact ⟨rfl, fun j hj => absurd hj (Nat.not_lt_zero j)⟩
  | succ n ih =>
      simp only [Memory.phyReadLe, Option.bind_eq_bind, Option.bind_eq_some_iff] at h
      obtain ⟨b, hb, v, hv, h⟩ := h
      have hn := hm n (Nat.lt_succ_self n)
      unfold Memory.phyReadm8 at hb
      rw [show addr + BitVec.ofNat 32 n = addrOf addr n from rfl, hn, if_neg (by simp)] at hb
      split at hb
      · rename_i hd
        cases hb
        obtain ⟨hm', hi⟩ := ih (fun j hj => hm j (by omega)) hv
        cases h
        exact ⟨hm', inside_succ.2 ⟨hi, hd⟩⟩
      · cases hb

theorem phyRead_unmapped (hn : 0 < n) (hm : ∀ j < n, m.mapped (addrOf addr j) = false)
    {r : BitVec 64 × Memory δ} (h : m.phyRead n addr = some r) : r.2 = m ∧ Inside m addr n := by
  have hm₀ : m.mapped addr = false := by simpa using hm 0 hn
  unfold Memory.phyRead at h
  rw [hm₀, if_neg (by simp)] at h
  split at h
  · exact phyReadLe_unmapped hm h
  · cases h

theorem phyReadm8_inside (hm : ∀ j < 1, m.mapped (addrOf addr j) = false)
    {r : Byte × Memory δ} (h : m.phyReadm8 addr = some r) : r.2 = m ∧ Inside m addr 1 := by
  have hm₀ : m.mapped addr = false := by simpa using hm 0 Nat.one_pos
  unfold Memory.phyReadm8 at h
  rw [hm₀, if_neg (by simp)] at h
  split at h
  · rename_i hd
    cases h
    refine ⟨rfl, fun j hj => ?_⟩
    obtain rfl : j = 0 := Nat.lt_one_iff.1 hj
    rwa [addrOf_zero]
  · cases h

theorem pread_unmapped {address v : BitVec 64} {m' : Memory δ}
    (hm : ∀ j < n, m.mapped (addrOf (address.setWidth 32) j) = false)
    (h : pread m address n = .ok (v, m')) : m' = m ∧ Inside m (address.setWidth 32) n := by
  unfold pread at h
  cases hr : readSized m address n with
  | none =>
      rw [hr] at h
      cases h
  | some r =>
      rw [hr] at h
      cases h
      unfold readSized at hr
      split at hr
      · exact phyRead_unmapped (by decide) hm hr
      · obtain ⟨r', hr', he⟩ := Option.map_eq_some_iff.1 hr
        obtain ⟨r₀, hr₀, rfl⟩ := Option.map_eq_some_iff.1 hr'
        cases he
        exact phyRead_unmapped (r := r₀) (by decide) hm hr₀
      · obtain ⟨r', hr', he⟩ := Option.map_eq_some_iff.1 hr
        obtain ⟨r₀, hr₀, rfl⟩ := Option.map_eq_some_iff.1 hr'
        cases he
        exact phyRead_unmapped (r := r₀) (by decide) hm hr₀
      · obtain ⟨r', hr', he⟩ := Option.map_eq_some_iff.1 hr
        cases he
        exact phyReadm8_inside hm hr'
      · cases hr

end Read

/-! ### The lanes of a beat -/

theorem getLsbD_combine (f : ℕ → Byte) {n : ℕ} (hn : n ≤ 8) (i : ℕ) :
    (combine f n).getLsbD i = (decide (i < 8 * n) && (f (i / 8)).getLsbD (i % 8)) := by
  induction n with
  | zero => simp [combine]
  | succ n ih =>
      rw [combine, BitVec.getLsbD_or, ih (by omega), BitVec.getLsbD_shiftLeft,
        BitVec.getLsbD_setWidth]
      by_cases hlow : i < 8 * n
      · simp [hlow, show i < 8 * (n + 1) by omega]
      by_cases hi : i < 8 * (n + 1)
      · have hd : i / 8 = n := by omega
        have hr : i - 8 * n = i % 8 := by omega
        simp [hlow, hi, hd, hr, show i < 64 by omega, show i % 8 < 64 by omega]
      · have hf : (f n).getLsbD (i - 8 * n) = false := BitVec.getLsbD_of_ge _ _ (by omega)
        simp [hlow, hi, hf]

theorem byteOf_combine (f : ℕ → Byte) {k : ℕ} (hk : k < 8) : byteOf (combine f 8) k = f k := by
  ext i hi
  rw [byteOf, BitVec.getElem_setWidth, BitVec.getLsbD_ushiftRight, getLsbD_combine f (le_refl 8),
    show (8 * k + i) / 8 = k by omega, show (8 * k + i) % 8 = i by omega,
      ← BitVec.getLsbD_eq_getElem]
  simp [show 8 * k + i < 64 by omega]

/-- The lanes of the strobe come from the bus. -/
theorem byteOf_axiGetWdata (w : AxiW) (src : BitVec 64) {k : ℕ} (hk : k < 8)
    (hw : w.strb.getLsbD k = true) : byteOf (axiGetWdata w src) k = byteOf w.data k := by
  unfold axiGetWdata
  split
  · rfl
  · rw [byteOf_combine _ hk, hw, if_pos rfl]

theorem byteOf_ushiftRight (v : BitVec 64) (l k : ℕ) :
    byteOf (v >>> (l <<< 3)) k = byteOf v (l + k) := by
  rw [byteOf, byteOf, ← BitVec.shiftRight_add, Nat.shiftLeft_eq,
    show l * 2 ^ 3 + 8 * k = 8 * (l + k) by omega]

/-- The strobe that is expected has the lanes of the access. -/
theorem getLsbD_excpWstrb {address : BitVec 64} {width : MmioWidth}
    (h : bytelane address + width.bytes ≤ 8) (n : ℕ) : (excpWstrb address width).getLsbD n =
      decide (bytelane address ≤ n ∧ n < bytelane address + width.bytes) := by
  unfold excpWstrb
  generalize bytelane address = l at h
  have hl : l < 8 := by
    have := bytes_pos width
    omega
  by_cases hn : n < 8
  · cases width <;> simp only [MmioWidth.bytes] at h ⊢ <;> interval_cases l <;>
      interval_cases n <;> rfl
  · rw [BitVec.getLsbD_of_ge _ _ (by omega), eq_comm, decide_eq_false_iff_not]
    omega

/-- The lanes of an access are its bytes. -/
theorem lanes_eq {w : AxiW} {base addr : Word} {l size : ℕ} {v : BitVec 64} {m : Memory δ}
    (hbase : ∀ j, addrOf base (l + j) = addrOf addr j)
    (hstrb : ∀ n, n < 8 → w.strb.getLsbD n = decide (l ≤ n ∧ n < l + size))
    (hv : ∀ j, l + j < 8 → j < size → byteOf v j = byteOf w.data (l + j)) {n : ℕ} (hn : n ≤ 8) :
    w.lanes base m.byteAt n = (putBytes m addr v (min (n - l) size)).byteAt := by
  induction n with
  | zero =>
      rw [Nat.zero_sub, Nat.zero_min]
      rfl
  | succ n ih =>
      rw [AxiW.lanes, ih (by omega), hstrb n (by omega)]
      by_cases hin : l ≤ n ∧ n < l + size
      · obtain ⟨j, rfl⟩ := Nat.exists_eq_add_of_le hin.1
        have h₀ : min (l + j - l) size = j := by omega
        have h₁ : min (l + j + 1 - l) size = j + 1 := by omega
        rw [decide_eq_true hin, if_pos rfl, h₀, h₁, putBytes, hbase, ← hv j (by omega) (by omega)]
        funext b
        rw [Memory.byteAt_setByte, Function.update_apply]
      · rw [decide_eq_false hin, if_neg (by simp),
          show min (n + 1 - l) size = min (n - l) size by omega]

/-! ### A request and its write -/

/-- The request is that of the open write, and the beats so far are in the memory. -/
structure Follows (m : Memory δ) (req : WriteRequest) (o : OpenWrite) : Prop where
  fits : o.aw.Fits m
  address : req.address = o.aw.addr
  isMmio : req.isMmio = false
  len : req.len.toNat = o.aw.beats
  size : req.size.toNat = o.aw.bytes
  offset : req.offset.toNat = o.beats.length
  le : o.beats.length ≤ o.aw.beats
  data : m.byteAt = o.after

section Beat

variable {m : Memory δ} {req : WriteRequest} {o : OpenWrite}

theorem Follows.waddr_eq (h : Follows m req o) (hlt : o.beats.length < o.aw.beats) :
    waddr req = o.aw.burstAddr o.beats.length := by
  rw [waddr, h.address, h.offset, h.size, burstAddr_eq h.fits hlt]

theorem Follows.beats_lt (h : Follows m req o) : o.aw.beats < 256 := by
  have := req.len.isLt
  have := h.len
  omega

/-- The bytes after one more beat. -/
theorem after_append (w : AxiW) : { o with beats := o.beats ++ [w] }.after =
    w.lanes (o.aw.busWord o.beats.length) o.after 8 := by
  unfold OpenWrite.after
  rw [List.zipIdx_append, List.foldl_append]
  simp

/-- The addresses of the lanes are those of the access. -/
theorem addrOf_busWord (aw : AxiAr) (k j : ℕ) :
    addrOf (aw.busWord k) (bytelane (aw.burstAddr k) + j) = aw.byteAddr k j := by
  unfold AxiAr.byteAddr AxiAr.busWord addrOf bytelane
  rw [← BitVec.ofNat_add, ← Nat.add_assoc, Nat.div_add_mod', BitVec.ofNat_add]
  congr 1

theorem pwrite_inside {address dat : BitVec 64} {n : ℕ} {width : MmioWidth}
    (hw : widthOf n = some width) (hm : ∀ j < n, m.mapped (addrOf (address.setWidth 32) j) = false)
    (hi : Inside m (address.setWidth 32) n) :
    pwrite m address dat n = .ok (putBytes m (address.setWidth 32)
      (dat >>> (bytelane address <<< 3)) n) := by
  have hn := widthOf_bytes hw
  have hpos := bytes_pos width
  have hm₀ : m.mapped (address.setWidth 32) = false := by simpa using hm 0 (by omega)
  have hd₀ : m.inDram (address.setWidth 32) = true := by simpa using hi 0 (by omega)
  rw [pwrite, hw]
  simp only
  rw [write_of_inDram width hm₀ hd₀, hn, bytewise_inside hm hi]

theorem fits_putBytes {aw : AxiAr} (h : aw.Fits m) (addr : Word) (v : BitVec 64) (n : ℕ) :
    aw.Fits (putBytes m addr v n) where
  short := h.short
  dram := by
    rw [← h.dram]
    induction n with
    | zero => rfl
    | succ n ih => exact ih
  unmapped k hk j hj := by
    rw [mapped_putBytes]
    exact h.unmapped k hk j hj
  oneWord := h.oneWord
  start := h.start

/-- One more beat, with the strobe that is expected. -/
theorem Follows.put (h : Follows m req o) (hlt : o.beats.length < o.aw.beats) {w : AxiW}
    {width : MmioWidth}
    (hw : width.bytes = o.aw.bytes) (hs : w.strb = excpWstrb (o.aw.burstAddr o.beats.length) width)
    (src : BitVec 64) : Follows
      (putBytes m ((o.aw.burstAddr o.beats.length).setWidth 32)
        (axiGetWdata w src >>> (bytelane (o.aw.burstAddr o.beats.length) <<< 3)) o.aw.bytes)
      { req with offset := req.offset + 1 } { o with beats := o.beats ++ [w] } := by
  have hword : bytelane (o.aw.burstAddr o.beats.length) + o.aw.bytes ≤ 8 := h.fits.oneWord _ hlt
  have hstrb : ∀ n, n < 8 → w.strb.getLsbD n =
      decide (bytelane (o.aw.burstAddr o.beats.length) ≤ n ∧
      n < bytelane (o.aw.burstAddr o.beats.length) + o.aw.bytes) := by
    intro n _
    rw [hs, getLsbD_excpWstrb (by omega), hw]
  refine { h with
    fits := fits_putBytes h.fits _ _ _
    offset := ?_
    le := ?_
    data := ?_ }
  · have hoff := h.offset
    have hlen := h.beats_lt
    show (req.offset + 1).toNat = _
    rw [BitVec.toNat_add, List.length_append, hoff]
    exact Nat.mod_eq_of_lt (show o.beats.length + 1 < 256 by omega)
  · rw [List.length_append]
    exact hlt
  · rw [after_append, ← h.data, lanes_eq (addrOf_busWord o.aw o.beats.length) hstrb ?_ (le_refl 8)]
    · rw [Nat.min_eq_right (by omega)]
    · intro j hj hlt
      rw [byteOf_ushiftRight]
      refine byteOf_axiGetWdata w src hj ?_
      rw [hstrb _ hj]
      exact decide_eq_true ⟨by omega, by omega⟩

/-- **A beat of a write that fits** is applied lane by lane. -/
theorem acceptBeat_eq (h : Follows m req o) (hlt : o.beats.length < o.aw.beats) {w : AxiW}
    {r : Memory δ × WriteRequest} (hr : acceptBeat m w req = .ok r) :
    Follows r.1 r.2 { o with beats := o.beats ++ [w] } ∧ r.2.respInflight = req.respInflight := by
  have hle := bytes_le_eight h.fits
  obtain ⟨width, hw, hbytes⟩ := exists_width hle
  have hm : ∀ j < o.aw.bytes, m.mapped (addrOf ((o.aw.burstAddr o.beats.length).setWidth 32) j) =
    false :=
    h.fits.unmapped _ hlt
  unfold acceptBeat at hr
  rw [h.size, if_neg (by omega), h.waddr_eq hlt] at hr
  cases hp : pread m (o.aw.burstAddr o.beats.length) o.aw.bytes with
  | error e =>
      rw [hp] at hr
      cases hr
  | ok q =>
      obtain ⟨wdat, m₁⟩ := q
      obtain ⟨rfl, hi⟩ := pread_unmapped hm hp
      rw [hp] at hr
      by_cases hs : w.strb = excpWstrb (o.aw.burstAddr o.beats.length) width
      · simp only [checkWstrb, hw, bind, Except.bind, if_pos hs, pwrite_inside hw hm hi] at hr
        split at hr
        · cases hr
        · cases hr
          exact ⟨h.put hlt hbytes hs wdat, rfl⟩
      · simp only [checkWstrb, hw, bind, Except.bind, if_neg hs] at hr
        cases hr

end Beat

/-! ### What the edges keep -/

/-- The request and the open write.  A request whose answer is under way has had its last beat, and
there is one answer under way for it: the simulator of the memory owes it, or the master. -/
structure Core (s : CrossbarW δ) (o : Option OpenWrite) : Prop where
  rel : Option.Rel (Follows s.mem) s.waitReqW o
  complete : ∀ req, s.waitReqW = some req → req.respInflight = true → req.offset = req.len
  owed : s.pending + s.waitRespB.isSome.toNat = (s.waitReqW.any (·.respInflight)).toNat

/-- A beat is accepted with an address, or if there are beats to go. -/
structure Ready (s : CrossbarW δ) (o : Option OpenWrite) : Prop extends Core s o where
  awReady : s.awReady = true → s.waitReqW = none
  wReady : s.wReady = true → s.awReady = true ∨ ∃ req, s.waitReqW = some req ∧ req.offset ≠ req.len

section Edges

variable {s t : CrossbarW δ} {x : CrossbarWIn δ} {g : SlaveLog} {o : Option OpenWrite}

theorem Follows.withDev {m : Memory δ} {req : WriteRequest} {o : OpenWrite}
    (h : Follows m req o) (d : δ) : Follows { m with dev := d } req o :=
  { h with fits := ⟨h.fits.short, h.fits.dram, h.fits.unmapped, h.fits.oneWord, h.fits.start⟩ }

theorem rel_withDev {m : Memory δ} {r : Option WriteRequest}
    (h : Option.Rel (Follows m) r o) (d : δ) : Option.Rel (Follows { m with dev := d }) r o := by
  cases h with
  | none => exact .none
  | some hf => exact .some (hf.withDev d)

theorem Ready.withDev (h : Ready s o) (x : CrossbarWIn δ) : Ready (s.withDev x) o :=
  ⟨⟨rel_withDev h.rel x.dev, h.complete, h.owed⟩, h.awReady, h.wReady⟩

/-- An answer that the master has not taken is that of a request. -/
theorem Core.answer (h : Core s o) (hb : s.waitRespB.isSome = true) :
    s.pending = 0 ∧ ∃ req, s.waitReqW = some req ∧ req.respInflight = true := by
  have ho := h.owed
  rw [hb] at ho
  cases hr : s.waitReqW with
  | none =>
      rw [hr] at ho
      simp at ho
  | some req =>
      rw [hr] at ho
      cases hi : req.respInflight with
      | false => simp [hi] at ho
      | true =>
          refine ⟨?_, req, rfl, hi⟩
          simpa [hi] using ho

/-- The acknowledgement. -/
theorem Ready.wackFire (h : Ready s g.opened) (ht : s.wackFire x = .ok t) :
    Ready t (g.ack s x).opened := by
  unfold CrossbarW.wackFire at ht
  unfold SlaveLog.ack
  split at ht
  · rename_i hf
    rw [if_pos hf]
    split at ht
    · cases ht
    · rename_i hn
      cases ht
      obtain ⟨hp, req, hreq, hi⟩ := h.answer (by simpa [Option.isSome_iff_ne_none] using hn)
      refine ⟨⟨.none, fun _ hr => (by cases hr), ?_⟩, fun _ => rfl, fun hw => ?_⟩
      · simpa using hp
      · rcases h.wReady hw with ha | ⟨req', hreq', hne⟩
        · exact Or.inl ha
        · rw [hreq] at hreq'
          cases hreq'
          exact absurd (h.complete req hreq hi) hne
  · rename_i hf
    cases ht
    rw [if_neg hf]
    exact h

theorem wackFire_frame (ht : s.wackFire x = .ok t) :
    t.awReady = s.awReady ∧ t.wReady = s.wReady ∧ t.mem = s.mem := by
  unfold CrossbarW.wackFire at ht
  split at ht
  · split at ht
    · cases ht
    · cases ht
      exact ⟨rfl, rfl, rfl⟩
  · cases ht
    exact ⟨rfl, rfl, rfl⟩

/-- The program does not end at an acknowledgement. -/
theorem wackFire_ok (hb : s.bValid = s.waitRespB.isSome) : ∃ t, s.wackFire x = .ok t := by
  unfold CrossbarW.wackFire
  split
  · rename_i hf
    rw [Bool.and_eq_true, hb] at hf
    rw [if_neg (by simp [Option.isSome_iff_ne_none.1 hf.1])]
    exact ⟨_, rfl⟩
  · exact ⟨_, rfl⟩

theorem address_opened {aw : AxiAr} (hx : x.aw = some aw) (ha : s.awReady = true) :
    (g.address s x).opened = some ⟨aw, [], s.mem.byteAt⟩ := by
  rw [SlaveLog.address, hx]
  simp only [ha, if_true]

theorem axiRequest_eq {m : Memory δ} {aw : AxiAr} {req : WriteRequest}
    (h : axiRequest m aw = .ok req) : (1 <<< aw.size.toNat : BitVec 8).toNat ≤ 8 ∧
      req = ⟨aw.addr, isMmio m aw.addr, aw.len + 1, 1 <<< aw.size.toNat, 0, aw.id, false⟩ := by
  unfold axiRequest at h
  simp only at h
  split at h
  · cases h
  · rename_i hc
    cases h
    refine ⟨?_, rfl⟩
    rw [not_or, not_lt, not_lt] at hc
    refine hc.2.trans ?_
    unfold getConstraint
    split <;> decide

/-- The request of an address that fits. -/
theorem follows_axiRequest {m : Memory δ} {aw : AxiAr} {req : WriteRequest} (hf : aw.Fits m)
    (h : axiRequest m aw = .ok req) :
    Follows m req ⟨aw, [], m.byteAt⟩ ∧ req.offset ≠ req.len ∧ req.respInflight = false := by
  obtain ⟨hs, rfl⟩ := axiRequest_eq h
  have hle := bytes_le_eight hf
  have hlt : aw.len.toNat + 1 < 256 := by
    have := hf.short
    bv_omega
  have hlen : (aw.len + 1).toNat = aw.len.toNat + 1 := by
    rw [BitVec.toNat_add]
    exact Nat.mod_eq_of_lt hlt
  refine ⟨⟨hf, rfl, hf.dram, hlen, ?_, rfl, Nat.zero_le _, rfl⟩, ?_, rfl⟩
  · show ((1 : BitVec 8) <<< aw.size.toNat).toNat = 2 ^ aw.size.toNat
    rw [BitVec.toNat_shiftLeft, Nat.shiftLeft_eq]
    unfold AxiAr.bytes at hle
    exact (congrArg (· % 2 ^ 8) (Nat.one_mul _)).trans (Nat.mod_eq_of_lt (by omega))
  · intro h0
    have := congrArg BitVec.toNat h0
    rw [hlen] at this
    cases this

/-- The address. -/
theorem Ready.waddrFire (h : Ready s g.opened) (hx : s.awReady = true → x.aw.isSome = true)
    (hok : ∀ aw, x.aw = some aw → s.awReady = true → Accepts s.mem aw → aw.Fits s.mem)
    (ht : s.waddrFire x = .ok t) : Core t (g.address s x).opened ∧
      (t.wReady = true → ∃ req, t.waitReqW = some req ∧ req.offset ≠ req.len) ∧
        t.wReady = s.wReady := by
  unfold CrossbarW.waddrFire at ht
  cases ha : s.awReady with
  | false =>
      have hg : g.address s x = g := by
        unfold SlaveLog.address
        rw [ha]
        cases x.aw <;> rfl
      have hst : s = t := by
        rw [ha] at ht
        cases hx : x.aw <;> rw [hx] at ht <;> cases ht <;> rfl
      rw [hg, ← hst]
      refine ⟨h.toCore, fun hw => ?_, rfl⟩
      exact (h.wReady hw).resolve_left (by simp [ha])
  | true =>
      obtain ⟨aw, hax⟩ := Option.isSome_iff_exists.1 (hx ha)
      rw [address_opened hax ha]
      rw [hax, ha] at ht
      simp only [if_true] at ht
      split at ht
      · cases ht
      · rename_i hb
        rw [Bool.or_eq_true, not_or, Bool.not_eq_true', Bool.not_eq_false] at hb
        cases hr : axiRequest s.mem aw with
        | error e =>
            rw [hr] at ht
            cases ht
        | ok req =>
            rw [hr] at ht
            cases ht
            obtain ⟨hf, hne, hi⟩ := follows_axiRequest (hok aw hax ha ⟨hb.1, req, hr⟩) hr
            refine ⟨⟨.some hf, ?_, ?_⟩, fun _ => ⟨req, rfl, hne⟩, rfl⟩
            · intro req' hreq' hi'
              cases hreq'
              rw [hi] at hi'
              cases hi'
            · have ho := h.owed
              rw [h.awReady ha] at ho
              simpa [hi] using ho

/-- A beat belongs to the open write. -/
theorem Core.beat (h : Core s g.opened) {req : WriteRequest} (hreq : s.waitReqW = some req)
    (hne : req.offset ≠ req.len) :
    ∃ o, g.opened = some o ∧ Follows s.mem req o ∧ o.beats.length < o.aw.beats ∧
      req.respInflight = false := by
  have hrel := h.rel
  rw [hreq] at hrel
  cases ho : g.opened with
  | none =>
      rw [ho] at hrel
      cases hrel
  | some o =>
      rw [ho] at hrel
      cases hrel with
      | some hf =>
          refine ⟨o, rfl, hf, ?_, ?_⟩
          · refine lt_of_le_of_ne hf.le fun he => hne (BitVec.eq_of_toNat_eq ?_)
            rw [hf.offset, hf.len, he]
          · by_contra hi
            exact hne (h.complete req hreq (by simpa using hi))

theorem Core.wdataFire (h : Core s g.opened)
    (hw : s.wReady = true → ∃ req, s.waitReqW = some req ∧ req.offset ≠ req.len)
    (ht : s.wdataFire x = .ok t) : Core t (g.beat s x).opened := by
  unfold CrossbarW.wdataFire at ht
  unfold SlaveLog.beat
  cases hx : x.w with
  | none =>
      rw [hx] at ht
      cases ht
      exact h
  | some w =>
      rw [hx] at ht
      cases hr : s.wReady with
      | false =>
          rw [hr] at ht
          cases ht
          simpa using h
      | true =>
          obtain ⟨req, hreq, hne⟩ := hw hr
          obtain ⟨o, ho, hf, hlt, hi⟩ := h.beat hreq hne
          rw [hr, hreq] at ht
          simp only [if_true] at ht ⊢
          rw [ho]
          simp only [if_pos hlt]
          cases ha : acceptBeat s.mem w req with
          | error e =>
              rw [ha] at ht
              cases ht
          | ok r =>
              rw [ha] at ht
              cases ht
              obtain ⟨hf', hi'⟩ := acceptBeat_eq hf hlt ha
              rw [hi] at hi'
              refine ⟨.some hf', ?_, ?_⟩
              · intro req' hreq' hi''
                cases hreq'
                rw [hi'] at hi''
                cases hi''
              · have hown := h.owed
                rw [hreq] at hown
                simpa [hi, hi'] using hown

/-- No device is read, and the beat is not a stray one. -/
theorem Core.beat_quiet (h : Core s g.opened)
    (hw : s.wReady = true → ∃ req, s.waitReqW = some req ∧ req.offset ≠ req.len) :
    SlaveLog.reads s x = false ∧ (g.beat s x).stray = g.stray := by
  unfold SlaveLog.reads SlaveLog.beat
  cases x.w with
  | none => exact ⟨rfl, rfl⟩
  | some w =>
      cases hr : s.wReady with
      | false =>
          refine ⟨?_, rfl⟩
          cases s.waitReqW <;> rfl
      | true =>
          obtain ⟨req, hreq, hne⟩ := hw hr
          obtain ⟨o, ho, hf, hlt, -⟩ := h.beat hreq hne
          rw [hreq, ho]
          simp only [if_true, if_pos hlt, Bool.true_and, and_true]
          rw [List.any_eq_false]
          intro j hj
          rw [List.mem_range, hf.size] at hj
          rw [hf.waddr_eq hlt]
          exact Bool.eq_false_iff.1 (hf.fits.unmapped _ hlt j hj)

/-- The end of the rising edge. -/
theorem Core.lastBeat (h : Core s o) (x : CrossbarWIn δ) : Core (s.lastBeat x) o := by
  unfold CrossbarW.lastBeat
  cases hreq : s.waitReqW with
  | none => exact h
  | some req =>
      simp only
      split
      · rename_i hc
        rw [Bool.and_eq_true, Bool.not_eq_true', beq_iff_eq] at hc
        have hrel := h.rel
        rw [hreq] at hrel
        cases hrel with
        | some hf =>
            have hd := hf.isMmio
            rw [if_neg (by simp [hd])]
            split
            · refine ⟨.some { hf with }, ?_, ?_⟩
              · intro req' hreq' _
                cases hreq'
                exact hc.2
              · have hown := h.owed
                rw [hreq] at hown
                simp only [Option.any_some, hc.1, Bool.toNat_false] at hown
                simp only [Option.any_some, Bool.toNat_true]
                omega
            · exact h
      · exact h

/-- The response of the falling edge. -/
theorem Core.nextWresp (h : Core s o) (hp : x.dramResp = true → 0 < s.pending) :
    Core (s.nextWresp x) o := by
  unfold CrossbarW.nextWresp
  cases hb : s.waitRespB with
  | some i => exact h
  | none =>
      cases hreq : s.waitReqW with
      | none => exact h
      | some req =>
          simp only
          have hrel := h.rel
          rw [hreq] at hrel
          cases hrel with
          | some hf =>
              rw [hf.isMmio, if_neg (by simp)]
              split
              · rename_i hd
                have hpos := hp hd
                have hown := h.owed
                rw [hb, hreq] at hown
                refine ⟨hreq ▸ .some hf, hreq ▸ h.complete, ?_⟩
                simp only [Option.isSome_none, Bool.toNat_false] at hown ⊢
                simp only [Option.isSome_some, Bool.toNat_true]
                omega
              · exact h

end Edges

/-- What holds between two cycles: the program has ended, or the answer on the bus is that of the
request. -/
structure Tied (q : CrossbarW δ × SlaveLog) : Prop where
  ready : q.1.fault = none → Ready q.1 q.2.opened ∧ q.1.bValid = q.1.waitRespB.isSome
  noStray : q.2.stray = false
  noRead : q.2.devRead = false

section Step

variable {s t : CrossbarW δ} {x : CrossbarWIn δ} {g : SlaveLog} {o : Option OpenWrite}

theorem nextWresp_frame (s : CrossbarW δ) (x : CrossbarWIn δ) :
    (s.nextWresp x).awReady = s.awReady ∧
    (s.nextWresp x).wReady = s.wReady ∧ (s.nextWresp x).waitReqW = s.waitReqW := by
  unfold nextWresp
  split
  · split
    · exact ⟨rfl, rfl, rfl⟩
    · split <;> exact ⟨rfl, rfl, rfl⟩
  · exact ⟨rfl, rfl, rfl⟩

/-- The falling edge. -/
theorem Core.clkFalling (h : Core s o) (hp : x.dramResp = true → 0 < s.pending) :
    Ready (s.clkFalling x) o ∧ (s.clkFalling x).bValid = (s.clkFalling x).waitRespB.isSome := by
  have hr : Core { s with awReady := s.acceptWaddr x, wReady := s.acceptWdata x } o :=
    ⟨h.rel, h.complete, h.owed⟩
  have hc := hr.nextWresp hp
  obtain ⟨ha, hw, hq⟩ := nextWresp_frame { s with
      awReady := s.acceptWaddr x, wReady := s.acceptWdata x } x
  refine ⟨⟨⟨hc.rel, hc.complete, hc.owed⟩, fun haw => ?_, fun hwd => ?_⟩, rfl⟩
  · have hacc : s.acceptWaddr x = true := ha.symm.trans haw
    unfold acceptWaddr at hacc
    rw [Bool.and_eq_true] at hacc
    exact hq.trans (Option.isNone_iff_eq_none.1 hacc.1)
  · have hacc : s.acceptWdata x = true := hw.symm.trans hwd
    unfold acceptWdata at hacc
    rw [Bool.or_eq_true] at hacc
    rcases hacc with haw | hdat
    · exact Or.inl (ha.trans haw)
    · refine Or.inr ?_
      cases hreq : s.waitReqW with
      | none =>
          rw [hreq] at hdat
          cases hdat
      | some req =>
          rw [hreq] at hdat
          simp only [Bool.and_eq_true, bne_iff_ne] at hdat
          exact ⟨req, hq.trans hreq, hdat.2⟩

theorem stray_address (g : SlaveLog) (s : CrossbarW δ) (x : CrossbarWIn δ) :
    ((g.ack s x).address s x).stray = g.stray := by
  have hack : (g.ack s x).stray = g.stray := by
    unfold SlaveLog.ack
    split <;> rfl
  unfold SlaveLog.address
  split
  · split
    · exact hack
    · exact hack
  · exact hack

theorem beat_congr (h : t.wReady = s.wReady) : g.beat t x = g.beat s x := by
  unfold SlaveLog.beat
  rw [h]

/-- A beat together with its address. -/
theorem stray_with_address {aw : AxiAr} (hx : x.aw = some aw) (ha : s.awReady = true) :
    (((g.ack s x).address s x).beat s x).stray = g.stray := by
  rw [← stray_address g s x]
  unfold SlaveLog.beat
  rw [address_opened hx ha]
  split
  · split
    · simp only
      rw [if_pos (show ([] : List AxiW).length < aw.beats from Nat.succ_pos _)]
    · rfl
  · rfl

/-- The program ends at the address only if there is one. -/
theorem waddrFire_error {e : Fault} (h : s.waddrFire x = .error e) :
    s.awReady = true ∧ ∃ aw, x.aw = some aw := by
  unfold waddrFire at h
  cases hx : x.aw with
  | none =>
      rw [hx] at h
      cases h
  | some aw =>
      refine ⟨?_, aw, rfl⟩
      by_contra ha
      rw [hx] at h
      simp only [if_neg ha] at h
      cases h

/-- **One cycle.** -/
theorem Tied.next (h : Tied (s, g)) (hx : s.awReady = true → x.aw.isSome = true)
    (hd : x.dramResp = true → s.owes x)
    (hok : ∀ aw, x.aw = some aw → s.awReady = true → Accepts s.mem aw → aw.Fits s.mem) :
    Tied (s.next x, g.upd s x) := by
  cases hfault : s.fault with
  | some e =>
      have hn : s.next x = s := by simp [CrossbarW.next, hfault]
      have hu : g.upd s x = g := by simp [SlaveLog.upd, hfault]
      rw [hn, hu]
      exact h
  | none =>
      obtain ⟨hr, hb⟩ := h.ready hfault
      have hstray : g.stray = false := h.noStray
      have hread : g.devRead = false := h.noRead
      have hr' := hr.withDev x
      obtain ⟨t₁, ht₁⟩ := wackFire_ok (s := s.withDev x) (x := x) hb
      obtain ⟨ha₁, hw₁, hm₁⟩ := wackFire_frame ht₁
      have h₁ := hr'.wackFire (g := g) ht₁
      have haddr : (s.withDev x).addressed x = t₁.waddrFire x := by
        rw [addressed, ht₁]
        rfl
      have hu : g.upd s x = { ((g.ack s x).address s x).beat s x with
          devRead := g.devRead || SlaveLog.readsDev s x } := by simp [SlaveLog.upd, hfault]
      have hn : s.next x = match (s.withDev x).clkRising x with
          | .ok s => s.clkFalling x
          | .error e => { s with fault := some e } := by simp [CrossbarW.next, hfault]
      cases ht₂ : t₁.waddrFire x with
      | error e =>
          obtain ⟨haw, aw, hax⟩ := waddrFire_error ht₂
          have hrise : (s.withDev x).clkRising x = .error e := by
            rw [clkRising, haddr, ht₂]
            rfl
          rw [hn, hrise, hu]
          refine ⟨fun hf => (by cases hf), ?_, ?_⟩
          · exact (stray_with_address hax (ha₁.symm.trans haw)).trans hstray
          · simp [SlaveLog.readsDev, haddr, ht₂, hread]
      | ok t₂ =>
          have hg : (g.ack s x).address t₁ x = (g.ack s x).address s x := by
            unfold SlaveLog.address
            rw [ha₁, hm₁]
            rfl
          have hax : t₁.awReady = true → x.aw.isSome = true := fun ha => hx (ha₁.symm.trans ha)
          have hfit : ∀ aw, x.aw = some aw → t₁.awReady = true → Accepts t₁.mem aw →
              aw.Fits t₁.mem := by
            intro aw haw ha hacc
            rw [hm₁] at hacc ⊢
            have hf := hok aw haw (ha₁.symm.trans ha) hacc
            exact ⟨hf.short, hf.dram, hf.unmapped, hf.oneWord, hf.start⟩
          obtain ⟨h₂, hw₂, hwr⟩ := h₁.waddrFire (g := g.ack s x) hax hfit ht₂
          rw [hg] at h₂
          have hbeat : ((g.ack s x).address s x).beat t₂ x = ((g.ack s x).address s x).beat s x :=
            beat_congr (hwr.trans hw₁)
          obtain ⟨hreads, hst⟩ := h₂.beat_quiet (x := x) hw₂
          rw [hbeat] at hst
          have hlog : (g.upd s x).stray = false := by
            rw [hu]
            exact hst.trans ((stray_address g s x).trans hstray)
          have hdev : (g.upd s x).devRead = false := by
            rw [hu]
            simp [SlaveLog.readsDev, haddr, ht₂, hreads, hread]
          refine ⟨fun hf => ?_, hlog, hdev⟩
          cases ht₃ : t₂.wdataFire x with
          | error e =>
              have hrise : (s.withDev x).clkRising x = .error e := by
                rw [clkRising, haddr, ht₂]
                simp only [bind, Except.bind, ht₃]
              rw [hn, hrise] at hf
              cases hf
          | ok t₃ =>
              have hrise : (s.withDev x).clkRising x = .ok (t₃.lastBeat x) := by
                rw [clkRising, haddr, ht₂]
                simp only [bind, Except.bind, ht₃]
                rfl
              have h₃ := h₂.wdataFire hw₂ ht₃
              rw [hbeat] at h₃
              rw [hn, hrise, hu]
              exact (h₃.lastBeat x).clkFalling fun hr => hd hr _ hrise

end Step

/-- What follows from it for the bus. -/
theorem Tied.orderly {q : CrossbarW δ × SlaveLog} (h : Tied q) : Orderly q.1 q.2 := by
  refine ⟨fun hf hb => ?_, fun hf o ho => ?_, h.noStray, h.noRead⟩
  · obtain ⟨hr, hbv⟩ := h.ready hf
    obtain ⟨-, req, hreq, hi⟩ := hr.answer (hbv ▸ hb)
    have hc := hr.complete req hreq hi
    have hrel := hr.rel
    rw [hreq] at hrel
    cases ho : q.2.opened with
    | none =>
        rw [ho] at hrel
        cases hrel
    | some o =>
        rw [ho] at hrel
        cases hrel with
        | some hfol =>
            refine ⟨o, rfl, ?_⟩
            rw [← hfol.offset, ← hfol.len, hc]
  · have hrel := (h.ready hf).1.rel
    rw [ho] at hrel
    cases hreq : q.1.waitReqW with
    | none =>
        rw [hreq] at hrel
        cases hrel
    | some req =>
        rw [hreq] at hrel
        cases hrel with
        | some hfol => exact hfol.data

/-- **The writes are orderly** as long as the crossbar accepts no others than those that fit. -/
theorem orderly_of_fits (m : Memory δ) {q : CrossbarW δ × SlaveLog}
    (h : (logged m AxiAr.Fits).Reach q) : Orderly q.1 q.2 := by
  have hreset : Tied (logged m AxiAr.Fits).reset := by
    refine ⟨fun _ => ⟨⟨⟨.none, fun _ hr => ?_, rfl⟩, fun _ => rfl, fun hw => ?_⟩, rfl⟩, rfl, rfl⟩
    · cases hr
    · cases hw
  exact (h.inv hreset fun q x hq hx => hq.next hx.1.1 hx.1.2 hx.2).orderly

/-- A cycle in which the master asks to write the word `0x01020304` at an address, with or without
its data; in the last one the simulator of the memory takes the write and answers. -/
def wordWrite (m : Memory δ) (addr : BitVec 64) (data last : Bool) : CrossbarWIn δ where
  dev := m.dev
  aw := some ⟨addr, 0, 2, 1, 0⟩
  w := if data then some ⟨0x01020304, 0x0f⟩ else none
  bReady := false
  willAcceptLast := last
  awNext := some addr
  willAccept := true
  dramResp := last

/-- The simulator of the memory has the word at the second edge. -/
theorem wordWrite_owes :
    owes ((reset Memory.small).next (wordWrite Memory.small 0x80000010 true false))
    (wordWrite Memory.small 0x80000010 true true) := by
  have hp : ((CrossbarW.clkRising
      (((reset Memory.small).next (wordWrite Memory.small 0x80000010 true false)).withDev
        (wordWrite Memory.small 0x80000010 true true))
      (wordWrite Memory.small 0x80000010 true true)).toOption.map (·.pending)) =
        some 1 := by decide +kernel
  intro t ht
  rw [ht] at hp
  rw [show t.pending = 1 from Option.some.inj hp]
  exact Nat.one_pos

/-- A word of the memory is written and answered. -/
theorem orderly_of_fits_word :
    Orderly ((logged Memory.small AxiAr.Fits).run
        [wordWrite Memory.small 0x80000010 true false,
          wordWrite Memory.small 0x80000010 true true]).1
      ((logged Memory.small AxiAr.Fits).run
        [wordWrite Memory.small 0x80000010 true false,
          wordWrite Memory.small 0x80000010 true true]).2 := by
  refine orderly_of_fits Memory.small
    (.tick (.tick .reset ⟨⟨fun _ => rfl, fun hd => ?_⟩, fun _ _ ha => ?_⟩)
    ⟨⟨fun _ => rfl, fun _ => wordWrite_owes⟩, fun aw haw _ _ => ?_⟩)
  · cases hd
  · cases ha
  · cases haw
    exact ⟨by decide, by decide, by decide, by decide, by decide⟩

/-! ### A device -/

/-- The answer is on the bus before the first beat. -/
theorem early_answer : ¬ ∀ (δ : Type) (m : Memory δ) (q : CrossbarW δ × SlaveLog),
    (logged m fun _ _ => True).Reach q → Orderly q.1 q.2 := by
  intro h
  let x := wordWrite Memory.small 0x1000 false false
  have hreach : (logged Memory.small fun _ _ => True).Reach
      ((logged Memory.small fun _ _ => True).run [x, x]) := by
    refine .tick (.tick .reset ⟨⟨fun _ => rfl, fun hd => ?_⟩, fun _ _ _ _ => trivial⟩)
      ⟨⟨fun _ => rfl, fun hd => ?_⟩, fun _ _ _ _ => trivial⟩
    · cases hd
    · cases hd
  obtain ⟨o, ho, hlen⟩ := (h Unit Memory.small _ hreach).answered (by decide +kernel)
    (by decide +kernel)
  cases ho
  exact absurd hlen (by decide)

end CrossbarW

end NanoCpu
