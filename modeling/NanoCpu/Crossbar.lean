/-
**The AXI slave of the emulator, read bursts** (`em/csrc/peripheral/axi4-crossbar.cc`).

When the crossbar accepts a read address it checks the burst, reads the memory for every beat and
keeps the words in a buffer of 64; when the memory simulator has answered, it puts the words on the
bus one after the other, the next one as soon as the master has taken the one before.  The number of
beats is one more than the length field of the burst and is kept, like the field, in eight bits: a
burst of 256 beats is counted as one of none.  It passes the checks, its words are never read, no
beat is the last one, and the beats run over the end of the buffer.  All shorter bursts are served
as they should be.

Main definitions:

* `AxiAr`, `Axi4CrossbarRequest` — an address, and a request under way;
* `Crossbar.pread`, `Crossbar.axiReadData`, `Crossbar.axiRequest` — accepting an address;
* `Crossbar.clkRising`, `Crossbar.clkFalling`, `Crossbar.next` — the two halves of a cycle;
* `AxiAr.burstAddr`, `Crossbar.reads`, `Crossbar.Serves` — the beats of a burst and what a slave
  owes.

Main results:

* `Crossbar.burstLoop_eq`, `AxiAr.walk_eq` — the loop reads the memory at the addresses of the
  burst;
* `Crossbar.serve_resp` — a request that is answered is delivered, a beat for every cycle in which
  the master is ready;
* `Crossbar.serves_iff` — a burst is served exactly if it has less than 256 beats.
-/

import NanoCpu.EmMemory
import NanoCpu.Machine

set_option relaxedAutoImplicit false
set_option autoImplicit false

namespace NanoCpu

/-- The read address channel. -/
structure AxiAr where
  addr : BitVec 64
  len : BitVec 8
  size : BitVec 3
  burst : BitVec 2
  id : BitVec 8
  deriving DecidableEq

/-- How the program ends early: at an assertion or in a panic, at a division by zero, at an index
beyond the buffer. -/
inductive Fault
  | abort | divide | range
  deriving DecidableEq

/-- `Axi4CrossbarRequest`, of a read. -/
structure Axi4CrossbarRequest where
  address : BitVec 64
  isMmio : Bool
  len : BitVec 8
  size : BitVec 8
  offset : BitVec 8
  id : BitVec 8
  data : Vector (BitVec 64) 64
  maxBurstLen : ℕ
  maxSize : ℕ

namespace Crossbar

variable {δ : Type*}

/-! ### Accepting an address -/

/-- `is_mmio`. -/
def isMmio (m : Memory δ) (address : BitVec 64) : Bool :=
  decide (m.mmioPhyBase.toNat ≤ address.toNat ∧ address.toNat ≤ m.mmioPhyEndAddr.toNat)

/-- `get_constraint`: the flash memory, and all the rest. -/
def getConstraint (m : Memory δ) (address : BitVec 64) : ℕ × ℕ :=
  if (m.mmioPhyBase + 0x30000000).toNat ≤ address.toNat ∧
      address.toNat ≤ (m.mmioPhyBase + 0x3fffffff).toNat then (1, 4)
  else (256, 8)

/-- The memory access of `pread`; no other size is accepted. -/
def readSized (m : Memory δ) (address : BitVec 64) (beatsize : ℕ) : Option (BitVec 64 × Memory δ) :=
  match beatsize with
  | 8 => m.phyReadm64 (address.setWidth 32)
  | 4 => (m.phyReadm32 (address.setWidth 32)).map fun r => (r.1.setWidth 64, r.2)
  | 2 => (m.phyReadm16 (address.setWidth 32)).map fun r => (r.1.setWidth 64, r.2)
  | 1 => (m.phyReadm8 (address.setWidth 32)).map fun r => (r.1.setWidth 64, r.2)
  | _ => none

/-- `bytelane`. -/
def bytelane (address : BitVec 64) : ℕ := address.toNat % 8

def pread (m : Memory δ) (address : BitVec 64) (beatsize : ℕ) :
    Except Fault (BitVec 64 × Memory δ) :=
  match readSized m address beatsize with
  | some (dat, m) => .ok (dat <<< (bytelane address <<< 3), m)
  | none => .error .abort

/-- A write to `req->data`. -/
def put (data : Vector (BitVec 64) 64) (i : ℕ) (v : BitVec 64) :
    Except Fault (Vector (BitVec 64) 64) :=
  if h : i < 64 then .ok (data.set i v) else .error .range

/-- The loops of `axi_read_data` with `n` beats to go; `wrap` is what is done to the address
first. -/
def burstLoop (wrap : BitVec 64 → BitVec 64) (beatsize : ℕ) :
    ℕ → ℕ → BitVec 64 → Vector (BitVec 64) 64 → Memory δ → Except Fault (Vector (BitVec 64) 64)
  | 0, _, _, data, _ => .ok data
  | n + 1, i, address, data, m =>
      match pread m (wrap address) beatsize with
      | .error e => .error e
      | .ok (v, m) =>
          match put data i v with
          | .error e => .error e
          | .ok data =>
              burstLoop wrap beatsize n (i + 1) (wrap address + BitVec.ofNat 64 beatsize) data m

/-- The kinds of bursts in `axi_read_data`. -/
def readBurst (m : Memory δ) (ar : AxiAr) (beatsize : ℕ) (beatlen : BitVec 8)
    (data : Vector (BitVec 64) 64) : Except Fault (Vector (BitVec 64) 64) :=
  let transactionSize := beatsize * beatlen.toNat
  if ar.burst = 0 then .error .abort
  else if ar.burst = 1 then burstLoop id beatsize beatlen.toNat 0 ar.addr data m
  else if ar.burst = 2 then
    if transactionSize = 0 then .error .divide
    else
      let low : BitVec 64 := BitVec.ofNat 64 (ar.addr.toNat / transactionSize * transactionSize)
      let high : BitVec 64 := low + BitVec.ofNat 64 transactionSize
      burstLoop (fun a => if a = high then low else a) beatsize beatlen.toNat 0 ar.addr data m
  else .error .abort

/-- `axi_read_data`. -/
def axiReadData (m : Memory δ) (ar : AxiAr) (req : Axi4CrossbarRequest) :
    Except Fault Axi4CrossbarRequest :=
  let beatsize := 1 <<< ar.size.toNat
  let beatlen : BitVec 8 := ar.len + 1
  if 8 < beatsize then .error .abort
  else if 64 < beatlen.toNat then .error .abort
  else if beatsize * beatlen.toNat % beatsize ≠ 0 then .error .abort
  else if req.maxBurstLen < beatlen.toNat ∨ req.maxSize < beatsize then .error .abort
  else (readBurst m ar beatsize beatlen req.data).map fun d => { req with
    data := d, len := beatlen, size := BitVec.ofNat 8 beatsize, offset := 0, id := ar.id }

/-- The request that `axi_request` hands to `axi_read_data`; the object is filled with zeros
first. -/
def newRequest (m : Memory δ) (address : BitVec 64) : Axi4CrossbarRequest where
  address := address
  isMmio := isMmio m address
  len := 0
  size := 0
  offset := 0
  id := 0
  data := Vector.replicate 64 0
  maxBurstLen := (getConstraint m address).1
  maxSize := (getConstraint m address).2

/-- `axi_request`, of a read. -/
def axiRequest (m : Memory δ) (ar : AxiAr) : Except Fault Axi4CrossbarRequest :=
  axiReadData m ar (newRequest m ar.addr)

end Crossbar

/-! ### The crossbar -/

/-- The read side of the crossbar, with what it drives on the bus.  `waitRespR` is the request of
the response, which is the one of `waitReqR`; nobody looks into the latter while there is a
response. -/
structure Crossbar where
  waitReqR : Option Axi4CrossbarRequest
  waitRespR : Option Axi4CrossbarRequest
  arReady : Bool
  rValid : Bool
  rData : BitVec 64
  rLast : Bool
  rId : BitVec 8
  fault : Option Fault

/-- The inputs of one cycle: the memory and the master at the rising edge, then the address that the
master shows at the falling edge, whether the simulator of the memory would take a request, and
whether it answers the one it has. -/
structure CrossbarIn (δ : Type*) where
  mem : Memory δ
  ar : Option AxiAr
  rReady : Bool
  arNext : Option (BitVec 64)
  willAccept : Bool
  dramResp : Bool

/-- A beat on the read data channel. -/
structure ReadBeat where
  data : BitVec 64
  last : Bool
  deriving DecidableEq

namespace Crossbar

variable {δ : Type*}

def reset : Crossbar where
  waitReqR := none
  waitRespR := none
  arReady := false
  rValid := false
  rData := 0
  rLast := false
  rId := 0
  fault := none

variable (s : Crossbar) (x : CrossbarIn δ)

/-- The first part of `clk_rising`: the master takes a beat. -/
def rdataFire : Crossbar :=
  if s.rValid && x.rReady then
    match s.waitRespR with
    | none => { s with fault := some .abort }
    | some req =>
        if req.offset + 1 = req.len then { s with waitRespR := none, waitReqR := none }
        else { s with waitRespR := some { req with offset := req.offset + 1 } }
  else s

/-- The second part: an address is accepted. -/
def raddrFire : Crossbar :=
  match x.ar with
  | some ar =>
      if s.arReady then
        match axiRequest x.mem ar with
        | .ok req => { s with waitReqR := some req }
        | .error e => { s with fault := some e }
      else s
  | none => s

def clkRising : Crossbar := (s.rdataFire x).raddrFire x

/-- The first part of `clk_falling`: the next response. -/
def nextResp : Crossbar :=
  match s.waitRespR, s.waitReqR with
  | none, some req => if req.isMmio || x.dramResp then { s with waitRespR := some req } else s
  | _, _ => s

/-- The second part: the response is put on the bus. -/
def putRdata : Crossbar :=
  match s.waitRespR with
  | none => { s with rValid := false }
  | some req =>
      match req.data[req.offset.toNat]? with
      | none => { s with fault := some .range }
      | some d => { s with
          rData := d, rValid := true, rLast := decide ((req.offset.toNat : ℤ) = req.len.toNat - 1)
          rId := req.id }

/-- The third part: an address may be accepted. -/
def acceptRaddr : Crossbar :=
  match s.waitReqR, x.arNext with
  | none, some a => { s with arReady := isMmio x.mem a || x.willAccept }
  | _, _ => { s with arReady := false }

def clkFalling : Crossbar := ((s.nextResp x).putRdata).acceptRaddr x

/-- One cycle; a program that has ended stays where it is. -/
def next : Crossbar :=
  if s.fault.isSome then s
  else if (s.clkRising x).fault.isSome then s.clkRising x
  else (s.clkRising x).clkFalling x

/-- The beat that the master takes. -/
def beat : Option ReadBeat :=
  if s.fault = none ∧ s.rValid = true ∧ x.rReady = true then some ⟨s.rData, s.rLast⟩ else none

def machine (δ : Type*) : Machine Crossbar (CrossbarIn δ) where
  reset := reset
  allowed _ _ := True
  next s x := s.next x

/-- The beats that are delivered as long as the request is under way, and how it ends. -/
def serve : Crossbar → List (CrossbarIn δ) → List ReadBeat × Option Fault
  | s, [] => ([], s.fault)
  | s, x :: xs =>
      if s.waitReqR.isNone then ([], s.fault)
      else ((s.beat x).toList ++ (serve (s.next x) xs).1, (serve (s.next x) xs).2)

end Crossbar

/-! ### The beats of a burst -/

namespace AxiAr

variable (ar : AxiAr)

/-- The bytes of a beat. -/
def bytes : ℕ := 2 ^ ar.size.toNat

/-- The beats of the burst, one more than the length field says. -/
def beats : ℕ := ar.len.toNat + 1

def Aligned : Prop := ar.addr.toNat % ar.bytes = 0

/-- The block in which a wrapping burst stays: it is as large as the burst. -/
def low : ℕ := ar.addr.toNat / (ar.bytes * ar.beats) * (ar.bytes * ar.beats)

/-- The address of beat `i`, of an incrementing or a wrapping burst. -/
def burstAddr (i : ℕ) : BitVec 64 :=
  if ar.burst = 2 then
    BitVec.ofNat 64 (ar.low + (ar.addr.toNat - ar.low + i * ar.bytes) % (ar.bytes * ar.beats))
  else BitVec.ofNat 64 (ar.addr.toNat + i * ar.bytes)

end AxiAr

namespace Crossbar

variable {δ : Type*}

/-- What the memory answers to reads of `n` bytes at some addresses, one after the other. -/
def reads (n : ℕ) : List (BitVec 64) → Memory δ → Option (List (BitVec 64))
  | [], _ => some []
  | a :: as, m =>
      match readSized m a n with
      | none => none
      | some (v, m) => (reads n as m).map (v :: ·)

/-- The byte lanes of an access of `n` bytes. -/
def lane (address : BitVec 64) (n : ℕ) (d : BitVec 64) : BitVec 64 :=
  BitVec.ofNat 64 ((d >>> (8 * bytelane address)).toNat % 2 ^ (8 * n))

/-- What the master sees in beats that start with number `k`. -/
def seen (ar : AxiAr) (k : ℕ) (bs : List ReadBeat) : List (BitVec 64 × Bool) :=
  (bs.zipIdx k).map fun p => (lane (ar.burstAddr p.2) ar.bytes p.1.data, p.1.last)

/-- What it should see: the words, and the mark of the last beat on the last beat only. -/
def wanted (ar : AxiAr) (vs : List (BitVec 64)) : List (BitVec 64 × Bool) :=
  vs.zipIdx.map fun p => (p.1, decide (p.2 = ar.len.toNat))

/-- The cycles after the answer of the memory; `now` says that it has answered already. -/
def afterAnswer : Bool → List (CrossbarIn δ) → List (CrossbarIn δ)
  | _, [] => []
  | true, xs => xs
  | false, x :: xs => afterAnswer x.dramResp xs

/-- The request is served: from the answer of the memory on there is a beat for every cycle in which
the master is ready, until all are delivered, and nothing goes wrong. -/
def Serves (s : Crossbar) (m : Memory δ) (ar : AxiAr) (now : Bool) : Prop :=
  ∃ vs, reads ar.bytes ((List.range ar.beats).map ar.burstAddr) m = some vs ∧
    ∀ xs : List (CrossbarIn δ), (serve s xs).2 = none ∧
      seen ar 0 (serve s xs).1 = (wanted ar vs).take ((afterAnswer now xs).countP fun x => x.rReady)

/-! ### The loop of a burst -/

/-- The addresses at which the loop reads. -/
def walk (wrap : BitVec 64 → BitVec 64) (n : ℕ) : ℕ → BitVec 64 → List (BitVec 64)
  | 0, _ => []
  | k + 1, a => wrap a :: walk wrap n k (wrap a + BitVec.ofNat 64 n)

@[simp] theorem walk_length (wrap : BitVec 64 → BitVec 64) (n k : ℕ) (a : BitVec 64) :
    (walk wrap n k a).length = k := by
  induction k generalizing a with
  | zero => rfl
  | succ k ih => simp [walk, ih]

/-- The loop reads the memory at these addresses, and puts each word into its lanes. -/
theorem burstLoop_eq {wrap : BitVec 64 → BitVec 64} {n k i : ℕ} {a : BitVec 64}
    {data d : Vector (BitVec 64) 64} {m : Memory δ} (h : burstLoop wrap n k i a data m = .ok d) :
    ∃ vs, reads n (walk wrap n k a) m = some vs ∧ vs.length = k ∧ (∀ j < i, d[j]? = data[j]?) ∧
      ∀ (j : ℕ) (v b : BitVec 64), vs[j]? = some v → (walk wrap n k a)[j]? = some b →
        d[i + j]? = some (v <<< (bytelane b <<< 3)) := by
  induction k generalizing i a data m with
  | zero =>
      obtain rfl : data = d := by simpa [burstLoop] using h
      exact ⟨[], rfl, rfl, fun _ _ => rfl, fun j v b hv => by simp at hv⟩
  | succ k ih =>
      rw [burstLoop, pread] at h
      cases hr : readSized m (wrap a) n with
      | none => simp [hr] at h
      | some r =>
          obtain ⟨v₀, m'⟩ := r
          simp only [hr] at h
          by_cases hi : i < 64
          · simp only [put, hi, dif_pos] at h
            obtain ⟨vs, hvs, hlen, hlow, hd⟩ := ih h
            refine ⟨v₀ :: vs, by simp [walk, reads, hr, hvs], by simp [hlen], ?_, ?_⟩
            · intro j hj
              rw [hlow j (by omega)]
              simp [show i ≠ j by omega]
            · intro j v b hv hb
              cases j with
              | zero =>
                  obtain rfl : v₀ = v := by simpa using hv
                  obtain rfl : wrap a = b := by simpa [walk] using hb
                  rw [Nat.add_zero, hlow i (by omega)]
                  simp [hi]
              | succ j =>
                  rw [show i + (j + 1) = i + 1 + j by omega]
                  exact hd j v b (by simpa using hv) (by simpa [walk] using hb)
          · simp [put, hi] at h

/-- The loop stays within the buffer as long as it is no longer than the buffer. -/
theorem burstLoop_error {wrap : BitVec 64 → BitVec 64} {n k i : ℕ} {a : BitVec 64}
    {data : Vector (BitVec 64) 64} {m : Memory δ} {e : Fault} (hik : i + k ≤ 64)
    (h : burstLoop wrap n k i a data m = .error e) : e = .abort := by
  induction k generalizing i a data m with
  | zero => simp [burstLoop] at h
  | succ k ih =>
      rw [burstLoop, pread] at h
      cases hr : readSized m (wrap a) n with
      | none => simpa [hr, eq_comm] using h
      | some r =>
          simp only [hr, put, show i < 64 by omega, dif_pos] at h
          exact ih (by omega) h

theorem walk_id (n k : ℕ) (a : BitVec 64) :
    walk id n k a = (List.range k).map fun i => a + BitVec.ofNat 64 (i * n) := by
  induction k generalizing a with
  | zero => rfl
  | succ k ih =>
      rw [walk, ih, List.range_succ_eq_map, List.map_cons, List.map_map]
      have h : ∀ i, id a + BitVec.ofNat 64 n + BitVec.ofNat 64 (i * n) =
          a + BitVec.ofNat 64 ((i + 1) * n) := by
        intro i
        rw [Nat.succ_mul, Nat.add_comm (i * n), BitVec.ofNat_add, ← BitVec.add_assoc]
        rfl
      refine congrArg₂ List.cons (by simp) (List.map_congr_left fun i _ => h i)

/-- In a wrapping burst the address stays in the block of `t` bytes from `low` on. -/
theorem walk_wrap {n t : ℕ} (low : BitVec 64) (ht : t < 2 ^ 64) (h0 : 0 < t) (hn : n ∣ t)
    (k : ℕ) {o : ℕ} (ho : o ≤ t) (hno : n ∣ o) :
    walk (fun a => if a = low + BitVec.ofNat 64 t then low else a) n k (low + BitVec.ofNat 64 o) =
      (List.range k).map fun i => low + BitVec.ofNat 64 ((o + i * n) % t) := by
  induction k generalizing o with
  | zero => rfl
  | succ k ih =>
      have hw : (if low + BitVec.ofNat 64 o = low + BitVec.ofNat 64 t then low
          else low + BitVec.ofNat 64 o) = low + BitVec.ofNat 64 (o % t) := by
        rcases Nat.eq_or_lt_of_le ho with rfl | hlt
        · simp
        · have hne : low + BitVec.ofNat 64 o ≠ low + BitVec.ofNat 64 t := by
            intro h
            have := congrArg BitVec.toNat (BitVec.add_right_inj low |>.1 h)
            rw [BitVec.toNat_ofNat, BitVec.toNat_ofNat, Nat.mod_eq_of_lt ht,
              Nat.mod_eq_of_lt (by omega)] at this
            omega
          rw [if_neg hne, Nat.mod_eq_of_lt hlt]
      have hd : n ∣ o % t := (Nat.dvd_mod_iff hn).2 hno
      have hle : o % t + n ≤ t := by
        obtain ⟨p, hp⟩ := hn
        obtain ⟨q, hq⟩ := hd
        have hlt : o % t < t := Nat.mod_lt _ h0
        have hqp : q < p := by
          by_contra hc
          have := Nat.mul_le_mul_left n (Nat.le_of_not_lt hc)
          omega
        have := Nat.mul_le_mul_left n hqp
        rw [Nat.mul_succ] at this
        omega
      rw [walk, hw, BitVec.add_assoc, ← BitVec.ofNat_add, ih hle (Nat.dvd_add hd (Nat.dvd_refl n)),
        List.range_succ_eq_map, List.map_cons, List.map_map]
      have h : ∀ i, (o % t + n + i * n) % t = (o + (i + 1) * n) % t := by
        intro i
        rw [Nat.succ_mul, Nat.add_assoc, Nat.mod_add_mod, Nat.add_comm n]
      simp [h, Function.comp_def]

variable {ar : AxiAr}

theorem bytes_pos (ar : AxiAr) : 0 < ar.bytes := Nat.two_pow_pos _

theorem bytes_dvd_low (ar : AxiAr) : ar.bytes ∣ ar.low :=
  Dvd.dvd.mul_left ⟨ar.beats, rfl⟩ _

theorem low_le (ar : AxiAr) : ar.low ≤ ar.addr.toNat := Nat.div_mul_le_self _ _

/-- The addresses of an incrementing burst. -/
theorem walk_incr (hb : ar.burst ≠ 2) :
    walk id ar.bytes ar.beats ar.addr = (List.range ar.beats).map ar.burstAddr := by
  rw [walk_id]
  refine List.map_congr_left fun i _ => ?_
  rw [AxiAr.burstAddr, if_neg hb, BitVec.ofNat_add, BitVec.ofNat_toNat, BitVec.setWidth_eq]

/-- The addresses of a wrapping burst. -/
theorem walk_wrapping (ha : ar.Aligned) (hb : ar.burst = 2) (ht : ar.bytes * ar.beats < 2 ^ 64) :
    walk (fun a => if a = BitVec.ofNat 64 ar.low + BitVec.ofNat 64 (ar.bytes * ar.beats)
      then BitVec.ofNat 64 ar.low else a) ar.bytes ar.beats ar.addr =
        (List.range ar.beats).map ar.burstAddr := by
  have h0 : 0 < ar.bytes * ar.beats := Nat.mul_pos (bytes_pos ar) (Nat.succ_pos _)
  have ho : ar.addr.toNat - ar.low ≤ ar.bytes * ar.beats := by
    have hm := Nat.mod_lt ar.addr.toNat h0
    have hd := Nat.div_add_mod ar.addr.toNat (ar.bytes * ar.beats)
    rw [Nat.mul_comm] at hd
    show _ - ar.addr.toNat / (ar.bytes * ar.beats) * (ar.bytes * ar.beats) ≤ _
    omega
  have hno : ar.bytes ∣ ar.addr.toNat - ar.low :=
    Nat.dvd_sub (Nat.dvd_of_mod_eq_zero ha) (bytes_dvd_low ar)
  have haddr : ar.addr = BitVec.ofNat 64 ar.low + BitVec.ofNat 64 (ar.addr.toNat - ar.low) := by
    rw [← BitVec.ofNat_add, Nat.add_sub_cancel' (low_le ar), BitVec.ofNat_toNat, BitVec.setWidth_eq]
  have hw := walk_wrap (BitVec.ofNat 64 ar.low) ht h0 ⟨_, rfl⟩ ar.beats ho hno
  rw [← haddr] at hw
  rw [hw]
  refine List.map_congr_left fun i _ => ?_
  rw [AxiAr.burstAddr, if_pos hb, BitVec.ofNat_add]

/-! ### An accepted burst -/

/-- A request whose buffer holds the words `vs` of the burst. -/
structure Holds (m : Memory δ) (ar : AxiAr) (req : Axi4CrossbarRequest)
    (vs : List (BitVec 64)) : Prop where
  size : ar.size.toNat ≤ 3
  le : ar.beats ≤ 64
  len : req.len.toNat = ar.beats
  offset : req.offset = 0
  mmio : req.isMmio = isMmio m ar.addr
  reads : reads ar.bytes ((List.range ar.beats).map ar.burstAddr) m = some vs
  length : vs.length = ar.beats
  data : ∀ (j : ℕ) (v : BitVec 64), vs[j]? = some v →
    req.data[j]? = some (v <<< (bytelane (ar.burstAddr j) <<< 3))

/-- The number of beats, as it is kept in eight bits. -/
theorem beatlen_eq (h : ar.len ≠ 255) : (ar.len + 1).toNat = ar.beats := by
  have hlt : ar.len.toNat ≠ 255 := fun e => h (BitVec.eq_of_toNat_eq e)
  have := ar.len.isLt
  rw [BitVec.toNat_add, AxiAr.beats]
  exact Nat.mod_eq_of_lt (by simp; omega)

/-- The loop of either kind of burst fills the buffer. -/
theorem holds_of_loop {m : Memory δ} {wrap : BitVec 64 → BitVec 64} (hs : ar.size.toNat ≤ 3)
    (hl : ar.beats ≤ 64) (h : ar.len ≠ 255)
    (hw : walk wrap ar.bytes ar.beats ar.addr = (List.range ar.beats).map ar.burstAddr)
    {d : Vector (BitVec 64) 64}
    (hd : burstLoop wrap ar.bytes ar.beats 0 ar.addr (newRequest m ar.addr).data m = .ok d) :
    ∃ vs, Holds m ar { newRequest m ar.addr with
      data := d, len := ar.len + 1, size := BitVec.ofNat 8 ar.bytes, offset := 0,
      id := ar.id } vs := by
  obtain ⟨vs, hvs, hlen, -, hdata⟩ := burstLoop_eq hd
  rw [hw] at hvs hdata
  refine ⟨vs, hs, hl, beatlen_eq h, rfl, rfl, hvs, hlen, fun j v hv => ?_⟩
  have hj : j < ar.beats := by
    rw [← hlen]
    exact (List.getElem?_eq_some_iff.1 hv).1
  have := hdata j v (ar.burstAddr j) hv (by simp [hj])
  rwa [Nat.zero_add] at this

/-- What is left of `axi_read_data` behind its tests. -/
theorem axiRequest_checks {m : Memory δ} (hp : axiRequest m ar ≠ .error .abort) :
    ar.size.toNat ≤ 3 ∧ (ar.len + 1).toNat ≤ 64 ∧ axiRequest m ar =
      (readBurst m ar ar.bytes (ar.len + 1) (newRequest m ar.addr).data).map fun d =>
        { newRequest m ar.addr with
          data := d, len := ar.len + 1, size := BitVec.ofNat 8 ar.bytes, offset := 0,
          id := ar.id } := by
  have hby : 2 ^ ar.size.toNat = ar.bytes := rfl
  unfold axiRequest axiReadData at hp ⊢
  simp only [Nat.one_shiftLeft, hby] at hp ⊢
  split at hp
  · exact absurd rfl hp
  split at hp
  · exact absurd rfl hp
  split at hp
  · exact absurd rfl hp
  split at hp
  · exact absurd rfl hp
  rename_i h₁ h₂ h₃ h₄
  refine ⟨?_, Nat.le_of_not_lt h₂, by rw [if_neg h₁, if_neg h₂, if_neg h₃, if_neg h₄]⟩
  by_contra hc
  exact h₁ (Nat.lt_of_lt_of_le (by decide) (Nat.pow_le_pow_right (by decide) (Nat.lt_of_not_le hc)))

/-- A burst of less than 256 beats that passes the checks is read into the buffer. -/
theorem axiRequest_ok {m : Memory δ} (ha : ar.Aligned) (h : ar.len ≠ 255)
    (hp : axiRequest m ar ≠ .error .abort) :
    ∃ req vs, axiRequest m ar = .ok req ∧ Holds m ar req vs := by
  obtain ⟨hs, hl, he⟩ := axiRequest_checks hp
  have hn := beatlen_eq h
  rw [hn] at hl
  have hle : ar.bytes * ar.beats < 2 ^ 64 := by
    have h₁ : ar.bytes ≤ 2 ^ 3 := Nat.pow_le_pow_right (by decide) hs
    have := Nat.mul_le_mul h₁ hl
    omega
  have h0 : ar.bytes * ar.beats ≠ 0 :=
    Nat.ne_of_gt (Nat.mul_pos (bytes_pos ar) (Nat.succ_pos _))
  -- either kind of burst is a loop over the addresses of the burst
  have hb : ∃ wrap : BitVec 64 → BitVec 64,
      walk wrap ar.bytes ar.beats ar.addr = (List.range ar.beats).map ar.burstAddr ∧
        readBurst m ar ar.bytes (ar.len + 1) (newRequest m ar.addr).data =
          burstLoop wrap ar.bytes ar.beats 0 ar.addr (newRequest m ar.addr).data m := by
    unfold readBurst at he ⊢
    rw [hn] at he ⊢
    by_cases hb₀ : ar.burst = 0
    · exact absurd (by rw [he, if_pos hb₀]; rfl) hp
    by_cases hb₁ : ar.burst = 1
    · exact ⟨id, walk_incr (by rw [hb₁]; decide), by rw [if_neg hb₀, if_pos hb₁]⟩
    by_cases hb₂ : ar.burst = 2
    · exact ⟨_, walk_wrapping ha hb₂ hle, by
        rw [if_neg hb₀, if_neg hb₁, if_pos hb₂]
        simp only [if_neg h0]
        rfl⟩
    · exact absurd (by rw [he, if_neg hb₀, if_neg hb₁, if_neg hb₂]; rfl) hp
  obtain ⟨wrap, hw, hr⟩ := hb
  rw [hr] at he
  cases hd : burstLoop wrap ar.bytes ar.beats 0 ar.addr (newRequest m ar.addr).data m with
  | error e => exact absurd (by rw [he, hd, burstLoop_error (by omega) hd]; rfl) hp
  | ok d =>
      obtain ⟨vs, hvs⟩ := holds_of_loop hs hl h hw hd
      exact ⟨_, vs, by rw [he, hd]; rfl, hvs⟩

/-- A burst of 256 beats is one of none, and a wrapping one divides by its length. -/
theorem axiRequest_full {m : Memory δ} (h : ar.len = 255) (hp : axiRequest m ar ≠ .error .abort) :
    axiRequest m ar = .error .divide ∨
      ∃ req, axiRequest m ar = .ok req ∧ req.len = 0 ∧ req.offset = 0 ∧
        req.isMmio = isMmio m ar.addr := by
  obtain ⟨-, -, he⟩ := axiRequest_checks hp
  have hn : ar.len + 1 = 0 := by rw [h]; rfl
  rw [hn, readBurst] at he
  by_cases hb₀ : ar.burst = 0
  · exact absurd (by rw [he, if_pos hb₀]; rfl) hp
  by_cases hb₁ : ar.burst = 1
  · right
    rw [if_neg hb₀, if_pos hb₁] at he
    exact ⟨_, he, rfl, rfl, rfl⟩
  by_cases hb₂ : ar.burst = 2
  · left
    rw [he, if_neg hb₀, if_neg hb₁, if_pos hb₂]
    rfl
  · exact absurd (by rw [he, if_neg hb₀, if_neg hb₁, if_neg hb₂]; rfl) hp

/-! ### Delivering the beats -/

/-- Word `k` of the request is on the bus. -/
structure Shows (req : Axi4CrossbarRequest) (k : BitVec 8) (s : Crossbar) : Prop where
  fault : s.fault = none
  waits : s.waitReqR.isSome = true
  resp : s.waitRespR = some { req with offset := k }
  ar : s.arReady = false
  valid : s.rValid = true
  data : req.data[k.toNat]? = some s.rData
  last : s.rLast = decide ((k.toNat : ℤ) = req.len.toNat - 1)

/-- The request waits for the memory. -/
structure Waits (req : Axi4CrossbarRequest) (s : Crossbar) : Prop where
  fault : s.fault = none
  waits : s.waitReqR = some req
  resp : s.waitRespR = none
  ar : s.arReady = false
  valid : s.rValid = false
  mmio : req.isMmio = false

variable {s : Crossbar} {req : Axi4CrossbarRequest} {k : BitVec 8} (x : CrossbarIn δ)

/-- The falling edge puts the word of a response on the bus. -/
theorem falling_shows {d : BitVec 64} (hf : s.fault = none) (hr : s.waitReqR.isSome = true)
    (hs : s.waitRespR = some { req with offset := k }) (hd : req.data[k.toNat]? = some d) :
    Shows req k (s.clkFalling x) := by
  obtain ⟨q, hq⟩ := Option.isSome_iff_exists.1 hr
  have hn : s.nextResp x = s := by simp [nextResp, hs]
  have he : s.clkFalling x = { s with
      rData := d, rValid := true, rLast := decide ((k.toNat : ℤ) = req.len.toNat - 1), rId := req.id
      arReady := false } := by
    simp only [clkFalling, hn, putRdata, hs, hd, acceptRaddr, hq]
  rw [he]
  exact ⟨hf, hr, hs, rfl, rfl, hd, rfl⟩

theorem falling_range (hr : s.waitReqR.isSome = true)
    (hs : s.waitRespR = some { req with offset := k })
    (hd : req.data[k.toNat]? = none) : (s.clkFalling x).fault = some .range := by
  obtain ⟨q, hq⟩ := Option.isSome_iff_exists.1 hr
  have hn : s.nextResp x = s := by simp [nextResp, hs]
  simp only [clkFalling, hn, putRdata, hs, hd, acceptRaddr, hq]

/-- A request that waits for the memory stays, or is answered. -/
theorem falling_waits {d : BitVec 64} (hf : s.fault = none) (hr : s.waitReqR = some req)
    (hs : s.waitRespR = none) (ho : req.offset = 0) (hd : req.data[0]? = some d) :
    (req.isMmio = true ∨ x.dramResp = true → Shows req 0 (s.clkFalling x)) ∧
      (req.isMmio = false → x.dramResp = false → Waits req (s.clkFalling x)) := by
  constructor
  · intro h
    have hn : s.nextResp x = { s with waitRespR := some { req with offset := 0 } } := by
      have hreq : req = { req with offset := 0 } := by rw [← ho]
      rw [← hreq]
      rcases h with h | h <;> simp [nextResp, hs, hr, h]
    have hshows : Shows req 0 ((s.nextResp x).clkFalling x) :=
      falling_shows x (by rw [hn]; exact hf) (by rw [hn]; simp [hr]) (by rw [hn]) hd
    have hi : (s.nextResp x).nextResp x = s.nextResp x := by rw [hn]; simp [nextResp]
    unfold clkFalling at hshows ⊢
    rwa [hi] at hshows
  · intro hm hx
    have he : s.clkFalling x = { s with rValid := false, arReady := false } := by
      simp [clkFalling, nextResp, putRdata, acceptRaddr, hs, hr, hm, hx]
    rw [he]
    exact ⟨hf, hr, hs, rfl, rfl, hm⟩

/-- The master is not ready: the word stays. -/
theorem Shows.stall (h : Shows req k s) (hx : x.rReady = false) :
    Shows req k (s.next x) ∧ s.beat x = none := by
  have hr : s.clkRising x = s := by
    have hd : s.rdataFire x = s := by simp [rdataFire, hx]
    rw [clkRising, hd, raddrFire]
    cases x.ar <;> simp [h.ar]
  refine ⟨?_, by simp [beat, hx]⟩
  have hn : s.next x = s.clkFalling x := by simp [next, hr, h.fault]
  rw [hn]
  exact falling_shows x h.fault h.waits h.resp h.data

/-- The master takes the word; the next one follows, if there is one. -/
theorem Shows.take (h : Shows req k s) (hx : x.rReady = true) :
    s.beat x = some ⟨s.rData, s.rLast⟩ ∧
      (k + 1 = req.len → (s.next x).waitReqR = none ∧ (s.next x).fault = none) ∧
      (k + 1 ≠ req.len → ∀ d, req.data[(k + 1).toNat]? = some d → Shows req (k + 1) (s.next x)) ∧
      (k + 1 ≠ req.len → req.data[(k + 1).toNat]? = none → (s.next x).fault = some .range) := by
  refine ⟨by simp [beat, hx, h.fault, h.valid], ?_, ?_, ?_⟩
  · intro hk
    have hr : s.clkRising x = { s with waitRespR := none, waitReqR := none } := by
      have hd : s.rdataFire x = { s with waitRespR := none, waitReqR := none } := by
        simp only [rdataFire, hx, h.valid, h.resp, Bool.and_self, if_true, if_pos hk]
      rw [clkRising, hd, raddrFire]
      cases x.ar <;> simp [h.ar]
    have hn : s.next x = (s.clkRising x).clkFalling x := by simp [next, hr, h.fault]
    rw [hn, hr]
    cases hx' : x.arNext <;> simp [clkFalling, nextResp, putRdata, acceptRaddr, hx', h.fault]
  all_goals
    intro hk
    have hr : s.clkRising x = { s with waitRespR := some { req with offset := k + 1 } } := by
      have hd : s.rdataFire x = { s with waitRespR := some { req with offset := k + 1 } } := by
        simp only [rdataFire, hx, h.valid, h.resp, Bool.and_self, if_true, if_neg hk]
      rw [clkRising, hd, raddrFire]
      cases x.ar <;> simp [h.ar]
    have hn : s.next x = (s.clkRising x).clkFalling x := by simp [next, hr, h.fault]
    rw [hn, hr]
  · intro d hd
    exact falling_shows x h.fault h.waits rfl hd
  · intro hd
    exact falling_range x h.waits rfl hd

theorem Waits.next {d : BitVec 64} (h : Waits req s) (ho : req.offset = 0)
    (hd : req.data[0]? = some d) : s.beat x = none ∧ (x.dramResp = true → Shows req 0 (s.next x)) ∧
      (x.dramResp = false → Waits req (s.next x)) := by
  have hr : s.clkRising x = s := by
    have hd : s.rdataFire x = s := by simp [rdataFire, h.valid]
    rw [clkRising, hd, raddrFire]
    cases x.ar <;> simp [h.ar]
  have hn : s.next x = s.clkFalling x := by simp [Crossbar.next, hr, h.fault]
  have hw := falling_waits x h.fault h.waits h.resp ho hd
  rw [hn]
  exact ⟨by simp [beat, h.valid], fun hx => hw.1 (Or.inr hx), fun hx => hw.2 h.mmio hx⟩

/-! ### The lanes of a beat -/

theorem setWidth_lt {w : ℕ} (b : BitVec w) : (b.setWidth 64).toNat < 2 ^ w := by
  rw [BitVec.toNat_setWidth]
  exact Nat.lt_of_le_of_lt (Nat.mod_le _ _) b.isLt

/-- An access of `n` bytes answers with `n` bytes. -/
theorem readSized_lt {m m' : Memory δ} {a v : BitVec 64} {n : ℕ}
    (h : readSized m a n = some (v, m')) : v.toNat < 2 ^ (8 * n) := by
  unfold readSized at h
  split at h
  · exact v.isLt
  · obtain ⟨r, -, hr⟩ := Option.map_eq_some_iff.1 h
    obtain ⟨rfl, -⟩ := Prod.mk.inj hr
    exact setWidth_lt r.1
  · obtain ⟨r, -, hr⟩ := Option.map_eq_some_iff.1 h
    obtain ⟨rfl, -⟩ := Prod.mk.inj hr
    exact setWidth_lt r.1
  · obtain ⟨r, -, hr⟩ := Option.map_eq_some_iff.1 h
    obtain ⟨rfl, -⟩ := Prod.mk.inj hr
    exact setWidth_lt r.1
  · simp at h

theorem reads_lt {n : ℕ} {as vs : List (BitVec 64)} {m : Memory δ} (h : reads n as m = some vs) :
    ∀ v ∈ vs, v.toNat < 2 ^ (8 * n) := by
  induction as generalizing m vs with
  | nil =>
      obtain rfl : [] = vs := by simpa [reads] using h
      intro v hv
      simp at hv
  | cons a as ih =>
      rw [reads] at h
      cases hr : readSized m a n with
      | none => simp [hr] at h
      | some r =>
          simp only [hr] at h
          obtain ⟨ws, hws, rfl⟩ := Option.map_eq_some_iff.1 h
          intro v hv
          rcases List.mem_cons.1 hv with rfl | hv
          · exact readSized_lt hr
          · exact ih hws v hv

/-- The beats of an aligned burst are at aligned addresses. -/
theorem burstAddr_aligned (ha : ar.Aligned) (i : ℕ) : (ar.burstAddr i).toNat % ar.bytes = 0 := by
  have hd : ar.bytes ∣ 2 ^ 64 := Nat.pow_dvd_pow 2 (by have := ar.size.isLt; omega)
  have hk : ∀ k : ℕ, ar.bytes ∣ k → (BitVec.ofNat 64 k).toNat % ar.bytes = 0 := by
    intro k hk
    rw [BitVec.toNat_ofNat]
    exact Nat.mod_eq_zero_of_dvd ((Nat.dvd_mod_iff hd).2 hk)
  have hi : ar.bytes ∣ i * ar.bytes := ⟨i, Nat.mul_comm _ _⟩
  unfold AxiAr.burstAddr
  split
  · exact hk _ (Nat.dvd_add (bytes_dvd_low ar) ((Nat.dvd_mod_iff ⟨_, rfl⟩).2
      (Nat.dvd_add (Nat.dvd_sub (Nat.dvd_of_mod_eq_zero ha) (bytes_dvd_low ar)) hi)))
  · exact hk _ (Nat.dvd_add (Nat.dvd_of_mod_eq_zero ha) hi)

/-- The lanes of an aligned access hold the word that was put there. -/
theorem lane_shift {a v : BitVec 64} {k : ℕ} (hk : k ≤ 3) (ha : a.toNat % 2 ^ k = 0)
    (hv : v.toNat < 2 ^ (8 * 2 ^ k)) : lane a (2 ^ k) (v <<< (bytelane a <<< 3)) = v := by
  have hb : bytelane a + 2 ^ k ≤ 8 := by
    unfold bytelane
    interval_cases k <;> simp at ha ⊢ <;> omega
  have hs : bytelane a <<< 3 = 8 * bytelane a := by
    rw [Nat.shiftLeft_eq, Nat.mul_comm]
  have hlt : v.toNat * 2 ^ (8 * bytelane a) < 2 ^ 64 := by
    calc v.toNat * 2 ^ (8 * bytelane a) < 2 ^ (8 * 2 ^ k) * 2 ^ (8 * bytelane a) :=
          Nat.mul_lt_mul_of_pos_right hv (Nat.two_pow_pos _)
      _ = 2 ^ (8 * 2 ^ k + 8 * bytelane a) := (Nat.pow_add _ _ _).symm
      _ ≤ 2 ^ 64 := Nat.pow_le_pow_right (by decide) (by omega)
  apply BitVec.eq_of_toNat_eq
  rw [lane, BitVec.toNat_ofNat, BitVec.toNat_ushiftRight, hs, BitVec.toNat_shiftLeft,
    Nat.shiftLeft_eq, Nat.mod_eq_of_lt hlt, Nat.shiftRight_eq_div_pow,
    Nat.mul_div_cancel _ (Nat.two_pow_pos _), Nat.mod_eq_of_lt hv, Nat.mod_eq_of_lt v.isLt]

/-! ### Serving a request -/

theorem serve_done (hs : s.waitReqR = none) (xs : List (CrossbarIn δ)) :
    serve s xs = ([], s.fault) := by
  cases xs <;> simp [serve, hs]

theorem serve_cons (hs : s.waitReqR.isSome = true) (x : CrossbarIn δ) (xs : List (CrossbarIn δ)) :
    serve s (x :: xs) = ((s.beat x).toList ++ (serve (s.next x) xs).1,
      (serve (s.next x) xs).2) := by
  obtain ⟨q, hq⟩ := Option.isSome_iff_exists.1 hs
  simp [serve, hq]

/-- A request that is answered is delivered, a beat for every cycle in which the master is ready. -/
theorem serve_resp {m : Memory δ} {vs : List (BitVec 64)} (hh : Holds m ar req vs) (ha : ar.Aligned)
    (hs : Shows req k s) (hk : k.toNat < ar.beats) (xs : List (CrossbarIn δ)) :
    (serve s xs).2 = none ∧ seen ar k.toNat (serve s xs).1 =
      ((wanted ar vs).drop k.toNat).take (xs.countP fun x => x.rReady) := by
  induction xs generalizing s k with
  | nil => exact ⟨hs.fault, by simp [serve, seen]⟩
  | cons x xs ih =>
      rw [serve_cons hs.waits]
      by_cases hx : x.rReady = true
      · have hkv : k.toNat < vs.length := by rw [hh.length]; exact hk
        have hv : vs[k.toNat]? = some vs[k.toNat] := List.getElem?_eq_getElem hkv
        obtain ⟨hbeat, hlast, hnext, -⟩ := hs.take x hx
        -- the beat that is taken now
        have hword : (lane (ar.burstAddr k.toNat) ar.bytes s.rData, s.rLast) =
            (vs[k.toNat], decide (k.toNat = ar.len.toNat)) := by
          have hd : s.rData = vs[k.toNat] <<< (bytelane (ar.burstAddr k.toNat) <<< 3) :=
            Option.some.inj (hs.data.symm.trans (hh.data _ _ hv))
          have hl : s.rLast = decide (k.toNat = ar.len.toNat) := by
            rw [hs.last, hh.len, AxiAr.beats]
            exact decide_eq_decide.2 (by omega)
          rw [hl, hd, AxiAr.bytes, lane_shift hh.size (burstAddr_aligned ha _)
            (reads_lt hh.reads _ (List.getElem_mem hkv))]
        have hdrop : (wanted ar vs).drop k.toNat =
            (vs[k.toNat], decide (k.toNat = ar.len.toNat)) :: (wanted ar vs).drop
              (k.toNat + 1) := by
          rw [List.drop_eq_getElem_cons (by simpa [wanted] using hkv)]
          simp [wanted]
        rw [hbeat, hdrop, List.countP_cons_of_pos hx, List.take_succ_cons]
        simp only [Option.toList_some, List.singleton_append, seen, List.zipIdx_cons, List.map_cons,
          hword, List.cons.injEq, true_and]
        by_cases hlen : k + 1 = req.len
        · -- it was the last one
          have hk1 : k.toNat + 1 = ar.beats := by
            rw [← hh.len, ← hlen, BitVec.toNat_add]
            have := hh.le
            exact (Nat.mod_eq_of_lt (by simp; omega)).symm
          rw [serve_done (hlast hlen).1, (hlast hlen).2, hk1]
          refine ⟨rfl, ?_⟩
          rw [List.drop_eq_nil_of_le (by simp [wanted, hh.length])]
          simp
        · have hk1 : (k + 1).toNat = k.toNat + 1 := by
            have := hh.le
            rw [BitVec.toNat_add]
            exact Nat.mod_eq_of_lt (by simp; omega)
          have hlt : (k + 1).toNat < ar.beats := by
            rcases Nat.lt_or_eq_of_le (Nat.succ_le_of_lt hk) with h | h
            · rwa [hk1]
            · exact absurd (BitVec.eq_of_toNat_eq (by rw [hk1, hh.len]; exact h)) hlen
          have hkv1 : (k + 1).toNat < vs.length := by rw [hh.length]; exact hlt
          have hn := hnext hlen _ (hh.data _ _ (List.getElem?_eq_getElem hkv1))
          have := ih hn hlt
          rwa [hk1] at this
      · have hx := Bool.eq_false_of_not_eq_true hx
        obtain ⟨hn, hb⟩ := hs.stall x hx
        rw [hb, List.countP_cons_of_neg (by simp [hx])]
        exact ih hn hk

theorem afterAnswer_true (xs : List (CrossbarIn δ)) : afterAnswer true xs = xs := by
  cases xs <;> rfl

/-- A request that waits for the memory is delivered from the answer on. -/
theorem serve_waits {m : Memory δ} {vs : List (BitVec 64)} (hh : Holds m ar req vs)
    (ha : ar.Aligned) (hs : Waits req s) (xs : List (CrossbarIn δ)) :
    (serve s xs).2 = none ∧ seen ar 0 (serve s xs).1 =
      (wanted ar vs).take ((afterAnswer false xs).countP fun x => x.rReady) := by
  have hk : (0 : BitVec 8).toNat < ar.beats := Nat.succ_pos _
  have hv : 0 < vs.length := by rw [hh.length]; exact hk
  induction xs generalizing s with
  | nil => exact ⟨hs.fault, by simp [serve, seen, afterAnswer]⟩
  | cons x xs ih =>
      obtain ⟨hb, hans, hwait⟩ := hs.next x hh.offset (hh.data 0 _ (List.getElem?_eq_getElem hv))
      rw [serve_cons (by rw [hs.waits]; rfl), hb]
      cases hx : x.dramResp with
      | true =>
          rw [afterAnswer, hx, afterAnswer_true]
          exact serve_resp hh ha (hans hx) hk xs
      | false =>
          rw [afterAnswer, hx]
          exact ih (hwait hx)

/-- A program that has ended does not go on. -/
theorem serve_fault {e : Fault} (hs : s.fault = some e) (xs : List (CrossbarIn δ)) :
    (serve s xs).2 = some e := by
  induction xs with
  | nil => exact hs
  | cons x xs ih =>
      have hn : s.next x = s := by simp [next, hs]
      rw [serve, hn]
      split
      · exact hs
      · exact ih

/-- A request without a length runs over the end of the buffer. -/
theorem serve_overrun (hl : req.len = 0) (hs : Shows req k s) (hx : x.rReady = true) {n : ℕ}
    (hk : k.toNat < 64) (hn : 64 - k.toNat ≤ n) :
    (serve s (List.replicate n x)).2 = some .range := by
  induction n generalizing s k with
  | zero => omega
  | succ n ih =>
      obtain ⟨-, -, hnext, hover⟩ := hs.take x hx
      have hk1 : (k + 1).toNat = k.toNat + 1 := by
        rw [BitVec.toNat_add]
        exact Nat.mod_eq_of_lt (by simp; omega)
      have hne : k + 1 ≠ req.len := by
        intro h
        have := congrArg BitVec.toNat h
        rw [hk1, hl] at this
        exact absurd this (by simp)
      rw [List.replicate_succ, serve_cons hs.waits]
      by_cases h64 : k.toNat + 1 < 64
      · have hlt : (k + 1).toNat < 64 := by omega
        have hd : req.data[(k + 1).toNat]? = some req.data[(k + 1).toNat] :=
          Vector.getElem?_eq_getElem hlt
        exact ih (hnext hne _ hd) (by omega) (by omega)
      · exact serve_fault (hover hne (Vector.getElem?_eq_none (by omega))) _

/-! ### The crossbar between two requests -/

/-- An address is accepted only when nothing is under way. -/
structure Idle (s : Crossbar) : Prop where
  resp : s.waitReqR = none → s.waitRespR = none
  ready : s.arReady = true → s.waitReqR = none
  valid : s.waitReqR = none → s.rValid = false

theorem clkFalling_idle (h : s.waitReqR = none → s.waitRespR = none) : Idle (s.clkFalling x) := by
  cases hq : s.waitReqR with
  | none =>
      have hr := h hq
      have he : s.nextResp x = s := by simp [nextResp, hr, hq]
      unfold clkFalling
      rw [he]
      cases hx : x.arNext <;> constructor <;> intro _ <;> simp [putRdata, acceptRaddr, hr, hq, hx]
  | some q =>
      have hn : ∃ r, s.nextResp x = { s with waitRespR := r } := by
        unfold nextResp
        split
        · split
          · exact ⟨_, rfl⟩
          · exact ⟨_, rfl⟩
        · exact ⟨_, rfl⟩
      obtain ⟨r, hr⟩ := hn
      have hp : ((s.nextResp x).putRdata).waitReqR = some q := by
        rw [hr]
        unfold putRdata
        split
        · exact hq
        · split <;> exact hq
      have ha : (s.clkFalling x).waitReqR = some q ∧ (s.clkFalling x).arReady = false := by
        simp [clkFalling, acceptRaddr, hp]
      exact ⟨by simp [ha.1], by simp [ha.2], by simp [ha.1]⟩

theorem clkRising_resp (h : s.waitReqR = none → s.waitRespR = none) :
    (s.clkRising x).waitReqR = none → (s.clkRising x).waitRespR = none := by
  have hd : (s.rdataFire x).waitReqR = none → (s.rdataFire x).waitRespR = none := by
    unfold rdataFire
    split
    · split
      · exact fun _ => by assumption
      · split
        · exact fun _ => rfl
        · intro hq
          simp_all
    · exact h
  unfold clkRising raddrFire
  split
  · split
    · split
      · intro hq
        simp at hq
      · exact hd
    · exact hd
  · exact hd

theorem idle_of_reach (h : (machine δ).Reach s) : s.fault = none → Idle s := by
  refine h.inv (P := fun s => s.fault = none → Idle s)
    (fun _ => ⟨fun _ => rfl, fun _ => rfl, fun _ => rfl⟩) ?_
  intro s x ih _ hf
  change (s.next x).fault = none at hf
  show Idle (s.next x)
  unfold next at hf ⊢
  split at hf
  · rename_i h₁
    simp [hf] at h₁
  split at hf
  · rename_i h₁ h₂
    simp [hf] at h₂
  rename_i h₁ h₂
  rw [if_neg h₁, if_neg h₂]
  have h₀ : s.fault = none := by simpa using h₁
  exact clkFalling_idle x (clkRising_resp x (ih h₀).resp)

/-- The cycle in which an address is accepted. -/
theorem next_accept (h : (machine δ).Reach s) (hf : s.fault = none) (hr : s.arReady = true)
    (hx : x.ar = some ar) : s.waitRespR = none ∧
      (∀ req, axiRequest x.mem ar = .ok req →
        s.next x = ({ s with waitReqR := some req } : Crossbar).clkFalling x) ∧
      ∀ e, axiRequest x.mem ar = .error e → (s.next x).fault = some e := by
  have hi := idle_of_reach h hf
  have hq := hi.ready hr
  have hd : s.rdataFire x = s := by simp [rdataFire, hi.valid hq]
  refine ⟨hi.resp hq, fun req hreq => ?_, fun e he => ?_⟩
  · have hc : s.clkRising x = { s with waitReqR := some req } := by
      simp [clkRising, hd, raddrFire, hx, hr, hreq]
    simp [next, hc, hf]
  · have hc : s.clkRising x = { s with fault := some e } := by
      simp [clkRising, hd, raddrFire, hx, hr, he]
    simp [next, hc, hf]

/-- A burst of less than 256 beats is served. -/
theorem serves_of_ne (h : (machine δ).Reach s) (hf : s.fault = none) (hr : s.arReady = true)
    (hx : x.ar = some ar) (ha : ar.Aligned) (hp : axiRequest x.mem ar ≠ .error .abort)
    (hl : ar.len ≠ 255) : (s.next x).Serves x.mem ar (isMmio x.mem ar.addr || x.dramResp) := by
  obtain ⟨hresp, hok, -⟩ := next_accept x h hf hr hx
  obtain ⟨req, vs, hreq, hh⟩ := axiRequest_ok ha hl hp
  have hv : 0 < vs.length := by rw [hh.length]; exact Nat.succ_pos _
  have hw := falling_waits (s := { s with waitReqR := some req }) x hf rfl hresp hh.offset
    (hh.data 0 _ (List.getElem?_eq_getElem hv))
  rw [← hok req hreq] at hw
  refine ⟨vs, hh.reads, fun xs => ?_⟩
  cases hnow : isMmio x.mem ar.addr || x.dramResp with
  | true =>
      rw [afterAnswer_true]
      have hs : Shows req 0 (s.next x) := hw.1 (by rwa [hh.mmio, ← Bool.or_eq_true])
      exact serve_resp hh ha hs (Nat.succ_pos _) xs
  | false =>
      obtain ⟨h₁, h₂⟩ := Bool.or_eq_false_iff.1 hnow
      exact serve_waits hh ha (hw.2 (by rw [hh.mmio, h₁]) h₂) xs

/-- A burst of 256 beats is not. -/
theorem not_serves_of_eq (h : (machine δ).Reach s) (hf : s.fault = none) (hr : s.arReady = true)
    (hx : x.ar = some ar) (hp : axiRequest x.mem ar ≠ .error .abort) (hl : ar.len = 255)
    (now : Bool) : ¬ (s.next x).Serves x.mem ar now := by
  rintro ⟨vs, -, hserve⟩
  obtain ⟨hresp, hok, herr⟩ := next_accept x h hf hr hx
  rcases axiRequest_full hl hp with hd | ⟨req, hreq, hlen, hoff, -⟩
  · exact absurd (hserve []).1 (by simp [serve, herr _ hd])
  -- the master takes a beat in every cycle, and the memory answers at once
  have hd : req.data[0]? = some req.data[0] := Vector.getElem?_eq_getElem (by decide)
  have hw := falling_waits (s := { s with waitReqR := some req }) x hf rfl hresp hoff hd
  rw [← hok req hreq] at hw
  let y : CrossbarIn δ :=
    { mem := x.mem, ar := none, rReady := true, arNext := none, willAccept := false
      dramResp := true }
  have hover : ∀ t : Crossbar, Shows req 0 t → (serve t (List.replicate 64 y)).2 = some .range :=
    fun t ht => serve_overrun y hlen ht rfl (by decide) (by decide)
  by_cases hnow : req.isMmio = true ∨ x.dramResp = true
  · exact absurd (hserve (List.replicate 64 y)).1 (by rw [hover _ (hw.1 hnow)]; simp)
  · push Not at hnow
    have hws := hw.2 (Bool.eq_false_of_not_eq_true hnow.1) (Bool.eq_false_of_not_eq_true hnow.2)
    have hs := (hws.next y hoff hd).2.1 rfl
    refine absurd (hserve (y :: List.replicate 64 y)).1 ?_
    rw [serve_cons (by rw [hws.waits]; rfl), hover _ hs]
    simp

/-- **Read bursts.**  An aligned burst that passes the checks is served, with a beat for each of its
addresses and the last one marked, exactly if it has less than 256 beats. -/
theorem serves_iff (h : (machine δ).Reach s) (hf : s.fault = none) (hr : s.arReady = true)
    (hx : x.ar = some ar) (ha : ar.Aligned) (hp : axiRequest x.mem ar ≠ .error .abort) :
    (s.next x).Serves x.mem ar (isMmio x.mem ar.addr || x.dramResp) ↔ ar.len ≠ 255 :=
  ⟨fun hs hl => not_serves_of_eq x h hf hr hx hp hl _ hs, serves_of_ne x h hf hr hx ha hp⟩

/-! ### Two bursts -/

/-- The address that the master shows, and its acceptance in the next cycle. -/
def offers (ar : AxiAr) : CrossbarIn Unit :=
  { mem := Memory.small, ar := none, rReady := true, arNext := some ar.addr, willAccept := true
    dramResp := false }

def accepts (ar : AxiAr) : CrossbarIn Unit :=
  { mem := Memory.small, ar := some ar, rReady := true, arNext := none, willAccept := false
    dramResp := true }

/-- An incrementing burst of words of eight bytes. -/
def wordBurst (len : BitVec 8) : AxiAr :=
  { addr := 0x80000000, len := len, size := 3, burst := 1, id := 0 }

theorem offers_reach (ar : AxiAr) : (machine Unit).Reach (reset.next (offers ar)) :=
  Machine.Reach.tick (M := machine Unit) (x := offers ar) Machine.Reach.reset trivial

/-- Whether `axi_request` succeeds. -/
def passes (r : Except Fault Axi4CrossbarRequest) : Bool :=
  match r with
  | .ok _ => true
  | .error e => decide (e ≠ .abort)

theorem ne_abort_of_passes {r : Except Fault Axi4CrossbarRequest} (h : passes r = true) :
    r ≠ .error .abort := by
  rintro rfl
  simp [passes] at h

/-- A burst of four beats. -/
theorem serves_iff_four : ((reset.next (offers (wordBurst 3))).next (accepts (wordBurst 3))).Serves
    Memory.small (wordBurst 3) true ↔ (wordBurst 3).len ≠ 255 :=
  serves_iff (accepts (wordBurst 3)) (offers_reach (wordBurst 3)) rfl rfl rfl rfl
    (ne_abort_of_passes (by decide +kernel))

/-- A burst of 256 beats: it passes the checks, and is not served. -/
theorem full_burst_unserved : ¬ ∀ (δ : Type) (s : Crossbar) (x : CrossbarIn δ) (ar : AxiAr),
    (machine δ).Reach s → s.fault = none → s.arReady = true → x.ar = some ar → ar.Aligned →
    axiRequest x.mem ar ≠ .error .abort →
      (s.next x).Serves x.mem ar (isMmio x.mem ar.addr || x.dramResp) := by
  intro h
  have hp : axiRequest Memory.small (wordBurst 255) ≠ .error .abort :=
    ne_abort_of_passes (by decide +kernel)
  exact not_serves_of_eq (accepts (wordBurst 255)) (offers_reach (wordBurst 255)) rfl rfl
    rfl hp rfl _
    (h Unit _ (accepts (wordBurst 255)) (wordBurst 255) (offers_reach (wordBurst 255)) rfl rfl
      rfl rfl hp)

end Crossbar

end NanoCpu
