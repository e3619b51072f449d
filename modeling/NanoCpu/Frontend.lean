/-
**The front-end** (`rtl/core/frontend.v`, `bpu.v`, `rtl/general/pmux_v.v`, `popcnt.v`).

Fetching has three stages.  The first asks the I-cache, the instruction MMU and the branch predictor
for the window of the next PC; the second has the answers of the MMU and the predictor, and computes
from them where to go on; the third has the instructions and pushes the window into the prefetch
buffer.  All three move together, when the I-cache does not stall and the buffer has room.  A flush
empties the windows of the last two stages; what the first stage asks for in that cycle is asked for
again.

The I-cache stands outside: it stalls as it likes and shows any instructions.  Of its registers the
two that say that a stage has ever been loaded are here.  A PC counts instructions; the two bits
below are zero after reset and after every step.

Main definitions:

* `popcnt`, `pmuxV` — the counter and the priority multiplexer;
* `Bpu`, `BpuWb`, `Bpu.next` — the branch predictor, with tables of `2 ^ p` and `2 ^ b` entries;
* `Frontend`, `FrontendIn`, `Frontend.next` — the front-end, for a window of `2 ^ P` instructions
  and banks of `2 ^ D` entries in the prefetch buffer.
-/

import NanoCpu.Immu
import NanoCpu.PrefetchBuf

set_option relaxedAutoImplicit false
set_option autoImplicit false

namespace NanoCpu

/-- `popcnt`: the number of bits set among the lowest `n`. -/
def popcnt (bitmap : ℕ → Bool) (n : ℕ) : ℕ := (List.range n).countP bitmap

/-- `pmux_v`: the data of the lowest selected lane, or of lane zero, and whether there is one. -/
def pmuxV {α : Type*} (sel : ℕ → Bool) (din : ℕ → α) (n : ℕ) : α × Bool :=
  match (List.range n).find? sel with
  | some i => (din i, true)
  | none => (din 0, false)

/-! ### The branch predictor -/

/-- An entry of the BTB. -/
structure BtbEnt where
  imme : Bool
  npc : Pc
  tag : ℕ
  isBcc : Bool
  v : Bool
  deriving DecidableEq, Repr

/-- The tables, the history, and for every lane of the window the registers of a lookup. -/
structure Bpu where
  pht : ℕ → BitVec 2
  btb : ℕ → BtbEnt
  ghsr : ℕ
  s1oImme : Bool
  s1oPc : ℕ → Pc
  s1oPhtAddr : ℕ → ℕ
  s1oBtbAddr : ℕ → ℕ
  s1oPhtCount : ℕ → BitVec 2
  s1oBtb : ℕ → BtbEnt

/-- What commit reports of a branch. -/
structure BpuWb where
  wb : Bool
  isBcc : Bool
  isBreg : Bool
  isBrel : Bool
  taken : Bool
  pc : Pc
  npcAct : Pc
  upd : BpuUpd

namespace Bpu

variable (p b : ℕ) (u : Bpu)

def phtAddr (pc : Pc) : ℕ := (pc.toNat % 2 ^ p) ^^^ u.ghsr

def btbAddr (pc : Pc) : ℕ := pc.toNat % 2 ^ b

def btbTag (pc : Pc) : ℕ := pc.toNat / 2 ^ b

def btbHit (i : ℕ) : Bool :=
  (u.s1oBtb i).v && (u.s1oBtb i).tag == btbTag b (u.s1oPc i) && (u.s1oBtb i).imme == u.s1oImme

/-- `s2i_taken`. -/
def taken (valid : ℕ → Bool) (i : ℕ) : Bool :=
  valid i && (u.btbHit b i && (!(u.s1oBtb i).isBcc || (u.s1oPhtCount i).getLsbD 1))

def npc (i : ℕ) : Pc := (u.s1oBtb i).npc

def upd (valid : ℕ → Bool) (i : ℕ) : BpuUpd :=
  ⟨u.s1oPhtCount i, u.s1oPhtAddr i, u.s1oBtbAddr i, u.s1oImme, u.npc i, u.taken b valid i⟩

/-- The saturating counter. -/
def phtDin (w : BpuWb) : BitVec 2 :=
  if w.taken then if w.upd.phtCount = 3 then 3 else w.upd.phtCount + 1
  else if w.upd.phtCount = 0 then 0 else w.upd.phtCount - 1

def btbWe (w : BpuWb) : Bool := w.wb && (w.isBreg || w.isBrel)

def phtWe (w : BpuWb) : Bool := w.wb && w.isBcc

/-- The registers after the edge.  The counters are written with the enable of the BTB. -/
def next (re : Bool) (imme : Bool) (pc : ℕ → Pc) (w : BpuWb) : Bpu where
  pht := if btbWe w then Function.update u.pht w.upd.phtAddr (phtDin w) else u.pht
  btb := if btbWe w then
      Function.update u.btb w.upd.btbAddr ⟨w.upd.imme, w.npcAct, btbTag b w.pc, w.isBcc, true⟩
    else u.btb
  ghsr := ldff (phtWe w) ((2 * u.ghsr + w.taken.toNat) % 2 ^ p) u.ghsr
  s1oImme := ldff re imme u.s1oImme
  s1oPc := ldff re pc u.s1oPc
  s1oPhtAddr := ldff re (fun i => u.phtAddr p (pc i)) u.s1oPhtAddr
  s1oBtbAddr := ldff re (fun i => btbAddr b (pc i)) u.s1oBtbAddr
  s1oPhtCount := ldff re (fun i => u.pht (u.phtAddr p (pc i))) u.s1oPhtCount
  s1oBtb := ldff re (fun i => u.btb (btbAddr b (pc i))) u.s1oBtb

end Bpu

/-! ### Fetching -/

/-- What the prefetch buffer keeps of an instruction. -/
structure IqWord where
  ins : BitVec 32
  pc : Pc
  eitm : Bool
  eipf : Bool
  upd : BpuUpd
  deriving DecidableEq, Repr

/-- The PC that the front-end goes on with. -/
def IqWord.succ (w : IqWord) : Pc := if w.upd.taken then w.upd.tgt else w.pc + 1

structure Frontend where
  pc : Pc
  icS1oValid : Bool
  icS2oValid : Bool
  s1oFetchAligned : ℕ → Bool
  s1oPushOffset : ℕ
  s1oPc : ℕ → Pc
  s1oIce : Bool
  immu : Immu tlbP
  bpu : Bpu
  s2oPushCnt : ℕ
  s2oPushOffset : ℕ
  s2oPc : ℕ → Pc
  s2oEitm : Bool
  s2oEipf : Bool
  s2oUpd : ℕ → BpuUpd
  buf : PrefetchBuf IqWord

/-- The inputs of one cycle: the flush, the I-cache, the decoder (which takes all valid lanes or
none), the registers of commit that fetching depends on, and the branch that commits. -/
structure FrontendIn where
  flush : Bool
  flushTgt : Pc
  icStall : Bool
  ins : ℕ → BitVec 32
  idCe : Bool
  imme : Bool
  rm : Bool
  ice : Bool
  tlbl : TlbWr tlbP
  tlbh : TlbWr tlbP
  bpuWb : BpuWb

namespace Frontend

/-- After reset; the tables of the predictor, and what the registers without reset hold, may be
anything. -/
def reset (pcRst : Pc) (bpu : Bpu) (zero : IqWord) : Frontend where
  pc := pcRst
  icS1oValid := false
  icS2oValid := false
  s1oFetchAligned := fun _ => false
  s1oPushOffset := 0
  s1oPc := fun _ => 0
  s1oIce := false
  immu := Immu.reset
  bpu := bpu
  s2oPushCnt := 0
  s2oPushOffset := 0
  s2oPc := fun _ => 0
  s2oEitm := false
  s2oEipf := false
  s2oUpd := fun _ => zero.upd
  buf := PrefetchBuf.reset zero

variable (P D p b : ℕ) (s : Frontend) (x : FrontendIn)

/-- `p_ce`. -/
def pCe : Bool := !x.icStall && s.buf.ready P D

/-! ### The second stage -/

/-- `s1o_bpu_taken`. -/
def taken (i : ℕ) : Bool := s.bpu.taken b s.s1oFetchAligned i

/-- `s2i_valid_msk`: the lanes up to the first one that is predicted taken. -/
def validMsk : ℕ → Bool
  | 0 => true
  | j + 1 => validMsk j && !s.taken b j

/-- `s1o_push_cnt`. -/
def s1oPushCnt : ℕ := popcnt (fun i => s.s1oFetchAligned i && s.validMsk b i) (2 ^ P)

/-- `{pred_branch_tgt, pred_branch_taken}`. -/
def predBranch : Pc × Bool := pmuxV (s.taken b) s.bpu.npc (2 ^ P)

/-- `s2i_kill_req`. -/
def s2iKillReq : Bool := s.immu.eitm || s.immu.eipf

/-- `s2i_uncached`. -/
def s2iUncached (seg : Bool) : Bool := s.immu.uncached seg || !s.s1oIce

/-! ### The first stage -/

def pcNxt : Pc :=
  if x.flush then x.flushTgt
  else if !s.pCe P D x then s.pc
  else if (s.predBranch P b).2 then (s.predBranch P b).1
  else s.pc + BitVec.ofNat 30 (s.s1oPushCnt P b)

/-- `s1i_fetch_aligned`. -/
def s1iFetchAligned (i : ℕ) : Bool := decide ((s.pcNxt P D b x).toNat % 2 ^ P ≤ i)

/-- `s1i_push_offset`. -/
def s1iPushOffset : ℕ := popcnt (fun i => !s.s1iFetchAligned P D b x i) (2 ^ P)

def s1iPc (i : ℕ) : Pc :=
  s.pcNxt P D b x + BitVec.ofNat 30 i - BitVec.ofNat 30 (s.s1iPushOffset P D b x)

/-- The page of `s1i_fetch_vaddr`. -/
def vpn : Ppn := (s.pcNxt P D b x).extractLsb' 11 19

/-! ### The third stage -/

/-- `iq_push_cnt`. -/
def iqPushCnt : ℕ := if s.icS2oValid && s.pCe P D x then s.s2oPushCnt else 0

/-- `id_pop_cnt`, which the decoder counts. -/
def idPopCnt : ℕ := popcnt (fun i => s.buf.idValid P i && x.idCe) 2

def bufIn : PrefetchIn IqWord where
  flush := x.flush
  iq := fun i => ⟨x.ins i, s.s2oPc i, s.s2oEitm, s.s2oEipf, s.s2oUpd i⟩
  pushCnt := s.iqPushCnt P D x
  pushOffset := s.s2oPushOffset
  popCnt := s.idPopCnt P x

/-! ### The next state -/

def next : Frontend where
  pc := s.pcNxt P D b x
  icS1oValid := ldff (s.pCe P D x) true s.icS1oValid
  icS2oValid := ldff (s.pCe P D x) s.icS1oValid s.icS2oValid
  s1oFetchAligned := ldff (s.pCe P D x || x.flush)
    (fun i => s.s1iFetchAligned P D b x i && !x.flush) s.s1oFetchAligned
  s1oPushOffset := ldff (s.pCe P D x) (s.s1iPushOffset P D b x) s.s1oPushOffset
  s1oPc := ldff (s.pCe P D x) (s.s1iPc P D b x) s.s1oPc
  s1oIce := ldff (s.pCe P D x) x.ice s.s1oIce
  immu := s.immu.next (s.pCe P D x) (s.vpn P D b x) x.imme x.rm x.tlbl x.tlbh
  bpu := s.bpu.next p b (s.pCe P D x) x.imme (s.s1iPc P D b x) x.bpuWb
  s2oPushCnt := ldff (s.pCe P D x || x.flush) (if x.flush then 0 else s.s1oPushCnt P b) s.s2oPushCnt
  s2oPushOffset := ldff (s.pCe P D x) s.s1oPushOffset s.s2oPushOffset
  s2oPc := ldff (s.pCe P D x) s.s1oPc s.s2oPc
  s2oEitm := ldff (s.pCe P D x) s.immu.eitm s.s2oEitm
  s2oEipf := ldff (s.pCe P D x) s.immu.eipf s.s2oEipf
  s2oUpd := ldff (s.pCe P D x) (s.bpu.upd b s.s1oFetchAligned) s.s2oUpd
  buf := s.buf.next P D (s.bufIn P D x)

end Frontend

end NanoCpu
