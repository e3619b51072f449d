/-
**The reorder buffer** (`rtl/core/rob.v`).

The reorder buffer spreads the instructions over `2 ^ P` banks, each a FIFO of depth `2 ^ D`, with a
head and a tail offset that rotate over the banks.  Beside the FIFO each bank has flags and operands
that a write-back sets at the address it carries; write-backs to one bank are arbitrated, the lower
lane first.

The abstract reorder buffer is a log: instruction `n` is the `n`-th one pushed since the last flush,
the ones below `head` have been popped and those from `tail` on are yet to come.  The log has no
banks and nothing in it wraps around.

Main definitions:

* `Rob`, `RobIn`, `Rob.next` — the circuit, for every number of banks and every depth;
* `RobLog`, `RobLog.next` — the log;
* `Rob.Protocol` — the ready/valid protocol of issue, write-back and commit;
* `Rob.Rep` — the circuit holds the log.

Main results:

* `Rob.Rep.next` — one cycle of the circuit within the protocol is one step of the log;
* `Rob.Rep.cmtValid_iff`, `Rob.Rep.cmt_eq` — what commit sees is the front of the log;
* `Rob.Rep.slot_inj` — two instructions inside never share a bank and an id.
-/

import NanoCpu.Fifo
import NanoCpu.Interleave
import NanoCpu.Machine

set_option relaxedAutoImplicit false
set_option autoImplicit false

namespace NanoCpu

open Interleave

variable {U : Type*}

/-! ### The circuit -/

/-- A word of `U_vBANK`. -/
structure VBank where
  flsTgt : Pc
  operb : Word
  opera : Word
  deriving DecidableEq, Repr

/-- `{vBANK_DW{1'b0}}`. -/
def VBank.zero : VBank := ⟨0, 0, 0⟩

/-- The bitwise or of two words of `U_vBANK`. -/
def VBank.or (a b : VBank) : VBank :=
  ⟨a.flsTgt ||| b.flsTgt, a.operb ||| b.operb, a.opera ||| b.opera⟩

@[simp] theorem VBank.zero_or (a : VBank) : VBank.zero.or a = a := by simp [VBank.or, VBank.zero]

@[simp] theorem VBank.or_zero (a : VBank) : a.or VBank.zero = a := by simp [VBank.or, VBank.zero]

/-- One bank: the FIFO over `U_uBANK`, and `U_TAG_RDY`, `U_TAG_FLS`, `U_TAG_EXC`, `U_vBANK`. -/
structure RobBank (U : Type*) where
  que : Fifo U
  tagRdy : ℕ → Bool
  tagFls : ℕ → Bool
  tagExc : ℕ → Bool
  tagVbank : ℕ → VBank

/-- Two states of a bank agree on the flags and operands at address `a`. -/
def RobBank.SameAt (k k' : RobBank U) (a : ℕ) : Prop :=
  k.tagRdy a = k'.tagRdy a ∧ k.tagFls a = k'.tagFls a ∧ k.tagExc a = k'.tagExc a ∧
    k.tagVbank a = k'.tagVbank a

structure Rob (U : Type*) where
  head : ℕ
  tail : ℕ
  bank : ℕ → RobBank U

/-- The inputs of one cycle; lanes are numbered from zero. -/
structure RobIn (U : Type*) where
  flush : Bool
  pushSize : ℕ
  push : ℕ → U
  wbValid : ℕ → Bool
  wbRobId : ℕ → ℕ
  wbRobBank : ℕ → ℕ
  wbFls : ℕ → Bool
  wbExc : ℕ → Bool
  wbVbank : ℕ → VBank
  popSize : ℕ

namespace RobIn

variable (P : ℕ) (x : RobIn U)

/-- `wb_ready`: no lower lane writes back to the same bank. -/
def wbReady (i : ℕ) : Bool :=
  (List.range i).all fun j => !(x.wbValid j && x.wbRobBank i == x.wbRobBank j)

/-- Lane `j` writes back to bank `b`. -/
def wbSel (b j : ℕ) : Bool := x.wbValid j && x.wbReady j && b == x.wbRobBank j

def queWb (b : ℕ) : Bool := orMux or false (x.wbSel b) (fun _ => true) (2 ^ P)

def queWbId (b : ℕ) : ℕ := orMux (· ||| ·) 0 (x.wbSel b) x.wbRobId (2 ^ P)

def queWbFls (b : ℕ) : Bool := orMux or false (x.wbSel b) x.wbFls (2 ^ P)

def queWbExc (b : ℕ) : Bool := orMux or false (x.wbSel b) x.wbExc (2 ^ P)

def queWbVbank (b : ℕ) : VBank := orMux VBank.or VBank.zero (x.wbSel b) x.wbVbank (2 ^ P)

end RobIn

namespace Rob

/-- After reset every register and every memory is zero. -/
def reset (zero : U) : Rob U where
  head := 0
  tail := 0
  bank := fun _ =>
    { que := Fifo.reset zero
      tagRdy := fun _ => false
      tagFls := fun _ => false
      tagExc := fun _ => false
      tagVbank := fun _ => VBank.zero }

variable (P D : ℕ)

def headL (s : Rob U) (i : ℕ) : ℕ := (s.head + i) % 2 ^ P

def headR (s : Rob U) (b : ℕ) : ℕ := (b + (2 ^ P - s.head)) % 2 ^ P

def tailL (s : Rob U) (i : ℕ) : ℕ := (s.tail + i) % 2 ^ P

def tailR (s : Rob U) (b : ℕ) : ℕ := (b + (2 ^ P - s.tail)) % 2 ^ P

/-- `rob_ready`: every bank can take an instruction. -/
def ready (s : Rob U) : Bool := (List.range (2 ^ P)).all fun b => (s.bank b).que.ready D

def freeId (s : Rob U) (i : ℕ) : ℕ := (s.bank (s.tailL P i)).que.wptr D

def freeBank (s : Rob U) (i : ℕ) : ℕ := s.tailL P i

/-- The bank that commit lane `i` looks at, and the address there. -/
def cmtBank (s : Rob U) (i : ℕ) : RobBank U := s.bank (s.headL P i)

def entValid (s : Rob U) (i : ℕ) : Bool :=
  (s.cmtBank P i).que.valid && (s.cmtBank P i).tagRdy ((s.cmtBank P i).que.rptr D)

/-- `cmt_valid`: a lane is valid only if all lanes below are. -/
def cmtValid (s : Rob U) (i : ℕ) : Bool := (List.range (i + 1)).all fun j => s.entValid P D j

def cmtPayload (s : Rob U) (i : ℕ) : U := (s.cmtBank P i).que.dout

def cmtFls (s : Rob U) (i : ℕ) : Bool := (s.cmtBank P i).tagFls ((s.cmtBank P i).que.rptr D)

def cmtExc (s : Rob U) (i : ℕ) : Bool := (s.cmtBank P i).tagExc ((s.cmtBank P i).que.rptr D)

def cmtVbank (s : Rob U) (i : ℕ) : VBank := (s.cmtBank P i).tagVbank ((s.cmtBank P i).que.rptr D)

/-- The two write ports of a flag memory: a push clears the flag, a write-back sets it. -/
def tagNext (push : Bool) (waddr : ℕ) (wb : Bool) (wbId : ℕ) (wdata : Bool) (tag : ℕ → Bool) :
    ℕ → Bool :=
  rfWrite (fun j => if j = 0 then push else wb) (fun j => if j = 0 then waddr else wbId)
    (fun j => if j = 0 then false else wdata) 2 tag

/-- The state after the clock edge. -/
def next (s : Rob U) (x : RobIn U) : Rob U where
  head := if x.flush then 0 else (s.head + x.popSize) % 2 ^ P
  tail := if x.flush then 0 else (s.tail + x.pushSize) % 2 ^ P
  bank b :=
    let k := s.bank b
    let quePush := decide (s.tailR P b < x.pushSize)
    let quePop := decide (s.headR P b < x.popSize)
    let wb := x.queWb P b
    let wbId := x.queWbId P b
    { que := k.que.next D
        { flush := x.flush, push := quePush, din := x.push (s.tailR P b), pop := quePop }
      tagRdy := tagNext quePush (k.que.wptr D) wb wbId true k.tagRdy
      tagFls := tagNext quePush (k.que.wptr D) wb wbId (x.queWbFls P b) k.tagFls
      tagExc := tagNext quePush (k.que.wptr D) wb wbId (x.queWbExc P b) k.tagExc
      tagVbank := if wb then Function.update k.tagVbank wbId (x.queWbVbank P b) else k.tagVbank }

end Rob

/-! ### The log -/

/-- What a write-back reports. -/
structure WbRec where
  fls : Bool
  exc : Bool
  vbank : VBank
  deriving DecidableEq, Repr

/-- An instruction of the log, with the write-back it has had, if any. -/
structure RobEnt (U : Type*) where
  payload : U
  wb : Option WbRec

/-- The log of the instructions pushed since the last flush. -/
structure RobLog (U : Type*) where
  head : ℕ
  tail : ℕ
  ent : ℕ → RobEnt U

/-- The id and the bank of the `n`-th instruction. -/
def robId (P D n : ℕ) : ℕ := n / 2 ^ P % 2 ^ D

def robBank (P n : ℕ) : ℕ := n % 2 ^ P

namespace RobIn

variable (P D : ℕ) (x : RobIn U)

/-- What lane `j` reports. -/
def wbRec (j : ℕ) : WbRec := ⟨x.wbFls j, x.wbExc j, x.wbVbank j⟩

/-- The accepted lane, if any, that carries the id and the bank of instruction `n`. -/
def wbLane (n : ℕ) : Option ℕ :=
  (List.range (2 ^ P)).find? fun j => x.wbSel (robBank P n) j && x.wbRobId j == robId P D n

end RobIn

namespace RobLog

def empty (ent : ℕ → RobEnt U) : RobLog U := ⟨0, 0, ent⟩

/-- Instruction `n` is in the reorder buffer. -/
def Live (l : RobLog U) (n : ℕ) : Prop := l.head ≤ n ∧ n < l.tail

/-- The log after a cycle: `head` moves over the popped instructions, write-backs reach those of the
others whose id and bank they carry, the pushed ones are appended; a flush empties the log. -/
def next (P D : ℕ) (l : RobLog U) (x : RobIn U) : RobLog U :=
  if x.flush then empty l.ent
  else
    { head := l.head + x.popSize
      tail := l.tail + x.pushSize
      ent := fun n =>
        if l.head + x.popSize ≤ n ∧ n < l.tail then
          { l.ent n with wb := ((x.wbLane P D n).map x.wbRec).or (l.ent n).wb }
        else if l.tail ≤ n ∧ n < l.tail + x.pushSize then ⟨x.push (n - l.tail), none⟩
        else l.ent n }

section Next

variable {P D : ℕ} {l : RobLog U} {x : RobIn U}

theorem next_of_flush (hx : x.flush = true) : l.next P D x = empty l.ent := if_pos hx

theorem next_head (hx : x.flush = false) : (l.next P D x).head = l.head + x.popSize := by
  simp [next, hx]

theorem next_tail (hx : x.flush = false) : (l.next P D x).tail = l.tail + x.pushSize := by
  simp [next, hx]

theorem next_ent_live (hx : x.flush = false) {n : ℕ} (hn : l.head + x.popSize ≤ n)
    (hn' : n < l.tail) :
    (l.next P D x).ent n =
      { l.ent n with wb := ((x.wbLane P D n).map x.wbRec).or (l.ent n).wb } := by
  simp [next, hx, hn, hn']

theorem next_ent_popped (hx : x.flush = false) {n : ℕ} (hn : n < l.head + x.popSize)
    (hn' : n < l.tail) : (l.next P D x).ent n = l.ent n := by
  simp [next, hx, Nat.not_le.2 hn, Nat.not_le.2 hn']

theorem next_payload (hx : x.flush = false) {n : ℕ} (hn : n < l.tail) :
    ((l.next P D x).ent n).payload = (l.ent n).payload := by
  rcases Nat.lt_or_ge n (l.head + x.popSize) with h | h
  · rw [next_ent_popped hx h hn]
  · rw [next_ent_live hx h hn]

theorem next_ent_push (hx : x.flush = false) {n : ℕ} (hn : l.tail ≤ n)
    (hn' : n < l.tail + x.pushSize) : (l.next P D x).ent n = ⟨x.push (n - l.tail), none⟩ := by
  simp [next, hx, hn, hn', Nat.not_lt.2 hn]

/-- An instruction that is inside after the edge was inside before and not popped, or has just been
pushed. -/
theorem live_next (hx : x.flush = false) {n : ℕ} (hn : (l.next P D x).Live n) :
    (l.head + x.popSize ≤ n ∧ n < l.tail) ∨ (l.tail ≤ n ∧ n < l.tail + x.pushSize) := by
  rw [Live, next_head hx, next_tail hx] at hn
  rcases Nat.lt_or_ge n l.tail with hlt | hge
  · exact Or.inl ⟨hn.1, hlt⟩
  · exact Or.inr ⟨hge, hn.2⟩

end Next

end RobLog

/-! ### The arbitrated write-backs -/

section WriteBack

variable {P D : ℕ} {x : RobIn U}

/-- Two lanes that are both accepted go to different banks. -/
theorem RobIn.wbSel_unique {b j k : ℕ} (hj : x.wbSel b j = true) (hk : x.wbSel b k = true) :
    j = k := by
  have aux : ∀ {j k : ℕ}, x.wbSel b j = true → x.wbSel b k = true → ¬ j < k := by
    intro j k hj hk hlt
    simp only [wbSel, wbReady, Bool.and_eq_true, beq_iff_eq, List.all_eq_true,
      List.mem_range] at hj hk
    have := hk.1.2 j hlt
    simp [hj.1.1, ← hj.2, ← hk.2] at this
  exact le_antisymm (Nat.le_of_not_lt (aux hk hj)) (Nat.le_of_not_lt (aux hj hk))

/-- Without an accepted lane a bank sees no write-back. -/
theorem RobIn.queWb_eq_false {b : ℕ} (h : ∀ j < 2 ^ P, x.wbSel b j = false) :
    x.queWb P b = false :=
  orMux_of_forall_false rfl h

/-- An accepted lane reaches its bank with its own id, flags and operands. -/
theorem RobIn.queWb_of_sel {b j : ℕ} (hj : j < 2 ^ P) (hs : x.wbSel b j = true) :
    x.queWb P b = true ∧ x.queWbId P b = x.wbRobId j ∧ x.queWbFls P b = x.wbFls j ∧
      x.queWbExc P b = x.wbExc j ∧ x.queWbVbank P b = x.wbVbank j := by
  have hu : ∀ k < 2 ^ P, x.wbSel b k = true → k = j := fun k _ hk => wbSel_unique hk hs
  refine ⟨?_, ?_, ?_, ?_, ?_⟩
  · exact orMux_of_unique (by simp) (by simp) hj hs hu
  · exact orMux_of_unique (by simp) (by simp) hj hs hu
  · exact orMux_of_unique (by simp) (by simp) hj hs hu
  · exact orMux_of_unique (by simp) (by simp) hj hs hu
  · exact orMux_of_unique (by simp) (by simp) hj hs hu

theorem RobIn.wbLane_eq_some {n j : ℕ} (hj : j < 2 ^ P) (hs : x.wbSel (robBank P n) j = true)
    (hid : x.wbRobId j = robId P D n) : x.wbLane P D n = some j := by
  obtain ⟨k, hk⟩ : ∃ k, x.wbLane P D n = some k := by
    rw [← Option.isSome_iff_exists, wbLane, List.find?_isSome]
    exact ⟨j, by simpa using hj, by simp [hs, hid]⟩
  have hks := List.find?_some hk
  simp only [Bool.and_eq_true] at hks
  rw [hk, wbSel_unique hks.1 hs]

theorem RobIn.wbLane_spec {n j : ℕ} (h : x.wbLane P D n = some j) :
    j < 2 ^ P ∧ x.wbSel (robBank P n) j = true ∧ x.wbRobId j = robId P D n := by
  have hm := List.mem_of_find?_eq_some h
  have hs := List.find?_some h
  simp only [Bool.and_eq_true, beq_iff_eq] at hs
  exact ⟨by simpa using hm, hs.1, hs.2⟩

/-- Whether a bank sees a write-back for instruction `n`, and which. -/
theorem RobIn.queWb_iff {n : ℕ} :
    (x.queWb P (robBank P n) = true ∧ x.queWbId P (robBank P n) = robId P D n) ↔
      ∃ j, x.wbLane P D n = some j := by
  constructor
  · rintro ⟨hw, hid⟩
    have hex : ∃ j < 2 ^ P, x.wbSel (robBank P n) j = true := by
      by_contra hne
      push Not at hne
      rw [queWb_eq_false (by simpa using hne)] at hw
      simp at hw
    obtain ⟨j, hj, hs⟩ := hex
    rw [(queWb_of_sel hj hs).2.1] at hid
    exact ⟨j, wbLane_eq_some hj hs hid⟩
  · rintro ⟨j, h⟩
    obtain ⟨hj, hs, hid⟩ := wbLane_spec h
    obtain ⟨hw, hi, -⟩ := queWb_of_sel hj hs
    exact ⟨hw, hi.trans hid⟩

end WriteBack

/-! ### The circuit holds the log -/

/-- No bank holds more than its depth when the instructions `H, …, T - 1` are inside. -/
def RobFits (P D H T : ℕ) : Prop := ∀ b < 2 ^ P, cnt (2 ^ P) b T ≤ cnt (2 ^ P) b H + 2 ^ D

/-- An instruction is found in its bank at its id only. -/
theorem RobFits.slot_inj {P D H T : ℕ} (hf : RobFits P D H T) {n m : ℕ} (hn : H ≤ n) (hn' : n < T)
    (hm : H ≤ m) (hm' : m < T) (hb : robBank P n = robBank P m)
    (hi : robId P D n = robId P D m) : n = m := by
  have hB : 0 < 2 ^ P := Nat.two_pow_pos P
  unfold robBank at hb
  have hlt := Nat.mod_lt n hB
  have dn := Nat.div_add_mod' n (2 ^ P)
  have dm := Nat.div_add_mod' m (2 ^ P)
  rw [← hb] at dm
  have h₁ := (cnt_le_iff (N := H) hlt (n / 2 ^ P)).2 (by omega)
  have h₂ := (cnt_le_iff (N := H) hlt (m / 2 ^ P)).2 (by omega)
  have h₃ := (lt_cnt_iff (N := T) hlt (n / 2 ^ P)).2 (by omega)
  have h₄ := (lt_cnt_iff (N := T) hlt (m / 2 ^ P)).2 (by omega)
  have h₅ := hf _ hlt
  have hq : n / 2 ^ P = m / 2 ^ P := Fifo.eq_of_mod_of_lt h₁ (by omega) h₂ (by omega) hi
  rw [← dn, ← dm, hq]

namespace Rob

variable (P D : ℕ)

/-- The reorder buffer `s` holds the log `l`. -/
structure Rep (s : Rob U) (l : RobLog U) : Prop where
  head_eq : s.head = l.head % 2 ^ P
  tail_eq : s.tail = l.tail % 2 ^ P
  le : l.head ≤ l.tail
  fifo : ∀ b < 2 ^ P, (s.bank b).que.Rep D (cnt (2 ^ P) b l.head) (cnt (2 ^ P) b l.tail)
    fun k => (l.ent (k * 2 ^ P + b)).payload
  rdy : ∀ n, l.Live n → (s.bank (robBank P n)).tagRdy (robId P D n) = (l.ent n).wb.isSome
  flags : ∀ n r, l.Live n → (l.ent n).wb = some r →
    (s.bank (robBank P n)).tagFls (robId P D n) = r.fls ∧
    (s.bank (robBank P n)).tagExc (robId P D n) = r.exc ∧
    (s.bank (robBank P n)).tagVbank (robId P D n) = r.vbank

/-- The ready/valid protocol in a cycle without a flush: issue pushes at most one instruction per
lane and only when the buffer is ready, commit pops only valid lanes, and a write-back carries the
id and the bank of an instruction that is inside. -/
structure Protocol (s : Rob U) (l : RobLog U) (x : RobIn U) : Prop where
  push_le : x.pushSize ≤ 2 ^ P
  push_ready : 0 < x.pushSize → s.ready P D = true
  pop_le : x.popSize ≤ 2 ^ P
  pop_valid : ∀ i < x.popSize, s.cmtValid P D i = true
  wb_live : ∀ j < 2 ^ P, x.wbValid j = true →
    ∃ n, l.Live n ∧ x.wbRobId j = robId P D n ∧ x.wbRobBank j = robBank P n

variable {P D} {s : Rob U} {l : RobLog U} {x : RobIn U}

theorem rep_reset (zero : U) (ent : ℕ → RobEnt U) : (reset zero).Rep P D (RobLog.empty ent) where
  head_eq := by simp [reset, RobLog.empty]
  tail_eq := by simp [reset, RobLog.empty]
  le := le_rfl
  fifo b hb := by
    simp only [RobLog.empty, cnt_zero hb]
    exact Fifo.rep_reset zero _
  rdy n hn := absurd hn.2 (Nat.not_lt_zero n)
  flags n _ hn := absurd hn.2 (Nat.not_lt_zero n)

/-- An empty reorder buffer has room. -/
theorem Rep.ready_of_empty (h : s.Rep P D l) (he : l.head = l.tail) : s.ready P D = true := by
  rw [ready, List.all_eq_true]
  intro b hb
  have hf := h.fifo b (List.mem_range.1 hb)
  rw [he] at hf
  rw [Fifo.ready, hf.wPtr_eq, hf.rPtr_eq, beq_self_eq_true, Bool.true_or]

theorem Rep.fits (h : s.Rep P D l) : RobFits P D l.head l.tail := fun b hb => (h.fifo b hb).le_add

/-- **Two instructions inside never share a bank and an id.** -/
theorem Rep.slot_inj (h : s.Rep P D l) {n m : ℕ} (hn : l.Live n) (hm : l.Live m)
    (hb : robBank P n = robBank P m) (hi : robId P D n = robId P D m) : n = m :=
  h.fits.slot_inj hn.1 hn.2 hm.1 hm.2 hb hi

/-! ### What issue and commit see -/

theorem Rep.tailL_eq (h : s.Rep P D l) (i : ℕ) : s.tailL P i = robBank P (l.tail + i) := by
  rw [tailL, h.tail_eq, Nat.mod_add_mod, robBank]

theorem Rep.headL_eq (h : s.Rep P D l) (i : ℕ) : s.headL P i = robBank P (l.head + i) := by
  rw [headL, h.head_eq, Nat.mod_add_mod, robBank]

theorem Rep.tailR_eq (h : s.Rep P D l) (b : ℕ) : s.tailR P b = lane (2 ^ P) l.tail b := by
  rw [tailR, h.tail_eq, lane]

theorem Rep.headR_eq (h : s.Rep P D l) (b : ℕ) : s.headR P b = lane (2 ^ P) l.head b := by
  rw [headR, h.head_eq, lane]

theorem robBank_lt (P n : ℕ) : robBank P n < 2 ^ P := Nat.mod_lt _ (Nat.two_pow_pos P)

/-- The bank of a lane has got to the instruction of that lane. -/
theorem cnt_robBank {N i : ℕ} (hi : i < 2 ^ P) :
    cnt (2 ^ P) (robBank P (N + i)) N = (N + i) / 2 ^ P :=
  cnt_lane hi

theorem Rep.freeBank_eq (h : s.Rep P D l) (i : ℕ) : s.freeBank P i = robBank P (l.tail + i) :=
  h.tailL_eq i

theorem Rep.freeId_eq (h : s.Rep P D l) {i : ℕ} (hi : i < 2 ^ P) :
    s.freeId P D i = robId P D (l.tail + i) := by
  rw [freeId, h.tailL_eq, (h.fifo _ (robBank_lt P _)).wptr_eq, cnt_robBank hi, robId]

theorem Rep.rptr_eq (h : s.Rep P D l) {i : ℕ} (hi : i < 2 ^ P) :
    (s.cmtBank P i).que.rptr D = robId P D (l.head + i) := by
  rw [cmtBank, h.headL_eq, (h.fifo _ (robBank_lt P _)).rptr_eq, cnt_robBank hi, robId]

theorem Rep.valid_iff (h : s.Rep P D l) {i : ℕ} (hi : i < 2 ^ P) :
    (s.cmtBank P i).que.valid = true ↔ l.head + i < l.tail := by
  have hb := robBank_lt P (l.head + i)
  rw [cmtBank, h.headL_eq, (h.fifo _ hb).valid_iff, lt_cnt_iff hb, cnt_robBank hi, robBank,
    Nat.div_add_mod']

theorem Rep.entValid_iff (h : s.Rep P D l) {i : ℕ} (hi : i < 2 ^ P) :
    s.entValid P D i = true ↔ l.head + i < l.tail ∧ (l.ent (l.head + i)).wb.isSome = true := by
  rw [entValid, Bool.and_eq_true, h.valid_iff hi, h.rptr_eq hi, cmtBank, h.headL_eq]
  refine and_congr_right fun hlt => ?_
  rw [h.rdy _ ⟨Nat.le_add_right _ _, hlt⟩]

/-- **`cmt_valid` is the prefix of the written-back instructions.** -/
theorem Rep.cmtValid_iff (h : s.Rep P D l) {i : ℕ} (hi : i < 2 ^ P) :
    s.cmtValid P D i = true ↔
      ∀ j ≤ i, l.head + j < l.tail ∧ (l.ent (l.head + j)).wb.isSome = true := by
  simp only [cmtValid, List.all_eq_true, List.mem_range, Nat.lt_succ_iff]
  constructor
  · intro hv j hj
    exact (h.entValid_iff (by omega)).1 (hv j hj)
  · intro hv j hj
    exact (h.entValid_iff (by omega)).2 (hv j hj)

theorem Rep.cmtPayload_eq (h : s.Rep P D l) {i : ℕ} (hi : i < 2 ^ P) (hlt : l.head + i < l.tail) :
    s.cmtPayload P i = (l.ent (l.head + i)).payload := by
  have hb := robBank_lt P (l.head + i)
  have hf := h.fifo _ hb
  rw [cmtPayload, cmtBank, h.headL_eq, hf.front, cnt_robBank hi, robBank, Nat.div_add_mod']
  rwa [lt_cnt_iff hb, cnt_robBank hi, robBank, Nat.div_add_mod']

/-- **A valid commit lane shows the instruction of the log with its own write-back.** -/
theorem Rep.cmt_eq (h : s.Rep P D l) {i : ℕ} (hi : i < 2 ^ P) (hv : s.cmtValid P D i = true) :
    l.ent (l.head + i) =
      ⟨s.cmtPayload P i, some ⟨s.cmtFls P D i, s.cmtExc P D i, s.cmtVbank P D i⟩⟩ := by
  obtain ⟨hlt, hsome⟩ := (h.cmtValid_iff hi).1 hv i le_rfl
  obtain ⟨r, hr⟩ := Option.isSome_iff_exists.1 hsome
  obtain ⟨h₁, h₂, h₃⟩ := h.flags _ r ⟨Nat.le_add_right _ _, hlt⟩ hr
  rw [cmtFls, cmtExc, cmtVbank, h.rptr_eq hi, cmtBank, h.headL_eq, h₁, h₂, h₃,
    h.cmtPayload_eq hi hlt]
  cases he : l.ent (l.head + i)
  simp_all

/-! ### One cycle -/

theorem Rep.next_flush (s : Rob U) (l : RobLog U) (hx : x.flush = true) :
    (s.next P D x).Rep P D (l.next P D x) := by
  rw [RobLog.next_of_flush hx]
  exact
    { head_eq := by simp [next, hx, RobLog.empty]
      tail_eq := by simp [next, hx, RobLog.empty]
      le := le_rfl
      fifo := fun b hb => by
        simp only [RobLog.empty, cnt_zero hb]
        exact Fifo.Rep.next_flush _ hx _ _
      rdy := fun n hn => absurd hn.2 (Nat.not_lt_zero n)
      flags := fun n _ hn => absurd hn.2 (Nat.not_lt_zero n) }

/-- Every bank can take what is pushed. -/
theorem Rep.fits_push (h : s.Rep P D l) (hp : Protocol P D s l x) :
    RobFits P D l.head (l.tail + x.pushSize) := by
  intro b hb
  have hle := (h.fifo b hb).le_add
  rw [cnt_add hb hp.push_le]
  split_ifs with hlt
  · have hr := hp.push_ready (by omega)
    simp only [ready, List.all_eq_true, List.mem_range] at hr
    have := (h.fifo b hb).lt_of_ready (hr b hb)
    omega
  · exact hle

/-- The instruction that is pushed into a bank has the address its FIFO writes to. -/
theorem Rep.wptr_eq (h : s.Rep P D l) {b : ℕ} (hb : b < 2 ^ P) :
    robBank P (l.tail + lane (2 ^ P) l.tail b) = b ∧
      (s.bank b).que.wptr D = robId P D (l.tail + lane (2 ^ P) l.tail b) := by
  have hm : robBank P (l.tail + lane (2 ^ P) l.tail b) = b := add_lane_mod hb
  have hc := cnt_robBank (N := l.tail) (lane_lt (N := l.tail) (b := b) (Nat.two_pow_pos P))
  rw [hm] at hc
  exact ⟨hm, by rw [(h.fifo b hb).wptr_eq, hc, robId]⟩

theorem tagNext_apply (push : Bool) (waddr : ℕ) (wb : Bool) (wbId : ℕ) (wdata : Bool)
    (tag : ℕ → Bool) (a : ℕ) :
    tagNext push waddr wb wbId wdata tag a =
      if wb = true ∧ wbId = a then wdata else if push = true ∧ waddr = a then false else tag a := by
  cases push <;> cases wb <;>
    simp [tagNext, rfWrite, Function.update_apply, eq_comm (a := a)]

/-- A push never touches the address of an instruction that is inside. -/
theorem Rep.push_ne_live (h : s.Rep P D l) (hp : Protocol P D s l x) {n : ℕ} (hn : l.Live n) :
    ¬ (decide (s.tailR P (robBank P n) < x.pushSize) = true ∧
      (s.bank (robBank P n)).que.wptr D = robId P D n) := by
  rintro ⟨hlt, ha⟩
  rw [h.tailR_eq, decide_eq_true_eq] at hlt
  obtain ⟨hb, hw⟩ := h.wptr_eq (robBank_lt P n)
  have heq := (h.fits_push hp).slot_inj hn.1 (by have := hn.2; omega) (by have := h.le; omega)
    (by omega) hb.symm (ha.symm.trans hw)
  have := hn.2
  omega

/-- A write-back never touches the address of an instruction that is being pushed. -/
theorem Rep.wb_ne_push (h : s.Rep P D l) (hp : Protocol P D s l x) {n : ℕ} (hn : l.tail ≤ n)
    (hn' : n < l.tail + x.pushSize) :
    ¬ (x.queWb P (robBank P n) = true ∧ x.queWbId P (robBank P n) = robId P D n) := by
  rw [RobIn.queWb_iff]
  rintro ⟨j, hj⟩
  obtain ⟨hlt, hs, hid⟩ := RobIn.wbLane_spec hj
  simp only [RobIn.wbSel, Bool.and_eq_true, beq_iff_eq] at hs
  obtain ⟨m, hm, hmid, hmb⟩ := hp.wb_live j hlt hs.1.1
  have heq := (h.fits_push hp).slot_inj hm.1 (by have := hm.2; omega) (h.le.trans hn) hn'
    (hmb.symm.trans hs.2.symm) (hmid.symm.trans hid)
  have := hm.2
  omega

/-- What the flag memories hold at the address of an instruction that was inside. -/
theorem Rep.tagNext_live (h : s.Rep P D l) (hp : Protocol P D s l x) {n : ℕ} (hn : l.Live n)
    (wdata : Bool) (tag : ℕ → Bool) :
    tagNext (decide (s.tailR P (robBank P n) < x.pushSize)) ((s.bank (robBank P n)).que.wptr D)
      (x.queWb P (robBank P n)) (x.queWbId P (robBank P n)) wdata tag (robId P D n) =
      if (x.wbLane P D n).isSome then wdata else tag (robId P D n) := by
  rw [tagNext_apply, if_neg (h.push_ne_live hp hn)]
  refine if_congr ?_ rfl rfl
  rw [RobIn.queWb_iff, Option.isSome_iff_exists]

theorem Rep.rdy_next (h : s.Rep P D l) (hx : x.flush = false) (hp : Protocol P D s l x) {n : ℕ}
    (hn : (l.next P D x).Live n) :
    ((s.next P D x).bank (robBank P n)).tagRdy (robId P D n) =
      ((l.next P D x).ent n).wb.isSome := by
  rcases RobLog.live_next hx hn with hs | hn'
  · have hl : l.Live n := ⟨by omega, hs.2⟩
    simp only [next, h.tagNext_live hp hl, h.rdy n hl, RobLog.next_ent_live hx hs.1 hs.2]
    cases x.wbLane P D n <;> simp
  · have hlane : lane (2 ^ P) l.tail (robBank P n) = n - l.tail := by
      obtain ⟨i, rfl⟩ := Nat.exists_eq_add_of_le hn'.1
      have := hp.push_le
      rw [robBank, lane_add_mod (by omega)]
      omega
    have hw := (h.wptr_eq (robBank_lt P n)).2
    rw [hlane, Nat.add_sub_cancel' hn'.1] at hw
    have hpush : s.tailR P (robBank P n) < x.pushSize := by
      rw [h.tailR_eq, hlane]
      omega
    have hwb := h.wb_ne_push hp hn'.1 hn'.2
    simp only [next, tagNext_apply, if_neg hwb, hw, RobLog.next_ent_push hx hn'.1 hn'.2]
    simp [hpush]

theorem Rep.flags_next (h : s.Rep P D l) (hx : x.flush = false) (hp : Protocol P D s l x) {n : ℕ}
    {r : WbRec} (hn : (l.next P D x).Live n) (hr : ((l.next P D x).ent n).wb = some r) :
    ((s.next P D x).bank (robBank P n)).tagFls (robId P D n) = r.fls ∧
      ((s.next P D x).bank (robBank P n)).tagExc (robId P D n) = r.exc ∧
      ((s.next P D x).bank (robBank P n)).tagVbank (robId P D n) = r.vbank := by
  rcases RobLog.live_next hx hn with hs | hn'
  · have hl : l.Live n := ⟨by omega, hs.2⟩
    rw [RobLog.next_ent_live hx hs.1 hs.2] at hr
    have hv := RobIn.queWb_iff (x := x) (P := P) (D := D) (n := n)
    simp only [next, h.tagNext_live hp hl]
    cases hj : x.wbLane P D n with
    | none =>
        have hno : ¬ (x.queWb P (robBank P n) = true ∧
            x.queWbId P (robBank P n) = robId P D n) := by
          rw [hv, hj]
          simp
        simp only [hj, Option.map_none, Option.none_or] at hr
        obtain ⟨h₁, h₂, h₃⟩ := h.flags n r hl hr
        refine ⟨by simpa using h₁, by simpa using h₂, ?_⟩
        split_ifs with hw
        · rw [Function.update_of_ne, h₃]
          exact fun heq => hno ⟨hw, heq.symm⟩
        · exact h₃
    | some j =>
        obtain ⟨hjl, hs, hid⟩ := RobIn.wbLane_spec hj
        obtain ⟨g₁, g₂, g₃, g₄, g₅⟩ := RobIn.queWb_of_sel hjl hs
        simp only [hj, Option.map_some, Option.some_or, Option.some.injEq] at hr
        subst hr
        simp [g₁, g₂, g₃, g₄, g₅, hid, RobIn.wbRec]
  · rw [RobLog.next_ent_push hx hn'.1 hn'.2] at hr
    cases hr

/-- **One cycle of the circuit within the protocol is one step of the log.** -/
theorem Rep.next (h : s.Rep P D l) (hx : x.flush = false) (hp : Protocol P D s l x) :
    (s.next P D x).Rep P D (l.next P D x) where
  head_eq := by simp [Rob.next, RobLog.next_head hx, hx, h.head_eq]
  tail_eq := by simp [Rob.next, RobLog.next_tail hx, hx, h.tail_eq]
  le := by
    have hle := h.le
    have hpop := hp.pop_le
    rw [RobLog.next_head hx, RobLog.next_tail hx]
    rcases Nat.eq_zero_or_pos x.popSize with h0 | hpos
    · omega
    · have hv := hp.pop_valid (x.popSize - 1) (by omega)
      have := ((h.cmtValid_iff (by omega)).1 hv _ le_rfl).1
      omega
  fifo b hb := by
    have hf := h.fifo b hb
    have hcl := cnt_mul_add (N := l.tail) hb
    have hch := cnt_mul_add (N := l.head) hb
    have hR := cnt_add (N := l.head) hb hp.pop_le
    have hW := cnt_add (N := l.tail) hb hp.push_le
    have hB : (0 : ℕ) < 2 ^ P := Nat.two_pow_pos P
    -- the words that stay in the bank are those of the old log, the pushed one is new
    have hold : ∀ k, cnt (2 ^ P) b l.head ≤ k → k < cnt (2 ^ P) b l.tail →
        (l.ent (k * 2 ^ P + b)).payload = ((l.next P D x).ent (k * 2 ^ P + b)).payload := by
      intro k hk hk'
      rw [lt_cnt_iff hb] at hk'
      rw [RobLog.next_payload hx hk']
    have hnew : lane (2 ^ P) l.tail b < x.pushSize →
        ((l.next P D x).ent (cnt (2 ^ P) b l.tail * 2 ^ P + b)).payload =
          x.push (lane (2 ^ P) l.tail b) := by
      intro hlt
      rw [hcl, RobLog.next_ent_push hx (by omega) (by omega), Nat.add_sub_cancel_left]
    have key := (hf.congr hold).next (x := ⟨x.flush, decide (s.tailR P b < x.pushSize),
      x.push (s.tailR P b), decide (s.headR P b < x.popSize)⟩) hx
    simp only [h.tailR_eq, h.headR_eq, decide_eq_true_eq] at key
    simp only [Rob.next, h.tailR_eq, h.headR_eq]
    rw [RobLog.next_head hx, RobLog.next_tail hx, hR, hW]
    refine key (fun hlt => ⟨?_, hnew hlt⟩) fun hlt => ?_
    · have := h.fits_push hp b hb
      rw [hW, if_pos hlt] at this
      omega
    · have hl := lane_lt (N := l.head) (b := b) hB
      have hv := ((h.cmtValid_iff hl).1 (hp.pop_valid _ hlt) _ le_rfl).1
      rw [lt_cnt_iff hb, hch]
      exact hv
  rdy _ hn := h.rdy_next hx hp hn
  flags _ _ hn hr := h.flags_next hx hp hn hr

/-! ### Whole runs -/

/-- What has gone into the reorder buffer and come out of it since the last flush: the log, the
instructions pushed, and what the commit lanes showed when they were popped. -/
structure Hist (U : Type*) where
  log : RobLog U
  pushed : List U
  shown : List (U × WbRec)

variable (P D) in
/-- What commit lane `i` shows. -/
def cmtShown (s : Rob U) (i : ℕ) : U × WbRec :=
  (s.cmtPayload P i, ⟨s.cmtFls P D i, s.cmtExc P D i, s.cmtVbank P D i⟩)

variable (P D) in
def Hist.next (h : Hist U) (s : Rob U) (x : RobIn U) : Hist U where
  log := h.log.next P D x
  pushed := if x.flush then [] else h.pushed ++ (List.range x.pushSize).map x.push
  shown := if x.flush then [] else h.shown ++ (List.range x.popSize).map (s.cmtShown P D)

variable (P D) in
/-- The reorder buffer with its history, driven within the protocol. -/
def machine (zero : U) : Machine (Rob U × Hist U) (RobIn U) :=
  Machine.observe ⟨reset zero, fun _ _ => True, fun s x => s.next P D x⟩
    ⟨RobLog.empty fun _ => ⟨zero, none⟩, [], []⟩ (fun h s x => h.next P D s x)
    fun h s x => x.flush = false → Protocol P D s h.log x

variable (P D) in
/-- The history is that of the log: everything pushed is in the log in this order, and everything
popped was shown as the log has it. -/
structure HistOk (s : Rob U) (h : Hist U) : Prop where
  rep : s.Rep P D h.log
  pushed_eq : h.pushed = (List.range h.log.tail).map fun n => (h.log.ent n).payload
  shown_eq : h.shown.map (fun c => RobEnt.mk c.1 (some c.2)) = (List.range h.log.head).map h.log.ent

theorem HistOk.next {h : Hist U} (ho : HistOk P D s h)
    (hp : x.flush = false → Protocol P D s h.log x) :
    HistOk P D (s.next P D x) (h.next P D s x) := by
  cases hx : x.flush with
  | true =>
      refine ⟨Rep.next_flush s h.log hx, ?_, ?_⟩
      · simp [Hist.next, hx, RobLog.next_of_flush hx, RobLog.empty]
      · simp [Hist.next, hx, RobLog.next_of_flush hx, RobLog.empty]
  | false =>
      have hp := hp hx
      have hr := ho.rep
      have hpop : ∀ i < x.popSize, h.log.Live (h.log.head + i) := by
        intro i hi
        have hb := hp.pop_le
        exact ⟨Nat.le_add_right _ _,
          ((hr.cmtValid_iff (by omega)).1 (hp.pop_valid i hi) i le_rfl).1⟩
      refine ⟨hr.next hx hp, ?_, ?_⟩
      · simp only [Hist.next, hx, ho.pushed_eq, RobLog.next_tail hx, List.range_add,
          List.map_append, List.map_map, Bool.false_eq_true, if_false]
        refine congrArg₂ _ (List.map_congr_left fun n hn => ?_) (List.map_congr_left fun i hi => ?_)
        · rw [RobLog.next_payload hx (List.mem_range.1 hn)]
        · have hi := List.mem_range.1 hi
          simp [RobLog.next_ent_push hx (show h.log.tail ≤ h.log.tail + i by omega) (by omega)]
      · simp only [Hist.next, hx, ho.shown_eq, RobLog.next_head hx, List.range_add, List.map_append,
          List.map_map, Bool.false_eq_true, if_false]
        have hle' := hr.le
        refine congrArg₂ _ (List.map_congr_left fun n hn => ?_) (List.map_congr_left fun i hi => ?_)
        · have hn := List.mem_range.1 hn
          rw [RobLog.next_ent_popped hx (by omega) (by omega)]
        · have hi := List.mem_range.1 hi
          have hb := hp.pop_le
          have hc := hr.cmt_eq (by omega) (hp.pop_valid i hi)
          simp only [Function.comp_apply, cmtShown]
          rw [RobLog.next_ent_popped hx (by omega) (hpop i hi).2, hc]

theorem histOk_of_reach {zero : U} {sh : Rob U × Hist U} (h : (machine P D zero).Reach sh) :
    HistOk P D sh.1 sh.2 := by
  refine Machine.Reach.inv (P := fun sh => HistOk P D sh.1 sh.2) ?_ ?_ h
  · exact ⟨rep_reset _ _, by simp [machine, Machine.observe, RobLog.empty],
      by simp [machine, Machine.observe, RobLog.empty]⟩
  · intro sh x ho hx
    exact ho.next hx.2

/-- A cycle leaves the flags and operands of an instruction alone unless an accepted write-back
carries its id and its bank. -/
theorem Rep.slot_keep (h : s.Rep P D l) (hp : Protocol P D s l x) {n : ℕ} (hn : l.Live n)
    (hno : ∀ j < 2 ^ P, x.wbValid j = true → x.wbReady j = true → x.wbRobBank j = robBank P n →
      x.wbRobId j ≠ robId P D n) :
    ((s.next P D x).bank (robBank P n)).SameAt (s.bank (robBank P n)) (robId P D n) := by
  have hnone : x.wbLane P D n = none := by
    rw [← Option.not_isSome_iff_eq_none, Option.isSome_iff_exists]
    rintro ⟨j, hj⟩
    obtain ⟨hlt, hs, hid⟩ := RobIn.wbLane_spec hj
    simp only [RobIn.wbSel, Bool.and_eq_true, beq_iff_eq] at hs
    exact hno j hlt hs.1.1 hs.1.2 hs.2.symm hid
  have hv := RobIn.queWb_iff (x := x) (P := P) (D := D) (n := n)
  rw [hnone] at hv
  simp only [RobBank.SameAt, Rob.next, h.tagNext_live hp hn, hnone]
  refine ⟨rfl, rfl, rfl, ?_⟩
  split_ifs with hw
  · rw [Function.update_of_ne]
    intro heq
    obtain ⟨j, hj⟩ := hv.1 ⟨hw, heq.symm⟩
    cases hj
  · rfl

/-- **The banked reorder buffer refines a program-order queue with out-of-order completion.**  In
every state reached within the protocol, for every number of banks and every depth: what was shown
at commit, followed by what is still inside, is what was pushed, in push order; `cmt_valid` is the
prefix of the instructions that have been written back, and a valid lane shows the instruction of
the queue with its own write-back; issue is offered the ids and banks of the next instructions, no
two instructions inside share theirs, and the flags and operands found there are the instruction's
own and are changed by nothing but an accepted write-back that carries this id and bank. -/
theorem refines_log {zero : U} {s : Rob U} {h : Hist U} (hr : (machine P D zero).Reach (s, h)) :
    h.pushed = h.shown.map (·.1) ++
        (List.range' h.log.head (h.log.tail - h.log.head)).map (fun n => (h.log.ent n).payload) ∧
      h.shown.map (fun c => RobEnt.mk c.1 (some c.2)) = (List.range h.log.head).map h.log.ent ∧
      (∀ i < 2 ^ P, s.cmtValid P D i = true ↔
        ∀ j ≤ i, h.log.Live (h.log.head + j) ∧ (h.log.ent (h.log.head + j)).wb.isSome = true) ∧
      (∀ i < 2 ^ P, s.cmtValid P D i = true →
        h.log.ent (h.log.head + i) = ⟨(s.cmtShown P D i).1, some (s.cmtShown P D i).2⟩) ∧
      (∀ i < 2 ^ P, s.freeId P D i = robId P D (h.log.tail + i) ∧
        s.freeBank P i = robBank P (h.log.tail + i)) ∧
      (∀ n m, h.log.Live n → h.log.Live m → robBank P n = robBank P m →
        robId P D n = robId P D m → n = m) ∧
      (∀ n, h.log.Live n →
        (s.bank (robBank P n)).tagRdy (robId P D n) = (h.log.ent n).wb.isSome ∧
        ∀ r, (h.log.ent n).wb = some r →
          (s.bank (robBank P n)).tagFls (robId P D n) = r.fls ∧
          (s.bank (robBank P n)).tagExc (robId P D n) = r.exc ∧
          (s.bank (robBank P n)).tagVbank (robId P D n) = r.vbank) ∧
      ∀ x : RobIn U, Protocol P D s h.log x → ∀ n, h.log.Live n →
        (∀ j < 2 ^ P, x.wbValid j = true → x.wbReady j = true → x.wbRobBank j = robBank P n →
          x.wbRobId j ≠ robId P D n) →
        ((s.next P D x).bank (robBank P n)).SameAt (s.bank (robBank P n)) (robId P D n) := by
  have ho := histOk_of_reach hr
  have hrep := ho.rep
  refine ⟨?_, ho.shown_eq, ?_, fun i hi hv => hrep.cmt_eq hi hv,
    fun i hi => ⟨hrep.freeId_eq hi, hrep.freeBank_eq i⟩,
    fun n m hn hm hb hid => hrep.slot_inj hn hm hb hid,
    fun n hn => ⟨hrep.rdy n hn, fun r => hrep.flags n r hn⟩,
    fun x hp n hn hno => hrep.slot_keep hp hn hno⟩
  · have hsh : h.shown.map (·.1) = (List.range h.log.head).map fun n => (h.log.ent n).payload := by
      have := congrArg (List.map RobEnt.payload) ho.shown_eq
      simpa [List.map_map, Function.comp_def] using this
    have hle := hrep.le
    have hrange : List.range h.log.tail =
        List.range h.log.head ++ List.range' h.log.head (h.log.tail - h.log.head) := by
      obtain ⟨c, hc⟩ := Nat.exists_eq_add_of_le (show h.log.head ≤ h.log.tail from hle)
      rw [hc, Nat.add_sub_cancel_left, List.range_add, List.range'_eq_map_range]
    rw [ho.pushed_eq, hsh, hrange, List.map_append]
  · intro i hi
    rw [hrep.cmtValid_iff hi]
    refine forall₂_congr fun j _ => and_congr_left fun _ => ?_
    exact ⟨fun hlt => ⟨Nat.le_add_right _ _, hlt⟩, fun hl => hl.2⟩

/-- A cycle that does nothing. -/
def idleIn (zero : U) : RobIn U where
  flush := false
  pushSize := 0
  push := fun _ => zero
  wbValid := fun _ => false
  wbRobId := fun _ => 0
  wbRobBank := fun _ => 0
  wbFls := fun _ => false
  wbExc := fun _ => false
  wbVbank := fun _ => VBank.zero
  popSize := 0

/-- Two instructions are pushed, then the younger one is written back on both of two lanes, the
second of which loses the arbitration, and nothing can commit yet. -/
theorem refines_log_two_pushes :
    let x₁ : RobIn ℕ := { idleIn 0 with pushSize := 2, push := fun i => 7 + i }
    let x₂ : RobIn ℕ := { idleIn 0 with
      wbValid := fun _ => true, wbRobBank := fun _ => 1, wbFls := fun j => j == 0 }
    let M := machine 1 3 0
    let t := M.next (M.next M.reset x₁) x₂
    M.Reach t ∧ t.1.cmtValid 1 3 0 = false ∧ (t.1.bank 1).tagFls 0 = true := by
  intro x₁ x₂ M t
  have h₁ : M.Reach (M.next M.reset x₁) := by
    refine Machine.Reach.tick Machine.Reach.reset ⟨trivial, fun _ => ⟨by decide, ?_, ?_, ?_, ?_⟩⟩
    · intro _
      decide
    · decide
    · intro i hi
      exact absurd hi (Nat.not_lt_zero i)
    · intro j _ hj
      exact absurd hj (by simp [x₁, idleIn])
  have h₂ : M.Reach t := by
    refine Machine.Reach.tick h₁ ⟨trivial, fun _ => ⟨by decide, ?_, ?_, ?_, ?_⟩⟩
    · intro h
      exact absurd h (Nat.not_lt_zero 0)
    · decide
    · intro i hi
      exact absurd hi (Nat.not_lt_zero i)
    · intro j _ _
      exact ⟨1, ⟨by decide, by decide⟩, rfl, rfl⟩
  obtain ⟨-, -, hv, -, -, -, hl, -⟩ := refines_log (s := t.1) (h := t.2) h₂
  refine ⟨h₂, ?_, ?_⟩
  · rw [← Bool.not_eq_true, hv 0 (by decide)]
    intro h
    exact absurd (h 0 le_rfl).2 (by decide)
  · exact ((hl 1 ⟨by decide, by decide⟩).2 ⟨true, false, VBank.zero⟩ (by decide)).1

end Rob

end NanoCpu
