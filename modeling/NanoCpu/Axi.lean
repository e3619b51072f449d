/-
**A memory behind an AXI bus.**

The bus has five channels, each with its own handshake: read addresses, read data, write addresses,
write data and write responses.  A memory may take its time on every one of them, may take write
data before it knows where the data goes, and may write the bytes it has been sent in any order, as
long as all of them are written before it answers.  Masters have one burst in each direction at a
time.

Main definitions:

* `AxiBurst`, `AxiBeat` — an incrementing burst, and what one beat of a write carries;
* `AxiOut`, `AxiIn` — what a master and a memory put on the bus in one cycle;
* `AxiMem`, `AxiMem.next` — a memory with the bursts it is working on;
* `AxiMem.Answers` — the promise of a correct memory;
* `AxiMem.NoRead`, `AxiMem.Reads`, `AxiMem.NoWrite`, `AxiMem.Writes` — how far a master and the
  memory have come with a burst;
* `AxiIn.silent`, `AxiIn.prompt` — a memory that does nothing, and one that does all at once.

Main results:

* `AxiBurst.written_of_mem`, `AxiBurst.written_eq_none` — what the beats of a burst write;
* `AxiMem.Reads.next`, `AxiMem.Writes.next` — one cycle of a burst, for a master that holds a valid
  address until it is taken.
-/

import Mathlib.Tactic

set_option relaxedAutoImplicit false
set_option autoImplicit false

abbrev Byte := BitVec 8

/-- A burst of `len + 1` beats of `2 ^ size` bytes at increasing addresses. -/
structure AxiBurst where
  addr : ℕ
  len : ℕ
  size : ℕ
  deriving DecidableEq, Repr

def AxiBurst.beatAddr (b : AxiBurst) (i : ℕ) : ℕ := b.addr + i * 2 ^ b.size

/-- One beat of write data: the bytes on the lanes, and which of them count. -/
structure AxiBeat where
  data : ℕ → Byte
  strb : ℕ → Bool

/-- The byte at `p` is written by a beat to the bus word of address `a`. -/
def AxiBeat.Covers (x : AxiBeat) (a p : ℕ) : Prop := p / 8 = a / 8 ∧ x.strb (p % 8) = true

instance (x : AxiBeat) (a p : ℕ) : Decidable (x.Covers a p) :=
  inferInstanceAs (Decidable (_ ∧ _))

/-- What the beats `l`, the last one first, write to the byte at `p`. -/
def AxiBurst.written (b : AxiBurst) : List AxiBeat → ℕ → Option Byte
  | [], _ => none
  | x :: l, p => if x.Covers (b.beatAddr l.length) p then some (x.data (p % 8)) else b.written l p

/-- What the master puts on the bus. -/
structure AxiOut where
  arValid : Bool
  ar : AxiBurst
  rReady : Bool
  awValid : Bool
  aw : AxiBurst
  wValid : Bool
  w : AxiBeat
  wLast : Bool
  bReady : Bool

/-- What the memory puts on the bus, and which of the bytes it has been sent it writes now. -/
structure AxiIn where
  arReady : Bool
  rValid : Bool
  rData : ℕ → Byte
  rLast : Bool
  awReady : Bool
  wReady : Bool
  bValid : Bool
  land : ℕ → Bool

/-- A memory: its bytes, the read burst it works on with the number of the next beat, the write
burst, and the beats it has been sent, the last one first. -/
structure AxiMem where
  mem : ℕ → Byte
  rd : Option (AxiBurst × ℕ)
  aw : Option AxiBurst
  w : List AxiBeat
  wDone : Bool

namespace AxiMem

/-- No burst is going on. -/
def idle (mem : ℕ → Byte) : AxiMem := ⟨mem, none, none, [], false⟩

/-- What the beats that have come so far write to the byte at `p`. -/
def incoming (m : AxiMem) (p : ℕ) : Option Byte := m.aw.bind fun b => b.written m.w p

/-- The promise of a correct memory: read data only for a burst that was asked for, with the bytes
of the memory on the lanes of the beat; a write response only when all data has come and is
written. -/
structure Answers (m : AxiMem) (i : AxiIn) : Prop where
  read : i.rValid = true → ∃ b k, m.rd = some (b, k) ∧ i.rLast = decide (k = b.len) ∧
    ∀ p, b.beatAddr k ≤ p → p < b.beatAddr k + 2 ^ b.size → i.rData (p % 8) = m.mem p
  write : i.bValid = true → m.aw.isSome = true ∧ m.wDone = true ∧
    ∀ p v, m.incoming p = some v → m.mem p = v

/-- The memory after the clock edge. -/
def next (m : AxiMem) (o : AxiOut) (i : AxiIn) : AxiMem where
  mem p := if i.land p then (m.incoming p).getD (m.mem p) else m.mem p
  rd :=
    if o.arValid && i.arReady then some (o.ar, 0)
    else if i.rValid && o.rReady then
      if i.rLast then none else m.rd.map fun r => (r.1, r.2 + 1)
    else m.rd
  aw :=
    if o.awValid && i.awReady then some o.aw
    else if i.bValid && o.bReady then none
    else m.aw
  w :=
    if o.wValid && i.wReady then o.w :: m.w
    else if i.bValid && o.bReady then []
    else m.w
  wDone :=
    if o.wValid && i.wReady then o.wLast
    else if i.bValid && o.bReady then false
    else m.wDone

/-- A byte that no beat writes stays as it is. -/
theorem next_mem_of_incoming {m : AxiMem} {p : ℕ} (h : m.incoming p = none) (o : AxiOut)
    (i : AxiIn) : (m.next o i).mem p = m.mem p := by
  simp [next, h]

/-- A byte that is sent the value it has keeps it. -/
theorem next_mem_eq {m : AxiMem} {p : ℕ} {v : Byte} (hm : m.mem p = v)
    (h : ∀ u, m.incoming p = some u → u = v) (o : AxiOut) (i : AxiIn) : (m.next o i).mem p = v := by
  simp only [next]
  split_ifs
  · cases hp : m.incoming p with
    | none => exact hm
    | some u => exact h u hp
  · exact hm

end AxiMem

namespace AxiBurst

variable {b : AxiBurst}

/-- The beats `0, …, k - 1` of a burst, the last one first. -/
def beats (f : ℕ → AxiBeat) (k : ℕ) : List AxiBeat := (List.range k).reverse.map f

@[simp] theorem beats_zero (f : ℕ → AxiBeat) : beats f 0 = [] := rfl

theorem beats_succ (f : ℕ → AxiBeat) (k : ℕ) : beats f (k + 1) = f k :: beats f k := by
  simp [beats, List.range_succ]

@[simp] theorem length_beats (f : ℕ → AxiBeat) (k : ℕ) : (beats f k).length = k := by simp [beats]

/-- A byte that no beat covers is not written. -/
theorem written_eq_none {f : ℕ → AxiBeat} {k p : ℕ} (h : ∀ i < k, ¬ (f i).Covers (b.beatAddr i) p) :
    b.written (beats f k) p = none := by
  induction k with
  | zero => rfl
  | succ k ih =>
      rw [beats_succ, written, length_beats, if_neg (h k (by omega)), ih fun i hi => h i (by omega)]

/-- A byte that exactly one beat covers gets what that beat carries. -/
theorem written_of_mem {f : ℕ → AxiBeat} {k i p : ℕ} (hi : i < k)
    (h : (f i).Covers (b.beatAddr i) p) (hu : ∀ j < k, (f j).Covers (b.beatAddr j) p → j = i) :
    b.written (beats f k) p = some ((f i).data (p % 8)) := by
  induction k with
  | zero => omega
  | succ k ih =>
      rw [beats_succ, written, length_beats]
      rcases Nat.lt_succ_iff_lt_or_eq.1 hi with hlt | rfl
      · rw [if_neg, ih hlt fun j hj => hu j (by omega)]
        intro hk
        have := hu k (by omega) hk
        omega
      · rw [if_pos h]

end AxiBurst

/-! ### A burst in progress -/

namespace AxiMem

/-- No read is going on. -/
structure NoRead (m : AxiMem) (o : AxiOut) : Prop where
  arValid : o.arValid = false
  rd : m.rd = none

/-- The master reads the burst `b`, and has got `c` beats of it. -/
structure Reads (m : AxiMem) (o : AxiOut) (b : AxiBurst) (c : ℕ) : Prop where
  ar : o.arValid = true → o.ar = b
  rd : m.rd = if o.arValid then none else some (b, c)
  first : o.arValid = true → c = 0
  le : c ≤ b.len

/-- No write is going on. -/
structure NoWrite (m : AxiMem) (o : AxiOut) : Prop where
  awValid : o.awValid = false
  wValid : o.wValid = false
  aw : m.aw = none
  w : m.w = []
  wDone : m.wDone = false

/-- The master writes the burst `b`, and has sent `k` beats of it. -/
structure Writes (m : AxiMem) (o : AxiOut) (b : AxiBurst) (k : ℕ) : Prop where
  aw : o.awValid = true → o.aw = b
  mAw : m.aw = if o.awValid then none else some b
  length : m.w.length = k
  le : k ≤ b.len + 1
  wValid : o.wValid = decide (k ≤ b.len)
  wLast : o.wValid = true → o.wLast = decide (k = b.len)
  wDone : m.wDone = decide (k = b.len + 1)

variable {m : AxiMem} {o o' : AxiOut} {i : AxiIn} {b : AxiBurst} {c k : ℕ}

/-- Nothing is answered that was not asked. -/
theorem NoRead.not_rValid (h : m.NoRead o) (ha : m.Answers i) : i.rValid = false := by
  by_contra hne
  obtain ⟨b, k, hb, -⟩ := ha.read (by simpa using hne)
  rw [h.rd] at hb
  cases hb

theorem NoRead.next (h : m.NoRead o) (ha : m.Answers i) (ho : o'.arValid = false) :
    (m.next o i).NoRead o' := by
  refine ⟨ho, ?_⟩
  simp [AxiMem.next, h.arValid, h.not_rValid ha, h.rd]

/-- A master that raises its read address starts a burst. -/
theorem NoRead.start (h : m.NoRead o) (ha : m.Answers i) (hv : o'.arValid = true) :
    (m.next o i).Reads o' o'.ar 0 := by
  refine ⟨fun _ => rfl, ?_, fun _ => rfl, Nat.zero_le _⟩
  rw [hv, if_pos rfl]
  simp [AxiMem.next, h.arValid, h.not_rValid ha, h.rd]

theorem NoWrite.not_bValid (h : m.NoWrite o) (ha : m.Answers i) : i.bValid = false := by
  by_contra hne
  have := (ha.write (by simpa using hne)).1
  rw [h.aw] at this
  cases this

/-- While nothing is written the memory stays as it is. -/
theorem NoWrite.mem_next (h : m.NoWrite o) : (m.next o i).mem = m.mem := by
  funext p
  exact next_mem_of_incoming (by simp [incoming, h.aw]) o i

theorem NoWrite.next (h : m.NoWrite o) (ha : m.Answers i) (hv : o'.awValid = false)
    (hw : o'.wValid = false) : (m.next o i).NoWrite o' := by
  refine ⟨hv, hw, ?_, ?_, ?_⟩ <;>
    simp [AxiMem.next, h.awValid, h.wValid, h.not_bValid ha, h.aw, h.w, h.wDone]

/-- A master that raises its write address and its first beat starts a burst. -/
theorem NoWrite.start (h : m.NoWrite o) (ha : m.Answers i) (hv : o'.awValid = true)
    (hw : o'.wValid = true) (hl : o'.wLast = decide (o'.aw.len = 0)) :
    (m.next o i).Writes o' o'.aw 0 := by
  refine ⟨fun _ => rfl, ?_, ?_, Nat.zero_le _, ?_, fun _ => ?_, ?_⟩
  · rw [hv, if_pos rfl]
    simp [AxiMem.next, h.awValid, h.not_bValid ha, h.aw]
  · simp [AxiMem.next, h.wValid, h.not_bValid ha, h.w]
  · simp [hw]
  · simp [hl, eq_comm]
  · simp [AxiMem.next, h.wValid, h.not_bValid ha, h.wDone]

/-- While the address has not been taken there is no data. -/
theorem Reads.not_rValid (h : m.Reads o b c) (ha : m.Answers i) (hv : o.arValid = true) :
    i.rValid = false := by
  by_contra hne
  obtain ⟨b', k, hb, -⟩ := ha.read (by simpa using hne)
  rw [h.rd, hv, if_pos rfl] at hb
  cases hb

/-- What a beat of the burst brings. -/
theorem Reads.data (h : m.Reads o b c) (ha : m.Answers i) (hr : i.rValid = true) :
    o.arValid = false ∧ i.rLast = decide (c = b.len) ∧
      ∀ p, b.beatAddr c ≤ p → p < b.beatAddr c + 2 ^ b.size → i.rData (p % 8) = m.mem p := by
  have hv : o.arValid = false := by
    by_contra hne
    rw [h.not_rValid ha (by simpa using hne)] at hr
    cases hr
  obtain ⟨b', k, hb, hl, hd⟩ := ha.read hr
  rw [h.rd, hv, if_neg Bool.false_ne_true, Option.some_inj, Prod.mk.injEq] at hb
  obtain ⟨rfl, rfl⟩ := hb
  exact ⟨hv, hl, hd⟩

/-- A cycle without a beat. -/
theorem Reads.next_wait (h : m.Reads o b c) (hr : (i.rValid && o.rReady) = false)
    (hv : o'.arValid = (o.arValid && !i.arReady)) (har : o'.arValid = true → o'.ar = b) :
    (m.next o i).Reads o' b c := by
  refine ⟨har, ?_, fun hv' => ?_, h.le⟩
  · cases ho : o.arValid <;> cases hi : i.arReady <;>
      simp [AxiMem.next, hv, ho, hi, hr, h.rd, h.ar, h.first]
  · rw [hv, Bool.and_eq_true] at hv'
    exact h.first hv'.1

/-- A cycle with a beat that is not the last one. -/
theorem Reads.next_beat (h : m.Reads o b c) (ha : m.Answers i) (hr : (i.rValid && o.rReady) = true)
    (hl : i.rLast = false) (hv : o'.arValid = false) : (m.next o i).Reads o' b (c + 1) := by
  obtain ⟨h₁, h₂, -⟩ := h.data ha (Bool.and_eq_true_iff.1 hr).1
  have hlt : c ≠ b.len := by
    rw [hl] at h₂
    simpa using h₂
  refine ⟨fun h' => ?_, ?_, fun h' => ?_, by have := h.le; omega⟩
  · rw [hv] at h'
    cases h'
  · simp [AxiMem.next, hv, h₁, hr, hl, h.rd]
  · rw [hv] at h'
    cases h'

/-- A cycle with the last beat. -/
theorem Reads.next_last (h : m.Reads o b c) (ha : m.Answers i) (hr : (i.rValid && o.rReady) = true)
    (hl : i.rLast = true) (hv : o'.arValid = false) : c = b.len ∧ (m.next o i).NoRead o' := by
  obtain ⟨h₁, h₂, -⟩ := h.data ha (Bool.and_eq_true_iff.1 hr).1
  refine ⟨by rw [hl] at h₂; simpa using h₂.symm, hv, ?_⟩
  simp [AxiMem.next, h₁, hr, hl]

/-- A cycle with the last beat, in which the master raises the address of its next burst. -/
theorem Reads.next_again (h : m.Reads o b c) (ha : m.Answers i) (hr : (i.rValid && o.rReady) = true)
    (hl : i.rLast = true) (hv : o'.arValid = true) : (m.next o i).Reads o' o'.ar 0 := by
  obtain ⟨h₁, -, -⟩ := h.data ha (Bool.and_eq_true_iff.1 hr).1
  refine ⟨fun _ => rfl, ?_, fun _ => rfl, Nat.zero_le _⟩
  rw [hv, if_pos rfl]
  simp [AxiMem.next, h₁, hr, hl]

/-- The response comes when everything has been sent. -/
theorem Writes.of_bValid (h : m.Writes o b k) (ha : m.Answers i) (hb : i.bValid = true) :
    o.awValid = false ∧ k = b.len + 1 ∧ ∀ p v, b.written m.w p = some v → m.mem p = v := by
  obtain ⟨h₁, h₂, h₃⟩ := ha.write hb
  have hv : o.awValid = false := by
    by_contra hne
    rw [h.mAw, if_pos (by simpa using hne)] at h₁
    cases h₁
  refine ⟨hv, by rw [h.wDone] at h₂; simpa using h₂, fun p v hp => h₃ p v ?_⟩
  rw [incoming, h.mAw, hv]
  exact hp

/-- A cycle without the response. -/
theorem Writes.next (h : m.Writes o b k) (hb : (i.bValid && o.bReady) = false)
    (hv : o'.awValid = (o.awValid && !i.awReady)) (haw : o'.awValid = true → o'.aw = b)
    (hw : o'.wValid = (o.wValid && !(i.wReady && o.wLast)))
    (hl : o'.wValid = true → o'.wLast = decide (k + (o.wValid && i.wReady).toNat = b.len)) :
    (m.next o i).Writes o' b (k + (o.wValid && i.wReady).toNat) := by
  have hle := h.le
  have hwv := h.wValid
  have hwl := h.wLast
  have hwd := h.wDone
  refine ⟨haw, ?_, ?_, ?_, ?_, hl, ?_⟩
  · cases ho : o.awValid <;> cases hi : i.awReady <;>
      simp [AxiMem.next, hv, ho, hi, hb, h.mAw, h.aw]
  · cases ho : o.wValid <;> cases hi : i.wReady <;>
      simp [AxiMem.next, ho, hi, hb, h.length]
  · cases ho : o.wValid <;> cases i.wReady <;> simp [ho] at hwv ⊢ <;> omega
  · cases ho : o.wValid <;> cases hi : i.wReady <;> simp [ho, hi, hw] at hwv hwl ⊢
    · omega
    · omega
    · exact hwv
    · rw [hwl, ← decide_not, decide_eq_decide]
      omega
  · cases ho : o.wValid <;> cases hi : i.wReady <;>
      simp [AxiMem.next, ho, hi, hb, hwd] at hwv hwl ⊢
    simp [hwl]

/-- A cycle with the response. -/
theorem Writes.next_last (h : m.Writes o b k) (ha : m.Answers i)
    (hb : (i.bValid && o.bReady) = true)
    (hv : o'.awValid = false) (hw : o'.wValid = false) : (m.next o i).NoWrite o' := by
  obtain ⟨h₁, h₂, -⟩ := h.of_bValid ha (Bool.and_eq_true_iff.1 hb).1
  have h₃ : o.wValid = false := by
    rw [h.wValid, h₂]
    simp
  refine ⟨hv, hw, ?_, ?_, ?_⟩ <;> simp [AxiMem.next, h₁, h₃, hb]

end AxiMem

/-! ### A memory that answers at once -/

/-- A cycle in which the memory does nothing. -/
def AxiIn.silent : AxiIn := ⟨false, false, fun _ => 0, false, false, false, false, fun _ => false⟩

/-- The bytes that have been sent are in memory. -/
def AxiMem.landed (m : AxiMem) : Bool :=
  m.aw.any fun b => (List.range m.w.length).all fun i => (List.range 8).all fun l =>
    (m.incoming (8 * (b.beatAddr i / 8) + l)).all fun v =>
      decide (m.mem (8 * (b.beatAddr i / 8) + l) = v)

/-- A cycle in which the memory does all it can: a beat is at most as wide as the bus, and what has
been sent is written at once. -/
def AxiIn.prompt (m : AxiMem) : AxiIn :=
  let a := (m.rd.map fun r => r.1.beatAddr r.2).getD 0
  { arReady := true
    rValid := m.rd.any fun r => decide (r.1.size ≤ 3)
    rData := fun l => m.mem (a + (l + 7 * a) % 8)
    rLast := decide (m.rd.map (fun r => r.2) = m.rd.map fun r => r.1.len)
    awReady := true
    wReady := true
    bValid := m.wDone && m.landed
    land := fun _ => true }

theorem AxiMem.answers_silent (m : AxiMem) : m.Answers AxiIn.silent :=
  ⟨fun h => Bool.noConfusion h, fun h => Bool.noConfusion h⟩

/-- What is written is in the bus word of a beat. -/
theorem AxiBurst.exists_of_written {b : AxiBurst} {l : List AxiBeat} {p : ℕ} {v : Byte}
    (h : b.written l p = some v) : ∃ i < l.length, p / 8 = b.beatAddr i / 8 := by
  induction l with
  | nil => cases h
  | cons x l ih =>
      rw [written] at h
      split_ifs at h with hc
      · exact ⟨l.length, Nat.lt_succ_self _, hc.1⟩
      · obtain ⟨i, hi, hp⟩ := ih h
        exact ⟨i, Nat.lt_succ_of_lt hi, hp⟩

theorem AxiMem.landed_iff {m : AxiMem} :
    m.landed = true ↔ m.aw.isSome = true ∧ ∀ p v, m.incoming p = some v → m.mem p = v := by
  cases hb : m.aw with
  | none => simp [landed, hb]
  | some b =>
      simp only [landed, hb, Option.any_some, List.all_eq_true, List.mem_range,
        Option.isSome_some, true_and]
      constructor
      · intro h p v hp
        have hw : b.written m.w p = some v := by
          rw [incoming, hb, Option.bind_some] at hp
          exact hp
        obtain ⟨i, hi, hpi⟩ := AxiBurst.exists_of_written hw
        have h8 := h i hi (p % 8) (Nat.mod_lt p (by decide))
        rw [← hpi, Nat.div_add_mod, hp] at h8
        exact of_decide_eq_true h8
      · intro h i _ l _
        cases hq : m.incoming (8 * (b.beatAddr i / 8) + l) with
        | none => rfl
        | some v => exact decide_eq_true (h _ v hq)

theorem AxiMem.answers_prompt (m : AxiMem) : m.Answers (AxiIn.prompt m) := by
  constructor
  · intro hv
    obtain ⟨⟨b, k⟩, hr, hs⟩ := (Option.any_eq_true _ _).1 hv
    have hs3 : b.size ≤ 3 := of_decide_eq_true hs
    refine ⟨b, k, hr, by simp [AxiIn.prompt, hr], fun p hp hp' => ?_⟩
    -- the beat is in the eight bytes from its address on, which have different lanes
    have h8 : 2 ^ b.size ≤ 8 := Nat.pow_le_pow_right (by decide) hs3
    simp only [AxiIn.prompt, hr, Option.map_some, Option.getD_some]
    congr 1
    omega
  · intro hv
    obtain ⟨hd, hl⟩ := Bool.and_eq_true_iff.1 hv
    obtain ⟨ha, hm⟩ := AxiMem.landed_iff.1 hl
    exact ⟨ha, hd, hm⟩
