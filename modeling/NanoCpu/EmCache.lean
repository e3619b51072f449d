/-
**The caches of the emulator** (`em/csrc/cache.cc`).

A cache has `2 ^ w` ways, `2 ^ s` sets and lines of `2 ^ l` bytes.  Every access first brings the
line of its address into the cache: `access` looks for the line, and if it is not there the way
whose age is zero gives up its line, which is written to memory if it is marked dirty, and gets the
new one.  The ages of the ways are a permutation in every set.

Main definitions:

* `EmCache` — the arrays; `EmCache.entryIdx`, `EmCache.maddr`, `EmCache.offset` — the parts of an
  address;
* `EmCache.access` — with `EmCache.replace`, the part at a miss, and `EmCache.touch`, the part
  behind it;
* `EmCache.phyReadm8`, …, `EmCache.phyWritem8`, …, `EmCache.flush`, `EmCache.invalidate` — the
  operations;
* `EmCache.Aged` — the ages are a permutation, and no line is in two ways;
* `EmCache.Ok` — and the lines are lines of memory.

Main results:

* `EmCache.linePaddr_add_offset`, `EmCache.sub_linePaddr_lt` — the parts of an address determine it;
* `EmCache.Aged.access_hit`, `EmCache.Aged.access_miss` — what `access` does;
* `EmCache.Aged.touch`, `EmCache.Aged.fill`, `EmCache.Ok.touch`, `EmCache.Ok.load` — it keeps the
  cache in order.
-/

import NanoCpu.EmMemory

set_option relaxedAutoImplicit false
set_option autoImplicit false

namespace NanoCpu

/-- The arrays of a cache, by way and set.  The dirty flags are kept by set and way. -/
structure EmCache (w s l : ℕ) where
  enabled : Bool
  cacheV : Fin (2 ^ w) → Fin (2 ^ s) → Bool
  cacheDirty : Fin (2 ^ s) → Fin (2 ^ w) → Bool
  cacheLru : Fin (2 ^ w) → Fin (2 ^ s) → ℕ
  cacheAddr : Fin (2 ^ w) → Fin (2 ^ s) → Word
  lines : Fin (2 ^ w) → Fin (2 ^ s) → Fin (2 ^ l) → Byte

namespace EmCache

variable {w s l : ℕ} {δ : Type}

/-! ### The parts of an address -/

/-- `entry_idx`. -/
def entryIdx (s l : ℕ) (pa : Word) : Fin (2 ^ s) :=
  ⟨(pa >>> l).toNat % 2 ^ s, Nat.mod_lt _ (Nat.two_pow_pos _)⟩

def maddr (s l : ℕ) (pa : Word) : Word := pa >>> (l + s)

/-- `pa & m_block_offset_mask`. -/
def offset (l : ℕ) (pa : Word) : Fin (2 ^ l) := ⟨pa.toNat % 2 ^ l, Nat.mod_lt _ (Nat.two_pow_pos _)⟩

/-- `line_paddr`. -/
def linePaddr (l : ℕ) (addr : Word) (e : Fin (2 ^ s)) : Word :=
  (addr <<< (l + s)) ||| (BitVec.ofNat 32 e <<< l)

/-! ### The access to a line -/

/-- An element of a table of two dimensions is changed. -/
def set2 {α β γ : Type*} [DecidableEq α] [DecidableEq β] (f : α → β → γ) (i : α) (e : β) (v : γ) :
    α → β → γ := Function.update f i (Function.update (f i) e v)

variable (c : EmCache w s l)

/-- `match[i]`. -/
def hits (pa : Word) (i : Fin (2 ^ w)) : Bool :=
  c.cacheV i (entryIdx s l pa) && decide (c.cacheAddr i (entryIdx s l pa) = maddr s l pa)

/-- `sfree[i]`. -/
def sfree (e : Fin (2 ^ s)) (i : Fin (2 ^ w)) : Bool := decide (c.cacheLru i e = 0)

/-- The last way for which the test holds. -/
def lastWay (p : Fin (2 ^ w) → Bool) : Option (Fin (2 ^ w)) :=
  ((List.finRange (2 ^ w)).filter p).getLast?

/-- `dirty`. -/
def freeDirty (e : Fin (2 ^ s)) : Bool :=
  (List.finRange (2 ^ w)).any fun i => c.sfree e i && c.cacheDirty e i

/-- The loop that writes a line to memory. -/
def writeback (m : Memory δ) (paddr : Word) (line : Fin (2 ^ l) → Byte) : Option (Memory δ) :=
  (List.finRange (2 ^ l)).foldlM
    (fun m (o : Fin (2 ^ l)) => m.phyWritem8 (paddr + BitVec.ofNat 32 o) (line o)) m

/-- The loop that reads a line from memory. -/
def refill (m : Memory δ) (paddr : Word) (line : Fin (2 ^ l) → Byte) :
    Option ((Fin (2 ^ l) → Byte) × Memory δ) :=
  (List.finRange (2 ^ l)).foldlM (fun r (o : Fin (2 ^ l)) =>
    (r.2.phyReadm8 (paddr + BitVec.ofNat 32 o)).map fun q => (Function.update r.1 o q.1, q.2))
      (line, m)

/-- The write-back of the victim `f`. -/
def writebackFree (m : Memory δ) (f : Fin (2 ^ w)) (e : Fin (2 ^ s)) : Option (Memory δ) :=
  if c.freeDirty e then writeback m (linePaddr l (c.cacheAddr f e) e) (c.lines f e) else some m

/-- The part of `access` at a miss. -/
def replace (m : Memory δ) (pa : Word) : Option (EmCache w s l × Memory δ) :=
  let e := entryIdx s l pa
  match lastWay (c.sfree e) with
  | none => none
  | some f => do
      let m ← c.writebackFree m f e
      let (line, m) ← refill m (linePaddr l (maddr s l pa) e) (c.lines f e)
      some ({ c with
        cacheV := set2 c.cacheV f e true
        cacheAddr := set2 c.cacheAddr f e (maddr s l pa)
        lines := set2 c.lines f e line }, m)

/-- `lru_thresh`. -/
def lruThresh (pa : Word) : ℕ :=
  (List.finRange (2 ^ w)).foldl (fun t i => t ||| if c.hits pa i then
    c.cacheLru i (entryIdx s l pa) else 0) 0

/-- The part of `access` behind that, which ages the ways and marks the line when it is written.
`hit` is set at a miss as well, so the branch that marks a line as clean when its way is freed is
never taken. -/
def touch (pa : Word) (store : Bool) : EmCache w s l := { c with
  cacheLru := fun i e =>
    if e = entryIdx s l pa then
      if c.hits pa i then 2 ^ w - 1
      else (c.cacheLru i e - if c.lruThresh pa < c.cacheLru i e then 1 else 0) % 2 ^ w
    else c.cacheLru i e
  cacheDirty := fun e i =>
    if e = entryIdx s l pa ∧ c.hits pa i = true then c.cacheDirty e i || store else
      c.cacheDirty e i }

/-- `access`, with the way that holds the line; none is a failed assertion or a panic. -/
def access (m : Memory δ) (pa : Word) (store : Bool) :
    Option (EmCache w s l × Memory δ × Fin (2 ^ w)) :=
  if 1 < (List.finRange (2 ^ w)).countP (c.hits pa) then none
  else do
    let (c, m) ← if (List.finRange (2 ^ w)).any (c.hits pa) then some (c, m) else c.replace m pa
    let way ← lastWay (c.hits pa)
    some (c.touch pa store, m, way)

/-! ### The operations -/

/-- The bytes of a line that a store of `n` bytes changes. -/
def putBytes (way : Fin (2 ^ w)) (addr : Word) (n : ℕ) (v : Word) : EmCache w s l :=
  { c with lines := set2 c.lines way (entryIdx s l addr) ((List.range n).foldl (fun line k =>
      Function.update line (offset l (addr + BitVec.ofNat 32 k)) ((v >>> (8 * k)).setWidth 8))
        (c.lines way (entryIdx s l addr))) }

/-- The bytes of a line that a load of `n` bytes reads. -/
def getBytes (way : Fin (2 ^ w)) (addr : Word) (n : ℕ) : Word :=
  (List.range n).foldl (fun r k => r |||
    (c.lines way (entryIdx s l addr) (offset l (addr + BitVec.ofNat 32 k))).setWidth 32 <<< (8 * k))
      0

/-- The form of the writes of `n` bytes; `direct` is the write to memory. -/
def phyWrite (n : ℕ) (direct : Memory δ → Option (Memory δ)) (m : Memory δ) (addr v : Word) :
    Option (EmCache w s l × Memory δ) :=
  if c.enabled then
    if addr.toNat % n ≠ 0 then none
    else do
      let (c, m, way) ← c.access m addr true
      some (c.putBytes way addr n v, m)
  else (direct m).map fun m => (c, m)

def phyWritem8 (m : Memory δ) (addr : Word) (v : Byte) : Option (EmCache w s l × Memory δ) :=
  c.phyWrite 1 (fun m => m.phyWritem8 addr v) m addr (v.setWidth 32)

def phyWritem16 (m : Memory δ) (addr : Word) (v : BitVec 16) : Option (EmCache w s l × Memory δ) :=
  c.phyWrite 2 (fun m => m.phyWritem16 addr v) m addr (v.setWidth 32)

def phyWritem32 (m : Memory δ) (addr : Word) (v : Word) : Option (EmCache w s l × Memory δ) :=
  c.phyWrite 4 (fun m => m.phyWritem32 addr v) m addr v

/-- The form of the reads of `n` bytes. -/
def phyRead {b : ℕ} (n : ℕ) (direct : Memory δ → Option (BitVec b × Memory δ)) (m : Memory δ)
    (addr : Word) : Option (BitVec b × EmCache w s l × Memory δ) :=
  if c.enabled then
    if addr.toNat % n ≠ 0 then none
    else do
      let (c, m, way) ← c.access m addr false
      some ((c.getBytes way addr n).setWidth b, c, m)
  else (direct m).map fun r => (r.1, c, r.2)

def phyReadm8 (m : Memory δ) (addr : Word) : Option (Byte × EmCache w s l × Memory δ) :=
  c.phyRead 1 (fun m => m.phyReadm8 addr) m addr

def phyReadm16 (m : Memory δ) (addr : Word) : Option (BitVec 16 × EmCache w s l × Memory δ) :=
  c.phyRead 2 (fun m => m.phyReadm16 addr) m addr

def phyReadm32 (m : Memory δ) (addr : Word) : Option (Word × EmCache w s l × Memory δ) :=
  c.phyRead 4 (fun m => m.phyReadm32 addr) m addr

/-- `flush`: the line goes to memory if it is marked. -/
def flush (m : Memory δ) (pa : Word) : Option (EmCache w s l × Memory δ) :=
  let e := entryIdx s l pa
  if c.enabled then
    (List.finRange (2 ^ w)).foldlM (fun r i =>
      if r.1.hits pa i && r.1.cacheDirty e i then
        (writeback r.2 (linePaddr l (r.1.cacheAddr i e) e) (r.1.lines i e)).map fun m =>
          ({ r.1 with cacheDirty := set2 r.1.cacheDirty e i false }, m)
      else some r) (c, m)
  else some (c, m)

/-- `invalidate`: the lines of the set are dropped, and their marks stay. -/
def invalidate (pa : Word) : EmCache w s l :=
  if c.enabled then { c with
    cacheV := fun i e => if e = entryIdx s l pa then false else c.cacheV i e }
  else c

/-! ### The parts of an address determine it -/

theorem entryIdx_val (pa : Word) : (entryIdx s l pa).val = pa.toNat / 2 ^ l % 2 ^ s := by
  show (pa >>> l).toNat % 2 ^ s = _
  rw [BitVec.toNat_ushiftRight, Nat.shiftRight_eq_div_pow]

theorem maddr_toNat (pa : Word) : (maddr s l pa).toNat = pa.toNat / 2 ^ (l + s) := by
  rw [maddr, BitVec.toNat_ushiftRight, Nat.shiftRight_eq_div_pow]

/-- The address is one that an access can leave in `cache_addr`. -/
def Tag (s l : ℕ) (addr : Word) : Prop := addr.toNat < 2 ^ (32 - (l + s))

theorem tag_maddr (hl : l + s < 32) (pa : Word) : Tag s l (maddr s l pa) := by
  rw [Tag, maddr_toNat]
  refine Nat.div_lt_of_lt_mul ?_
  rw [← Nat.pow_add, Nat.add_sub_cancel' (Nat.le_of_lt hl)]
  exact pa.isLt

theorem linePaddr_toNat (hl : l + s < 32) {addr : Word} (ht : Tag s l addr) (e : Fin (2 ^ s)) :
    (linePaddr l addr e).toNat = addr.toNat * 2 ^ (l + s) + e.val * 2 ^ l := by
  have h32 : 2 ^ (32 - (l + s)) * 2 ^ (l + s) = 2 ^ 32 := by
    rw [← Nat.pow_add, Nat.sub_add_cancel (Nat.le_of_lt hl)]
  have hlt : addr.toNat * 2 ^ (l + s) < 2 ^ 32 := by
    rw [← h32]
    exact Nat.mul_lt_mul_of_pos_right ht (Nat.two_pow_pos _)
  have hs : 2 ^ s ≤ 2 ^ 32 := Nat.pow_le_pow_right (by decide) (by omega)
  have he : e.val * 2 ^ l < 2 ^ (l + s) := by
    rw [Nat.add_comm, Nat.pow_add]
    exact Nat.mul_lt_mul_of_pos_right e.isLt (Nat.two_pow_pos _)
  have hls : 2 ^ (l + s) ≤ 2 ^ 32 := Nat.pow_le_pow_right (by decide) (Nat.le_of_lt hl)
  rw [linePaddr, BitVec.toNat_or, BitVec.toNat_shiftLeft, BitVec.toNat_shiftLeft,
    BitVec.toNat_ofNat, Nat.shiftLeft_eq, Nat.shiftLeft_eq, Nat.mod_eq_of_lt hlt,
    Nat.mod_eq_of_lt (Nat.lt_of_lt_of_le e.isLt hs), Nat.mod_eq_of_lt (Nat.lt_of_lt_of_le he hls),
    Nat.mul_comm, ← Nat.two_pow_add_eq_or_of_lt he]

theorem linePaddr_add_toNat (hl : l + s < 32) {addr : Word} (ht : Tag s l addr) (e : Fin (2 ^ s))
    (o : Fin (2 ^ l)) : (linePaddr l addr e + BitVec.ofNat 32 o.val).toNat =
      addr.toNat * 2 ^ (l + s) + e.val * 2 ^ l + o.val := by
  have h32 : 2 ^ (32 - (l + s)) * 2 ^ (l + s) = 2 ^ 32 := by
    rw [← Nat.pow_add, Nat.sub_add_cancel (Nat.le_of_lt hl)]
  have ho : o.val < 2 ^ 32 :=
    Nat.lt_of_lt_of_le o.isLt (Nat.pow_le_pow_right (by decide) (by omega))
  have he : e.val * 2 ^ l + o.val < 2 ^ (l + s) := by
    calc e.val * 2 ^ l + o.val < e.val * 2 ^ l + 2 ^ l := Nat.add_lt_add_left o.isLt _
      _ = (e.val + 1) * 2 ^ l := (Nat.succ_mul _ _).symm
      _ ≤ 2 ^ s * 2 ^ l := Nat.mul_le_mul_right _ e.isLt
      _ = 2 ^ (l + s) := by rw [← Nat.pow_add, Nat.add_comm]
  have hlt : addr.toNat * 2 ^ (l + s) + 2 ^ (l + s) ≤ 2 ^ 32 := by
    rw [← Nat.succ_mul, ← h32]
    exact Nat.mul_le_mul_right _ ht
  rw [BitVec.toNat_add, linePaddr_toNat hl ht, BitVec.toNat_ofNat, Nat.mod_eq_of_lt ho]
  exact Nat.mod_eq_of_lt (by omega)

theorem div_add_lt (a b k : ℕ) (hb : b < 2 ^ k) : (a * 2 ^ k + b) / 2 ^ k = a := by
  rw [Nat.mul_comm, Nat.mul_add_div (Nat.two_pow_pos k), Nat.div_eq_of_lt hb, Nat.add_zero]

/-- An address is made of its parts. -/
theorem linePaddr_add_offset (hl : l + s < 32) (b : Word) :
    linePaddr l (maddr s l b) (entryIdx s l b) + BitVec.ofNat 32 (offset l b).val = b := by
  apply BitVec.eq_of_toNat_eq
  rw [linePaddr_add_toNat hl (tag_maddr hl b), maddr_toNat, entryIdx_val, Nat.pow_add,
    ← Nat.div_div_eq_div_mul, show (offset l b).val = b.toNat % 2 ^ l from rfl]
  have h₁ := Nat.div_add_mod b.toNat (2 ^ l)
  have h₂ := Nat.div_add_mod (b.toNat / 2 ^ l) (2 ^ s)
  calc b.toNat / 2 ^ l / 2 ^ s * (2 ^ l * 2 ^ s) + b.toNat / 2 ^ l % 2 ^ s * 2 ^ l + b.toNat % 2 ^ l
      = 2 ^ l * (2 ^ s * (b.toNat / 2 ^ l / 2 ^ s) + b.toNat / 2 ^ l % 2 ^ s) + b.toNat %
        2 ^ l := by
        ring
    _ = b.toNat := by rw [h₂, h₁]

/-- The parts of an address of a line. -/
theorem parts_linePaddr_add (hl : l + s < 32) {addr : Word} (ht : Tag s l addr) (e : Fin (2 ^ s))
    (o : Fin (2 ^ l)) : maddr s l (linePaddr l addr e + BitVec.ofNat 32 o.val) = addr ∧
      entryIdx s l (linePaddr l addr e + BitVec.ofNat 32 o.val) = e ∧
      offset l (linePaddr l addr e + BitVec.ofNat 32 o.val) = o := by
  have hn := linePaddr_add_toNat hl ht e o
  have hd : (linePaddr l addr e + BitVec.ofNat 32 o.val).toNat / 2 ^ l =
      addr.toNat * 2 ^ s + e.val := by
    rw [hn, show addr.toNat * 2 ^ (l + s) + e.val * 2 ^ l = (addr.toNat * 2 ^ s + e.val) * 2 ^ l by
      rw [Nat.pow_add]; ring, div_add_lt _ _ _ o.isLt]
  refine ⟨BitVec.eq_of_toNat_eq ?_, Fin.ext ?_, Fin.ext ?_⟩
  · rw [maddr_toNat, Nat.pow_add, ← Nat.div_div_eq_div_mul, hd, div_add_lt _ _ _ e.isLt]
  · rw [entryIdx_val, hd, Nat.mul_comm, Nat.mul_add_mod, Nat.mod_eq_of_lt e.isLt]
  · show (linePaddr l addr e + BitVec.ofNat 32 o.val).toNat % 2 ^ l = o.val
    rw [hn, show addr.toNat * 2 ^ (l + s) + e.val * 2 ^ l = 2 ^ l * (addr.toNat * 2 ^ s + e.val) by
      rw [Nat.pow_add]; ring, Nat.mul_add_mod, Nat.mod_eq_of_lt o.isLt]

theorem linePaddr_add_inj (hl : l + s < 32) {addr : Word} (ht : Tag s l addr) (e : Fin (2 ^ s))
    {o o' : Fin (2 ^ l)} (h : linePaddr l addr e + BitVec.ofNat 32 o.val =
      linePaddr l addr e + BitVec.ofNat 32 o'.val) : o = o' := by
  rw [← (parts_linePaddr_add hl ht e o).2.2, h, (parts_linePaddr_add hl ht e o').2.2]

/-! ### Whole lines -/

/-- The bytes of a line are memory bytes. -/
def LineRam (m : Memory δ) (addr : Word) (e : Fin (2 ^ s)) : Prop :=
  ∀ o : Fin (2 ^ l), m.ram (linePaddr l addr e + BitVec.ofNat 32 o.val) = true

/-- What it means to write a line to memory. -/
structure Written (m m' : Memory δ) (addr : Word) (e : Fin (2 ^ s)) (line : Fin (2 ^ l) → Byte) :
    Prop where
  ram : ∀ b, m'.ram b = m.ram b
  inside : ∀ b, maddr s l b = addr → entryIdx s l b = e → m'.byteAt b = line (offset l b)
  outside : ∀ b, ¬ (maddr s l b = addr ∧ entryIdx s l b = e) → m'.byteAt b = m.byteAt b

theorem writeback_bytes {paddr : Word} (line : Fin (2 ^ l) → Byte)
    (hinj : ∀ o o' : Fin (2 ^ l), paddr + BitVec.ofNat 32 o.val =
      paddr + BitVec.ofNat 32 o'.val → o = o')
    {L : List (Fin (2 ^ l))} (hL : L.Nodup) {m : Memory δ}
    (hm : ∀ o ∈ L, m.ram (paddr + BitVec.ofNat 32 o.val) = true) :
    ∃ m', L.foldlM (fun m (o : Fin (2 ^ l)) => m.phyWritem8 (paddr + BitVec.ofNat 32 o) (line o))
      m = some m' ∧
      (∀ b, m'.ram b = m.ram b) ∧ (∀ o ∈ L, m'.byteAt (paddr + BitVec.ofNat 32 o.val) = line o) ∧
      ∀ b, (∀ o ∈ L, b ≠ paddr + BitVec.ofNat 32 o.val) → m'.byteAt b = m.byteAt b := by
  induction L generalizing m with
  | nil => exact ⟨m, rfl, fun _ => rfl, fun o ho => by simp at ho, fun _ _ => rfl⟩
  | cons o L ih =>
      obtain ⟨hoL, hL⟩ := List.nodup_cons.1 hL
      obtain ⟨m', hm', hram, hin, hout⟩ :=
        ih (m := m.setByte (paddr + BitVec.ofNat 32 o.val) (line o)) hL
        fun o' ho' => hm o' (List.mem_cons_of_mem _ ho')
      refine ⟨m', ?_, hram, ?_, ?_⟩
      · rw [List.foldlM_cons, m.phyWritem8_ram _ (hm o List.mem_cons_self)]
        exact hm'
      · intro o' ho'
        rcases List.mem_cons.1 ho' with rfl | ho'
        · rw [hout _ fun o'' ho'' he => hoL (by rwa [hinj _ _ he]), Memory.byteAt_setByte,
            if_pos rfl]
        · exact hin o' ho'
      · intro b hb
        rw [hout b fun o' ho' => hb o' (List.mem_cons_of_mem _ ho'), Memory.byteAt_setByte,
          if_neg (hb o List.mem_cons_self)]

/-- A line is written to memory. -/
theorem writeback_eq (hl : l + s < 32) {m : Memory δ} {addr : Word} (ht : Tag s l addr)
    {e : Fin (2 ^ s)} (hm : LineRam (l := l) m addr e) (line : Fin (2 ^ l) → Byte) :
    ∃ m', writeback m (linePaddr l addr e) line = some m' ∧ Written m m' addr e line := by
  obtain ⟨m', h, hram, hin, hout⟩ := writeback_bytes line
    (fun o o' => linePaddr_add_inj hl ht e) (List.nodup_finRange _) fun o _ => hm o
  refine ⟨m', h, hram, ?_, ?_⟩
  · rintro b rfl rfl
    have := hin (offset l b) (List.mem_finRange _)
    rwa [linePaddr_add_offset hl] at this
  · intro b hb
    refine hout b fun o _ ho => hb ?_
    rw [ho]
    exact ⟨(parts_linePaddr_add hl ht e o).1, (parts_linePaddr_add hl ht e o).2.1⟩

/-- A line that memory holds already. -/
theorem writeback_same {m : Memory δ} {paddr : Word} {line : Fin (2 ^ l) → Byte}
    (hm : ∀ o : Fin (2 ^ l), m.ram (paddr + BitVec.ofNat 32 o.val) = true)
    (hline : ∀ o : Fin (2 ^ l), line o = m.byteAt (paddr + BitVec.ofNat 32 o.val)) :
    writeback m paddr line = some m := by
  have h : ∀ L : List (Fin (2 ^ l)),
      L.foldlM (fun m (o : Fin (2 ^ l)) => m.phyWritem8 (paddr + BitVec.ofNat 32 o) (line o)) m =
        some m := by
    intro L
    induction L with
    | nil => rfl
    | cons o L ih =>
        have hs : m.setByte (paddr + BitVec.ofNat 32 o.val) (line o) = m := by
          rw [hline o, Memory.setByte, Memory.byteAt, Function.update_eq_self]
        rw [List.foldlM_cons, m.phyWritem8_ram _ (hm o), hs]
        exact ih
  exact h _

/-- A line is read from memory. -/
theorem refill_eq {m : Memory δ} {paddr : Word}
    (hm : ∀ o : Fin (2 ^ l), m.ram (paddr + BitVec.ofNat 32 o.val) = true)
    (line : Fin (2 ^ l) → Byte) :
    refill m paddr line = some (fun o => m.byteAt (paddr + BitVec.ofNat 32 o.val), m) := by
  have h : ∀ (L : List (Fin (2 ^ l))) (line : Fin (2 ^ l) → Byte),
      L.foldlM (fun (r : (Fin (2 ^ l) → Byte) × Memory δ) (o : Fin (2 ^ l)) =>
        (r.2.phyReadm8 (paddr + BitVec.ofNat 32 o)).map fun q => (Function.update r.1 o q.1, q.2))
          (line, m) =
      some (fun o => if o ∈ L then m.byteAt (paddr + BitVec.ofNat 32 o.val) else line o, m) := by
    intro L
    induction L with
    | nil => intro line; rfl
    | cons o L ih =>
        intro line
        rw [List.foldlM_cons]
        simp only [m.phyReadm8_ram (hm o), Option.map_some]
        refine (ih _).trans ?_
        congr 2
        funext o'
        by_cases ho : o' ∈ L
        · simp [ho]
        · by_cases he : o' = o
          · simp [he]
          · simp [he, ho]
  rw [refill, h]
  simp

/-! ### A cache in order -/

/-- The ages of the ways are a permutation in every set, and no line is in two ways. -/
structure Aged (c : EmCache w s l) : Prop where
  lru_lt : ∀ i e, c.cacheLru i e < 2 ^ w
  lru_inj : ∀ e i j, c.cacheLru i e = c.cacheLru j e → i = j
  uniq : ∀ e i j, c.cacheV i e = true → c.cacheV j e = true → c.cacheAddr i e =
    c.cacheAddr j e → i = j

/-- The ages of the ways are a permutation in every set, no line is in two ways, and the lines that
are valid or marked are lines of memory. -/
structure Ok (c : EmCache w s l) (m : Memory δ) : Prop where
  lru_lt : ∀ i e, c.cacheLru i e < 2 ^ w
  lru_inj : ∀ e i j, c.cacheLru i e = c.cacheLru j e → i = j
  uniq : ∀ e i j, c.cacheV i e = true → c.cacheV j e = true → c.cacheAddr i e =
    c.cacheAddr j e → i = j
  tag : ∀ i e, c.cacheV i e = true ∨ c.cacheDirty e i = true → Tag s l (c.cacheAddr i e)
  ram : ∀ i e, c.cacheV i e = true ∨ c.cacheDirty e i = true →
    LineRam (l := l) m (c.cacheAddr i e) e

variable {c : EmCache w s l} {m : Memory δ} {pa : Word} {i : Fin (2 ^ w)}

theorem Ok.aged (h : Ok c m) : Aged c := ⟨h.lru_lt, h.lru_inj, h.uniq⟩

theorem lastWay_eq {p : Fin (2 ^ w) → Bool} (hi : p i = true) (hu : ∀ j, p j = true → j = i) :
    lastWay p = some i := by
  have hne : (List.finRange (2 ^ w)).filter p ≠ [] :=
    List.ne_nil_of_mem (List.mem_filter.2 ⟨List.mem_finRange i, hi⟩)
  have hlast := List.getLast_mem hne
  rw [lastWay, List.getLast?_eq_some_getLast hne, hu _ (List.mem_filter.1 hlast).2]

/-- In every set one way has age zero. -/
theorem Aged.free (h : Aged c) (e : Fin (2 ^ s)) : ∃ f, c.cacheLru f e = 0 ∧
    lastWay (c.sfree e) = some f ∧ c.freeDirty e = c.cacheDirty e f := by
  let age : Fin (2 ^ w) → Fin (2 ^ w) := fun i => ⟨c.cacheLru i e, h.lru_lt i e⟩
  have hinj : Function.Injective age := fun i j hij => h.lru_inj e i j (congrArg Fin.val hij)
  obtain ⟨f, hf⟩ := (Finite.injective_iff_surjective.1 hinj) ⟨0, Nat.two_pow_pos w⟩
  have hf0 : c.cacheLru f e = 0 := congrArg Fin.val hf
  have hu : ∀ j, c.sfree e j = true → j = f := by
    intro j hj
    exact h.lru_inj e j f (by rw [of_decide_eq_true hj, hf0])
  have hff : c.sfree e f = true := decide_eq_true hf0
  refine ⟨f, hf0, lastWay_eq hff hu, ?_⟩
  rw [freeDirty, Bool.eq_iff_iff, List.any_eq_true]
  constructor
  · rintro ⟨j, -, hj⟩
    rw [Bool.and_eq_true] at hj
    rw [← hu j hj.1]
    exact hj.2
  · intro hd
    exact ⟨f, List.mem_finRange f, by rw [hff, hd]; rfl⟩

/-- A line is in one way at most. -/
theorem Aged.hits_uniq (h : Aged c) {j : Fin (2 ^ w)} (hi : c.hits pa i = true)
    (hj : c.hits pa j = true) : j = i := by
  simp only [hits, Bool.and_eq_true, decide_eq_true_eq] at hi hj
  exact h.uniq _ j i hj.1 hi.1 (hj.2.trans hi.2.symm)

theorem countP_hits_le (hu : ∀ i j, c.hits pa i = true → c.hits pa j = true → i = j) :
    ¬ 1 < (List.finRange (2 ^ w)).countP (c.hits pa) := by
  rw [List.countP_eq_length_filter, Nat.not_lt]
  have hn : ((List.finRange (2 ^ w)).filter (c.hits pa)).Nodup := (List.nodup_finRange _).filter _
  match hf : (List.finRange (2 ^ w)).filter (c.hits pa), hn with
  | [], _ => simp
  | [_], _ => simp
  | a :: b :: L, hn =>
      have ha : a ∈ (List.finRange (2 ^ w)).filter (c.hits pa) := by rw [hf]; simp
      have hb : b ∈ (List.finRange (2 ^ w)).filter (c.hits pa) := by rw [hf]; simp
      have hab := hu a b (List.mem_filter.1 ha).2 (List.mem_filter.1 hb).2
      simp [hab] at hn

/-- A way gets a line for an address. -/
def fill (c : EmCache w s l) (f : Fin (2 ^ w)) (pa : Word) (line : Fin (2 ^ l) → Byte) :
    EmCache w s l :=
  { c with
    cacheV := set2 c.cacheV f (entryIdx s l pa) true
    cacheAddr := set2 c.cacheAddr f (entryIdx s l pa) (maddr s l pa)
    lines := set2 c.lines f (entryIdx s l pa) line }

/-- A way gets the line of an address. -/
def load (c : EmCache w s l) (f : Fin (2 ^ w)) (pa : Word) (m : Memory δ) :
    EmCache w s l := { c with
  cacheV := set2 c.cacheV f (entryIdx s l pa) true
  cacheAddr := set2 c.cacheAddr f (entryIdx s l pa) (maddr s l pa)
  lines := set2 c.lines f (entryIdx s l pa) fun o =>
    m.byteAt (linePaddr l (maddr s l pa) (entryIdx s l pa) + BitVec.ofNat 32 o.val) }

theorem set2_apply {α β γ : Type*} [DecidableEq α] [DecidableEq β] (f : α → β → γ)
    (i j : α) (e d : β) (v : γ) : set2 f i e v j d = if j = i ∧ d = e then v else f j d := by
  unfold set2
  by_cases hj : j = i
  · subst hj
    by_cases hd : d = e
    · subst hd
      simp
    · simp [hd]
  · simp [hj]

theorem hits_fill {f : Fin (2 ^ w)} (line : Fin (2 ^ l) → Byte) (b : Word) :
    (c.fill f pa line).hits b i =
    if i = f ∧ entryIdx s l b = entryIdx s l pa then decide (maddr s l b = maddr s l pa) else
      c.hits b i := by
  simp only [hits, fill, set2_apply]
  split
  · simp [eq_comm]
  · rfl

theorem hits_load {f : Fin (2 ^ w)} (b : Word) : (c.load f pa m).hits b i =
    if i = f ∧ entryIdx s l b = entryIdx s l pa then decide (maddr s l b = maddr s l pa) else
      c.hits b i :=
  hits_fill _ b

@[simp] theorem touch_v (st : Bool) : (c.touch pa st).cacheV = c.cacheV := rfl

@[simp] theorem touch_addr (st : Bool) : (c.touch pa st).cacheAddr = c.cacheAddr := rfl

@[simp] theorem touch_lines (st : Bool) : (c.touch pa st).lines = c.lines := rfl

@[simp] theorem touch_enabled (st : Bool) : (c.touch pa st).enabled = c.enabled := rfl

@[simp] theorem hits_touch (st : Bool) (b : Word) : (c.touch pa st).hits b i = c.hits b i := rfl

/-- The line is in the cache. -/
theorem Aged.access_hit (h : Aged c) (hi : c.hits pa i = true) (m : Memory δ) (st : Bool) :
    c.access m pa st = some (c.touch pa st, m, i) := by
  have hu : ∀ i j, c.hits pa i = true → c.hits pa j = true → i = j :=
    fun i j h₁ h₂ => h.hits_uniq h₂ h₁
  have hany : (List.finRange (2 ^ w)).any (c.hits pa) = true :=
    List.any_eq_true.2 ⟨i, List.mem_finRange i, hi⟩
  rw [access, if_neg (countP_hits_le hu), hany]
  show (lastWay (c.hits pa)).bind (fun way => some (c.touch pa st, m, way)) = _
  rw [lastWay_eq hi fun j hj => h.hits_uniq hi hj]
  rfl

theorem access_hit (h : Ok c m) (hi : c.hits pa i = true) (st : Bool) :
    c.access m pa st = some (c.touch pa st, m, i) := h.aged.access_hit hi m st

/-- The victim of a miss goes to memory if it is marked. -/
def evicted (c : EmCache w s l) (m : Memory δ) (f : Fin (2 ^ w)) (e : Fin (2 ^ s)) :
    Option (Memory δ) :=
  if c.cacheDirty e f then writeback m (linePaddr l (c.cacheAddr f e) e) (c.lines f e) else some m

/-- The memory behind the eviction. -/
theorem Ok.evicted (hl : l + s < 32) (h : Ok c m) (f : Fin (2 ^ w)) (e : Fin (2 ^ s)) :
    ∃ m', c.evicted m f e = some m' ∧ (∀ b, m'.ram b = m.ram b) ∧
      (c.cacheDirty e f = false → m' = m) ∧
      (c.cacheDirty e f = true → Written m m' (c.cacheAddr f e) e (c.lines f e)) := by
  unfold EmCache.evicted
  cases hd : c.cacheDirty e f with
  | false => exact ⟨m, rfl, fun _ => rfl, fun _ => rfl, nofun⟩
  | true =>
      obtain ⟨m', hm, hw⟩ := writeback_eq hl (h.tag f e (Or.inr hd)) (h.ram f e (Or.inr hd))
        (c.lines f e)
      exact ⟨m', hm, hw.ram, nofun, fun _ => hw⟩

/-- At a miss the way of age zero gives up its line, unless the program ends in the memory. -/
theorem Aged.replace_eq (h : Aged c) (m : Memory δ) (pa : Word) :
    ∃ f, c.cacheLru f (entryIdx s l pa) = 0 ∧
      c.replace m pa = (c.evicted m f (entryIdx s l pa)).bind fun m =>
        (refill m (linePaddr l (maddr s l pa) (entryIdx s l pa)) (c.lines f (entryIdx s l pa))).map
          fun r => (c.fill f pa r.1, r.2) := by
  obtain ⟨f, hf0, hlast, hdirty⟩ := h.free (entryIdx s l pa)
  have he : c.writebackFree m f (entryIdx s l pa) = c.evicted m f (entryIdx s l pa) := by
    rw [writebackFree, hdirty]
    rfl
  refine ⟨f, hf0, ?_⟩
  simp only [replace, hlast, he, Option.bind_eq_bind]
  refine congrArg _ (funext fun m' => ?_)
  cases refill m' (linePaddr l (maddr s l pa) (entryIdx s l pa)) (c.lines f (entryIdx s l pa)) <;>
    rfl

/-- The line is not in the cache. -/
theorem Aged.access_miss (h : Aged c) (hn : ∀ i, c.hits pa i = false) (m : Memory δ) (st : Bool) :
    ∃ f, c.cacheLru f (entryIdx s l pa) = 0 ∧
      c.access m pa st = (c.evicted m f (entryIdx s l pa)).bind fun m =>
        (refill m (linePaddr l (maddr s l pa) (entryIdx s l pa)) (c.lines f (entryIdx s l pa))).map
          fun r => ((c.fill f pa r.1).touch pa st, r.2, f) := by
  obtain ⟨f, hf0, hrep⟩ := h.replace_eq m pa
  have hany : (List.finRange (2 ^ w)).any (c.hits pa) = false := by
    rw [Bool.eq_false_iff]
    intro hc
    obtain ⟨i, -, hi⟩ := List.any_eq_true.1 hc
    rw [hn i] at hi
    cases hi
  have hway : ∀ line, lastWay ((c.fill f pa line).hits pa) = some f := by
    intro line
    refine lastWay_eq (by rw [hits_fill]; simp) fun j hj => ?_
    rw [hits_fill] at hj
    by_contra hne
    rw [if_neg fun hc => hne hc.1, hn j] at hj
    cases hj
  refine ⟨f, hf0, ?_⟩
  rw [access, if_neg (countP_hits_le fun i j hi => by rw [hn i] at hi; cases hi), hany]
  simp only [Bool.false_eq_true, if_false, hrep]
  cases c.evicted m f (entryIdx s l pa) with
  | none => rfl
  | some m' =>
      cases hr : refill m' (linePaddr l (maddr s l pa) (entryIdx s l pa))
        (c.lines f (entryIdx s l pa)) with
      | none => simp [hr]
      | some r => simp [hr, hway]

/-- What an access that does not end the program has done. -/
theorem Aged.access_cases (h : Aged c) {st : Bool} {c' : EmCache w s l} {m' : Memory δ}
    (ha : c.access m pa st = some (c', m', i)) :
    (c.hits pa i = true ∧ c' = c.touch pa st ∧ m' = m) ∨
    ((∀ j, c.hits pa j = false) ∧ c.cacheLru i (entryIdx s l pa) = 0 ∧ ∃ m₁ line,
      c.evicted m i (entryIdx s l pa) = some m₁ ∧
      refill m₁ (linePaddr l (maddr s l pa) (entryIdx s l pa)) (c.lines i (entryIdx s l pa)) =
        some (line, m') ∧
      c' = (c.fill i pa line).touch pa st) := by
  by_cases hhit : ∃ j, c.hits pa j = true
  · obtain ⟨j, hj⟩ := hhit
    rw [h.access_hit hj m st] at ha
    cases ha
    exact Or.inl ⟨hj, rfl, rfl⟩
  · have hn : ∀ j, c.hits pa j = false := fun j => by
      rw [Bool.eq_false_iff]
      exact fun hj => hhit ⟨j, hj⟩
    obtain ⟨f, hf, hacc⟩ := h.access_miss hn m st
    rw [hacc, Option.bind_eq_some_iff] at ha
    obtain ⟨m₁, hm₁, ha⟩ := ha
    obtain ⟨⟨line, m₂⟩, hline, heq⟩ := Option.map_eq_some_iff.1 ha
    cases heq
    exact Or.inr ⟨hn, hf, m₁, line, hm₁, hline, rfl⟩

/-- The line is not in the cache, and it is one of memory. -/
theorem access_miss (hl : l + s < 32) (h : Ok c m) (hn : ∀ i, c.hits pa i = false)
    (hr : LineRam (l := l) m (maddr s l pa) (entryIdx s l pa)) (st : Bool) :
    ∃ f m', c.cacheLru f (entryIdx s l pa) = 0 ∧ c.evicted m f (entryIdx s l pa) = some m' ∧
      c.access m pa st = some ((c.load f pa m').touch pa st, m', f) := by
  obtain ⟨f, hf0, hacc⟩ := h.aged.access_miss hn m st
  obtain ⟨m', hm', hram, -, -⟩ := h.evicted hl f (entryIdx s l pa)
  have hf := refill_eq (fun o => (hram _).trans (hr o)) (c.lines f (entryIdx s l pa))
  refine ⟨f, m', hf0, hm', ?_⟩
  rw [hacc, hm', Option.bind_some, hf]
  rfl

theorem foldl_or_zero {α : Type*} {g : α → ℕ} {L : List α} (hg : ∀ j ∈ L, g j = 0) (t : ℕ) :
    L.foldl (fun t j => t ||| g j) t = t := by
  induction L generalizing t with
  | nil => rfl
  | cons j L ih =>
      rw [List.foldl_cons, hg j List.mem_cons_self, Nat.or_zero]
      exact ih (fun k hk => hg k (List.mem_cons_of_mem _ hk)) t

/-- Of a list of numbers that are zero but for one, the disjunction is that one. -/
theorem foldl_or_single {α : Type*} {g : α → ℕ} {L : List α} {a : α} (ha : a ∈ L) (hL : L.Nodup)
    (hg : ∀ j ∈ L, j ≠ a → g j = 0) : L.foldl (fun t j => t ||| g j) 0 = g a := by
  induction L with
  | nil => simp at ha
  | cons j L ih =>
      obtain ⟨hjL, hL⟩ := List.nodup_cons.1 hL
      rcases List.mem_cons.1 ha with rfl | ha
      · rw [List.foldl_cons, Nat.zero_or]
        exact foldl_or_zero (fun k hk => hg k (List.mem_cons_of_mem _ hk) fun e => hjL (e ▸ hk)) _
      · have hj : g j = 0 := hg j List.mem_cons_self fun e => hjL (e ▸ ha)
        rw [List.foldl_cons, hj, Nat.or_zero]
        exact ih ha hL fun k hk => hg k (List.mem_cons_of_mem _ hk)

/-- The threshold is the age of the way that holds the line. -/
theorem Aged.lruThresh_eq (h : Aged c) (hi : c.hits pa i = true) :
    c.lruThresh pa = c.cacheLru i (entryIdx s l pa) := by
  unfold lruThresh
  rw [foldl_or_single (g := fun i => if c.hits pa i then c.cacheLru i (entryIdx s l pa) else 0)
    (List.mem_finRange i) (List.nodup_finRange _) fun j _ hj => if_neg fun hc =>
      hj (h.hits_uniq hi hc)]
  rw [if_pos hi]

/-- The way that holds the line becomes the youngest; those that were younger age by one. -/
theorem Aged.touch_lru (h : Aged c) (hi : c.hits pa i = true) (st : Bool) (j : Fin (2 ^ w))
    (e : Fin (2 ^ s)) : (c.touch pa st).cacheLru j e =
      if e = entryIdx s l pa then
        if j = i then 2 ^ w - 1
        else c.cacheLru j e - if c.cacheLru i e < c.cacheLru j e then 1 else 0
      else c.cacheLru j e := by
  by_cases he : e = entryIdx s l pa
  · subst he
    simp only [EmCache.touch, if_true, h.lruThresh_eq hi]
    by_cases hj : j = i
    · rw [if_pos (by rw [hj]; exact hi), if_pos hj]
    · rw [if_neg fun hc => hj (h.hits_uniq hi hc), if_neg hj]
      exact Nat.mod_eq_of_lt (Nat.lt_of_le_of_lt (Nat.sub_le _ _) (h.lru_lt j _))
  · rw [if_neg he]
    exact if_neg he

/-- The ages are a permutation again. -/
theorem Aged.touch (h : Aged c) (hi : c.hits pa i = true) (st : Bool) : Aged (c.touch pa st) := by
  have hpos : 0 < 2 ^ w := Nat.two_pow_pos w
  refine ⟨fun j e => ?_, fun e j k hjk => ?_, h.uniq⟩
  · have := h.lru_lt j e
    rw [h.touch_lru hi]
    split_ifs <;> omega
  · rw [h.touch_lru hi, h.touch_lru hi] at hjk
    by_cases he : e = entryIdx s l pa
    · rw [if_pos he, if_pos he] at hjk
      have hj := h.lru_lt j e
      have hk := h.lru_lt k e
      have hil := h.lru_lt i e
      have hji : j ≠ i → c.cacheLru j e ≠ c.cacheLru i e := fun hne heq => hne (h.lru_inj _ j i heq)
      have hki : k ≠ i → c.cacheLru k e ≠ c.cacheLru i e := fun hne heq => hne (h.lru_inj _ k i heq)
      by_cases h₁ : j = i
      · by_cases h₂ : k = i
        · rw [h₁, h₂]
        · have := hki h₂
          rw [if_pos h₁, if_neg h₂] at hjk
          split at hjk <;> omega
      · by_cases h₂ : k = i
        · have := hji h₁
          rw [if_neg h₁, if_pos h₂] at hjk
          split at hjk <;> omega
        · have := hji h₁
          have := hki h₂
          rw [if_neg h₁, if_neg h₂] at hjk
          refine h.lru_inj e j k ?_
          split at hjk <;> split at hjk <;> omega
    · rw [if_neg he, if_neg he] at hjk
      exact h.lru_inj e j k hjk

theorem Ok.touch (h : Ok c m) (hi : c.hits pa i = true) (st : Bool) : Ok (c.touch pa st) m := by
  have hvd : ∀ j e, (c.touch pa st).cacheV j e = true ∨ (c.touch pa st).cacheDirty e j = true →
      c.cacheV j e = true ∨ c.cacheDirty e j = true := by
    rintro j e (hv | hd)
    · exact Or.inl hv
    · simp only [EmCache.touch] at hd
      split at hd
      · rename_i hc
        simp only [hits, Bool.and_eq_true] at hc
        exact Or.inl (hc.1 ▸ hc.2.1)
      · exact Or.inr hd
  have ha := h.aged.touch hi st
  exact ⟨ha.lru_lt, ha.lru_inj, ha.uniq, fun j e hj => h.tag j e (hvd j e hj),
    fun j e hj => h.ram j e (hvd j e hj)⟩

/-- Only the range of the memory matters. -/
theorem Ok.congr {m' : Memory δ} (h : Ok c m) (hr : ∀ b, m'.ram b = m.ram b) : Ok c m' :=
  ⟨h.lru_lt, h.lru_inj, h.uniq, h.tag, fun i e hi o => (hr _).trans (h.ram i e hi o)⟩

/-- A way gets a line that no way holds. -/
theorem Aged.fill (h : Aged c) (hn : ∀ i, c.hits pa i = false) (f : Fin (2 ^ w))
    (line : Fin (2 ^ l) → Byte) : Aged (c.fill f pa line) := by
  have hother : ∀ j, c.cacheV j (entryIdx s l pa) = true →
      c.cacheAddr j (entryIdx s l pa) ≠ maddr s l pa := by
    intro j hv ha
    have := hn j
    simp [hits, hv, ha] at this
  refine ⟨h.lru_lt, h.lru_inj, fun e i j hi hj hij => ?_⟩
  simp only [EmCache.fill, set2_apply] at hi hj hij
  by_cases h₁ : i = f ∧ e = entryIdx s l pa
  · by_cases h₂ : j = f ∧ e = entryIdx s l pa
    · rw [h₁.1, h₂.1]
    · rw [if_neg h₂] at hj hij
      rw [if_pos h₁, h₁.2] at hij
      rw [h₁.2] at hj
      exact absurd hij.symm (hother j hj)
  · by_cases h₂ : j = f ∧ e = entryIdx s l pa
    · rw [if_neg h₁] at hi hij
      rw [if_pos h₂, h₂.2] at hij
      rw [h₂.2] at hi
      exact absurd hij (hother i hi)
    · rw [if_neg h₁] at hi hij
      rw [if_neg h₂] at hj hij
      exact h.uniq e i j hi hj hij

theorem Ok.load (hl : l + s < 32) (h : Ok c m) (hn : ∀ i, c.hits pa i = false)
    (hr : LineRam (l := l) m (maddr s l pa) (entryIdx s l pa)) (f : Fin (2 ^ w)) {m' : Memory δ} :
    Ok (c.load f pa m') m := by
  have ha : Aged (c.load f pa m') := h.aged.fill hn f _
  refine ⟨ha.lru_lt, ha.lru_inj, ha.uniq, ?_, ?_⟩
  · intro i e hi
    simp only [EmCache.load, set2_apply] at hi ⊢
    by_cases h₁ : i = f ∧ e = entryIdx s l pa
    · rw [if_pos h₁]
      exact tag_maddr hl pa
    · rw [if_neg h₁] at hi ⊢
      exact h.tag i e hi
  · intro i e hi
    simp only [EmCache.load, set2_apply] at hi ⊢
    by_cases h₁ : i = f ∧ e = entryIdx s l pa
    · rw [if_pos h₁, h₁.2]
      exact hr
    · rw [if_neg h₁] at hi ⊢
      exact h.ram i e hi

end EmCache

end NanoCpu
