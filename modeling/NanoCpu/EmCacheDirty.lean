/-
**The dirty flags of the caches of the emulator** (`em/csrc/cache.cc`).

The flag of a way should say whether the line in it was written since it was refilled or flushed.  A
miss sets `hit` as soon as it has its line, so the branch behind it that marks a freed way as clean
is dead: a line that is loaded by a read into the way of a dirty one starts with the flag of its
predecessor.  That is the only way in which the flags go wrong.

The cache runs beside memory, and uncached stores go to the memory directly.

Main definitions:

* `CpuOp`, `EmCache.cpuStep` — accesses through the cache and uncached stores;
* `EmCache.Marks` — which lines were written, and how many victims were marked and were written;
* `EmCache.Exact` — the flags are the lines that were written, and the two counts agree;
* `EmCache.CleanVictim` — a read does not miss over a marked line.

Main results:

* `EmCache.step_exact` — one operation keeps the flags exact exactly if its victim is clean;
* `EmCache.unwritten_kept` — in an exact state no operation of the cache changes the memory under a
  line that was not written;
* `EmCache.dirty_iff` — **the flags are exact all along a run, the write-backs are those of written
  lines and uncached stores survive, exactly if no read of it misses over a marked line**.
-/

import NanoCpu.EmCacheLru

set_option relaxedAutoImplicit false
set_option autoImplicit false

namespace NanoCpu

/-! ### Operations of a processor -/

/-- An operation that goes through the cache, or a store that does not. -/
inductive CpuOp
  | cached (op : CacheOp)
  | uncached (n : AccessWidth) (addr v : Word)
  deriving DecidableEq

/-- There are reads, writes and flushes, and no invalidations. -/
def CpuOp.Keeps : CpuOp → Prop
  | .cached op => op.Keeps
  | .uncached _ _ _ => True

namespace Memory

variable {δ : Type} {m m' : Memory δ} {addr b : Word}

/-- A store that goes to the memory directly. -/
def store (m : Memory δ) : AccessWidth → Word → Word → Option (Memory δ)
  | .w8, addr, v => m.phyWritem8 addr (v.setWidth 8)
  | .w16, addr, v => m.phyWritem16 addr (v.setWidth 16)
  | .w32, addr, v => m.phyWritem32 addr v

theorem byteAt_phyReadm8 {r : Byte × Memory δ} (h : m.phyReadm8 addr = some r) :
    r.2.byteAt b = m.byteAt b := by
  unfold phyReadm8 at h
  split at h
  · obtain ⟨q, hq, rfl⟩ := Option.map_eq_some_iff.1 h
    obtain ⟨x, -, rfl⟩ := Option.map_eq_some_iff.1 hq
    rfl
  · split at h
    · obtain rfl := Option.some.inj h
      rfl
    · cases h

theorem byteAt_phyWritem8 {v : Byte} (h : m.phyWritem8 addr v = some m') (hb : b ≠ addr) :
    m'.byteAt b = m.byteAt b := by
  unfold phyWritem8 at h
  split at h
  · obtain ⟨x, -, rfl⟩ := Option.map_eq_some_iff.1 h
    rfl
  · split at h
    · obtain rfl := Option.some.inj h
      have := m.byteAt_setByte addr b v
      rwa [if_neg hb] at this
    · cases h

end Memory

namespace EmCache

variable {w s l : ℕ} {δ : Type}

def cpuStep (r : EmCache w s l × Memory δ) : CpuOp → Option (EmCache w s l × Memory δ)
  | .cached op => exec r op
  | .uncached n addr v => (r.2.store n addr v).map fun m => (r.1, m)

/-! ### The lines that were written -/

/-- The misses that `access` counts in `freq_miss_writeback`: `dirty` is set. -/
def missWriteback (c : EmCache w s l) (pa : Word) : Bool :=
  !(List.finRange (2 ^ w)).any (c.hits pa) && c.freeDirty (entryIdx s l pa)

/-- The history: the ways whose line was written since it was refilled or flushed; the counter
`freq_miss_writeback`; and the number of misses whose victim was such a way. -/
structure Marks (w s : ℕ) where
  written : Fin (2 ^ s) → Fin (2 ^ w) → Bool
  freqMissWriteback : ℕ
  modifiedEvictions : ℕ

/-- In the beginning no line was written. -/
def Marks.start (w s : ℕ) : Marks w s := ⟨fun _ _ => false, 0, 0⟩

/-- A miss whose victim was written. -/
def missModified (c : EmCache w s l) (g : Marks w s) (pa : Word) : Bool :=
  !(List.finRange (2 ^ w)).any (c.hits pa) &&
    (List.finRange (2 ^ w)).any fun i => c.sfree (entryIdx s l pa) i && g.written
      (entryIdx s l pa) i

/-- An access: a line that is refilled was not written yet. -/
def Marks.access (g : Marks w s) (c : EmCache w s l) (m : Memory δ) (pa : Word) (store : Bool) :
    Marks w s :=
  match c.access m pa store with
  | none => g
  | some (_, _, i) =>
      { written := set2 g.written (entryIdx s l pa) i
          (store || (c.hits pa i && g.written (entryIdx s l pa) i))
        freqMissWriteback := g.freqMissWriteback + if c.missWriteback pa then 1 else 0
        modifiedEvictions := g.modifiedEvictions + if c.missModified g pa then 1 else 0 }

/-- A flush: the lines that are written back are not written any more. -/
def Marks.flush (g : Marks w s) (c : EmCache w s l) (pa : Word) : Marks w s :=
  let e₀ := entryIdx s l pa
  { g with written := fun e i => if e = e₀ ∧ c.hits pa i = true then false else g.written e i }

def Marks.after (g : Marks w s) (r : EmCache w s l × Memory δ) : CpuOp → Marks w s
  | .cached (.read _ addr) => if r.1.enabled then g.access r.1 r.2 addr false else g
  | .cached (.write _ addr _) => if r.1.enabled then g.access r.1 r.2 addr true else g
  | .cached (.flush addr) => if r.1.enabled then g.flush r.1 addr else g
  | .cached (.invalidate _) => g
  | .uncached _ _ _ => g

/-- The flags are those of the lines that were written, and the write-backs are evictions of such
lines. -/
structure Exact (q : (EmCache w s l × Memory δ) × Marks w s) : Prop where
  dirty : ∀ e i, q.1.1.cacheDirty e i = q.2.written e i
  count : q.2.freqMissWriteback = q.2.modifiedEvictions

/-- The operation is not a read that misses while the way of age zero of its set is marked. -/
def CleanVictim (q : (EmCache w s l × Memory δ) × Marks w s) : CpuOp → Prop
  | .cached (.read _ addr) => q.1.1.enabled = true → (∀ i, q.1.1.hits addr i = false) →
      ∀ f, q.1.1.cacheLru f (entryIdx s l addr) = 0 → q.1.1.cacheDirty (entryIdx s l addr) f = false
  | _ => True

/-- What holds whether the flags are right or wrong. -/
structure Sound (q : (EmCache w s l × Memory δ) × Marks w s) : Prop where
  aged : Aged q.1.1
  tag : ∀ i e, q.1.1.cacheV i e = true → Tag s l (q.1.1.cacheAddr i e)
  valid : ∀ e i, q.2.written e i = true → q.1.1.cacheV i e = true

variable {c c' : EmCache w s l} {m m' : Memory δ} {g : Marks w s} {pa : Word} {i : Fin (2 ^ w)}

/-! ### An access -/

theorem touch_dirty (st : Bool) (e : Fin (2 ^ s)) (j : Fin (2 ^ w)) :
    (c.touch pa st).cacheDirty e j =
      if e = entryIdx s l pa ∧ c.hits pa j = true then c.cacheDirty e j || st else
        c.cacheDirty e j := rfl

/-- The flags after an access. -/
theorem Aged.access_dirty (h : Aged c) {st : Bool} (ha : c.access m pa st = some (c', m', i))
    (e : Fin (2 ^ s)) (j : Fin (2 ^ w)) : c'.cacheDirty e j =
      if e = entryIdx s l pa ∧ j = i then c.cacheDirty e j || st else c.cacheDirty e j := by
  rcases h.access_cases ha with ⟨hi, rfl, -⟩ | ⟨hn, -, m₁, line, -, -, rfl⟩
  · have hij : c.hits pa j = true ↔ j = i := ⟨fun hj => h.hits_uniq hi hj, fun hj => hj ▸ hi⟩
    simp only [touch_dirty, hij]
  · have hij : (c.fill i pa line).hits pa j = true ↔ j = i := by
      rw [hits_fill]
      by_cases hj : j = i <;> simp [hj, hn]
    simp only [touch_dirty, hij]
    rfl

/-- The counters count the same misses when the flags are exact. -/
theorem missWriteback_eq (hd : ∀ e i, c.cacheDirty e i = g.written e i) :
    c.missWriteback pa = c.missModified g pa := by
  simp only [missWriteback, missModified, freeDirty, hd]

/-- An access keeps the flags exact, unless it is a read over a marked line. -/
theorem access_exact (h : Aged c) (hx : Exact ((c, m), g)) {st : Bool}
    (ha : c.access m pa st = some (c', m', i)) :
    Exact ((c', m'), g.access c m pa st) ↔
      (st = false → (∀ j, c.hits pa j = false) → ∀ f, c.cacheLru f (entryIdx s l pa) = 0 →
        c.cacheDirty (entryIdx s l pa) f = false) := by
  have hd : ∀ e j, c.cacheDirty e j = g.written e j := hx.dirty
  have hg : g.access c m pa st =
      { written := set2 g.written (entryIdx s l pa) i
          (st || (c.hits pa i && g.written (entryIdx s l pa) i))
        freqMissWriteback := g.freqMissWriteback + if c.missWriteback pa then 1 else 0
        modifiedEvictions := g.modifiedEvictions + if c.missModified g pa then 1 else 0 } := by
    rw [Marks.access, ha]
  have hcount : (g.access c m pa st).freqMissWriteback =
      (g.access c m pa st).modifiedEvictions := by
    have hx' : g.freqMissWriteback = g.modifiedEvictions := hx.count
    rw [hg]
    dsimp only
    rw [hx', missWriteback_eq hd]
  -- the flags and the history differ at the way of the access at most
  have hflag : (∀ e j, c'.cacheDirty e j = (g.access c m pa st).written e j) ↔
      (c.cacheDirty (entryIdx s l pa) i || st) =
        (st || (c.hits pa i && c.cacheDirty (entryIdx s l pa) i)) := by
    rw [hg]
    dsimp only
    constructor
    · intro hall
      have := hall (entryIdx s l pa) i
      rw [h.access_dirty ha, if_pos ⟨rfl, rfl⟩, set2_apply, if_pos ⟨rfl, rfl⟩, ← hd] at this
      exact this
    · intro heq e j
      rw [h.access_dirty ha, set2_apply]
      by_cases hc : e = entryIdx s l pa ∧ j = i
      · obtain ⟨rfl, rfl⟩ := hc
        rw [if_pos ⟨rfl, rfl⟩, if_pos ⟨rfl, rfl⟩, ← hd]
        exact heq
      · rw [if_neg hc, if_neg hc, hd]
  have hiff : Exact ((c', m'), g.access c m pa st) ↔
      (c.cacheDirty (entryIdx s l pa) i || st) =
        (st || (c.hits pa i && c.cacheDirty (entryIdx s l pa) i)) := by
    rw [← hflag]
    exact ⟨fun hx' => hx'.dirty, fun hall => ⟨hall, hcount⟩⟩
  rw [hiff]
  rcases h.access_cases ha with ⟨hi, -, -⟩ | ⟨hn, hf, -⟩
  · refine iff_of_true (by rw [hi, Bool.true_and, Bool.or_comm]) fun _ hn => ?_
    rw [hn i] at hi
    cases hi
  · rw [hn i, Bool.false_and, Bool.or_false]
    cases st with
    | true => simp
    | false =>
        rw [Bool.or_false]
        constructor
        · intro hdi _ _ f hf'
          rw [h.lru_inj _ f i (hf'.trans hf.symm)]
          exact hdi
        · intro hc
          exact hc rfl hn i hf

/-! ### One operation -/

theorem Exact.congr (hx : Exact ((c, m), g)) (hd : c'.cacheDirty = c.cacheDirty) :
    Exact ((c', m'), g) :=
  ⟨fun e i => by
    show c'.cacheDirty e i = _
    rw [hd]
    exact hx.dirty e i, hx.count⟩

/-- **One operation keeps the flags exact exactly if its victim is clean.** -/
theorem step_exact {q q' : (EmCache w s l × Memory δ) × Marks w s} {op : CpuOp} (hk : op.Keeps)
    (hi : Sound q) (hx : Exact q) (h : track cpuStep Marks.after q op = some q') :
    Exact q' ↔ CleanVictim q op := by
  obtain ⟨⟨c, m⟩, g⟩ := q
  obtain ⟨⟨c', m'⟩, hr, rfl⟩ := Option.map_eq_some_iff.1 h
  cases op with
  | uncached n addr v =>
      refine iff_of_true ?_ trivial
      obtain ⟨m₁, -, heq⟩ := Option.map_eq_some_iff.1 hr
      cases heq
      have hx' : Exact ((c, m'), g) := hx.congr rfl
      exact hx'
  | cached op =>
      obtain ⟨⟨v, r⟩, hs, heq⟩ := Option.map_eq_some_iff.1 hr
      cases heq
      cases hen : c.enabled with
      | false =>
          have hg : g.after (c, m) (.cached op) = g := by
            cases op <;> simp [Marks.after, hen]
          dsimp only
          rw [step_off hen hs, hg]
          refine iff_of_true (hx.congr rfl) ?_
          cases op <;> simp [CleanVictim, hen]
      | true =>
          cases op with
          | read n addr =>
              obtain ⟨i, ha⟩ := step_read hen hs
              have hg : g.after (c, m) (.cached (.read n addr)) = g.access c m addr false :=
                if_pos hen
              rw [hg, access_exact hi.aged hx ha]
              exact ⟨fun hc _ => hc rfl, fun hc _ => hc hen⟩
          | write n addr x =>
              obtain ⟨c₁, i, y, ha, rfl⟩ := step_write hen hs
              have hg : g.after (c, m) (.cached (.write n addr x)) = g.access c m addr true :=
                if_pos hen
              have hx₁ := (access_exact hi.aged hx ha).2 nofun
              rw [hg]
              exact iff_of_true (hx₁.congr rfl) trivial
          | flush addr =>
              refine iff_of_true ?_ trivial
              obtain ⟨⟨c₁, m₁⟩, hf, heq⟩ := Option.map_eq_some_iff.1 hs
              cases heq
              have hd : ∀ e i, c.cacheDirty e i = g.written e i := hx.dirty
              rw [flush_eq hen hf]
              have hg : g.after (c, m) (.cached (.flush addr)) = g.flush c addr := if_pos hen
              dsimp only
              rw [hg]
              refine ⟨fun e i => ?_, hx.count⟩
              simp only [flushed, Marks.flush, hd]
          | invalidate addr => exact hk.elim

/-! ### The lines that were not written -/

theorem byteAt_writeback {paddr : Word} {line : Fin (2 ^ l) → Byte} {b : Word}
    (h : writeback m paddr line = some m')
    (hb : ∀ o : Fin (2 ^ l), b ≠ paddr + BitVec.ofNat 32 o.val) : m'.byteAt b = m.byteAt b := by
  have hloop : ∀ (L : List (Fin (2 ^ l))) (m₁ : Memory δ),
      L.foldlM (fun m (o : Fin (2 ^ l)) => m.phyWritem8 (paddr + BitVec.ofNat 32 o) (line o))
        m₁ = some m' → m'.byteAt b = m₁.byteAt b := by
    intro L
    induction L with
    | nil =>
        intro m₁ h
        cases h
        rfl
    | cons o L ih =>
        intro m₁ h
        rw [List.foldlM_cons] at h
        obtain ⟨m₂, hm₂, h⟩ := Option.bind_eq_some_iff.1 h
        exact (ih m₂ h).trans (Memory.byteAt_phyWritem8 hm₂ (hb o))
  exact hloop _ m h

theorem byteAt_refill {paddr : Word} {line : Fin (2 ^ l) → Byte}
    {r : (Fin (2 ^ l) → Byte) × Memory δ}
    {b : Word} (h : refill m paddr line = some r) : r.2.byteAt b = m.byteAt b := by
  have hloop : ∀ (L : List (Fin (2 ^ l))) (q : (Fin (2 ^ l) → Byte) × Memory δ),
      L.foldlM (fun (r : (Fin (2 ^ l) → Byte) × Memory δ) (o : Fin (2 ^ l)) =>
        (r.2.phyReadm8 (paddr + BitVec.ofNat 32 o)).map fun q => (Function.update r.1 o q.1, q.2))
          q = some r → r.2.byteAt b = q.2.byteAt b := by
    intro L
    induction L with
    | nil =>
        intro q h
        cases h
        rfl
    | cons o L ih =>
        intro q h
        rw [List.foldlM_cons] at h
        obtain ⟨q₁, hq₁, h⟩ := Option.bind_eq_some_iff.1 h
        obtain ⟨x, hx, rfl⟩ := Option.map_eq_some_iff.1 hq₁
        exact (ih _ h).trans (Memory.byteAt_phyReadm8 hx)
  exact hloop _ (line, m) h

/-- A byte of a valid line is found in it. -/
theorem hits_of_byte (hl : l + s < 32) {e : Fin (2 ^ s)} (hv : c.cacheV i e = true)
    (ht : Tag s l (c.cacheAddr i e)) {b : Word} {o : Fin (2 ^ l)}
    (hb : b = linePaddr l (c.cacheAddr i e) e + BitVec.ofNat 32 o.val) :
    c.hits b i = true ∧ entryIdx s l b = e := by
  obtain ⟨hm, he, -⟩ := parts_linePaddr_add hl ht e o
  rw [← hb] at hm he
  rw [hits, he, hm, hv]
  simp

/-- No access changes the memory under a line that was not written. -/
theorem Sound.access_byteAt (hl : l + s < 32) (hi : Sound ((c, m), g)) (hx : Exact ((c, m), g))
    {st : Bool} (ha : c.access m pa st = some (c', m', i)) {b : Word}
    (hb : ∀ j, c.hits b j = true → g.written (entryIdx s l b) j = false) :
    m'.byteAt b = m.byteAt b := by
  have hd : ∀ e j, c.cacheDirty e j = g.written e j := hx.dirty
  rcases hi.aged.access_cases ha with ⟨-, -, rfl⟩ | ⟨-, -, m₁, line, hev, hre, -⟩
  · rfl
  · have h₁ : m'.byteAt b = m₁.byteAt b := byteAt_refill hre
    rw [h₁]
    unfold EmCache.evicted at hev
    split at hev
    · -- the victim is marked, so it was written, and the byte is not one of its
      rename_i hdirty
      rw [hd] at hdirty
      have hv := hi.valid _ _ hdirty
      refine byteAt_writeback hev fun o ho => ?_
      obtain ⟨hhit, he⟩ := hits_of_byte hl hv (hi.tag i _ hv) ho
      have := hb i hhit
      rw [he, hdirty] at this
      cases this
    · rw [Option.some.inj hev]

/-- **In an exact state no operation of the cache changes the memory under a line that was not
written.** -/
theorem unwritten_kept (hl : l + s < 32) {q q' : (EmCache w s l × Memory δ) × Marks w s}
    {op : CacheOp} (hi : Sound q) (hx : Exact q) (hen : q.1.1.enabled = true)
    (h : track cpuStep Marks.after q (.cached op) = some q') {b : Word}
    (hb : ∀ j, q.1.1.hits b j = true → q.2.written (entryIdx s l b) j = false) :
    q'.1.2.byteAt b = q.1.2.byteAt b := by
  obtain ⟨⟨c, m⟩, g⟩ := q
  obtain ⟨⟨c', m'⟩, hr, rfl⟩ := Option.map_eq_some_iff.1 h
  obtain ⟨⟨v, r⟩, hs, heq⟩ := Option.map_eq_some_iff.1 hr
  cases heq
  cases op with
  | read n addr =>
      obtain ⟨i, ha⟩ := step_read hen hs
      exact hi.access_byteAt hl hx ha hb
  | write n addr x =>
      obtain ⟨c₁, i, y, ha, -⟩ := step_write hen hs
      exact hi.access_byteAt hl hx ha hb
  | flush addr =>
      obtain ⟨⟨c₁, m₁⟩, hf, heq⟩ := Option.map_eq_some_iff.1 hs
      cases heq
      have hd : ∀ e j, c.cacheDirty e j = g.written e j := hx.dirty
      refine (flush_cases (Q := fun m₁ : Memory δ => m₁.byteAt b = m.byteAt b) hen
        (fun i m₁ m₂ hhit hdirty hm hw => ?_) hf rfl).2
      rw [hd] at hdirty
      have hv := hi.valid _ _ hdirty
      refine (byteAt_writeback hw fun o ho => ?_).trans hm
      obtain ⟨hhb, he⟩ := hits_of_byte hl hv (hi.tag i _ hv) ho
      have := hb i hhb
      rw [he, hdirty] at this
      cases this
  | invalidate addr =>
      cases hs
      rfl

/-! ### What an operation keeps -/

theorem Sound.access (hl : l + s < 32) (hi : Sound ((c, m), g)) {st : Bool}
    (ha : c.access m pa st = some (c', m', i)) : Sound ((c', m'), g.access c m pa st) := by
  have hv : ∀ e j, c'.cacheV j e = if j = i ∧ e = entryIdx s l pa then true else c.cacheV j e := by
    intro e j
    rcases hi.aged.access_cases ha with ⟨hhit, rfl, -⟩ | ⟨-, -, m₁, line, -, -, rfl⟩
    · split
      · rename_i hc
        simp only [hits, Bool.and_eq_true] at hhit
        rw [hc.1, hc.2]
        exact hhit.1
      · rfl
    · exact set2_apply _ _ _ _ _ _
  refine ⟨hi.aged.access ha, fun j e hj => ?_, fun e j hj => ?_⟩
  · rcases hi.aged.access_cases ha with ⟨hhit, rfl, -⟩ | ⟨-, -, m₁, line, -, -, rfl⟩
    · exact hi.tag j e hj
    · simp only [touch_v, touch_addr, EmCache.fill, set2_apply] at hj ⊢
      split
      · exact tag_maddr hl pa
      · rename_i hc
        rw [if_neg hc] at hj
        exact hi.tag j e hj
  · show c'.cacheV j e = true
    rw [hv]
    split
    · rfl
    · rename_i hc
      have hg : (g.access c m pa st).written e j = g.written e j := by
        simp only [Marks.access, ha, set2_apply]
        exact if_neg fun hc' => hc ⟨hc'.2, hc'.1⟩
      have hj' : (g.access c m pa st).written e j = true := hj
      rw [hg] at hj'
      exact hi.valid e j hj'

theorem step_sound (hl : l + s < 32) {q q' : (EmCache w s l × Memory δ) × Marks w s} {op : CpuOp}
    (hk : op.Keeps) (hi : Sound q) (h : track cpuStep Marks.after q op = some q') : Sound q' := by
  obtain ⟨⟨c, m⟩, g⟩ := q
  obtain ⟨⟨c', m'⟩, hr, rfl⟩ := Option.map_eq_some_iff.1 h
  cases op with
  | uncached n addr v =>
      obtain ⟨m₁, -, heq⟩ := Option.map_eq_some_iff.1 hr
      cases heq
      exact ⟨hi.aged, hi.tag, hi.valid⟩
  | cached op =>
      obtain ⟨⟨v, r⟩, hs, heq⟩ := Option.map_eq_some_iff.1 hr
      cases heq
      cases hen : c.enabled with
      | false =>
          have hg : g.after (c, m) (.cached op) = g := by
            cases op <;> simp [Marks.after, hen]
          dsimp only
          rw [step_off hen hs, hg]
          exact ⟨hi.aged, hi.tag, hi.valid⟩
      | true =>
          cases op with
          | read n addr =>
              obtain ⟨i, ha⟩ := step_read hen hs
              have hg : g.after (c, m) (.cached (.read n addr)) = g.access c m addr false :=
                if_pos hen
              dsimp only
              rw [hg]
              exact hi.access hl ha
          | write n addr x =>
              obtain ⟨c₁, i, y, ha, rfl⟩ := step_write hen hs
              have hg : g.after (c, m) (.cached (.write n addr x)) = g.access c m addr true :=
                if_pos hen
              have hi₁ := hi.access hl ha
              dsimp only
              rw [hg]
              exact ⟨hi₁.aged.congr rfl rfl rfl, hi₁.tag, hi₁.valid⟩
          | flush addr =>
              obtain ⟨⟨c₁, m₁⟩, hf, heq⟩ := Option.map_eq_some_iff.1 hs
              cases heq
              have hg : g.after (c, m) (.cached (.flush addr)) = g.flush c addr := if_pos hen
              dsimp only
              rw [hg, flush_eq hen hf]
              refine ⟨hi.aged.congr rfl rfl rfl, hi.tag, fun e i hw => hi.valid e i ?_⟩
              simp only [Marks.flush] at hw
              split at hw
              · cases hw
              · exact hw
          | invalidate addr => exact hk.elim

/-! ### Every run -/

/-- The start: the cache is in order, and no flag is set. -/
structure Clean (c : EmCache w s l) : Prop where
  aged : Aged c
  tag : ∀ i e, c.cacheV i e = true → Tag s l (c.cacheAddr i e)
  dirty : ∀ e i, c.cacheDirty e i = false

/-- The flags are exact along a run, and no operation of the cache changes the memory under a line
that was not written, so that an uncached store to it stays. -/
def RunExact (c : EmCache w s l) (m : Memory δ) (ops : List CpuOp) : Prop :=
  ∀ k q, tracked cpuStep Marks.after ((c, m), Marks.start w s) (ops.take k) = some q → Exact q ∧
    ∀ op q', ops[k]? = some (.cached op) → track cpuStep Marks.after q (.cached op) = some q' →
      q.1.1.enabled = true → ∀ b, (∀ j, q.1.1.hits b j = true →
        q.2.written (entryIdx s l b) j = false) → q'.1.2.byteAt b = q.1.2.byteAt b

/-- **The dirty flags.**  In every geometry, from every state in order with clean flags and for
every sequence of reads, writes, flushes and uncached stores: the flag of a way says whether its
line was written since it was refilled or flushed, the counted write-backs are the evictions of such
lines, and no uncached store to another line is overwritten, exactly if no read of the run misses
over a marked line. -/
theorem dirty_iff (hl : l + s < 32) (hc : Clean c) (m : Memory δ) (ops : List CpuOp)
    (hops : ∀ op ∈ ops, op.Keeps) :
    RunExact c m ops ↔ ∀ k op q q', ops[k]? = some op →
      tracked cpuStep Marks.after ((c, m), Marks.start w s) (ops.take k) = some q →
        track cpuStep Marks.after q op = some q' → CleanVictim q op := by
  have hi : Sound ((c, m), Marks.start w s) := ⟨hc.aged, hc.tag, nofun⟩
  have hx : Exact ((c, m), Marks.start w s) := ⟨hc.dirty, rfl⟩
  rw [← tracked_iff (fun q op q' hop hi h => step_sound hl (hops op hop) hi h)
    (fun q op q' hop hi hx h => step_exact (hops op hop) hi hx h) hi hx]
  constructor
  · intro h k q hq
    exact (h k q hq).1
  · intro h k q hq
    refine ⟨h k q hq, fun op q' _ hstep hen b hb => ?_⟩
    have hq' : Sound q := tracked_inv
      (fun q op q' hop hi hs => step_sound hl (hops op (List.mem_of_mem_take hop)) hi hs) hi hq
    exact unwritten_kept hl hq' (h k q hq) hen hstep hb

theorem Fresh.clean (h : c.Fresh) : Clean c where
  aged := (Constructed.lru_start ⟨h.v, h.lru⟩).aged
  tag i e hv := by
    rw [h.v] at hv
    cases hv
  dirty := h.dirty

/-- A store, a load of another line of the same set, an uncached store to that line, and the first
line again. -/
def staleMark : List CpuOp :=
  [.cached (.write .w32 0x80000000 0x04030201), .cached (.read .w32 0x80000008),
    .uncached .w32 0x80000008 0x0d0c0b0a, .cached (.read .w32 0x80000000)]

theorem dirty_iff_stale : RunExact (fresh 0 1 2) Memory.small staleMark ↔
    ∀ k op q q', staleMark[k]? = some op →
      tracked cpuStep Marks.after ((fresh 0 1 2, Memory.small), Marks.start 0 1)
        (staleMark.take k) = some q → track cpuStep Marks.after q op = some q' → CleanVictim q op :=
  dirty_iff (by decide) (fresh_fresh 0 1 2).clean Memory.small staleMark (by
    intro op hop
    simp only [staleMark, List.mem_cons, List.not_mem_nil, or_false] at hop
    rcases hop with rfl | rfl | rfl | rfl <;> trivial)

/-- The line that was loaded over the stored one is marked, and is written over the uncached
store. -/
theorem stale_mark : ¬ ∀ (w s l : ℕ) (δ : Type) (c : EmCache w s l) (m : Memory δ)
    (ops : List CpuOp), l + s < 32 → Clean c → (∀ op ∈ ops, op.Keeps) → RunExact c m ops := by
  intro h
  have hrun := h 0 1 2 Unit (fresh 0 1 2) Memory.small staleMark (by decide)
    (fresh_fresh 0 1 2).clean (by
      intro op hop
      simp only [staleMark, List.mem_cons, List.not_mem_nil, or_false] at hop
      rcases hop with rfl | rfl | rfl | rfl <;> trivial)
  obtain ⟨q, hq⟩ := Option.isSome_iff_exists.1
    (show (tracked cpuStep Marks.after ((fresh 0 1 2, Memory.small), Marks.start 0 1)
      (staleMark.take 2)).isSome = true by decide +kernel)
  have hd := (hrun 2 q hq).1.dirty 0 0
  -- the flag is set, and no store wrote the line
  have hflag : ((tracked cpuStep Marks.after ((fresh 0 1 2, Memory.small), Marks.start 0 1)
      (staleMark.take 2)).map fun q => (q.1.1.cacheDirty 0 0, q.2.written 0 0)) = some
        (true, false) := by
    decide +kernel
  rw [hq, Option.map_some] at hflag
  obtain ⟨h₁, h₂⟩ := Prod.mk.inj (Option.some.inj hflag)
  rw [h₁, h₂] at hd
  cases hd

end EmCache

end NanoCpu
