/-
**The arrays of the caches of the emulator** (`em/csrc/cache.cc`).

The arrays of a cache are allocated with two dimensions each and indexed in nested loops.  Here
every index is checked against the allocation, and an element that was never written cannot be read.
Only the table of the dirty flags has its sets first: the operations index it so, but the
constructor does not.

The functions of this module are the loops of the source over checked arrays; where they do not
fault they do what the functions on `EmCache` do.

Main definitions:

* `Table`, `Table.get`, `Table.set` — an array of two dimensions (`create_2d`) with checked indices;
* `CacheArrays.construct` — the constructor;
* `CacheArrays.access`, `CacheArrays.flush`, `CacheArrays.invalidate` — the operations;
* `Agrees`, `CacheArrays.Backs` — a checked computation does what an unchecked one does;
* `CacheArrays.WellFormed` — nothing is indexed outside its array or read before it is written.

Main results:

* `CacheArrays.Backs.access`, `CacheArrays.Backs.flush` — the operations on arrays that are
  initialised;
* `CacheArrays.construct_square`, `CacheArrays.construct_oblong` — the constructor;
* `CacheArrays.wellFormed_iff` — **the construction is well formed exactly if there are as many ways
  as sets**.
-/

import NanoCpu.EmCacheLru
import Mathlib.Data.Fintype.Basic

set_option relaxedAutoImplicit false
set_option autoImplicit false

namespace NanoCpu

/-- What can go wrong: an index outside the array, or of an element that was never written; or a
failed assertion or a panic. -/
inductive CacheFault
  | index
  | abort
  deriving DecidableEq

/-! ### Arrays of two dimensions -/

/-- An array of `d1` rows of `d2` elements; an element is none until it is written. -/
structure Table (α : Type*) where
  d1 : ℕ
  d2 : ℕ
  cell : ℕ → ℕ → Option α

/-- `create_2d`. -/
def create2d (α : Type*) (d1 d2 : ℕ) : Table α := ⟨d1, d2, fun _ _ => none⟩

namespace Table

variable {α : Type*}

def get (t : Table α) (i j : ℕ) : Except CacheFault α :=
  if i < t.d1 ∧ j < t.d2 then
    match t.cell i j with
    | some v => .ok v
    | none => .error .index
  else .error .index

def set (t : Table α) (i j : ℕ) (v : α) : Except CacheFault (Table α) :=
  if i < t.d1 ∧ j < t.d2 then
    .ok { t with cell := Function.update t.cell i (Function.update (t.cell i) j (some v)) }
  else .error .index

/-- The array has the dimensions `a` and `b`, and its elements are those of `f`. -/
structure Is {a b : ℕ} (t : Table α) (f : Fin a → Fin b → α) : Prop where
  d1 : t.d1 = a
  d2 : t.d2 = b
  cell : ∀ i j, t.cell i.val j.val = some (f i j)

variable {t : Table α} {a b : ℕ} {f : Fin a → Fin b → α}

theorem Is.get (h : t.Is f) (i : Fin a) (j : Fin b) : t.get i j = .ok (f i j) := by
  unfold Table.get
  rw [if_pos ⟨by rw [h.d1]; exact i.isLt, by rw [h.d2]; exact j.isLt⟩, h.cell]

theorem set_cell {i j : ℕ} (hi : i < t.d1) (hj : j < t.d2) (v : α) :
    ∃ t', t.set i j v = .ok t' ∧ t'.d1 = t.d1 ∧ t'.d2 = t.d2 ∧
      ∀ k n, t'.cell k n = if k = i ∧ n = j then some v else t.cell k n := by
  refine ⟨_, if_pos ⟨hi, hj⟩, rfl, rfl, fun k n => ?_⟩
  by_cases hk : k = i
  · subst hk
    by_cases hn : n = j <;> simp [hn]
  · simp [hk]

theorem Is.set (h : t.Is f) (i : Fin a) (j : Fin b) (v : α) :
    ∃ t', t.set i j v = .ok t' ∧ t'.Is (EmCache.set2 f i j v) := by
  obtain ⟨t', ht', h₁, h₂, hc⟩ := set_cell (t := t) (i := i) (j := j) (by rw [h.d1]; exact i.isLt)
    (by rw [h.d2]; exact j.isLt) v
  refine ⟨t', ht', h₁.trans h.d1, h₂.trans h.d2, fun k n => ?_⟩
  rw [hc, EmCache.set2_apply, h.cell]
  simp only [Fin.val_inj]
  split <;> rfl

end Table

/-! ### Checked computations -/

section Agree

variable {ρ σ τ υ ι : Type}

/-- The checked computation `y` aborts where `x` ends the program, and gives a related result where
`x` gives one. -/
def Agrees (R : ρ → σ → Prop) (x : Option ρ) (y : Except CacheFault σ) : Prop :=
  match x with
  | none => y = .error .abort
  | some r => ∃ q, y = .ok q ∧ R r q

variable {R : ρ → σ → Prop} {S : τ → υ → Prop} {x : Option ρ} {y : Except CacheFault σ}

theorem Agrees.ne_index (h : Agrees R x y) : y ≠ .error .index := by
  cases x with
  | none =>
      rw [Agrees] at h
      rw [h]
      nofun
  | some r =>
      obtain ⟨q, rfl, -⟩ := h
      nofun

theorem Agrees.bind (h : Agrees R x y) {f : ρ → Option τ} {g : σ → Except CacheFault υ}
    (hs : ∀ r q, x = some r → R r q → Agrees S (f r) (g q)) : Agrees S (x.bind f) (y >>= g) := by
  cases x with
  | none =>
      rw [Agrees] at h
      rw [h]
      rfl
  | some r =>
      obtain ⟨q, rfl, hr⟩ := h
      exact hs r q rfl hr

theorem Agrees.foldlM {f : ρ → ι → Option ρ} {g : σ → ι → Except CacheFault σ} {L : List ι}
    (hs : ∀ i r q, R r q → Agrees R (f r i) (g q i)) {r : ρ} {q : σ} (h : R r q) :
    Agrees R (L.foldlM f r) (L.foldlM g q) := by
  induction L generalizing r q with
  | nil => exact ⟨q, rfl, h⟩
  | cons i L ih => exact Agrees.bind (hs i r q h) fun r' q' _ hr => ih hr

/-- The rule for a loop whose iterations do not fault: `P D` holds when the iterations of `D` are
done. -/
theorem foldlM_ok {n : ℕ} {P : Finset (Fin n) → σ → Prop} {g : σ → Fin n → Except CacheFault σ}
    (hs : ∀ D i q, i ∉ D → P D q → ∃ q', g q i = .ok q' ∧ P (insert i D) q') {q : σ} (h : P ∅ q) :
    ∃ q', (List.finRange n).foldlM g q = .ok q' ∧ P Finset.univ q' := by
  have hloop : ∀ (L : List (Fin n)) (D : Finset (Fin n)) (q : σ), L.Nodup →
      (∀ i ∈ L, i ∉ D) → P D q → ∃ q', L.foldlM g q = .ok q' ∧ P (D ∪ L.toFinset) q' := by
    intro L
    induction L with
    | nil =>
        intro D q _ _ h
        exact ⟨q, rfl, by simpa using h⟩
    | cons i L ih =>
        intro D q hL hD h
        obtain ⟨hi, hL⟩ := List.nodup_cons.1 hL
        obtain ⟨q₁, hq₁, h₁⟩ := hs D i q (hD i List.mem_cons_self) h
        obtain ⟨q₂, hq₂, h₂⟩ := ih (insert i D) q₁ hL (fun j hj => by
          rw [Finset.mem_insert, not_or]
          exact ⟨fun hji => hi (hji ▸ hj), hD j (List.mem_cons_of_mem _ hj)⟩) h₁
        refine ⟨q₂, by rw [List.foldlM_cons, hq₁]; exact hq₂, ?_⟩
        rwa [List.toFinset_cons, Finset.union_insert, ← Finset.insert_union]
  obtain ⟨q', hq', h'⟩ := hloop (List.finRange n) ∅ q (List.nodup_finRange n) (by simp) h
  exact ⟨q', hq', by simpa using h'⟩

end Agree

/-- A computation of the memory, which may panic. -/
def orAbort {ρ : Type*} : Option ρ → Except CacheFault ρ
  | some r => .ok r
  | none => .error .abort

/-! ### The arrays of a cache -/

/-- The arrays.  The rows of `lines` are bytes that are masked to their length. -/
structure CacheArrays (l : ℕ) where
  enabled : Bool
  cacheV : Table Bool
  cacheDirty : Table Bool
  cacheLru : Table ℕ
  cacheAddr : Table Word
  lines : Table (Fin (2 ^ l) → Byte)

namespace CacheArrays

open EmCache (entryIdx maddr linePaddr writeback refill set2)

variable {w s l : ℕ} {δ : Type}

/-- The body of the loops of the constructor; `junk` is what is in the memory of the lines. -/
def initialise (junk : ℕ → ℕ → Fin (2 ^ l) → Byte) (t : CacheArrays l) (k j : ℕ) :
    Except CacheFault (CacheArrays l) := do
  let v ← t.cacheV.set k j false
  let d ← t.cacheDirty.set k j false
  let r ← t.cacheLru.set k j k
  let a ← t.cacheAddr.set k j 0
  let b ← t.lines.set k j (junk k j)
  .ok { t with cacheV := v, cacheDirty := d, cacheLru := r, cacheAddr := a, lines := b }

/-- What the constructor allocates. -/
def allocate (w s l : ℕ) (enabled : Bool) : CacheArrays l where
  enabled := enabled
  cacheV := create2d _ (2 ^ w) (2 ^ s)
  cacheDirty := create2d _ (2 ^ s) (2 ^ w)
  cacheLru := create2d _ (2 ^ w) (2 ^ s)
  cacheAddr := create2d _ (2 ^ w) (2 ^ s)
  lines := create2d _ (2 ^ w) (2 ^ s)

/-- `Cache::Cache`. -/
def construct (w s l : ℕ) (enabled : Bool) (junk : ℕ → ℕ → Fin (2 ^ l) → Byte) :
    Except CacheFault (CacheArrays l) :=
  (List.range (2 ^ w)).foldlM (fun t k => (List.range (2 ^ s)).foldlM
    (fun t j => initialise junk t k j) t) (allocate w s l enabled)

/-! ### The operations -/

variable (t : CacheArrays l)

/-- `cache_v[i][entry_idx] && (cache_addr[i][entry_idx] == maddr)`. -/
def matchAt (s : ℕ) (pa : Word) (i : ℕ) : Except CacheFault Bool := do
  let v ← t.cacheV.get i (entryIdx s l pa).val
  if v then do
    let a ← t.cacheAddr.get i (entryIdx s l pa).val
    .ok (decide (a = maddr s l pa))
  else .ok false

/-- What the first loop of `access` finds: `hit`, `free_way_idx` and `dirty`. -/
structure Scan (w : ℕ) where
  hit : Bool
  freeWayIdx : Option (Fin (2 ^ w))
  dirty : Bool

def scanWay (s : ℕ) (pa : Word) (r : Scan w) (i : Fin (2 ^ w)) : Except CacheFault (Scan w) := do
  let mt ← t.matchAt s pa i
  let age ← t.cacheLru.get i (entryIdx s l pa).val
  if mt && r.hit then .error .abort
  else do
    let d ← t.cacheDirty.get (entryIdx s l pa).val i
    .ok ⟨r.hit || mt, if age = 0 then some i else r.freeWayIdx, r.dirty || (decide (age = 0) && d)⟩

def scan (w s : ℕ) (pa : Word) : Except CacheFault (Scan w) :=
  (List.finRange (2 ^ w)).foldlM (t.scanWay s pa) ⟨false, none, false⟩

/-- The write-back of the way `f`. -/
def evict (s : ℕ) (m : Memory δ) (pa : Word) (f : ℕ) (dirty : Bool) :
    Except CacheFault (Memory δ) :=
  if dirty then do
    let a ← t.cacheAddr.get f (entryIdx s l pa).val
    let line ← t.lines.get f (entryIdx s l pa).val
    orAbort (writeback m (linePaddr l a (entryIdx s l pa)) line)
  else .ok m

/-- The refill of the way `f`. -/
def load (s : ℕ) (m : Memory δ) (pa : Word) (f : ℕ) :
    Except CacheFault (CacheArrays l × Memory δ) := do
  let v ← t.cacheV.set f (entryIdx s l pa).val true
  let a ← t.cacheAddr.set f (entryIdx s l pa).val (maddr s l pa)
  let line ← t.lines.get f (entryIdx s l pa).val
  let r ← orAbort (refill m (linePaddr l (maddr s l pa) (entryIdx s l pa)) line)
  let b ← t.lines.set f (entryIdx s l pa).val r.1
  .ok ({ t with cacheV := v, cacheAddr := a, lines := b }, r.2)

/-- The part of `access` at a miss. -/
def replace (s : ℕ) (m : Memory δ) (pa : Word) (r : Scan w) :
    Except CacheFault (CacheArrays l × Memory δ) :=
  match r.freeWayIdx with
  | none => .error .abort
  | some f => do
      let m ← t.evict s m pa f r.dirty
      t.load s m pa f

/-- The body of the second loop: `match` and `lru_thresh`. -/
def threshWay (s : ℕ) (pa : Word) (r : (Fin (2 ^ w) → Bool) × ℕ) (i : Fin (2 ^ w)) :
    Except CacheFault ((Fin (2 ^ w) → Bool) × ℕ) := do
  let mt ← t.matchAt s pa i
  let age ← if mt then t.cacheLru.get i (entryIdx s l pa).val else .ok 0
  .ok (Function.update r.1 i mt, r.2 ||| age)

def threshold (w s : ℕ) (pa : Word) : Except CacheFault ((Fin (2 ^ w) → Bool) × ℕ) :=
  (List.finRange (2 ^ w)).foldlM (t.threshWay s pa) (fun _ => false, 0)

/-- The body of the third loop; `hit` is set by then. -/
def ageWay (s : ℕ) (pa : Word) (store : Bool) (mt : Fin (2 ^ w) → Bool) (thresh : ℕ)
    (r : CacheArrays l × Option (Fin (2 ^ w))) (i : Fin (2 ^ w)) :
    Except CacheFault (CacheArrays l × Option (Fin (2 ^ w))) := do
  let e := (entryIdx s l pa).val
  let age ← if mt i then .ok (2 ^ w - 1) else do
    let a ← r.1.cacheLru.get i e
    .ok ((a - if thresh < a then 1 else 0) % 2 ^ w)
  let lru ← r.1.cacheLru.set i e age
  let dirty ← if mt i then do
      let d ← r.1.cacheDirty.get e i
      r.1.cacheDirty.set e i (d || store)
    else .ok r.1.cacheDirty
  .ok ({ r.1 with cacheLru := lru, cacheDirty := dirty }, if mt i then some i else r.2)

/-- The part of `access` behind the refill. -/
def finish (w s : ℕ) (m : Memory δ) (pa : Word) (store : Bool) :
    Except CacheFault (CacheArrays l × Memory δ × Fin (2 ^ w)) := do
  let (mt, thresh) ← t.threshold w s pa
  let (t, way) ← (List.finRange (2 ^ w)).foldlM (ageWay s pa store mt thresh) (t, none)
  match way with
  | some i => .ok (t, m, i)
  | none => .error .abort

/-- `access`, with the way that it hands to its caller. -/
def access (w s : ℕ) (m : Memory δ) (pa : Word) (store : Bool) :
    Except CacheFault (CacheArrays l × Memory δ × Fin (2 ^ w)) := do
  let r ← t.scan w s pa
  if r.hit then t.finish w s m pa store
  else do
    let q ← t.replace s m pa r
    q.1.finish w s q.2 pa store

/-- The caller of `access` reads and writes the line in the way that it was given. -/
def accessLine (w s : ℕ) (m : Memory δ) (pa : Word) (store : Bool)
    (change : (Fin (2 ^ l) → Byte) → Fin (2 ^ l) → Byte) :
    Except CacheFault (CacheArrays l × Memory δ) := do
  let q ← t.access w s m pa store
  let line ← q.1.lines.get q.2.2 (entryIdx s l pa).val
  let b ← q.1.lines.set q.2.2 (entryIdx s l pa).val (change line)
  .ok ({ q.1 with lines := b }, q.2.1)

/-- The body of the loop of `flush`. -/
def flushWay (s : ℕ) (pa : Word) (r : CacheArrays l × Memory δ) (i : Fin (2 ^ w)) :
    Except CacheFault (CacheArrays l × Memory δ) := do
  let e := entryIdx s l pa
  let mt ← r.1.matchAt s pa i
  if mt then do
    let d ← r.1.cacheDirty.get e.val i
    if d then do
      let a ← r.1.cacheAddr.get i e.val
      let line ← r.1.lines.get i e.val
      let m ← orAbort (writeback r.2 (linePaddr l a e) line)
      let dirty ← r.1.cacheDirty.set e.val i false
      .ok ({ r.1 with cacheDirty := dirty }, m)
    else .ok r
  else .ok r

def flush (w s : ℕ) (m : Memory δ) (pa : Word) : Except CacheFault (CacheArrays l × Memory δ) :=
  if t.enabled then (List.finRange (2 ^ w)).foldlM (flushWay s pa) (t, m) else .ok (t, m)

/-- The body of the loop of `invalidate`. -/
def invalidateWay (s : ℕ) (pa : Word) (t : CacheArrays l) (i : Fin (2 ^ w)) :
    Except CacheFault (CacheArrays l) := do
  let v ← t.cacheV.set i.val (entryIdx s l pa).val false
  .ok { t with cacheV := v }

def invalidate (w s : ℕ) (pa : Word) : Except CacheFault (CacheArrays l) :=
  if t.enabled then (List.finRange (2 ^ w)).foldlM (invalidateWay s pa) t else .ok t

end CacheArrays

/-- A call of the cache. -/
inductive CacheCall (l : ℕ)
  | access (pa : Word) (store : Bool) (change : (Fin (2 ^ l) → Byte) → Fin (2 ^ l) → Byte)
  | flush (pa : Word)
  | invalidate (pa : Word)

namespace CacheArrays

open EmCache (entryIdx maddr linePaddr writeback refill set2)

variable {w s l : ℕ} {δ : Type}

/-- A call; only an enabled cache is accessed. -/
def call (w s : ℕ) (q : CacheArrays l × Memory δ) :
    CacheCall l → Except CacheFault (CacheArrays l × Memory δ)
  | .access pa store change => if q.1.enabled then q.1.accessLine w s q.2 pa store change else .ok q
  | .flush pa => q.1.flush w s q.2 pa
  | .invalidate pa => (q.1.invalidate w s pa).map fun t => (t, q.2)

/-- The construction is well formed: it stays inside the arrays, it initialises what the operations
can index, and so do they in every run stay inside what is initialised. -/
def WellFormed (w s l : ℕ) : Prop :=
  ∀ enabled junk, ∃ t : CacheArrays l, construct w s l enabled junk = .ok t ∧
    (∀ i < 2 ^ w, ∀ j < 2 ^ s, (t.cacheV.cell i j).isSome ∧ (t.cacheDirty.cell j i).isSome ∧
      (t.cacheLru.cell i j).isSome ∧ (t.cacheAddr.cell i j).isSome) ∧
    ∀ (δ : Type) (m : Memory δ) (calls : List (CacheCall l)),
      calls.foldlM (call w s) (t, m) ≠ .error .index

/-! ### Initialised arrays -/

/-- The arrays are initialised, and hold what is in `c`. -/
structure Backs (t : CacheArrays l) (c : EmCache w s l) : Prop where
  enabled : t.enabled = c.enabled
  v : t.cacheV.Is c.cacheV
  dirty : t.cacheDirty.Is c.cacheDirty
  lru : t.cacheLru.Is c.cacheLru
  addr : t.cacheAddr.Is c.cacheAddr
  lines : t.lines.Is c.lines

variable {t : CacheArrays l} {c : EmCache w s l} {m : Memory δ} {pa : Word}

theorem Backs.matchAt (h : Backs t c) (i : Fin (2 ^ w)) : t.matchAt s pa i = .ok (c.hits pa i) := by
  unfold CacheArrays.matchAt
  rw [h.v.get i (entryIdx s l pa)]
  show (if c.cacheV i (entryIdx s l pa) = true then _ else _) = _
  unfold EmCache.hits
  cases c.cacheV i (entryIdx s l pa) with
  | false => rfl
  | true =>
      rw [if_pos rfl, h.addr.get i (entryIdx s l pa), Bool.true_and]
      rfl

/-- The last of a list that passes a test, or what was there before. -/
theorem getLast?_filter_cons {α : Type*} (p : α → Bool) (a : α) (L : List α) (x : Option α) :
    (((a :: L).filter p).getLast?).or x = ((L.filter p).getLast?).or
    (if p a then some a else x) := by
  rw [List.filter_cons]
  cases p a with
  | false => rfl
  | true =>
      rw [if_pos rfl, if_pos rfl, List.getLast?_cons]
      cases (L.filter p).getLast? <;> rfl

/-- The first loop of `access`. -/
theorem Backs.scan (h : Backs t c) (ha : EmCache.Aged c) :
    t.scan w s pa = .ok ⟨(List.finRange (2 ^ w)).any (c.hits pa),
      EmCache.lastWay (c.sfree (entryIdx s l pa)), c.freeDirty (entryIdx s l pa)⟩ := by
  have hloop : ∀ (L : List (Fin (2 ^ w))) (r : Scan w), L.Nodup →
      (r.hit = true → ∀ i ∈ L, c.hits pa i = false) →
      L.foldlM (t.scanWay s pa) r = .ok ⟨r.hit || L.any (c.hits pa),
        ((L.filter (c.sfree (entryIdx s l pa))).getLast?).or r.freeWayIdx,
        r.dirty || L.any fun i => c.sfree (entryIdx s l pa) i && c.cacheDirty
          (entryIdx s l pa) i⟩ := by
    intro L
    induction L with
    | nil =>
        intro r _ _
        simp [pure, Except.pure]
    | cons i L ih =>
        intro r hL hr
        obtain ⟨hi, hL⟩ := List.nodup_cons.1 hL
        have hno : (c.hits pa i && r.hit) = false := by
          cases hh : r.hit with
          | false => rw [Bool.and_false]
          | true => rw [hr hh i List.mem_cons_self, Bool.false_and]
        have hway : t.scanWay s pa r i = .ok ⟨r.hit || c.hits pa i,
            if c.sfree (entryIdx s l pa) i then some i else r.freeWayIdx,
            r.dirty || (c.sfree (entryIdx s l pa) i && c.cacheDirty (entryIdx s l pa) i)⟩ := by
          unfold scanWay
          rw [h.matchAt i, h.lru.get i (entryIdx s l pa), h.dirty.get (entryIdx s l pa) i]
          show (if (c.hits pa i && r.hit) = true then _ else _) = _
          rw [hno]
          simp [EmCache.sfree, bind, Except.bind]
        rw [List.foldlM_cons, hway]
        refine (ih _ hL fun hhit j hj => ?_).trans ?_
        · rcases Bool.or_eq_true_iff.1 hhit with hh | hh
          · exact hr hh j (List.mem_cons_of_mem _ hj)
          · rw [Bool.eq_false_iff]
            intro hj'
            exact hi (ha.hits_uniq hh hj' ▸ hj)
        · rw [getLast?_filter_cons, List.any_cons, List.any_cons, Bool.or_assoc, Bool.or_assoc]
  have := hloop (List.finRange (2 ^ w)) ⟨false, none, false⟩ (List.nodup_finRange _) (by simp)
  rw [CacheArrays.scan, this]
  simp [EmCache.lastWay, EmCache.freeDirty]

/-- The second loop of `access`. -/
theorem Backs.threshold (h : Backs t c) :
    t.threshold w s pa = .ok (c.hits pa, c.lruThresh pa) := by
  have hway : ∀ (r : (Fin (2 ^ w) → Bool) × ℕ) (i : Fin (2 ^ w)), t.threshWay s pa r i =
      .ok (Function.update r.1 i (c.hits pa i),
        r.2 ||| if c.hits pa i then c.cacheLru i (entryIdx s l pa) else 0) := by
    intro r i
    unfold threshWay
    rw [h.matchAt i, h.lru.get i (entryIdx s l pa)]
    cases c.hits pa i <;> rfl
  have hloop : ∀ (L : List (Fin (2 ^ w))) (r : (Fin (2 ^ w) → Bool) × ℕ),
      L.foldlM (t.threshWay s pa) r = .ok (fun j => if j ∈ L then c.hits pa j else r.1 j,
        L.foldl (fun t i => t ||| if c.hits pa i then c.cacheLru i (entryIdx s l pa) else
          0) r.2) := by
    intro L
    induction L with
    | nil =>
        intro r
        simp [pure, Except.pure]
    | cons i L ih =>
        intro r
        rw [List.foldlM_cons, hway]
        refine (ih _).trans ?_
        congr 2
        funext j
        by_cases hj : j ∈ L
        · simp [hj]
        · by_cases hji : j = i
          · simp [hji]
          · simp [hj, hji]
  rw [CacheArrays.threshold, hloop]
  simp [EmCache.lruThresh]

/-- The ways of `D` are touched. -/
def touchOn (c : EmCache w s l) (pa : Word) (store : Bool) (D : Finset (Fin (2 ^ w))) :
    EmCache w s l :=
  { c with
    cacheLru := fun i e =>
      if e = entryIdx s l pa ∧ i ∈ D then (c.touch pa store).cacheLru i e else c.cacheLru i e
    cacheDirty := fun e i =>
      if e = entryIdx s l pa ∧ i ∈ D then (c.touch pa store).cacheDirty e i else c.cacheDirty e i }

theorem touchOn_univ (store : Bool) : touchOn c pa store Finset.univ = c.touch pa store := by
  unfold touchOn EmCache.touch
  congr 1
  · funext e i
    by_cases he : e = entryIdx s l pa <;> simp [he]
  · funext i e
    by_cases he : e = entryIdx s l pa <;> simp [he]

/-- The body of the third loop of `access`. -/
theorem Backs.ageWay {store : Bool} {D : Finset (Fin (2 ^ w))}
    {r : CacheArrays l × Option (Fin (2 ^ w))}
    (h : Backs r.1 (touchOn c pa store D)) {i : Fin (2 ^ w)} (hi : i ∉ D) :
    ∃ t', ageWay s pa store (c.hits pa) (c.lruThresh pa) r i =
      .ok (t', if c.hits pa i then some i else r.2) ∧
        Backs t' (touchOn c pa store (insert i D)) := by
  have hlru : (touchOn c pa store D).cacheLru i (entryIdx s l pa) =
    c.cacheLru i (entryIdx s l pa) :=
    if_neg fun hc => hi hc.2
  have hdirty : (touchOn c pa store D).cacheDirty (entryIdx s l pa) i =
    c.cacheDirty (entryIdx s l pa) i :=
    if_neg fun hc => hi hc.2
  have hage : (c.touch pa store).cacheLru i (entryIdx s l pa) = if c.hits pa i then 2 ^ w - 1 else
      (c.cacheLru i (entryIdx s l pa) -
        if c.lruThresh pa < c.cacheLru i (entryIdx s l pa) then 1 else 0) % 2 ^ w := if_pos rfl
  have hmark : (c.touch pa store).cacheDirty (entryIdx s l pa) i =
      if c.hits pa i then c.cacheDirty (entryIdx s l pa) i || store
      else c.cacheDirty (entryIdx s l pa) i := by
    simp [EmCache.touch]
  obtain ⟨lru, hset, his⟩ := h.lru.set i (entryIdx s l pa)
    ((c.touch pa store).cacheLru i (entryIdx s l pa))
  obtain ⟨dirty, hset', his'⟩ := h.dirty.set (entryIdx s l pa) i
    ((c.touch pa store).cacheDirty (entryIdx s l pa) i)
  have hget := h.lru.get i (entryIdx s l pa)
  have hget' := h.dirty.get (entryIdx s l pa) i
  rw [hlru] at hget
  rw [hdirty] at hget'
  rw [hage] at hset
  rw [hmark] at hset'
  -- the tables with the way `i` added
  have hl : ∀ k e, set2 (touchOn c pa store D).cacheLru i (entryIdx s l pa)
      ((c.touch pa store).cacheLru i (entryIdx s l pa)) k e =
        (touchOn c pa store (insert i D)).cacheLru k e := by
    intro k e
    rw [EmCache.set2_apply]
    by_cases hk : k = i
    · by_cases he : e = entryIdx s l pa <;> simp [touchOn, hk, he]
    · simp [touchOn, hk]
  have hd : ∀ e k, set2 (touchOn c pa store D).cacheDirty (entryIdx s l pa) i
      ((c.touch pa store).cacheDirty (entryIdx s l pa) i) e k =
        (touchOn c pa store (insert i D)).cacheDirty e k := by
    intro e k
    rw [EmCache.set2_apply]
    by_cases hk : k = i
    · by_cases he : e = entryIdx s l pa <;> simp [touchOn, hk, he]
    · simp [touchOn, hk]
  have hlru' : lru.Is (touchOn c pa store (insert i D)).cacheLru :=
    ⟨his.d1, his.d2, fun k e => (his.cell k e).trans (congrArg some (hl k e))⟩
  cases hh : c.hits pa i with
  | true =>
      rw [hh, if_pos rfl] at hset hset'
      refine ⟨{ r.1 with cacheLru := lru, cacheDirty := dirty }, ?_, h.enabled, h.v,
        ⟨his'.d1, his'.d2, fun e k => (his'.cell e k).trans (congrArg some (hd e k))⟩, hlru',
          h.addr, h.lines⟩
      simp [CacheArrays.ageWay, hh, hset, hget', hset', bind, Except.bind]
  | false =>
      rw [hh, if_neg (by simp)] at hset hmark
      have hsame : (touchOn c pa store (insert i D)).cacheDirty =
          (touchOn c pa store D).cacheDirty := by
        funext e k
        rw [← hd, EmCache.set2_apply]
        split
        · rename_i hc
          rw [hmark, hc.1, hc.2, hdirty]
        · rfl
      refine ⟨{ r.1 with cacheLru := lru, cacheDirty := r.1.cacheDirty }, ?_, h.enabled, h.v,
        hsame ▸ h.dirty, hlru', h.addr, h.lines⟩
      simp [CacheArrays.ageWay, hh, hget, hset, bind, Except.bind]

/-- The part of `access` behind the refill, when the line is in the way `i`. -/
theorem Backs.finish (h : Backs t c) (ha : EmCache.Aged c) {i : Fin (2 ^ w)}
    (hi : c.hits pa i = true) (m : Memory δ) (store : Bool) :
    ∃ t', t.finish w s m pa store = .ok (t', m, i) ∧ Backs t' (c.touch pa store) := by
  have h₀ : Backs t (touchOn c pa store ∅) := by simpa [touchOn] using h
  obtain ⟨q, hq, hb, hway⟩ := foldlM_ok (P := fun D (q : CacheArrays l × Option (Fin (2 ^ w))) =>
      Backs q.1 (touchOn c pa store D) ∧ ∀ j, q.2 = some j ↔ j ∈ D ∧ c.hits pa j = true)
    (g := CacheArrays.ageWay s pa store (c.hits pa) (c.lruThresh pa))
    (fun D j q hj hP => by
      obtain ⟨t', ht', hb'⟩ := hP.1.ageWay hj
      refine ⟨_, ht', hb', fun k => ?_⟩
      dsimp only
      split
      · rename_i hhj
        rw [Option.some.injEq, Finset.mem_insert]
        constructor
        · rintro rfl
          exact ⟨Or.inl rfl, hhj⟩
        · rintro ⟨-, hk⟩
          exact ha.hits_uniq hk hhj
      · rename_i hhj
        rw [hP.2 k, Finset.mem_insert]
        constructor
        · rintro ⟨hk, hhk⟩
          exact ⟨Or.inr hk, hhk⟩
        · rintro ⟨rfl | hk, hhk⟩
          · exact absurd hhk hhj
          · exact ⟨hk, hhk⟩)
    (q := (t, none)) ⟨h₀, by simp⟩
  obtain ⟨t', way⟩ := q
  have hwi : way = some i := (hway i).2 ⟨Finset.mem_univ i, hi⟩
  refine ⟨t', ?_, touchOn_univ (c := c) store ▸ hb⟩
  unfold CacheArrays.finish
  rw [h.threshold]
  simp [bind, Except.bind, hq, hwi]

theorem agrees_orAbort {ρ : Type} (x : Option ρ) : Agrees Eq x (orAbort x) := by
  cases x with
  | none => rfl
  | some r => exact ⟨r, rfl, rfl⟩

/-- The arrays and the memory beside the cache and the memory. -/
def Beside (x : EmCache w s l × Memory δ) (y : CacheArrays l × Memory δ) : Prop :=
  Backs y.1 x.1 ∧ y.2 = x.2

theorem Backs.evict (h : Backs t c) (m : Memory δ) (f : Fin (2 ^ w)) :
    Agrees Eq (c.evicted m f (entryIdx s l pa))
    (t.evict s m pa f (c.cacheDirty (entryIdx s l pa) f)) := by
  unfold EmCache.evicted CacheArrays.evict
  cases c.cacheDirty (entryIdx s l pa) f with
  | false => exact ⟨m, rfl, rfl⟩
  | true =>
      rw [if_pos rfl, if_pos rfl, h.addr.get f (entryIdx s l pa), h.lines.get f (entryIdx s l pa)]
      exact agrees_orAbort _

theorem Backs.load (h : Backs t c) (m : Memory δ) (f : Fin (2 ^ w)) :
    Agrees Beside
    ((refill m (linePaddr l (maddr s l pa) (entryIdx s l pa)) (c.lines f (entryIdx s l pa))).map
      fun r => (c.fill f pa r.1, r.2)) (t.load s m pa f) := by
  obtain ⟨v, hv, hvi⟩ := h.v.set f (entryIdx s l pa) true
  obtain ⟨a, ha, hai⟩ := h.addr.set f (entryIdx s l pa) (maddr s l pa)
  unfold CacheArrays.load
  rw [hv, ha, h.lines.get f (entryIdx s l pa)]
  show Agrees Beside _ (orAbort _ >>= _)
  rw [Option.map_eq_bind]
  refine (agrees_orAbort _).bind fun r q _ hr => ?_
  subst hr
  obtain ⟨b, hb, hbi⟩ := h.lines.set f (entryIdx s l pa) r.1
  rw [hb]
  exact ⟨_, rfl, ⟨h.enabled, hvi, h.dirty, h.lru, hai, hbi⟩, rfl⟩

theorem Backs.replace (h : Backs t c) (ha : EmCache.Aged c) (m : Memory δ) (hit : Bool) :
    Agrees Beside (c.replace m pa) (t.replace s m pa
      ⟨hit, EmCache.lastWay (c.sfree (entryIdx s l pa)), c.freeDirty (entryIdx s l pa)⟩) := by
  obtain ⟨f, hf, hrep⟩ := ha.replace_eq m pa
  obtain ⟨f', hf', hlast, hdirty⟩ := ha.free (entryIdx s l pa)
  obtain rfl : f' = f := ha.lru_inj _ f' f (hf'.trans hf.symm)
  rw [hrep, hlast, hdirty]
  exact (h.evict m f').bind fun m₁ m₂ _ hm => hm ▸ h.load m₁ f'

/-- **`access` over initialised arrays.** -/
theorem Backs.access (h : Backs t c) (ha : EmCache.Aged c) (m : Memory δ) (store : Bool) :
    Agrees (fun x y => Backs y.1 x.1 ∧ y.2 = x.2) (c.access m pa store)
    (t.access w s m pa store) := by
  unfold CacheArrays.access
  rw [h.scan ha]
  show Agrees _ _ (if (List.finRange (2 ^ w)).any (c.hits pa) = true then _ else _)
  by_cases hhit : ∃ i, c.hits pa i = true
  · obtain ⟨i, hi⟩ := hhit
    rw [if_pos (List.any_eq_true.2 ⟨i, List.mem_finRange i, hi⟩), ha.access_hit hi m store]
    obtain ⟨t', ht', hb⟩ := h.finish ha hi m store
    exact ⟨_, ht', hb, rfl⟩
  · have hn : ∀ i, c.hits pa i = false := fun i => by
      rw [Bool.eq_false_iff]
      exact fun hi => hhit ⟨i, hi⟩
    have hany : (List.finRange (2 ^ w)).any (c.hits pa) = false := by simp [hn]
    obtain ⟨f, hf, hacc⟩ := ha.access_miss hn m store
    obtain ⟨f', hf', hrep⟩ := ha.replace_eq m pa
    obtain rfl : f' = f := ha.lru_inj _ f' f (hf'.trans hf.symm)
    -- the access is the replacement and what is behind it
    have heq : c.access m pa store = (c.replace m pa).bind fun x =>
        some (x.1.touch pa store, x.2, f') := by
      rw [hacc, hrep, Option.bind_assoc]
      refine congrArg _ (funext fun m' => ?_)
      cases refill m' (linePaddr l (maddr s l pa) (entryIdx s l pa))
        (c.lines f' (entryIdx s l pa)) <;> rfl
    rw [heq, hany, if_neg (by simp)]
    refine (h.replace ha m _).bind fun x y hx hxy => ?_
    rw [hrep, Option.bind_eq_some_iff] at hx
    obtain ⟨m₁, -, hx⟩ := hx
    obtain ⟨r, -, rfl⟩ := Option.map_eq_some_iff.1 hx
    have hhit' : (c.fill f' pa r.1).hits pa f' = true := by simp [EmCache.hits_fill]
    obtain ⟨t', ht', hb⟩ := hxy.1.finish (ha.fill hn f' r.1) hhit' y.2 store
    exact ⟨_, ht', hb, by rw [hxy.2]⟩

theorem Backs.flush (h : Backs t c) (m : Memory δ) :
    Agrees Beside (c.flush m pa) (t.flush w s m pa) := by
  unfold EmCache.flush CacheArrays.flush
  rw [← h.enabled]
  cases t.enabled with
  | false => exact ⟨_, rfl, h, rfl⟩
  | true =>
      rw [if_pos rfl, if_pos rfl]
      refine Agrees.foldlM (R := Beside) (fun i x y hxy => ?_) ⟨h, rfl⟩
      obtain ⟨c₁, m₁⟩ := x
      obtain ⟨t₁, m₂⟩ := y
      obtain ⟨hb, rfl⟩ := hxy
      unfold flushWay
      dsimp only at hb ⊢
      rw [hb.matchAt i, hb.dirty.get (entryIdx s l pa) i, hb.addr.get i (entryIdx s l pa),
        hb.lines.get i (entryIdx s l pa)]
      cases hh : c₁.hits pa i with
      | false => exact ⟨_, rfl, hb, rfl⟩
      | true =>
          cases hd : c₁.cacheDirty (entryIdx s l pa) i with
          | false => exact ⟨_, rfl, hb, rfl⟩
          | true =>
              show Agrees _ (Option.map _ _) (orAbort _ >>= _)
              rw [Option.map_eq_bind]
              refine (agrees_orAbort _).bind fun m₃ m₄ _ hm => ?_
              subst hm
              obtain ⟨d, hset, hi⟩ := hb.dirty.set (entryIdx s l pa) i false
              rw [hset]
              exact ⟨_, rfl, ⟨hb.enabled, hb.v, hi, hb.lru, hb.addr, hb.lines⟩, rfl⟩

theorem Backs.invalidate (h : Backs t c) (pa : Word) :
    ∃ t', t.invalidate w s pa = .ok t' ∧ Backs t' (c.invalidate pa) := by
  unfold EmCache.invalidate CacheArrays.invalidate
  rw [← h.enabled]
  cases hen : t.enabled with
  | false => exact ⟨t, rfl, h⟩
  | true =>
      rw [if_pos rfl, if_pos rfl]
      obtain ⟨t', ht', hb⟩ := foldlM_ok (P := fun D (t : CacheArrays l) => Backs t { c with
          cacheV := fun i e => if e = entryIdx s l pa ∧ i ∈ D then false else c.cacheV i e })
        (g := invalidateWay s pa) (fun D i q hi hP => by
          obtain ⟨v, hset, his⟩ := hP.v.set i (entryIdx s l pa) false
          refine ⟨{ q with
            cacheV := v }, by unfold invalidateWay; rw [hset]; rfl, hP.enabled, ?_, hP.dirty,
            hP.lru, hP.addr, hP.lines⟩
          refine ⟨his.d1, his.d2, fun k e => (his.cell k e).trans (congrArg some ?_)⟩
          rw [EmCache.set2_apply]
          by_cases hk : k = i
          · by_cases he : e = entryIdx s l pa <;> simp [hk, he]
          · simp [hk])
        (q := t) (by simpa using h)
      exact ⟨t', ht', by simpa [← h.enabled, hen] using hb⟩

/-! ### Every run -/

/-- The line of a way is changed. -/
def changeLine (c : EmCache w s l) (pa : Word) (i : Fin (2 ^ w))
    (change : (Fin (2 ^ l) → Byte) → Fin (2 ^ l) → Byte) : EmCache w s l :=
  let e := entryIdx s l pa
  { c with lines := set2 c.lines i e (change (c.lines i e)) }

/-- The same calls of the cache. -/
def callOf (r : EmCache w s l × Memory δ) : CacheCall l → Option (EmCache w s l × Memory δ)
  | .access pa store change =>
      if r.1.enabled then
        (r.1.access r.2 pa store).map fun q => (changeLine q.1 pa q.2.2 change, q.2.1)
      else some r
  | .flush pa => r.1.flush r.2 pa
  | .invalidate pa => some (r.1.invalidate pa, r.2)

theorem Agrees.and {ρ σ : Type} {R : ρ → σ → Prop} {x : Option ρ} {y : Except CacheFault σ}
    (h : Agrees R x y) {P : ρ → Prop} (hp : ∀ r, x = some r → P r) :
    Agrees (fun r q => R r q ∧ P r) x y := by
  cases x with
  | none => exact h
  | some r =>
      obtain ⟨q, hq, hr⟩ := h
      exact ⟨q, hq, hr, hp r rfl⟩

theorem aged_callOf (ha : EmCache.Aged c) {call : CacheCall l} {r : EmCache w s l × Memory δ}
    (h : callOf (c, m) call = some r) : EmCache.Aged r.1 := by
  cases call with
  | access pa store change =>
      cases hen : c.enabled with
      | false =>
          simp only [callOf, hen, Bool.false_eq_true, if_false, Option.some.injEq] at h
          rw [← h]
          exact ha
      | true =>
          simp only [callOf, hen, if_true] at h
          obtain ⟨⟨c₁, m₁, i⟩, hacc, rfl⟩ := Option.map_eq_some_iff.1 h
          exact (ha.access hacc).congr rfl rfl rfl
  | flush pa =>
      have hs : EmCache.step (c, m) (.flush pa) = some (0, r) := by
        rw [EmCache.step, show c.flush m pa = some r from h]
        rfl
      exact ha.step hs
  | invalidate pa =>
      obtain rfl := Option.some.inj h
      have hs : EmCache.step (c, m) (.invalidate pa) = some (0, c.invalidate pa, m) := rfl
      exact ha.step hs

theorem Backs.call (h : Backs t c) (ha : EmCache.Aged c) (m : Memory δ) (call : CacheCall l) :
    Agrees (fun x y => Beside x y ∧ EmCache.Aged x.1) (callOf (c, m) call)
    (CacheArrays.call w s (t, m) call) := by
  refine Agrees.and ?_ fun r hr => aged_callOf ha hr
  cases call with
  | access pa store change =>
      unfold callOf CacheArrays.call
      dsimp only
      rw [h.enabled]
      cases c.enabled with
      | false => exact ⟨_, rfl, h, rfl⟩
      | true =>
          rw [if_pos rfl, if_pos rfl, Option.map_eq_bind]
          unfold accessLine
          refine (h.access ha m store).bind fun x y _ hxy => ?_
          obtain ⟨hb, hy⟩ := hxy
          obtain ⟨b, hset, hi⟩ := hb.lines.set x.2.2 (entryIdx s l pa)
            (change (x.1.lines x.2.2 (entryIdx s l pa)))
          rw [hy, hb.lines.get x.2.2 (entryIdx s l pa)]
          refine ⟨({ y.1 with lines := b }, x.2.1), ?_,
            ⟨hb.enabled, hb.v, hb.dirty, hb.lru, hb.addr, hi⟩, rfl⟩
          simp only [bind, Except.bind, hset]
  | flush pa => exact h.flush m
  | invalidate pa =>
      obtain ⟨t', ht', hb⟩ := h.invalidate pa
      refine ⟨(t', m), ?_, hb, rfl⟩
      show (t.invalidate w s pa).map _ = _
      rw [ht']
      rfl

theorem Backs.run (h : Backs t c) (ha : EmCache.Aged c) (m : Memory δ)
    (calls : List (CacheCall l)) : calls.foldlM (CacheArrays.call w s) (t, m) ≠ .error .index := by
  refine Agrees.ne_index (R := fun x y => Beside x y ∧ EmCache.Aged x.1)
    (x := calls.foldlM callOf (c, m)) (Agrees.foldlM (fun call x y hxy => ?_) ⟨⟨h, rfl⟩, ha⟩)
  obtain ⟨⟨hb, hm⟩, ha'⟩ := hxy
  obtain ⟨t₁, m₁⟩ := y
  obtain ⟨c₁, m₂⟩ := x
  obtain rfl : m₁ = m₂ := hm
  exact hb.call ha' m₁ call

/-! ### The constructor -/

/-- The rule for a loop over an initial segment. -/
theorem range_foldlM_ok {σ : Type} {P : ℕ → σ → Prop} {g : σ → ℕ → Except CacheFault σ} {n : ℕ}
    (hs : ∀ k q, k < n → P k q → ∃ q', g q k = .ok q' ∧ P (k + 1) q') {q : σ} (h : P 0 q) :
    ∃ q', (List.range n).foldlM g q = .ok q' ∧ P n q' := by
  induction n with
  | zero => exact ⟨q, rfl, h⟩
  | succ n ih =>
      obtain ⟨q₁, hq₁, h₁⟩ := ih fun k q hk => hs k q (Nat.lt_succ_of_lt hk)
      obtain ⟨q₂, hq₂, h₂⟩ := hs n q₁ (Nat.lt_succ_self n) h₁
      refine ⟨q₂, ?_, h₂⟩
      rw [List.range_succ, List.foldlM_append, hq₁]
      show (g q₁ n >>= fun q => pure q) = _
      rw [hq₂]
      rfl

/-- Every iteration of a loop that ends without a fault did so itself. -/
theorem foldlM_mem {σ ι : Type} {I : σ → Prop} {g : σ → ι → Except CacheFault σ} {L : List ι}
    (hI : ∀ q i q', I q → g q i = .ok q' → I q') {q q' : σ} (h : L.foldlM g q = .ok q') (hq : I q) :
    I q' ∧ ∀ i ∈ L, ∃ q₁ q₂, I q₁ ∧ g q₁ i = .ok q₂ := by
  induction L generalizing q with
  | nil =>
      cases h
      exact ⟨hq, nofun⟩
  | cons i L ih =>
      rw [List.foldlM_cons] at h
      cases hg : g q i with
      | error e =>
          rw [hg] at h
          cases h
      | ok q₁ =>
          rw [hg] at h
          obtain ⟨hq', hall⟩ := ih h (hI q i q₁ hq hg)
          refine ⟨hq', fun j hj => ?_⟩
          rcases List.mem_cons.1 hj with rfl | hj
          · exact ⟨q, q₁, hq, hg⟩
          · exact hall j hj

/-- The array has the dimensions `a` and `b`, and its elements at the indices in `p` are those of
`f`. -/
structure Part {α : Type} (t : Table α) (a b : ℕ) (f : ℕ → ℕ → α) (p : ℕ → ℕ → Prop) : Prop where
  d1 : t.d1 = a
  d2 : t.d2 = b
  cell : ∀ k j, p k j → t.cell k j = some (f k j)

theorem Part.mono {α : Type} {t : Table α} {a b : ℕ} {f : ℕ → ℕ → α} {p p' : ℕ → ℕ → Prop}
    (h : Part t a b f p) (hp : ∀ k j, p' k j → p k j) : Part t a b f p' :=
  ⟨h.d1, h.d2, fun k j hk => h.cell k j (hp k j hk)⟩

theorem Part.set {α : Type} {t : Table α} {a b : ℕ} {f : ℕ → ℕ → α} {p : ℕ → ℕ → Prop}
    (h : Part t a b f p) {k j : ℕ} (hk : k < a) (hj : j < b) {p' : ℕ → ℕ → Prop}
    (hp : ∀ k' j', p' k' j' → p k' j' ∨ k' = k ∧ j' = j) :
    ∃ t', t.set k j (f k j) = .ok t' ∧ Part t' a b f p' := by
  obtain ⟨t', ht', h₁, h₂, hc⟩ := Table.set_cell (t := t) (i := k) (j := j) (by rw [h.d1]; exact hk)
    (by rw [h.d2]; exact hj) (f k j)
  refine ⟨t', ht', h₁.trans h.d1, h₂.trans h.d2, fun k' j' hp' => ?_⟩
  rw [hc]
  split
  · rename_i he
    rw [he.1, he.2]
  · rename_i he
    exact h.cell k' j' ((hp k' j' hp').resolve_right he)

/-- The elements at the indices in `p` are initialised in all arrays. -/
structure Initialised (w s : ℕ) (enabled : Bool) (junk : ℕ → ℕ → Fin (2 ^ l) → Byte)
    (p : ℕ → ℕ → Prop) (t : CacheArrays l) : Prop where
  enabled : t.enabled = enabled
  v : Part t.cacheV (2 ^ w) (2 ^ s) (fun _ _ => false) p
  dirty : Part t.cacheDirty (2 ^ s) (2 ^ w) (fun _ _ => false) p
  lru : Part t.cacheLru (2 ^ w) (2 ^ s) (fun k _ => k) p
  addr : Part t.cacheAddr (2 ^ w) (2 ^ s) (fun _ _ => 0) p
  lines : Part t.lines (2 ^ w) (2 ^ s) junk p

/-- The body of the loops, where the index lies in the table of the dirty flags too. -/
theorem Initialised.step {enabled : Bool} {junk : ℕ → ℕ → Fin (2 ^ l) → Byte} {p p' : ℕ → ℕ → Prop}
    (h : Initialised w s enabled junk p t) {k j : ℕ} (hk : k < 2 ^ w) (hj : j < 2 ^ s)
    (hk' : k < 2 ^ s) (hj' : j < 2 ^ w) (hp : ∀ k' j', p' k' j' → p k' j' ∨ k' = k ∧ j' = j) :
    ∃ t', initialise junk t k j = .ok t' ∧ Initialised w s enabled junk p' t' := by
  obtain ⟨v, hv, hv'⟩ := h.v.set hk hj hp
  obtain ⟨d, hd, hd'⟩ := h.dirty.set hk' hj' hp
  obtain ⟨r, hr, hr'⟩ := h.lru.set hk hj hp
  obtain ⟨a, ha, ha'⟩ := h.addr.set hk hj hp
  obtain ⟨b, hb, hb'⟩ := h.lines.set hk hj hp
  refine ⟨{ t with cacheV := v, cacheDirty := d, cacheLru := r, cacheAddr := a, lines := b },
    ?_, h.enabled, hv', hd', hr', ha', hb'⟩
  simp only [initialise, hv, hd, hr, ha, hb, bind, Except.bind]

/-- With as many ways as sets the constructor initialises all elements. -/
theorem construct_square (w l : ℕ) (enabled : Bool) (junk : ℕ → ℕ → Fin (2 ^ l) → Byte) :
    ∃ t, construct w w l enabled junk = .ok t ∧
      Initialised w w enabled junk (fun k j => k < 2 ^ w ∧ j < 2 ^ w) t := by
  have h₀ : Initialised w w enabled junk (fun k j => k < 0 ∧ j < 2 ^ w) (allocate w w l enabled) :=
    ⟨rfl, ⟨rfl, rfl, by simp⟩, ⟨rfl, rfl, by simp⟩, ⟨rfl, rfl, by simp⟩, ⟨rfl, rfl, by simp⟩,
      ⟨rfl, rfl, by simp⟩⟩
  refine range_foldlM_ok (P := fun K t => Initialised w w enabled junk
    (fun k j => k < K ∧ j < 2 ^ w) t) (fun K t hK hP => ?_) h₀
  -- the rows before `K` are done, and the row `K` up to `J`
  obtain ⟨t', ht', hP'⟩ := range_foldlM_ok
    (P := fun J t => Initialised w w enabled junk
      (fun k j => (k < K ∧ j < 2 ^ w) ∨ (k = K ∧ j < J)) t)
    (g := fun t j => initialise junk t K j) (n := 2 ^ w)
    (fun J t hJ hP => hP.step hK hJ hK hJ fun k j hp => by omega) (q := t) (by simpa using hP)
  refine ⟨t', ht', ?_⟩
  have hsub : ∀ k j, k < K + 1 ∧ j < 2 ^ w → (k < K ∧ j < 2 ^ w) ∨ (k = K ∧ j < 2 ^ w) := by
    intro k j
    omega
  exact ⟨hP'.enabled, hP'.v.mono hsub, hP'.dirty.mono hsub, hP'.lru.mono hsub, hP'.addr.mono hsub,
    hP'.lines.mono hsub⟩

theorem bind_eq_ok {σ τ : Type} {x : Except CacheFault σ} {f : σ → Except CacheFault τ} {r : τ}
    (h : (x >>= f) = .ok r) : ∃ a, x = .ok a ∧ f a = .ok r := by
  cases x with
  | error e => cases h
  | ok a => exact ⟨a, rfl, h⟩

/-- An initialisation without a fault leaves the dimensions of the dirty flags, and its index lies
in them. -/
theorem initialise_dirty {junk : ℕ → ℕ → Fin (2 ^ l) → Byte} {k j : ℕ} {t' : CacheArrays l}
    (h : initialise junk t k j = .ok t') : (k < t.cacheDirty.d1 ∧ j < t.cacheDirty.d2) ∧
      t'.cacheDirty.d1 = t.cacheDirty.d1 ∧ t'.cacheDirty.d2 = t.cacheDirty.d2 := by
  obtain ⟨v, -, h⟩ := bind_eq_ok h
  obtain ⟨d, hd, h⟩ := bind_eq_ok h
  obtain ⟨r, -, h⟩ := bind_eq_ok h
  obtain ⟨a, -, h⟩ := bind_eq_ok h
  obtain ⟨b, -, h⟩ := bind_eq_ok h
  cases h
  have hin : k < t.cacheDirty.d1 ∧ j < t.cacheDirty.d2 := by
    by_contra hn
    rw [Table.set, if_neg hn] at hd
    cases hd
  obtain ⟨d', hd', h₁, h₂, -⟩ := Table.set_cell hin.1 hin.2 false
  obtain rfl : d = d' := Except.ok.inj (hd.symm.trans hd')
  exact ⟨hin, h₁, h₂⟩

/-- With more ways than sets, or more sets than ways, the constructor leaves the table of the dirty
flags. -/
theorem construct_oblong (hws : w ≠ s) (enabled : Bool) (junk : ℕ → ℕ → Fin (2 ^ l) → Byte)
    (t : CacheArrays l) : construct w s l enabled junk ≠ .ok t := by
  intro h
  let I : CacheArrays l → Prop := fun t => t.cacheDirty.d1 = 2 ^ s ∧ t.cacheDirty.d2 = 2 ^ w
  have hbody : ∀ (k : ℕ) (t : CacheArrays l) (j : ℕ) (t' : CacheArrays l), I t →
      initialise junk t k j = .ok t' → I t' := by
    intro k t j t' hI ht
    obtain ⟨-, h₁, h₂⟩ := initialise_dirty ht
    exact ⟨h₁.trans hI.1, h₂.trans hI.2⟩
  have hrows := foldlM_mem (I := I) (fun t k t' hI ht => (foldlM_mem (hbody k) ht hI).1)
    h ⟨rfl, rfl⟩
  -- the last element of the last row lies in the table
  have hwpos := Nat.two_pow_pos w
  have hspos := Nat.two_pow_pos s
  obtain ⟨t₁, t₂, hI₁, hrow⟩ := hrows.2 (2 ^ w - 1) (List.mem_range.2 (by omega))
  obtain ⟨t₃, t₄, hI₃, hlast⟩ := (foldlM_mem (hbody (2 ^ w - 1)) hrow hI₁).2 (2 ^ s - 1)
    (List.mem_range.2 (by omega))
  obtain ⟨⟨hk, hj⟩, -, -⟩ := initialise_dirty hlast
  rw [hI₃.1] at hk
  rw [hI₃.2] at hj
  exact hws (Nat.pow_right_injective le_rfl (by show 2 ^ w = 2 ^ s; omega))

/-- The cache that the constructor leaves. -/
def started (w : ℕ) (enabled : Bool) (junk : ℕ → ℕ → Fin (2 ^ l) → Byte) : EmCache w w l where
  enabled := enabled
  cacheV _ _ := false
  cacheDirty _ _ := false
  cacheLru k _ := k.val
  cacheAddr _ _ := 0
  lines k j := junk k j

/-- Initialised arrays are those of a cache. -/
theorem Initialised.backs {enabled : Bool} {junk : ℕ → ℕ → Fin (2 ^ l) → Byte}
    (h : Initialised w w enabled junk (fun k j => k < 2 ^ w ∧ j < 2 ^ w) t) :
    Backs t (started w enabled junk) where
  enabled := h.enabled
  v := ⟨h.v.d1, h.v.d2, fun k j => h.v.cell k j ⟨k.isLt, j.isLt⟩⟩
  dirty := ⟨h.dirty.d1, h.dirty.d2, fun k j => h.dirty.cell k j ⟨k.isLt, j.isLt⟩⟩
  lru := ⟨h.lru.d1, h.lru.d2, fun k j => h.lru.cell k j ⟨k.isLt, j.isLt⟩⟩
  addr := ⟨h.addr.d1, h.addr.d2, fun k j => h.addr.cell k j ⟨k.isLt, j.isLt⟩⟩
  lines := ⟨h.lines.d1, h.lines.d2, fun k j => h.lines.cell k j ⟨k.isLt, j.isLt⟩⟩

/-- **The construction of a cache is well formed exactly if there are as many ways as sets.** -/
theorem wellFormed_iff (w s l : ℕ) : WellFormed w s l ↔ w = s := by
  constructor
  · intro h
    by_contra hws
    obtain ⟨t, ht, -, -⟩ := h true fun _ _ _ => 0
    exact construct_oblong hws true _ t ht
  · rintro rfl enabled junk
    obtain ⟨t, ht, hi⟩ := construct_square w l enabled junk
    refine ⟨t, ht, fun i hi' j hj' => ?_, fun δ m calls => ?_⟩
    · rw [hi.v.cell i j ⟨hi', hj'⟩, hi.dirty.cell j i ⟨hj', hi'⟩, hi.lru.cell i j ⟨hi', hj'⟩,
        hi.addr.cell i j ⟨hi', hj'⟩]
      exact ⟨rfl, rfl, rfl, rfl⟩
    · have hc : EmCache.Constructed (started w enabled junk) := ⟨fun _ _ => rfl, fun _ _ => rfl⟩
      exact hi.backs.run hc.lru_start.aged m calls

/-- The geometry that the emulator takes when it is told none: two ways, sixteen sets, lines of 64
bytes. -/
theorem default_geometry : ¬ ∀ w s l, WellFormed w s l := by
  intro h
  obtain ⟨t, ht, -, -⟩ := h 1 4 6 true fun _ _ _ => 0
  exact construct_oblong (by decide) true _ t ht

end CacheArrays

end NanoCpu
