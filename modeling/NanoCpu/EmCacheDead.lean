/-
**Invalidated data in the caches of the emulator.**

An invalidation clears the valid flags of a set and leaves the dirty flags.  A line that was dirty
then is still marked, and when its way is chosen as a victim the mark is all that counts: the dead
line is written to memory.  The invalidation of the D-cache clears both flags.  So the cache of the
emulator and one with such an invalidation go along together until a miss finds a dead line that is
still marked, and that has other bytes than the memory, in the oldest way of its set.

A mark may also stay on a line that is valid and equal to memory: the mark of a victim is never
cleared.  Such a mark does no harm, because a write-back of it changes nothing.

Main definitions:

* `EmCache.invalidateClear`, `EmCache.stepClear` — the invalidation that clears both flags;
* `EmCache.after` — the cache and the memory after a sequence of operations;
* `EmCache.Spares` — the miss does not write a dead line over other bytes;
* `EmCache.Rel` — the two caches differ in harmless marks only.

Main results:

* `EmCache.contents_invalidateClear` — the invalidation that clears both flags empties the slots of
  a set;
* `EmCache.access_rel`, `EmCache.step_rel` — a step keeps the two together, or their memories part;
* `EmCache.dead_iff` — the memories are the same all along a run exactly if every step spares them.
-/

import NanoCpu.EmCacheFlat
import NanoCpu.WriteBack

set_option relaxedAutoImplicit false
set_option autoImplicit false

namespace NanoCpu

namespace EmCache

open WriteBack

variable {w s l : ℕ} {δ : Type}

/-! ### The invalidation that clears both flags -/

/-- The same cache with other dirty flags. -/
def withDirty (c : EmCache w s l) (d : Fin (2 ^ s) → Fin (2 ^ w) → Bool) : EmCache w s l :=
  { c with cacheDirty := d }

/-- The flags without those of a set. -/
def clearSet (d : Fin (2 ^ s) → Fin (2 ^ w) → Bool) (e : Fin (2 ^ s)) :
    Fin (2 ^ s) → Fin (2 ^ w) → Bool :=
  fun e' i => if e' = e then false else d e' i

/-- An invalidation that clears the valid and the dirty flags of its set, as the D-cache does in
`S_INVALIDATE`. -/
def invalidateClear (c : EmCache w s l) (pa : Word) : EmCache w s l :=
  if c.enabled then (c.invalidate pa).withDirty (clearSet c.cacheDirty (entryIdx s l pa)) else c

/-- An operation, with that invalidation. -/
def stepClear (r : EmCache w s l × Memory δ) : CacheOp → Option (Word × EmCache w s l × Memory δ)
  | .invalidate addr => some (0, r.1.invalidateClear addr, r.2)
  | op => step r op

/-- The cache and the memory after some operations. -/
def after (f : EmCache w s l × Memory δ → CacheOp → Option (Word × EmCache w s l × Memory δ))
    (r : EmCache w s l × Memory δ) (ops : List CacheOp) : Option (EmCache w s l × Memory δ) :=
  ops.foldlM (fun r op => (f r op).map fun q => q.2) r

/-- What is in the slots of a cache. -/
def contents (c : EmCache w s l) :
    Contents (Fin (2 ^ w) × Fin (2 ^ s)) Word (Fin (2 ^ l) → Byte) where
  line a := if c.cacheV a.1 a.2 then some (linePaddr l (c.cacheAddr a.1 a.2) a.2) else none
  dirty a := c.cacheDirty a.2 a.1
  data a := c.lines a.1 a.2

/-- The slots of the set are emptied, as in the D-cache (`Dcache.invalidate_set`). -/
theorem contents_invalidateClear {c : EmCache w s l} (hen : c.enabled = true) (pa : Word) :
    (c.invalidateClear pa).contents = c.contents.clear fun b => b.2 = entryIdx s l pa := by
  unfold invalidateClear invalidate withDirty clearSet contents Contents.clear
  simp only [hen, if_true]
  congr 1
  funext a
  split <;> simp

/-! ### Dead lines -/

/-- A miss at `pa` does not find, in the oldest way of its set, a line that is invalid but still
marked, and that differs from the memory. -/
def SparesAt (c : EmCache w s l) (m : Memory δ) (pa : Word) : Prop :=
  c.enabled = true → (∀ i, c.hits pa i = false) → ∀ f, c.cacheLru f (entryIdx s l pa) = 0 →
    c.cacheV f (entryIdx s l pa) = false → c.cacheDirty (entryIdx s l pa) f = true →
    ∀ o, c.lines f (entryIdx s l pa) o =
      m.byteAt (linePaddr l (c.cacheAddr f (entryIdx s l pa)) (entryIdx s l pa) +
        BitVec.ofNat 32 o.val)

/-- The step does not write a dead line over other bytes. -/
def Spares (r : EmCache w s l × Memory δ) : CacheOp → Prop
  | .read _ addr => SparesAt r.1 r.2 addr
  | .write _ addr _ => SparesAt r.1 r.2 addr
  | .flush _ => True
  | .invalidate _ => True

/-- The cache `c` has the marks `d` of the other cache, and more on lines that are dead or equal to
memory. -/
structure Rel (c : EmCache w s l) (m : Memory δ) (d : Fin (2 ^ s) → Fin (2 ^ w) → Bool) : Prop where
  ok : Ok c m
  le : ∀ e i, d e i = true → c.cacheDirty e i = true
  valid : ∀ e i, d e i = true → c.cacheV i e = true
  same : ∀ e i, c.cacheDirty e i = true → d e i = false → c.cacheV i e = true → ∀ o,
    c.lines i e o = m.byteAt (linePaddr l (c.cacheAddr i e) e + BitVec.ofNat 32 o.val)
  off : c.enabled = false → ∀ i e, c.cacheV i e = false

variable {c : EmCache w s l} {m : Memory δ} {d : Fin (2 ^ s) → Fin (2 ^ w) → Bool} {pa : Word}
  {i f : Fin (2 ^ w)}

theorem Fresh.rel (h : c.Fresh) : Rel c m c.cacheDirty where
  ok := h.ok
  le _ _ := id
  valid e i hd := by simp [h.dirty] at hd
  same e i hd := by simp [h.dirty] at hd
  off _ i e := h.v i e

theorem Rel.ok' (h : Rel c m d) : Ok (c.withDirty d) m :=
  ⟨h.ok.lru_lt, h.ok.lru_inj, h.ok.uniq, fun i e hi => h.ok.tag i e (hi.imp id (h.le e i)),
    fun i e hi => h.ok.ram i e (hi.imp id (h.le e i))⟩

/-- The marks after an access. -/
def markStore (c : EmCache w s l) (d : Fin (2 ^ s) → Fin (2 ^ w) → Bool) (pa : Word) (st : Bool) :
    Fin (2 ^ s) → Fin (2 ^ w) → Bool :=
  fun e i => if e = entryIdx s l pa ∧ c.hits pa i = true then d e i || st else d e i

theorem touch_withDirty (st : Bool) :
    (c.withDirty d).touch pa st = (c.touch pa st).withDirty (c.markStore d pa st) := rfl

theorem Rel.touch (h : Rel c m d) (hi : c.hits pa i = true) (st : Bool) :
    Rel (c.touch pa st) m (c.markStore d pa st) where
  ok := h.ok.touch hi st
  le e j hd := by
    simp only [markStore] at hd
    simp only [EmCache.touch]
    split at hd
    · rename_i hc
      rw [if_pos hc]
      rcases Bool.or_eq_true_iff.1 hd with hd | hd
      · rw [h.le e j hd, Bool.true_or]
      · rw [hd, Bool.or_true]
    · rename_i hc
      rw [if_neg hc]
      exact h.le e j hd
  valid e j hd := by
    simp only [markStore] at hd
    split at hd
    · rename_i hc
      simp only [hits, Bool.and_eq_true] at hc
      exact hc.1 ▸ hc.2.1
    · exact h.valid e j hd
  same e j hd hn hv := by
    simp only [EmCache.touch] at hd
    simp only [markStore] at hn
    split at hd
    · rename_i hc
      rw [if_pos hc] at hn
      obtain ⟨hn₁, hn₂⟩ := Bool.or_eq_false_iff.1 hn
      rw [hn₂, Bool.or_false] at hd
      exact h.same e j hd hn₁ hv
    · rename_i hc
      rw [if_neg hc] at hn
      exact h.same e j hd hn hv
  off := h.off

/-! ### An access -/

/-- The bytes of another valid line do not change when a line is written to memory. -/
theorem Rel.other_line (hl : l + s < 32) (h : Rel c m d) {m' : Memory δ} {e : Fin (2 ^ s)}
    (hw : Written m m' (c.cacheAddr f e) e (c.lines f e)) (hf : c.cacheV f e = true)
    {e' : Fin (2 ^ s)} (hv : c.cacheV i e' = true) (hne : ¬ (i = f ∧ e' = e)) (o : Fin (2 ^ l)) :
    m'.byteAt (linePaddr l (c.cacheAddr i e') e' + BitVec.ofNat 32 o.val) =
      m.byteAt (linePaddr l (c.cacheAddr i e') e' + BitVec.ofNat 32 o.val) := by
  obtain ⟨hm, he, -⟩ := parts_linePaddr_add hl (h.ok.tag i e' (Or.inl hv)) e' o
  refine hw.outside _ fun hc => hne ?_
  rw [hm, he] at hc
  obtain ⟨ha, rfl⟩ := hc
  exact ⟨h.ok.uniq e' i f hv hf ha, rfl⟩

/-- What an eviction does to the two memories. -/
theorem Rel.evicted (hl : l + s < 32) (h : Rel c m d) (f : Fin (2 ^ w)) (e : Fin (2 ^ s)) :
    ∃ m₁ m₂, c.evicted m f e = some m₁ ∧ (c.withDirty d).evicted m f e = some m₂ ∧
      (∀ b, m₁.ram b = m.ram b) ∧ (∀ b, m₂.ram b = m.ram b) ∧
      (d e f = true → m₁ = m₂ ∧ Written m m₁ (c.cacheAddr f e) e (c.lines f e)) ∧
      (d e f = false → m₂ = m ∧ (c.cacheDirty e f = true → c.cacheV f e = false →
        Written m m₁ (c.cacheAddr f e) e (c.lines f e)) ∧
        ((c.cacheDirty e f = true → c.cacheV f e = false → ∀ o, c.lines f e o =
          m.byteAt (linePaddr l (c.cacheAddr f e) e + BitVec.ofNat 32 o.val)) → m₁ = m)) := by
  obtain ⟨m₁, hm₁, hr₁, hc₁, hw₁⟩ := h.ok.evicted hl f e
  cases hd : d e f with
  | true =>
      have hcd := h.le e f hd
      have h₂ : (c.withDirty d).evicted m f e = some m₁ := by
        rw [← hm₁]
        unfold EmCache.evicted
        rw [show (c.withDirty d).cacheDirty e f = d e f from rfl, hd, hcd]
        rfl
      exact ⟨m₁, m₁, hm₁, h₂, hr₁, hr₁, fun _ => ⟨rfl, hw₁ hcd⟩, nofun⟩
  | false =>
      have h₂ : (c.withDirty d).evicted m f e = some m := by
        unfold EmCache.evicted
        rw [show (c.withDirty d).cacheDirty e f = d e f from rfl, hd]
        rfl
      refine ⟨m₁, m, hm₁, h₂, hr₁, fun _ => rfl, nofun,
        fun _ => ⟨rfl, fun hcd _ => hw₁ hcd, fun hsp => ?_⟩⟩
      cases hcd : c.cacheDirty e f with
      | false => exact hc₁ hcd
      | true =>
          have hline : ∀ o, c.lines f e o =
              m.byteAt (linePaddr l (c.cacheAddr f e) e + BitVec.ofNat 32 o.val) := by
            cases hv : c.cacheV f e with
            | false => exact hsp hcd hv
            | true => exact h.same e f hcd hd hv
          have hs := writeback_same (h.ok.ram f e (Or.inr hcd)) hline
          unfold EmCache.evicted at hm₁
          rw [if_pos hcd, hs] at hm₁
          exact (Option.some.inj hm₁).symm

/-- A line is loaded after the same eviction. -/
theorem Rel.load (hl : l + s < 32) (h : Rel c m d) (hn : ∀ i, c.hits pa i = false)
    (hr : LineRam (l := l) m (maddr s l pa) (entryIdx s l pa)) {m' : Memory δ}
    (hram : ∀ b, m'.ram b = m.ram b) (hen : c.enabled = true)
    (hm : m' = m ∨ d (entryIdx s l pa) f = true ∧
      Written m m' (c.cacheAddr f (entryIdx s l pa)) (entryIdx s l pa)
        (c.lines f (entryIdx s l pa))) :
    Rel (c.load f pa m') m' d where
  ok := (h.ok.load hl hn hr f).congr hram
  le := h.le
  valid e j hd := by
    simp only [EmCache.load, set2_apply]
    split
    · rfl
    · exact h.valid e j hd
  same e j hd hdn hv o := by
    simp only [EmCache.load, set2_apply] at hv ⊢
    by_cases hc : j = f ∧ e = entryIdx s l pa
    · rw [if_pos hc, if_pos hc, hc.2]
    · rw [if_neg hc] at hv ⊢
      rw [if_neg hc, h.same e j hd hdn hv o]
      rcases hm with rfl | ⟨hdf, hw⟩
      · rfl
      · exact (h.other_line hl hw (h.valid _ _ hdf) hv hc o).symm
  off hoff := absurd hen (by rw [show c.enabled = false from hoff]; decide)

/-- The two caches do the same at an access, or their memories part. -/
theorem access_rel (hl : l + s < 32) (h : Rel c m d) (hen : c.enabled = true)
    (hr : LineRam (l := l) m (maddr s l pa) (entryIdx s l pa)) (st : Bool) :
    ∃ c' m' c'' m'' f, c.access m pa st = some (c', m', f) ∧
      (c.withDirty d).access m pa st = some (c'', m'', f) ∧ (∀ b, m'.ram b = m.ram b) ∧
      (c.SparesAt m pa → m' = m'' ∧ ∃ d', c'' = c'.withDirty d' ∧ Rel c' m' d' ∧
        (st = true → d' (entryIdx s l pa) f = true)) ∧
      (¬ c.SparesAt m pa → m' ≠ m'') := by
  have hmark : ∀ {c : EmCache w s l} {d} {i}, c.hits pa i = true → st = true →
      c.markStore d pa st (entryIdx s l pa) i = true := by
    intro c d i hi hst
    simp [markStore, hi, hst]
  by_cases hhit : ∃ i, c.hits pa i = true
  · obtain ⟨i, hi⟩ := hhit
    refine ⟨_, m, _, m, i, access_hit h.ok hi st, access_hit h.ok' hi st, fun _ => rfl,
      fun _ => ⟨rfl, _, touch_withDirty st, h.touch hi st, hmark hi⟩, fun hns => ?_⟩
    exact absurd (fun _ hn => by rw [hn i] at hi; cases hi) hns
  · have hn : ∀ i, c.hits pa i = false := fun i => by
      rw [Bool.eq_false_iff]
      exact fun hi => hhit ⟨i, hi⟩
    obtain ⟨f, m', hf, hev, hacc⟩ := access_miss hl h.ok hn hr st
    obtain ⟨f', m'', hf', hev', hacc'⟩ := access_miss hl h.ok' hn hr st
    -- the oldest way is the same
    obtain rfl : f' = f := h.ok.lru_inj (entryIdx s l pa) f' f (hf'.trans hf.symm)
    obtain ⟨m₁, m₂, h₁, h₂, hr₁, -, hboth, hone⟩ := h.evicted hl f' (entryIdx s l pa)
    obtain rfl : m' = m₁ := Option.some.inj (hev.symm.trans h₁)
    obtain rfl : m'' = m₂ := Option.some.inj (hev'.symm.trans h₂)
    have hhf : (c.load f' pa m').hits pa f' = true := by simp [hits_load]
    have hsame : m' = m'' → (c.withDirty d).load f' pa m'' = (c.load f' pa m').withDirty d := by
      rintro rfl
      rfl
    by_cases hsp : c.SparesAt m pa
    · have hm : m' = m'' ∧ (m' = m ∨ d (entryIdx s l pa) f' = true ∧ Written m m'
          (c.cacheAddr f' (entryIdx s l pa)) (entryIdx s l pa) (c.lines f' (entryIdx s l pa))) := by
        cases hd : d (entryIdx s l pa) f' with
        | true => exact ⟨(hboth hd).1, Or.inr ⟨rfl, (hboth hd).2⟩⟩
        | false =>
            obtain ⟨hm₂, -, hsame⟩ := hone hd
            have hm₁ := hsame fun hcd hv => hsp hen hn f' hf hv hcd
            exact ⟨hm₁.trans hm₂.symm, Or.inl hm₁⟩
      have hrel := (h.load hl hn hr hr₁ hen hm.2).touch hhf st
      exact ⟨_, m', _, m'', f', hacc, hacc', hr₁,
        fun _ => ⟨hm.1, _, by rw [hsame hm.1, touch_withDirty], hrel, hmark hhf⟩,
          fun hns => absurd hsp hns⟩
    · -- the victim is a dead line with other bytes than the memory
      have hne : m' ≠ m'' := by
        unfold SparesAt at hsp
        push Not at hsp
        obtain ⟨-, -, g, hg, hv, hcd, o, ho⟩ := hsp
        obtain rfl : g = f' := h.ok.lru_inj (entryIdx s l pa) g f' (hg.trans hf.symm)
        have hd : d (entryIdx s l pa) g = false := by
          rw [Bool.eq_false_iff]
          intro hd
          rw [h.valid _ _ hd] at hv
          cases hv
        obtain ⟨hm₂, hw, -⟩ := hone hd
        obtain ⟨hm, he, hoff⟩ := parts_linePaddr_add hl (h.ok.tag g _ (Or.inr hcd))
          (entryIdx s l pa) o
        have := (hw hcd hv).inside _ hm he
        rw [hoff] at this
        rintro rfl
        rw [hm₂] at this
        exact ho this.symm
      exact ⟨_, m', _, m'', f', hacc, hacc', hr₁, fun hs => absurd hs hsp, fun _ => hne⟩

/-! ### The operations -/

theorem Rel.putBytes (h : Rel c m d) (hd : d (entryIdx s l pa) i = true) (n : ℕ) (v : Word) :
    Rel (c.putBytes i pa n v) m d where
  ok := ⟨h.ok.lru_lt, h.ok.lru_inj, h.ok.uniq, h.ok.tag, h.ok.ram⟩
  le := h.le
  valid := h.valid
  same e j hcd hdn hv o := by
    have hne : ¬ (j = i ∧ e = entryIdx s l pa) := by
      rintro ⟨rfl, rfl⟩
      rw [hd] at hdn
      cases hdn
    show (c.putBytes i pa n v).lines j e o = _
    simp only [EmCache.putBytes, set2_apply, if_neg hne]
    exact h.same e j hcd hdn hv o
  off := h.off

/-- A step of the one cache beside a step of the other: both end the program, or both succeed; they
stay together if the step spares the memory, and otherwise the memories part. -/
def Beside (r : EmCache w s l × Memory δ) (op : CacheOp)
    (x y : Option (Word × EmCache w s l × Memory δ)) : Prop :=
  (x = none ∧ y = none ∧ Spares r op) ∨ ∃ v v' c' m' c'' m'', x = some (v, c', m') ∧
    y = some (v', c'', m'') ∧
    (Spares r op → (∀ b, m'.ram b = r.2.ram b) ∧ m' = m'' ∧ ∃ d', c'' = c'.withDirty d' ∧
      Rel c' m' d') ∧ (¬ Spares r op → m' ≠ m'')

/-- A cache that is not enabled does not matter. -/
theorem beside_direct (h : Rel c m d) (hen : c.enabled = false) {op : CacheOp}
    (hop : Spares (c, m) op ↔ c.SparesAt m pa) {α : Type} {x : Option (α × Memory δ)}
    (hx : ∀ r, x = some r → ∀ b, r.2.ram b = m.ram b) (g : α → Word) :
    Beside (c, m) op (x.map fun r => (g r.1, c, r.2))
    (x.map fun r => (g r.1, c.withDirty d, r.2)) := by
  have hsp : Spares (c, m) op := hop.2 fun he => absurd hen (by rw [he]; decide)
  cases hr : x with
  | none => exact Or.inl ⟨rfl, rfl, hsp⟩
  | some r =>
      have hram := hx r hr
      refine Or.inr ⟨_, _, _, _, _, _, rfl, rfl, fun _ => ⟨hram, rfl, d, rfl, ?_⟩,
        fun hns => absurd hsp hns⟩
      exact ⟨h.ok.congr hram, h.le, h.valid,
        fun e i _ _ hv => (by rw [h.off hen] at hv; cases hv), h.off⟩

/-- The form of the reads. -/
theorem read_rel {b n : ℕ} (hl : l + s < 32) (h : Rel c m d) (ha : pa.toNat % n = 0)
    (hr : LineRam (l := l) m (maddr s l pa) (entryIdx s l pa))
    {D : Memory δ → Option (BitVec b × Memory δ)} {op : CacheOp}
      (hop : Spares (c, m) op ↔ c.SparesAt m pa)
    (hD : ∀ r, D m = some r → ∀ b, r.2.ram b = m.ram b) (g : BitVec b → Word) :
    Beside (c, m) op ((c.phyRead n D m pa).map fun q => (g q.1, q.2))
      (((c.withDirty d).phyRead n D m pa).map fun q => (g q.1, q.2)) := by
  unfold EmCache.phyRead
  cases hen : c.enabled with
  | false =>
      have := beside_direct h hen hop hD g
      simpa [hen, Option.map_map, Function.comp_def, withDirty] using this
  | true =>
      obtain ⟨c', m', c'', m'', f, hacc, hacc', hram, hsp, hns⟩ := access_rel hl h hen hr false
      have hen' : (c.withDirty d).enabled = true := hen
      simp only [hen', if_true, ha, ne_eq, not_true_eq_false, if_false, hacc, hacc',
        Option.bind_eq_bind, Option.bind_some, Option.map_some]
      refine Or.inr ⟨_, _, _, _, _, _, rfl, rfl, fun hs => ?_,
        fun hs => hns fun hc => hs (hop.2 hc)⟩
      obtain ⟨hm, d', hc, hrel, -⟩ := hsp (hop.1 hs)
      exact ⟨hram, hm, d', hc, hrel⟩

/-- The form of the writes. -/
theorem write_rel {n : ℕ} (hl : l + s < 32) (h : Rel c m d) (ha : pa.toNat % n = 0)
    (hr : LineRam (l := l) m (maddr s l pa) (entryIdx s l pa)) {v : Word}
    {D : Memory δ → Option (Memory δ)} {op : CacheOp} (hop : Spares (c, m) op ↔ c.SparesAt m pa)
    (hD : ∀ m', D m = some m' → ∀ b, m'.ram b = m.ram b) :
    Beside (c, m) op ((c.phyWrite n D m pa v).map fun q => ((0 : Word), q))
      (((c.withDirty d).phyWrite n D m pa v).map fun q => ((0 : Word), q)) := by
  unfold EmCache.phyWrite
  cases hen : c.enabled with
  | false =>
      have := beside_direct h hen hop (x := (D m).map fun m => ((), m)) (fun r hx => by
        obtain ⟨m', hm', rfl⟩ := Option.map_eq_some_iff.1 hx
        exact hD m' hm') fun _ => 0
      simpa [hen, Option.map_map, Function.comp_def, withDirty] using this
  | true =>
      obtain ⟨c', m', c'', m'', f, hacc, hacc', hram, hsp, hns⟩ := access_rel hl h hen hr true
      have hen' : (c.withDirty d).enabled = true := hen
      simp only [hen', if_true, ha, ne_eq, not_true_eq_false, if_false, hacc, hacc',
        Option.bind_eq_bind, Option.bind_some, Option.map_some]
      refine Or.inr ⟨_, _, _, _, _, _, rfl, rfl, fun hs => ?_,
        fun hs => hns fun hc => hs (hop.2 hc)⟩
      obtain ⟨hm, d', hc, hrel, hmark⟩ := hsp (hop.1 hs)
      exact ⟨hram, hm, d', by rw [hc]; rfl, hrel.putBytes (hmark rfl) n v⟩

/-- A mark that both have is cleared as the line goes to memory. -/
theorem Rel.clean_both (hl : l + s < 32) (h : Rel c m d) {e : Fin (2 ^ s)} (hd : d e i = true)
    {m' : Memory δ} (hw : Written m m' (c.cacheAddr i e) e (c.lines i e)) :
    Rel { c with cacheDirty := set2 c.cacheDirty e i false } m' (set2 d e i false) where
  ok := (h.ok.clean e i).congr hw.ram
  le e' j hj := by
    simp only [set2_apply] at hj ⊢
    split at hj
    · cases hj
    · rename_i hc
      rw [if_neg hc]
      exact h.le e' j hj
  valid e' j hj := by
    simp only [set2_apply] at hj
    split at hj
    · cases hj
    · exact h.valid e' j hj
  same e' j hcd hdn hv o := by
    simp only [set2_apply] at hcd hdn
    split at hcd
    · cases hcd
    · rename_i hc
      rw [if_neg hc] at hdn
      rw [h.other_line hl hw (h.valid e i hd) hv (fun hji => hc ⟨hji.2, hji.1⟩) o]
      exact h.same e' j hcd hdn hv o
  off := h.off

/-- A mark that only one has. -/
theorem Rel.clean_one (h : Rel c m d) {e : Fin (2 ^ s)} (hd : d e i = false) :
    Rel { c with cacheDirty := set2 c.cacheDirty e i false } m d where
  ok := h.ok.clean e i
  le e' j hj := by
    simp only [set2_apply]
    split
    · rename_i hc
      rw [hc.1, hc.2, hd] at hj
      cases hj
    · exact h.le e' j hj
  valid := h.valid
  same e' j hcd hdn hv o := by
    simp only [set2_apply] at hcd
    split at hcd
    · cases hcd
    · exact h.same e' j hcd hdn hv o
  off := h.off

/-- The body of the loop of a flush. -/
def flushWay (pa : Word) (r : EmCache w s l × Memory δ) (i : Fin (2 ^ w)) :
    Option (EmCache w s l × Memory δ) :=
  if r.1.hits pa i && r.1.cacheDirty (entryIdx s l pa) i then
    (writeback r.2 (linePaddr l (r.1.cacheAddr i (entryIdx s l pa)) (entryIdx s l pa))
      (r.1.lines i (entryIdx s l pa))).map fun m =>
        ({ r.1 with cacheDirty := set2 r.1.cacheDirty (entryIdx s l pa) i false }, m)
  else some r

theorem flushWay_rel (hl : l + s < 32) (h : Rel c m d) (pa : Word) (i : Fin (2 ^ w)) :
    ∃ c' m' d', flushWay pa (c, m) i = some (c', m') ∧
      flushWay pa (c.withDirty d, m) i = some (c'.withDirty d', m') ∧ Rel c' m' d' ∧
      ∀ b, m'.ram b = m.ram b := by
  have hhits : (c.withDirty d).hits pa i = c.hits pa i := rfl
  have hdirty : (c.withDirty d).cacheDirty (entryIdx s l pa) i = d (entryIdx s l pa) i := rfl
  cases hi : c.hits pa i with
  | false => exact ⟨c, m, d, by simp [flushWay, hi], by simp [flushWay, hhits, hi], h, fun _ => rfl⟩
  | true =>
      have hv : c.cacheV i (entryIdx s l pa) = true := by
        simp only [hits, Bool.and_eq_true] at hi
        exact hi.1
      cases hcd : c.cacheDirty (entryIdx s l pa) i with
      | false =>
          have hd : d (entryIdx s l pa) i = false := by
            rw [Bool.eq_false_iff]
            intro hd
            rw [h.le _ _ hd] at hcd
            cases hcd
          exact ⟨c, m, d, by simp [flushWay, hcd], by simp [flushWay, hdirty, hd], h, fun _ => rfl⟩
      | true =>
          cases hd : d (entryIdx s l pa) i with
          | false =>
              have hs := writeback_same (h.ok.ram i _ (Or.inr hcd)) (h.same _ i hcd hd hv)
              refine ⟨_, m, d, ?_, ?_, h.clean_one (e := entryIdx s l pa) (i := i) hd, fun _ => rfl⟩
              · simp only [flushWay, hi, hcd, Bool.and_self, if_true, hs, Option.map_some]
              · rw [flushWay, hdirty, hd, Bool.and_false]
                rfl
          | true =>
              obtain ⟨m', hm', hw⟩ := writeback_eq hl (h.ok.tag i _ (Or.inr hcd))
                (h.ok.ram i _ (Or.inr hcd)) (c.lines i (entryIdx s l pa))
              refine ⟨_, m', _, ?_, ?_, h.clean_both hl hd hw, hw.ram⟩
              · simp only [flushWay, hi, hcd, Bool.and_self, if_true, hm', Option.map_some]
              · rw [flushWay, hhits, hdirty, hi, hd]
                show (writeback m _ _).map _ = _
                rw [show writeback m (linePaddr l ((c.withDirty d).cacheAddr i (entryIdx s l pa))
                  (entryIdx s l pa)) ((c.withDirty d).lines i (entryIdx s l pa)) = some m' from hm']
                rfl

theorem flush_rel (hl : l + s < 32) (h : Rel c m d) (pa : Word) :
    ∃ c' m' d', c.flush m pa = some (c', m') ∧ (c.withDirty d).flush m pa = some
      (c'.withDirty d', m') ∧ Rel c' m' d' ∧ ∀ b, m'.ram b = m.ram b := by
  have hloop : ∀ (L : List (Fin (2 ^ w))) (c : EmCache w s l) (m : Memory δ)
      (d : Fin (2 ^ s) → Fin (2 ^ w) → Bool), Rel c m d →
      ∃ c' m' d', L.foldlM (flushWay pa) (c, m) = some (c', m') ∧
        L.foldlM (flushWay pa) (c.withDirty d, m) = some (c'.withDirty d', m') ∧ Rel c' m' d' ∧
        ∀ b, m'.ram b = m.ram b := by
    intro L
    induction L with
    | nil => exact fun c m d h => ⟨c, m, d, rfl, rfl, h, fun _ => rfl⟩
    | cons i L ih =>
        intro c m d h
        obtain ⟨c₁, m₁, d₁, h₁, h₂, hrel, hram⟩ := flushWay_rel hl h pa i
        obtain ⟨c', m', d', h₁', h₂', hrel', hram'⟩ := ih c₁ m₁ d₁ hrel
        exact ⟨c', m',
          d', by rw [List.foldlM_cons, h₁]; exact h₁', by rw [List.foldlM_cons, h₂]; exact h₂',
          hrel', fun b => (hram' b).trans (hram b)⟩
  unfold EmCache.flush
  cases hen : c.enabled with
  | true =>
      obtain ⟨c', m', d', h₁, h₂, hrest⟩ := hloop (List.finRange (2 ^ w)) c m d h
      have hen' : (c.withDirty d).enabled = true := hen
      simp only [hen', if_true]
      exact ⟨c', m', d', h₁, h₂, hrest⟩
  | false =>
      have hen' : (c.withDirty d).enabled = false := hen
      simp only [hen']
      exact ⟨c, m, d, rfl, rfl, h, fun _ => rfl⟩

theorem Rel.invalidate (h : Rel c m d) (pa : Word) :
    ∃ d', (c.withDirty d).invalidateClear pa = (c.invalidate pa).withDirty d' ∧
      Rel (c.invalidate pa) m d' := by
  unfold EmCache.invalidateClear EmCache.invalidate
  cases hen : c.enabled with
  | false =>
      have hen' : (c.withDirty d).enabled = false := hen
      simp only [hen']
      exact ⟨d, rfl, h⟩
  | true =>
      have hen' : (c.withDirty d).enabled = true := hen
      simp only [hen', if_true]
      have hvd : ∀ i e, (if e = entryIdx s l pa then false else c.cacheV i e) = true →
          c.cacheV i e = true := by
        intro i e hv
        split at hv
        · cases hv
        · exact hv
      refine ⟨clearSet d (entryIdx s l pa), rfl, ?_⟩
      refine ⟨⟨h.ok.lru_lt, h.ok.lru_inj, fun e i j hi hj => h.ok.uniq e i j (hvd i e hi)
        (hvd j e hj),
        fun i e hi => h.ok.tag i e (hi.imp (hvd i e) id),
          fun i e hi => h.ok.ram i e (hi.imp (hvd i e) id)⟩, ?_, ?_, ?_, ?_⟩
      · intro e i hd
        simp only [clearSet] at hd
        split at hd
        · cases hd
        · exact h.le e i hd
      · intro e i hd
        simp only [clearSet] at hd
        split at hd
        · cases hd
        · rename_i hne
          show (if e = entryIdx s l pa then false else c.cacheV i e) = true
          rw [if_neg hne]
          exact h.valid e i hd
      · intro e i hcd hdn hv
        have hne : e ≠ entryIdx s l pa := by
          rintro rfl
          simp at hv
        simp only [clearSet, if_neg hne] at hdn
        exact h.same e i hcd hdn (hvd i e hv)
      · intro hoff
        cases hoff

/-- Every operation. -/
theorem step_rel (hl : l + s < 32) (h : Rel c m d) {op : CacheOp} (hr : op.InRange s l m) :
    Beside (c, m) op (step (c, m) op) (stepClear (c.withDirty d, m) op) := by
  cases op with
  | read n addr =>
      cases n with
      | w8 =>
          exact read_rel hl h hr.1 hr.2 Iff.rfl (fun r => m.ram_phyReadm8) fun v => v.setWidth 32
      | w16 =>
          refine read_rel hl h hr.1 hr.2 Iff.rfl (fun r hx => ?_) fun v => v.setWidth 32
          obtain ⟨q, hq, rfl⟩ := Option.map_eq_some_iff.1 hx
          exact m.ram_phyRead hq
      | w32 =>
          have := read_rel (n := 4) hl h hr.1 hr.2 (D := fun m => m.phyReadm32 addr)
            (show Spares (c, m) (.read .w32 addr) ↔ c.SparesAt m addr from Iff.rfl) (fun r hx => by
              obtain ⟨q, hq, rfl⟩ := Option.map_eq_some_iff.1 hx
              exact m.ram_phyRead hq) id
          simpa [step, stepClear, phyReadm32] using this
  | write n addr v =>
      cases n with
      | w8 => exact write_rel hl h hr.1 hr.2 Iff.rfl fun m' => m.ram_phyWritem8
      | w16 => exact write_rel hl h hr.1 hr.2 Iff.rfl fun m' => m.ram_phyWritem16
      | w32 => exact write_rel hl h hr.1 hr.2 Iff.rfl fun m' => m.ram_phyWritem32
  | flush addr =>
      obtain ⟨c', m', d', h₁, h₂, hrel, hram⟩ := flush_rel hl h addr
      exact Or.inr ⟨0, 0, c', m', _, m', by simp [step, h₁], by simp [stepClear, step, h₂],
        fun _ => ⟨hram, rfl, d', rfl, hrel⟩, fun hs => absurd trivial hs⟩
  | invalidate addr =>
      obtain ⟨d', hd, hrel⟩ := h.invalidate addr
      exact Or.inr ⟨0, 0, c.invalidate addr, m, _, m, rfl, by rw [stepClear, hd],
        fun _ => ⟨fun _ => rfl, rfl, d', rfl, hrel⟩, fun hs => absurd trivial hs⟩

/-! ### Every run -/

theorem after_cons (f : EmCache w s l × Memory δ → CacheOp →
    Option (Word × EmCache w s l × Memory δ))
    (r : EmCache w s l × Memory δ) (op : CacheOp) (ops : List CacheOp) :
    after f r (op :: ops) = (f r op).bind fun q => after f q.2 ops := by
  rw [after, List.foldlM_cons]
  cases f r op <;> rfl

/-- Two caches that are together stay so as long as the steps spare the memory. -/
theorem memories_iff (hl : l + s < 32) {ops : List CacheOp} (h : Rel c m d)
    (hops : ∀ op ∈ ops, op.InRange s l m) :
    (∀ k, (after step (c, m) (ops.take k)).map Prod.snd =
      (after stepClear (c.withDirty d, m) (ops.take k)).map Prod.snd) ↔
    ∀ k op, ops[k]? = some op → ∀ r, after step (c, m) (ops.take k) = some r → Spares r op := by
  induction ops generalizing c m d with
  | nil => simp [after]
  | cons op ops ih =>
      have hstep := step_rel hl h (hops op List.mem_cons_self)
      rcases hstep with ⟨hx, hy, hsp⟩ | ⟨v, v', c', m', c'', m'', hx, hy, hsp, hns⟩
      · -- both programs end
        constructor
        · intro _ k op' hop' r hr
          cases k with
          | zero =>
              obtain rfl : op = op' := by simpa using hop'
              obtain rfl : (c, m) = r := Option.some.inj hr
              exact hsp
          | succ k =>
              rw [List.take_succ_cons, after_cons, hx] at hr
              cases hr
        · intro _ k
          cases k with
          | zero => rfl
          | succ k => simp [after_cons, hx, hy]
      · by_cases hs : Spares (c, m) op
        · -- they go on together
          obtain ⟨hram, rfl, d', rfl, hrel⟩ := hsp hs
          have hrec := ih hrel fun op' hop' =>
            inRange_congr (hops op' (List.mem_cons_of_mem _ hop')) hram
          constructor
          · intro hall k op' hop' r hr
            cases k with
            | zero =>
                obtain rfl : op = op' := by simpa using hop'
                obtain rfl : (c, m) = r := Option.some.inj hr
                exact hs
            | succ k =>
                refine hrec.1 (fun k => ?_) k op' (by simpa using hop') r ?_
                · have := hall (k + 1)
                  rwa [List.take_succ_cons, after_cons, after_cons, hx, hy] at this
                · rwa [List.take_succ_cons, after_cons, hx] at hr
          · intro hall k
            cases k with
            | zero => rfl
            | succ k =>
                rw [List.take_succ_cons, after_cons, after_cons, hx, hy]
                refine hrec.2 (fun k op' hop' r hr => hall (k + 1) op' (by simpa using hop') r ?_) k
                rw [List.take_succ_cons, after_cons, hx]
                exact hr
        · -- their memories part
          constructor
          · intro hall
            have := hall 1
            rw [List.take_succ_cons, after_cons, after_cons, hx, hy] at this
            exact absurd (Option.some.inj this) (hns hs)
          · intro hall
            exact absurd (hall 0 op rfl (c, m) rfl) hs

/-- **Invalidated data.**  From a fresh cache on, the memory is all along a run what it is if every
invalidation clears the dirty flags too, exactly if no miss of the run writes a dead line over other
bytes. -/
theorem dead_iff (hl : l + s < 32) (hc : c.Fresh) (m : Memory δ) (ops : List CacheOp)
    (hops : ∀ op ∈ ops, op.InRange s l m) :
    (∀ k, (after step (c, m) (ops.take k)).map Prod.snd =
      (after stepClear (c, m) (ops.take k)).map Prod.snd) ↔
    ∀ k op, ops[k]? = some op → ∀ r, after step (c, m) (ops.take k) = some r → Spares r op :=
  memories_iff hl hc.rel hops

/-- A store that is dropped by an invalidation, and a load of the line afterwards. -/
def droppedStore : List CacheOp :=
  [.write .w32 0x80000000 0x04030201, .invalidate 0x80000000, .read .w32 0x80000000]

/-- The same with two loads of lines that share the set. -/
def deadStore : List CacheOp :=
  [.write .w32 0x80000000 0x04030201, .invalidate 0x80000000, .read .w32 0x80000010,
    .read .w32 0x80000020]

theorem droppedStore_inRange : ∀ op ∈ droppedStore, op.InRange 1 2 Memory.small := by
  intro op hop
  simp only [droppedStore, List.mem_cons, List.not_mem_nil, or_false] at hop
  rcases hop with rfl | rfl | rfl
  · exact ⟨by decide, by unfold LineRam; decide⟩
  · trivial
  · exact ⟨by decide, by unfold LineRam; decide⟩

/-- The dropped store in a cache of two ways, two sets and lines of four bytes. -/
theorem dead_iff_dropped :
    (∀ k, (after step (fresh 1 1 2, Memory.small) (droppedStore.take k)).map Prod.snd =
      (after stepClear (fresh 1 1 2, Memory.small) (droppedStore.take k)).map Prod.snd) ↔
    ∀ k op, droppedStore[k]? = some op → ∀ r,
      after step (fresh 1 1 2, Memory.small) (droppedStore.take k) = some r → Spares r op :=
  dead_iff (by decide) (fresh_fresh 1 1 2) Memory.small droppedStore droppedStore_inRange

/-- The dead store comes back. -/
theorem dead_store_written : ¬ ∀ (w s l : ℕ) (δ : Type) (c : EmCache w s l) (m : Memory δ)
    (ops : List CacheOp), l + s < 32 → c.Fresh → (∀ op ∈ ops, op.InRange s l m) →
      ∀ k, (after step (c, m) (ops.take k)).map Prod.snd =
        (after stepClear (c, m) (ops.take k)).map Prod.snd := by
  intro h
  have heq := h 1 1 2 Unit (fresh 1 1 2) Memory.small deadStore (by decide) (fresh_fresh 1 1 2) (by
    intro op hop
    simp only [deadStore, List.mem_cons, List.not_mem_nil, or_false] at hop
    rcases hop with rfl | rfl | rfl | rfl
    · exact ⟨by decide, by unfold LineRam; decide⟩
    · trivial
    · exact ⟨by decide, by unfold LineRam; decide⟩
    · exact ⟨by decide, by unfold LineRam; decide⟩) 4
  have hbyte := congrArg (Option.map fun m : Memory Unit => m.byteAt 0x80000000) heq
  rw [Option.map_map, Option.map_map] at hbyte
  exact absurd hbyte (by decide +kernel)

end EmCache

end NanoCpu
