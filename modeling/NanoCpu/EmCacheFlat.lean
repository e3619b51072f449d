/-
**The caches of the emulator refine a flat memory.**

Reads, writes and flushes go through the cache.  Whatever they do, the cache and the memory together
show the bytes that the reads and writes alone would have left in a flat memory: the lines in the
cache hold these bytes, and so does the memory wherever no marked line hides it.  A line that is
longer than an access is needed for that: the bytes of an access wrap around within its line.

Main definitions:

* `AccessWidth`, `CacheOp`, `EmCache.step`, `EmCache.run` — operations, and their effect one after
  the other;
* `CacheOp.flat`, `flatRun` — the same with a flat memory;
* `EmCache.overlay` — the memory overlaid with the marked lines;
* `EmCache.Flat` — the cache and the memory show the bytes of a flat memory.

Main results:

* `EmCache.access_flat`, `EmCache.Flat.putByte` — an access, and the change of a byte;
* `EmCache.step_flat` — every operation that fits keeps them at the flat memory;
* `EmCache.run_flat` — so does every sequence of operations.
-/

import NanoCpu.EmCache
import NanoCpu.Em

set_option relaxedAutoImplicit false
set_option autoImplicit false

namespace NanoCpu

/-! ### Operations -/

inductive AccessWidth
  | w8 | w16 | w32
  deriving DecidableEq

def AccessWidth.bytes : AccessWidth → ℕ
  | .w8 => 1
  | .w16 => 2
  | .w32 => 4

inductive CacheOp
  | read (n : AccessWidth) (addr : Word)
  | write (n : AccessWidth) (addr v : Word)
  | flush (addr : Word)
  | invalidate (addr : Word)
  deriving DecidableEq

namespace EmCache

variable {w s l : ℕ} {δ : Type}

/-- What a read answers, as a word, and the cache and the memory after an operation. -/
def step (r : EmCache w s l × Memory δ) : CacheOp → Option (Word × EmCache w s l × Memory δ)
  | .read .w8 addr => (r.1.phyReadm8 r.2 addr).map fun q => (q.1.setWidth 32, q.2)
  | .read .w16 addr => (r.1.phyReadm16 r.2 addr).map fun q => (q.1.setWidth 32, q.2)
  | .read .w32 addr => r.1.phyReadm32 r.2 addr
  | .write .w8 addr v => (r.1.phyWritem8 r.2 addr (v.setWidth 8)).map fun q => (0, q)
  | .write .w16 addr v => (r.1.phyWritem16 r.2 addr (v.setWidth 16)).map fun q => (0, q)
  | .write .w32 addr v => (r.1.phyWritem32 r.2 addr v).map fun q => (0, q)
  | .flush addr => (r.1.flush r.2 addr).map fun q => (0, q)
  | .invalidate addr => some (0, r.1.invalidate addr, r.2)

/-- The operations one after the other, with the answers. -/
def run : EmCache w s l × Memory δ → List CacheOp → Option (List Word × EmCache w s l × Memory δ)
  | r, [] => some ([], r)
  | r, op :: ops => do
      let (v, r) ← step r op
      let (vs, r) ← run r ops
      some (v :: vs, r)

end EmCache

namespace CacheOp

variable {δ : Type}

/-- The same operation on a flat memory, which needs neither flushes nor invalidations. -/
def flat (F : Em.Bytes) : CacheOp → Word × Em.Bytes
  | .read .w8 addr => ((Em.phyReadm8 F addr).setWidth 32, F)
  | .read .w16 addr => ((Em.phyReadm16 F addr).setWidth 32, F)
  | .read .w32 addr => (Em.phyReadm32 F addr, F)
  | .write .w8 addr v => (0, Em.phyWritem8 F addr (v.setWidth 8))
  | .write .w16 addr v => (0, Em.phyWritem16 F addr (v.setWidth 16))
  | .write .w32 addr v => (0, Em.phyWritem32 F addr v)
  | .flush _ => (0, F)
  | .invalidate _ => (0, F)

/-- An access is aligned, and its line consists of memory bytes. -/
def InRange (s l : ℕ) (m : Memory δ) : CacheOp → Prop
  | .read n addr => addr.toNat % n.bytes = 0 ∧
      EmCache.LineRam (l := l) m (EmCache.maddr s l addr) (EmCache.entryIdx s l addr)
  | .write n addr _ => addr.toNat % n.bytes = 0 ∧
      EmCache.LineRam (l := l) m (EmCache.maddr s l addr) (EmCache.entryIdx s l addr)
  | .flush _ => True
  | .invalidate _ => True

/-- An access is no longer than a line. -/
def Short (l : ℕ) : CacheOp → Prop
  | .read n _ => n.bytes ≤ 2 ^ l
  | .write n _ _ => n.bytes ≤ 2 ^ l
  | .flush _ => True
  | .invalidate _ => True

/-- The operation is not an invalidation. -/
def Keeps : CacheOp → Prop
  | .invalidate _ => False
  | _ => True

end CacheOp

/-- The operations on a flat memory, with the answers. -/
def flatRun : Em.Bytes → List CacheOp → List Word × Em.Bytes
  | F, [] => ([], F)
  | F, op :: ops => ((op.flat F).1 :: (flatRun (op.flat F).2 ops).1, (flatRun (op.flat F).2 ops).2)

namespace EmCache

variable {w s l : ℕ} {δ : Type}

/-- The valid and dirty flags are clear and the ages are as the constructor sets them. -/
structure Fresh (c : EmCache w s l) : Prop where
  v : ∀ i e, c.cacheV i e = false
  dirty : ∀ e i, c.cacheDirty e i = false
  lru : ∀ i e, c.cacheLru i e = i.val

/-- The memory overlaid with the valid lines that are marked. -/
def overlay (c : EmCache w s l) (m : Memory δ) : Em.Bytes := fun b =>
  match (List.finRange (2 ^ w)).find? fun i => c.hits b i && c.cacheDirty (entryIdx s l b) i with
  | some i => c.lines i (entryIdx s l b) (offset l b)
  | none => m.byteAt b

/-! ### The flat memory behind a cache -/

/-- The valid lines hold the bytes of `F`, and so does the memory where no marked line hides it. -/
structure Flat (c : EmCache w s l) (m : Memory δ) (F : Em.Bytes) : Prop where
  data : ∀ b i, c.hits b i = true → c.lines i (entryIdx s l b) (offset l b) = F b
  mem : ∀ b, (∀ i, c.hits b i = true → c.cacheDirty (entryIdx s l b) i = false) → m.byteAt b = F b
  valid : ∀ i e, c.cacheDirty e i = true → c.cacheV i e = true
  off : c.enabled = false → ∀ i e, c.cacheV i e = false

variable {c : EmCache w s l} {m : Memory δ} {F : Em.Bytes} {pa : Word} {i f : Fin (2 ^ w)}

theorem Fresh.ok (h : c.Fresh) : Ok c m where
  lru_lt i e := by rw [h.lru]; exact i.isLt
  lru_inj e i j hij := Fin.ext (by rw [← h.lru i e, ← h.lru j e, hij])
  uniq e i j hi := by rw [h.v] at hi; cases hi
  tag i e hi := by simp [h.v, h.dirty] at hi
  ram i e hi := by simp [h.v, h.dirty] at hi

theorem Fresh.flat (h : c.Fresh) : Flat c m m.byteAt where
  data b i hi := by simp [hits, h.v] at hi
  mem b _ := rfl
  valid i e hi := by simp [h.dirty] at hi
  off _ i e := h.v i e

/-- What the overlaid memory shows. -/
theorem Flat.overlay (h : Flat c m F) : c.overlay m = F := by
  funext b
  unfold EmCache.overlay
  split
  · rename_i i hi
    have := List.find?_some hi
    simp only [Bool.and_eq_true] at this
    exact h.data b i this.1
  · rename_i hn
    refine h.mem b fun i hi => ?_
    have := List.find?_eq_none.1 hn i (List.mem_finRange i)
    simpa [hi] using this

theorem Flat.touch (h : Flat c m F) (st : Bool) : Flat (c.touch pa st) m F where
  data := h.data
  mem b hb := by
    refine h.mem b fun i hi => ?_
    have := hb i hi
    simp only [EmCache.touch] at this
    split at this
    · exact (Bool.or_eq_false_iff.1 this).1
    · exact this
  valid i e hd := by
    simp only [EmCache.touch] at hd
    split at hd
    · rename_i hc
      simp only [hits, Bool.and_eq_true] at hc
      exact hc.1 ▸ hc.2.1
    · exact h.valid i e hd
  off := h.off

/-- A line is written to memory, and another one takes its place. -/
theorem Flat.load (hl : l + s < 32) (h : Flat c m F) (hn : ∀ i, c.hits pa i = false)
    (hen : c.enabled = true) {m' : Memory δ}
    (hclean : c.cacheDirty (entryIdx s l pa) f = false → m' = m)
    (hdirty : c.cacheDirty (entryIdx s l pa) f = true →
      Written m m' (c.cacheAddr f (entryIdx s l pa)) (entryIdx s l pa)
      (c.lines f (entryIdx s l pa))) :
    Flat (c.load f pa m') m' F := by
  -- what memory holds after the eviction
  have hmem : ∀ b, (∀ i, c.hits b i = true → i = f ∧ entryIdx s l b = entryIdx s l pa ∨
      c.cacheDirty (entryIdx s l b) i = false) → m'.byteAt b = F b := by
    intro b hb
    cases hd : c.cacheDirty (entryIdx s l pa) f with
    | false =>
        rw [hclean hd]
        refine h.mem b fun i hi => ?_
        rcases hb i hi with ⟨rfl, he⟩ | hc
        · rw [he, hd]
        · exact hc
    | true =>
        have hw := hdirty hd
        by_cases hin : maddr s l b = c.cacheAddr f (entryIdx s l pa) ∧ entryIdx s l b =
          entryIdx s l pa
        · have hbf : c.hits b f = true := by
            simp only [hits, hin.2, h.valid f _ hd, hin.1, decide_true, Bool.and_self]
          rw [hw.inside b hin.1 hin.2, ← h.data b f hbf, hin.2]
        · rw [hw.outside b hin]
          refine h.mem b fun i hi => ?_
          rcases hb i hi with ⟨rfl, he⟩ | hc
          · simp only [hits, Bool.and_eq_true, decide_eq_true_eq, he] at hi
            exact absurd ⟨hi.2.symm, he⟩ hin
          · exact hc
  -- the bytes of the new line are in no way of the old cache
  have hnew : ∀ b, maddr s l b = maddr s l pa → entryIdx s l b = entryIdx s l pa →
      ∀ i, c.hits b i = false := by
    intro b hb he i
    have := hn i
    simp only [hits, hb, he] at this ⊢
    exact this
  refine ⟨?_, ?_, ?_, fun hoff => absurd hen (by rw [show c.enabled = false from hoff]; decide)⟩
  · intro b i hi
    rw [hits_load] at hi
    simp only [EmCache.load, set2_apply]
    by_cases hc : i = f ∧ entryIdx s l b = entryIdx s l pa
    · rw [if_pos hc] at hi ⊢
      have hb := of_decide_eq_true hi
      have ha : linePaddr l (maddr s l pa) (entryIdx s l pa) + BitVec.ofNat 32
          (offset l b).val = b := by
        rw [← hb, ← hc.2]
        exact linePaddr_add_offset hl b
      rw [ha]
      exact hmem b fun j hj => by rw [hnew b hb hc.2 j] at hj; cases hj
    · rw [if_neg hc] at hi ⊢
      exact h.data b i hi
  · intro b hb
    refine hmem b fun j hj => ?_
    by_cases hc : j = f ∧ entryIdx s l b = entryIdx s l pa
    · exact Or.inl hc
    · exact Or.inr (hb j (by rw [hits_load, if_neg hc]; exact hj))
  · intro i e hd
    simp only [EmCache.load, set2_apply]
    split
    · rfl
    · exact h.valid i e hd

/-- An access brings the line into a way, and changes nothing that can be seen. -/
theorem access_flat (hl : l + s < 32) (ho : Ok c m) (h : Flat c m F) (hen : c.enabled = true)
    (hr : LineRam (l := l) m (maddr s l pa) (entryIdx s l pa)) (st : Bool) :
    ∃ c' m' f, c.access m pa st = some (c', m', f) ∧ Ok c' m' ∧ Flat c' m' F ∧ c'.hits pa f = true ∧
      (st = true → c'.cacheDirty (entryIdx s l pa) f = true) ∧ (∀ b, m'.ram b = m.ram b) ∧
      c'.enabled = true := by
  have hmark : ∀ {c : EmCache w s l} {i}, c.hits pa i = true → st = true →
      (c.touch pa st).cacheDirty (entryIdx s l pa) i = true := by
    intro c i hi hst
    simp [EmCache.touch, hi, hst]
  by_cases hhit : ∃ i, c.hits pa i = true
  · obtain ⟨i, hi⟩ := hhit
    exact ⟨_, _, _, access_hit ho hi st, ho.touch hi st, h.touch st, hi, hmark hi,
      fun _ => rfl, hen⟩
  · have hn : ∀ i, c.hits pa i = false := fun i => by
      rw [Bool.eq_false_iff]
      exact fun hi => hhit ⟨i, hi⟩
    obtain ⟨f, m', -, hev, hacc⟩ := access_miss hl ho hn hr st
    obtain ⟨m'', hev', hram, hclean, hdirty⟩ := ho.evicted hl f (entryIdx s l pa)
    obtain rfl : m' = m'' := Option.some.inj (hev.symm.trans hev')
    have hf : (c.load f pa m').hits pa f = true := by simp [hits_load]
    have hok : Ok (c.load f pa m') m' := (ho.load hl hn hr f).congr hram
    exact ⟨_, _, _, hacc, hok.touch hf st, (h.load hl hn hen hclean hdirty).touch st, hf,
      hmark hf, hram, hen⟩

/-! ### The bytes of an access -/

/-- The bytes of an aligned access are in one line. -/
theorem parts_add (hl : l + s < 32) {n k j : ℕ} (hn : n = 2 ^ j) (hnl : n ≤ 2 ^ l)
    (ha : pa.toNat % n = 0) (hk : k < n) : maddr s l (pa + BitVec.ofNat 32 k) = maddr s l pa ∧
      entryIdx s l (pa + BitVec.ofNat 32 k) = entryIdx s l pa ∧
      (offset l (pa + BitVec.ofNat 32 k)).val = (offset l pa).val + k := by
  have hnd : n ∣ 2 ^ l := by
    rw [hn] at hnl ⊢
    exact Nat.pow_dvd_pow 2 ((Nat.pow_le_pow_iff_right (by decide)).1 hnl)
  have hjl : 2 ^ l ∣ 2 ^ 32 := Nat.pow_dvd_pow 2 (by omega)
  obtain ⟨q, hq⟩ := hnd
  obtain ⟨p, hp⟩ := hjl
  obtain ⟨a, hpa⟩ := Nat.dvd_of_mod_eq_zero ha
  have h0 : 0 < n := by rw [hn]; exact Nat.two_pow_pos j
  -- the access does not cross the end of a line
  have hoff : pa.toNat % 2 ^ l + k < 2 ^ l := by
    rw [hpa, hq, Nat.mul_mod_mul_left]
    have hlt : a % q < q := Nat.mod_lt _ (Nat.pos_of_ne_zero fun e => by
      have := Nat.two_pow_pos l
      rw [hq, e, Nat.mul_zero] at this
      omega)
    have := Nat.mul_le_mul_left n hlt
    rw [Nat.mul_succ] at this
    omega
  have hsum : (pa + BitVec.ofNat 32 k).toNat = pa.toNat + k := by
    have hm := Nat.div_add_mod pa.toNat (2 ^ l)
    have hd : pa.toNat / 2 ^ l < p := by
      refine Nat.div_lt_of_lt_mul ?_
      rw [← hp]
      exact pa.isLt
    have hle := Nat.mul_le_mul_left (2 ^ l) hd
    rw [Nat.mul_succ, ← hp] at hle
    have hk32 : k < 2 ^ 32 := by omega
    rw [BitVec.toNat_add, BitVec.toNat_ofNat, Nat.mod_eq_of_lt hk32]
    exact Nat.mod_eq_of_lt (by omega)
  have hdiv : (pa.toNat + k) / 2 ^ l = pa.toNat / 2 ^ l := by
    have hm := Nat.div_add_mod pa.toNat (2 ^ l)
    conv_lhs => rw [← hm, Nat.add_assoc, Nat.mul_add_div (Nat.two_pow_pos l), Nat.div_eq_of_lt hoff]
    rfl
  refine ⟨BitVec.eq_of_toNat_eq ?_, Fin.ext ?_, ?_⟩
  · rw [maddr_toNat, maddr_toNat, hsum, Nat.pow_add, ← Nat.div_div_eq_div_mul, hdiv,
      Nat.div_div_eq_div_mul]
  · rw [entryIdx_val, entryIdx_val, hsum, hdiv]
  · show (pa + BitVec.ofNat 32 k).toNat % 2 ^ l = pa.toNat % 2 ^ l + k
    rw [hsum, Nat.add_mod, Nat.mod_eq_of_lt (show k < 2 ^ l by omega), Nat.mod_eq_of_lt hoff]

/-- A byte of a line changes. -/
def putByte (c : EmCache w s l) (way : Fin (2 ^ w)) (b : Word) (v : Byte) :
    EmCache w s l := { c with
  lines := set2 c.lines way (entryIdx s l b)
    (Function.update (c.lines way (entryIdx s l b)) (offset l b) v) }

theorem Flat.putByte (hl : l + s < 32) (ho : Ok c m) (h : Flat c m F) {b : Word}
    (hi : c.hits b i = true) (hd : c.cacheDirty (entryIdx s l b) i = true) (v : Byte) :
    Flat (c.putByte i b v) m (Function.update F b v) where
  data a j hj := by
    have hj : c.hits a j = true := hj
    simp only [EmCache.putByte, set2_apply]
    by_cases hc : j = i ∧ entryIdx s l a = entryIdx s l b
    · rw [if_pos hc]
      by_cases hab : a = b
      · rw [hab, Function.update_self, Function.update_self]
      · have hoff : offset l a ≠ offset l b := by
          intro hoff
          have hja := hj
          have hib := hi
          simp only [hits, Bool.and_eq_true, decide_eq_true_eq] at hja hib
          rw [hc.1, hc.2] at hja
          apply hab
          rw [← linePaddr_add_offset hl a, ← linePaddr_add_offset hl b, ← hja.2, ← hib.2,
            hc.2, hoff]
        rw [Function.update_of_ne hoff, Function.update_of_ne hab, ← h.data a j hj, hc.1, hc.2]
    · have hab : a ≠ b := by
        rintro rfl
        exact hc ⟨ho.aged.hits_uniq hi hj, rfl⟩
      rw [if_neg hc, Function.update_of_ne hab]
      exact h.data a j hj
  mem a ha := by
    have hab : a ≠ b := by
      rintro rfl
      have := ha i hi
      rw [show (c.putByte i a v).cacheDirty = c.cacheDirty from rfl, hd] at this
      cases this
    rw [Function.update_of_ne hab]
    exact h.mem a ha
  valid := h.valid
  off := h.off

/-- `n` bytes of a flat memory change. -/
def flatPut (F : Em.Bytes) (addr : Word) (n : ℕ) (v : Word) : Em.Bytes :=
  (List.range n).foldl (fun F k =>
    Function.update F (addr + BitVec.ofNat 32 k) ((v >>> (8 * k)).setWidth 8)) F

theorem putBytes_zero (v : Word) : c.putBytes i pa 0 v = c := by
  have h : set2 c.lines i (entryIdx s l pa) (c.lines i (entryIdx s l pa)) = c.lines := by
    funext j d
    rw [set2_apply]
    split
    · rename_i hc
      rw [hc.1, hc.2]
    · rfl
  unfold putBytes
  simp only [List.range_zero, List.foldl_nil, h]

theorem putBytes_succ {n : ℕ} (he : entryIdx s l (pa + BitVec.ofNat 32 n) = entryIdx s l pa)
    (v : Word) : c.putBytes i pa (n + 1) v =
      (c.putBytes i pa n v).putByte i (pa + BitVec.ofNat 32 n) ((v >>> (8 * n)).setWidth 8) := by
  unfold putBytes EmCache.putByte
  simp only [he, List.range_succ, List.foldl_append, List.foldl_cons, List.foldl_nil]
  congr 1
  funext j d
  simp only [set2_apply]
  split <;> simp

/-- A store to a line that is in the cache and marked. -/
theorem Flat.putBytes (hl : l + s < 32) (ho : Ok c m) (h : Flat c m F) (hi : c.hits pa i = true)
    (hd : c.cacheDirty (entryIdx s l pa) i = true) {n : ℕ} (v : Word)
    (hp : ∀ k < n, maddr s l (pa + BitVec.ofNat 32 k) = maddr s l pa ∧
      entryIdx s l (pa + BitVec.ofNat 32 k) = entryIdx s l pa) :
    Ok (c.putBytes i pa n v) m ∧ Flat (c.putBytes i pa n v) m (flatPut F pa n v) := by
  induction n with
  | zero =>
      rw [putBytes_zero]
      exact ⟨ho, h⟩
  | succ n ih =>
      obtain ⟨hon, hfn⟩ := ih fun k hk => hp k (by omega)
      obtain ⟨hm, he⟩ := hp n (by omega)
      rw [putBytes_succ he, flatPut, List.range_succ, List.foldl_append, List.foldl_cons,
        List.foldl_nil]
      refine ⟨⟨hon.lru_lt, hon.lru_inj, hon.uniq, hon.tag, hon.ram⟩, hfn.putByte hl hon ?_ ?_ _⟩
      · rw [hits, he, hm]
        exact hi
      · rw [he]
        exact hd

theorem Flat.getBytes (h : Flat c m F) (hi : c.hits pa i = true) {n : ℕ}
    (hp : ∀ k < n, maddr s l (pa + BitVec.ofNat 32 k) = maddr s l pa ∧
      entryIdx s l (pa + BitVec.ofNat 32 k) = entryIdx s l pa) :
    c.getBytes i pa n = (List.range n).foldl (fun r k =>
      r ||| (F (pa + BitVec.ofNat 32 k)).setWidth 32 <<< (8 * k)) 0 := by
  unfold EmCache.getBytes
  refine List.foldl_ext _ _ _ fun r k hk => ?_
  obtain ⟨hm, he⟩ := hp k (List.mem_range.1 hk)
  have hk' : c.hits (pa + BitVec.ofNat 32 k) i = true := by
    rw [hits, he, hm]
    exact hi
  rw [← h.data _ _ hk', he]

/-! ### The bytes of a flat memory -/

theorem flatPut_one (F : Em.Bytes) (addr v : Word) :
    flatPut F addr 1 ((v.setWidth 8).setWidth 32) = Em.phyWritem8 F addr (v.setWidth 8) := by
  simp [flatPut, Em.phyWritem8]

theorem flatPut_two (F : Em.Bytes) (addr v : Word) :
    flatPut F addr 2 ((v.setWidth 16).setWidth 32) = Em.phyWritem16 F addr (v.setWidth 16) := by
  have h : (((v.setWidth 16).setWidth 32) >>> 8).setWidth 8 =
      ((v.setWidth 16) >>> 8).setWidth 8 := by
    apply BitVec.eq_of_getLsbD_eq
    intro i hi
    simp only [BitVec.getLsbD_setWidth, BitVec.getLsbD_ushiftRight]
    simp [show 8 + i < 32 by omega]
  simp [flatPut, Em.phyWritem16, Em.phyWritem8, List.range_succ, h]

theorem flatPut_four (F : Em.Bytes) (addr v : Word) :
    flatPut F addr 4 v = Em.phyWritem32 F addr v := by
  simp [flatPut, Em.phyWritem32, Em.phyWritem8, List.range_succ]

/-- The bytes of a read, put together. -/
def flatGet (F : Em.Bytes) (addr : Word) (n : ℕ) : Word :=
  (List.range n).foldl (fun r k => r ||| (F (addr + BitVec.ofNat 32 k)).setWidth 32 <<< (8 * k)) 0

theorem flatGet_one (F : Em.Bytes) (addr : Word) :
    (flatGet F addr 1).setWidth 8 = Em.phyReadm8 F addr := by
  simp [flatGet, Em.phyReadm8]

theorem flatGet_two (F : Em.Bytes) (addr : Word) :
    (flatGet F addr 2).setWidth 16 = Em.phyReadm16 F addr := by
  apply BitVec.eq_of_getLsbD_eq
  intro i hi
  simp only [flatGet, Em.phyReadm16, List.range_succ, List.range_zero, List.nil_append,
    List.foldl_append, List.foldl_cons, List.foldl_nil]
  simp
  by_cases h : i < 8
  · simp [h, hi]
  · simp [h, hi, Bool.or_comm]

theorem flatGet_four (F : Em.Bytes) (addr : Word) : flatGet F addr 4 = Em.phyReadm32 F addr := by
  show (((0#32 ||| (F (addr + 0#32)).setWidth 32 <<< 0) ||| (F (addr + 1)).setWidth 32 <<< 8) |||
    (F (addr + 2)).setWidth 32 <<< 16) ||| (F (addr + 3)).setWidth 32 <<< 24 = _
  rw [BitVec.add_zero, BitVec.shiftLeft_zero, BitVec.zero_or, Em.phyReadm32]
  generalize (F addr).setWidth 32 = b₀
  generalize (F (addr + 1)).setWidth 32 <<< 8 = b₁
  generalize (F (addr + 2)).setWidth 32 <<< 16 = b₂
  generalize (F (addr + 3)).setWidth 32 <<< 24 = b₃
  rw [BitVec.or_comm b₀, BitVec.or_comm (b₁ ||| b₀), ← BitVec.or_assoc, BitVec.or_comm _ b₃,
    ← BitVec.or_assoc, ← BitVec.or_assoc]

/-! ### A cache that is not enabled -/

/-- A bit of a byte of a word of two or four bytes. -/
theorem phyReadm16_getLsbD (F : Em.Bytes) (addr : Word) {i : ℕ} (hi : i < 16) :
    (Em.phyReadm16 F addr).getLsbD i = (F (addr + BitVec.ofNat 32 (i / 8))).getLsbD (i % 8) := by
  obtain h | h : i / 8 = 0 ∨ i / 8 = 1 := by omega
  · have h₁ : i < 8 := by omega
    simp [Em.phyReadm16, h, h₁, hi, Nat.mod_eq_of_lt h₁]
  · have h₁ : ¬ i < 8 := by omega
    have h₂ : i % 8 = i - 8 := by omega
    simp [Em.phyReadm16, h, h₁, h₂, hi, BitVec.getLsbD_of_ge _ i (by omega : 8 ≤ i)]

theorem phyReadm32_getLsbD (F : Em.Bytes) (addr : Word) {i : ℕ} (hi : i < 32) :
    (Em.phyReadm32 F addr).getLsbD i = (F (addr + BitVec.ofNat 32 (i / 8))).getLsbD (i % 8) := by
  have hge : ∀ (b : Byte) (k : ℕ), 8 ≤ k → b.getLsbD k = false :=
    fun b k hk => BitVec.getLsbD_of_ge b k hk
  obtain h | h | h | h : i / 8 = 0 ∨ i / 8 = 1 ∨ i / 8 = 2 ∨ i / 8 = 3 := by omega
  · have h₁ : i < 8 := by omega
    simp [Em.phyReadm32, h, hi, Nat.mod_eq_of_lt h₁, h₁, show i < 16 by omega, show i < 24 by omega]
  · have h₂ : i % 8 = i - 8 := by omega
    simp [Em.phyReadm32, h, hi, h₂,
      show ¬ i < 8 by omega, show i < 16 by omega, show i < 24 by omega, hge _ i (by omega)]
  · have h₂ : i % 8 = i - 16 := by omega
    simp [Em.phyReadm32, h, hi, h₂,
      show ¬ i < 8 by omega, show ¬ i < 16 by omega, show i < 24 by omega,
      hge _ i (by omega), hge _ (i - 8) (by omega)]
  · have h₂ : i % 8 = i - 24 := by omega
    simp [Em.phyReadm32, h, hi, h₂,
      show ¬ i < 8 by omega, show ¬ i < 16 by omega, show ¬ i < 24 by omega,
      hge _ i (by omega), hge _ (i - 8) (by omega), hge _ (i - 16) (by omega)]

theorem ram_split {b : Word} (h : m.ram b = true) : m.mapped b = false ∧ m.inDram b = true := by
  simpa [Memory.ram] using h

/-- Reads that go to memory. -/
theorem mem_read16 (h : ∀ k < 2, m.ram (pa + BitVec.ofNat 32 k) = true) :
    m.phyReadm16 pa = some (Em.phyReadm16 m.byteAt pa, m) := by
  obtain ⟨h₁, h₂⟩ := ram_split (by simpa using h 0 (by decide))
  obtain ⟨v, hv, hb⟩ := m.phyReadLe_getLsbD pa (by decide : 2 ≤ 8) h
  rw [Memory.phyReadm16, Memory.phyRead, h₁, h₂]
  simp only [Bool.false_eq_true, if_false, if_true, hv, Option.map_some]
  congr 2
  apply BitVec.eq_of_getLsbD_eq
  intro i hi
  rw [BitVec.getLsbD_setWidth, hb i (by omega), phyReadm16_getLsbD _ _ hi]
  simp [hi]

theorem mem_read32 (h : ∀ k < 4, m.ram (pa + BitVec.ofNat 32 k) = true) :
    m.phyReadm32 pa = some (Em.phyReadm32 m.byteAt pa, m) := by
  obtain ⟨h₁, h₂⟩ := ram_split (by simpa using h 0 (by decide))
  obtain ⟨v, hv, hb⟩ := m.phyReadLe_getLsbD pa (by decide : 4 ≤ 8) h
  rw [Memory.phyReadm32, Memory.phyRead, h₁, h₂]
  simp only [Bool.false_eq_true, if_false, if_true, hv, Option.map_some]
  congr 2
  apply BitVec.eq_of_getLsbD_eq
  intro i hi
  rw [BitVec.getLsbD_setWidth, hb i (by omega), phyReadm32_getLsbD _ _ hi]
  simp [hi]

theorem byteAt_setByte_eq (b : Word) (v : Byte) :
    (m.setByte b v).byteAt = Function.update m.byteAt b v := by
  funext a
  rw [Memory.byteAt_setByte, Function.update_apply]

/-- Writes that go to memory. -/
theorem mem_write16 (h : ∀ k < 2, m.ram (pa + BitVec.ofNat 32 k) = true) (v : BitVec 16) :
    ∃ m', m.phyWritem16 pa v = some m' ∧ (∀ b, m'.ram b = m.ram b) ∧
      m'.byteAt = Em.phyWritem16 m.byteAt pa v := by
  have h0 : m.ram pa = true := by simpa using h 0 (by decide)
  have h1 : m.ram (pa + 1) = true := h 1 (by decide)
  obtain ⟨h₁, h₂⟩ := ram_split h0
  refine ⟨(m.setByte pa (v.setWidth 8)).setByte (pa + 1) ((v >>> 8).setWidth 8), ?_,
    fun _ => rfl, ?_⟩
  · rw [Memory.phyWritem16, Memory.phyWrite, h₁, h₂]
    simp only [Bool.false_eq_true, if_false, if_true, m.phyWritem8_ram _ h0, Option.bind_eq_bind,
      Option.bind_some]
    exact (m.setByte pa _).phyWritem8_ram _ h1
  · rw [byteAt_setByte_eq, byteAt_setByte_eq]
    rfl

theorem mem_write32 (h : ∀ k < 4, m.ram (pa + BitVec.ofNat 32 k) = true) (v : Word) :
    ∃ m', m.phyWritem32 pa v = some m' ∧ (∀ b, m'.ram b = m.ram b) ∧
      m'.byteAt = Em.phyWritem32 m.byteAt pa v := by
  have h0 : m.ram pa = true := by simpa using h 0 (by decide)
  have h1 : m.ram (pa + 1) = true := h 1 (by decide)
  have h2 : m.ram (pa + 2) = true := h 2 (by decide)
  have h3 : m.ram (pa + 3) = true := h 3 (by decide)
  obtain ⟨h₁, h₂⟩ := ram_split h0
  refine ⟨(((m.setByte pa (v.setWidth 8)).setByte (pa + 1) ((v >>> 8).setWidth 8)).setByte (pa + 2)
    ((v >>> 16).setWidth 8)).setByte (pa + 3) ((v >>> 24).setWidth 8), ?_, fun b => ?_, ?_⟩
  · rw [Memory.phyWritem32, Memory.phyWrite, h₁, h₂]
    simp only [Bool.false_eq_true, if_false, if_true, m.phyWritem8_ram _ h0, Option.bind_eq_bind,
      Option.bind_some]
    rw [Memory.phyWritem8_ram _ _ (by simp only [Memory.ram_setByte, h1]), Option.bind_some,
      Memory.phyWritem8_ram _ _ (by simp only [Memory.ram_setByte, h2]), Option.bind_some]
    exact Memory.phyWritem8_ram _ _ (by simp only [Memory.ram_setByte, h3])
  · simp only [Memory.ram_setByte]
  · rw [byteAt_setByte_eq, byteAt_setByte_eq, byteAt_setByte_eq, byteAt_setByte_eq]
    rfl

/-- An aligned access to memory bytes. -/
theorem ram_access (hl : l + s < 32) {n j : ℕ} (hn : n = 2 ^ j) (hnl : n ≤ 2 ^ l)
    (ha : pa.toNat % n = 0) (hr : LineRam (l := l) m (maddr s l pa) (entryIdx s l pa)) :
    ∀ k < n, m.ram (pa + BitVec.ofNat 32 k) = true := by
  intro k hk
  obtain ⟨hm, he, -⟩ := parts_add (s := s) hl hn hnl ha hk
  have := hr (offset l (pa + BitVec.ofNat 32 k))
  rwa [← hm, ← he, linePaddr_add_offset hl] at this

/-! ### Every operation -/

/-- A cache that is not enabled has no lines: the memory is the flat memory. -/
theorem Flat.off_iff (hv : ∀ i e, c.cacheV i e = false)
    (hd : ∀ i e, c.cacheDirty e i = false) : Flat c m F ↔ m.byteAt = F := by
  constructor
  · intro h
    funext b
    exact h.mem b fun i hi => by simp [hits, hv] at hi
  · rintro rfl
    exact ⟨fun b i hi => by simp [hits, hv] at hi, fun _ _ => rfl, fun i e h => by simp [hd] at h,
      fun _ => hv⟩

/-- The form of the reads. -/
theorem read_flat {b : ℕ} (hl : l + s < 32) (ho : Ok c m) (h : Flat c m F) {n j : ℕ}
    (hn : n = 2 ^ j) (hnl : n ≤ 2 ^ l) (ha : pa.toNat % n = 0)
    (hr : LineRam (l := l) m (maddr s l pa) (entryIdx s l pa))
    {d : Memory δ → Option (BitVec b × Memory δ)} {v : BitVec b}
    (hv : (flatGet F pa n).setWidth b = v) (hdir : m.byteAt = F → d m = some (v, m)) :
    ∃ c' m', c.phyRead n d m pa = some (v, c', m') ∧ Ok c' m' ∧ Flat c' m' F ∧
      ∀ b, m'.ram b = m.ram b := by
  unfold EmCache.phyRead
  cases hen : c.enabled with
  | true =>
      obtain ⟨c', m', f, hacc, hok, hflat, hhit, -, hram, -⟩ := access_flat hl ho h hen hr false
      have hp : ∀ k < n, _ := fun k hk => parts_add (s := s) hl hn hnl ha hk
      refine ⟨c', m', ?_, hok, hflat, hram⟩
      simp only [if_true, ha, ne_eq, not_true_eq_false, if_false, hacc, Option.bind_eq_bind,
        Option.bind_some]
      rw [hflat.getBytes hhit fun k hk => ⟨(hp k hk).1, (hp k hk).2.1⟩, ← flatGet, hv]
  | false =>
      have hvd : ∀ i e, c.cacheDirty e i = false := by
        intro i e
        rw [Bool.eq_false_iff]
        intro hd
        have := h.valid i e hd
        rw [h.off hen] at this
        cases this
      refine ⟨c, m, ?_, ho, h, fun _ => rfl⟩
      rw [if_neg (by decide), hdir ((Flat.off_iff (h.off hen) hvd).1 h)]
      rfl

/-- The form of the writes. -/
theorem write_flat (hl : l + s < 32) (ho : Ok c m) (h : Flat c m F) {n j : ℕ} (hn : n = 2 ^ j)
    (hnl : n ≤ 2 ^ l) (ha : pa.toNat % n = 0)
    (hr : LineRam (l := l) m (maddr s l pa) (entryIdx s l pa)) {v : Word} {F' : Em.Bytes}
    {d : Memory δ → Option (Memory δ)} (hF : flatPut F pa n v = F')
    (hdir : m.byteAt = F → ∃ m', d m = some m' ∧ (∀ b, m'.ram b = m.ram b) ∧ m'.byteAt = F') :
    ∃ c' m', c.phyWrite n d m pa v = some (c', m') ∧ Ok c' m' ∧ Flat c' m' F' ∧
      ∀ b, m'.ram b = m.ram b := by
  unfold EmCache.phyWrite
  cases hen : c.enabled with
  | true =>
      obtain ⟨c', m', f, hacc, hok, hflat, hhit, hmark, hram, -⟩ := access_flat hl ho h hen hr true
      have hp : ∀ k < n, _ := fun k hk => parts_add (s := s) hl hn hnl ha hk
      obtain ⟨hok', hflat'⟩ := hflat.putBytes hl hok hhit (hmark rfl) v
        fun k hk => ⟨(hp k hk).1, (hp k hk).2.1⟩
      rw [hF] at hflat'
      refine ⟨_, m', ?_, hok', hflat', hram⟩
      simp only [if_true, ha, ne_eq, not_true_eq_false, if_false, hacc, Option.bind_eq_bind,
        Option.bind_some]
  | false =>
      have hvd : ∀ i e, c.cacheDirty e i = false := by
        intro i e
        rw [Bool.eq_false_iff]
        intro hd
        have := h.valid i e hd
        rw [h.off hen] at this
        cases this
      obtain ⟨m', hm', hram, hb⟩ := hdir ((Flat.off_iff (h.off hen) hvd).1 h)
      refine ⟨c, m', ?_, ho.congr hram, (Flat.off_iff (h.off hen) hvd).2 hb, hram⟩
      rw [if_neg (by decide), hm']
      rfl

/-- A marked line goes to memory and is clean. -/
theorem Flat.clean (h : Flat c m F) (hi : c.hits pa i = true) {m' : Memory δ}
    (hw : Written m m' (c.cacheAddr i (entryIdx s l pa)) (entryIdx s l pa)
      (c.lines i (entryIdx s l pa))) :
    Flat { c with cacheDirty := set2 c.cacheDirty (entryIdx s l pa) i false } m' F where
  data := h.data
  mem b hb := by
    have hin : c.hits b i = true ↔ maddr s l b = c.cacheAddr i (entryIdx s l b) ∧
        c.cacheV i (entryIdx s l b) = true := by
      simp only [hits, Bool.and_eq_true, decide_eq_true_eq]
      exact ⟨fun h => ⟨h.2.symm, h.1⟩, fun h => ⟨h.2, h.1.symm⟩⟩
    have hv : c.cacheV i (entryIdx s l pa) = true := by
      simp only [hits, Bool.and_eq_true] at hi
      exact hi.1
    by_cases hc : maddr s l b = c.cacheAddr i (entryIdx s l pa) ∧ entryIdx s l b = entryIdx s l pa
    · have hbi : c.hits b i = true := hin.2 (by rw [hc.2]; exact ⟨hc.1, hv⟩)
      rw [hw.inside b hc.1 hc.2, ← h.data b i hbi, hc.2]
    · rw [hw.outside b hc]
      refine h.mem b fun j hj => ?_
      have := hb j hj
      simp only [set2_apply] at this
      split at this
      · rename_i he
        rw [he.2] at hj
        exact absurd ⟨by rw [← he.1]; exact (hin.1 hj).1, he.1⟩ hc
      · exact this
  valid j e hd := by
    simp only [set2_apply] at hd
    split at hd
    · cases hd
    · exact h.valid j e hd
  off := h.off

theorem Ok.clean (h : Ok c m) (e : Fin (2 ^ s)) (i : Fin (2 ^ w)) :
    Ok { c with cacheDirty := set2 c.cacheDirty e i false } m := by
  have hvd : ∀ j d, c.cacheV j d = true ∨ set2 c.cacheDirty e i false d j = true →
      c.cacheV j d = true ∨ c.cacheDirty d j = true := by
    rintro j d (hv | hd)
    · exact Or.inl hv
    · rw [set2_apply] at hd
      split at hd
      · cases hd
      · exact Or.inr hd
  exact ⟨h.lru_lt, h.lru_inj, h.uniq, fun j d hj => h.tag j d (hvd j d hj),
    fun j d hj => h.ram j d (hvd j d hj)⟩

/-- A flush. -/
theorem flush_flat (hl : l + s < 32) (ho : Ok c m) (h : Flat c m F) (pa : Word) :
    ∃ c' m', c.flush m pa = some (c', m') ∧ Ok c' m' ∧ Flat c' m' F ∧ ∀ b, m'.ram b = m.ram b := by
  have hloop : ∀ (L : List (Fin (2 ^ w))) (c : EmCache w s l) (m : Memory δ), Ok c m → Flat c m F →
      ∃ c' m', L.foldlM (fun (r : EmCache w s l × Memory δ) i =>
        if r.1.hits pa i && r.1.cacheDirty (entryIdx s l pa) i then
          (writeback r.2 (linePaddr l (r.1.cacheAddr i (entryIdx s l pa)) (entryIdx s l pa))
            (r.1.lines i (entryIdx s l pa))).map fun m =>
              ({ r.1 with cacheDirty := set2 r.1.cacheDirty (entryIdx s l pa) i false }, m)
        else some r) (c, m) = some (c', m') ∧ Ok c' m' ∧ Flat c' m' F ∧ ∀ b,
          m'.ram b = m.ram b := by
    intro L
    induction L with
    | nil =>
        intro c m ho h
        exact ⟨c, m, rfl, ho, h, fun _ => rfl⟩
    | cons i L ih =>
        intro c m ho h
        rw [List.foldlM_cons]
        cases hc : c.hits pa i && c.cacheDirty (entryIdx s l pa) i with
        | false =>
            obtain ⟨c', m', hr, hrest⟩ := ih c m ho h
            refine ⟨c', m', ?_, hrest⟩
            exact hr
        | true =>
            obtain ⟨hi, hd⟩ := (Bool.and_eq_true _ _).mp hc
            obtain ⟨m₁, hm₁, hw⟩ := writeback_eq hl (ho.tag i _ (Or.inr hd))
              (ho.ram i _ (Or.inr hd)) (c.lines i (entryIdx s l pa))
            obtain ⟨c', m', hr, hok, hflat, hram⟩ := ih
              { c with cacheDirty := set2 c.cacheDirty (entryIdx s l pa) i false } m₁
              ((ho.clean _ _).congr hw.ram) (h.clean hi hw)
            refine ⟨c', m', ?_, hok, hflat, fun b => (hram b).trans (hw.ram b)⟩
            simp only [if_true, hm₁, Option.map_some]
            exact hr
  unfold EmCache.flush
  cases c.enabled with
  | true => exact hloop _ c m ho h
  | false => exact ⟨c, m, rfl, ho, h, fun _ => rfl⟩

/-- Every operation that fits keeps the cache and the memory at the flat memory. -/
theorem step_flat (hl : l + s < 32) (ho : Ok c m) (h : Flat c m F) {op : CacheOp}
    (hr : op.InRange s l m) (hs : op.Short l) (hk : op.Keeps) :
    ∃ c' m', step (c, m) op = some ((op.flat F).1, c', m') ∧ Ok c' m' ∧ Flat c' m' (op.flat F).2 ∧
      ∀ b, m'.ram b = m.ram b := by
  cases op with
  | read n addr =>
      cases n with
      | w8 =>
          have hram := ram_access hl (show 1 = 2 ^ 0 from rfl) hs hr.1 hr.2 0 (by decide)
          obtain ⟨c', m', he, hrest⟩ := read_flat hl ho h (show 1 = 2 ^ 0 from rfl) hs hr.1 hr.2
            (flatGet_one F addr) (d := fun m => m.phyReadm8 addr) fun hF => by
              rw [BitVec.add_zero] at hram
              rw [m.phyReadm8_ram hram, hF]
              rfl
          exact ⟨c', m', by simp only [step, phyReadm8]; rw [he]; rfl, hrest⟩
      | w16 =>
          obtain ⟨c', m', he, hrest⟩ := read_flat hl ho h (show 2 = 2 ^ 1 from rfl) hs hr.1 hr.2
            (flatGet_two F addr) (d := fun m => m.phyReadm16 addr) fun hF => by
              rw [← hF]
              exact mem_read16 (ram_access hl (show 2 = 2 ^ 1 from rfl) hs hr.1 hr.2)
          exact ⟨c', m', by simp only [step, phyReadm16]; rw [he]; rfl, hrest⟩
      | w32 =>
          obtain ⟨c', m', he, hrest⟩ := read_flat hl ho h (show 4 = 2 ^ 2 from rfl) hs hr.1 hr.2
            ((BitVec.setWidth_eq _).trans (flatGet_four F addr))
            (d := fun m => m.phyReadm32 addr) fun hF => by
              rw [← hF]
              exact mem_read32 (ram_access hl (show 4 = 2 ^ 2 from rfl) hs hr.1 hr.2)
          exact ⟨c', m', he, hrest⟩
  | write n addr v =>
      cases n with
      | w8 =>
          have hram := ram_access hl (show 1 = 2 ^ 0 from rfl) hs hr.1 hr.2 0 (by decide)
          obtain ⟨c', m', he, hrest⟩ := write_flat hl ho h (show 1 = 2 ^ 0 from rfl) hs hr.1 hr.2
            (flatPut_one F addr v) (d := fun m => m.phyWritem8 addr (v.setWidth 8)) fun hF => by
              rw [BitVec.add_zero] at hram
              refine ⟨_, m.phyWritem8_ram _ hram, fun _ => rfl, ?_⟩
              rw [byteAt_setByte_eq, hF]
              rfl
          exact ⟨c', m', by simp only [step, phyWritem8]; rw [he]; rfl, hrest⟩
      | w16 =>
          obtain ⟨c', m', he, hrest⟩ := write_flat hl ho h (show 2 = 2 ^ 1 from rfl) hs hr.1 hr.2
            (flatPut_two F addr v) (d := fun m => m.phyWritem16 addr (v.setWidth 16)) fun hF => by
              rw [← hF]
              exact mem_write16 (ram_access hl (show 2 = 2 ^ 1 from rfl) hs hr.1 hr.2) _
          exact ⟨c', m', by simp only [step, phyWritem16]; rw [he]; rfl, hrest⟩
      | w32 =>
          obtain ⟨c', m', he, hrest⟩ := write_flat hl ho h (show 4 = 2 ^ 2 from rfl) hs hr.1 hr.2
            (flatPut_four F addr v) (d := fun m => m.phyWritem32 addr v) fun hF => by
              rw [← hF]
              exact mem_write32 (ram_access hl (show 4 = 2 ^ 2 from rfl) hs hr.1 hr.2) _
          exact ⟨c', m', by simp only [step, phyWritem32]; rw [he]; rfl, hrest⟩
  | flush addr =>
      obtain ⟨c', m', he, hrest⟩ := flush_flat hl ho h addr
      exact ⟨c', m', by simp only [step]; rw [he]; rfl, hrest⟩
  | invalidate addr => exact absurd hk id

/-! ### Every run -/

theorem inRange_congr {m' : Memory δ} {op : CacheOp} (h : op.InRange s l m)
    (hr : ∀ b, m'.ram b = m.ram b) : op.InRange s l m' := by
  cases op with
  | read n addr => exact ⟨h.1, fun o => (hr _).trans (h.2 o)⟩
  | write n addr v => exact ⟨h.1, fun o => (hr _).trans (h.2 o)⟩
  | flush addr => trivial
  | invalidate addr => trivial

theorem run_flat_of (hl : l + s < 32) {ops : List CacheOp} (ho : Ok c m) (h : Flat c m F)
    (hops : ∀ op ∈ ops, op.InRange s l m ∧ op.Short l ∧ op.Keeps) :
    ∃ c' m', run (c, m) ops = some ((flatRun F ops).1, c', m') ∧ Flat c' m' (flatRun F ops).2 := by
  induction ops generalizing c m F with
  | nil => exact ⟨c, m, rfl, h⟩
  | cons op ops ih =>
      obtain ⟨hr, hs, hk⟩ := hops op List.mem_cons_self
      obtain ⟨c₁, m₁, hstep, ho₁, h₁, hram⟩ := step_flat hl ho h hr hs hk
      obtain ⟨c', m', hrun, hflat⟩ := ih ho₁ h₁ fun op' hop' =>
        ⟨inRange_congr (hops op' (List.mem_cons_of_mem _ hop')).1 hram,
          (hops op' (List.mem_cons_of_mem _ hop')).2⟩
      refine ⟨c', m', ?_, hflat⟩
      simp only [run, hstep, hrun, Option.bind_eq_bind, Option.bind_some]
      rfl

/-- **The caches refine a flat memory.**  From a fresh cache on, every sequence of reads, writes and
flushes answers what a flat memory answers, and the memory overlaid with the marked lines is that
flat memory. -/
theorem run_flat (hl : l + s < 32) (hc : c.Fresh) (ops : List CacheOp)
    (hops : ∀ op ∈ ops, op.InRange s l m ∧ op.Short l ∧ op.Keeps) :
    ∃ c' m', run (c, m) ops = some ((flatRun m.byteAt ops).1, c', m') ∧
      c'.overlay m' = (flatRun m.byteAt ops).2 := by
  obtain ⟨c', m', hrun, hflat⟩ := run_flat_of hl hc.ok hc.flat hops
  exact ⟨c', m', hrun, hflat.overlay⟩

/-- A cache as the constructor leaves it. -/
def fresh (w s l : ℕ) : EmCache w s l where
  enabled := true
  cacheV _ _ := false
  cacheDirty _ _ := false
  cacheLru i _ := i.val
  cacheAddr _ _ := 0
  lines _ _ _ := 0

theorem fresh_fresh (w s l : ℕ) : (fresh w s l).Fresh :=
  ⟨fun _ _ => rfl, fun _ _ => rfl, fun _ _ => rfl⟩

/-- A store, a load of a part of it, and a flush, in a cache of two ways, two sets and lines of four
bytes. -/
theorem run_flat_three : ∃ c' m', run (fresh 1 1 2, Memory.small)
      [.write .w32 0x80000000 0x04030201, .read .w16 0x80000002, .flush 0x80000000] =
        some ([0, 0x0403, 0], c', m') ∧
      c'.overlay m' = Em.phyWritem32 Memory.small.byteAt 0x80000000 0x04030201 := by
  have h := run_flat (m := Memory.small) (by decide) (fresh_fresh 1 1 2)
    [.write .w32 0x80000000 0x04030201, .read .w16 0x80000002, .flush 0x80000000] (by
      intro op hop
      simp only [List.mem_cons, List.not_mem_nil, or_false] at hop
      rcases hop with rfl | rfl | rfl
      · exact ⟨⟨by decide, by unfold LineRam; decide⟩, by unfold CacheOp.Short; decide, trivial⟩
      · exact ⟨⟨by decide, by unfold LineRam; decide⟩, by unfold CacheOp.Short; decide, trivial⟩
      · exact ⟨trivial, trivial, trivial⟩)
  exact h

/-- In a line of two bytes the bytes of a word overwrite each other. -/
theorem short_line_wraps : ¬ ∀ (w s l : ℕ) (δ : Type) (c : EmCache w s l) (m : Memory δ)
    (ops : List CacheOp), l + s < 32 → c.Fresh → (∀ op ∈ ops, op.InRange s l m ∧ op.Keeps) →
      ∃ c' m', run (c, m) ops = some ((flatRun m.byteAt ops).1, c', m') ∧
        c'.overlay m' = (flatRun m.byteAt ops).2 := by
  intro h
  obtain ⟨c', m', hrun, -⟩ := h 0 0 1 Unit (fresh 0 0 1) Memory.small
    [.write .w32 0x80000000 0x04030201, .read .w32 0x80000000] (by decide) (fresh_fresh 0 0 1) (by
      intro op hop
      simp only [List.mem_cons, List.not_mem_nil, or_false] at hop
      rcases hop with rfl | rfl
      · exact ⟨⟨by decide, by unfold LineRam; decide⟩, trivial⟩
      · exact ⟨⟨by decide, by unfold LineRam; decide⟩, trivial⟩)
  have hv : (run (fresh 0 0 1, Memory.small)
      [.write .w32 0x80000000 0x04030201, .read .w32 0x80000000]).map (fun r => r.1) =
        some [0, 0x04030403] := by decide +kernel
  rw [hrun, Option.map_some] at hv
  have hflat : (flatRun Memory.small.byteAt
      [.write .w32 0x80000000 0x04030201, .read .w32 0x80000000]).1 = [0, 0x04030403] :=
        Option.some.inj hv
  exact absurd hflat (by decide +kernel)

end EmCache

end NanoCpu
