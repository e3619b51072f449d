/-
**The replacement state of the caches of the emulator** (`em/csrc/cache.cc`).

The constructor gives the ways of every set the ages `0, 1, …`, and every access makes the way that
it uses the youngest and moves those that were younger down by one.  So the ages stay a permutation;
the way of age zero, the victim of a miss, is the one whose last use is the longest ago.

Main definitions:

* `EmCache.Constructed` — the valid flags and the ages are as the constructor leaves them;
* `EmCache.track`, `EmCache.tracked` — a run with a history beside it;
* `EmCache.Uses` — when each way was last used;
* `EmCache.Lru` — the order of the ages is the order of the last uses.

Main results:

* `EmCache.step_read`, `EmCache.step_write`, `EmCache.flush_cases` — what an operation has done if
  it did not end the program;
* `EmCache.Lru.step` — one operation;
* `EmCache.replacement` — **in every reachable state the ages are a permutation, a line is in one
  way at most, no assertion fails, and the victim is the least recently used way**.
-/

import NanoCpu.EmCacheFlat

set_option relaxedAutoImplicit false
set_option autoImplicit false

namespace NanoCpu

namespace EmCache

variable {w s l : ℕ} {δ : Type}

/-- No line is valid, and the ages are those of the constructor. -/
structure Constructed (c : EmCache w s l) : Prop where
  v : ∀ i e, c.cacheV i e = false
  lru : ∀ i e, c.cacheLru i e = i.val

/-! ### Histories -/

section History

variable {σ ω η : Type*} (f : σ → ω → Option σ) (upd : η → σ → ω → η)

/-- An operation that may end the program, and what it adds to a history. -/
def track (q : σ × η) (op : ω) : Option (σ × η) := (f q.1 op).map fun r => (r, upd q.2 q.1 op)

/-- The operations one after the other, beside the history. -/
def tracked (q : σ × η) (ops : List ω) : Option (σ × η) := ops.foldlM (track f upd) q

variable {f upd}

theorem tracked_cons (q : σ × η) (op : ω) (ops : List ω) :
    tracked f upd q (op :: ops) = (track f upd q op).bind fun q => tracked f upd q ops := rfl

/-- The rule for what holds all along a run. -/
theorem tracked_inv {P : σ × η → Prop} {ops : List ω}
    (hs : ∀ q op q', op ∈ ops → P q → track f upd q op = some q' → P q') {q q' : σ × η} (hq : P q)
    (h : tracked f upd q ops = some q') : P q' := by
  induction ops generalizing q with
  | nil => exact Option.some.inj h ▸ hq
  | cons op ops ih =>
      rw [tracked_cons, Option.bind_eq_some_iff] at h
      obtain ⟨q₁, hq₁, h⟩ := h
      exact ih (fun q op q' hop => hs q op q' (List.mem_cons_of_mem _ hop))
        (hs q op q₁ List.mem_cons_self hq hq₁) h

/-- If an operation keeps `P` exactly when it meets `ok`, then `P` holds all along a run exactly if
every operation of it that does not end the program meets `ok`. -/
theorem tracked_iff {I P : σ × η → Prop} {ok : σ × η → ω → Prop} {ops : List ω}
    (hI : ∀ q op q', op ∈ ops → I q → track f upd q op = some q' → I q')
    (hs : ∀ q op q', op ∈ ops → I q → P q → track f upd q op = some q' → (P q' ↔ ok q op))
    {q : σ × η} (hi : I q) (hp : P q) :
    (∀ k q', tracked f upd q (ops.take k) = some q' → P q') ↔
      ∀ k op q₁ q₂, ops[k]? = some op → tracked f upd q (ops.take k) = some q₁ →
        track f upd q₁ op = some q₂ → ok q₁ op := by
  induction ops generalizing q with
  | nil =>
      refine iff_of_true (fun k q' h => ?_) (by simp)
      rw [List.take_nil] at h
      exact Option.some.inj h ▸ hp
  | cons op ops ih =>
      have hrest : ∀ q₁, track f upd q op = some q₁ → P q₁ → _ := fun q₁ h₁ hp₁ =>
        ih (fun q op q' hop => hI q op q' (List.mem_cons_of_mem _ hop))
          (fun q op q' hop => hs q op q' (List.mem_cons_of_mem _ hop))
          (hI q op q₁ List.mem_cons_self hi h₁) hp₁
      constructor
      · intro h k op' q₁ q₂ hop h₁ h₂
        cases k with
        | zero =>
            obtain rfl : op = op' := by simpa using hop
            obtain rfl : q = q₁ := Option.some.inj h₁
            exact (hs q op q₂ List.mem_cons_self hi hp h₂).1 (h 1 q₂ (by simp [h₂, tracked]))
        | succ k =>
            rw [List.take_succ_cons, tracked_cons, Option.bind_eq_some_iff] at h₁
            obtain ⟨q₀, h₀, h₁⟩ := h₁
            have hp₀ : P q₀ := h 1 q₀ (by simp [h₀, tracked])
            refine (hrest q₀ h₀ hp₀).1 (fun j q' hq' => h (j + 1) q' ?_) k op' q₁ q₂ hop h₁ h₂
            rw [List.take_succ_cons, tracked_cons, h₀]
            exact hq'
      · intro h k q' hq'
        cases k with
        | zero => exact Option.some.inj hq' ▸ hp
        | succ k =>
            rw [List.take_succ_cons, tracked_cons, Option.bind_eq_some_iff] at hq'
            obtain ⟨q₀, h₀, hq'⟩ := hq'
            have hp₀ : P q₀ := (hs q op q₀ List.mem_cons_self hi hp h₀).2 (h 0 op q q₀ rfl rfl h₀)
            refine (hrest q₀ h₀ hp₀).2 (fun j op' q₁ q₂ hop h₁ => h (j + 1) op' q₁ q₂ hop ?_) k q'
              hq'
            rw [List.take_succ_cons, tracked_cons, h₀]
            exact h₁

end History

/-- The cache and the memory after an operation. -/
def exec (r : EmCache w s l × Memory δ) (op : CacheOp) : Option (EmCache w s l × Memory δ) :=
  (step r op).map fun q => q.2

/-- The way that an operation uses. -/
def usedWay (r : EmCache w s l × Memory δ) : CacheOp → Option (Fin (2 ^ w) × Fin (2 ^ s))
  | .read _ addr =>
      if r.1.enabled then (r.1.access r.2 addr false).map fun q =>
      (q.2.2, entryIdx s l addr) else none
  | .write _ addr _ =>
      if r.1.enabled then (r.1.access r.2 addr true).map fun q =>
      (q.2.2, entryIdx s l addr) else none
  | .flush _ => none
  | .invalidate _ => none

/-- The time, and when each way was last used. -/
structure Uses (w s : ℕ) where
  clock : ℕ
  last : Fin (2 ^ w) → Fin (2 ^ s) → ℕ

/-- In the beginning the ways count as used in their order. -/
def Uses.start (w s : ℕ) : Uses w s := ⟨2 ^ w, fun i _ => i.val⟩

def Uses.after (u : Uses w s) (r : EmCache w s l × Memory δ) (op : CacheOp) : Uses w s :=
  match usedWay r op with
  | some a => ⟨u.clock + 1, set2 u.last a.1 a.2 u.clock⟩
  | none => u

/-- The cache is in order, and older ways were used longer ago. -/
structure Lru (c : EmCache w s l) (u : Uses w s) : Prop where
  aged : Aged c
  last_lt : ∀ i e, u.last i e < u.clock
  order : ∀ e i j, c.cacheLru i e < c.cacheLru j e ↔ u.last i e < u.last j e

variable {c c' : EmCache w s l} {m m' : Memory δ} {u : Uses w s} {pa : Word} {i : Fin (2 ^ w)}

theorem Constructed.lru_start (h : Constructed c) : Lru c (Uses.start w s) where
  aged := by
    refine ⟨fun i e => by rw [h.lru]; exact i.isLt, fun e i j hij => ?_, fun e i j hi => ?_⟩
    · rw [h.lru, h.lru] at hij
      exact Fin.ext hij
    · rw [h.v] at hi
      cases hi
  last_lt i _ := i.isLt
  order e i j := by rw [h.lru, h.lru]; rfl

/-! ### What an operation has done -/

theorem step_off (hen : c.enabled = false) {op : CacheOp} {v : Word}
    (h : step (c, m) op = some (v, c', m')) : c' = c := by
  cases op with
  | read n addr =>
      cases n <;>
        simp only [step, phyReadm8, phyReadm16, phyReadm32, phyRead, hen,
          Bool.false_eq_true, if_false,
          Option.map_map, Option.map_eq_some_iff, Function.comp_apply, Prod.mk.injEq] at h <;>
        obtain ⟨_, _, _, rfl, _⟩ := h <;> rfl
  | write n addr v =>
      cases n <;>
        simp only [step, phyWritem8, phyWritem16, phyWritem32, phyWrite, hen,
          Bool.false_eq_true, if_false,
          Option.map_map, Option.map_eq_some_iff, Function.comp_apply, Prod.mk.injEq] at h <;>
        obtain ⟨_, _, _, rfl, _⟩ := h <;> rfl
  | flush addr =>
      simp only [step, flush, hen, Bool.false_eq_true, if_false, Option.map_some, Option.some.injEq,
        Prod.mk.injEq] at h
      exact h.2.1.symm
  | invalidate addr =>
      simp only [step, invalidate, hen, Bool.false_eq_true, if_false, Option.some.injEq,
        Prod.mk.injEq] at h
      exact h.2.1.symm

theorem phyRead_eq_some {b n : ℕ} {direct : Memory δ → Option (BitVec b × Memory δ)} {v : BitVec b}
    (hen : c.enabled = true) (h : c.phyRead n direct m pa = some (v, c', m')) :
    ∃ i, c.access m pa false = some (c', m', i) := by
  unfold phyRead at h
  rw [if_pos hen] at h
  split at h
  · cases h
  · obtain ⟨⟨c₁, m₁, i⟩, hacc, h⟩ := Option.bind_eq_some_iff.1 h
    cases h
    exact ⟨i, hacc⟩

theorem phyWrite_eq_some {n : ℕ} {direct : Memory δ → Option (Memory δ)} {v : Word}
    (hen : c.enabled = true) (h : c.phyWrite n direct m pa v = some (c', m')) :
    ∃ c₁ i, c.access m pa true = some (c₁, m', i) ∧ c' = c₁.putBytes i pa n v := by
  unfold phyWrite at h
  rw [if_pos hen] at h
  split at h
  · cases h
  · obtain ⟨⟨c₁, m₁, i⟩, hacc, h⟩ := Option.bind_eq_some_iff.1 h
    cases h
    exact ⟨c₁, i, hacc, rfl⟩

theorem step_read (hen : c.enabled = true) {n : AccessWidth} {v : Word}
    (h : step (c, m) (.read n pa) = some (v, c', m')) :
    ∃ i, c.access m pa false = some (c', m', i) := by
  cases n with
  | w8 =>
      obtain ⟨⟨x, c₁, m₁⟩, hr, heq⟩ := Option.map_eq_some_iff.1 h
      cases heq
      exact phyRead_eq_some hen hr
  | w16 =>
      obtain ⟨⟨x, c₁, m₁⟩, hr, heq⟩ := Option.map_eq_some_iff.1 h
      cases heq
      exact phyRead_eq_some hen hr
  | w32 =>
      have hr : c.phyRead 4 (fun m => m.phyReadm32 pa) m pa = some (v, c', m') := h
      exact phyRead_eq_some hen hr

theorem step_write (hen : c.enabled = true) {n : AccessWidth} {v x : Word}
    (h : step (c, m) (.write n pa v) = some (x, c', m')) :
    ∃ c₁ i y, c.access m pa true = some (c₁, m', i) ∧ c' = c₁.putBytes i pa n.bytes y := by
  cases n <;>
  · obtain ⟨⟨c₁, m₁⟩, hr, heq⟩ := Option.map_eq_some_iff.1 h
    cases heq
    obtain ⟨c₁, i, hacc, hc⟩ := phyWrite_eq_some hen hr
    exact ⟨c₁, i, _, hacc, hc⟩

/-- The dirty flags without those of the ways that hold the line. -/
def flushed (c : EmCache w s l) (pa : Word) : Fin (2 ^ s) → Fin (2 ^ w) → Bool := fun e i =>
  if e = entryIdx s l pa ∧ c.hits pa i = true then false else c.cacheDirty e i

/-- What a flush has done, and a property of the memory that its write-backs keep. -/
theorem flush_cases {Q : Memory δ → Prop} (hen : c.enabled = true)
    (hQ : ∀ i m m', c.hits pa i = true → c.cacheDirty (entryIdx s l pa) i = true → Q m →
      writeback m (linePaddr l (c.cacheAddr i (entryIdx s l pa)) (entryIdx s l pa))
        (c.lines i (entryIdx s l pa)) = some m' → Q m')
    (h : c.flush m pa = some (c', m')) (hm : Q m) :
    c' = { c with cacheDirty := c.flushed pa } ∧ Q m' := by
  have hloop : ∀ (L : List (Fin (2 ^ w))) (d : Fin (2 ^ s) → Fin (2 ^ w) → Bool) (m₁ : Memory δ),
      (∀ i, d (entryIdx s l pa) i = true → c.cacheDirty (entryIdx s l pa) i = true) → Q m₁ →
      L.foldlM (fun (r : EmCache w s l × Memory δ) i =>
        if r.1.hits pa i && r.1.cacheDirty (entryIdx s l pa) i then
          (writeback r.2 (linePaddr l (r.1.cacheAddr i (entryIdx s l pa)) (entryIdx s l pa))
            (r.1.lines i (entryIdx s l pa))).map fun m =>
              ({ r.1 with cacheDirty := set2 r.1.cacheDirty (entryIdx s l pa) i false }, m)
        else some r) ({ c with cacheDirty := d }, m₁) = some (c', m') →
      c' = { c with cacheDirty := fun e i =>
        if e = entryIdx s l pa ∧ i ∈ L ∧ c.hits pa i = true then false else d e i } ∧ Q m' := by
    intro L
    induction L with
    | nil =>
        intro d m₁ _ hm h
        cases h
        simp [hm]
    | cons i L ih =>
        intro d m₁ hd hm h
        rw [List.foldlM_cons] at h
        obtain ⟨⟨c₂, m₂⟩, hstep, h⟩ := Option.bind_eq_some_iff.1 h
        have hh : { c with cacheDirty := d : EmCache w s l }.hits pa i = c.hits pa i := rfl
        dsimp only at hstep
        rw [hh] at hstep
        split at hstep
        · -- the line is written back
          rename_i hc
          rw [Bool.and_eq_true] at hc
          obtain ⟨m₃, hw, heq⟩ := Option.map_eq_some_iff.1 hstep
          cases heq
          obtain ⟨rfl, hm'⟩ := ih (set2 d (entryIdx s l pa) i false) m₂
            (fun j hj => by
              simp only [set2_apply] at hj
              split at hj
              · cases hj
              · exact hd j hj)
            (hQ i m₁ m₂ hc.1 (hd i hc.2) hm hw) h
          refine ⟨?_, hm'⟩
          congr 1
          funext e j
          simp only [set2_apply, List.mem_cons]
          by_cases hj : j = i
          · subst hj
            by_cases he : e = entryIdx s l pa
            · simp [he, hc.1]
            · simp [he]
          · simp [hj]
        · rename_i hc
          cases hstep
          obtain ⟨rfl, hm'⟩ := ih d m₁ hd hm h
          refine ⟨?_, hm'⟩
          congr 1
          funext e j
          simp only [List.mem_cons]
          by_cases hj : j = i
          · subst hj
            by_cases he : e = entryIdx s l pa
            · subst he
              cases hb : c.hits pa j with
              | false => simp
              | true =>
                  have hdj : d (entryIdx s l pa) j = false := by simpa [hb] using hc
                  simp [hdj]
            · simp [he]
          · simp [hj]
  unfold flush at h
  rw [if_pos hen] at h
  obtain ⟨rfl, hm'⟩ := hloop _ c.cacheDirty m (fun _ => id) hm h
  refine ⟨?_, hm'⟩
  congr 1
  funext e i
  simp only [flushed, List.mem_finRange, true_and]

theorem flush_eq (hen : c.enabled = true) (h : c.flush m pa = some (c', m')) :
    c' = { c with cacheDirty := c.flushed pa } :=
  (flush_cases (Q := fun _ => True) hen (fun _ _ _ _ _ _ _ => trivial) h trivial).1

/-! ### One operation -/

theorem Aged.congr (h : Aged c) (hl : c'.cacheLru = c.cacheLru) (hv : c'.cacheV = c.cacheV)
    (ha : c'.cacheAddr = c.cacheAddr) : Aged c' :=
  ⟨by rw [hl]; exact h.lru_lt, by rw [hl]; exact h.lru_inj, by rw [hv, ha]; exact h.uniq⟩

theorem Aged.access (h : Aged c) {st : Bool} (ha : c.access m pa st = some (c', m', i)) :
    Aged c' := by
  rcases h.access_cases ha with ⟨hi, rfl, -⟩ | ⟨hn, -, m₁, line, -, -, rfl⟩
  · exact h.touch hi st
  · exact (h.fill hn i line).touch (i := i) (by simp [hits_fill]) st

theorem Aged.step (h : Aged c) {op : CacheOp} {v : Word} (hs : step (c, m) op = some (v, c', m')) :
    Aged c' := by
  cases hen : c.enabled with
  | false => exact step_off hen hs ▸ h
  | true =>
      cases op with
      | read n addr =>
          obtain ⟨i, ha⟩ := step_read hen hs
          exact h.access ha
      | write n addr x =>
          obtain ⟨c₁, i, y, ha, rfl⟩ := step_write hen hs
          exact (h.access ha).congr rfl rfl rfl
      | flush addr =>
          obtain ⟨⟨c₁, m₁⟩, hf, heq⟩ := Option.map_eq_some_iff.1 hs
          cases heq
          rw [flush_eq hen hf]
          exact h.congr rfl rfl rfl
      | invalidate addr =>
          cases hs
          refine ⟨?_, ?_, ?_⟩
          · simpa [EmCache.invalidate, hen] using h.lru_lt
          · simpa [EmCache.invalidate, hen] using h.lru_inj
          · intro e i j hi hj hij
            simp only [EmCache.invalidate, hen, if_true] at hi hj hij
            split at hi
            · cases hi
            · rename_i he
              rw [if_neg he] at hj
              exact h.uniq e i j hi hj hij

/-- An access to the way `i`: it becomes the youngest, and it was used last. -/
theorem Lru.access (h : Lru c u) {st : Bool} (ha : c.access m pa st = some (c', m', i)) :
    Lru c' ⟨u.clock + 1, set2 u.last i (entryIdx s l pa) u.clock⟩ := by
  have hlru : ∀ j e, c'.cacheLru j e =
      if e = entryIdx s l pa then
        if j = i then 2 ^ w - 1 else c.cacheLru j e - if c.cacheLru i e < c.cacheLru j e then 1 else
          0
      else c.cacheLru j e := by
    intro j e
    rcases h.aged.access_cases ha with ⟨hi, rfl, -⟩ | ⟨hn, -, m₁, line, -, -, rfl⟩
    · exact h.aged.touch_lru hi st j e
    · exact (h.aged.fill hn i line).touch_lru (i := i) (by simp [hits_fill]) st j e
  refine ⟨h.aged.access ha, fun j e => ?_, fun e j k => ?_⟩
  · have := h.last_lt j e
    simp only [set2_apply]
    split <;> omega
  · have ho := h.order e
    have hj := h.aged.lru_lt j e
    have hk := h.aged.lru_lt k e
    have hi := h.aged.lru_lt i e
    have hlj := h.last_lt j e
    have hlk := h.last_lt k e
    simp only [set2_apply, hlru]
    by_cases he : e = entryIdx s l pa
    · rw [if_pos he, if_pos he]
      by_cases h₁ : j = i
      · -- the way just used is the youngest
        rw [if_pos h₁, if_pos (show j = i ∧ e = entryIdx s l pa from ⟨h₁, he⟩)]
        by_cases h₂ : k = i
        · rw [if_pos h₂, if_pos (show k = i ∧ e = entryIdx s l pa from ⟨h₂, he⟩)]
          simp
        · rw [if_neg h₂, if_neg (show ¬ (k = i ∧ e = entryIdx s l pa) from fun hc => h₂ hc.1)]
          refine iff_of_false ?_ (by omega)
          split <;> omega
      · have hne : c.cacheLru j e ≠ c.cacheLru i e := fun heq => h₁ (h.aged.lru_inj e j i heq)
        rw [if_neg h₁, if_neg (show ¬ (j = i ∧ e = entryIdx s l pa) from fun hc => h₁ hc.1)]
        by_cases h₂ : k = i
        · rw [if_pos h₂, if_pos (show k = i ∧ e = entryIdx s l pa from ⟨h₂, he⟩)]
          refine iff_of_true ?_ hlj
          split <;> omega
        · have hne' : c.cacheLru k e ≠ c.cacheLru i e := fun heq => h₂ (h.aged.lru_inj e k i heq)
          rw [if_neg h₂, if_neg (show ¬ (k = i ∧ e = entryIdx s l pa) from fun hc => h₂ hc.1),
            ← ho j k]
          split <;> split <;> omega
    · rw [if_neg he, if_neg he, if_neg
        (show ¬ (j = i ∧ e = entryIdx s l pa) from fun hc => he hc.2),
        if_neg (show ¬ (k = i ∧ e = entryIdx s l pa) from fun hc => he hc.2)]
      exact ho j k

theorem Lru.congr (h : Lru c u) (ha : Aged c') (hl : c'.cacheLru = c.cacheLru) : Lru c' u :=
  ⟨ha, h.last_lt, by rw [hl]; exact h.order⟩

/-- One operation, with the uses of the ways. -/
theorem Lru.step (h : Lru c u) {op : CacheOp} {v : Word} (hs : step (c, m) op = some (v, c', m')) :
    Lru c' (u.after (c, m) op) := by
  have hoff : c.enabled = false → usedWay (c, m) op = none := by
    intro hen
    cases op <;> simp [usedWay, hen]
  cases hen : c.enabled with
  | false =>
      rw [step_off hen hs, Uses.after, hoff hen]
      exact h
  | true =>
      cases op with
      | read n addr =>
          obtain ⟨i, ha⟩ := step_read hen hs
          simpa [Uses.after, usedWay, hen, ha] using h.access ha
      | write n addr x =>
          obtain ⟨c₁, i, y, ha, rfl⟩ := step_write hen hs
          have hput : Lru (c₁.putBytes i addr n.bytes y)
              ⟨u.clock + 1, set2 u.last i (entryIdx s l addr) u.clock⟩ :=
            (h.access ha).congr ((h.access ha).aged.congr rfl rfl rfl) rfl
          simpa [Uses.after, usedWay, hen, ha] using hput
      | flush addr =>
          refine h.congr (h.aged.step hs) ?_
          obtain ⟨⟨c₁, m₁⟩, hf, heq⟩ := Option.map_eq_some_iff.1 hs
          cases heq
          rw [flush_eq hen hf]
      | invalidate addr =>
          refine h.congr (h.aged.step hs) ?_
          cases hs
          simp [EmCache.invalidate, hen]

/-! ### Every run -/

theorem lru_of_run (hc : Constructed c) {ops : List CacheOp}
    (h : tracked exec Uses.after ((c, m), Uses.start w s) ops = some ((c', m'), u)) : Lru c' u := by
  refine tracked_inv (P := fun q => Lru q.1.1 q.2) (fun q op q' _ hq hstep => ?_) hc.lru_start h
  obtain ⟨r, hr, rfl⟩ := Option.map_eq_some_iff.1 hstep
  obtain ⟨⟨v, r⟩, hs, rfl⟩ := Option.map_eq_some_iff.1 hr
  exact hq.step hs

/-- The ages of a set as a permutation. -/
theorem Aged.perm (h : Aged c) (e : Fin (2 ^ s)) :
    ∃ σ : Equiv.Perm (Fin (2 ^ w)), ∀ i, c.cacheLru i e = σ i := by
  have hinj : Function.Injective fun i => (⟨c.cacheLru i e, h.lru_lt i e⟩ : Fin (2 ^ w)) :=
    fun i j hij => h.lru_inj e i j (congrArg Fin.val hij)
  exact ⟨Equiv.ofBijective _ (Finite.injective_iff_bijective.1 hinj), fun i => rfl⟩

/-- The line is found when it was looked for. -/
theorem Aged.found (h : Aged c) {q : EmCache w s l × Memory δ}
    (hq : (if (List.finRange (2 ^ w)).any (c.hits pa) then some (c, m) else c.replace m pa) =
      some q) : lastWay (q.1.hits pa) ≠ none := by
  cases hany : (List.finRange (2 ^ w)).any (c.hits pa) with
  | true =>
      obtain ⟨i, -, hi⟩ := List.any_eq_true.1 hany
      rw [hany, if_pos rfl] at hq
      cases hq
      rw [lastWay_eq hi fun j hj => h.hits_uniq hi hj]
      nofun
  | false =>
      rw [hany, if_neg (by simp)] at hq
      obtain ⟨f, hacc⟩ : ∃ f, q.1.hits pa f = true := by
        obtain ⟨f, -, hrep⟩ := h.replace_eq m pa
        rw [hrep] at hq
        obtain ⟨m₁, -, hq⟩ := Option.bind_eq_some_iff.1 hq
        obtain ⟨⟨line, m₂⟩, -, rfl⟩ := Option.map_eq_some_iff.1 hq
        exact ⟨f, by simp [hits_fill]⟩
      rw [lastWay, Ne, List.getLast?_eq_none_iff]
      exact List.ne_nil_of_mem (List.mem_filter.2 ⟨List.mem_finRange f, hacc⟩)

/-- **The replacement state.**  In every geometry and every state that a sequence of reads, writes,
flushes and invalidations reaches from the ages of the constructor: the ages of a set are a
permutation; a line is in one way at most; one way of a set has age zero, and it is the one that was
used the longest ago; and none of the assertions on `hit`, `free_way_idx` and `hit_way` fails. -/
theorem replacement (hc : Constructed c) {ops : List CacheOp}
    (h : tracked exec Uses.after ((c, m), Uses.start w s) ops = some ((c', m'), u)) :
    (∀ e, ∃ σ : Equiv.Perm (Fin (2 ^ w)), ∀ i, c'.cacheLru i e = σ i) ∧
    (∀ pa i j, c'.hits pa i = true → c'.hits pa j = true → i = j) ∧
    (∀ e, ∃ f, lastWay (c'.sfree e) = some f ∧ (∀ j, c'.sfree e j = true ↔ j = f) ∧
      ∀ j, j ≠ f → u.last f e < u.last j e) ∧
    (∀ pa, (List.finRange (2 ^ w)).countP (c'.hits pa) ≤ 1) ∧
    (∀ pa (m₀ : Memory δ) q, (if (List.finRange (2 ^ w)).any (c'.hits pa) then some (c', m₀)
      else c'.replace m₀ pa) = some q → lastWay (q.1.hits pa) ≠ none) := by
  have hl := lru_of_run hc h
  refine ⟨hl.aged.perm, fun pa i j hi hj => hl.aged.hits_uniq hj hi, fun e => ?_, fun pa => ?_,
    fun pa m₀ q hq => hl.aged.found hq⟩
  · obtain ⟨f, hf, hlast, -⟩ := hl.aged.free e
    have hu : ∀ j, c'.sfree e j = true ↔ j = f := by
      intro j
      rw [sfree, decide_eq_true_eq]
      constructor
      · intro hj
        exact hl.aged.lru_inj e j f (hj.trans hf.symm)
      · rintro rfl
        exact hf
    refine ⟨f, hlast, hu, fun j hj => (hl.order e f j).1 ?_⟩
    have : c'.cacheLru j e ≠ c'.cacheLru f e := fun heq => hj (hl.aged.lru_inj e j f heq)
    omega
  · exact Nat.not_lt.1 (countP_hits_le fun i j hi hj => hl.aged.hits_uniq hj hi)

/-- Three loads of lines that share the set of a cache of two ways: the first line is evicted. -/
theorem replacement_three : ∃ c' m' u, tracked exec Uses.after
    ((fresh 1 1 2, Memory.small), Uses.start 1 1)
      [.read .w32 0x80000000, .read .w32 0x80000010, .read .w32 0x80000020] = some ((c', m'), u) ∧
    ∀ e, ∃ f, lastWay (c'.sfree e) = some f ∧ ∀ j, j ≠ f → u.last f e < u.last j e := by
  obtain ⟨⟨⟨c', m'⟩, u⟩, h⟩ := Option.isSome_iff_exists.1
    (show (tracked exec Uses.after ((fresh 1 1 2, Memory.small), Uses.start 1 1)
      [.read .w32 0x80000000, .read .w32 0x80000010, .read .w32 0x80000020]).isSome =
        true by decide +kernel)
  obtain ⟨-, -, hv, -, -⟩ := replacement (c := fresh 1 1 2) ⟨fun _ _ => rfl, fun _ _ => rfl⟩ h
  refine ⟨c', m', u, h, fun e => ?_⟩
  obtain ⟨f, hf, -, hlt⟩ := hv e
  exact ⟨f, hf, hlt⟩

end EmCache

end NanoCpu
