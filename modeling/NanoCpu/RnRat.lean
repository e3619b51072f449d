/-
**The register map, for any number of lanes** (`rtl/core/rn_rat.v`).

All lanes read the map at once.  What a lane should see of the lanes below it in its bundle comes
over a bypass: a vector of bits marks the lanes that write the register, the youngest one first, and
a priority multiplexer takes the register of the first marked lane.  The vectors are computed by a
loop that adds marks.  Before the loop only the bit of lane 0 is cleared, so from lane 2 on a vector
has bits that keep the marks of earlier bundles; with one or two lanes there is no such bit.

The number of lanes of commit is that of issue, as `ncpu64k.v` sets it.

Main definitions:

* `RnRat`, `RnRatIn`, `RnRat.next` — the map;
* `RnRat.Sequential` — the bundle is renamed as if its instructions came one after the other;
* `RnRat.NoStale` — no mark of an earlier bundle is in the way.

Main results:

* `RnRat.bundle_rename_iff` — a bundle is renamed in order exactly if no old mark is in the way;
* `RnRat.noStale_of_le_two` — with one or two lanes there is none;
* `Rename.ratPrs1_eq`, `Rename.ratPrs2_eq`, `Rename.ratPfree_eq` — the bypass of the stage of two
  lanes.
-/

import NanoCpu.Rename
import NanoCpu.Machine

set_option relaxedAutoImplicit false
set_option autoImplicit false

namespace NanoCpu

/-- The map, its architectural copy, and the vectors of the bypass: lane, bit. -/
structure RnRat where
  rat : LReg → PReg
  arat : LReg → PReg
  rawRs1Rev : ℕ → ℕ → Bool
  rawRs2Rev : ℕ → ℕ → Bool
  wawRev : ℕ → ℕ → Bool

/-- The inputs of one cycle. -/
structure RnRatIn where
  we : ℕ → Bool
  rollback : Bool
  lrs1 : ℕ → LReg
  lrs2 : ℕ → LReg
  lrd : ℕ → LReg
  lrdWe : ℕ → Bool
  flPrd : ℕ → PReg
  cmtFire : ℕ → Bool
  cmtLrd : ℕ → LReg
  cmtPrd : ℕ → PReg
  cmtPrdWe : ℕ → Bool

/-- Lane `j` writes `l`. -/
def RnRatIn.writes (x : RnRatIn) (l : LReg) (j : ℕ) : Bool := x.lrdWe j && l == x.lrd j

namespace RnRat

/-- After reset; the vectors have none, and are taken to be clear. -/
def reset : RnRat where
  rat _ := 0
  arat _ := 0
  rawRs1Rev _ _ := false
  rawRs2Rev _ _ := false
  wawRev _ _ := false

variable (n : ℕ) (s : RnRat) (x : RnRatIn)

/-! ### The bypass -/

/-- The loop over the lanes below `i`.  Bit `k` is that of lane `i - 1 - k`; `rev[i-1]` alone is
cleared first. -/
def detect (i : ℕ) (hit : ℕ → Bool) (rev : ℕ → Bool) (k : ℕ) : Bool :=
  (if k = i - 1 then false else rev k) || hit (i - 1 - k)

def rawRs1 (i : ℕ) : ℕ → Bool := detect i (x.writes (x.lrs1 i)) (s.rawRs1Rev i)

def rawRs2 (i : ℕ) : ℕ → Bool := detect i (x.writes (x.lrs2 i)) (s.rawRs2Rev i)

def waw (i : ℕ) : ℕ → Bool := detect i (fun j => x.lrdWe i && x.writes (x.lrd i) j) (s.wawRev i)

/-- What lane `i` gets, with its vector and what the map says. -/
def bypass (flPrd : ℕ → PReg) (i : ℕ) (rev : ℕ → Bool) (nobyp : PReg) : PReg :=
  if i = 0 then nobyp
  else pmux (n := i + 1) (fun k => if k.val < i then rev k else true)
    fun k => if k.val < i then flPrd (i - 1 - k) else nobyp

def ratPrs1 (i : ℕ) : PReg := bypass x.flPrd i (s.rawRs1 x i) (s.rat (x.lrs1 i))

def ratPrs2 (i : ℕ) : PReg := bypass x.flPrd i (s.rawRs2 x i) (s.rat (x.lrs2 i))

def ratPfree (i : ℕ) : PReg := bypass x.flPrd i (s.waw x i) (s.rat (x.lrd i))

/-! ### The next state -/

def next : RnRat where
  rat := if x.rollback then s.arat else rfWrite (fun j => x.lrdWe j && x.we j) x.lrd x.flPrd n s.rat
  arat := rfWrite (fun j => x.cmtPrdWe j && x.cmtFire j) x.cmtLrd x.cmtPrd n s.arat
  rawRs1Rev := s.rawRs1 x
  rawRs2Rev := s.rawRs2 x
  wawRev := s.waw x

/-- The map with `n` lanes. -/
def machine : Machine RnRat RnRatIn where
  reset := reset
  allowed _ _ := True
  next s x := s.next n x

/-! ### Bundles -/

/-- Lane `k` as a renaming, and as a commit. -/
def ren (k : ℕ) : Renaming LReg PReg := ⟨x.lrdWe k, x.lrd k, x.flPrd k, s.ratPfree x k⟩

def cmtRen (k : ℕ) : Renaming LReg PReg := ⟨x.cmtPrdWe k, x.cmtLrd k, x.cmtPrd k, x.cmtPrd k⟩

/-- The map that instruction `i` of the bundle finds after those before it. -/
def mapAt (i : ℕ) : LReg → PReg := Renaming.mapFrom (s.ren x) s.rat 0 i

/-- The bundle is renamed in order: each of its `m` instructions gets the registers that it finds
when those before it are done, and so does the next bundle; and the `c` commits write one after the
other. -/
structure Sequential (m c : ℕ) : Prop where
  prs1 : ∀ i < m, s.ratPrs1 x i = s.mapAt x i (x.lrs1 i)
  prs2 : ∀ i < m, s.ratPrs2 x i = s.mapAt x i (x.lrs2 i)
  pfree : ∀ i < m, x.lrdWe i = true → s.ratPfree x i = s.mapAt x i (x.lrd i)
  rat : x.rollback = false → (s.next n x).rat = s.mapAt x m
  arat : (s.next n x).arat = Renaming.mapFrom (cmtRen x) s.arat 0 c

/-- Each bit that is left in the vector of lane `i` is behind a lane that writes `l` now. -/
def Covered (rev : ℕ → Bool) (i : ℕ) (l : LReg) : Prop :=
  ∀ k, k + 1 < i → rev k = true → ∃ j ≤ k, x.writes l (i - 1 - j) = true

/-- No mark of an earlier bundle is in the way. -/
structure NoStale (m : ℕ) : Prop where
  rs1 : ∀ i < m, Covered x (s.rawRs1Rev i) i (x.lrs1 i)
  rs2 : ∀ i < m, Covered x (s.rawRs2Rev i) i (x.lrs2 i)
  waw : ∀ i < m, x.lrdWe i = true → Covered x (s.wawRev i) i (x.lrd i)

/-- The registers that are handed out are different, and not in use. -/
structure Allocated : Prop where
  inj : ∀ i < n, ∀ j < n, x.flPrd i = x.flPrd j → i = j
  fresh : ∀ i < n, ∀ l, s.rat l ≠ x.flPrd i

end RnRat

/-- The first `m` lanes hold the bundle, and the first `c` commit lanes fire. -/
structure RnRatIn.Bundle (x : RnRatIn) (n m c : ℕ) : Prop where
  le : m ≤ n
  we : ∀ i < n, x.we i = decide (i < m)
  cmtLe : c ≤ n
  cmtFire : ∀ i < n, x.cmtFire i = decide (i < c)

namespace RnRat

variable {n m c : ℕ} {s : RnRat} {x : RnRatIn}

/-! ### The bypass and the map -/

theorem writes_iff {l : LReg} {j : ℕ} :
    x.writes l j = true ↔ (s.ren x j).we = true ∧ (s.ren x j).lrd = l := by
  rw [RnRatIn.writes, Bool.and_eq_true, beq_iff_eq]
  exact and_congr_right fun _ => eq_comm

/-- The bypass takes the youngest marked lane. -/
theorem bypass_of_lowest {i k : ℕ} {rev : ℕ → Bool} (flPrd : ℕ → PReg) (nobyp : PReg) (hk : k < i)
    (h : rev k = true) (hlow : ∀ j < k, rev j = false) :
    bypass flPrd i rev nobyp = flPrd (i - 1 - k) := by
  rw [bypass, if_neg (by omega), pmux_of_lowest (k := ⟨k, by omega⟩) _ (by simp [hk, h]), if_pos hk]
  intro j (hj : j.val < k)
  simp [show j.val < i by omega, hlow j hj]

theorem bypass_of_none {i : ℕ} {rev : ℕ → Bool} (flPrd : ℕ → PReg) (nobyp : PReg)
    (h : ∀ k < i, rev k = false) : bypass flPrd i rev nobyp = nobyp := by
  rw [bypass]
  split_ifs with hi
  · rfl
  · rw [pmux_of_lowest (k := ⟨i, Nat.lt_succ_self i⟩) _ (by simp), if_neg (Nat.lt_irrefl i)]
    intro j (hj : j.val < i)
    simp [hj, h j hj]

/-- With no old mark in the way the bypass gives what the map holds after the lanes below. -/
theorem bypass_eq_of_covered {i : ℕ} {rev hit : ℕ → Bool} {l : LReg}
    (hh : ∀ j < i, hit j = x.writes l j) (hc : Covered x rev i l) :
    bypass x.flPrd i (detect i hit rev) (s.rat l) = s.mapAt x i l := by
  rcases Renaming.mapFrom_youngest (s.ren x) s.rat i l with ⟨hno, hmap⟩ | ⟨j, hj, hw, hyoung, hmap⟩
  · rw [mapAt, hmap]
    refine bypass_of_none _ _ fun k hk => ?_
    have hw : ∀ j < i, x.writes l j = false := fun j hj => by
      simpa using mt writes_iff.1 (hno j hj)
    rw [detect, hh _ (by omega), hw _ (by omega), Bool.or_false]
    split_ifs with hk'
    · rfl
    · by_contra hne
      obtain ⟨p, hp, hp'⟩ := hc k (by omega) (by simpa using hne)
      rw [hw _ (by omega)] at hp'
      cases hp'
  · have hk : i - 1 - (i - 1 - j) = j := by omega
    rw [mapAt, hmap, bypass_of_lowest (k := i - 1 - j) _ _ (by omega), hk]
    · rfl
    · rw [detect, hk, hh j hj, writes_iff.2 hw, Bool.or_true]
    · intro k hlt
      have hw' : ∀ p, j < p → p < i → x.writes l p = false := fun p hp hp' => by
        simpa using mt writes_iff.1 (hyoung p hp hp')
      rw [detect, hh _ (by omega), hw' _ (by omega) (by omega), Bool.or_false, if_neg (by omega)]
      by_contra hne
      obtain ⟨p, hp, hp'⟩ := hc k (by omega) (by simpa using hne)
      rw [hw' _ (by omega) (by omega)] at hp'
      cases hp'

/-- An old mark that is in the way shows, when the registers handed out are new ones. -/
theorem covered_of_bypass_eq {i : ℕ} {rev hit : ℕ → Bool} {l : LReg} (hn : i < n)
    (ha : s.Allocated n x)
    (h : bypass x.flPrd i (detect i hit rev) (s.rat l) = s.mapAt x i l) : Covered x rev i l := by
  intro k hk hr
  have hex : ∃ k, detect i hit rev k = true :=
    ⟨k, by rw [detect, if_neg (by omega), hr, Bool.true_or]⟩
  -- the first mark, which the bypass takes
  have hle : Nat.find hex ≤ k :=
    Nat.find_min' hex (by rw [detect, if_neg (by omega), hr, Bool.true_or])
  rw [bypass_of_lowest (k := Nat.find hex) _ _ (by omega) (Nat.find_spec hex)
    fun j hj => by simpa using Nat.find_min hex hj] at h
  rcases Renaming.mapFrom_youngest (s.ren x) s.rat i l with ⟨-, hmap⟩ | ⟨j, hj, hw, -, hmap⟩
  · rw [mapAt, hmap] at h
    exact absurd h.symm (ha.fresh _ (by omega) l)
  · rw [mapAt, hmap] at h
    have hlane : i - 1 - Nat.find hex = j := ha.inj _ (by omega) j (by omega) h
    exact ⟨Nat.find hex, hle, by rw [hlane]; exact writes_iff.2 hw⟩

/-! ### A bundle -/

/-- The write ports write in the order of the lanes. -/
theorem next_rat (hb : x.Bundle n m c) (hr : x.rollback = false) :
    (s.next n x).rat = s.mapAt x m := by
  simp only [next, hr, Bool.false_eq_true, if_false]
  exact rfWrite_eq_mapFrom (s.ren x) hb.le hb.we s.rat

theorem next_arat (hb : x.Bundle n m c) :
    (s.next n x).arat = Renaming.mapFrom (cmtRen x) s.arat 0 c :=
  rfWrite_eq_mapFrom (cmtRen x) hb.cmtLe hb.cmtFire s.arat

/-- With one or two lanes every vector is cleared as a whole. -/
theorem noStale_of_le_two (h : m ≤ 2) : s.NoStale x m :=
  ⟨fun i hi k hk => by omega, fun i hi k hk => by omega, fun i hi _ k hk => by omega⟩

/-- **A bundle is renamed as its instructions would be one after the other** exactly if no mark of
an earlier bundle is in the way. -/
theorem bundle_rename_iff (hb : x.Bundle n m c) :
    (s.NoStale x m → s.Sequential n x m c) ∧
      (s.Allocated n x → s.Sequential n x m c → s.NoStale x m) := by
  have hwaw : ∀ i, x.lrdWe i = true → ∀ j < i,
      (x.lrdWe i && x.writes (x.lrd i) j) = x.writes (x.lrd i) j := fun i hi j _ => by
    rw [hi, Bool.true_and]
  constructor
  · intro h
    exact ⟨fun i hi => bypass_eq_of_covered (fun _ _ => rfl) (h.rs1 i hi),
      fun i hi => bypass_eq_of_covered (fun _ _ => rfl) (h.rs2 i hi),
      fun i hi hw => bypass_eq_of_covered (hwaw i hw) (h.waw i hi hw), next_rat hb, next_arat hb⟩
  · intro ha h
    have hle := hb.le
    exact ⟨fun i hi => covered_of_bypass_eq (by omega) ha (h.prs1 i hi),
      fun i hi => covered_of_bypass_eq (by omega) ha (h.prs2 i hi),
      fun i hi hw => covered_of_bypass_eq (by omega) ha (h.pfree i hi hw)⟩

/-! ### The stage of two lanes -/

/-- The map as the rename stage uses it, with any vectors. -/
def ofRename (r : Rename) (rawRs1Rev rawRs2Rev wawRev : ℕ → ℕ → Bool) : RnRat :=
  ⟨r.rat, r.arat, rawRs1Rev, rawRs2Rev, wawRev⟩

end RnRat

/-- The inputs that the rename stage gives the map. -/
def Rename.ratIn (r : Rename) (y : RenameIn) : RnRatIn where
  we := r.flPop y
  rollback := y.flush
  lrs1 i := (y.insn i).lrs1
  lrs2 i := (y.insn i).lrs2
  lrd i := (y.insn i).lrd
  lrdWe i := (y.insn i).lrdWe
  flPrd := r.flPrd
  cmtFire := y.cmtFire
  cmtLrd := y.cmtLrd
  cmtPrd := y.cmtPrd
  cmtPrdWe := y.cmtPrdWe

namespace Rename

variable {r : Rename} {y : RenameIn} {v₁ v₂ v₃ : ℕ → ℕ → Bool} {i : ℕ}

/-- The bypass of one of the two lanes. -/
theorem bypass_eq_detect {hit : ℕ → Bool} {rev : ℕ → Bool} {nobyp : PReg} (hi : i < 2) :
    RnRat.bypass r.flPrd i (RnRat.detect i hit rev) nobyp = r.bypass hit nobyp i := by
  have hi : i = 0 ∨ i = 1 := by omega
  rcases hi with rfl | rfl
  · rfl
  · cases h : hit 0 with
    | true =>
        rw [RnRat.bypass_of_lowest (k := 0) _ _ Nat.zero_lt_one (by simp [RnRat.detect, h])
          (by omega)]
        simp [bypass, h]
    | false =>
        rw [RnRat.bypass_of_none _ _ fun k hk => by
          obtain rfl : k = 0 := by omega
          simp [RnRat.detect, h]]
        simp [bypass, h]

theorem ratPrs1_eq (hi : i < 2) :
    (RnRat.ofRename r v₁ v₂ v₃).ratPrs1 (r.ratIn y) i = r.ratPrs1 y i :=
  bypass_eq_detect hi

theorem ratPrs2_eq (hi : i < 2) :
    (RnRat.ofRename r v₁ v₂ v₃).ratPrs2 (r.ratIn y) i = r.ratPrs2 y i :=
  bypass_eq_detect hi

theorem ratPfree_eq (hi : i < 2) :
    (RnRat.ofRename r v₁ v₂ v₃).ratPfree (r.ratIn y) i = r.ratPfree y i := by
  refine (bypass_eq_detect hi).trans ?_
  rw [ratPfree]
  congr 1
  funext j
  exact Bool.and_left_comm _ _ _

end Rename

namespace RnRat

/-! ### Four lanes -/

/-- A bundle of four in which lane `j` alone writes, register `lrd`, and lane 2 reads register 1. -/
def fourLanes (lrdWe : ℕ → Bool) (base : PReg) : RnRatIn where
  we i := decide (i < 4)
  rollback := false
  lrs1 i := if i = 2 then 1 else 0
  lrs2 _ := 0
  lrd i := if i = 1 then 1 else 2
  lrdWe := lrdWe
  flPrd i := base + Fin.ofNat 64 i
  cmtFire _ := false
  cmtLrd _ := 0
  cmtPrd _ := 0
  cmtPrdWe _ := false

theorem bundle_fourLanes (lrdWe : ℕ → Bool) (base : PReg) : (fourLanes lrdWe base).Bundle 4 4 0 :=
  ⟨le_rfl, fun _ _ => rfl, Nat.zero_le 4, fun _ _ => rfl⟩

/-- After a bundle in which lane 1 writes register 1. -/
def afterOne : RnRat := reset.next 4 (fourLanes (fun i => i == 1) 1)

theorem allocated_fourLanes : afterOne.Allocated 4 (fourLanes (fun _ => false) 10) := by
  constructor
  · decide
  · decide

/-- A bundle that does not write register 1 finds it where the one before has put it, and the lane
that reads it gets another register. -/
theorem stale_bypass : ¬ ∀ (n m c : ℕ) (s : RnRat) (x : RnRatIn), (machine n).Reach s →
    x.Bundle n m c → s.Allocated n x → s.Sequential n x m c := by
  intro h
  have hr : (machine 4).Reach afterOne :=
    Machine.Reach.tick (M := machine 4) (x := fourLanes (fun i => i == 1) 1)
      Machine.Reach.reset trivial
  have hs := h 4 4 0 afterOne _ hr (bundle_fourLanes _ 10) allocated_fourLanes
  exact absurd (hs.prs1 2 (by decide)) (by decide)

instance (x : RnRatIn) (rev : ℕ → Bool) (i : ℕ) (l : LReg) : Decidable (Covered x rev i l) :=
  decidable_of_iff (∀ k < i - 1, rev k = true → ∃ j < k + 1, x.writes l (i - 1 - j) = true)
    ⟨fun h k hk hr => (h k (by omega) hr).imp fun _ hj => ⟨by omega, hj.2⟩,
      fun h k hk hr => (h k (by omega) hr).imp fun _ hj => ⟨by omega, hj.2⟩⟩

instance (s : RnRat) (x : RnRatIn) (m : ℕ) : Decidable (s.NoStale x m) :=
  decidable_of_iff ((∀ i < m, Covered x (s.rawRs1Rev i) i (x.lrs1 i)) ∧
      (∀ i < m, Covered x (s.rawRs2Rev i) i (x.lrs2 i)) ∧
        ∀ i < m, x.lrdWe i = true → Covered x (s.wawRev i) i (x.lrd i))
    ⟨fun h => ⟨h.1, h.2.1, h.2.2⟩, fun h => ⟨h.rs1, h.rs2, h.waw⟩⟩

/-- The next bundle is renamed in order if it writes register 1 again, and is not if it writes
none. -/
theorem bundle_rename_iff_afterOne :
    afterOne.Sequential 4 (fourLanes (fun i => i == 1) 10) 4 0 ∧
      ¬ afterOne.Sequential 4 (fourLanes (fun _ => false) 10) 4 0 := by
  constructor
  · exact (bundle_rename_iff (bundle_fourLanes _ 10)).1 (by decide)
  · intro h
    exact absurd ((bundle_rename_iff (bundle_fourLanes _ 10)).2 allocated_fourLanes h) (by decide)

end RnRat

end NanoCpu
