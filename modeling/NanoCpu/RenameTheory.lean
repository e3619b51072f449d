/-
**Register renaming: names, places and the places in flight.**

Names `L` are mapped to places `P` by a committed map and by a speculative one.  Between the two lie
the renamings in flight, numbered `H, …, T - 1` in program order: a renaming takes a free place for
a name and remembers the place it displaces, which becomes free when the renaming commits.  One
place, `zero`, stands for the constant and is neither free nor ever taken.  Nothing in this module
is about a particular processor.

Main definitions:

* `Renaming` — a renaming: whether there is one, the name, the new and the displaced place;
* `Renaming.mapFrom` — the map after the first `k` renamings in flight;
* `PlacePartition` — the committed map and the free places share out all places but `zero`;
* `Chain` — the renamings in flight lead from the committed map and free places to the speculative
  ones;
* `PlaceClasses` — every place is free, or the place of exactly one name, or displaced by exactly
  one renaming in flight.

Main results:

* `PlacePartition.chain`, `Chain.push`, `Chain.commit` — an empty chain, one more renaming, the
  oldest renaming committed;
* `PlacePartition.classes`, `PlaceClasses.push`, `PlaceClasses.commit` — **no place is lost or used
  twice**;
* `Chain.mapFrom_ne_prd` — a place that a name had before a renaming is not taken by that renaming
  or a later one.
-/

import Mathlib.Logic.Function.Basic
import Mathlib.Tactic

set_option relaxedAutoImplicit false
set_option autoImplicit false

/-- A renaming of `lrd` from the place `pfree` to the place `prd`; none if `we` is low. -/
structure Renaming (L P : Type*) where
  we : Bool
  lrd : L
  prd : P
  pfree : P

namespace Renaming

variable {L P : Type*} [DecidableEq L]

/-- The map after a renaming. -/
def map (r : Renaming L P) (rat : L → P) : L → P :=
  if r.we then Function.update rat r.lrd r.prd else rat

/-- The map after the renamings `H, …, H + k - 1`. -/
def mapFrom (ins : ℕ → Renaming L P) (rat : L → P) (H : ℕ) : ℕ → L → P
  | 0 => rat
  | k + 1 => (ins (H + k)).map (mapFrom ins rat H k)

variable {ins : ℕ → Renaming L P} {rat : L → P} {H : ℕ}

theorem mapFrom_succ_left (k : ℕ) :
    mapFrom ins ((ins H).map rat) (H + 1) k = mapFrom ins rat H (k + 1) := by
  induction k with
  | zero => rfl
  | succ k ih =>
      rw [mapFrom, ih, Nat.add_right_comm, Nat.add_assoc]
      rfl

theorem mapFrom_congr {f : ℕ → Renaming L P} {k : ℕ} (h : ∀ j < k, ins (H + j) = f (H + j)) :
    mapFrom ins rat H k = mapFrom f rat H k := by
  induction k with
  | zero => rfl
  | succ k ih => rw [mapFrom, mapFrom, ih fun j hj => h j (by omega), h k (by omega)]

/-- A name has its committed place or the one that some renaming in flight took for it. -/
theorem mapFrom_cases (ins : ℕ → Renaming L P) (rat : L → P) (H k : ℕ) (l : L) :
    mapFrom ins rat H k l = rat l ∨
      ∃ m, H ≤ m ∧ m < H + k ∧ (ins m).we = true ∧ mapFrom ins rat H k l = (ins m).prd := by
  induction k with
  | zero => exact Or.inl rfl
  | succ k ih =>
      rw [mapFrom, map]
      by_cases hw : (ins (H + k)).we = true
      · rw [if_pos hw]
        by_cases hl : l = (ins (H + k)).lrd
        · subst hl
          exact Or.inr ⟨H + k, by omega, by omega, hw, Function.update_self _ _ _⟩
        · rw [Function.update_of_ne hl]
          rcases ih with h | ⟨m, h₁, h₂, h₃, h₄⟩
          · exact Or.inl h
          · exact Or.inr ⟨m, h₁, by omega, h₃, h₄⟩
      · rw [if_neg hw]
        rcases ih with h | ⟨m, h₁, h₂, h₃, h₄⟩
        · exact Or.inl h
        · exact Or.inr ⟨m, h₁, by omega, h₃, h₄⟩

/-- The youngest renaming of a name among the first `k` decides its place. -/
theorem mapFrom_youngest (ins : ℕ → Renaming L P) (rat : L → P) (k : ℕ) (l : L) :
    ((∀ m < k, ¬ ((ins m).we = true ∧ (ins m).lrd = l)) ∧ mapFrom ins rat 0 k l = rat l) ∨
      ∃ m < k, ((ins m).we = true ∧ (ins m).lrd = l) ∧
        (∀ j, m < j → j < k → ¬ ((ins j).we = true ∧ (ins j).lrd = l)) ∧
          mapFrom ins rat 0 k l = (ins m).prd := by
  induction k with
  | zero => exact Or.inl ⟨fun m hm => absurd hm (Nat.not_lt_zero m), rfl⟩
  | succ k ih =>
      rw [mapFrom, Nat.zero_add, map]
      by_cases hk : (ins k).we = true ∧ (ins k).lrd = l
      · refine Or.inr ⟨k, Nat.lt_succ_self k, hk, fun j hj hj' => by omega, ?_⟩
        rw [if_pos hk.1, hk.2, Function.update_self]
      · have hsame : (if (ins k).we = true then Function.update (mapFrom ins rat 0 k) (ins k).lrd
          (ins k).prd else mapFrom ins rat 0 k) l = mapFrom ins rat 0 k l := by
          split_ifs with hw
          · exact Function.update_of_ne (fun hl => hk ⟨hw, hl.symm⟩) _ _
          · rfl
        rw [hsame]
        rcases ih with ⟨h₁, h₂⟩ | ⟨m, hm, h₁, h₂, h₃⟩
        · refine Or.inl ⟨fun m hm => ?_, h₂⟩
          rcases Nat.lt_succ_iff_lt_or_eq.1 hm with hlt | rfl
          · exact h₁ m hlt
          · exact hk
        · refine Or.inr ⟨m, by omega, h₁, fun j hj hj' => ?_, h₃⟩
          rcases Nat.lt_succ_iff_lt_or_eq.1 hj' with hlt | rfl
          · exact h₂ j hj hlt
          · exact hk

theorem mapFrom_shift (k : ℕ) : mapFrom ins rat H k = mapFrom (fun j => ins (H + j)) rat 0 k := by
  induction k with
  | zero => rfl
  | succ k ih => rw [mapFrom, mapFrom, ih, Nat.zero_add]

theorem mapFrom_add (c k : ℕ) :
    mapFrom ins (mapFrom ins rat H c) (H + c) k = mapFrom ins rat H (c + k) := by
  induction k with
  | zero => rfl
  | succ k ih => rw [mapFrom, ih, ← Nat.add_assoc c k 1, mapFrom, Nat.add_assoc]

end Renaming

open Renaming

variable {L P : Type*} [DecidableEq L]

/-! ### The committed side -/

/-- The committed map and the free places share out all places but `zero`. -/
structure PlacePartition (zero : P) (rat : L → P) (free : P → Prop) : Prop where
  inj : ∀ l l', rat l = rat l' → rat l ≠ zero → l = l'
  free_iff : ∀ p, p ≠ zero → (free p ↔ ∀ l, rat l ≠ p)
  not_free_zero : ¬ free zero

variable {zero : P} {arat rat : L → P} {afree free : P → Prop} {ins : ℕ → Renaming L P} {H T : ℕ}

/-- The free places after a renaming commits. -/
def Renaming.freeAfter (zero : P) (r : Renaming L P) (free : P → Prop) (p : P) : Prop :=
  if r.we then (free p ∧ p ≠ r.prd) ∨ (p = r.pfree ∧ p ≠ zero) else free p

/-- The committed free places after the renamings `H, …, H + c - 1` commit. -/
def Renaming.freeFrom (zero : P) (ins : ℕ → Renaming L P) (free : P → Prop) (H : ℕ) : ℕ → P → Prop
  | 0 => free
  | k + 1 => (ins (H + k)).freeAfter zero (freeFrom zero ins free H k)

/-- A committed renaming keeps the partition. -/
theorem PlacePartition.commit (h : PlacePartition zero arat afree) {r : Renaming L P}
    (ha : r.we = true → r.prd ≠ zero ∧ afree r.prd) (hp : r.we = true → r.pfree = arat r.lrd) :
    PlacePartition zero (r.map arat) (r.freeAfter zero afree) := by
  by_cases hw : r.we = true
  · obtain ⟨hz, hf⟩ := ha hw
    have hp := hp hw
    have hne : ∀ l, arat l ≠ r.prd := (h.free_iff _ hz).1 hf
    have hmap : r.map arat = Function.update arat r.lrd r.prd := if_pos hw
    have hself : r.map arat r.lrd = r.prd := by rw [hmap, Function.update_self]
    have hother : ∀ l, l ≠ r.lrd → r.map arat l = arat l := fun l hl => by
      rw [hmap, Function.update_of_ne hl]
    refine ⟨?_, ?_, ?_⟩
    · intro l l' heq hlz
      by_cases h₁ : l = r.lrd
      · by_cases h₂ : l' = r.lrd
        · rw [h₁, h₂]
        · rw [h₁, hself, hother l' h₂] at heq
          exact absurd heq.symm (hne l')
      · by_cases h₂ : l' = r.lrd
        · rw [h₂, hself, hother l h₁] at heq
          exact absurd heq (hne l)
        · rw [hother l h₁] at heq hlz
          rw [hother l' h₂] at heq
          exact h.inj l l' heq hlz
    · intro p hpz
      rw [freeAfter, if_pos hw]
      constructor
      · rintro (⟨hfp, hpp⟩ | ⟨hpf, -⟩) l
        · by_cases hl : l = r.lrd
          · rw [hl, hself]
            exact hpp.symm
          · rw [hother l hl]
            exact (h.free_iff p hpz).1 hfp l
        · by_cases hl : l = r.lrd
          · rw [hl, hself, hpf, hp]
            exact (hne r.lrd).symm
          · rw [hother l hl]
            intro heq
            refine hl (h.inj l r.lrd ?_ (by rwa [heq]))
            rw [heq, hpf, hp]
      · intro hl
        by_cases hpf : p = r.pfree
        · exact Or.inr ⟨hpf, hpz⟩
        · refine Or.inl ⟨(h.free_iff p hpz).2 fun l heq => ?_, ?_⟩
          · by_cases hl' : l = r.lrd
            · exact hpf (by rw [hp, ← hl', heq])
            · exact hl l (by rw [hother l hl', heq])
          · intro heq
            exact hl r.lrd (by rw [hself, heq])
    · rw [freeAfter, if_pos hw]
      rintro (⟨hfz, -⟩ | ⟨-, hzz⟩)
      · exact h.not_free_zero hfz
      · exact hzz rfl
  · have hmap : r.map arat = arat := if_neg hw
    have hfree : r.freeAfter zero afree = afree := by
      funext p
      rw [freeAfter, if_neg hw]
    rw [hmap, hfree]
    exact h

/-! ### Every place has one use -/

/-- A place is free, or the place of exactly one name, or displaced by exactly one renaming, and
only one of these. -/
def PlaceClass (isFree : Prop) (named : L → Prop) (displaced : ℕ → Prop) : Prop :=
  (isFree ∧ (∀ l, ¬ named l) ∧ ∀ n, ¬ displaced n) ∨
    (¬ isFree ∧ (∃! l, named l) ∧ ∀ n, ¬ displaced n) ∨
    (¬ isFree ∧ (∀ l, ¬ named l) ∧ ∃! n, displaced n)

omit [DecidableEq L] in
theorem PlaceClass.congr {f f' : Prop} {g g' : L → Prop} {d d' : ℕ → Prop} (h : PlaceClass f g d)
    (hf : f' ↔ f) (hg : ∀ l, g' l ↔ g l) (hd : ∀ n, d' n ↔ d n) : PlaceClass f' g' d' := by
  simpa only [PlaceClass, hf, hg, hd] using h

omit [DecidableEq L] in
/-- The renamings may be counted from another number on. -/
theorem PlaceClass.shift {f : Prop} {g : L → Prop} {d d' : ℕ → Prop} {H : ℕ} (h : PlaceClass f g d)
    (hH : ∀ n, d n → H ≤ n) (hd : ∀ i, d' i ↔ d (H + i)) : PlaceClass f g d' := by
  have hall : (∀ n, ¬ d n) → ∀ i, ¬ d' i := fun h i hi => h _ ((hd i).1 hi)
  rcases h with ⟨h₁, h₂, h₃⟩ | ⟨h₁, h₂, h₃⟩ | ⟨h₁, h₂, m, hm, hu⟩
  · exact Or.inl ⟨h₁, h₂, hall h₃⟩
  · exact Or.inr (Or.inl ⟨h₁, h₂, hall h₃⟩)
  · obtain ⟨i, rfl⟩ := Nat.exists_eq_add_of_le (hH m hm)
    refine Or.inr (Or.inr ⟨h₁, h₂, i, (hd i).2 hm, fun j hj => ?_⟩)
    have := hu _ ((hd j).1 hj)
    omega

/-- Renaming `n` is in flight and displaces `p`. -/
def Displaced (ins : ℕ → Renaming L P) (H T : ℕ) (p : P) (n : ℕ) : Prop :=
  H ≤ n ∧ n < T ∧ (ins n).we = true ∧ (ins n).pfree = p

/-- Every place but `zero` has exactly one use. -/
def PlaceClasses (zero : P) (ins : ℕ → Renaming L P) (H T : ℕ) (rat : L → P) (free : P → Prop) :
    Prop :=
  ∀ p, p ≠ zero → PlaceClass (free p) (fun l => rat l = p) (Displaced ins H T p)

omit [DecidableEq L] in
/-- With nothing in flight the partition is all there is. -/
theorem PlacePartition.classes (h : PlacePartition zero arat afree)
    (ins : ℕ → Renaming L P) (N : ℕ) : PlaceClasses zero ins N N arat afree := by
  intro p hp
  have hno : ∀ n, ¬ Displaced ins N N p n := fun n hn => by
    have := hn.1
    have := hn.2.1
    omega
  by_cases hf : afree p
  · exact Or.inl ⟨hf, (h.free_iff p hp).1 hf, hno⟩
  · have hex : ∃ l, arat l = p := by
      by_contra hne
      push Not at hne
      exact hf ((h.free_iff p hp).2 hne)
    obtain ⟨l, rfl⟩ := hex
    exact Or.inr (Or.inl ⟨hf, ⟨l, rfl, fun l' hl' => h.inj l' l hl' (hl'.symm ▸ hp)⟩, hno⟩)

omit [DecidableEq L] in
theorem Displaced.congr {ins' : ℕ → Renaming L P}
    (hins : ∀ n, H ≤ n → n < T → ins' n = ins n) (p : P)
    (n : ℕ) : Displaced ins' H T p n ↔ Displaced ins H T p n := by
  refine and_congr_right fun h₁ => and_congr_right fun h₂ => ?_
  rw [hins n h₁ h₂]

namespace PlaceClasses

variable (h : PlaceClasses zero ins H T rat free)

include h

omit [DecidableEq L] in
theorem of_free {p : P} (hp : p ≠ zero) (hf : free p) :
    (∀ l, rat l ≠ p) ∧ ∀ n, ¬ Displaced ins H T p n := by
  rcases h p hp with ⟨-, h₁, h₂⟩ | ⟨h', -⟩ | ⟨h', -⟩
  · exact ⟨h₁, h₂⟩
  · exact absurd hf h'
  · exact absurd hf h'

omit [DecidableEq L] in
theorem of_named {l : L} (hp : rat l ≠ zero) :
    ¬ free (rat l) ∧ (∀ l', rat l' = rat l → l' = l) ∧ ∀ n, ¬ Displaced ins H T (rat l) n := by
  rcases h _ hp with ⟨-, h₁, -⟩ | ⟨hf, ⟨l₀, hl₀, hu⟩, hd⟩ | ⟨-, h₁, -⟩
  · exact absurd rfl (h₁ l)
  · exact ⟨hf, fun l' hl' => (hu l' hl').trans (hu l rfl).symm, hd⟩
  · exact absurd rfl (h₁ l)

omit [DecidableEq L] in
theorem of_displaced {p : P} (hp : p ≠ zero) {n : ℕ} (hn : Displaced ins H T p n) :
    ¬ free p ∧ (∀ l, rat l ≠ p) ∧ ∀ m, Displaced ins H T p m → m = n := by
  rcases h p hp with ⟨-, -, h₂⟩ | ⟨-, -, h₂⟩ | ⟨hf, h₁, n₀, -, hu⟩
  · exact absurd hn (h₂ n)
  · exact absurd hn (h₂ n)
  · exact ⟨hf, h₁, fun m hm => (hu m hm).trans (hu n hn).symm⟩

/-- **A renaming** takes its place out of the free ones and displaces the place its name had. -/
theorem push (hle : H ≤ T) (hfz : ¬ free zero) (ha : (ins T).we = true → free (ins T).prd)
    (hp : (ins T).we = true → (ins T).pfree = rat (ins T).lrd) :
    PlaceClasses zero ins H (T + 1) ((ins T).map rat)
      fun p => free p ∧ ((ins T).we = true → p ≠ (ins T).prd) := by
  intro p hpz
  -- who displaces `p` after the push
  have hdisp : ∀ n, Displaced ins H (T + 1) p n ↔
      Displaced ins H T p n ∨ (n = T ∧ (ins T).we = true ∧ (ins T).pfree = p) := by
    intro n
    constructor
    · rintro ⟨h₁, h₂, h₃, h₄⟩
      rcases Nat.lt_succ_iff_lt_or_eq.1 h₂ with hlt | rfl
      · exact Or.inl ⟨h₁, hlt, h₃, h₄⟩
      · exact Or.inr ⟨rfl, h₃, h₄⟩
    · rintro (⟨h₁, h₂, h₃, h₄⟩ | ⟨rfl, h₃, h₄⟩)
      · exact ⟨h₁, by omega, h₃, h₄⟩
      · exact ⟨hle, by omega, h₃, h₄⟩
  by_cases hw : (ins T).we = true
  · have ha := ha hw
    have hp := hp hw
    have hzp : (ins T).prd ≠ zero := fun hz => hfz (hz ▸ ha)
    have hmap : (ins T).map rat = Function.update rat (ins T).lrd (ins T).prd := if_pos hw
    have hself : (ins T).map rat (ins T).lrd = (ins T).prd := by
      rw [hmap, Function.update_self]
    have hother : ∀ l, l ≠ (ins T).lrd → (ins T).map rat l = rat l := fun l hl => by
      rw [hmap, Function.update_of_ne hl]
    obtain ⟨hn₁, hn₂⟩ := h.of_free hzp ha
    by_cases hpp : p = (ins T).prd
    · -- the place that is taken: it was free, now it is the place of this name only
      subst hpp
      refine Or.inr (Or.inl ⟨fun hf => hf.2 hw rfl, ⟨(ins T).lrd, hself, ?_⟩, ?_⟩)
      · intro l (hl : (ins T).map rat l = _)
        by_contra hne
        rw [hother l hne] at hl
        exact hn₁ l hl
      · intro n hn
        rcases (hdisp n).1 hn with hd | ⟨-, -, hd⟩
        · exact hn₂ n hd
        · exact hn₁ _ (hp.symm.trans hd)
    · by_cases hpf : p = (ins T).pfree
      · -- the displaced place: it was the place of this name only, now this renaming holds it
        have hpl : p = rat (ins T).lrd := hpf.trans hp
        obtain ⟨hnf, hu, hnd⟩ := h.of_named (l := (ins T).lrd) (hpl ▸ hpz)
        rw [← hpl] at hnf hu hnd
        refine Or.inr
          (Or.inr ⟨fun hf => hnf hf.1, ?_, T, (hdisp T).2 (Or.inr ⟨rfl, hw, hpf.symm⟩), ?_⟩)
        · intro l (hl : (ins T).map rat l = p)
          by_cases hl' : l = (ins T).lrd
          · rw [hl', hself] at hl
            exact hpp hl.symm
          · rw [hother l hl'] at hl
            exact hl' (hu l hl)
        · intro n hn
          rcases (hdisp n).1 hn with hd | ⟨hn', -⟩
          · exact absurd hd (hnd n)
          · exact hn'
      · refine (h p hpz).congr ⟨fun hf => hf.1, fun hf => ⟨hf, fun _ => hpp⟩⟩ ?_ ?_
        · intro l
          by_cases hl : l = (ins T).lrd
          · rw [hl, hself]
            exact ⟨fun he => absurd he.symm hpp, fun he => absurd (he.symm.trans hp.symm) hpf⟩
          · rw [hother l hl]
        · intro n
          rw [hdisp]
          exact ⟨fun hd => hd.resolve_right fun hd' => hpf hd'.2.2.symm, Or.inl⟩
  · have hmap : (ins T).map rat = rat := if_neg hw
    rw [hmap]
    refine (h p hpz).congr ⟨fun hf => hf.1, fun hf => ⟨hf, fun h' => absurd h' hw⟩⟩
      (fun _ => Iff.rfl) fun n => ?_
    rw [hdisp]
    exact ⟨fun hd => hd.resolve_right fun hd' => hw hd'.2.1, Or.inl⟩

omit [DecidableEq L] in
/-- **A committed renaming** gives its displaced place back. -/
theorem commit (hlt : H < T) :
    PlaceClasses zero ins (H + 1) T rat
      fun p => free p ∨ ((ins H).we = true ∧ p = (ins H).pfree ∧ p ≠ zero) := by
  intro p hpz
  have hdisp : ∀ n, Displaced ins H T p n ↔
      Displaced ins (H + 1) T p n ∨ (n = H ∧ (ins H).we = true ∧ (ins H).pfree = p) := by
    intro n
    constructor
    · rintro ⟨h₁, h₂, h₃, h₄⟩
      rcases Nat.lt_or_eq_of_le h₁ with hlt | rfl
      · exact Or.inl ⟨hlt, h₂, h₃, h₄⟩
      · exact Or.inr ⟨rfl, h₃, h₄⟩
    · rintro (⟨h₁, h₂, h₃, h₄⟩ | ⟨rfl, h₃, h₄⟩)
      · exact ⟨by omega, h₂, h₃, h₄⟩
      · exact ⟨le_rfl, hlt, h₃, h₄⟩
  by_cases hd : (ins H).we = true ∧ (ins H).pfree = p
  · -- the place given back was displaced by this renaming only
    obtain ⟨-, h₁, hu⟩ := h.of_displaced hpz ((hdisp H).2 (Or.inr ⟨rfl, hd⟩))
    refine Or.inl ⟨Or.inr ⟨hd.1, hd.2.symm, hpz⟩, h₁, fun n hn => ?_⟩
    have := hu n ((hdisp n).2 (Or.inl hn))
    have := hn.1
    omega
  · refine (h p hpz).congr ?_ (fun _ => Iff.rfl) fun n => ?_
    · exact ⟨fun hf => hf.resolve_right fun h' => hd ⟨h'.1, h'.2.1.symm⟩, Or.inl⟩
    · rw [hdisp]
      exact ⟨Or.inl, fun h' => h'.resolve_right fun h'' => hd h''.2⟩

end PlaceClasses

/-! ### The renamings in flight -/

/-- The renamings `H, …, T - 1` lead from the committed map and free places to `rat` and `free`. -/
structure Chain (zero : P) (arat : L → P) (afree : P → Prop) (ins : ℕ → Renaming L P) (H T : ℕ)
    (rat : L → P) (free : P → Prop) : Prop where
  part : PlacePartition zero arat afree
  le : H ≤ T
  alloc : ∀ n, H ≤ n → n < T → (ins n).we = true → (ins n).prd ≠ zero ∧ afree (ins n).prd
  distinct : ∀ n m, H ≤ n → n < m → m < T → (ins n).we = true → (ins m).we = true →
    (ins n).prd ≠ (ins m).prd
  pfree_eq : ∀ n, H ≤ n → n < T → (ins n).we = true →
    (ins n).pfree = mapFrom ins arat H (n - H) (ins n).lrd
  rat_eq : rat = mapFrom ins arat H (T - H)
  free_iff : ∀ p, free p ↔ afree p ∧ ∀ n, H ≤ n → n < T → (ins n).we = true → (ins n).prd ≠ p
  classes : PlaceClasses zero ins H T rat free

/-- The empty chain: the speculative side is the committed one. -/
theorem PlacePartition.chain (h : PlacePartition zero arat afree) (ins : ℕ → Renaming L P) (N : ℕ) :
    Chain zero arat afree ins N N arat afree where
  part := h
  le := le_rfl
  alloc := by omega
  distinct := by omega
  pfree_eq := by omega
  rat_eq := by rw [Nat.sub_self]; rfl
  free_iff p := ⟨fun hp => ⟨hp, by omega⟩, fun hp => hp.1⟩
  classes := h.classes ins N

namespace Chain

variable (h : Chain zero arat afree ins H T rat free)

include h

/-- The free places are not the place of any name, now or at any time since the commit point. -/
theorem not_free_mapFrom {k : ℕ} (hk : H + k ≤ T) (l : L) : ¬ free (mapFrom ins arat H k l) := by
  rw [h.free_iff]
  rintro ⟨hf, hn⟩
  rcases mapFrom_cases ins arat H k l with hc | ⟨m, h₁, h₂, h₃, h₄⟩
  · rw [hc] at hf
    have hz : arat l ≠ zero := fun hz => h.part.not_free_zero (hz ▸ hf)
    exact (h.part.free_iff _ hz).1 hf l rfl
  · exact hn m h₁ (by omega) h₃ h₄.symm

/-- A place that a name had before renaming `n` is not taken by `n` or a later renaming. -/
theorem mapFrom_ne_prd {k n : ℕ} (hk : H + k ≤ n) (hn : n < T) (hw : (ins n).we = true) (l : L) :
    mapFrom ins arat H k l ≠ (ins n).prd := by
  obtain ⟨hz, hf⟩ := h.alloc n (by omega) hn hw
  rcases mapFrom_cases ins arat H k l with hc | ⟨m, h₁, h₂, h₃, h₄⟩
  · rw [hc]
    exact (h.part.free_iff _ hz).1 hf l
  · rw [h₄]
    exact h.distinct m n h₁ (by omega) hn h₃ hw

theorem not_free_zero : ¬ free zero := fun hf => h.part.not_free_zero ((h.free_iff zero).1 hf).1

/-- A free place is not in flight. -/
theorem free_ne_prd {p : P} (hf : free p) {n : ℕ} (hn : H ≤ n) (hn' : n < T)
    (hw : (ins n).we = true) : (ins n).prd ≠ p := ((h.free_iff p).1 hf).2 n hn hn' hw

/-- Only the renamings in flight matter. -/
theorem congr {ins' : ℕ → Renaming L P} (hins : ∀ n, H ≤ n → n < T → ins' n = ins n) :
    Chain zero arat afree ins' H T rat free := by
  have hle := h.le
  have hmap : ∀ k, H + k ≤ T → mapFrom ins' arat H k = mapFrom ins arat H k := fun k hk =>
    mapFrom_congr fun j hj => hins _ (by omega) (by omega)
  refine ⟨h.part, hle, ?_, ?_, ?_, ?_, ?_, ?_⟩
  · intro n hn hn' hw
    rw [hins n hn hn'] at hw ⊢
    exact h.alloc n hn hn' hw
  · intro n m hn hnm hm hwn hwm
    rw [hins n hn (by omega)] at hwn ⊢
    rw [hins m (by omega) hm] at hwm ⊢
    exact h.distinct n m hn hnm hm hwn hwm
  · intro n hn hn' hw
    rw [hmap _ (by omega), hins n hn hn']
    rw [hins n hn hn'] at hw
    exact h.pfree_eq n hn hn' hw
  · rw [hmap _ (by omega)]
    exact h.rat_eq
  · intro p
    rw [h.free_iff]
    refine and_congr_right fun _ => forall_congr' fun n => forall₂_congr fun hn hn' => ?_
    rw [hins n hn hn']
  · intro p hp
    exact (h.classes p hp).congr Iff.rfl (fun _ => Iff.rfl) (Displaced.congr hins p)

/-- **One more renaming.** -/
theorem push (ha : (ins T).we = true → free (ins T).prd)
    (hp : (ins T).we = true → (ins T).pfree = rat (ins T).lrd) :
    Chain zero arat afree ins H (T + 1) ((ins T).map rat)
      fun p => free p ∧ ((ins T).we = true → p ≠ (ins T).prd) := by
  have hle := h.le
  have hlast : ∀ {n}, n < T + 1 → n < T ∨ n = T := fun hn => by omega
  refine ⟨h.part, by omega, ?_, ?_, ?_, ?_, ?_, h.classes.push hle h.not_free_zero ha hp⟩
  · intro n hn hn' hw
    rcases hlast hn' with hlt | rfl
    · exact h.alloc n hn hlt hw
    · have hf := ha hw
      exact ⟨fun hz => h.not_free_zero (hz ▸ hf), ((h.free_iff _).1 hf).1⟩
  · intro n m hn hnm hm hwn hwm
    rcases hlast hm with hlt | rfl
    · exact h.distinct n m hn hnm hlt hwn hwm
    · exact h.free_ne_prd (ha hwm) hn hnm hwn
  · intro n hn hn' hw
    rcases hlast hn' with hlt | rfl
    · exact h.pfree_eq n hn hlt hw
    · rw [hp hw, h.rat_eq]
  · have hs : T + 1 - H = T - H + 1 := by omega
    have ht : H + (T - H) = T := by omega
    rw [hs, mapFrom, ht, h.rat_eq]
  · intro p
    rw [h.free_iff]
    constructor
    · rintro ⟨⟨hf, hn⟩, hlt⟩
      refine ⟨hf, fun n hn₁ hn₂ hw => ?_⟩
      rcases hlast hn₂ with h' | rfl
      · exact hn n hn₁ h' hw
      · exact (hlt hw).symm
    · rintro ⟨hf, hn⟩
      exact ⟨⟨hf, fun n hn₁ hn₂ hw => hn n hn₁ (by omega) hw⟩,
        fun hw => (hn T hle (by omega) hw).symm⟩

/-- The place the oldest renaming displaces is the committed place of its name. -/
theorem pfree_head (hlt : H < T) (hw : (ins H).we = true) : (ins H).pfree = arat (ins H).lrd := by
  have := h.pfree_eq H le_rfl hlt hw
  rwa [Nat.sub_self] at this

/-- The place the oldest renaming displaces is not taken by any renaming in flight. -/
theorem pfree_head_ne {n : ℕ} (hlt : H < T) (hwH : (ins H).we = true) (hn : H ≤ n) (hn' : n < T)
    (hw : (ins n).we = true) : (ins n).prd ≠ (ins H).pfree := by
  rw [h.pfree_head hlt hwH]
  exact (h.mapFrom_ne_prd (k := 0) (by omega) hn' hw (ins H).lrd).symm

/-- **The oldest renaming commits.** -/
theorem commit (hlt : H < T) :
    Chain zero ((ins H).map arat) ((ins H).freeAfter zero afree) ins (H + 1) T rat
      fun p => free p ∨ ((ins H).we = true ∧ p = (ins H).pfree ∧ p ≠ zero) := by
  have hmap : ∀ n, H < n → mapFrom ins ((ins H).map arat) (H + 1) (n - (H + 1)) =
      mapFrom ins arat H (n - H) := fun n hn => by
    rw [mapFrom_succ_left, show n - (H + 1) + 1 = n - H by omega]
  refine ⟨h.part.commit (h.alloc H le_rfl hlt) (h.pfree_head hlt), hlt, ?_, ?_, ?_, ?_, ?_,
    h.classes.commit hlt⟩
  · intro n hn hn' hw
    obtain ⟨hz, hf⟩ := h.alloc n (by omega) hn' hw
    refine ⟨hz, ?_⟩
    rw [freeAfter]
    split_ifs with hwH
    · exact Or.inl ⟨hf, (h.distinct H n le_rfl (by omega) hn' hwH hw).symm⟩
    · exact hf
  · intro n m hn hnm hm hwn hwm
    exact h.distinct n m (by omega) hnm hm hwn hwm
  · intro n hn hn' hw
    rw [hmap n (by omega)]
    exact h.pfree_eq n (by omega) hn' hw
  · rw [hmap T hlt]
    exact h.rat_eq
  · intro p
    rw [h.free_iff, freeAfter]
    constructor
    · rintro (⟨hf, hn⟩ | ⟨hwH, hp, hz⟩)
      · refine ⟨?_, fun n hn₁ hn₂ hw => hn n (by omega) hn₂ hw⟩
        split_ifs with hwH
        · exact Or.inl ⟨hf, (hn H le_rfl hlt hwH).symm⟩
        · exact hf
      · rw [if_pos hwH]
        refine ⟨Or.inr ⟨hp, hz⟩, fun n hn₁ hn₂ hw => ?_⟩
        rw [hp]
        exact h.pfree_head_ne hlt hwH (by omega) hn₂ hw
    · split_ifs with hwH
      · rintro ⟨⟨hf, hne⟩ | ⟨hp, hz⟩, hn⟩
        · refine Or.inl ⟨hf, fun n hn₁ hn₂ hw => ?_⟩
          rcases Nat.lt_or_eq_of_le hn₁ with hlt' | rfl
          · exact hn n hlt' hn₂ hw
          · exact hne.symm
        · exact Or.inr ⟨hwH, hp, hz⟩
      · rintro ⟨hf, hn⟩
        refine Or.inl ⟨hf, fun n hn₁ hn₂ hw => ?_⟩
        rcases Nat.lt_or_eq_of_le hn₁ with hlt' | rfl
        · exact hn n hlt' hn₂ hw
        · exact absurd hw hwH

omit h in
/-- Several renamings in one step. -/
theorem pushes (m : ℕ) (h : Chain zero arat afree ins H T rat free)
    (ha : ∀ k < m, (ins (T + k)).we = true → free (ins (T + k)).prd)
    (hd : ∀ j k, j < k → k < m → (ins (T + j)).we = true → (ins (T + k)).we = true →
      (ins (T + k)).prd ≠ (ins (T + j)).prd)
    (hp : ∀ k < m, (ins (T + k)).we = true →
      (ins (T + k)).pfree = mapFrom ins rat T k (ins (T + k)).lrd) :
    Chain zero arat afree ins H (T + m) (mapFrom ins rat T m)
      fun p => free p ∧ ∀ k < m, (ins (T + k)).we = true → p ≠ (ins (T + k)).prd := by
  induction m with
  | zero => simpa [mapFrom] using h
  | succ m ih =>
      have ih := ih (fun k hk => ha k (by omega)) (fun j k hjk hk => hd j k hjk (by omega))
        fun k hk => hp k (by omega)
      have := ih.push (fun hw => ⟨ha m (by omega) hw, fun k hk hwk => hd k m hk (by omega) hwk hw⟩)
        (hp m (by omega))
      refine cast ?_ this
      congr 1
      funext p
      simp only [Nat.lt_succ_iff_lt_or_eq, or_imp, forall_and, forall_eq, and_assoc]

omit h in
/-- Several commits in one step. -/
theorem commits (c : ℕ) (h : Chain zero arat afree ins H T rat free) (hc : H + c ≤ T) :
    Chain zero (mapFrom ins arat H c) (freeFrom zero ins afree H c) ins (H + c) T rat
      fun p => free p ∨ ∃ k < c, (ins (H + k)).we = true ∧ p = (ins (H + k)).pfree ∧ p ≠ zero := by
  induction c with
  | zero => simpa [mapFrom, freeFrom] using h
  | succ c ih =>
      have := (ih (by omega)).commit (by omega)
      refine cast ?_ this
      congr 1
      funext p
      simp only [Nat.lt_succ_iff_lt_or_eq, or_and_right, exists_or, exists_eq_left, or_assoc]

end Chain
