/-
**Write-back caches.**

A cache has slots, each of which may hold a line of memory.  A store changes the line in its slot
only and marks the slot as dirty, so what the program has written is spread over the memory and the
dirty slots.  `Rep` says that the two together represent a flat memory.  While a line is on its way
its slot, or the memory, is not to be trusted: the slots in `skip` are being filled, and the lines
in `away` are being written to memory.  Nothing here is about a particular cache.

Main definitions:

* `Contents` — what is in the slots;
* `Contents.Ok` — no line is in two slots, and dirty slots hold lines;
* `Contents.Rep` — the slots and the memory represent a flat memory;
* `Contents.store`, `Contents.evict`, `Contents.clear` — the changes of the slots.

Main results:

* `Contents.Ok.evict`, `Contents.Ok.clear` — the slots stay in order;
* `Contents.Rep.store`, `Contents.Rep.evict`, `Contents.Rep.sending`, `Contents.Rep.landed`,
  `Contents.Rep.filling`, `Contents.Rep.filled` — the steps of a write-back cache.
-/

import Mathlib.Tactic

set_option relaxedAutoImplicit false
set_option autoImplicit false

namespace WriteBack

/-- The slots `κ` of a cache: the line that a slot holds, whether it has been written to, and the
data. -/
structure Contents (κ ℓ δ : Type*) where
  line : κ → Option ℓ
  dirty : κ → Bool
  data : κ → δ

namespace Contents

variable {κ ℓ δ : Type*} {c : Contents κ ℓ δ} {mem mem' F : ℓ → δ} {skip : κ → Prop}
  {away : ℓ → Prop} {a : κ} {l : ℓ}

/-- A line is in one slot at most, and a dirty slot holds a line. -/
structure Ok (c : Contents κ ℓ δ) : Prop where
  uniq : ∀ a b l, c.line a = some l → c.line b = some l → a = b
  valid : ∀ a, c.dirty a = true → (c.line a).isSome = true

/-- The slots outside `skip`, and the lines of the memory outside `away` that no dirty slot holds,
have the data of the flat memory `F`. -/
structure Rep (c : Contents κ ℓ δ) (mem F : ℓ → δ) (skip : κ → Prop) (away : ℓ → Prop) : Prop where
  uniq : ∀ a b l, c.line a = some l → c.line b = some l → a = b
  valid : ∀ a, c.dirty a = true → (c.line a).isSome = true
  data : ∀ a l, c.line a = some l → ¬ skip a → c.data a = F l
  mem : ∀ l, ¬ away l → (∀ a, c.line a = some l → c.dirty a = false) → mem l = F l

theorem Rep.ok (h : c.Rep mem F skip away) : c.Ok := ⟨h.uniq, h.valid⟩

/-- An empty cache and a memory. -/
theorem rep_of_empty (hl : ∀ a, c.line a = none) (hd : ∀ a, c.dirty a = false) :
    c.Rep F F (fun _ => False) fun _ => False where
  uniq a b l h _ := by
    rw [hl] at h
    cases h
  valid a h := by
    rw [hd] at h
    cases h
  data a l h _ := by
    rw [hl] at h
    cases h
  mem l _ _ := rfl

/-- While lines are sent to memory only these change there. -/
theorem Rep.sending (h : c.Rep mem F skip away) (hm : ∀ l, ¬ away l → mem' l = mem l) :
    c.Rep mem' F skip away where
  uniq := h.uniq
  valid := h.valid
  data := h.data
  mem l hl hd := (hm l hl).trans (h.mem l hl hd)

/-- All lines have arrived. -/
theorem Rep.landed (h : c.Rep mem F skip away) (hm : ∀ l, ¬ away l → mem' l = mem l)
    (hl : ∀ l, away l → mem' l = F l) : c.Rep mem' F skip fun _ => False where
  uniq := h.uniq
  valid := h.valid
  data := h.data
  mem l _ hd := by
    by_cases hw : away l
    · exact hl l hw
    · exact (hm l hw).trans (h.mem l hw hd)

/-- The line has been filled. -/
theorem Rep.filled (h : c.Rep mem F (fun b => b = a) away) (hl : c.line a = some l)
    (hd : c.data a = F l) : c.Rep mem F (fun _ => False) away where
  uniq := h.uniq
  valid := h.valid
  data b l' hb _ := by
    by_cases hba : b = a
    · subst hba
      rw [hl, Option.some_inj] at hb
      rw [← hb, hd]
    · exact h.data b l' hb hba
  mem := h.mem

/-- The slots in `K` are emptied. -/
def clear (c : Contents κ ℓ δ) (K : κ → Prop) [DecidablePred K] : Contents κ ℓ δ :=
  { c with
    line := fun a => if K a then none else c.line a
    dirty := fun a => if K a then false else c.dirty a }

theorem Ok.clear (h : c.Ok) (K : κ → Prop) [DecidablePred K] : (c.clear K).Ok where
  uniq a b l ha hb := by
    simp only [Contents.clear] at ha hb
    split_ifs at ha hb
    exact h.uniq a b l ha hb
  valid a ha := by
    simp only [Contents.clear] at ha ⊢
    split_ifs at ha ⊢
    exact h.valid a ha

variable [DecidableEq κ]

/-- A store to a slot. -/
def store (c : Contents κ ℓ δ) (a : κ) (v : δ) : Contents κ ℓ δ :=
  { c with dirty := Function.update c.dirty a true, data := Function.update c.data a v }

/-- A slot is given to another line. -/
def evict (c : Contents κ ℓ δ) (a : κ) (l : ℓ) : Contents κ ℓ δ :=
  { c with line := Function.update c.line a (some l), dirty := Function.update c.dirty a false }

/-- The data of a slot changes. -/
def setData (c : Contents κ ℓ δ) (a : κ) (v : δ) : Contents κ ℓ δ :=
  { c with data := Function.update c.data a v }

@[simp] theorem store_line (c : Contents κ ℓ δ) (a : κ) (v : δ) : (c.store a v).line = c.line := rfl

@[simp] theorem store_dirty (c : Contents κ ℓ δ) (a : κ) (v : δ) :
    (c.store a v).dirty = Function.update c.dirty a true := rfl

@[simp] theorem store_data (c : Contents κ ℓ δ) (a : κ) (v : δ) :
    (c.store a v).data = Function.update c.data a v := rfl

@[simp] theorem evict_line (c : Contents κ ℓ δ) (a : κ) (l : ℓ) :
    (c.evict a l).line = Function.update c.line a (some l) := rfl

@[simp] theorem evict_dirty (c : Contents κ ℓ δ) (a : κ) (l : ℓ) :
    (c.evict a l).dirty = Function.update c.dirty a false := rfl

@[simp] theorem evict_data (c : Contents κ ℓ δ) (a : κ) (l : ℓ) : (c.evict a l).data = c.data := rfl

@[simp] theorem setData_data (c : Contents κ ℓ δ) (a : κ) (v : δ) :
    (c.setData a v).data = Function.update c.data a v := rfl

/-- A slot is given to a line that no slot holds. -/
theorem Ok.evict (h : c.Ok) (hl : ∀ b, c.line b ≠ some l) (a : κ) : (c.evict a l).Ok where
  uniq b b' l' hb hb' := by
    simp only [evict_line, Function.update_apply] at hb hb'
    split_ifs at hb hb' with h₁ h₂ h₂
    · rw [h₁, h₂]
    · rw [Option.some_inj] at hb
      exact absurd (hb ▸ hb') (hl b')
    · rw [Option.some_inj] at hb'
      exact absurd (hb' ▸ hb) (hl b)
    · exact h.uniq b b' l' hb hb'
  valid b hb := by
    simp only [evict_line, evict_dirty, Function.update_apply] at hb ⊢
    split_ifs with hba
    · rfl
    · rw [if_neg hba] at hb
      exact h.valid b hb

/-- A slot that is not to be trusted may get any data. -/
theorem Rep.filling (h : c.Rep mem F skip away) (hs : skip a) (v : δ) :
    (c.setData a v).Rep mem F skip away where
  uniq := h.uniq
  valid := h.valid
  data b l hb hn := by
    have hne : b ≠ a := by
      rintro rfl
      exact hn hs
    rw [setData_data, Function.update_of_ne hne]
    exact h.data b l hb hn
  mem := h.mem

/-- The victim of an eviction goes to memory if it is dirty. -/
theorem Rep.evict (h : c.Rep mem F (fun _ => False) fun _ => False) (hl : ∀ b, c.line b ≠ some l)
    (a : κ) : (c.evict a l).Rep mem F (fun b => b = a) fun l' => c.line a = some l' ∧
      c.dirty a = true where
  uniq := (h.ok.evict hl a).uniq
  valid := (h.ok.evict hl a).valid
  data b l' hb hba := by
    rw [evict_line, Function.update_of_ne hba] at hb
    exact h.data b l' hb id
  mem l' hw hd := by
    refine h.mem l' id fun b hb => ?_
    by_contra hne
    rw [Bool.not_eq_false] at hne
    by_cases hba : b = a
    · subst hba
      exact hw ⟨hb, hne⟩
    · have := hd b (by rw [evict_line, Function.update_of_ne hba]; exact hb)
      rw [evict_dirty, Function.update_of_ne hba, hne] at this
      cases this

variable [DecidableEq ℓ]

/-- A store to a line that is held. -/
theorem Rep.store (h : c.Rep mem F (fun _ => False) fun _ => False)
    (hl : c.line a = some l) (v : δ) :
    (c.store a v).Rep mem (Function.update F l v) (fun _ => False) fun _ => False where
  uniq := h.uniq
  valid b hb := by
    by_cases hba : b = a
    · subst hba
      rw [store_line, hl]
      rfl
    · rw [store_dirty, Function.update_of_ne hba] at hb
      exact h.valid b hb
  data b l' hb _ := by
    have hb' : c.line b = some l' := hb
    by_cases hba : b = a
    · subst hba
      rw [hl, Option.some_inj] at hb'
      rw [store_data, Function.update_self, ← hb', Function.update_self]
    · have hne : l' ≠ l := by
        rintro rfl
        exact hba (h.uniq b a l' hb' hl)
      rw [store_data, Function.update_of_ne hba, Function.update_of_ne hne]
      exact h.data b l' hb' id
  mem l' _ hd := by
    have hne : l' ≠ l := by
      rintro rfl
      have := hd a hl
      rw [store_dirty, Function.update_self] at this
      cases this
    rw [Function.update_of_ne hne]
    refine h.mem l' id fun b hb => ?_
    have hba : b ≠ a := by
      rintro rfl
      rw [hl, Option.some_inj] at hb
      exact hne hb.symm
    have := hd b hb
    rwa [store_dirty, Function.update_of_ne hba] at this

end Contents

end WriteBack
