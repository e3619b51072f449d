/-
**A reservation station issues every instruction once** (`rtl/core/issue_rs.v`, `issue.v`, `ro.v`).

The slot to issue from is chosen one cycle before its instruction is shown to the operand stage, and
chosen again as long as that stage does not take it; what is shown has been read in the cycle of the
choice.  Beside the station runs a log in which the instructions that are pushed are numbered: it
says which number a slot holds, what the operand stage has taken and under which number, and which
numbers were flushed.  The surroundings push only into a station that is not full, and take only
what is shown; a source of an instruction inside never becomes busy again, there are only wake-ups.

Main definitions:

* `RsItem`, `Rs.item`, `Rs.shown` — an instruction with its sources, in a slot and as it is shown;
* `RsLog`, `Rs.station` — the log, and the station with its log;
* `Rs.Logged` — what the log says of the station.

Main results:

* `Rs.Logged.next` — one cycle keeps the log in step with the station;
* `Rs.drain_taken` — a station into which nothing is pushed runs empty;
* `Rs.issued_once` — exactly-once issue;
* `Backend.station_of_reach` — the stations of the back-end keep these promises.
-/

import NanoCpu.BusyTable

set_option relaxedAutoImplicit false
set_option autoImplicit false
set_option linter.unusedSectionVars false

namespace NanoCpu

/-! ### The log -/

/-- What a slot holds: the payload and the sources. -/
structure RsItem where
  opp : Opp
  prs1 : PReg
  prs2 : PReg
  prs1Re : Bool
  prs2Re : Bool

/-- What has been pushed, the number of the instruction in each slot, what the operand stage has
taken, the numbers that were flushed, and the busy table of the last cycle. -/
structure RsLog (n : ℕ) where
  pushed : List RsItem
  tag : Fin n → ℕ
  issued : List (ℕ × RsItem)
  flushed : List ℕ
  seen : PReg → Bool

def RsIn.item (x : RsIn) : RsItem := ⟨x.opp, x.prs1, x.prs2, x.prs1Re, x.prs2Re⟩

/-- The enabled sources are not busy. -/
def RsItem.Awake (it : RsItem) (busytable : PReg → Bool) : Prop :=
  (it.prs1Re = true → busytable it.prs1 = false) ∧ (it.prs2Re = true → busytable it.prs2 = false)

namespace Rs

variable {n : ℕ} [NeZero n]

def item (s : Rs n) (a : Fin n) : RsItem :=
  ⟨s.payload a, s.prs1Rf a, s.prs2Rf a, s.prs1ReRf a, s.prs2ReRf a⟩

/-- What the operand stage is shown. -/
def shown (s : Rs n) : RsItem := ⟨s.oppRdat, s.roPrs1, s.roPrs2, s.roPrs1Re, s.roPrs2Re⟩

/-- The slots that hold instructions. -/
def taken (s : Rs n) : List (Fin n) := (List.finRange n).filter fun a => !s.freeVec a

/-- The numbers of the instructions inside. -/
def inside (s : Rs n) (l : RsLog n) : List ℕ := s.taken.map l.tag

/-- The log after a cycle.  What is taken in the cycle of a flush is flushed with the rest. -/
def logNext (s : Rs n) (l : RsLog n) (x : RsIn) : RsLog n where
  pushed := if x.push then l.pushed ++ [x.item] else l.pushed
  tag := s.write x l.pushed.length l.tag
  issued :=
    if x.pop && !x.flush then l.issued ++ [(l.tag s.rdyAddrFf, s.shown)] else l.issued
  flushed :=
    if x.flush then l.flushed ++ s.inside l ++ (if x.push then [l.pushed.length] else [])
    else l.flushed
  seen := x.busytable

def logReset (n : ℕ) : RsLog n := ⟨[], fun _ => 0, [], [], fun _ => false⟩

/-- An instruction inside has its sources woken up for good. -/
def Wakes (s : Rs n) (l : RsLog n) (x : RsIn) : Prop :=
  ∀ a, s.freeVec a = false →
    (s.prs1ReRf a = true → l.seen (s.prs1Rf a) = false → x.busytable (s.prs1Rf a) = false) ∧
    (s.prs2ReRf a = true → l.seen (s.prs2Rf a) = false → x.busytable (s.prs2Rf a) = false)

/-- The station with its log: `opp` is what the memories hold after reset. -/
def station (n : ℕ) [NeZero n] (opp : Opp) : Machine (Rs n × RsLog n) RsIn where
  reset := (Rs.reset n opp, logReset n)
  allowed q x := (x.push = true → q.1.full = false) ∧ (x.pop = true → q.1.hasRdyFf = true) ∧
    q.1.Wakes q.2 x
  next q x := (q.1.next x, q.1.logNext q.2 x)

/-- The instructions that have been pushed are those taken by the operand stage, those flushed, and
those inside; the slots hold what was pushed, and what is shown is what the chosen slot holds. -/
structure Logged (s : Rs n) (l : RsLog n) : Prop where
  slot : ∀ a, s.freeVec a = false → l.pushed[l.tag a]? = some (s.item a)
  inj : ∀ a b, s.freeVec a = false → s.freeVec b = false → l.tag a = l.tag b → a = b
  gone : ∀ a, s.freeVec a = false → l.tag a ∉ l.issued.map Prod.fst ∧ l.tag a ∉ l.flushed
  out : ∀ k it, (k, it) ∈ l.issued → l.pushed[k]? = some it
  nodup : (l.issued.map Prod.fst ++ l.flushed).Nodup
  lost : ∀ k ∈ l.flushed, k < l.pushed.length
  total : ∀ k < l.pushed.length,
    k ∈ l.issued.map Prod.fst ∨ k ∈ l.flushed ∨ ∃ a, s.freeVec a = false ∧ l.tag a = k
  rdy : s.hasRdyFf = true → s.freeVec s.rdyAddrFf = false ∧ s.shown = s.item s.rdyAddrFf ∧
    s.shown.Awake l.seen

variable {opp : Opp} {s : Rs n} {l : RsLog n} {x : RsIn} {a : Fin n}

theorem mem_taken : a ∈ s.taken ↔ s.freeVec a = false := by
  simp [taken]

theorem nodup_taken : s.taken.Nodup := (List.nodup_finRange n).filter _

theorem mem_inside {k : ℕ} : k ∈ s.inside l ↔ ∃ a, s.freeVec a = false ∧ l.tag a = k := by
  simp only [inside, List.mem_map, mem_taken]

theorem logged_reset (n : ℕ) [NeZero n] (opp : Opp) : (Rs.reset n opp).Logged (logReset n) where
  slot a h := by cases h
  inj a b h := by cases h
  gone a h := by cases h
  out k it h := by cases h
  nodup := List.nodup_nil
  lost k h := by cases h
  total k h := absurd h (Nat.not_lt_zero k)
  rdy h := by cases h

/-! ### One cycle -/

/-- A slot that holds an instruction after the cycle has just been pushed, or held it before and was
not taken from. -/
theorem freeVec_next_eq :
    (s.next x).freeVec a = false ↔ x.flush = false ∧ ¬ (x.pop = true ∧ a = s.rdyAddrFf) ∧
      (s.freeVec a = false ∨ (x.push = true ∧ a = s.freeAddr)) := by
  change (x.flush || (x.pop && a == s.rdyAddrFf) || (s.freeVec a && !(x.push && a == s.freeAddr))) =
    false ↔ _
  simp only [Bool.or_eq_false_iff, and_assoc, Bool.and_eq_false_iff, beq_eq_false_iff_ne,
    Bool.not_eq_false', Bool.and_eq_true, beq_iff_eq, not_and_or, Bool.not_eq_true]

theorem write_of_ne {α : Type*} (d : α) (m : Fin n → α) (h : ¬ (x.push = true ∧ a = s.freeAddr)) :
    s.write x d m a = m a := by
  unfold write
  split_ifs with hp
  · exact Function.update_of_ne (fun he => h ⟨hp, he⟩) _ _
  · rfl

theorem write_self {α : Type*} (d : α) (m : Fin n → α) (h : x.push = true) :
    s.write x d m s.freeAddr = d := by
  rw [write, if_pos h, Function.update_self]

theorem item_next_of_ne (h : ¬ (x.push = true ∧ a = s.freeAddr)) :
    (s.next x).item a = s.item a := by
  simp only [item, next, write_of_ne _ _ h]

theorem item_next_self (h : x.push = true) : (s.next x).item s.freeAddr = x.item := by
  simp only [item, next, write_self _ _ h, RsIn.item]

theorem pushed_next : ∃ r, (s.logNext l x).pushed = l.pushed ++ r := by
  change ∃ r, (if x.push then _ else _) = _
  split_ifs
  · exact ⟨_, rfl⟩
  · exact ⟨[], (List.append_nil _).symm⟩

/-- What has been pushed keeps its number. -/
theorem pushed_next_of_some {k : ℕ} {it : RsItem} (h : l.pushed[k]? = some it) :
    (s.logNext l x).pushed[k]? = some it := by
  obtain ⟨r, hr⟩ := pushed_next (s := s) (l := l) (x := x)
  rw [hr, List.getElem?_append_left (List.getElem?_eq_some_iff.1 h).1, h]

/-- A cycle without a push or with one: the new instruction gets the next number. -/
theorem lt_pushed_next {k : ℕ} (h : k < (s.logNext l x).pushed.length) :
    k < l.pushed.length ∨ (x.push = true ∧ k = l.pushed.length) := by
  change k < (if x.push then _ else _ : List RsItem).length at h
  split_ifs at h with hp
  · rw [List.length_append, List.length_singleton] at h
    rcases Nat.lt_succ_iff_lt_or_eq.1 h with h | h
    · exact Or.inl h
    · exact Or.inr ⟨hp, h⟩
  · exact Or.inl h

theorem Logged.tag_lt (h : s.Logged l) (ha : s.freeVec a = false) : l.tag a < l.pushed.length :=
  (List.getElem?_eq_some_iff.1 (h.slot a ha)).1

theorem Logged.issued_lt (h : s.Logged l) {k : ℕ} (hk : k ∈ l.issued.map Prod.fst) :
    k < l.pushed.length := by
  obtain ⟨⟨k, it⟩, hm, rfl⟩ := List.mem_map.1 hk
  exact (List.getElem?_eq_some_iff.1 (h.out k it hm)).1

/-- A flush loses what is inside, and what is pushed in its cycle. -/
theorem Logged.next_flush (h : s.Logged l) (hf : x.flush = true) :
    (s.next x).Logged (s.logNext l x) := by
  have hfree : ∀ a, (s.next x).freeVec a ≠ false := by
    intro a ha
    rw [freeVec_next_eq, hf] at ha
    cases ha.1
  have hiss : (s.logNext l x).issued = l.issued := by
    change (if x.pop && !x.flush then _ else _) = _
    rw [hf, Bool.not_true, Bool.and_false, if_neg Bool.false_ne_true]
  have hfl : (s.logNext l x).flushed =
      l.flushed ++ s.inside l ++ (if x.push then [l.pushed.length] else []) := by
    change (if x.flush then _ else _) = _
    rw [if_pos hf]
  have hin : ∀ k ∈ s.inside l, k < l.pushed.length ∧ k ∉ l.issued.map Prod.fst ∧ k ∉ l.flushed := by
    intro k hk
    obtain ⟨a, ha, rfl⟩ := mem_inside.1 hk
    exact ⟨h.tag_lt ha, h.gone a ha⟩
  have hlen : (s.logNext l x).pushed.length = l.pushed.length + if x.push then 1 else 0 := by
    change (if x.push then _ else _ : List RsItem).length = _
    split_ifs <;> simp
  refine ⟨fun a ha => absurd ha (hfree a), fun a _ ha => absurd ha (hfree a),
    fun a ha => absurd ha (hfree a), ?_, ?_, ?_, ?_, ?_⟩
  · intro k it hk
    rw [hiss] at hk
    exact pushed_next_of_some (h.out k it hk)
  · rw [hiss, hfl]
    have hnd : (s.inside l).Nodup := by
      refine List.Nodup.map_on (fun a ha b hb he => ?_) nodup_taken
      exact h.inj a b (mem_taken.1 ha) (mem_taken.1 hb) he
    have h₁ : (l.issued.map Prod.fst ++ l.flushed ++ s.inside l).Nodup := by
      refine h.nodup.append hnd fun k hk hk' => ?_
      obtain ⟨-, h₁, h₂⟩ := hin k hk'
      rcases List.mem_append.1 hk with hk | hk
      · exact h₁ hk
      · exact h₂ hk
    rw [← List.append_assoc, ← List.append_assoc]
    split_ifs
    · refine h₁.append (List.nodup_singleton _) fun k hk hk' => ?_
      rw [List.mem_singleton] at hk'
      have : k < l.pushed.length := by
        rcases List.mem_append.1 hk with hk | hk
        · rcases List.mem_append.1 hk with hk | hk
          · exact h.issued_lt hk
          · exact h.lost k hk
        · exact (hin k hk).1
      omega
    · rwa [List.append_nil]
  · intro k hk
    rw [hfl, List.mem_append, List.mem_append] at hk
    rw [hlen]
    rcases hk with (hk | hk) | hk
    · exact lt_of_lt_of_le (h.lost k hk) (Nat.le_add_right _ _)
    · exact lt_of_lt_of_le (hin k hk).1 (Nat.le_add_right _ _)
    · split_ifs at hk ⊢
      · rw [List.mem_singleton] at hk
        omega
      · cases hk
  · intro k hk
    rw [hiss, hfl]
    rcases lt_pushed_next hk with hk | ⟨hp, rfl⟩
    · rcases h.total k hk with h' | h' | h'
      · exact Or.inl h'
      · exact Or.inr (Or.inl (List.mem_append_left _ (List.mem_append_left _ h')))
      · exact Or.inr (Or.inl (List.mem_append_left _ (List.mem_append_right _ (mem_inside.2 h'))))
    · refine Or.inr (Or.inl (List.mem_append_right _ ?_))
      rw [if_pos hp]
      exact List.mem_singleton_self _
  · intro hr
    have : (s.hasRdy x && !x.flush) = true := hr
    rw [hf, Bool.not_true, Bool.and_false] at this
    cases this

/-- The choice of the next cycle. -/
theorem rdy_next (hx : x.push = true → s.full = false) (hf : x.flush = false)
    (hr : s.hasRdy x = true) :
    (s.next x).freeVec (s.next x).rdyAddrFf = false ∧
      (s.next x).shown = (s.next x).item (s.next x).rdyAddrFf ∧
      (s.next x).shown.Awake x.busytable := by
  have hv := rdyAddr_mem hr
  simp only [rdyVec, freeVecByp, Bool.and_eq_true, Bool.not_eq_true', Bool.or_eq_false_iff,
    Bool.and_eq_false_iff, beq_eq_false_iff_ne, Bool.or_eq_true] at hv
  obtain ⟨⟨⟨hocc, hpop⟩, hb₁⟩, hb₂⟩ := hv
  have haddr : (s.next x).rdyAddrFf = s.rdyAddr x := by
    change ldff (s.hasRdy x) _ _ = _
    rw [hr, ldff_true]
  have hnp : ¬ (x.push = true ∧ s.rdyAddr x = s.freeAddr) := by
    rintro ⟨hp, he⟩
    have := freeAddr_mem (hx hp)
    rw [← he, hocc] at this
    cases this
  have hshown : (s.next x).shown = s.item (s.rdyAddr x) := by
    simp only [shown, item, next, hr, ldff_true]
  refine ⟨?_, ?_, ?_⟩
  · rw [haddr, freeVec_next_eq]
    refine ⟨hf, ?_, Or.inl hocc⟩
    rintro ⟨hp, he⟩
    rcases hpop with hpop | hpop
    · rw [hp] at hpop
      cases hpop
    · exact hpop he
  · rw [hshown, haddr, item_next_of_ne hnp]
  · rw [hshown]
    refine ⟨fun he => ?_, fun he => ?_⟩
    · exact hb₁.resolve_left fun h' => Bool.false_ne_true (h'.symm.trans he)
    · exact hb₂.resolve_left fun h' => Bool.false_ne_true (h'.symm.trans he)

/-! ### A cycle without a flush -/

theorem issued_next (hf : x.flush = false) : (s.logNext l x).issued =
    l.issued ++ if x.pop then [(l.tag s.rdyAddrFf, s.shown)] else [] := by
  change (if x.pop && !x.flush then _ else _) = _
  rw [hf, Bool.not_false, Bool.and_true]
  split_ifs
  · rfl
  · rw [List.append_nil]

theorem mem_issued_next (hf : x.flush = false) {k : ℕ} : k ∈ (s.logNext l x).issued.map Prod.fst ↔
    k ∈ l.issued.map Prod.fst ∨ (x.pop = true ∧ k = l.tag s.rdyAddrFf) := by
  rw [issued_next hf, List.map_append, List.mem_append]
  refine or_congr_right ?_
  split_ifs with hp <;> simp [hp]

theorem flushed_next (hf : x.flush = false) : (s.logNext l x).flushed = l.flushed := by
  change (if x.flush then _ else _) = _
  rw [hf, if_neg Bool.false_ne_true]

/-- What is inside after the cycle was there and has not been taken, or has just been pushed. -/
theorem of_freeVec_next (ha : (s.next x).freeVec a = false) :
    (s.freeVec a = false ∧ ¬ (x.pop = true ∧ a = s.rdyAddrFf)) ∨
    (x.push = true ∧ a = s.freeAddr) := by
  obtain ⟨-, hp, hc⟩ := freeVec_next_eq.1 ha
  exact hc.imp (fun h' => ⟨h', hp⟩) id

theorem tag_next_self (hp : x.push = true) : (s.logNext l x).tag s.freeAddr = l.pushed.length :=
  write_self _ _ hp

/-- The slot that is pushed to was free. -/
theorem not_pushed_of_freeVec (hx : x.push = true → s.full = false) (ha : s.freeVec a = false) :
    ¬ (x.push = true ∧ a = s.freeAddr) := by
  rintro ⟨hp, rfl⟩
  rw [freeAddr_mem (hx hp)] at ha
  cases ha

theorem tag_next (hx : x.push = true → s.full = false) (ha : s.freeVec a = false) :
    (s.logNext l x).tag a = l.tag a := write_of_ne _ _ (not_pushed_of_freeVec hx ha)

theorem Logged.slot_next (h : s.Logged l) (hx : x.push = true → s.full = false) (a : Fin n)
    (ha : (s.next x).freeVec a = false) :
    (s.logNext l x).pushed[(s.logNext l x).tag a]? = some ((s.next x).item a) := by
  rcases of_freeVec_next ha with ⟨ho, -⟩ | ⟨hp, rfl⟩
  · rw [tag_next hx ho, item_next_of_ne (not_pushed_of_freeVec hx ho)]
    exact pushed_next_of_some (h.slot a ho)
  · rw [tag_next_self hp, item_next_self hp]
    change (if x.push then _ else _ : List RsItem)[l.pushed.length]? = _
    rw [if_pos hp, List.getElem?_append_right le_rfl, Nat.sub_self]
    rfl

theorem Logged.inj_next (h : s.Logged l) (hx : x.push = true → s.full = false) (a b : Fin n)
    (ha : (s.next x).freeVec a = false) (hb : (s.next x).freeVec b = false)
    (he : (s.logNext l x).tag a = (s.logNext l x).tag b) : a = b := by
  rcases of_freeVec_next ha with ⟨ho, -⟩ | ⟨hp, rfl⟩ <;>
    rcases of_freeVec_next hb with ⟨ho', -⟩ | ⟨hp', rfl⟩
  · rw [tag_next hx ho, tag_next hx ho'] at he
    exact h.inj a b ho ho' he
  · rw [tag_next hx ho, tag_next_self hp'] at he
    have := h.tag_lt ho
    omega
  · rw [tag_next hx ho', tag_next_self hp] at he
    have := h.tag_lt ho'
    omega
  · rfl

/-- What is inside has not gone. -/
theorem Logged.gone_next (h : s.Logged l) (hx : x.push = true → s.full = false)
    (hpop : x.pop = true → s.hasRdyFf = true) (hf : x.flush = false) (a : Fin n)
    (ha : (s.next x).freeVec a = false) :
    (s.logNext l x).tag a ∉ (s.logNext l x).issued.map Prod.fst ∧
      (s.logNext l x).tag a ∉ (s.logNext l x).flushed := by
  rw [mem_issued_next hf, flushed_next hf]
  rcases of_freeVec_next ha with ⟨ho, hn⟩ | ⟨hp, rfl⟩
  · rw [tag_next hx ho]
    refine ⟨?_, (h.gone a ho).2⟩
    rintro (h' | ⟨hp, he⟩)
    · exact (h.gone a ho).1 h'
    · exact hn ⟨hp, h.inj a _ ho (h.rdy (hpop hp)).1 he⟩
  · rw [tag_next_self hp]
    refine ⟨?_, fun h' => lt_irrefl _ (h.lost _ h')⟩
    rintro (h' | ⟨hp', he⟩)
    · exact lt_irrefl _ (h.issued_lt h')
    · exact (h.tag_lt (h.rdy (hpop hp')).1).ne' he

/-- What has been taken is what was pushed. -/
theorem Logged.out_next (h : s.Logged l) (hpop : x.pop = true → s.hasRdyFf = true)
    (hf : x.flush = false) (k : ℕ) (it : RsItem) (hk : (k, it) ∈ (s.logNext l x).issued) :
    (s.logNext l x).pushed[k]? = some it := by
  rw [issued_next hf, List.mem_append] at hk
  rcases hk with hk | hk
  · exact pushed_next_of_some (h.out k it hk)
  · split_ifs at hk with hp
    · obtain ⟨rfl, rfl⟩ := Prod.mk.inj (List.mem_singleton.1 hk)
      obtain ⟨ho, hs, -⟩ := h.rdy (hpop hp)
      rw [hs]
      exact pushed_next_of_some (h.slot _ ho)
    · cases hk

/-- It is taken once. -/
theorem Logged.nodup_next (h : s.Logged l) (hpop : x.pop = true → s.hasRdyFf = true)
    (hf : x.flush = false) :
    ((s.logNext l x).issued.map Prod.fst ++ (s.logNext l x).flushed).Nodup := by
  rw [flushed_next hf, issued_next hf, List.map_append]
  split_ifs with hp
  · have hg := h.gone _ (h.rdy (hpop hp)).1
    rw [List.map_singleton, List.append_assoc, List.singleton_append, List.nodup_middle]
    refine List.nodup_cons.2 ⟨fun h' => ?_, h.nodup⟩
    exact (List.mem_append.1 h').elim hg.1 hg.2
  · rw [List.map_nil, List.append_nil]
    exact h.nodup

/-- Nothing is lost. -/
theorem Logged.total_next (h : s.Logged l) (hx : x.push = true → s.full = false)
    (hpop : x.pop = true → s.hasRdyFf = true) (hf : x.flush = false) (k : ℕ)
    (hk : k < (s.logNext l x).pushed.length) :
    k ∈ (s.logNext l x).issued.map Prod.fst ∨ k ∈ (s.logNext l x).flushed ∨
      ∃ a, (s.next x).freeVec a = false ∧ (s.logNext l x).tag a = k := by
  rw [mem_issued_next hf, flushed_next hf]
  rcases lt_pushed_next hk with hk | ⟨hp, rfl⟩
  · rcases h.total k hk with h' | h' | ⟨a, ha, rfl⟩
    · exact Or.inl (Or.inl h')
    · exact Or.inr (Or.inl h')
    · by_cases hp : x.pop = true ∧ a = s.rdyAddrFf
      · obtain ⟨hp, rfl⟩ := hp
        exact Or.inl (Or.inr ⟨hp, rfl⟩)
      · exact Or.inr (Or.inr ⟨a, freeVec_next_eq.2 ⟨hf, hp, Or.inl ha⟩, tag_next hx ha⟩)
  · refine Or.inr (Or.inr ⟨s.freeAddr, freeVec_next_eq.2 ⟨hf, ?_, Or.inr ⟨hp, rfl⟩⟩,
      tag_next_self hp⟩)
    rintro ⟨hp', he⟩
    exact not_pushed_of_freeVec hx (h.rdy (hpop hp')).1 ⟨hp, he.symm⟩

theorem Logged.next_run (h : s.Logged l) (hx : x.push = true → s.full = false)
    (hpop : x.pop = true → s.hasRdyFf = true) (hf : x.flush = false) :
    (s.next x).Logged (s.logNext l x) where
  slot := h.slot_next hx
  inj := h.inj_next hx
  gone := h.gone_next hx hpop hf
  out := h.out_next hpop hf
  nodup := h.nodup_next hpop hf
  lost k hk := by
    rw [flushed_next hf] at hk
    obtain ⟨r, hr⟩ := pushed_next (s := s) (l := l) (x := x)
    rw [hr, List.length_append]
    exact lt_of_lt_of_le (h.lost k hk) (Nat.le_add_right _ _)
  total := h.total_next hx hpop hf
  rdy hr := by
    have : (s.hasRdy x && !x.flush) = true := hr
    rw [hf, Bool.not_false, Bool.and_true] at this
    exact rdy_next hx hf this

/-- **One cycle** keeps the log in step with the station. -/
theorem Logged.next (h : s.Logged l) (hx : (station n opp).allowed (s, l) x) :
    (s.next x).Logged (s.logNext l x) := by
  cases hf : x.flush with
  | true => exact h.next_flush hf
  | false => exact h.next_run hx.1 hx.2.1 hf

theorem logged_of_reach (h : (station n opp).Reach (s, l)) : s.Logged l := by
  refine Machine.Reach.inv (P := fun q => q.1.Logged q.2) (logged_reset n opp) ?_ h
  rintro ⟨s, l⟩ x hi hx
  exact hi.next hx

/-! ### Running empty -/

/-- The station after `k` cycles. -/
def drain (s : Rs n) (u : ℕ → RsIn) : ℕ → Rs n
  | 0 => s
  | k + 1 => (s.drain u k).next (u k)

/-- Nothing is pushed or flushed any more, the operand stage takes what it is shown, and the sources
of the instructions inside are not busy. -/
def Drains (s : Rs n) (u : ℕ → RsIn) : Prop :=
  ∀ k, (u k).push = false ∧ (u k).flush = false ∧ (u k).pop = (s.drain u k).hasRdyFf ∧
    ∀ a, (s.drain u k).freeVec a = false → ((s.drain u k).item a).Awake (u k).busytable

/-- A slot with its sources woken up that is not being taken from is ready. -/
theorem rdyVec_of_awake (ha : s.freeVec a = false) (hp : ¬ (x.pop = true ∧ a = s.rdyAddrFf))
    (hw : (s.item a).Awake x.busytable) : s.rdyVec x a = true := by
  have h₁ : s.prs1ReRf a = true → x.busytable (s.prs1Rf a) = false := hw.1
  have h₂ : s.prs2ReRf a = true → x.busytable (s.prs2Rf a) = false := hw.2
  simp only [rdyVec, freeVecByp, Bool.and_eq_true, Bool.not_eq_true', Bool.or_eq_false_iff,
    Bool.and_eq_false_iff, beq_eq_false_iff_ne, Bool.or_eq_true]
  refine ⟨⟨⟨ha, ?_⟩, ?_⟩, ?_⟩
  · cases hx : x.pop with
    | false => exact Or.inl rfl
    | true => exact Or.inr fun he => hp ⟨hx, he⟩
  · cases he : s.prs1ReRf a with
    | false => exact Or.inl rfl
    | true => exact Or.inr (h₁ he)
  · cases he : s.prs2ReRf a with
    | false => exact Or.inl rfl
    | true => exact Or.inr (h₂ he)

/-- A cycle without a push or a flush only takes from the chosen slot. -/
theorem taken_next (hp : x.push = false) (hf : x.flush = false) :
    (s.next x).taken = s.taken.filter fun a => !(x.pop && a == s.rdyAddrFf) := by
  rw [taken, taken, List.filter_filter]
  refine List.filter_congr fun a _ => ?_
  change (!(x.flush || (x.pop && a == s.rdyAddrFf) ||
    (s.freeVec a && !(x.push && a == s.freeAddr)))) = _
  rw [hp, hf]
  cases s.freeVec a <;> simp

/-- One cycle of running empty: something is shown afterwards unless nothing is left, and the shown
instruction has left. -/
theorem drain_step (hp : x.push = false) (hf : x.flush = false) (hpop : x.pop = s.hasRdyFf)
    (hw : ∀ a, s.freeVec a = false → (s.item a).Awake x.busytable)
    (hr : s.hasRdyFf = true → s.freeVec s.rdyAddrFf = false) :
    ((s.next x).hasRdyFf = true ∨ (s.next x).taken = []) ∧
      (s.next x).taken.length + (if s.hasRdyFf then 1 else 0) ≤ s.taken.length := by
  have ht := taken_next (s := s) hp hf
  constructor
  · by_cases hn : (s.next x).taken = []
    · exact Or.inr hn
    · left
      obtain ⟨a, ha⟩ := List.exists_mem_of_ne_nil _ hn
      rw [ht, List.mem_filter, mem_taken, Bool.not_eq_true', Bool.and_eq_false_iff,
        beq_eq_false_iff_ne] at ha
      have hne : ¬ (x.pop = true ∧ a = s.rdyAddrFf) := by
        rintro ⟨h₁, h₂⟩
        rcases ha.2 with h | h
        · rw [h₁] at h
          cases h
        · exact h h₂
      change (s.hasRdy x && !x.flush) = true
      rw [hf, Bool.not_false, Bool.and_true]
      exact priorityEncoderGs_of_mem (rdyVec_of_awake ha.1 hne (hw a ha.1))
  · rw [ht, hpop]
    split_ifs with h
    · -- the chosen slot is one of those that are taken
      have hmem : s.rdyAddrFf ∈ s.taken := mem_taken.2 (hr h)
      refine List.length_filter_lt_length_iff_exists.2 ⟨_, hmem, ?_⟩
      rw [h]
      simp
    · exact List.length_filter_le _ _

theorem drain_taken (hr : s.hasRdyFf = true → s.freeVec s.rdyAddrFf = false) {u : ℕ → RsIn}
    (hu : s.Drains u) {k : ℕ} (hk : s.taken.length < k) : (s.drain u k).taken = [] := by
  have key : ∀ k, ((s.drain u (k + 1)).hasRdyFf = true ∨ (s.drain u (k + 1)).taken = []) ∧
      ((s.drain u (k + 1)).hasRdyFf = true →
        (s.drain u (k + 1)).freeVec (s.drain u (k + 1)).rdyAddrFf = false) ∧
      (s.drain u (k + 1)).taken.length ≤ s.taken.length - k := by
    intro k
    induction k with
    | zero =>
        obtain ⟨hp, hf, hpop, hw⟩ := hu 0
        obtain ⟨h₁, h₂⟩ := drain_step hp hf hpop hw hr
        refine ⟨h₁, fun h => (rdy_next (by simp [hp]) hf ?_).1, le_trans (Nat.le_add_right _ _) h₂⟩
        have : ((s.drain u 0).hasRdy (u 0) && !(u 0).flush) = true := h
        rwa [hf, Bool.not_false, Bool.and_true] at this
    | succ k ih =>
        obtain ⟨ih₁, ih₂, ih₃⟩ := ih
        obtain ⟨hp, hf, hpop, hw⟩ := hu (k + 1)
        obtain ⟨h₁, h₂⟩ := drain_step hp hf hpop hw ih₂
        refine ⟨h₁, fun h => (rdy_next (by simp [hp]) hf ?_).1, ?_⟩
        · have : ((s.drain u (k + 1)).hasRdy (u (k + 1)) && !(u (k + 1)).flush) = true := h
          rwa [hf, Bool.not_false, Bool.and_true] at this
        · change ((s.drain u (k + 1)).next (u (k + 1))).taken.length ≤ _
          rcases ih₁ with h | h
          · rw [if_pos h] at h₂
            omega
          · rw [h, List.length_nil] at h₂
            omega
  obtain ⟨k, rfl⟩ := Nat.exists_eq_add_of_lt hk
  have := (key (s.taken.length + k)).2.2
  exact List.length_eq_zero_iff.1 (by omega)

/-! ### Exactly-once issue -/

/-- The sources of the instruction that is shown are not busy in the cycle in which it is taken. -/
theorem Logged.awake (h : s.Logged l) (hw : s.Wakes l x) (hr : s.hasRdyFf = true) :
    s.shown.Awake x.busytable := by
  obtain ⟨hocc, hs, ha⟩ := h.rdy hr
  obtain ⟨hw₁, hw₂⟩ := hw _ hocc
  rw [hs] at ha ⊢
  exact ⟨fun he => hw₁ he (ha.1 he), fun he => hw₂ he (ha.2 he)⟩

/-- **Exactly-once issue.**  In every reachable state: every instruction that was pushed has been
taken by the operand stage once, or was flushed, or is inside, and only one of these; what has been
taken is what was pushed under its number, and so is what the slots hold; a push goes to a free
slot, and what is taken has no busy source; and without further pushes the station runs empty. -/
theorem issued_once (h : (station n opp).Reach (s, l)) :
    (l.issued.map Prod.fst ++ l.flushed ++ s.inside l).Perm (List.range l.pushed.length) ∧
    (∀ k it, (k, it) ∈ l.issued → l.pushed[k]? = some it) ∧
    (∀ a, s.freeVec a = false → l.pushed[l.tag a]? = some (s.item a)) ∧
    (∀ x, (station n opp).allowed (s, l) x →
      (x.push = true → s.freeVec s.freeAddr = true) ∧ (x.pop = true → s.shown.Awake x.busytable)) ∧
    ∀ u, s.Drains u → ∀ k, s.taken.length < k → (s.drain u k).taken = [] := by
  have hl := logged_of_reach h
  refine ⟨?_, hl.out, hl.slot, ?_, fun u hu k hk => drain_taken (fun hr => (hl.rdy hr).1) hu hk⟩
  · have hin : (s.inside l).Nodup :=
      List.Nodup.map_on (fun a ha b hb he => hl.inj a b (mem_taken.1 ha) (mem_taken.1 hb) he)
        nodup_taken
    have hnd : (l.issued.map Prod.fst ++ l.flushed ++ s.inside l).Nodup := by
      refine hl.nodup.append hin fun k hk hk' => ?_
      obtain ⟨a, ha, rfl⟩ := mem_inside.1 hk'
      exact (List.mem_append.1 hk).elim (hl.gone a ha).1 (hl.gone a ha).2
    rw [List.perm_ext_iff_of_nodup hnd List.nodup_range]
    intro k
    rw [List.mem_append, List.mem_append, List.mem_range, mem_inside]
    constructor
    · rintro ((hk | hk) | ⟨a, ha, rfl⟩)
      · exact hl.issued_lt hk
      · exact hl.lost k hk
      · exact hl.tag_lt ha
    · intro hk
      rcases hl.total k hk with h' | h' | h'
      · exact Or.inl (Or.inl h')
      · exact Or.inl (Or.inr h')
      · exact Or.inr h'
  · intro x hx
    exact ⟨fun hp => freeAddr_mem (hx.1 hp), fun hp => hl.awake hx.2.2 (hx.2.1 hp)⟩

/-- An instruction that reads register 1. -/
def oneSource : RsIn :=
  ⟨false, true, emptyInsn.opp 0 0, 1, 0, true, false, fun _ => false, false⟩

/-- It is pushed into the empty station, chosen in the next cycle and taken in the one after. -/
theorem issued_once_oneSource :
    ∃ s l, (station 4 (emptyInsn.opp 0 0)).Reach (s, l) ∧ l.issued = [(0, oneSource.item)] ∧
      l.pushed[0]? = some oneSource.item ∧ s.inside l = [] := by
  have hr : (station 4 (emptyInsn.opp 0 0)).Reach ((station 4 (emptyInsn.opp 0 0)).run
      [oneSource, { oneSource with push := false },
        { oneSource with push := false, pop := true }]) := by
    refine Machine.reach_run fun k x hx => ?_
    obtain rfl | rfl | rfl : k = 0 ∨ k = 1 ∨ k = 2 := by
      have := (List.getElem?_eq_some_iff.1 hx).1
      simp only [List.length_cons, List.length_nil] at this
      omega
    all_goals
      simp only [List.getElem?_cons_zero, List.getElem?_cons_succ, Option.some.injEq] at hx
      subst hx
      exact ⟨by decide, by decide, fun a _ => ⟨fun _ _ => rfl, fun _ _ => rfl⟩⟩
  have hi : ((station 4 (emptyInsn.opp 0 0)).run [oneSource, { oneSource with push := false },
      { oneSource with push := false, pop := true }]).2.issued = [(0, oneSource.item)] := rfl
  exact ⟨_, _, hr, hi, (issued_once hr).2.1 0
    _ (List.mem_singleton_self (0, oneSource.item)), by decide⟩

end Rs

/-! ### The stations of the back-end -/

namespace Backend

variable {n : ℕ} [NeZero n] {D : ℕ} {s : Backend n} {t : Trace} {x : BackendIn} {z : RInsn} {i : ℕ}

/-- A source of an instruction that waits stays available. -/
theorem wakes_next (hD : D ≤ 3) (h : (traced n D z).Reach (s, t)) (hx : x.Delivers) {a : Fin n}
    (ha : (s.next D x).Occ (.rs i a)) {p : PReg}
    (hp : p = ((s.next D x).rs i).prs1Rf a ∨ p = ((s.next D x).rs i).prs2Rf a)
    (hb : s.rn.busytable p = false) : (s.next D x).rn.busytable p = false := by
  have hr : (traced n D z).Reach (s.next D x, t.next D s x) :=
    Machine.Reach.tick (x := x) h ⟨hx, trivial⟩
  cases hf : s.flush D x with
  | true => exact (rn_next_flush hf).2.2.2.2 p
  | false =>
      have hi := inv_of_reach h
      obtain ⟨num, hpl, -⟩ := (inv_of_reach hr).place
      have hlive := hpl.live _ ha
      obtain ⟨-, -, -, e₁, e₂, -⟩ := hpl.holds _ ha
      generalize num (.rs i a) = m at hlive e₁ e₂
      have hge : t.log.head ≤ m := by
        have := hlive.1
        rw [Trace.next_head hf] at this
        omega
      have hlt : m < s.nextNum t := by
        have := hlive.2
        rw [Trace.next_tail hf, robPushSize] at this
        rw [nextNum]
        split_ifs at this <;> omega
      rw [Trace.next_ins_of_lt hlt] at e₁ e₂
      obtain ⟨h₁, h₂⟩ := hi.order.src m hge hlt
      have hfl : s.rn.fl p = false := by
        rcases hp with rfl | rfl
        · rw [e₁, h₁]
          exact hi.order.fl_mapFrom (by omega) _
        · rw [e₂, h₂]
          exact hi.order.fl_mapFrom (by omega) _
      rcases avail_next hf (Or.inr hfl) (Or.inl (Or.inr hb)) with h0 | h0
      · rw [h0]
        exact busytable_zero hD hr
      · exact h0

/-- **The stations of the back-end** are pushed only when they are not full, give only what they
show, and see only wake-ups. -/
theorem station_of_reach (hD : D ≤ 3) (h : (traced n D z).Reach (s, t)) (i : ℕ) :
    ∃ l, (Rs.station n (z.opp 0 0)).Reach (s.rs i, l) := by
  have : (traced n D z).Reach (s, t) ∧ ∃ l, (Rs.station n (z.opp 0 0)).Reach (s.rs i, l) ∧
      ∀ x, (s.rs i).Wakes l (s.rsIn D x i) := by
    refine Machine.Reach.inv (P := fun q => (traced n D z).Reach q ∧
      ∃ l, (Rs.station n (z.opp 0 0)).Reach (q.1.rs i, l) ∧ ∀ x,
        (q.1.rs i).Wakes l (q.1.rsIn D x i))
      ⟨Machine.Reach.reset, _, Machine.Reach.reset, fun x a ha => ?_⟩ ?_ h
    · cases ha
    · rintro ⟨s, t⟩ x ⟨hr, l, hl, hw⟩ hx
      have hi := inv_of_reach hr
      refine ⟨Machine.Reach.tick hr hx, _, Machine.Reach.tick (x := s.rsIn D x i) hl ⟨?_, ?_, hw x⟩,
        ?_⟩
      · intro hp
        obtain ⟨h₁, -, hc⟩ := rsPush_lt hi.order hp
        have hsz := hi.order.size_le
        exact (ready_of_issuePCe hc).2 i (by omega)
      · intro hp
        exact (Bool.and_eq_true_iff.1 hp).1
      · intro y a ha
        exact ⟨fun _ hb => wakes_next hD hr hx.1 ha (Or.inl rfl) hb,
          fun _ hb => wakes_next hD hr hx.1 ha (Or.inr rfl) hb⟩
  obtain ⟨-, l, hl, -⟩ := this
  exact ⟨l, hl⟩

end Backend

end NanoCpu
