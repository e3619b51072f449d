/-
**What has gone over an AXI bus.**

A log of the handshakes of a master: its read bursts with the beats it has taken of each, and its
write bursts with the addresses and the beats that had gone out when they were answered.  For a
master that has at most one burst in each direction, every burst in the log is complete but the one
in progress: a read has one beat more than its length, and a write one address and one beat more
than its length, the last of them and no other marked.

Main definitions:

* `AxiOut.Keeps` — what a master has raised it holds until it is taken;
* `AxiLog`, `AxiLog.next` — the log;
* `AxiLog.ReadDone`, `AxiLog.WriteDone` — complete bursts;
* `AxiLog.TracksReads`, `AxiLog.TracksWrites`, `AxiLog.Tracks` — the log and the bursts the memory
  works on.

Main results:

* `AxiLog.Tracks.next` — one cycle of a master with at most one burst in each direction.
-/

import NanoCpu.Axi

set_option relaxedAutoImplicit false
set_option autoImplicit false

/-- What is raised on a channel of the master in one cycle and not taken is there in the next. -/
structure AxiOut.Keeps (o : AxiOut) (i : AxiIn) (o' : AxiOut) : Prop where
  ar : o.arValid = true → i.arReady = false → o'.arValid = true ∧ o'.ar = o.ar
  aw : o.awValid = true → i.awReady = false → o'.awValid = true ∧ o'.aw = o.aw
  w : o.wValid = true → i.wReady = false → o'.wValid = true ∧ o'.w = o.w ∧ o'.wLast = o.wLast

/-- The handshakes so far, the newest first: the read bursts, each with the beats taken of it; the
write bursts that have been answered, each with the addresses and the beats; and the addresses and
beats since the last answer. -/
structure AxiLog where
  reads : List (AxiBurst × List (ℕ → Byte))
  writes : List (List AxiBurst × List (AxiBeat × Bool))
  aws : List AxiBurst
  ws : List (AxiBeat × Bool)

namespace AxiLog

def empty : AxiLog := ⟨[], [], [], []⟩

/-- The log after the clock edge. -/
def next (L : AxiLog) (o : AxiOut) (i : AxiIn) : AxiLog where
  reads :=
    (if o.arValid && i.arReady then [(o.ar, [])] else []) ++
      if i.rValid && o.rReady then L.reads.modifyHead fun t => (t.1, i.rData :: t.2) else L.reads
  writes := (if i.bValid && o.bReady then [(L.aws, L.ws)] else []) ++ L.writes
  aws := (if o.awValid && i.awReady then [o.aw] else []) ++ if i.bValid && o.bReady then
    [] else L.aws
  ws := (if o.wValid && i.wReady then [(o.w, o.wLast)] else []) ++ if i.bValid && o.bReady then
    [] else L.ws

/-- All beats of a read have been taken. -/
def ReadDone (t : AxiBurst × List (ℕ → Byte)) : Prop := t.2.length = t.1.len + 1

/-- All beats of a write were sent when it was answered, and exactly the last one was marked. -/
def WriteDone (t : List AxiBurst × List (AxiBeat × Bool)) : Prop :=
  ∃ b, t.1 = [b] ∧ t.2.map Prod.snd = true :: List.replicate b.len false

/-- The read bursts in the log are complete, except for the one that the memory works on. -/
structure TracksReads (L : AxiLog) (m : AxiMem) : Prop where
  idle : m.rd = none → ∀ t ∈ L.reads, ReadDone t
  reading : ∀ b c, m.rd = some (b, c) →
    ∃ l rest, L.reads = (b, l) :: rest ∧ l.length = c ∧ ∀ t ∈ rest, ReadDone t

/-- The write bursts in the log are complete, and the memory has what has come since. -/
structure TracksWrites (L : AxiLog) (m : AxiMem) : Prop where
  writes : ∀ t ∈ L.writes, WriteDone t
  aws : L.aws = m.aw.toList
  beats : L.ws.map Prod.fst = m.w
  last : L.ws.map Prod.snd =
    if m.wDone then true :: List.replicate (m.w.length - 1) false else
      List.replicate m.w.length false

structure Tracks (L : AxiLog) (m : AxiMem) : Prop extends TracksReads L m, TracksWrites L m

theorem tracks_idle (mem : ℕ → Byte) : empty.Tracks (AxiMem.idle mem) :=
  ⟨⟨fun _ t ht => by simp [empty] at ht, fun _ _ h => by simp [AxiMem.idle] at h⟩,
    ⟨fun t ht => by simp [empty] at ht, rfl, rfl, rfl⟩⟩

variable {L : AxiLog} {m : AxiMem} {o : AxiOut} {i : AxiIn} {b : AxiBurst} {c k : ℕ}

/-! ### Reads -/

theorem TracksReads.next_of_noRead (h : L.TracksReads m) (hq : m.NoRead o) (ha : m.Answers i) :
    (L.next o i).TracksReads (m.next o i) := by
  have hL : (L.next o i).reads = L.reads := by simp [next, hq.arValid, hq.not_rValid ha]
  have hm : (m.next o i).rd = m.rd := by simp [AxiMem.next, hq.arValid, hq.not_rValid ha]
  exact ⟨by rw [hL, hm]; exact h.idle, by rw [hL, hm]; exact h.reading⟩

theorem TracksReads.next_of_reads (h : L.TracksReads m) (hb : m.Reads o b c) (ha : m.Answers i) :
    (L.next o i).TracksReads (m.next o i) := by
  suffices ((m.next o i).rd = none → ∀ t ∈ (L.next o i).reads, ReadDone t) ∧
      ∀ b' c', (m.next o i).rd = some (b', c') →
        ∃ l rest, (L.next o i).reads = (b', l) :: rest ∧ l.length = c' ∧ ∀ t ∈ rest, ReadDone t from
    ⟨this.1, this.2⟩
  cases hv : o.arValid with
  | true =>
      -- the address is on the bus, and nothing can be read yet
      have hrd : m.rd = none := by
        rw [hb.rd, hv]
        rfl
      have hr := hb.not_rValid ha hv
      cases hi : i.arReady with
      | false =>
          simp only [next, AxiMem.next, hv, hi, hr, hrd]
          exact ⟨fun _ => h.idle hrd, fun _ _ h' => by simp at h'⟩
      | true =>
          simp only [next, AxiMem.next, hv, hi, hr]
          refine ⟨fun h' => by simp at h', fun b' c' h' => ⟨[], L.reads, ?_, ?_, h.idle hrd⟩⟩
          · simp at h'
            simp [h']
          · simp at h'
            simp [h'.2]
  | false =>
      have hrd : m.rd = some (b, c) := by
        rw [hb.rd, hv]
        rfl
      obtain ⟨l, rest, hl, hlen, hrest⟩ := h.reading b c hrd
      cases hr : i.rValid && o.rReady with
      | false =>
          simp only [next, AxiMem.next, hv, hr, hrd]
          exact ⟨fun h' => by simp at h', fun b' c' h' => by
            simp at h'
            obtain ⟨rfl, rfl⟩ := h'
            exact ⟨l, rest, by simp [hl], hlen, hrest⟩⟩
      | true =>
          obtain ⟨-, hlast, -⟩ := hb.data ha (Bool.and_eq_true_iff.1 hr).1
          simp only [next, AxiMem.next, hv, hr, hl, hrd]
          cases hlr : i.rLast with
          | true =>
              have hc : c = b.len := by
                rw [hlr] at hlast
                simpa using hlast.symm
              refine ⟨fun _ t ht => ?_, fun _ _ h' => by simp at h'⟩
              simp at ht
              rcases ht with rfl | ht
              · change (i.rData :: l).length = b.len + 1
                rw [List.length_cons, hlen, hc]
              · exact hrest t ht
          | false =>
              refine ⟨fun h' => by simp at h', fun b' c' h' => ?_⟩
              simp at h'
              obtain ⟨rfl, rfl⟩ := h'
              exact ⟨i.rData :: l, rest, by simp, by simp [hlen], hrest⟩

/-! ### Writes -/

theorem TracksWrites.next_of_noWrite (h : L.TracksWrites m) (hq : m.NoWrite o) (ha : m.Answers i) :
    (L.next o i).TracksWrites (m.next o i) := by
  have hb := hq.not_bValid ha
  refine ⟨?_, ?_, ?_, ?_⟩
  · simpa [next, hb] using h.writes
  · simpa [next, AxiMem.next, hb, hq.awValid] using h.aws
  · simpa [next, AxiMem.next, hb, hq.wValid] using h.beats
  · simpa [next, AxiMem.next, hb, hq.wValid] using h.last

/-- A cycle without the response. -/
theorem TracksWrites.next_of_writes (h : L.TracksWrites m) (hb : m.Writes o b k)
    (hB : (i.bValid && o.bReady) = false) : (L.next o i).TracksWrites (m.next o i) := by
  refine ⟨?_, ?_, ?_, ?_⟩
  · simpa [next, hB] using h.writes
  · cases hv : o.awValid <;> cases hi : i.awReady <;>
      simp [next, AxiMem.next, hB, hv, hi, h.aws, hb.mAw]
  · cases hv : o.wValid <;> cases hi : i.wReady <;>
      simp [next, AxiMem.next, hB, hv, hi, h.beats]
  · cases hw : o.wValid && i.wReady with
    | false => simp [next, AxiMem.next, hB, hw, h.last]
    | true =>
        have hv : o.wValid = true := (Bool.and_eq_true_iff.1 hw).1
        have hle : k ≤ b.len := by
          have := hb.wValid
          rw [hv] at this
          simpa using this.symm
        have hd : m.wDone = false := by
          rw [hb.wDone]
          exact decide_eq_false (by omega)
        have hl := h.last
        rw [hd, if_neg Bool.false_ne_true] at hl
        simp only [next, AxiMem.next, hw, hB, if_true, Bool.false_eq_true, if_false]
        cases hwl : o.wLast <;> simp [hl, List.replicate_succ]

/-- The cycle of the response. -/
theorem TracksWrites.next_last (h : L.TracksWrites m) (hb : m.Writes o b k) (ha : m.Answers i)
    (hB : (i.bValid && o.bReady) = true) : (L.next o i).TracksWrites (m.next o i) := by
  obtain ⟨hav, hk, -⟩ := hb.of_bValid ha (Bool.and_eq_true_iff.1 hB).1
  have hwv : o.wValid = false := by
    rw [hb.wValid]
    exact decide_eq_false (by omega)
  have hd : m.wDone = true := by
    rw [hb.wDone]
    exact decide_eq_true hk
  have haw : m.aw = some b := by
    rw [hb.mAw, hav]
    rfl
  refine ⟨fun t ht => ?_, ?_, ?_, ?_⟩
  · simp only [next, hB, if_true, List.singleton_append, List.mem_cons] at ht
    rcases ht with rfl | ht
    · refine ⟨b, by rw [h.aws, haw]; rfl, ?_⟩
      rw [h.last, hd, if_pos rfl, hb.length, hk, Nat.add_sub_cancel]
    · exact h.writes t ht
  all_goals simp [next, AxiMem.next, hB, hav, hwv]

/-! ### A cycle -/

/-- **The log of a master with at most one burst in each direction.** -/
theorem Tracks.next (h : L.Tracks m) (ha : m.Answers i) (hr : m.NoRead o ∨ ∃ b c, m.Reads o b c)
    (hw : m.NoWrite o ∨ ∃ b k, m.Writes o b k) : (L.next o i).Tracks (m.next o i) := by
  refine ⟨?_, ?_⟩
  · rcases hr with hq | ⟨b, c, hb⟩
    · exact h.next_of_noRead hq ha
    · exact h.next_of_reads hb ha
  · rcases hw with hq | ⟨b, k, hb⟩
    · exact h.next_of_noWrite hq ha
    · cases hB : i.bValid && o.bReady with
      | false => exact h.next_of_writes hb hB
      | true => exact h.next_last hb ha hB

end AxiLog
