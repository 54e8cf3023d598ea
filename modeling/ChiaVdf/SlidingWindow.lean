import Mathlib.Tactic

/-! Tables whose entries are overwritten by later ones. A sequence is cut into parts of equal
length; a window of so many parts is kept, and of each part the members at a fixed stride. -/
namespace SlidingWindow

section Slot

/-- Where the member `e` is kept. -/
def slot (window length stride size e : ℕ) : ℕ := e / length % window * size + e % length / stride

variable {window length stride size e e' : ℕ}

theorem offset_lt (fits : length ≤ size * stride) (positive : 0 < length) :
    e % length / stride < size := by
  apply Nat.div_lt_of_lt_mul
  rw [Nat.mul_comm]
  exact (Nat.mod_lt e positive).trans_le fits

theorem slot_lt (fits : length ≤ size * stride) (positive : 0 < length) (some : 0 < window) :
    slot window length stride size e < window * size := by
  have part : e / length % window + 1 ≤ window := Nat.mod_lt _ some
  calc slot window length stride size e
      < e / length % window * size + size := Nat.add_lt_add_left (offset_lt fits positive) _
    _ = (e / length % window + 1) * size := by ring
    _ ≤ window * size := Nat.mul_le_mul_right _ part

/-- The part modulo the window and the place in the part can be read off a slot. -/
theorem slot_eq_iff (fits : length ≤ size * stride) (positive : 0 < length) :
    slot window length stride size e = slot window length stride size e' ↔
      e / length % window = e' / length % window ∧
        e % length / stride = e' % length / stride := by
  have small := offset_lt (e := e) fits positive
  have small' := offset_lt (e := e') fits positive
  constructor
  · intro same
    unfold slot at same
    have parts : e / length % window = e' / length % window := by
      have quotient := congrArg (· / size) same
      have filled : 0 < size := Nat.zero_lt_of_lt small
      simpa [Nat.add_comm _ (_ % length / stride), Nat.add_mul_div_right _ _ filled,
        Nat.div_eq_of_lt small, Nat.div_eq_of_lt small'] using quotient
    rw [parts] at same
    exact ⟨parts, Nat.add_left_cancel same⟩
  · rintro ⟨parts, offsets⟩
    rw [slot, slot, parts, offsets]

/-- Two members at the stride that share a slot lie a number of windows apart. -/
theorem eq_or_window_le (fits : length ≤ size * stride) (positive : 0 < length)
    (kept : e % length % stride = 0) (kept' : e' % length % stride = 0)
    (same : slot window length stride size e = slot window length stride size e') (le : e ≤ e') :
    e = e' ∨ e + window * length ≤ e' := by
  obtain ⟨parts, offsets⟩ := (slot_eq_iff fits positive).mp same
  have rest : e % length = e' % length := by
    rw [← Nat.div_add_mod (e % length) stride, ← Nat.div_add_mod (e' % length) stride, offsets,
      kept, kept']
  have order : e / length ≤ e' / length := Nat.div_le_div_right le
  have split := Nat.div_add_mod e length
  have split' := Nat.div_add_mod e' length
  by_cases equal : e / length = e' / length
  · left
    rw [← split, ← split', equal, rest]
  · right
    have apart : e / length + window ≤ e' / length := by
      have gap : (e' / length - e / length) % window = 0 := Nat.sub_mod_eq_zero_of_mod_eq parts.symm
      have le := Nat.le_of_dvd (by omega) (Nat.dvd_of_mod_eq_zero gap)
      omega
    have scaled := Nat.mul_le_mul_left length apart
    rw [Nat.mul_add, Nat.mul_comm length window] at scaled
    omega

/-- Within a window no two members at the stride share a slot. -/
theorem slot_injective (fits : length ≤ size * stride) (positive : 0 < length)
    (kept : e % length % stride = 0) (kept' : e' % length % stride = 0)
    (same : slot window length stride size e = slot window length stride size e')
    (near : e < e' + window * length) (near' : e' < e + window * length) : e = e' := by
  rcases Nat.le_total e e' with le | le
  · rcases eq_or_window_le fits positive kept kept' same le with equal | apart
    · exact equal
    · omega
  · rcases eq_or_window_le fits positive kept' kept same.symm le with equal | apart
    · exact equal.symm
    · omega

end Slot

section Writes

variable {κ V : Type*} {place : κ → ℕ} {writes : List (κ × V)} {k : κ} {v : V}

/-- What the last of the writes, newest first, to a slot has left there. -/
def content (place : κ → ℕ) (writes : List (κ × V)) (slot : ℕ) : Option V :=
  (writes.find? fun write => place write.1 = slot).map (·.2)

theorem content_cons_self : content place ((k, v) :: writes) (place k) = some v := by
  simp [content]

theorem content_cons_of_ne {slot : ℕ} (apart : place k ≠ slot) :
    content place ((k, v) :: writes) slot = content place writes slot := by
  simp [content, apart]

/-- If the keys that share a slot were written in order, the last key is still there, with the
value that was written last under it. -/
theorem content_latest [PartialOrder κ] [BEq κ] [LawfulBEq κ]
    (ordered : writes.Pairwise fun new old => place new.1 = place old.1 → old.1 ≤ new.1)
    (last : ∀ write ∈ writes, place write.1 = place k → write.1 ≤ k)
    (written : ∃ value, (k, value) ∈ writes) :
    content place writes (place k) = writes.lookup k ∧ ∃ value, writes.lookup k = some value := by
  induction writes with
  | nil => obtain ⟨value, absurd⟩ := written; cases absurd
  | cons write writes ih =>
    obtain ⟨key, value⟩ := write
    obtain ⟨newest, ordered⟩ := List.pairwise_cons.mp ordered
    by_cases same : key = k
    · subst same
      exact ⟨by rw [content_cons_self]; simp, value, by simp⟩
    · have written' : ∃ value, (k, value) ∈ writes := by
        obtain ⟨value', member⟩ := written
        rcases List.mem_cons.mp member with first | later
        · exact absurd (congrArg Prod.fst first).symm same
        · exact ⟨value', later⟩
      have apart : place key ≠ place k := by
        intro shared
        obtain ⟨value', member⟩ := written'
        have le := last (key, value) List.mem_cons_self shared
        have ge := newest (k, value') member shared
        exact same (le_antisymm le ge)
      have other : ((k == key) = false) := by simpa using Ne.symm same
      rw [content_cons_of_ne apart, List.lookup_cons, other]
      exact ih ordered (fun write member => last write (List.mem_cons_of_mem _ member)) written'

end Writes

end SlidingWindow
