import Mathlib.Data.List.Forall2
import ChiaVdf.ProverManager

/-! Where the segments of a `ProverManager` are, over every step. Of each length the segments are handed to
provers in order, so a number for each length says which of them are still pending. -/
namespace ChiaVdf

namespace ProverManager

variable {F : Type}

def Segment.key (s : Segment F) : ℕ × ℕ := (s.start, s.length)

/-- The `k`-th segment of a length. -/
def segKey (i k : ℕ) : ℕ × ℕ := (k * segmentSize i, segmentSize i)

def IsSeg (i k : ℕ) (s : Segment F) : Prop := s.key = segKey i k ∧ s.isEmpty = false

/-- The `k`-th segment of a length is in `done_segments`. -/
def IsDone (m : ProverManager F) (i k : ℕ) : Prop := ∃ s, (m.doneSegments i)[k]? = some s ∧ s.isEmpty = false

/-- The first `next i` of the `total i` segments of length `segmentSize i` were handed to provers. -/
structure Places (m : ProverManager F) (next total : ℕ → ℕ) : Prop where
  le : ∀ i, next i ≤ total i
  beyond : ∀ i, m.segmentCount ≤ i → total i = 0
  appended : ∀ i, m.lastAppended i = total i * segmentSize i
  pending : ∀ i, (m.pendingSegments i).map Segment.key = (List.range' (next i) (total i - next i)).map (segKey i)
  full : ∀ i, ∀ s ∈ m.pendingSegments i, s.isEmpty = false
  owned : ∀ p ∈ m.provers, ∃ i k, k < next i ∧ IsSeg i k p.segment
  once : (m.provers.map fun p => p.segment.key).Nodup
  done : ∀ {i k : ℕ} {s : Segment F}, (m.doneSegments i)[k]? = some s → s.isEmpty = false →
    k < next i ∧ s.key = segKey i k ∧ s.proof.isSome = true
  cover : ∀ i k, k < next i → (∃ p ∈ m.provers, IsSeg i k p.segment) ∨ m.IsDone i k
  both : ∀ p ∈ m.provers, ∀ i k, IsSeg i k p.segment → m.IsDone i k → p.isFinished = true

section Keys

variable {i i' k k' : ℕ} {s : Segment F}

theorem segmentSize_injective : Function.Injective segmentSize := by
  intro i j same
  have exponents : 16 + 2 * i = 16 + 2 * j := Nat.pow_right_injective le_rfl same
  omega

theorem segKey_inj : segKey i k = segKey i' k' ↔ i = i' ∧ k = k' := by
  constructor
  · intro same
    obtain ⟨starts, sizes⟩ := Prod.mk.inj same
    obtain rfl := segmentSize_injective sizes
    exact ⟨rfl, Nat.eq_of_mul_eq_mul_right segmentSize_pos starts⟩
  · rintro ⟨rfl, rfl⟩
    rfl

theorem IsSeg.unique (seg : IsSeg i k s) (seg' : IsSeg i' k' s) : i = i' ∧ k = k' :=
  segKey_inj.mp (seg.1.symm.trans seg'.1)

theorem IsSeg.start (seg : IsSeg i k s) : s.start = k * segmentSize i := congrArg Prod.fst seg.1

theorem IsSeg.length (seg : IsSeg i k s) : s.length = segmentSize i := congrArg Prod.snd seg.1

theorem IsSeg.bucket (seg : IsSeg i k s) : getSegmentBucket s.length = i := by
  rw [seg.length, getSegmentBucket_segmentSize]

theorem IsSeg.position (seg : IsSeg i k s) : s.start / s.length = k := by
  rw [seg.start, seg.length, Nat.mul_div_cancel _ segmentSize_pos]

end Keys

section Provers

/-- A prover as it was, or further. -/
structure Follows (p q : SegmentProver F) : Prop where
  key : q.segment.key = p.segment.key
  isEmpty : q.segment.isEmpty = p.segment.isEmpty
  finished : p.isFinished = true → q.isFinished = true

variable {m t : ProverManager F} {next total : ℕ → ℕ} {l l' : List (SegmentProver F)} {p q : SegmentProver F}
  {i k : ℕ}

theorem Follows.refl (p : SegmentProver F) : Follows p p := ⟨rfl, rfl, id⟩

theorem Follows.isSeg (follows : Follows p q) : IsSeg i k q.segment ↔ IsSeg i k p.segment := by
  rw [IsSeg, IsSeg, follows.key, follows.isEmpty]

theorem forall₂_modify (f : SegmentProver F → SegmentProver F) (follows : ∀ p, Follows p (f p))
    (l : List (SegmentProver F)) (i : ℕ) :
    List.Forall₂ Follows l (l.modify i f) := by
  induction l generalizing i with
  | nil =>
    rw [List.modify_nil]
    exact .nil
  | cons p l ih =>
    cases i with
    | zero => exact .cons (follows p) (List.forall₂_same.mpr fun q _ => .refl q)
    | succ i => exact .cons (.refl p) (ih i)

theorem forall₂_set (entry : l[i]? = some p) (follows : Follows p q) :
    List.Forall₂ Follows l (l.set i q) := by
  induction l generalizing i with
  | nil => simp at entry
  | cons head l ih =>
    cases i with
    | zero =>
      obtain rfl := Option.some.inj entry
      exact .cons follows (List.forall₂_same.mpr fun q _ => .refl q)
    | succ i => exact .cons (.refl head) (ih entry)

theorem mem_of_forall₂ (follows : List.Forall₂ Follows l l') :
    (∀ q ∈ l', ∃ p ∈ l, Follows p q) ∧ ∀ p ∈ l, ∃ q ∈ l', Follows p q := by
  induction follows with
  | nil => simp
  | cons head _ ih =>
    constructor
    · intro q member
      rcases List.mem_cons.mp member with rfl | later
      · exact ⟨_, List.mem_cons_self .., head⟩
      · obtain ⟨p, member, follows⟩ := ih.1 q later
        exact ⟨p, List.mem_cons_of_mem _ member, follows⟩
    · intro p member
      rcases List.mem_cons.mp member with rfl | later
      · exact ⟨_, List.mem_cons_self .., head⟩
      · obtain ⟨q, member, follows⟩ := ih.2 p later
        exact ⟨q, List.mem_cons_of_mem _ member, follows⟩

theorem keys_of_forall₂ (follows : List.Forall₂ Follows l l') :
    (l'.map fun p => p.segment.key) = l.map fun p => p.segment.key := by
  induction follows with
  | nil => rfl
  | cons head _ ih => rw [List.map_cons, List.map_cons, head.key, ih]

/-- What the provers do on their own moves no segment. -/
theorem Places.provers (places : Places m next total) (follows : List.Forall₂ Follows m.provers l) :
    Places { m with provers := l } next total := by
  obtain ⟨back, forth⟩ := mem_of_forall₂ follows
  exact {
    places with
    owned := by
      intro q member
      obtain ⟨p, member', step⟩ := back q member
      obtain ⟨i, k, lt, seg⟩ := places.owned p member'
      exact ⟨i, k, lt, step.isSeg.mpr seg⟩
    once := (keys_of_forall₂ follows).symm ▸ places.once
    cover := by
      intro i k lt
      rcases places.cover i k lt with ⟨p, member, seg⟩ | done
      · obtain ⟨q, member', step⟩ := forth p member
        exact .inl ⟨q, member', step.isSeg.mpr seg⟩
      · exact .inr done
    both := by
      intro q member i k seg done
      obtain ⟨p, member', step⟩ := back q member
      exact step.finished (places.both p member' i k (step.isSeg.mp seg) done) }

/-- The fields that say where the segments are. -/
structure SamePlaces (m t : ProverManager F) : Prop where
  segmentCount : t.segmentCount = m.segmentCount
  provers : t.provers = m.provers
  pendingSegments : t.pendingSegments = m.pendingSegments
  lastAppended : t.lastAppended = m.lastAppended
  doneSegments : t.doneSegments = m.doneSegments

theorem Places.congr (places : Places m next total) (same : SamePlaces m t) : Places t next total := by
  obtain ⟨count, provers, pending, appended, done⟩ := same
  have done_iff {i k : ℕ} : t.IsDone i k ↔ m.IsDone i k := by rw [IsDone, IsDone, done]
  exact {
    le := places.le
    beyond := count ▸ places.beyond
    appended := appended ▸ places.appended
    pending := pending ▸ places.pending
    full := pending ▸ places.full
    owned := provers ▸ places.owned
    once := provers ▸ places.once
    done := done ▸ places.done
    cover := fun i k lt => by rw [provers, done_iff]; exact places.cover i k lt
    both := fun p member i k seg isDone => places.both p (provers ▸ member) i k seg (done_iff.mp isDone) }

end Provers

section Collect

variable {m : ProverManager F} {next total : ℕ → ℕ} {p : SegmentProver F} {i j k : ℕ} {s segment : Segment F}
  {done : List (Segment F)}

/-- The entry at the position is the segment; otherwise only empty ones are new. -/
theorem record_iff (full : s.isEmpty = false) : (record done k segment)[j]? = some s ↔
    j = k ∧ segment = s ∨ j ≠ k ∧ done[j]? = some s := by
  have long : k < (done ++ List.replicate (k + 1 - done.length) Segment.empty).length := by
    rw [List.length_append, List.length_replicate]
    omega
  rw [record]
  by_cases same : j = k
  · subst same
    rw [List.getElem?_set_self long, Option.some.injEq]
    simp
  · rw [List.getElem?_set_ne (Ne.symm same)]
    simp only [same, false_and, false_or, ne_eq, not_false_eq_true, true_and]
    by_cases old : j < done.length
    · rw [List.getElem?_append_left old]
    · have none : done[j]? = none := List.getElem?_eq_none (by omega)
      rw [List.getElem?_append_right (by omega), none]
      constructor
      · intro entry
        obtain ⟨bound, rfl⟩ := List.getElem?_eq_some_iff.mp entry
        rw [List.getElem_replicate] at full
        cases full
      · intro absurd
        cases absurd

/-- The segment at its place in `done_segments`. -/
def recordDone (m : ProverManager F) (i k : ℕ) (segment : Segment F) : ProverManager F :=
  { m with doneSegments := Function.update m.doneSegments i (record (m.doneSegments i) k segment) }

theorem isDone_recordDone {i' k' : ℕ} (same : IsSeg i k segment) :
    (m.recordDone i k segment).IsDone i' k' ↔ i' = i ∧ k' = k ∨ m.IsDone i' k' := by
  rw [IsDone, IsDone, recordDone]
  by_cases here : i' = i
  · subst here
    simp only [Function.update_self, true_and]
    constructor
    · rintro ⟨s, entry, full⟩
      rcases (record_iff full).mp entry with ⟨eq, -⟩ | ⟨-, old⟩
      · exact .inl eq
      · exact .inr ⟨s, old, full⟩
    · rintro (rfl | ⟨s, old, full⟩)
      · exact ⟨segment, (record_iff same.2).mpr (.inl ⟨rfl, rfl⟩), same.2⟩
      · by_cases eq : k' = k
        · exact ⟨segment, (record_iff same.2).mpr (.inl ⟨eq, rfl⟩), same.2⟩
        · exact ⟨s, (record_iff full).mpr (.inr ⟨eq, old⟩), full⟩
  · simp [here]

/-- A segment of a finished prover is put where it belongs. -/
theorem Places.record (places : Places m next total) (member : p ∈ m.provers) (finished : p.isFinished = true)
    (seg : IsSeg i k p.segment) (same : IsSeg i k segment) (proved : segment.proof.isSome = true) :
    Places (m.recordDone i k segment) next total := by
  obtain ⟨i', k', lt, seg'⟩ := places.owned p member
  obtain ⟨rfl, rfl⟩ := seg.unique seg'
  exact {
    places with
    done := by
      intro i' k' s entry full
      by_cases here : i' = i
      · subst here
        simp only [recordDone, Function.update_self] at entry
        rcases (record_iff full).mp entry with ⟨rfl, rfl⟩ | ⟨-, old⟩
        · exact ⟨lt, same.1, proved⟩
        · exact places.done old full
      · simp only [recordDone, Function.update_of_ne here] at entry
        exact places.done entry full
    cover := by
      intro i' k' lt'
      rcases places.cover i' k' lt' with owned | done
      · exact .inl owned
      · exact .inr ((isDone_recordDone same).mpr (.inr done))
    both := by
      intro q member' i' k' at_q done
      rcases (isDone_recordDone same).mp done with ⟨rfl, rfl⟩ | old
      · have keys : q.segment.key = p.segment.key := at_q.1.trans seg.1.symm
        have equal : q = p := List.inj_on_of_nodup_map places.once member' member keys
        exact equal ▸ finished
      · exact places.both q member' i' k' at_q old }

theorem Places.erase (places : Places m next total) (entry : m.provers[j]? = some p) (seg : IsSeg i k p.segment)
    (done : m.IsDone i k) : Places { m with provers := m.provers.eraseIdx j } next total where
  le := places.le
  beyond := places.beyond
  appended := places.appended
  pending := places.pending
  full := places.full
  owned q member := places.owned q ((List.eraseIdx_sublist ..).subset member)
  once := places.once.sublist ((List.eraseIdx_sublist ..).map _)
  done := places.done
  cover := by
    intro i' k' lt
    rcases places.cover i' k' lt with ⟨q, member, seg'⟩ | done'
    · by_cases same : q = p
      · subst same
        obtain ⟨rfl, rfl⟩ := seg.unique seg'
        exact .inr done
      · obtain ⟨n, bound, rfl⟩ := List.getElem_of_mem member
        have other : n ≠ j := by
          rintro rfl
          exact same (Option.some.inj ((List.getElem?_eq_getElem bound).symm.trans entry))
        exact .inl ⟨_, List.mem_eraseIdx_iff_getElem.mpr ⟨n, bound, other, rfl⟩, seg'⟩
    · exact .inr done'
  both q member := places.both q ((List.eraseIdx_sublist ..).subset member)

theorem samePlaces_updateProving : SamePlaces m m.updateProving := by
  unfold updateProving
  dsimp only
  split
  · split_ifs
    · exact ⟨rfl, rfl, rfl, rfl, rfl⟩
    · exact ⟨rfl, rfl, rfl, rfl, rfl⟩
  · exact ⟨rfl, rfl, rfl, rfl, rfl⟩

/-- Collecting moves a segment from its prover to `done_segments`, and erases provers that are fully finished. -/
theorem Places.collect {forms : Forms F} (places : Places m next total) (newSmall : Bool) :
    Places (m.collect forms j newSmall) next total := by
  unfold ProverManager.collect
  split
  · split_ifs
    · have same := samePlaces_updateProving (m := m)
      exact places.congr ⟨same.segmentCount, same.provers, same.pendingSegments, same.lastAppended, same.doneSegments⟩
    · exact places.congr ⟨rfl, rfl, rfl, rfl, rfl⟩
  · next p entry =>
    have member := List.mem_of_getElem? entry
    obtain ⟨i, k, -, seg⟩ := places.owned p member
    dsimp only
    split_ifs with finished fully
    · have same : IsSeg i k { p.segment with proof := some (forms.prove p.segment.start p.segment.length) } := seg
      have recorded := places.record member finished seg same rfl
      rw [seg.bucket, seg.position]
      exact (recorded.erase entry seg ((isDone_recordDone same).mpr (.inl ⟨rfl, rfl⟩))).congr ⟨rfl, rfl, rfl, rfl, rfl⟩
    · have same : IsSeg i k { p.segment with proof := some (forms.prove p.segment.start p.segment.length) } := seg
      have recorded := places.record member finished seg same rfl
      rw [seg.bucket, seg.position]
      have follows : Follows p { p with
          segment := { p.segment with proof := some (forms.prove p.segment.start p.segment.length) } } :=
        ⟨rfl, rfl, id⟩
      exact (recorded.provers (forall₂_set entry follows)).congr ⟨rfl, rfl, rfl, rfl, rfl⟩
    · exact places.congr ⟨rfl, rfl, rfl, rfl, rfl⟩

end Collect

section Append

variable {m : ProverManager F} {next total : ℕ → ℕ} {forms : Forms F} {i k n : ℕ} {s : Segment F}

theorem newSegments_keys (fuel last : ℕ) : (newSegments forms (segmentSize i) n fuel (last * segmentSize i)).map
    Segment.key = (List.range' last (newSegments forms (segmentSize i) n fuel (last * segmentSize i)).length).map
      (segKey i) := by
  induction fuel generalizing last with
  | zero => rfl
  | succ fuel ih =>
    rw [newSegments]
    split_ifs
    · rw [List.map_cons, List.length_cons, List.range'_succ, List.map_cons, ← Nat.succ_mul, ih]
      rfl
    · rfl

theorem newSegments_full (fuel last : ℕ) :
    ∀ s ∈ newSegments forms (segmentSize i) n fuel last, s.isEmpty = false := by
  induction fuel generalizing last with
  | zero => simp [newSegments]
  | succ fuel ih =>
    rw [newSegments]
    split_ifs
    · intro s member
      rcases List.mem_cons.mp member with rfl | later
      · rfl
      · exact ih _ s later
    · simp

variable (forms) in
theorem Places.append (places : Places m next total) : ∃ total', Places (m.append forms n) next total' := by
  refine ⟨fun i => if i < m.segmentCount then total i + (newSegments forms (segmentSize i) n
    (n / segmentSize i + 1) (m.lastAppended i)).length else total i, ?_⟩
  exact {
    le := by
      intro i
      have le := places.le i
      split_ifs <;> omega
    beyond := fun i beyond => (if_neg (not_lt.mpr beyond)).trans (places.beyond i beyond)
    appended := by
      intro i
      have appended := places.appended i
      simp only [ProverManager.append]
      split_ifs
      · rw [appended, Nat.add_mul]
      · exact appended
    pending := by
      intro i
      have pending := places.pending i
      simp only [ProverManager.append]
      split_ifs
      · have le := places.le i
        rw [List.map_append, pending, places.appended, newSegments_keys, ← List.map_append]
        have start : total i = next i + (total i - next i) := by omega
        generalize (newSegments forms (segmentSize i) n (n / segmentSize i + 1) (total i * segmentSize i)).length = more
        rw [show total i + more - next i = (total i - next i) + more by omega, ← List.range'_append_1, ← start]
      · exact pending
    full := by
      intro i s member
      simp only [ProverManager.append] at member
      split_ifs at member
      · rcases List.mem_append.mp member with old | new
        · exact places.full i s old
        · exact newSegments_full _ _ s new
      · exact places.full i s member
    owned := places.owned
    once := places.once
    done := places.done
    cover := places.cover
    both := places.both }

theorem Places.head (places : Places m next total) (front : (m.pendingSegments i).head? = some s) :
    IsSeg i (next i) s ∧ next i < total i := by
  obtain ⟨rest, eq⟩ := List.head?_eq_some_iff.mp front
  have pending := places.pending i
  rw [eq, List.map_cons] at pending
  have more : 0 < total i - next i := by
    by_contra none
    rw [show total i - next i = 0 by omega] at pending
    cases pending
  obtain ⟨left, split⟩ : ∃ left, total i - next i = left + 1 := ⟨total i - next i - 1, by omega⟩
  rw [split, List.range'_succ, List.map_cons] at pending
  exact ⟨⟨(List.cons.inj pending).1, places.full i s (eq ▸ List.mem_cons_self ..)⟩, by omega⟩

theorem Places.spawn_pending (places : Places m next total) (front : (m.pendingSegments i).head? = some s) :
    Places (m.spawn s (.pending i)).1 (Function.update next i (next i + 1)) total := by
  obtain ⟨seg, lt⟩ := places.head front
  have later {i' k' : ℕ} (le : k' < next i') : k' < Function.update next i (next i + 1) i' := by
    by_cases here : i' = i
    · subst here
      rw [Function.update_self]
      omega
    · rwa [Function.update_of_ne here]
  exact {
    le := by
      intro i'
      by_cases here : i' = i
      · subst here
        rw [Function.update_self]
        exact lt
      · rw [Function.update_of_ne here]
        exact places.le i'
    beyond := places.beyond
    appended := places.appended
    pending := by
      intro i'
      simp only [ProverManager.spawn]
      by_cases here : i' = i
      · subst here
        obtain ⟨rest, eq⟩ := List.head?_eq_some_iff.mp front
        obtain ⟨left, split⟩ : ∃ left, total i' - next i' = left + 1 := ⟨total i' - next i' - 1, by omega⟩
        have pending := places.pending i'
        rw [eq, split, List.map_cons, List.range'_succ, List.map_cons] at pending
        rw [Function.update_self, Function.update_self, eq, List.tail_cons, (List.cons.inj pending).2,
          show total i' - (next i' + 1) = left by omega]
      · rw [Function.update_of_ne here, Function.update_of_ne here]
        exact places.pending i'
    full := by
      intro i' s' member
      simp only [ProverManager.spawn] at member
      by_cases here : i' = i
      · subst here
        rw [Function.update_self] at member
        exact places.full i' s' (List.mem_of_mem_tail member)
      · rw [Function.update_of_ne here] at member
        exact places.full i' s' member
    owned := by
      intro p member
      rcases List.mem_append.mp member with old | new
      · obtain ⟨i', k', le, seg'⟩ := places.owned p old
        exact ⟨i', k', later le, seg'⟩
      · obtain rfl := List.mem_singleton.mp new
        exact ⟨i, next i, by rw [Function.update_self]; omega, seg⟩
    once := by
      simp only [ProverManager.spawn, List.map_append, List.map_singleton]
      refine List.nodup_append.mpr ⟨places.once, List.nodup_singleton _, ?_⟩
      rintro key member key' new rfl
      obtain ⟨p, owner, same⟩ := List.mem_map.mp member
      obtain ⟨i', k', le, seg'⟩ := places.owned p owner
      have key_eq : segKey i' k' = segKey i (next i) := by
        rw [← seg'.1, same, List.mem_singleton.mp new]
        exact seg.1
      obtain ⟨rfl, rfl⟩ := segKey_inj.mp key_eq
      exact absurd le (lt_irrefl _)
    done := by
      intro i' k' s' entry full
      obtain ⟨le, rest⟩ := places.done entry full
      exact ⟨later le, rest⟩
    cover := by
      intro i' k' le
      by_cases here : i' = i ∧ k' = next i
      · obtain ⟨rfl, rfl⟩ := here
        exact .inl ⟨_, List.mem_append_right _ (List.mem_singleton_self _), seg⟩
      · have le' : k' < next i' := by
          by_cases eq : i' = i
          · subst eq
            rw [Function.update_self] at le
            omega
          · rwa [Function.update_of_ne eq] at le
        rcases places.cover i' k' le' with ⟨p, owner, seg'⟩ | done
        · exact .inl ⟨p, List.mem_append_left _ owner, seg'⟩
        · exact .inr done
    both := by
      intro p member i' k' seg' isDone
      rcases List.mem_append.mp member with old | new
      · exact places.both p old i' k' seg' isDone
      · obtain rfl := List.mem_singleton.mp new
        obtain ⟨rfl, rfl⟩ := seg.unique seg'
        obtain ⟨s', entry, full⟩ := isDone
        exact absurd (places.done entry full).1 (lt_irrefl _) }

theorem Places.setPaused (places : Places m next total) (index : ℕ) (isPaused : Bool) :
    Places (m.setPaused index isPaused) next total :=
  places.provers (forall₂_modify (fun p => { p with isPaused := isPaused }) (fun _ => ⟨rfl, rfl, id⟩) m.provers index)

end Append

end ProverManager

end ChiaVdf
