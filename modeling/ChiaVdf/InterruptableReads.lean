import ChiaVdf.IndexBounds

/-! What an `InterruptableProver` reads while its segment is inside the sliding window. -/
namespace ChiaVdf

open RepeatedSquare (Event)

namespace NWeso

variable {F : Type} {IsPower : ℕ → F → Prop} {r : Routines F} {segments limit : ℕ} {f : F} {multi : Bool}
  {sent : List (Event F)} {s : NWeso F}

/-- A worker without `FastStorage` stores in order. -/
theorem Reachable.timely (reachable : Reachable IsPower r (mode multi limit) segments f sent s)
    (few : segments ≤ 15) (square : RepeatedSquare.Squares IsPower r.square) (zero : IsPower 0 f)
    (workers : multi = true → Timely s.weso.stored) : Timely s.weso.stored := by
  cases multi with
  | true => exact workers rfl
  | false => exact (reachable.delivered few square zero).timely

theorem Reachable.table (reachable : Reachable IsPower r (mode multi limit) segments f sent s)
    (few : segments ≤ 15) : Table s.weso := by
  have stores {c c' : FastAlgorithmCallback F} {setForm : F → F} {form : F} {e n : ℕ} (table : Table c)
      (le : n ≤ c.segments)
      (run : Exec.forLoop n (FastAlgorithmCallback.visit setForm form e) c = .done c') : Table c' := by
    induction n generalizing c' with
    | zero => exact Exec.done.inj run ▸ table
    | succ n ih =>
      obtain ⟨c₁, before, visit⟩ := Exec.bind_eq_done.mp run
      obtain ⟨sameS, -, -⟩ := visits_frame before
      exact (ih (by omega) before).of_visit (by omega) visit
  induction reachable with
  | start run =>
    obtain ⟨-, rfl⟩ := start_eq run
    exact Table.fill f few rfl rfl le_rfl
  | @event sent s t loop event before inner part run ih =>
    cases event with
    | onIteration form i =>
      obtain ⟨weso, call, last⟩ := Exec.bind_eq_done.mp run
      obtain rfl := Exec.done.inj last
      obtain ⟨c₁, checkpoints, keep, rfl, -⟩ := FastAlgorithmCallback.onIteration_cases call
      have kept : Table c₁ := by
        by_cases machine : s.weso.multiProcMachine = true
        · obtain rfl := FastAlgorithmCallback.keepForms_multi machine keep
          split_ifs
          · exact ih.congr rfl rfl rfl
          · exact ih
        · rw [FastAlgorithmCallback.keepForms, if_neg machine] at keep
          exact stores ih le_rfl keep
      exact kept.congr rfl rfl rfl
    | _ =>
      obtain rfl := Exec.done.inj run
      exact ih.congr rfl rfl rfl
  | @other sent s t next before noEvent run ih =>
    cases next with
    | event event => exact absurd rfl (noEvent event)
    | work w =>
      rw [NWeso.step] at run
      split_ifs at run
      · cases work_cases run with
        | store _ _ inner visit => exact ih.of_visit inner visit
        | _ => exact ih
      · exact Exec.done.inj run ▸ ih
    | observe => exact Exec.done.inj run ▸ ih
    | getFinishedSegment =>
      rcases getFinishedSegment_cases run with ⟨-, rfl, -⟩ | ⟨-, rfl⟩ | ⟨-, rfl⟩ <;> exact ih
    | appendSegment bucket => rcases appendSegment_cases run with rfl | ⟨-, -, -, rfl⟩ <;> exact ih
    | prove iteration => exact prove_eq run ▸ ih

theorem Reachable.getForm (reachable : Reachable IsPower r (mode multi limit) segments f sent s)
    (few : segments ≤ 15) (right : r.Right IsPower) (zero : IsPower 0 f)
    (workers : multi = true → Timely s.weso.stored) {bucket start : ℕ} (made : (bucket, start) ∈ s.handed)
    (window : ∀ entry ∈ s.weso.stored, entry.1.1 = bucket →
      entry.1.2 < start + kWindowSize * segmentSize bucket) {j : ℕ}
    (inside : j * stride bucket < segmentSize bucket) :
    ∃ form, (InterruptableProver.ofSegment start (segmentSize bucket)).getForm j s.weso = .done (some form) ∧
      IsPower (start + j * stride bucket) form := by
  obtain ⟨lt, whole, settled, bound⟩ := (reachable.handed right.square zero).handed _ made
  dsimp only at lt whole settled bound
  have sameS := reachable.frame.1
  have small : bucket ≤ 14 := by omega
  have kept : Kept bucket (start + j * stride bucket) := kept_add whole inside
  obtain ⟨written, correct⟩ := reachable.lookup few right zero (sameS ▸ lt) kept
    (by omega)
  obtain ⟨form, found, read⟩ := (reachable.table few).getForm lt kept
    (reachable.timely few right.square zero workers)
    (fun entry member same => by have := window entry member same; omega) written
  refine ⟨form, ?_, correct form found⟩
  rw [InterruptableProver.getForm, exponent_ofSegment small (by omega) inside,
    bucket_ofSegment, read]

section Reads

/-- Slots are separate exactly up to fifteen segment sizes. With so many, in every run in which no
worker of `FastStorage` stores behind a later exponent of the same slot, a prover whose segment is
still in the window reads the forms it asks for; a store behind a later exponent destroys it. -/
theorem intermediates_right (segments : ℕ) : (SeparateSlots segments ↔ segments ≤ 15) ∧
    (segments ≤ 15 → ∀ {d : Discriminant} {x : ReducedForm d} {r : Routines Form} {limit : ℕ} {f : Form}
      {multi : Bool} {sent : List (Event Form)} {s : NWeso Form},
      r.Right (RepeatedSquare.IsPower x) → Represents f x →
      Reachable (RepeatedSquare.IsPower x) r (mode multi limit) segments f sent s →
      (multi = true → Timely s.weso.stored) → ∀ bucket start, (bucket, start) ∈ s.handed →
      (∀ entry ∈ s.weso.stored, entry.1.1 = bucket →
        entry.1.2 < start + kWindowSize * segmentSize bucket) →
      ∀ j, let prover := InterruptableProver.ofSegment start (segmentSize bucket)
        j * prover.k * prover.l < segmentSize bucket →
        ∃ form, prover.getForm j s.weso = .done (some form) ∧
          Represents form (x ^ 2 ^ (start + j * prover.k * prover.l))) ∧
    (segments ≤ 15 → ∀ (c c' : FastAlgorithmCallback Form) (y : Form) (bucket e later : ℕ),
      c.segments = segments → bucket < segments →
      FastAlgorithmCallback.wants e bucket = .done true →
      FastAlgorithmCallback.getPosition later bucket = FastAlgorithmCallback.getPosition e bucket →
      c.visit id y e bucket = .done c' → c'.getForm later bucket = .done (some y)) := by
  refine ⟨separateSlots_iff segments, ?_, ?_⟩
  · intro few d x r limit f multi sent s right represents reachable workers bucket start made window j
      prover inside
    have zero : RepeatedSquare.IsPower x 0 f := by simpa [RepeatedSquare.IsPower] using represents
    have small : bucket ≤ 14 := by
      have := ((reachable.handed right.square zero).handed _ made).1
      rw [reachable.frame.1] at this
      simp only at this
      omega
    have strides : j * prover.k * prover.l = j * stride bucket := by
      rw [Nat.mul_assoc, kl_ofSegment small]
    rw [strides] at inside ⊢
    exact reachable.getForm few right zero workers made window inside
  · intro few c c' y bucket e later size inside wanted same run
    rcases FastAlgorithmCallback.visit_cases run with ⟨unwanted, -⟩ | ⟨-, pos, place, rfl⟩
    · rw [unwanted] at wanted
      cases wanted
    · have small : bucket ≤ 14 := by omega
      rw [formAt_eq small (size ▸ inside)] at place
      rw [getPosition_eq small, getPosition_eq small] at same
      obtain rfl := Exec.done.inj place
      rw [FastAlgorithmCallback.getForm, FastAlgorithmCallback.setForms, formAt_eq small (size ▸ inside),
        Exec.done.inj same, Exec.done_bind]
      simp

/-- Nothing has been made of the segments yet. -/
structure Untouched (s : NWeso F) : Prop where
  appended : s.lastAppended = fun _ => 0
  handed : s.handed = []

theorem Untouched.event {s t : NWeso F} {event : Event F} (untouched : Untouched s)
    (run : s.handle r event = .done t) : Untouched t := by
  cases event with
  | onIteration form i =>
    obtain ⟨weso, -, last⟩ := Exec.bind_eq_done.mp run
    obtain rfl := Exec.done.inj last
    exact ⟨untouched.appended, untouched.handed⟩
  | _ =>
    obtain rfl := Exec.done.inj run
    exact ⟨untouched.appended, untouched.handed⟩

theorem Reachable.firstSegment (reachable : Reachable IsPower r (mode false limit) segments f sent s)
    (positive : 1 ≤ segments) (untouched : Untouched s) (published : 2 ^ 16 ≤ s.weso.iterations) :
    ∃ t, Reachable IsPower r (mode false limit) segments f sent t ∧ (0, 0) ∈ t.handed ∧ t.weso = s.weso := by
  have one := reachable.other (by simp : ∀ event, Step.observe ≠ .event event) rfl
  have two : Reachable IsPower r (mode false limit) segments f sent
      { s with vdfIteration := s.weso.iterations, intermediatesIter := s.weso.iterations } :=
    one.other (by simp : ∀ event, Step.getFinishedSegment ≠ .event event)
      (by simp [NWeso.step, NWeso.getFinishedSegment, reachable.frame.2])
  have size : FastAlgorithmCallback.power2 0 = .done (2 ^ 16) := rfl
  have first : (0 : ℕ) / 2 ^ 16 < FastAlgorithmCallback.checkpointsCapacity := by decide
  have second : (2 : ℕ) ^ 16 / 2 ^ 16 < FastAlgorithmCallback.checkpointsCapacity := by decide
  have zero : s.lastAppended 0 = 0 := congrFun untouched.appended 0
  have inside : 0 < s.weso.segments := by
    rw [reachable.frame.1]
    exact positive
  refine ⟨{ s with
      vdfIteration := s.weso.iterations
      intermediatesIter := s.weso.iterations
      handed := s.handed ++ [(0, 0)]
      lastAppended := Function.update s.lastAppended 0 (2 ^ 16) },
    two.other (by simp : ∀ event, Step.appendSegment 0 ≠ .event event) ?_,
    List.mem_append_right _ (List.mem_singleton.mpr rfl), rfl⟩
  simp only [NWeso.step, NWeso.appendSegment, inside, if_true, size, Exec.done_bind, zero, Nat.zero_add,
    published, FastAlgorithmCallback.getCheckpoint, first, second, Exec.pure_eq]

/-- After 98304 iterations the prover of the first segment reads the form after ten squarings. -/
theorem intermediates_right_ten : ∃ (x : ReducedForm ⟨23, by norm_num, rfl⟩) (s : NWeso Form),
    x.form = ⟨2, 1, 3⟩ ∧ (0, 0) ∈ s.handed ∧
      ∃ form, (InterruptableProver.ofSegment 0 (segmentSize 0)).getForm 1 s.weso = .done (some form) ∧
        Represents form (x ^ 2 ^ 10) := by
  let x : ReducedForm ⟨23, by norm_num, rfl⟩ := ⟨⟨2, 1, 3⟩, by decide, by decide⟩
  have rep : Represents (⟨2, 1, 3⟩ : Form) x := ReducedForm.represents x
  have zero : RepeatedSquare.IsPower x 0 (⟨2, 1, 3⟩ : Form) := by simpa [RepeatedSquare.IsPower] using rep
  have right := generatorRoutines_right x
  have inBounds : InBounds (RepeatedSquare.IsPower x) generatorRoutines (mode false 0) 8 ⟨2, 1, 3⟩ 98304 :=
    indices_inBounds (by norm_num) (by norm_num) right zero
  obtain ⟨weso, made⟩ := start_done false (show 1 ≤ 8 by norm_num) (by norm_num) (⟨2, 1, 3⟩ : Form)
  obtain ⟨loop, inner, count, -⟩ := exists_loop false right.square zero 98304
  have begun : Reachable (RepeatedSquare.IsPower x) generatorRoutines (mode false 0) 8 ⟨2, 1, 3⟩ []
      (NWeso.start weso) := .start made
  obtain ⟨s, reachable, untouched⟩ := begun.extend inBounds inner count.le (List.nil_append _)
    (fun _ s => Untouched s) ⟨rfl, rfl⟩ Untouched.event
  have boundary := inner.boundary rfl right.square zero
  have delivered := reachable.delivered (by norm_num) right.square zero
  have published : 2 ^ 16 ≤ s.weso.iterations := by
    have ahead := boundary.ahead
    have announced := boundary.announced
    rw [delivered.published]
    omega
  obtain ⟨t, reachT, handed, same⟩ := reachable.firstSegment (by norm_num) untouched published
  refine ⟨x, t, rfl, handed, (intermediates_right 8).2.1 (by norm_num) right rep reachT
    (fun multi => absurd multi Bool.false_ne_true) 0 0 handed (fun entry member _ => ?_) 1 (by decide)⟩
  rw [same] at member
  cases exponent : entry.1.2 with
  | zero => decide
  | succ m =>
    have known := boundary.below m (delivered.known entry member m exponent)
    have size : 0 + kWindowSize * segmentSize 0 = 1310720 := by decide
    omega

/-- With sixteen segment sizes two exponents that provers of the last bucket need share a slot. -/
theorem sixteen_sizes_collide : Needed 15 0 ∧ Needed 15 (12 * 2 ^ 28) ∧
    FastAlgorithmCallback.getPosition (12 * 2 ^ 28) 15 = FastAlgorithmCallback.getPosition 0 15 ∧
    ¬SeparateSlots 16 :=
  ⟨needed_fifteen.1, needed_fifteen.2, getPosition_fifteen, fun separate =>
    absurd ((separateSlots_iff 16).mp separate) (by norm_num)⟩

end Reads

end NWeso

end ChiaVdf
