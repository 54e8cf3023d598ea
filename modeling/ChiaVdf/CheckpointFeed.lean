import ChiaVdf.RepeatedSquare

/-! What `repeated_square` hands on in an n-weso session, call by call: nothing is skipped,
published too early or submitted before its time. -/
namespace ChiaVdf.RepeatedSquare

variable {F : Type}

/-- The iterations whose checkpoints have been submitted. -/
def submissions (events : List (Event F)) : List ℕ :=
  events.filterMap fun event => match event with
    | .submitCheckpoint iteration => some iteration
    | _ => none

theorem submissions_append (events more : List (Event F)) :
    submissions (events ++ more) = submissions events ++ submissions more := by
  simp [submissions]

@[simp] theorem submissions_deliver (base : ℕ) (forms : List F) :
    submissions (deliver base forms) = [] := by
  induction forms generalizing base with
  | nil => rfl
  | cons form forms ih => simpa [deliver, submissions] using ih (base + 1)

@[simp] theorem iterations_append_deliver (events : List (Event F)) (base : ℕ) (forms : List F) :
    iterations (events ++ deliver base forms) = iterations events := by
  unfold iterations
  rw [List.foldl_append]
  induction forms generalizing base with
  | nil => rfl
  | cons form forms ih => simpa [deliver] using ih (base + 1)

theorem deliver_append (base : ℕ) (forms more : List F) :
    deliver base (forms ++ more) = deliver base forms ++ deliver (base + forms.length) more := by
  induction forms generalizing base with
  | nil => rfl
  | cons form forms ih =>
    rw [List.cons_append, deliver, deliver, ih, List.cons_append, List.length_cons]
    congr 3
    omega

theorem original_deliver (square : F → F) (f : F) (base k : ℕ) :
    ∃ forms, forms.length = k ∧ (repeatedSquareOriginal square f base k).2 = deliver base forms := by
  induction k with
  | zero => exact ⟨[], rfl, rfl⟩
  | succ k ih =>
    obtain ⟨forms, length, events⟩ := ih
    refine ⟨forms ++ [square (repeatedSquareOriginal square f base k).1], by simp [length], ?_⟩
    rw [deliver_append, ← events, length]
    rfl

/-- The right form was delivered last for every index below `n`. -/
def Covered (IsPower : ℕ → F → Prop) (n : ℕ) (events : List (Event F)) : Prop :=
  ∀ i < n, ∃ form, lastDelivered i events = some form ∧ IsPower (i + 1) form

/-- What holds when an n-weso session makes a call. -/
inductive Allowed (IsPower : ℕ → F → Prop) (sent : List (Event F)) : Event F → Prop where
  | onIteration {form : F} {i : ℕ} (published : iterations sent ≤ i) (known : ∀ j < i, j ∈ indices sent)
    (recent : ∀ j ∈ indices sent, j < i + checkpointInterval) : Allowed IsPower sent (.onIteration form i)
  | setIterations {m : ℕ} (grows : iterations sent ≤ m) (covered : Covered IsPower m sent) :
    Allowed IsPower sent (.setIterations m)
  | submitCheckpoint {n : ℕ} (next : n = 2 ^ 15 * (submissions sent).length)
    (covered : Covered IsPower n sent) (recent : ∀ j ∈ indices sent, j + 1 < n + 2 ^ 15) :
    Allowed IsPower sent (.submitCheckpoint n)
  | newEvent : Allowed IsPower sent .newEvent

/-- The calls of an n-weso session. -/
inductive Feed (IsPower : ℕ → F → Prop) : List (Event F) → Prop where
  | nil : Feed IsPower []
  | snoc {sent : List (Event F)} {event : Event F} : Feed IsPower sent → Allowed IsPower sent event →
    Feed IsPower (sent ++ [event])

section Feed

variable {IsPower : ℕ → F → Prop} {sent more : List (Event F)}

theorem Feed.last {event : Event F} (feed : Feed IsPower (sent ++ [event])) :
    Feed IsPower sent ∧ Allowed IsPower sent event := by
  generalize whole : sent ++ [event] = events at feed
  cases feed with
  | nil => simp at whole
  | snoc feed allowed =>
    obtain ⟨rfl, same⟩ := List.append_inj' whole rfl
    obtain rfl := List.singleton_inj.mp same
    exact ⟨feed, allowed⟩

theorem Feed.of_append (feed : Feed IsPower (sent ++ more)) : Feed IsPower sent := by
  induction more using List.reverseRecOn with
  | nil => simpa using feed
  | append_singleton more event ih =>
    rw [← List.append_assoc] at feed
    exact ih feed.last.1

theorem mem_indices_append_onIteration {form : F} {i j : ℕ} :
    j ∈ indices (sent ++ [.onIteration form i]) ↔ j ∈ indices sent ∨ j = i := by
  have one : indices [Event.onIteration form i] = {i} := rfl
  rw [indices_append, Finset.mem_union, one, Finset.mem_singleton]

theorem Feed.deliver (feed : Feed IsPower sent) {base : ℕ} {forms : List F}
    (size : forms.length ≤ checkpointInterval) (published : iterations sent ≤ base)
    (known : ∀ j < base, j ∈ indices sent) (recent : ∀ j ∈ indices sent, j < base + checkpointInterval) :
    Feed IsPower (sent ++ RepeatedSquare.deliver base forms) := by
  induction forms using List.reverseRecOn with
  | nil => simpa [RepeatedSquare.deliver] using feed
  | append_singleton forms form ih =>
    rw [List.length_append, List.length_singleton] at size
    rw [deliver_append, ← List.append_assoc]
    have last : RepeatedSquare.deliver (base + forms.length) [form] =
        [.onIteration form (base + forms.length)] := rfl
    rw [last]
    refine (ih (by omega)).snoc (.onIteration ?_ ?_ ?_)
    · rw [iterations_append_deliver]
      omega
    · intro j lt
      rw [indices_append, Finset.mem_union, mem_indices_deliver]
      by_cases old : j < base
      · exact .inl (known j old)
      · exact .inr ⟨by omega, lt⟩
    · intro j member
      rw [indices_append, Finset.mem_union, mem_indices_deliver] at member
      rcases member with old | new
      · have := recent j old
        omega
      · omega

end Feed

section Turns

variable {IsPower : ℕ → F → Prop} {mode : Mode} {square : F → F} {s : State F} {f : F}

/-- The state between two turns. -/
structure Boundary (IsPower : ℕ → F → Prop) (mode : Mode) (s : State F) : Prop where
  aligned : Aligned IsPower s
  feed : Feed IsPower s.events
  below : ∀ j ∈ indices s.events, j < s.numIterations
  published : iterations s.events ≤ s.numIterations
  ahead : s.numIterations < s.lastCheckpoint ∨ s.numIterations = 0 ∧ s.lastCheckpoint = 0
  near : s.lastCheckpoint ≤ s.numIterations + 2 ^ 15
  announced : s.lastCheckpoint ≤ iterations s.events + 2 ^ 15
  submitted : mode.fastAlgorithm = true → mode.fastStorage = true →
    s.lastCheckpoint = 2 ^ 15 * (submissions s.events).length

/-- The calls of a batch are made for the iterations it makes, in one or two passes. -/
theorem batch_calls (square : F → F) {batchSize : ℕ} {outcome : Outcome F}
    (size : ∀ delivered f, outcome = .stopped delivered f ∨ outcome = .corrupted delivered →
      delivered.length ≤ batchSize) (positive : 1 ≤ batchSize) : ∃ first second : List F,
      (batch square batchSize outcome s).events =
        s.events ++ deliver s.numIterations first ++ deliver s.numIterations second ∧
      first.length ≤ batchSize ∧ second.length ≤ batchSize ∧
      s.numIterations + first.length ≤ (batch square batchSize outcome s).numIterations ∧
      s.numIterations + second.length ≤ (batch square batchSize outcome s).numIterations ∧
      s.numIterations < (batch square batchSize outcome s).numIterations ∧
      (batch square batchSize outcome s).numIterations ≤ s.numIterations + batchSize := by
  cases outcome with
  | stopped delivered g =>
    have le := size delivered g (.inl rfl)
    by_cases short : delivered.length < batchSize
    · refine ⟨delivered ++ [square g], [], ?_⟩
      simp only [batch, fastBatch, slowStep, short, if_true, deliver_append, deliver, List.append_nil,
        repeatedSquareOriginal, List.length_append, List.length_singleton, List.length_nil]
      exact ⟨rfl, by omega, by omega, by omega, by omega, by omega, by omega⟩
    · refine ⟨delivered, [], ?_⟩
      simp only [batch, fastBatch, slowStep, short, if_false, deliver, List.append_nil, List.length_nil]
      exact ⟨trivial, by omega, by omega, by omega, by omega, by omega, by omega⟩
  | corrupted delivered =>
    have le := size delivered s.f (.inr rfl)
    obtain ⟨forms, length, events⟩ := original_deliver square s.f s.numIterations batchSize
    refine ⟨delivered, forms, ?_⟩
    simp only [batch, fastBatch, slowStep, lt_irrefl, if_false, events, List.append_assoc]
    exact ⟨trivial, by omega, by omega, by omega, by omega, by omega, by omega⟩

/-- In an n-weso session a checkpoint is published, announced and moved on. -/
theorem checkpoint_eq (nWeso : mode.twoWeso = false) (s : State F) :
    checkpoint mode square s = if s.numIterations ≥ s.lastCheckpoint then
      { notify mode (publish s) with lastCheckpoint := s.lastCheckpoint + 2 ^ 15 } else s := by
  have same : (notify mode (publish s)).lastCheckpoint = s.lastCheckpoint := by
    unfold notify
    split_ifs <;> rfl
  simp only [checkpoint, switch, advance, nWeso, Bool.false_eq_true, false_and, if_false, same]

/-- The state after the calls of a batch. -/
structure Batched (IsPower : ℕ → F → Prop) (mode : Mode) (s : State F) : Prop where
  aligned : Aligned IsPower s
  feed : Feed IsPower s.events
  below : ∀ j ∈ indices s.events, j < s.numIterations
  published : iterations s.events ≤ s.numIterations
  recent : s.numIterations < s.lastCheckpoint + 2 ^ 15
  near : s.lastCheckpoint ≤ s.numIterations + 2 ^ 15
  announced : s.lastCheckpoint ≤ iterations s.events + 2 ^ 15
  submitted : mode.fastAlgorithm = true → mode.fastStorage = true →
    s.lastCheckpoint = 2 ^ 15 * (submissions s.events).length

theorem Boundary.batch (boundary : Boundary IsPower mode s) (squares : Squares IsPower square)
    {outcome : Outcome F} (valid : outcome.Valid IsPower s.numIterations) :
    Batched IsPower mode (batch square checkpointInterval outcome s) := by
  have aligned := boundary.aligned.batch squares checkpointInterval valid
  obtain ⟨first, second, events, small, small', le, le', more, bound⟩ :=
    batch_calls (s := s) square valid.size (by decide)
  have interval : checkpointInterval = 10000 := rfl
  have sameC : (RepeatedSquare.batch square checkpointInterval outcome s).lastCheckpoint =
    s.lastCheckpoint := rfl
  have known : ∀ j < s.numIterations, j ∈ indices s.events :=
    fun j lt => boundary.aligned.log.mem_indices lt
  have feed : Feed IsPower (s.events ++ deliver s.numIterations first) :=
    boundary.feed.deliver small boundary.published known
      fun j member => by have := boundary.below j member; omega
  have feed' : Feed IsPower (s.events ++ deliver s.numIterations first ++ deliver s.numIterations second) := by
    refine feed.deliver small' ?_ ?_ ?_
    · rw [iterations_append_deliver]
      exact boundary.published
    · intro j lt
      rw [indices_append, Finset.mem_union]
      exact .inl (known j lt)
    · intro j member
      rw [indices_append, Finset.mem_union, mem_indices_deliver] at member
      rcases member with old | new
      · have := boundary.below j old
        omega
      · omega
  have ahead := boundary.ahead
  have near := boundary.near
  constructor
  case aligned => exact aligned
  case feed => rwa [events]
  case below =>
    intro j member
    rw [events, indices_append, indices_append, Finset.mem_union, Finset.mem_union,
      mem_indices_deliver, mem_indices_deliver] at member
    rcases member with (old | new) | new
    · have := boundary.below j old
      omega
    · omega
    · omega
  case published =>
    rw [events, iterations_append_deliver, iterations_append_deliver]
    exact boundary.published.trans more.le
  case recent => omega
  case near => omega
  case announced =>
    rw [events, iterations_append_deliver, iterations_append_deliver]
    exact boundary.announced
  case submitted =>
    intro fast storage
    rw [events, submissions_append, submissions_append, submissions_deliver, submissions_deliver,
      List.append_nil, List.append_nil]
    exact boundary.submitted fast storage

theorem iterations_append_setIterations (events : List (Event F)) (m : ℕ) :
    iterations (events ++ [.setIterations m]) = m := by simp [iterations]

theorem indices_append_of_noCall (events : List (Event F)) {event : Event F}
    (noCall : event.index? = none) : indices (events ++ [event]) = indices events := by
  rw [indices_append]
  simp [indices, noCall]

theorem Batched.publish (batched : Batched IsPower mode s) : Batched IsPower mode (publish s) where
  aligned := batched.aligned.note ⟨rfl, rfl, rfl⟩ rfl (by simp)
  feed := batched.feed.snoc (.setIterations batched.published batched.aligned.log.covers)
  below j member := by
    rw [RepeatedSquare.publish, indices_append_of_noCall _ rfl] at member
    exact batched.below j member
  published := (iterations_append_setIterations _ _).le
  recent := batched.recent
  near := batched.near
  announced := by
    rw [RepeatedSquare.publish, iterations_append_setIterations]
    exact batched.near
  submitted fast storage := by
    rw [RepeatedSquare.publish, submissions_append]
    simpa [submissions] using batched.submitted fast storage

theorem Batched.checkpoint (batched : Batched IsPower mode s) (nWeso : mode.twoWeso = false) :
    Boundary IsPower mode (checkpoint mode square s) := by
  rw [checkpoint_eq nWeso]
  split_ifs with passed
  · have after := batched.publish
    have recent := batched.recent
    have announced : s.lastCheckpoint + 2 ^ 15 ≤ iterations (RepeatedSquare.publish s).events + 2 ^ 15 := by
      rw [RepeatedSquare.publish, iterations_append_setIterations]
      exact Nat.add_le_add_right passed _
    have boundary (t : State F) (event : Event F)
        (same : t.f = (RepeatedSquare.publish s).f ∧ t.numIterations = s.numIterations ∧
          t.events = (RepeatedSquare.publish s).events ++ [event])
        (noCall : event.index? = none) (quiet : ∀ m, event ≠ .setIterations m)
        (feed : Feed IsPower t.events) (submitted : mode.fastAlgorithm = true → mode.fastStorage = true →
          s.lastCheckpoint + 2 ^ 15 = 2 ^ 15 * (submissions t.events).length) :
        Boundary IsPower mode { t with lastCheckpoint := s.lastCheckpoint + 2 ^ 15 } := by
      obtain ⟨sameF, sameN, sameE⟩ := same
      have aligned : Aligned IsPower t := after.aligned.note ⟨sameF, sameN, sameE⟩ noCall
        fun m set => absurd set (quiet m)
      have same : iterations t.events = iterations (RepeatedSquare.publish s).events := by
        rw [sameE, iterations, List.foldl_append]
        cases event <;> simp_all [iterations]
      constructor
      case aligned => exact ⟨aligned.power, aligned.log⟩
      case feed => exact feed
      case below =>
        intro j member
        simp only [sameE, indices_append_of_noCall _ noCall] at member
        simp only [sameN]
        exact after.below j member
      case published =>
        simp only [same, sameN]
        exact after.published
      case ahead =>
        simp only [sameN]
        omega
      case near =>
        simp only [sameN]
        omega
      case announced =>
        simp only [same]
        rw [RepeatedSquare.publish, iterations_append_setIterations]
        omega
      case submitted => exact submitted
    unfold notify
    split_ifs with fast storage multiple
    · refine boundary _ (.submitCheckpoint s.lastCheckpoint) ⟨rfl, rfl, rfl⟩ rfl (by simp) ?_ ?_
      · refine after.feed.snoc (.submitCheckpoint (after.submitted fast storage) ?_ ?_)
        · exact fun i lt => after.aligned.log.covers i (lt.trans_le passed)
        · intro j member
          have below : j < s.numIterations := after.below j member
          show j + 1 < s.lastCheckpoint + 2 ^ 15
          omega
      · intro _ _
        have count := after.submitted fast storage
        simp only [RepeatedSquare.publish] at count ⊢
        rw [submissions_append, List.length_append, Nat.mul_add, ← count]
        rfl
    · exact boundary _ .newEvent ⟨rfl, rfl, rfl⟩ rfl (by simp) (after.feed.snoc .newEvent)
        fun _ storage' => absurd storage' storage
    · exact ⟨⟨after.aligned.power, after.aligned.log⟩, after.feed, after.below, after.published,
        .inl recent, Nat.add_le_add_right passed _, announced, fun _ storage' => absurd storage' storage⟩
    · exact ⟨⟨after.aligned.power, after.aligned.log⟩, after.feed, after.below, after.published,
        .inl recent, Nat.add_le_add_right passed _, announced, fun fast' => absurd fast' fast⟩
  · exact ⟨batched.aligned, batched.feed, batched.below, batched.published,
      .inl (by omega), batched.near, batched.announced, batched.submitted⟩

theorem Boundary.limit (boundary : Boundary IsPower mode s) : Boundary IsPower mode (limit mode s) := by
  unfold RepeatedSquare.limit
  split_ifs with exceeded
  · have published : Boundary IsPower mode (RepeatedSquare.publish s) := by
      have ahead := boundary.ahead
      constructor
      case aligned => exact boundary.aligned.note ⟨rfl, rfl, rfl⟩ rfl (by simp)
      case feed => exact boundary.feed.snoc (.setIterations boundary.published boundary.aligned.log.covers)
      case below =>
        intro j member
        rw [RepeatedSquare.publish, indices_append_of_noCall _ rfl] at member
        exact boundary.below j member
      case published => exact (iterations_append_setIterations _ _).le
      case ahead => exact ahead
      case near => exact boundary.near
      case announced =>
        rw [RepeatedSquare.publish, iterations_append_setIterations]
        exact boundary.near
      case submitted =>
        intro fast storage
        rw [RepeatedSquare.publish, submissions_append]
        simpa [submissions] using boundary.submitted fast storage
    exact ⟨⟨published.aligned.power, published.aligned.log⟩, published.feed, published.below,
      published.published, published.ahead, published.near, published.announced, published.submitted⟩
  · exact boundary

theorem Boundary.turn (boundary : Boundary IsPower mode s) (nWeso : mode.twoWeso = false)
    (squares : Squares IsPower square) {outcome : Outcome F}
    (valid : outcome.Valid IsPower s.numIterations) :
    Boundary IsPower mode (turn mode square outcome s) :=
  ((boundary.batch squares valid).checkpoint nWeso).limit

theorem Reachable.boundary (reachable : Reachable IsPower mode square f s)
    (nWeso : mode.twoWeso = false) (squares : Squares IsPower square) (zero : IsPower 0 f) :
    Boundary IsPower mode s := by
  induction reachable with
  | start => exact ⟨⟨zero, Log.nil⟩, .nil, by simp [RepeatedSquare.start, indices], le_rfl,
      .inr ⟨rfl, rfl⟩, Nat.zero_le _, Nat.zero_le _, fun _ _ => rfl⟩
  | turn _ _ valid ih => exact ih.turn nWeso squares valid

end Turns

end ChiaVdf.RepeatedSquare
