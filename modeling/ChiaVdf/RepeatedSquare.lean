import ChiaVdf.FormArithmetic

/-! `repeated_square` of `vdf.h`: the loop of batches with its three outcomes of the fast
algorithm, and the calls it makes to the listener, in the order in which it makes them. -/
namespace ChiaVdf.RepeatedSquare

def checkpointInterval : ℕ := 10000
def kMaxItersAllowed : ℕ := 800000000
def kSwitchIters : ℕ := 91000000

/-- Calls to the `WesolowskiCallback` and to the `FastStorage`, and assignments to `iterations`.
`FastStorage` gets `y_ret`, which belongs to the listener. -/
inductive Event (F : Type) where
  | onIteration (form : F) (iteration : ℕ)
  | setIterations (iterations : ℕ)
  | submitCheckpoint (iteration : ℕ)
  | newEvent
  | increaseConstants (iterations : ℕ)
  deriving DecidableEq, Repr

/-- What `repeated_square_fast` does with a batch: the forms it delivers, and the form it leaves
behind unless it reports corruption. -/
inductive Outcome (F : Type) where
  | stopped (delivered : List F) (f : F)
  | corrupted (delivered : List F)

/-- The globals and the arguments that choose between the branches; `iterations` is 0 if there is
no limit. -/
structure Mode where
  fastAlgorithm : Bool
  twoWeso : Bool
  fastStorage : Bool
  iterations : ℕ

structure State (F : Type) where
  f : F
  numIterations : ℕ
  lastCheckpoint : ℕ
  largeConstants : Bool
  finished : Bool
  events : List (Event F)

variable {F : Type}

def deliver (base : ℕ) : List F → List (Event F)
  | [] => []
  | form :: forms => .onIteration form base :: deliver (base + 1) forms

/-- The forms and the calls of `repeated_square_original`. -/
def repeatedSquareOriginal (square : F → F) (f : F) (base : ℕ) : ℕ → F × List (Event F)
  | 0 => (f, [])
  | i + 1 =>
    let (f, events) := repeatedSquareOriginal square f base i
    (square f, events ++ [.onIteration (square f) (base + i)])

/-- The fast algorithm, and the slow one for the whole batch if there was corruption. -/
def fastBatch (square : F → F) (batchSize : ℕ) (f : F) (numIterations : ℕ) :
    Outcome F → F × ℕ × List (Event F)
  | .stopped delivered f => (f, delivered.length, deliver numIterations delivered)
  | .corrupted delivered =>
    let (f, redo) := repeatedSquareOriginal square f numIterations batchSize
    (f, batchSize, deliver numIterations delivered ++ redo)

/-- After a batch that was cut short, one slow iteration. -/
def slowStep (square : F → F) (batchSize : ℕ) (numIterations : ℕ) :
    F × ℕ × List (Event F) → F × ℕ × List (Event F)
  | (f, actualIterations, events) =>
    if actualIterations < batchSize then
      let (f, step) := repeatedSquareOriginal square f (numIterations + actualIterations) 1
      (f, actualIterations + 1, events ++ step)
    else (f, actualIterations, events)

def batch (square : F → F) (batchSize : ℕ) (outcome : Outcome F) (s : State F) : State F :=
  let (f, actualIterations, events) :=
    slowStep square batchSize s.numIterations (fastBatch square batchSize s.f s.numIterations outcome)
  { s with
    f := f
    numIterations := s.numIterations + actualIterations
    events := s.events ++ events }

/-- The n-weso specific logic at a checkpoint. -/
def notify (mode : Mode) (s : State F) : State F :=
  if mode.fastAlgorithm then
    if mode.fastStorage then { s with events := s.events ++ [.submitCheckpoint s.lastCheckpoint] }
    else if s.lastCheckpoint % 2 ^ 16 = 0 then { s with events := s.events ++ [.newEvent] }
    else s
  else s

/-- The switch to the larger stride, at the next multiple of 100. -/
def switch (mode : Mode) (square : F → F) (s : State F) : State F :=
  if mode.twoWeso ∧ s.numIterations ≥ kSwitchIters ∧ s.largeConstants = false then
    let roundUp := (100 - s.numIterations % 100) % 100
    let (f, events) := repeatedSquareOriginal square s.f s.numIterations roundUp
    { s with
      f := f
      numIterations := s.numIterations + roundUp
      largeConstants := true
      events := s.events ++ (events ++
        [.increaseConstants (s.numIterations + roundUp), .setIterations (s.numIterations + roundUp)]) }
  else s

/-- The loop of a 2-weso session ends when the checkpoints are used up. -/
def advance (mode : Mode) (s : State F) : State F :=
  if mode.twoWeso ∧ s.numIterations ≥ kMaxItersAllowed - 500000 then { s with finished := true }
  else { s with lastCheckpoint := s.lastCheckpoint + 2 ^ 15 }

def publish (s : State F) : State F :=
  { s with events := s.events ++ [.setIterations s.numIterations] }

/-- What happens when `num_iterations` has passed `last_checkpoint`. -/
def checkpoint (mode : Mode) (square : F → F) (s : State F) : State F :=
  if s.numIterations ≥ s.lastCheckpoint then
    advance mode (switch mode square (notify mode (publish s)))
  else s

/-- The end of a turn: stop when the wanted number of iterations is exceeded. -/
def limit (mode : Mode) (s : State F) : State F :=
  if s.finished = false ∧ mode.iterations ≠ 0 ∧ s.numIterations > mode.iterations then
    { s with finished := true, events := s.events ++ [.setIterations s.numIterations] }
  else s

def turn (mode : Mode) (square : F → F) (outcome : Outcome F) (s : State F) : State F :=
  limit mode (checkpoint mode square (batch square checkpointInterval outcome s))

def start (f : F) : State F := ⟨f, 0, 0, false, false, []⟩

section Correct

variable (IsPower : ℕ → F → Prop)

/-- The fast algorithm delivers one form for each iteration; unless it reports corruption, they
are the right ones, and so is the form it leaves behind. -/
inductive Outcome.Valid (n : ℕ) : Outcome F → Prop where
  | stopped {delivered : List F} {f : F} (size : delivered.length ≤ checkpointInterval)
    (right : ∀ i (lt : i < delivered.length), IsPower (n + i + 1) delivered[i])
    (last : IsPower (n + delivered.length) f) : Valid n (.stopped delivered f)
  | corrupted {delivered : List F} (size : delivered.length ≤ checkpointInterval) :
    Valid n (.corrupted delivered)

/-- The states at the ends of the turns. `stopped` may end the loop after any of them. -/
inductive Reachable (mode : Mode) (square : F → F) (f : F) : State F → Prop where
  | start : Reachable mode square f (start f)
  | turn {s : State F} {outcome : Outcome F} : Reachable mode square f s → s.finished = false →
    outcome.Valid IsPower s.numIterations → Reachable mode square f (turn mode square outcome s)

end Correct

/-- A squaring routine that is right on valid inputs. -/
def Squares (IsPower : ℕ → F → Prop) (square : F → F) : Prop :=
  ∀ n f, IsPower n f → IsPower (n + 1) (square f)

/-- The form that the last call for `index` carried. -/
def lastDelivered (index : ℕ) (events : List (Event F)) : Option F :=
  events.foldl (fun last event =>
    match event with
    | .onIteration form iteration => if iteration = index then some form else last
    | _ => last) none

/-- The index that a call is made for. -/
def Event.index? : Event F → Option ℕ
  | .onIteration _ iteration => some iteration
  | _ => none

/-- The indices delivered so far. -/
def indices (events : List (Event F)) : Finset ℕ := (events.filterMap Event.index?).toFinset

/-- The value of `weso->iterations`. -/
def iterations (events : List (Event F)) : ℕ :=
  events.foldl (fun n event => match event with | .setIterations m => m | _ => n) 0

section Log

variable {IsPower : ℕ → F → Prop} {n : ℕ} {events more : List (Event F)} {forms : List F}

theorem lastDelivered_append (index : ℕ) (events more : List (Event F)) :
    lastDelivered index (events ++ more) =
      (lastDelivered index more).or (lastDelivered index events) := by
  unfold lastDelivered
  rw [List.foldl_append]
  generalize List.foldl _ none events = last
  induction more using List.reverseRecOn with
  | nil => cases last <;> rfl
  | append_singleton more event ih =>
    simp only [List.foldl_append, List.foldl_cons, List.foldl_nil, ih]
    cases event with
    | onIteration form iteration =>
      by_cases same : iteration = index <;> simp [same]
    | _ => rfl

theorem lastDelivered_deliver (index base : ℕ) (forms : List F) :
    lastDelivered index (deliver base forms) =
      if base ≤ index then forms[index - base]? else none := by
  induction forms generalizing base with
  | nil => simp [deliver, lastDelivered]
  | cons form forms ih =>
    rw [deliver, ← List.singleton_append, lastDelivered_append, ih]
    by_cases first : base = index
    · subst first
      simp [lastDelivered]
    · by_cases later : base ≤ index
      · have next : base + 1 ≤ index := by omega
        have shift : index - base = index - (base + 1) + 1 := by omega
        simp [lastDelivered, first, later, next, shift]
      · have next : ¬base + 1 ≤ index := by omega
        simp [lastDelivered, first, later, next]

theorem indices_append (events more : List (Event F)) :
    indices (events ++ more) = indices events ∪ indices more := by
  simp [indices]

@[simp] theorem mem_indices_deliver {i base : ℕ} {forms : List F} :
    i ∈ indices (deliver base forms) ↔ base ≤ i ∧ i < base + forms.length := by
  induction forms generalizing base with
  | nil => simp [indices, deliver]
  | cons form forms ih =>
    have one : indices [Event.onIteration form base] = {base} := rfl
    rw [deliver, ← List.singleton_append, indices_append, Finset.mem_union, ih, one,
      Finset.mem_singleton, List.length_cons]
    omega

theorem mem_indices_of_lastDelivered {index : ℕ} {form : F}
    (found : lastDelivered index events = some form) : index ∈ indices events := by
  induction events using List.reverseRecOn with
  | nil => simp [lastDelivered] at found
  | append_singleton events event ih =>
    rw [lastDelivered_append] at found
    rw [indices_append, Finset.mem_union]
    cases event with
    | onIteration form' iteration =>
      by_cases same : iteration = index
      · exact .inr (by simp [indices, Event.index?, same])
      · exact .inl (ih (by simpa [lastDelivered, same] using found))
    | _ => exact .inl (ih (by simpa [lastDelivered] using found))

/-- At every moment no index has been skipped, and `iterations` is not ahead of the calls. -/
structure Orderly (events : List (Event F)) : Prop where
  noSkip : ∀ before, before <+: events → ∀ i ∈ indices before, ∀ j < i, j ∈ indices before
  published : ∀ before, before <+: events → ∀ i < iterations before, i ∈ indices before

theorem Orderly.nil : Orderly ([] : List (Event F)) where
  noSkip before le := by simp [List.prefix_nil.mp le, indices]
  published before le := by simp [List.prefix_nil.mp le, iterations]

theorem Orderly.snoc (orderly : Orderly events) (event : Event F)
    (next : ∀ i, event.index? = some i → ∀ j < i, j ∈ indices events)
    (behind : ∀ m, event = .setIterations m → ∀ i < m, i ∈ indices events) :
    Orderly (events ++ [event]) := by
  constructor
  · intro before le i member j lt
    rcases List.prefix_concat_iff.mp le with rfl | le
    · rw [indices_append, Finset.mem_union] at member ⊢
      rcases member with old | new
      · exact .inl (orderly.noSkip events (List.prefix_refl _) i old j lt)
      · refine .inl (next i ?_ j lt)
        cases event <;> simp_all [indices, Event.index?]
    · exact orderly.noSkip before le i member j lt
  · intro before le i lt
    rcases List.prefix_concat_iff.mp le with rfl | le
    · rw [indices_append, Finset.mem_union]
      cases event with
      | setIterations m => exact .inl (behind m rfl i (by simpa [iterations] using lt))
      | _ => exact .inl (orderly.published events (List.prefix_refl _) i
          (by simpa [iterations] using lt))
    · exact orderly.published before le i lt

theorem Orderly.deliver (orderly : Orderly events) {base : ℕ} (forms : List F)
    (next : ∀ j < base, j ∈ indices events) : Orderly (events ++ deliver base forms) := by
  induction forms generalizing events base with
  | nil => simpa [RepeatedSquare.deliver] using orderly
  | cons form forms ih =>
    have one : Orderly (events ++ [.onIteration form base]) := by
      refine orderly.snoc _ (fun i same j lt => next j ?_) (by simp)
      exact lt.trans_eq (Option.some.inj same).symm
    rw [RepeatedSquare.deliver, ← List.singleton_append, ← List.append_assoc]
    refine ih one fun j lt => ?_
    rw [indices_append, Finset.mem_union]
    by_cases last : j = base
    · exact .inr (by simp [indices, Event.index?, last])
    · exact .inl (next j (by omega))

/-- What holds of the calls when `n` iterations are done. -/
structure Log (IsPower : ℕ → F → Prop) (n : ℕ) (events : List (Event F)) : Prop where
  covers : ∀ i < n, ∃ form, lastDelivered i events = some form ∧ IsPower (i + 1) form
  orderly : Orderly events

theorem Log.nil : Log IsPower 0 ([] : List (Event F)) := ⟨by simp, Orderly.nil⟩

theorem Log.mem_indices (log : Log IsPower n events) {i : ℕ} (lt : i < n) : i ∈ indices events := by
  obtain ⟨form, found, -⟩ := log.covers i lt
  exact mem_indices_of_lastDelivered found

/-- Calls for later iterations do no harm, whatever forms they carry. -/
theorem Log.junk (log : Log IsPower n events) (forms : List F) :
    Log IsPower n (events ++ deliver n forms) where
  covers i lt := by
    obtain ⟨form, found, right⟩ := log.covers i lt
    have later : ¬n ≤ i := by omega
    exact ⟨form, by simp [lastDelivered_append, lastDelivered_deliver, later, found], right⟩
  orderly := log.orderly.deliver forms fun _ => log.mem_indices

theorem Log.deliver (log : Log IsPower n events)
    (right : ∀ i (lt : i < forms.length), IsPower (n + i + 1) forms[i]) :
    Log IsPower (n + forms.length) (events ++ deliver n forms) where
  covers i lt := by
    by_cases old : i < n
    · exact (log.junk forms).covers i old
    · have bound : i - n < forms.length := by omega
      have index : n + (i - n) = i := by omega
      refine ⟨forms[i - n], ?_, index ▸ right (i - n) bound⟩
      rw [lastDelivered_append, lastDelivered_deliver, if_pos (by omega),
        List.getElem?_eq_getElem bound, Option.some_or]
  orderly := (log.junk forms).orderly

theorem Log.snoc (log : Log IsPower n events) (event : Event F) (noCall : event.index? = none)
    (behind : ∀ m, event = .setIterations m → m ≤ n) : Log IsPower n (events ++ [event]) where
  covers i lt := by
    obtain ⟨form, found, right⟩ := log.covers i lt
    refine ⟨form, ?_, right⟩
    cases event with
    | onIteration => simp [Event.index?] at noCall
    | _ => rw [lastDelivered_append, found]; rfl
  orderly := log.orderly.snoc event (by simp [noCall])
    fun m same i lt => log.mem_indices (lt.trans_le (behind m same))

theorem Log.repeatedSquareOriginal {square : F → F} (log : Log IsPower n events)
    (squares : Squares IsPower square) {f : F} (power : IsPower n f)
    (k : ℕ) : IsPower (n + k) (repeatedSquareOriginal square f n k).1 ∧
      Log IsPower (n + k) (events ++ (repeatedSquareOriginal square f n k).2) := by
  induction k with
  | zero => exact ⟨power, by simpa [RepeatedSquare.repeatedSquareOriginal] using log⟩
  | succ k ih =>
    obtain ⟨power, log⟩ := ih
    have next := squares _ _ power
    refine ⟨next, ?_⟩
    have one := @Log.deliver _ _ _ _ [square (RepeatedSquare.repeatedSquareOriginal square f n k).1] log
      (by simpa using next)
    rwa [List.append_assoc] at one

end Log

section Loop

variable {IsPower : ℕ → F → Prop} {mode : Mode} {square : F → F} {s : State F} {f : F}

/-- The invariant of the loop. -/
structure Aligned (IsPower : ℕ → F → Prop) (s : State F) : Prop where
  power : IsPower s.numIterations s.f
  log : Log IsPower s.numIterations s.events

/-- What a part of a turn has computed: a form, how many iterations it is ahead, and its calls. -/
structure Ahead (IsPower : ℕ → F → Prop) (s : State F) (part : F × ℕ × List (Event F)) : Prop where
  power : IsPower (s.numIterations + part.2.1) part.1
  log : Log IsPower (s.numIterations + part.2.1) (s.events ++ part.2.2)

theorem Aligned.fastBatch (aligned : Aligned IsPower s) (squares : Squares IsPower square)
    (batchSize : ℕ) {outcome : Outcome F} (valid : outcome.Valid IsPower s.numIterations) :
    Ahead IsPower s (fastBatch square batchSize s.f s.numIterations outcome) := by
  cases valid with
  | stopped size right last => exact ⟨last, aligned.log.deliver right⟩
  | @corrupted delivered size =>
    obtain ⟨power, log⟩ := (aligned.log.junk delivered).repeatedSquareOriginal squares
      aligned.power batchSize
    exact ⟨power, by rwa [List.append_assoc] at log⟩

theorem Ahead.slowStep {part : F × ℕ × List (Event F)} (ahead : Ahead IsPower s part)
    (squares : Squares IsPower square) (batchSize : ℕ) :
    Ahead IsPower s (slowStep square batchSize s.numIterations part) := by
  obtain ⟨g, actualIterations, events⟩ := part
  by_cases short : actualIterations < batchSize
  · obtain ⟨power, log⟩ := ahead.log.repeatedSquareOriginal squares ahead.power 1
    simp only [RepeatedSquare.slowStep, short, if_true]
    exact ⟨power, by rwa [List.append_assoc] at log⟩
  · simpa only [RepeatedSquare.slowStep, short, if_false] using ahead

theorem Aligned.batch (aligned : Aligned IsPower s) (squares : Squares IsPower square)
    (batchSize : ℕ) {outcome : Outcome F} (valid : outcome.Valid IsPower s.numIterations) :
    Aligned IsPower (batch square batchSize outcome s) := by
  have ahead := (aligned.fastBatch squares batchSize valid).slowStep squares batchSize
  exact ⟨ahead.power, ahead.log⟩

/-- A step that leaves the form and the count alone and records an event. -/
theorem Aligned.note {t : State F} (aligned : Aligned IsPower s) {event : Event F}
    (same : t.f = s.f ∧ t.numIterations = s.numIterations ∧ t.events = s.events ++ [event])
    (noCall : event.index? = none)
    (behind : ∀ m, event = .setIterations m → m ≤ s.numIterations) : Aligned IsPower t := by
  obtain ⟨sameF, sameN, sameE⟩ := same
  exact ⟨by rw [sameF, sameN]; exact aligned.power,
    by rw [sameN, sameE]; exact aligned.log.snoc event noCall behind⟩

theorem Aligned.notify (aligned : Aligned IsPower s) (mode : Mode) :
    Aligned IsPower (notify mode s) := by
  unfold RepeatedSquare.notify
  split_ifs with fast storage multiple
  · exact aligned.note ⟨rfl, rfl, rfl⟩ rfl (by simp)
  · exact aligned.note ⟨rfl, rfl, rfl⟩ rfl (by simp)
  · exact aligned
  · exact aligned

theorem Aligned.switch (aligned : Aligned IsPower s) (mode : Mode)
    (squares : Squares IsPower square) : Aligned IsPower (switch mode square s) := by
  unfold RepeatedSquare.switch
  split_ifs with due
  · obtain ⟨power, log⟩ := aligned.log.repeatedSquareOriginal squares aligned.power
      ((100 - s.numIterations % 100) % 100)
    refine ⟨power, ?_⟩
    have increased := log.snoc
      (.increaseConstants (s.numIterations + (100 - s.numIterations % 100) % 100)) rfl (by simp)
    have published := increased.snoc
      (.setIterations (s.numIterations + (100 - s.numIterations % 100) % 100)) rfl (by simp)
    simpa only [List.append_assoc, List.singleton_append] using published
  · exact aligned

theorem Aligned.advance (aligned : Aligned IsPower s) (mode : Mode) :
    Aligned IsPower (advance mode s) := by
  unfold RepeatedSquare.advance
  split_ifs
  · exact ⟨aligned.power, aligned.log⟩
  · exact ⟨aligned.power, aligned.log⟩

theorem Aligned.checkpoint (aligned : Aligned IsPower s) (mode : Mode)
    (squares : Squares IsPower square) : Aligned IsPower (checkpoint mode square s) := by
  unfold RepeatedSquare.checkpoint
  split_ifs with passed
  · have published : Aligned IsPower (publish s) := aligned.note ⟨rfl, rfl, rfl⟩ rfl (by simp)
    exact ((published.notify mode).switch mode squares).advance mode
  · exact aligned

theorem Aligned.limit (aligned : Aligned IsPower s) (mode : Mode) :
    Aligned IsPower (limit mode s) := by
  unfold RepeatedSquare.limit
  split_ifs with exceeded
  · exact aligned.note ⟨rfl, rfl, rfl⟩ rfl (by simp)
  · exact aligned

/-- One turn keeps form, count and calls aligned, whatever the fast algorithm did. -/
theorem Aligned.turn (aligned : Aligned IsPower s) (mode : Mode) (squares : Squares IsPower square)
    {outcome : Outcome F} (valid : outcome.Valid IsPower s.numIterations) :
    Aligned IsPower (turn mode square outcome s) :=
  ((aligned.batch squares checkpointInterval valid).checkpoint mode squares).limit mode

theorem Reachable.aligned (reachable : Reachable IsPower mode square f s)
    (squares : Squares IsPower square) (zero : IsPower 0 f) : Aligned IsPower s := by
  induction reachable with
  | start => exact ⟨zero, Log.nil⟩
  | turn _ _ valid ih => exact ih.turn mode squares valid

end Loop

section Progress

variable {IsPower : ℕ → F → Prop} {mode : Mode} {square : F → F} {s : State F} {f : F}

/-- Nothing but calls of `OnIteration` for indices below `bound`. -/
def OnlyCalls (bound : ℕ) (events : List (Event F)) : Prop :=
  ∀ event ∈ events, ∃ form i, event = .onIteration form i ∧ i < bound

theorem OnlyCalls.append {bound : ℕ} {events more : List (Event F)} (calls : OnlyCalls bound events)
    (calls' : OnlyCalls bound more) : OnlyCalls bound (events ++ more) := by
  intro event member
  rcases List.mem_append.mp member with old | new
  · exact calls event old
  · exact calls' event new

theorem onlyCalls_deliver {base bound : ℕ} (forms : List F) (le : base + forms.length ≤ bound) :
    OnlyCalls bound (deliver base forms) := by
  induction forms generalizing base with
  | nil => simp [OnlyCalls, deliver]
  | cons form forms ih =>
    rw [List.length_cons] at le
    intro event member
    rcases List.mem_cons.mp member with rfl | later
    · exact ⟨form, base, rfl, by omega⟩
    · have after : base + 1 + forms.length ≤ bound := by omega
      exact ih after event later

theorem onlyCalls_original {base bound : ℕ} (f : F) (k : ℕ) (le : base + k ≤ bound) :
    OnlyCalls bound (repeatedSquareOriginal square f base k).2 := by
  induction k with
  | zero => simp [OnlyCalls, repeatedSquareOriginal]
  | succ k ih =>
    refine (ih (by omega)).append ?_
    intro event member
    obtain rfl := List.mem_singleton.mp member
    exact ⟨_, base + k, rfl, by omega⟩

theorem batch_progress {batchSize : ℕ} (positive : 1 ≤ batchSize) {outcome : Outcome F}
    (size : ∀ delivered f, outcome = .stopped delivered f ∨ outcome = .corrupted delivered →
      delivered.length ≤ batchSize) :
    ∃ m more, 1 ≤ m ∧ m ≤ batchSize ∧ OnlyCalls (s.numIterations + batchSize) more ∧
      batch square batchSize outcome s = { s with
        f := (batch square batchSize outcome s).f
        numIterations := s.numIterations + m
        events := s.events ++ more } := by
  cases outcome with
  | stopped delivered g =>
    have le := size delivered g (.inl rfl)
    by_cases short : delivered.length < batchSize
    · refine ⟨delivered.length + 1, _, by omega, by omega, ?_, by
        simp only [batch, fastBatch, slowStep, short, if_true]; rfl⟩
      exact (onlyCalls_deliver delivered (by omega)).append (onlyCalls_original _ 1 (by omega))
    · refine ⟨delivered.length, _, by omega, le, ?_, by
        simp only [batch, fastBatch, slowStep, short, if_false]; rfl⟩
      exact onlyCalls_deliver delivered (by omega)
  | corrupted delivered =>
    have le := size delivered s.f (.inr rfl)
    refine ⟨batchSize, _, positive, le_rfl, ?_, by
      simp only [batch, fastBatch, slowStep, lt_irrefl, if_false]; rfl⟩
    exact (onlyCalls_deliver delivered (by omega)).append (onlyCalls_original _ batchSize le_rfl)

theorem Outcome.Valid.size {n : ℕ} {outcome : Outcome F} (valid : outcome.Valid IsPower n) :
    ∀ delivered f, outcome = .stopped delivered f ∨ outcome = .corrupted delivered →
      delivered.length ≤ checkpointInterval := by
  rintro delivered f (rfl | rfl)
  · cases valid; assumption
  · cases valid; assumption

end Progress

section Alignment

variable {d : Discriminant}

/-- The form after `n` squarings of a form in the class of `x`. -/
def IsPower (x : ReducedForm d) (n : ℕ) (f : Form) : Prop := Represents f (x ^ 2 ^ n)

/-- The loop survives every outcome of the fast algorithm: the form keeps in step with the count,
each index carried the right form in the end, none was skipped, and `iterations` was never ahead. -/
theorem repeatedSquare_aligned {mode : Mode} {square : Form → Form} {x : ReducedForm d} {f : Form}
    {s : State Form} (squares : Squares (IsPower x) square) (represents : Represents f x)
    (reachable : Reachable (IsPower x) mode square f s) :
    Represents s.f (x ^ 2 ^ s.numIterations) ∧
    (∀ n, 1 ≤ n → n ≤ s.numIterations →
      ∃ form, lastDelivered (n - 1) s.events = some form ∧ Represents form (x ^ 2 ^ n)) ∧
    (∀ before, before <+: s.events → ∀ i ∈ indices before, ∀ j < i, j ∈ indices before) ∧
    ∀ before, before <+: s.events → iterations before ≤ (indices before).card := by
  have zero : IsPower x 0 f := by simpa [IsPower] using represents
  have aligned := reachable.aligned squares zero
  refine ⟨aligned.power, ?_, aligned.log.orderly.noSkip, ?_⟩
  · intro n positive le
    obtain ⟨form, found, power⟩ := aligned.log.covers (n - 1) (by omega)
    rw [Nat.sub_add_cancel positive] at power
    exact ⟨form, found, power⟩
  · intro before le
    have known : Finset.range (iterations before) ⊆ indices before := by
      intro i member
      exact aligned.log.orderly.published before le i (Finset.mem_range.mp member)
    simpa using Finset.card_le_card known

/-- Squaring by `multiply`. -/
def multiplySquare (f : Form) : Form :=
  match Form.multiply f f with
  | .done g => g
  | _ => f

theorem multiplySquare_squares (x : ReducedForm d) : Squares (IsPower x) multiplySquare := by
  intro n f power
  have double : x ^ 2 ^ n * x ^ 2 ^ n = x ^ 2 ^ (n + 1) := by rw [← pow_add, ← two_mul, pow_succ']
  unfold multiplySquare IsPower
  rw [Represents.multiply power power, double]
  exact ReducedForm.represents _

/-- A first batch that stops at once, and the slow iteration after it. -/
theorem repeatedSquare_aligned_23 : ∃ x : ReducedForm ⟨23, by norm_num, rfl⟩,
    x.form = ⟨2, 1, 3⟩ ∧ ∃ form, lastDelivered 0
      (turn ⟨true, false, false, 0⟩ multiplySquare (.stopped [] ⟨2, 1, 3⟩) (start ⟨2, 1, 3⟩)).events =
        some form ∧ Represents form (x ^ 2 ^ 1) := by
  let x : ReducedForm ⟨23, by norm_num, rfl⟩ := ⟨⟨2, 1, 3⟩, by decide, by decide⟩
  have rep : Represents (⟨2, 1, 3⟩ : Form) x := ReducedForm.represents x
  have first : IsPower x 0 (⟨2, 1, 3⟩ : Form) := by simpa [IsPower] using rep
  have reachable : Reachable (IsPower x) ⟨true, false, false, 0⟩ multiplySquare ⟨2, 1, 3⟩
      (turn ⟨true, false, false, 0⟩ multiplySquare (.stopped [] ⟨2, 1, 3⟩) (start ⟨2, 1, 3⟩)) :=
    .turn .start rfl (.stopped (by simp) (by simp) first)
  obtain ⟨-, right, -⟩ := repeatedSquare_aligned (multiplySquare_squares x) rep reachable
  exact ⟨x, rfl, right 1 le_rfl le_rfl⟩

end Alignment

end ChiaVdf.RepeatedSquare
