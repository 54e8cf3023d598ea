import ChiaVdf.SegmentIntermediates

/-! The indices of an n-weso session: into the checkpoints, into the flags of `FastStorage` and
into the intermediates, as long as the checkpoints last. The runs with `FastStorage` in which all chunks
are stored reach the last flag; what it has announced is never missing. -/
namespace ChiaVdf

open RepeatedSquare (Event Feed Covered iterations indices lastDelivered submissions)

section Buckets

variable {bucket segments e : ℕ}

theorem kl_fifteen : FastAlgorithmCallback.kl 15 (segmentSize 15) = 2 ^ 64 - 2 ^ 30 := by decide +kernel

/-- The stride of bucket 15 is wrong, but its slots are inside the table. -/
theorem formAt_fifteen (inside : 15 < segments) (e : ℕ) :
    ∃ pos, FastAlgorithmCallback.formAt e 15 segments = .done pos := by
  have capacity := (bucketsBegin_eq segments (by omega)).symm
  have room : FastAlgorithmCallback.bucketsBegin 16 ≤ FastAlgorithmCallback.formsCapacity segments :=
    capacity ▸ bucketsBegin_mono inside
  have last : FastAlgorithmCallback.bucketsBegin 15 + 20 * 21846 =
      FastAlgorithmCallback.bucketsBegin 16 := by decide
  have small : FastAlgorithmCallback.bucketsBegin 16 < 2 ^ 31 := by decide
  have window : e / segmentSize 15 % kWindowSize ≤ 19 :=
    Nat.le_of_lt_succ (Nat.mod_lt _ (by decide))
  have offset : e % segmentSize 15 / (2 ^ 64 - 2 ^ 30) = 0 := by
    apply Nat.div_eq_of_lt
    exact (Nat.mod_lt _ segmentSize_pos).trans (by decide +kernel)
  have size : FastAlgorithmCallback.bucketSize 15 = 21846 := rfl
  have positive : ¬(2 ^ 64 - 2 ^ 30 : ℕ) = 0 := by norm_num
  refine ⟨FastAlgorithmCallback.bucketsBegin 15 + e / segmentSize 15 % kWindowSize * 21846, ?_⟩
  rw [FastAlgorithmCallback.formAt, FastAlgorithmCallback.getPosition, power2_eq le_rfl, Exec.done_bind,
    kl_fifteen, if_neg positive, offset, size, Nat.add_zero, if_neg (by omega), Exec.done_bind,
    if_pos (by omega)]

theorem formAt_done (small : bucket ≤ 15) (inside : bucket < segments) (e : ℕ) :
    ∃ pos, FastAlgorithmCallback.formAt e bucket segments = .done pos := by
  by_cases last : bucket = 15
  · subst last
    exact formAt_fifteen inside e
  · exact ⟨_, formAt_eq (by omega) inside e⟩

theorem wants_done (small : bucket ≤ 15) (e : ℕ) :
    ∃ wanted, FastAlgorithmCallback.wants e bucket = .done wanted := by
  by_cases last : bucket = 15
  · subst last
    have positive : ¬(2 ^ 64 - 2 ^ 30 : ℕ) = 0 := by norm_num
    exact ⟨_, by rw [FastAlgorithmCallback.wants, power2_eq le_rfl, Exec.done_bind, kl_fifteen,
      if_neg positive]⟩
  · exact ⟨_, wants_eq (by omega) e⟩

variable {F : Type} {c : FastAlgorithmCallback F} {setForm : F → F} {form : F} {iteration : ℕ}

theorem visit_done (setForm : F → F) (form : F) (iteration : ℕ) (small : bucket ≤ 15)
    (inside : bucket < c.segments) : ∃ c', c.visit setForm form iteration bucket = .done c' := by
  obtain ⟨wanted, test⟩ := wants_done small iteration
  obtain ⟨pos, place⟩ := formAt_done small inside iteration
  rw [FastAlgorithmCallback.visit, test, Exec.done_bind]
  cases wanted with
  | false => exact ⟨_, rfl⟩
  | true => exact ⟨_, by rw [if_pos rfl, place]; rfl⟩

variable (setForm form) in
theorem onIteration_done (few : c.segments ≤ 16) (room : iteration + 1 < 2 ^ 34) :
    ∃ c', c.onIteration setForm form iteration = .done c' := by
  have body : ∀ i < c.segments, ∀ c' : FastAlgorithmCallback F, c'.segments = c.segments →
      ∃ c'', c'.visit setForm form (iteration + 1) i = .done c'' ∧ c''.segments = c.segments := by
    intro i lt c' same
    obtain ⟨c'', visit⟩ := visit_done setForm form (iteration + 1) (c := c') (show i ≤ 15 by omega) (same ▸ lt)
    refine ⟨c'', visit, ?_⟩
    rcases FastAlgorithmCallback.visit_cases visit with ⟨-, rfl⟩ | ⟨-, pos, -, rfl⟩ <;> exact same
  have keep : ∃ c₁, c.keepForms setForm form (iteration + 1) = .done c₁ := by
    by_cases multi : c.multiProcMachine = true
    · exact ⟨_, if_pos multi⟩
    · rw [FastAlgorithmCallback.keepForms, if_neg multi]
      obtain ⟨c₁, run, -⟩ := Exec.forLoop_done
        (fun _ (c' : FastAlgorithmCallback F) => c'.segments = c.segments) rfl body
      exact ⟨c₁, run⟩
  obtain ⟨c₁, keep⟩ := keep
  have inside : (iteration + 1) / 2 ^ 16 < FastAlgorithmCallback.checkpointsCapacity := by
    unfold FastAlgorithmCallback.checkpointsCapacity
    omega
  simp only [FastAlgorithmCallback.onIteration, keep, Exec.done_bind]
  split_ifs
  · exact ⟨_, if_pos inside⟩
  · exact ⟨_, rfl⟩

end Buckets

/-- The chunk a thread of `FastStorage` is working on. -/
def Worker.chunk {F : Type} : Worker F → List ℕ
  | .idle => []
  | .busy _ iterBegin _ _ => [iterBegin]

namespace NWeso

variable {F : Type} {IsPower : ℕ → F → Prop} {r : Routines F} {segments limit N : ℕ} {f : F} {multi : Bool}
  {sent : List (Event F)} {s t : NWeso F}

section Announced

/-- Only submitted chunks are worked on and announced. -/
structure Announced (sent : List (Event F)) (s : NWeso F) : Prop where
  pending : ∀ entry ∈ s.storage.pendingIntermediates, entry.1 ∈ submissions sent
  workers : ∀ w, ∀ n ∈ (s.workers w).chunk, n ∈ submissions sent
  flags : ∀ i, s.storage.intermediatesStored i = true → ∃ n ∈ submissions sent, i = flagOf n
  finished : s.storage.intermediatesIter = 0 ∨
    ∃ n ∈ submissions sent, s.storage.intermediatesIter = n + 2 ^ 15

theorem Announced.event (announced : Announced sent s) {event : Event F} (run : s.handle r event = .done t) :
    Announced (sent ++ [event]) t := by
  have more : submissions sent ⊆ submissions (sent ++ [event]) := by
    rw [RepeatedSquare.submissions_append]
    exact List.subset_append_left _ _
  have same (pending : t.storage.pendingIntermediates ⊆ s.storage.pendingIntermediates)
      (workers : t.workers = s.workers) (flags : t.storage.intermediatesStored = s.storage.intermediatesStored)
      (iter : t.storage.intermediatesIter = s.storage.intermediatesIter) : Announced (sent ++ [event]) t := by
    constructor
    case pending => exact fun entry member => more (announced.pending entry (pending member))
    case workers => exact fun w n member => more (announced.workers w n (workers ▸ member))
    case flags =>
      intro i set
      obtain ⟨n, member, index⟩ := announced.flags i (flags ▸ set)
      exact ⟨n, more member, index⟩
    case finished =>
      rw [iter]
      rcases announced.finished with zero | ⟨n, member, index⟩
      · exact .inl zero
      · exact .inr ⟨n, more member, index⟩
  cases event with
  | onIteration form i =>
    obtain ⟨weso, -, last⟩ := Exec.bind_eq_done.mp run
    obtain rfl := Exec.done.inj last
    exact same (List.Subset.refl _) rfl rfl rfl
  | submitCheckpoint n =>
    obtain rfl := Exec.done.inj run
    have others := fun entry member => more (announced.pending entry member)
    constructor
    case pending =>
      intro entry member
      rcases mem_insert member with rfl | old
      · rw [RepeatedSquare.submissions_append]
        exact List.mem_append_right _ (List.mem_singleton.mpr rfl)
      · exact others entry old
    case workers => exact fun w n member => more (announced.workers w n member)
    case flags =>
      intro i set
      obtain ⟨n, member, index⟩ := announced.flags i set
      exact ⟨n, more member, index⟩
    case finished =>
      rcases announced.finished with zero | ⟨n, member, index⟩
      · exact .inl zero
      · exact .inr ⟨n, more member, index⟩
  | _ =>
    obtain rfl := Exec.done.inj run
    exact same (List.Subset.refl _) rfl rfl rfl

theorem Announced.work (announced : Announced sent s) (sound : Sound IsPower r sent s)
    {w : Fin FastStorage.intermediatesThreads} (run : s.work r w = .done t) : Announced sent t := by
  have replace {workers : Fin FastStorage.intermediatesThreads → Worker F} {worker : Worker F}
      (equal : workers = Function.update s.workers w worker)
      (chunk : ∀ n ∈ worker.chunk, n ∈ submissions sent) (w') : ∀ n ∈ (workers w').chunk, n ∈ submissions sent := by
    subst equal
    by_cases this : w' = w
    · subst this
      rwa [Function.update_self]
    · rw [Function.update_of_ne this]
      exact announced.workers w'
  have worker := sound.workers w
  have own := announced.workers w
  cases work_cases run with
  | wait => exact announced
  | take state pending =>
    have here := announced.pending _ (by rw [pending]; exact List.mem_cons_self)
    exact { announced with
      pending := fun entry' member =>
        announced.pending entry' (by rw [pending]; exact List.mem_cons_of_mem _ member)
      workers := replace rfl fun n member => by
        obtain rfl := List.mem_singleton.mp member
        exact here }
  | store state =>
    rw [state] at own
    exact { announced with workers := replace rfl own }
  | square state =>
    rw [state] at own
    exact { announced with workers := replace rfl own }
  | @announce y iterBegin iteration bucket storage state more announce =>
    rw [state] at worker own
    cases worker with
    | busy _ small =>
      obtain rfl := addIntermediates_eq small announce
      exact { announced with
        workers := replace rfl fun n member => nomatch member
        flags := by
          intro i set
          by_cases this : i = flagOf iterBegin
          · exact ⟨iterBegin, own iterBegin (List.mem_singleton.mpr rfl), this⟩
          · simp only [NWeso.setWorker, Function.update_of_ne this] at set
            exact announced.flags i set }

theorem Announced.getFinishedSegment (announced : Announced sent s) (sound : Sound IsPower r sent s)
    (feed : Feed IsPower sent) (run : s.getFinishedSegment = .done t) : Announced sent t := by
  rcases getFinishedSegment_cases run with ⟨-, rfl, -, second⟩ | ⟨-, rfl⟩ | ⟨single, -⟩
  · obtain ⟨n, member, index⟩ := announced.flags _ second
    have multiple := sound.finished.1
    have whole : 2 ^ 15 ∣ n := by
      rw [submissions_eq feed] at member
      obtain ⟨i, -, rfl⟩ := List.mem_map.mp member
      exact Nat.dvd_mul_right _ _
    have place : n = s.storage.intermediatesIter + 2 ^ 15 := by
      unfold flagOf at index
      split_ifs at index <;> omega
    exact { announced with
      finished := .inr ⟨n, member, by simp only; omega⟩ }
  · exact { announced with }
  · cases sound.multi.symm.trans single

theorem Reachable.announced (reachable : Reachable IsPower r (mode true limit) segments f sent s)
    (right : r.Right IsPower) (zero : IsPower 0 f) : Announced sent s := by
  induction reachable with
  | start => exact ⟨by simp [NWeso.start, FastStorage.start], by simp [NWeso.start, Worker.chunk],
      by simp [NWeso.start, FastStorage.start], .inl rfl⟩
  | event _ _ _ run ih => exact ih.event run
  | @other sent s t next before noEvent run ih =>
    have sound := before.sound right zero
    cases next with
    | event event => exact absurd rfl (noEvent event)
    | work w =>
      rw [NWeso.step, if_pos sound.multi] at run
      exact ih.work sound run
    | observe =>
      obtain rfl := Exec.done.inj run
      exact { ih with }
    | getFinishedSegment => exact ih.getFinishedSegment sound (before.feed right.square zero) run
    | appendSegment bucket =>
      rcases appendSegment_cases run with rfl | ⟨-, -, -, rfl⟩
      · exact ih
      · exact { ih with }
    | prove iteration =>
      obtain rfl := prove_eq run
      exact ih

end Announced

section Bounds

/-- The call that a step of the squaring thread makes. -/
def Step.events : Step F → List (Event F)
  | .event call => [call]
  | _ => []

/-- The calls are made by a run of at most `N` iterations. -/
def Within (IsPower : ℕ → F → Prop) (r : Routines F) (mode : RepeatedSquare.Mode) (f : F) (N : ℕ)
    (calls : List (Event F)) : Prop :=
  ∃ loop, RepeatedSquare.Reachable IsPower mode r.square f loop ∧ loop.numIterations ≤ N ∧
    calls <+: loop.events

/-- In a session of at most `N` iterations no step computes an index outside its array. -/
def InBounds (IsPower : ℕ → F → Prop) (r : Routines F) (mode : RepeatedSquare.Mode) (segments : ℕ) (f : F)
    (N : ℕ) : Prop :=
  ∀ sent s next, Reachable IsPower r mode segments f sent s →
    Within IsPower r mode f N (sent ++ next.events) → ∃ t, s.step r next = .done t

theorem Within.bounds {calls : List (Event F)} (within : Within IsPower r (mode multi limit) f N calls)
    (square : RepeatedSquare.Squares IsPower r.square) (zero : IsPower 0 f) :
    (∀ j ∈ indices calls, j < N) ∧ (∀ n ∈ submissions calls, 2 ^ 15 ∣ n ∧ n ≤ N) ∧ iterations calls ≤ N := by
  obtain ⟨loop, inner, le, rest, whole⟩ := within
  have boundary := inner.boundary rfl square zero
  have feed : Feed IsPower (calls ++ rest) := whole ▸ boundary.feed
  have below : ∀ j ∈ indices calls, j < N := by
    intro j member
    refine (boundary.below j ?_).trans_le le
    rw [← whole, RepeatedSquare.indices_append, Finset.mem_union]
    exact .inl member
  have reached {n : ℕ} (covered : Covered IsPower n calls) : n ≤ N := by
    cases n with
    | zero => exact Nat.zero_le _
    | succ n =>
      obtain ⟨form, found, -⟩ := covered n (Nat.lt_succ_self n)
      exact below n (RepeatedSquare.mem_indices_of_lastDelivered found)
  refine ⟨below, fun n member => ?_, reached (covered_iterations feed.of_append)⟩
  clear reached
  have early := feed.of_append
  clear feed whole
  induction early with
  | nil => cases member
  | @snoc sent event _ allowed ih =>
    have below' : ∀ j ∈ indices sent, j < N := by
      intro j member
      refine below j ?_
      rw [RepeatedSquare.indices_append, Finset.mem_union]
      exact .inl member
    rw [RepeatedSquare.submissions_append] at member
    rcases List.mem_append.mp member with old | new
    · exact ih below' old
    · cases allowed with
      | submitCheckpoint next covered =>
        obtain rfl := List.mem_singleton.mp new
        refine ⟨⟨_, next⟩, ?_⟩
        cases n with
        | zero => exact Nat.zero_le _
        | succ n =>
          obtain ⟨form, found, -⟩ := covered n (Nat.lt_succ_self n)
          exact below' n (RepeatedSquare.mem_indices_of_lastDelivered found)
      | _ => cases new

theorem addIntermediates_done {u : FastStorage F} {iter : ℕ} (small : iter < 2 ^ 34) :
    ∃ v, u.addIntermediates iter = .done v := by
  have room : flagOf iter < FastStorage.capacity := by
    unfold flagOf FastStorage.capacity
    split_ifs <;> omega
  unfold FastStorage.addIntermediates
  rw [bucket_eq small]
  dsimp only
  rw [cast_flagOf, if_pos ⟨Int.natCast_nonneg _, by exact_mod_cast room⟩]
  exact ⟨_, rfl⟩

theorem getCheckpoint_done {c : FastAlgorithmCallback F} {n : ℕ} (small : n < 2 ^ 34) :
    ∃ y, c.getCheckpoint (n / 2 ^ 16) = .done y := by
  have room : n / 2 ^ 16 < FastAlgorithmCallback.checkpointsCapacity := by
    unfold FastAlgorithmCallback.checkpointsCapacity
    omega
  exact ⟨_, if_pos room⟩

theorem work_done (sound : Sound IsPower r sent s) (few : s.weso.segments ≤ 16)
    (w : Fin FastStorage.intermediatesThreads) : ∃ t, s.work r w = .done t := by
  have worker := sound.workers w
  unfold NWeso.work
  cases state : s.workers w with
  | idle =>
    cases s.storage.pendingIntermediates with
    | nil => exact ⟨_, rfl⟩
    | cons => exact ⟨_, rfl⟩
  | busy y iterBegin iteration bucket =>
    rw [state] at worker
    cases worker with
    | busy _ small =>
      dsimp only
      split_ifs with more inner
      · obtain ⟨weso, visit⟩ := visit_done id y iteration (show bucket ≤ 15 by omega) inner
        exact ⟨_, by rw [visit]; rfl⟩
      · exact ⟨_, rfl⟩
      · obtain ⟨storage, announce⟩ := addIntermediates_done (u := s.storage) small
        exact ⟨_, by rw [announce]; rfl⟩

theorem getFinishedSegment_done (room : s.weso.multiProcMachine = true →
    s.storage.intermediatesIter < 2 ^ 34) : ∃ t, s.getFinishedSegment = .done t := by
  unfold NWeso.getFinishedSegment
  by_cases machine : s.weso.multiProcMachine = true
  · have small := room machine
    have first : 2 * (s.storage.intermediatesIter / 2 ^ 16) < FastStorage.capacity := by
      unfold FastStorage.capacity
      omega
    have second : 2 * (s.storage.intermediatesIter / 2 ^ 16) + 1 < FastStorage.capacity := by
      unfold FastStorage.capacity
      omega
    rw [if_pos machine]
    simp only [FastStorage.getFlag, if_pos first, if_pos second, Exec.done_bind]
    split_ifs <;> exact ⟨_, rfl⟩
  · rw [if_neg machine]
    exact ⟨_, rfl⟩

theorem appendSegment_done (few : s.weso.segments ≤ 16) (small : s.intermediatesIter < 2 ^ 34) (bucket : ℕ) :
    ∃ t, s.appendSegment bucket = .done t := by
  unfold NWeso.appendSegment
  by_cases inside : bucket < s.weso.segments
  · rw [if_pos inside, power2_eq (by omega), Exec.done_bind]
    split_ifs with arrived
    · obtain ⟨x, readX⟩ := getCheckpoint_done (c := s.weso) (n := s.lastAppended bucket) (by omega)
      obtain ⟨y, readY⟩ := getCheckpoint_done (c := s.weso)
        (n := s.lastAppended bucket + segmentSize bucket) (by omega)
      exact ⟨_, by rw [readX, Exec.done_bind, readY]; rfl⟩
    · exact ⟨_, rfl⟩
  · rw [if_neg inside]
    exact ⟨_, rfl⟩

/-- While the checkpoints last, all indices are inside their arrays; with `FastStorage` the last
chunk is one too many. -/
theorem indices_inBounds (few : segments ≤ 16) (bound : N < 2 ^ 34 - if multi then 2 ^ 15 else 0)
    (right : r.Right IsPower) (zero : IsPower 0 f) :
    InBounds IsPower r (mode multi limit) segments f N := by
  intro sent s next reachable within
  obtain ⟨below, submitted, published⟩ := within.bounds right.square zero
  obtain ⟨sameS, sameM⟩ := reachable.frame
  have handed := reachable.handed right.square zero
  have small : N < 2 ^ 34 := bound.trans_le (Nat.sub_le _ _)
  have observed (quiet : next.events = []) : s.vdfIteration < 2 ^ 34 := by
    rw [quiet, List.append_nil] at published
    have := handed.observed
    rw [handed.published] at this
    omega
  have finished (quiet : next.events = []) (machine : multi = true) :
      s.storage.intermediatesIter < 2 ^ 34 := by
    subst machine
    have multiple := (reachable.sound right zero).finished.1
    rcases (reachable.announced right zero).finished with start | ⟨n, member, index⟩
    · omega
    · rw [quiet, List.append_nil] at submitted
      obtain ⟨whole, le⟩ := submitted n member
      simp only [if_true] at bound
      omega
  have returned (quiet : next.events = []) : s.intermediatesIter < 2 ^ 34 := by
    have le := handed.returned
    unfold settled at le
    rw [sameM] at le
    cases machine : multi with
    | true =>
      rw [machine, if_pos rfl] at le
      exact le.trans_lt (finished quiet machine)
    | false =>
      rw [machine, if_neg (by simp)] at le
      rw [quiet, List.append_nil] at published
      rw [handed.published] at le
      omega
  cases next with
  | event event =>
    cases event with
    | onIteration form i =>
      have reached : i < N := below i (RepeatedSquare.mem_indices_append_onIteration.mpr (.inr rfl))
      obtain ⟨weso, call⟩ := onIteration_done r.setForm form (sameS ▸ few)
        (show i + 1 < 2 ^ 34 by omega)
      exact ⟨_, by rw [NWeso.step, NWeso.handle, call]; rfl⟩
    | _ => exact ⟨_, rfl⟩
  | work w =>
    by_cases machine : s.weso.multiProcMachine = true
    · have equal : multi = true := sameM ▸ machine
      subst equal
      obtain ⟨t, run⟩ := work_done (reachable.sound right zero) (sameS ▸ few) w
      exact ⟨t, by rw [NWeso.step, if_pos machine, run]⟩
    · exact ⟨s, by rw [NWeso.step, if_neg machine]; rfl⟩
  | observe => exact ⟨_, rfl⟩
  | getFinishedSegment =>
    exact getFinishedSegment_done fun machine => finished rfl (sameM ▸ machine)
  | appendSegment bucket => exact appendSegment_done (sameS ▸ few) (returned rfl) bucket
  | prove iteration =>
    have seen := observed rfl
    by_cases reached : s.vdfIteration ≥ iteration - iteration % 2 ^ 16
    · obtain ⟨y, read⟩ := getCheckpoint_done (c := s.weso) (n := iteration) (by omega)
      exact ⟨s, by rw [NWeso.step, NWeso.prove, if_pos reached, read]; rfl⟩
    · exact ⟨s, by rw [NWeso.step, NWeso.prove, if_neg reached]; rfl⟩

end Bounds

section Overrun

theorem limit_none (s : RepeatedSquare.State F) : RepeatedSquare.limit (mode multi 0) s = s := by
  simp [RepeatedSquare.limit, mode]

variable (multi) in
theorem turn_stopped (square : F → F) (loop : RepeatedSquare.State F) :
    (RepeatedSquare.turn (mode multi 0) square (.stopped [] loop.f) loop).numIterations =
        loop.numIterations + 1 ∧
      (RepeatedSquare.turn (mode multi 0) square (.stopped [] loop.f) loop).finished = loop.finished := by
  have notified (s : RepeatedSquare.State F) : (RepeatedSquare.notify (mode multi 0) s).numIterations =
      s.numIterations ∧ (RepeatedSquare.notify (mode multi 0) s).finished = s.finished := by
    unfold RepeatedSquare.notify
    split_ifs <;> exact ⟨rfl, rfl⟩
  have one : RepeatedSquare.batch square RepeatedSquare.checkpointInterval (.stopped [] loop.f) loop =
      { loop with
        f := square loop.f
        numIterations := loop.numIterations + 1
        events := loop.events ++ [.onIteration (square loop.f) loop.numIterations] } := by
    simp [RepeatedSquare.batch, RepeatedSquare.fastBatch, RepeatedSquare.slowStep, RepeatedSquare.deliver,
      RepeatedSquare.repeatedSquareOriginal, RepeatedSquare.checkpointInterval]
  rw [RepeatedSquare.turn, limit_none, RepeatedSquare.checkpoint_eq rfl, one]
  split_ifs
  · exact notified _
  · exact ⟨rfl, rfl⟩

variable (multi) in
theorem exists_loop (square : RepeatedSquare.Squares IsPower r.square) (zero : IsPower 0 f) (n : ℕ) :
    ∃ loop, RepeatedSquare.Reachable IsPower (mode multi 0) r.square f loop ∧ loop.numIterations = n ∧
      loop.finished = false := by
  induction n with
  | zero => exact ⟨_, .start, rfl, rfl⟩
  | succ n ih =>
    obtain ⟨loop, inner, count, running⟩ := ih
    have power := (inner.boundary rfl square zero).aligned.power
    have valid : (RepeatedSquare.Outcome.stopped [] loop.f).Valid IsPower loop.numIterations :=
      .stopped (Nat.zero_le _) (fun i lt => absurd lt (Nat.not_lt_zero i)) power
    obtain ⟨next, finished⟩ := turn_stopped multi r.square loop
    exact ⟨_, inner.turn running valid, next.trans (by rw [count]), finished.trans running⟩

/-- As long as nothing faults, the squaring thread can go on alone. -/
theorem Reachable.extend (inBounds : InBounds IsPower r (mode multi limit) segments f N)
    {loop : RepeatedSquare.State F} (inner : RepeatedSquare.Reachable IsPower (mode multi limit) r.square f loop)
    (few : loop.numIterations ≤ N) {more : List (Event F)} (whole : sent ++ more = loop.events)
    (reachable : Reachable IsPower r (mode multi limit) segments f sent s)
    (Keeps : List (Event F) → NWeso F → Prop) (start : Keeps sent s)
    (step : ∀ {sent s event t}, Keeps sent s → s.handle r event = .done t → Keeps (sent ++ [event]) t) :
    ∃ t, Reachable IsPower r (mode multi limit) segments f loop.events t ∧ Keeps loop.events t := by
  induction more generalizing sent s with
  | nil =>
    rw [List.append_nil] at whole
    exact ⟨s, whole ▸ reachable, whole ▸ start⟩
  | cons event more ih =>
    have part : sent ++ [event] <+: loop.events := ⟨more, by rw [← whole, List.append_assoc]; rfl⟩
    obtain ⟨t, run⟩ := inBounds sent s (.event event) reachable ⟨loop, inner, few, part⟩
    exact ih (by rw [← whole, List.append_assoc]; rfl) (reachable.event inner part run) (step start run)

/-- The checkpoint at 2 ^ 34 iterations has no room. -/
theorem Reachable.small (reachable : Reachable IsPower r (mode multi limit) segments f sent s)
    (square : RepeatedSquare.Squares IsPower r.square) (zero : IsPower 0 f) :
    ∀ j ∈ indices sent, j + 1 < 2 ^ 34 := by
  induction reachable with
  | start => simp [indices]
  | @event sent s t loop event before inner part run ih =>
    have feed := (before.event inner part run).feed square zero
    cases feed.last.2 with
    | onIteration _ known =>
      obtain ⟨weso, call, -⟩ := Exec.bind_eq_done.mp run
      obtain ⟨c₁, checkpoints, -, -, bound⟩ := FastAlgorithmCallback.onIteration_cases call
      exact small_snoc ih known bound
    | _ =>
      rw [RepeatedSquare.indices_append_of_noCall _ rfl]
      exact ih
  | other _ _ _ ih => exact ih

variable (multi) in
theorem start_done (positive : 1 ≤ segments) (few : segments ≤ 16) (f : F) :
    ∃ weso, FastAlgorithmCallback.start segments f multi = .done weso := by
  have room : FastAlgorithmCallback.bucketsBegin (segments - 1) ≤ FastAlgorithmCallback.bucketsBegin 15 :=
    bucketsBegin_mono (by omega)
  have small : FastAlgorithmCallback.bucketsBegin 15 < 2 ^ 31 := by decide
  rw [FastAlgorithmCallback.start, if_neg (by omega), if_neg (by omega)]
  exact ⟨_, rfl⟩

theorem not_inBounds (positive : 1 ≤ segments) (few : segments ≤ 16) (large : 2 ^ 34 ≤ N)
    (square : RepeatedSquare.Squares IsPower r.square) (zero : IsPower 0 f) :
    ¬InBounds IsPower r (mode multi 0) segments f N := by
  intro inBounds
  obtain ⟨weso, made⟩ := start_done multi positive few f
  obtain ⟨loop, inner, count, -⟩ := exists_loop multi square zero (2 ^ 34)
  have begun : Reachable IsPower r (mode multi 0) segments f [] (NWeso.start weso) := .start made
  obtain ⟨t, reachable, -⟩ := begun.extend inBounds inner (count.trans_le large) (List.nil_append _)
    (fun _ _ => True) trivial fun _ _ => trivial
  have log := (inner.boundary rfl square zero).aligned.log
  have member : 2 ^ 34 - 1 ∈ indices loop.events := log.mem_indices (by omega)
  have := reachable.small square zero _ member
  omega

end Overrun

section LastChunk

variable {w : Fin FastStorage.intermediatesThreads}

/-- All chunks are waiting and nobody works on them. -/
structure Waiting (sent : List (Event F)) (s : NWeso F) : Prop where
  idle : ∀ w, s.workers w = .idle
  pending : ∀ n ∈ submissions sent, ∃ y, (n, y) ∈ s.storage.pendingIntermediates
  iter : s.storage.intermediatesIter = 0

theorem insert_self (key : ℕ) (value : F) (entries : List (ℕ × F)) :
    (key, value) ∈ FastStorage.insert key value entries := by
  induction entries with
  | nil => exact List.mem_singleton.mpr rfl
  | cons head entries ih =>
    unfold FastStorage.insert
    split_ifs
    · exact List.mem_cons_self
    · exact List.mem_cons_self
    · exact List.mem_cons_of_mem _ ih

theorem insert_keeps {key key' : ℕ} {value y : F} {entries : List (ℕ × F)} (member : (key', y) ∈ entries) :
    ∃ y', (key', y') ∈ FastStorage.insert key value entries := by
  induction entries with
  | nil => cases member
  | cons head entries ih =>
    unfold FastStorage.insert
    split_ifs with before same
    · exact ⟨y, List.mem_cons_of_mem _ member⟩
    · rcases List.mem_cons.mp member with rfl | later
      · exact ⟨value, same ▸ List.mem_cons_self⟩
      · exact ⟨y, List.mem_cons_of_mem _ later⟩
    · rcases List.mem_cons.mp member with first | later
      · exact ⟨y, first ▸ List.mem_cons_self⟩
      · obtain ⟨y', kept⟩ := ih later
        exact ⟨y', List.mem_cons_of_mem _ kept⟩

theorem Waiting.event {event : Event F} (waiting : Waiting sent s) (run : s.handle r event = .done t) :
    Waiting (sent ++ [event]) t := by
  cases event with
  | onIteration form i =>
    obtain ⟨weso, -, last⟩ := Exec.bind_eq_done.mp run
    obtain rfl := Exec.done.inj last
    have same : submissions (sent ++ [.onIteration form i]) = submissions sent := by simp [submissions]
    exact ⟨waiting.idle, same ▸ waiting.pending, waiting.iter⟩
  | submitCheckpoint n =>
    obtain rfl := Exec.done.inj run
    refine ⟨waiting.idle, fun m member => ?_, waiting.iter⟩
    rw [RepeatedSquare.submissions_append] at member
    rcases List.mem_append.mp member with old | new
    · obtain ⟨y, entry⟩ := waiting.pending m old
      exact insert_keeps entry
    · obtain rfl := List.mem_singleton.mp new
      exact ⟨_, insert_self _ _ _⟩
  | setIterations n =>
    obtain rfl := Exec.done.inj run
    have same : submissions (sent ++ [.setIterations n]) = submissions sent := by simp [submissions]
    exact ⟨waiting.idle, same ▸ waiting.pending, waiting.iter⟩
  | newEvent =>
    obtain rfl := Exec.done.inj run
    have same : submissions (sent ++ [Event.newEvent (F := F)]) = submissions sent := by simp [submissions]
    exact ⟨waiting.idle, same ▸ waiting.pending, waiting.iter⟩
  | increaseConstants n =>
    obtain rfl := Exec.done.inj run
    have same : submissions (sent ++ [.increaseConstants n]) = submissions sent := by simp [submissions]
    exact ⟨waiting.idle, same ▸ waiting.pending, waiting.iter⟩

theorem Reachable.next (reachable : Reachable IsPower r (mode true limit) segments f sent s)
    (inBounds : InBounds IsPower r (mode true limit) segments f N)
    (within : Within IsPower r (mode true limit) f N sent) (w : Fin FastStorage.intermediatesThreads) :
    ∃ t, s.work r w = .done t ∧ Reachable IsPower r (mode true limit) segments f sent t := by
  obtain ⟨t, run⟩ := inBounds sent s (.work w) reachable (by simpa [Step.events] using within)
  have quiet : ∀ event, Step.work (F := F) w ≠ .event event := by simp
  have after := reachable.other quiet run
  rw [NWeso.step, if_pos reachable.frame.2] at run
  exact ⟨t, run, after⟩

theorem Reachable.finishChunk (inBounds : InBounds IsPower r (mode true limit) segments f N)
    (within : Within IsPower r (mode true limit) f N sent) (right : r.Right IsPower) (zero : IsPower 0 f)
    (fuel : ℕ) {y : F} {iterBegin iteration bucket : ℕ}
    (reachable : Reachable IsPower r (mode true limit) segments f sent s)
    (state : s.workers w = .busy y iterBegin iteration bucket)
    (enough : (iterBegin + 2 ^ 15 - iteration) * (segments + 1) + (segments - bucket) ≤ fuel) :
    ∃ t, Reachable IsPower r (mode true limit) segments f sent t ∧ t.workers w = .idle ∧
      t.storage = { s.storage with
        intermediatesStored := Function.update s.storage.intermediatesStored (flagOf iterBegin) true } := by
  induction fuel generalizing s y iteration bucket with
  | zero =>
    obtain ⟨t, run, after⟩ := reachable.next inBounds within w
    have sound := (reachable.sound right zero).workers w
    have ended : ¬iteration < iterBegin + 2 ^ 15 := by
      intro more
      have : 0 < (iterBegin + 2 ^ 15 - iteration) * (segments + 1) := Nat.mul_pos (by omega) (by omega)
      omega
    cases work_cases run with
    | wait state' => rw [state] at state'; cases state'
    | take state' => rw [state] at state'; cases state'
    | store state' more => rw [state] at state'; cases state'; exact absurd more ended
    | square state' more => rw [state] at state'; cases state'; exact absurd more ended
    | announce state' _ announce =>
      rw [state] at state' sound
      cases state'
      cases sound with
      | busy _ small =>
        exact ⟨_, after, Function.update_self .., addIntermediates_eq small announce⟩
  | succ fuel ih =>
    obtain ⟨t, run, after⟩ := reachable.next inBounds within w
    have sound := (reachable.sound right zero).workers w
    have sameS := reachable.frame.1
    cases work_cases run with
    | wait state' => rw [state] at state'; cases state'
    | take state' => rw [state] at state'; cases state'
    | store state' more inner =>
      rw [state] at state'
      cases state'
      have stored := ih after (Function.update_self ..) (by omega)
      exact stored
    | square state' more inner =>
      rw [state] at state'
      cases state'
      have step : iterBegin + 2 ^ 15 - iteration = iterBegin + 2 ^ 15 - (iteration + 1) + 1 := by omega
      rw [step, Nat.add_mul] at enough
      have squared := ih after (Function.update_self ..) (by omega)
      exact squared
    | announce state' _ announce =>
      rw [state] at state' sound
      cases state'
      cases sound with
      | busy _ small =>
        exact ⟨_, after, Function.update_self .., addIntermediates_eq small announce⟩

theorem Reachable.drain (inBounds : InBounds IsPower r (mode true limit) segments f N)
    (within : Within IsPower r (mode true limit) f N sent) (right : r.Right IsPower) (zero : IsPower 0 f)
    {entries : List (ℕ × F)} (reachable : Reachable IsPower r (mode true limit) segments f sent s)
    (idle : s.workers w = .idle) (pending : s.storage.pendingIntermediates = entries) :
    ∃ t, Reachable IsPower r (mode true limit) segments f sent t ∧
      t.storage.intermediatesIter = s.storage.intermediatesIter ∧
      (∀ i, s.storage.intermediatesStored i = true → t.storage.intermediatesStored i = true) ∧
      ∀ entry ∈ entries, t.storage.intermediatesStored (flagOf entry.1) = true := by
  induction entries generalizing s with
  | nil => exact ⟨s, reachable, rfl, fun _ set => set, by simp⟩
  | cons entry entries ih =>
    obtain ⟨u, run, after⟩ := reachable.next inBounds within w
    cases work_cases run with
    | wait _ none => rw [pending] at none; cases none
    | store state => rw [idle] at state; cases state
    | square state => rw [idle] at state; cases state
    | announce state => rw [idle] at state; cases state
    | @take iterBegin y rest _ first =>
      rw [pending] at first
      obtain ⟨rfl, rfl⟩ := List.cons.inj first
      obtain ⟨v, reachV, idleV, storage⟩ := after.finishChunk inBounds within right zero _
        (Function.update_self ..) le_rfl
      obtain ⟨t, reachT, iter, kept, flagged⟩ := ih reachV idleV (by rw [storage]; rfl)
      refine ⟨t, reachT, iter.trans (by rw [storage]; rfl), fun i set => kept i ?_, ?_⟩
      · rw [storage]
        by_cases same : i = flagOf iterBegin
        · exact same ▸ Function.update_self ..
        · exact (Function.update_of_ne same ..).trans set
      · intro entry member
        rcases List.mem_cons.mp member with rfl | later
        · refine kept _ ?_
          rw [storage]
          exact Function.update_self ..
        · exact flagged entry later

/-- With all flags set, `GetFinishedSegment` goes on to their end. -/
theorem Reachable.poll (inBounds : InBounds IsPower r (mode true limit) segments f N)
    (within : Within IsPower r (mode true limit) f N sent)
    (reachable : Reachable IsPower r (mode true limit) segments f sent s)
    (iter : s.storage.intermediatesIter = 0) (m : ℕ)
    (flags : ∀ i < 2 * m, s.storage.intermediatesStored i = true) (le : m ≤ 2 ^ 18) :
    ∃ t, Reachable IsPower r (mode true limit) segments f sent t ∧
      t.storage.intermediatesStored = s.storage.intermediatesStored ∧
      t.storage.intermediatesIter = m * 2 ^ 16 := by
  induction m with
  | zero => exact ⟨s, reachable, rfl, by rw [iter, Nat.zero_mul]⟩
  | succ m ih =>
    obtain ⟨t, reachT, same, index⟩ := ih (fun i lt => flags i (by omega)) (by omega)
    obtain ⟨u, run⟩ := inBounds sent t .getFinishedSegment reachT (by simpa [Step.events] using within)
    have after := reachT.other (by simp) run
    have quotient : m * 2 ^ 16 / 2 ^ 16 = m := Nat.mul_div_cancel _ (by norm_num)
    have first : 2 * m < FastStorage.capacity := by
      unfold FastStorage.capacity
      omega
    have second : 2 * m + 1 < FastStorage.capacity := by
      unfold FastStorage.capacity
      omega
    simp only [NWeso.step, NWeso.getFinishedSegment, if_pos reachT.frame.2, index, quotient,
      FastStorage.getFlag, if_pos first, if_pos second, same,
      flags (2 * m) (by omega), flags (2 * m + 1) (by omega), Exec.done_bind, if_true] at run
    obtain rfl := Exec.done.inj run
    refine ⟨_, after, rfl, ?_⟩
    simp only
    omega

/-- The squaring thread has made `n` iterations, and then the workers have stored what it submitted. -/
theorem exists_stored (inBounds : InBounds IsPower r (mode true 0) segments f N) (positive : 1 ≤ segments)
    (few : segments ≤ 16) (right : r.Right IsPower) (zero : IsPower 0 f) {n : ℕ} (some : 0 < n) (le : n ≤ N) :
    ∃ loop t, RepeatedSquare.Reachable IsPower (mode true 0) r.square f loop ∧ loop.numIterations = n ∧
      Reachable IsPower r (mode true 0) segments f loop.events t ∧ t.storage.intermediatesIter = 0 ∧
      ∀ i, 2 ^ 15 * i ≤ n → t.storage.intermediatesStored i = true := by
  obtain ⟨weso, made⟩ := start_done true positive few f
  obtain ⟨loop, inner, count, -⟩ := exists_loop true right.square zero n
  have within : Within IsPower r (mode true 0) f N loop.events :=
    ⟨loop, inner, count.trans_le le, List.prefix_refl _⟩
  have begun : Reachable IsPower r (mode true 0) segments f [] (NWeso.start weso) := .start made
  obtain ⟨s, reachS, waiting⟩ := begun.extend inBounds inner (count.trans_le le) (List.nil_append _)
    Waiting ⟨fun _ => rfl, by simp [submissions], rfl⟩ Waiting.event
  obtain ⟨t, reachT, iter, -, flagged⟩ := reachS.drain inBounds within right zero (waiting.idle ⟨0, by decide⟩) rfl
  refine ⟨loop, t, inner, count, reachT, iter.trans waiting.iter, fun i lt => ?_⟩
  have boundary := inner.boundary rfl right.square zero
  have member : 2 ^ 15 * i ∈ submissions loop.events := by
    rw [submissions_eq boundary.feed]
    have length := boundary.submitted rfl rfl
    have ahead := boundary.ahead
    exact List.mem_map.mpr ⟨i, List.mem_range.mpr (by omega), rfl⟩
  obtain ⟨y, entry⟩ := waiting.pending _ member
  have set := flagged _ entry
  have index : flagOf (2 ^ 15 * i) = i := by
    unfold flagOf
    split_ifs <;> omega
  rwa [index] at set

/-- When the last chunk has been submitted, the event loop may read past the flags. -/
theorem not_inBounds_multi (positive : 1 ≤ segments) (few : segments ≤ 16) (large : 2 ^ 34 - 2 ^ 15 ≤ N)
    (right : r.Right IsPower) (zero : IsPower 0 f) :
    ¬InBounds IsPower r (mode true 0) segments f N := by
  intro inBounds
  obtain ⟨loop, t, inner, count, reachT, iter, flagged⟩ :=
    exists_stored inBounds positive few right zero (show 0 < 2 ^ 34 - 2 ^ 15 by norm_num) large
  have within : Within IsPower r (mode true 0) f N loop.events :=
    ⟨loop, inner, count.trans_le large, List.prefix_refl _⟩
  obtain ⟨u, reachU, -, index⟩ := reachT.poll inBounds within iter (2 ^ 18) (fun i lt => flagged i (by omega)) le_rfl
  obtain ⟨v, run⟩ := inBounds _ u .getFinishedSegment reachU (by simpa [Step.events] using within)
  have outside : ¬2 * (2 ^ 18 * 2 ^ 16 / 2 ^ 16) < FastStorage.capacity := by decide
  simp only [NWeso.step, NWeso.getFinishedSegment, if_pos reachU.frame.2, index, FastStorage.getFlag,
    if_neg outside] at run
  cases run

end LastChunk

section Session

/-- A session stays within its arrays exactly as long as the checkpoints last; with `FastStorage`
it must also stop before the last chunk is submitted. -/
theorem indices_inBounds_iff {F : Type} {IsPower : ℕ → F → Prop} {r : Routines F} {segments N : ℕ} {f : F}
    (multi : Bool) (positive : 1 ≤ segments) (few : segments ≤ 16) (right : r.Right IsPower)
    (zero : IsPower 0 f) : InBounds IsPower r (mode multi 0) segments f N ↔
      N < 2 ^ 34 - if multi then 2 ^ 15 else 0 := by
  constructor
  · intro inBounds
    by_contra large
    cases multi with
    | true => exact not_inBounds_multi positive few (not_lt.mp large) right zero inBounds
    | false => exact not_inBounds positive few (not_lt.mp large) right.square zero inBounds
  · intro bound
    exact indices_inBounds few bound right zero

/-- The forms of order 3, squared by `multiply`. -/
def generatorRoutines : Routines Form := ⟨RepeatedSquare.multiplySquare, RepeatedSquare.multiplySquare, id⟩

theorem generatorRoutines_right {d : Discriminant} (x : ReducedForm d) :
    generatorRoutines.Right (RepeatedSquare.IsPower x) :=
  ⟨RepeatedSquare.multiplySquare_squares x, RepeatedSquare.multiplySquare_squares x, fun _ _ power => power⟩

/-- With eight segment sizes, one iteration less than 2 ^ 34. -/
theorem indices_inBounds_iff_eight : ∃ x : ReducedForm ⟨23, by norm_num, rfl⟩,
    InBounds (RepeatedSquare.IsPower x) generatorRoutines (mode false 0) 8 ⟨2, 1, 3⟩ (2 ^ 34 - 1) := by
  let x : ReducedForm ⟨23, by norm_num, rfl⟩ := ⟨⟨2, 1, 3⟩, by decide, by decide⟩
  have rep : Represents (⟨2, 1, 3⟩ : Form) x := ReducedForm.represents x
  have first : RepeatedSquare.IsPower x 0 (⟨2, 1, 3⟩ : Form) := by simpa [RepeatedSquare.IsPower] using rep
  exact ⟨x, (indices_inBounds_iff false (by norm_num) (by norm_num) (generatorRoutines_right x) first).mpr
    (by norm_num)⟩

/-- Up to the 2 ^ 36 iterations that eight segment sizes are said to allow, it does not. -/
theorem checkpoints_overrun : ∃ x : ReducedForm ⟨23, by norm_num, rfl⟩,
    ¬InBounds (RepeatedSquare.IsPower x) generatorRoutines (mode false 0) 8 ⟨2, 1, 3⟩ (2 ^ 36) := by
  let x : ReducedForm ⟨23, by norm_num, rfl⟩ := ⟨⟨2, 1, 3⟩, by decide, by decide⟩
  have rep : Represents (⟨2, 1, 3⟩ : Form) x := ReducedForm.represents x
  have first : RepeatedSquare.IsPower x 0 (⟨2, 1, 3⟩ : Form) := by simpa [RepeatedSquare.IsPower] using rep
  exact ⟨x, not_inBounds (by norm_num) (by norm_num) (by norm_num) (generatorRoutines_right x).square first⟩

end Session

section Announcing

variable {d : Discriminant}

/-- In every run with `FastStorage`, whatever the workers do: a submission carries the form of its
iteration; the multiples of 2 ^ 15 are submitted one after the other, up to the current one when a
turn of the loop has ended; and below what `GetFinishedSegment` returned every exponent has been
stored by the buckets that want it, which up to bucket 14 is what their provers need. -/
theorem fastStorage_sound {x : ReducedForm d} {r : Routines Form} {segments iterations : ℕ} {f : Form}
    {sent : List (Event Form)} {s : NWeso Form} (right : r.Right (RepeatedSquare.IsPower x))
    (represents : Represents f x)
    (reachable : Reachable (RepeatedSquare.IsPower x) r (mode true iterations) segments f sent s) :
    (∀ entry ∈ s.storage.submitted, Represents entry.2 (x ^ 2 ^ entry.1)) ∧
    s.storage.submitted.map Prod.fst = (List.range s.storage.submitted.length).map (2 ^ 15 * ·) ∧
    (∀ loop, RepeatedSquare.Reachable (RepeatedSquare.IsPower x) (mode true iterations) r.square f loop →
      loop.events = sent → 0 < loop.numIterations →
      s.storage.submitted.length = loop.numIterations / 2 ^ 15 + 1) ∧
    2 ^ 16 ∣ s.intermediatesIter ∧
    (∀ bucket < segments, ∀ e < s.intermediatesIter, FastAlgorithmCallback.wants e bucket = .done true →
      ∃ form, ((bucket, e), form) ∈ s.weso.stored ∧ Represents form (x ^ 2 ^ e)) ∧
    ∀ bucket ≤ 14, ∀ e, Needed bucket e ↔ FastAlgorithmCallback.wants e bucket = .done true := by
  have zero : RepeatedSquare.IsPower x 0 f := by simpa [RepeatedSquare.IsPower] using represents
  have sound := reachable.sound right zero
  have count := congrArg List.length sound.count
  rw [List.length_map] at count
  refine ⟨sound.submitted, ?_, ?_, sound.returned.1, ?_, ?_⟩
  · rw [sound.count, submissions_eq (reachable.feed right.square zero), count,
      ← submissions_eq (reachable.feed right.square zero)]
  · intro loop inner same positive
    have boundary := inner.boundary rfl right.square zero
    have submitted := boundary.submitted rfl rfl
    have ahead := boundary.ahead
    have near := boundary.near
    rw [same, ← count] at submitted
    omega
  · intro bucket lt e below wanted
    exact sound.finished.2 bucket (reachable.frame.1 ▸ lt) e (Nat.zero_le _)
      (below.trans_le sound.returned.2) wanted
  · intro bucket small e
    rw [needed_iff_kept small, wants_eq small, Exec.done.injEq, decide_eq_true_iff]

/-- After 2 ^ 16 iterations three chunks are submitted and stored, and `GetFinishedSegment` has returned the first
two. -/
theorem fastStorage_sound_two : ∃ (x : ReducedForm ⟨23, by norm_num, rfl⟩) (sent : List (Event Form)) (s : NWeso Form),
    x.form = ⟨2, 1, 3⟩ ∧
      Reachable (RepeatedSquare.IsPower x) generatorRoutines (mode true 0) 8 ⟨2, 1, 3⟩ sent s ∧
      s.storage.submitted.map Prod.fst = [0, 2 ^ 15, 2 ^ 16] ∧ s.intermediatesIter = 2 ^ 16 ∧
      ∀ bucket < 8, ∀ e < 2 ^ 16, FastAlgorithmCallback.wants e bucket = .done true →
        ∃ form, ((bucket, e), form) ∈ s.weso.stored ∧ Represents form (x ^ 2 ^ e) := by
  let x : ReducedForm ⟨23, by norm_num, rfl⟩ := ⟨⟨2, 1, 3⟩, by decide, by decide⟩
  have rep : Represents (⟨2, 1, 3⟩ : Form) x := ReducedForm.represents x
  have zero : RepeatedSquare.IsPower x 0 (⟨2, 1, 3⟩ : Form) := by simpa [RepeatedSquare.IsPower] using rep
  have right := generatorRoutines_right x
  have inBounds : InBounds (RepeatedSquare.IsPower x) generatorRoutines (mode true 0) 8 ⟨2, 1, 3⟩ (2 ^ 16) :=
    indices_inBounds (by norm_num) (by norm_num) right zero
  obtain ⟨loop, t, inner, count, reachT, iter, flagged⟩ :=
    exists_stored inBounds (by norm_num) (by norm_num) right zero (show 0 < 2 ^ 16 by norm_num) le_rfl
  have within : Within (RepeatedSquare.IsPower x) generatorRoutines (mode true 0) ⟨2, 1, 3⟩ (2 ^ 16) loop.events :=
    ⟨loop, inner, count.le, List.prefix_refl _⟩
  obtain ⟨u, reachU, stored, index⟩ :=
    reachT.poll inBounds within iter 1 (fun i lt => flagged i (by omega)) (by norm_num)
  have boundary := inner.boundary rfl right.square zero
  have three : (submissions loop.events).length = 3 := by
    have length := boundary.submitted rfl rfl
    have ahead := boundary.ahead
    have near := boundary.near
    omega
  have second : u.storage.intermediatesStored 2 = true := stored ▸ flagged 2 (by norm_num)
  have third : u.storage.intermediatesStored 3 = false := by
    apply Bool.eq_false_iff.mpr
    intro set
    obtain ⟨n, member, flag⟩ := (reachU.announced right zero).flags 3 set
    rw [submissions_eq boundary.feed, three] at member
    obtain ⟨k, few, rfl⟩ := List.mem_map.mp member
    have few := List.mem_range.mp few
    unfold flagOf at flag
    split_ifs at flag <;> omega
  obtain ⟨v, run⟩ := inBounds _ u .getFinishedSegment reachU (by simpa [Step.events] using within)
  have after := reachU.other (by simp) run
  have room : 2 < FastStorage.capacity ∧ 3 < FastStorage.capacity := by decide
  simp only [NWeso.step, NWeso.getFinishedSegment, if_pos reachU.frame.2, index, FastStorage.getFlag, Nat.one_mul,
    Nat.div_self (show 0 < 2 ^ 16 by norm_num), Nat.mul_one, Nat.reduceAdd, if_pos room.1, if_pos room.2, second, third,
    Exec.done_bind, if_true, Bool.false_eq_true, if_false] at run
  obtain rfl := Exec.done.inj run
  obtain ⟨-, keys, turn, -, all, -⟩ := fastStorage_sound right rep after
  have length := turn loop inner rfl (by omega)
  rw [count] at length
  refine ⟨x, _, _, rfl, after, ?_, rfl, all⟩
  rw [keys, length]
  rfl

end Announcing

end NWeso

end ChiaVdf
