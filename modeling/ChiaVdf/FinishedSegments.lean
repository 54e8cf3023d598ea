import ChiaVdf.FastStorage

/-! `FastStorage` never announces a segment whose intermediates are missing: what the squaring
thread submits, what the workers have stored, and what the pairs of flags say about it. -/
namespace ChiaVdf

open RepeatedSquare (Event Feed Covered iterations indices lastDelivered submissions
  checkpointInterval)

namespace FastAlgorithmCallback

variable {F : Type} {c c' : FastAlgorithmCallback F} {setForm : F → F} {form : F} {iteration bucket : ℕ}

theorem visit_cases (run : c.visit setForm form iteration bucket = .done c') :
    (wants iteration bucket = .done false ∧ c' = c) ∨
      (wants iteration bucket = .done true ∧ ∃ pos, formAt iteration bucket c.segments = .done pos ∧
        c' = c.setForms iteration bucket pos (setForm form)) := by
  obtain ⟨wanted, test, rest⟩ := Exec.bind_eq_done.mp run
  cases wanted with
  | false => exact .inl ⟨test, (Exec.done.inj rest).symm⟩
  | true =>
    obtain ⟨pos, place, last⟩ := Exec.bind_eq_done.mp rest
    exact .inr ⟨test, pos, place, (Exec.done.inj last).symm⟩

/-- After the intermediates `OnIteration` writes at most a checkpoint. -/
theorem onIteration_cases (run : c.onIteration setForm form iteration = .done c') :
    ∃ c₁ checkpoints, c.keepForms setForm form (iteration + 1) = .done c₁ ∧
      c' = { c₁ with checkpoints := checkpoints } ∧
      ((iteration + 1) % 2 ^ 16 = 0 → (iteration + 1) / 2 ^ 16 < checkpointsCapacity) := by
  obtain ⟨c₁, keep, rest⟩ := Exec.bind_eq_done.mp run
  refine ⟨c₁, c'.checkpoints, keep, ?_⟩
  split_ifs at rest with multiple
  · unfold setCheckpoint at rest
    split_ifs at rest with inside
    obtain rfl := Exec.done.inj rest
    exact ⟨rfl, fun _ => inside⟩
  · obtain rfl := Exec.done.inj rest
    exact ⟨rfl, fun absurd' => absurd absurd' multiple⟩

/-- On a machine with many processors, `OnIteration` keeps no intermediates. -/
theorem keepForms_multi (multi : c.multiProcMachine = true)
    (run : c.keepForms setForm form iteration = .done c') :
    c' = if iteration % 2 ^ 15 = 0 then { c with yRet := setForm form } else c := by
  rw [keepForms, if_pos multi] at run
  exact (Exec.done.inj run).symm

end FastAlgorithmCallback

namespace NWeso

variable {F : Type} {IsPower : ℕ → F → Prop} {r : Routines F} {segments : ℕ} {f : F}
  {sent : List (Event F)} {s t : NWeso F}

/-- The buckets that want an exponent have it, with the right form. -/
def Stored (IsPower : ℕ → F → Prop) (c : FastAlgorithmCallback F) (bucket e : ℕ) : Prop :=
  FastAlgorithmCallback.wants e bucket = .done true →
    ∃ form, ((bucket, e), form) ∈ c.stored ∧ IsPower e form

/-- Every bucket has the intermediates between two exponents. -/
def StoredAll (IsPower : ℕ → F → Prop) (c : FastAlgorithmCallback F) (first last : ℕ) : Prop :=
  ∀ bucket < c.segments, ∀ e, first ≤ e → e < last → Stored IsPower c bucket e

/-- The flag of a chunk. -/
def flagOf (n : ℕ) : ℕ := 2 * (n / 2 ^ 16) + if n % 2 ^ 16 ≠ 0 then 1 else 0

/-- What a worker has done of its chunk. -/
inductive WorkerRight (IsPower : ℕ → F → Prop) (c : FastAlgorithmCallback F) : Worker F → Prop where
  | idle : WorkerRight IsPower c .idle
  | busy {y : F} {iterBegin iteration bucket : ℕ} : 2 ^ 15 ∣ iterBegin → iterBegin < 2 ^ 34 →
    iterBegin ≤ iteration → iteration ≤ iterBegin + 2 ^ 15 → IsPower iteration y →
      StoredAll IsPower c iterBegin iteration →
    (∀ b < bucket, b < c.segments → Stored IsPower c b iteration) →
    WorkerRight IsPower c (.busy y iterBegin iteration bucket)

/-- Which form `y_ret` holds. -/
inductive YRet (IsPower : ℕ → F → Prop) (r : Routines F) (sent : List (Event F)) (y : F) : ℕ → Prop where
  | first : IsPower 0 y → YRet IsPower r sent y 0
  | later {m : ℕ} {form : F} : lastDelivered m sent = some form → y = r.setForm form →
    YRet IsPower r sent y (m + 1)

/-- The invariant of a session with `FastStorage`. -/
structure Sound (IsPower : ℕ → F → Prop) (r : Routines F) (sent : List (Event F)) (s : NWeso F) : Prop where
  multi : s.weso.multiProcMachine = true
  small : ∀ j ∈ indices sent, j + 1 < 2 ^ 34
  yRet : ∃ n, 2 ^ 15 ∣ n ∧ (∀ j ∈ indices sent, j + 1 < n + 2 ^ 15) ∧ YRet IsPower r sent s.weso.yRet n
  count : s.storage.submitted.map Prod.fst = submissions sent
  submitted : ∀ entry ∈ s.storage.submitted, IsPower entry.1 entry.2
  pending : ∀ entry ∈ s.storage.pendingIntermediates,
    2 ^ 15 ∣ entry.1 ∧ entry.1 < 2 ^ 34 ∧ IsPower entry.1 entry.2
  workers : ∀ w, WorkerRight IsPower s.weso (s.workers w)
  forms : ∀ entry ∈ s.weso.stored, IsPower entry.1.2 entry.2
  flags : ∀ n, 2 ^ 15 ∣ n → s.storage.intermediatesStored (flagOf n) = true →
    StoredAll IsPower s.weso n (n + 2 ^ 15)
  finished : 2 ^ 16 ∣ s.storage.intermediatesIter ∧
    StoredAll IsPower s.weso 0 s.storage.intermediatesIter
  returned : 2 ^ 16 ∣ s.intermediatesIter ∧ s.intermediatesIter ≤ s.storage.intermediatesIter

section Stored

variable {c c' : FastAlgorithmCallback F} {first last bucket e : ℕ}

theorem Stored.mono (stored : Stored IsPower c bucket e) (more : c.stored ⊆ c'.stored) :
    Stored IsPower c' bucket e := by
  intro wanted
  obtain ⟨form, member, power⟩ := stored wanted
  exact ⟨form, more member, power⟩

theorem StoredAll.mono (stored : StoredAll IsPower c first last) (same : c'.segments = c.segments)
    (more : c.stored ⊆ c'.stored) : StoredAll IsPower c' first last := by
  intro bucket lt e le le'
  exact (stored bucket (same ▸ lt) e le le').mono more

theorem StoredAll.append {middle : ℕ} (stored : StoredAll IsPower c first middle)
    (stored' : StoredAll IsPower c middle last) : StoredAll IsPower c first last := by
  intro bucket lt e le le'
  by_cases before : e < middle
  · exact stored bucket lt e le before
  · exact stored' bucket lt e (by omega) le'

theorem WorkerRight.mono {worker : Worker F} (right : WorkerRight IsPower c worker)
    (same : c'.segments = c.segments) (more : c.stored ⊆ c'.stored) : WorkerRight IsPower c' worker := by
  cases right with
  | idle => exact .idle
  | busy whole small le le' power chunk part =>
    exact .busy whole small le le' power (chunk.mono same more)
      fun b lt inside => (part b lt (same ▸ inside)).mono more

end Stored

theorem visit_stored {c c' : FastAlgorithmCallback F} {y : F} {iteration bucket : ℕ}
    (run : c.visit id y iteration bucket = .done c') (power : IsPower iteration y)
    (right : ∀ entry ∈ c.stored, IsPower entry.1.2 entry.2) :
    c'.segments = c.segments ∧ c'.multiProcMachine = c.multiProcMachine ∧ c'.yRet = c.yRet ∧
      c.stored ⊆ c'.stored ∧ (∀ entry ∈ c'.stored, IsPower entry.1.2 entry.2) ∧
      Stored IsPower c' bucket iteration := by
  rcases FastAlgorithmCallback.visit_cases run with ⟨unwanted, rfl⟩ | ⟨-, pos, -, rfl⟩
  · refine ⟨rfl, rfl, rfl, List.Subset.refl _, right, fun wanted => ?_⟩
    rw [unwanted] at wanted
    cases wanted
  · refine ⟨rfl, rfl, rfl, List.subset_cons_self _ _, ?_, fun _ => ⟨y, List.mem_cons_self, power⟩⟩
    intro entry member
    rcases List.mem_cons.mp member with rfl | old
    · exact power
    · exact right entry old

theorem mem_insert {key : ℕ} {value : F} {entries : List (ℕ × F)} {entry : ℕ × F}
    (member : entry ∈ FastStorage.insert key value entries) :
    entry = (key, value) ∨ entry ∈ entries := by
  induction entries with
  | nil => exact .inl (List.mem_singleton.mp member)
  | cons head entries ih =>
    obtain ⟨key', value'⟩ := head
    unfold FastStorage.insert at member
    split_ifs at member with before same
    · exact List.mem_cons.mp member
    · rcases List.mem_cons.mp member with new | old
      · exact .inl new
      · exact .inr (List.mem_cons_of_mem _ old)
    · rcases List.mem_cons.mp member with first | later
      · exact .inr (first ▸ List.mem_cons_self)
      · rcases ih later with new | old
        · exact .inl new
        · exact .inr (List.mem_cons_of_mem _ old)

/-- A flag tells chunks of 2 ^ 15 iterations apart. -/
theorem flagOf_injective {m n : ℕ} (whole : 2 ^ 15 ∣ m) (whole' : 2 ^ 15 ∣ n)
    (same : flagOf m = flagOf n) : m = n := by
  unfold flagOf at same
  split_ifs at same <;> omega

theorem bucket_eq {iter : ℕ} (small : iter < 2 ^ 34) :
    Int.bmod ((iter / 2 ^ 16 : ℕ) : ℤ) (2 ^ 32) = (iter / 2 ^ 16 : ℕ) := by
  rw [Int.bmod_def]
  omega

theorem cast_flagOf (iter : ℕ) :
    (2 * ((iter / 2 ^ 16 : ℕ) : ℤ) + if iter % 2 ^ 16 ≠ 0 then 1 else 0) = flagOf iter := by
  unfold flagOf
  split_ifs <;> push_cast <;> rfl

theorem addIntermediates_eq {u v : FastStorage F} {iter : ℕ} (small : iter < 2 ^ 34)
    (run : u.addIntermediates iter = .done v) :
    v = { u with intermediatesStored := Function.update u.intermediatesStored (flagOf iter) true } := by
  unfold FastStorage.addIntermediates at run
  rw [bucket_eq small] at run
  dsimp only at run
  rw [cast_flagOf] at run
  split_ifs at run with inside
  have set := (Exec.done.inj run).symm
  rwa [Int.toNat_natCast] at set

section YRet

variable {y form : F} {i m n : ℕ}

theorem lastDelivered_snoc (sent : List (Event F)) (form : F) (i m : ℕ) :
    lastDelivered m (sent ++ [.onIteration form i]) =
      if i = m then some form else lastDelivered m sent := by
  rw [RepeatedSquare.lastDelivered_append]
  by_cases same : i = m <;> simp [lastDelivered, same]

theorem lastDelivered_snoc_of_noCall (sent : List (Event F)) {event : Event F}
    (noCall : event.index? = none) (m : ℕ) : lastDelivered m (sent ++ [event]) = lastDelivered m sent := by
  rw [RepeatedSquare.lastDelivered_append]
  cases event with
  | onIteration => simp [Event.index?] at noCall
  | _ => rfl

theorem YRet.power (yRet : YRet IsPower r sent y m) (whole : 2 ^ 15 ∣ m) (whole' : 2 ^ 15 ∣ n)
    (window : ∀ j ∈ indices sent, j + 1 < m + 2 ^ 15) (window' : ∀ j ∈ indices sent, j + 1 < n + 2 ^ 15)
    (covered : Covered IsPower n sent) (setForm : ∀ n f, IsPower n f → IsPower n (r.setForm f)) :
    IsPower n y := by
  have le : n ≤ m := by
    cases n with
    | zero => exact Nat.zero_le _
    | succ n =>
      obtain ⟨form, found, -⟩ := covered n (Nat.lt_succ_self n)
      have := window n (RepeatedSquare.mem_indices_of_lastDelivered found)
      omega
  cases yRet with
  | first power =>
    obtain rfl := Nat.le_zero.mp le
    exact power
  | @later m form found same =>
    have := window' m (RepeatedSquare.mem_indices_of_lastDelivered found)
    have equal : n = m + 1 := by omega
    obtain ⟨form', found', power⟩ := covered m (by omega)
    rw [found] at found'
    obtain rfl := Option.some.inj found'
    rw [same, equal]
    exact setForm _ _ power

variable (form) in
/-- A call moves `y_ret` on if it is made for a multiple of 2 ^ 15, and leaves it alone otherwise. -/
theorem YRet.onIteration (yRet : YRet IsPower r sent y n) (whole : 2 ^ 15 ∣ n)
    (window : ∀ j ∈ indices sent, j + 1 < n + 2 ^ 15) (known : ∀ j < i, j ∈ indices sent)
    (recent : ∀ j ∈ indices sent, j < i + checkpointInterval) : ∃ n', 2 ^ 15 ∣ n' ∧
      (∀ j ∈ indices (sent ++ [.onIteration form i]), j + 1 < n' + 2 ^ 15) ∧
      YRet IsPower r (sent ++ [.onIteration form i])
        (if (i + 1) % 2 ^ 15 = 0 then r.setForm form else y) n' := by
  have interval : checkpointInterval = 10000 := rfl
  by_cases multiple : (i + 1) % 2 ^ 15 = 0
  · refine ⟨i + 1, Nat.dvd_of_mod_eq_zero multiple, ?_, ?_⟩
    · intro j member
      rcases RepeatedSquare.mem_indices_append_onIteration.mp member with old | rfl
      · have := recent j old
        omega
      · omega
    · rw [if_pos multiple]
      exact .later (by rw [lastDelivered_snoc, if_pos rfl]) rfl
  · refine ⟨n, whole, ?_, ?_⟩
    · intro j member
      rcases RepeatedSquare.mem_indices_append_onIteration.mp member with old | rfl
      · exact window j old
      · by_contra far
        have passed := window (n + 2 ^ 15 - 1) (known _ (by omega))
        omega
    · rw [if_neg multiple]
      cases yRet with
      | first power => exact .first power
      | @later m form found same =>
        have other : ¬i = m := by
          rintro rfl
          exact multiple (Nat.mod_eq_zero_of_dvd whole)
        exact .later (by rw [lastDelivered_snoc, if_neg other, found]) same

theorem YRet.noCall (yRet : YRet IsPower r sent y n) {event : Event F} (noCall : event.index? = none) :
    YRet IsPower r (sent ++ [event]) y n := by
  cases yRet with
  | first power => exact .first power
  | later found same => exact .later (by rw [lastDelivered_snoc_of_noCall _ noCall, found]) same

end YRet

section Steps

theorem small_snoc {form : F} {i : ℕ} (small : ∀ j ∈ indices sent, j + 1 < 2 ^ 34)
    (known : ∀ j < i, j ∈ indices sent)
    (bound : (i + 1) % 2 ^ 16 = 0 → (i + 1) / 2 ^ 16 < FastAlgorithmCallback.checkpointsCapacity) :
    ∀ j ∈ indices (sent ++ [.onIteration form i]), j + 1 < 2 ^ 34 := by
  intro j member
  rcases RepeatedSquare.mem_indices_append_onIteration.mp member with old | rfl
  · exact small j old
  · by_contra large
    by_cases last : j + 1 = 2 ^ 34
    · rw [last] at bound
      exact absurd (bound rfl) (by decide)
    · have passed := small (2 ^ 34 - 1) (known _ (by omega))
      norm_num at passed

theorem Sound.event (sound : Sound IsPower r sent s) {event : Event F}
    (allowed : RepeatedSquare.Allowed IsPower sent event)
    (setForm : ∀ n f, IsPower n f → IsPower n (r.setForm f))
    (run : s.handle r event = .done t) : Sound IsPower r (sent ++ [event]) t := by
  obtain ⟨n, whole, window, yRet⟩ := sound.yRet
  cases allowed with
  | @onIteration form i published known recent =>
    obtain ⟨weso, call, last⟩ := Exec.bind_eq_done.mp run
    obtain rfl := Exec.done.inj last
    obtain ⟨c₁, checkpoints, keep, rfl, bound⟩ := FastAlgorithmCallback.onIteration_cases call
    obtain rfl := FastAlgorithmCallback.keepForms_multi sound.multi keep
    obtain ⟨n', whole', window', yRet'⟩ := yRet.onIteration form whole window known recent
    have noSubmission : submissions (sent ++ [.onIteration form i]) = submissions sent := by
      simp [submissions]
    split_ifs at yRet' ⊢
    all_goals exact { sound with
      small := small_snoc sound.small known bound
      yRet := ⟨n', whole', window', yRet'⟩
      workers := fun w => (sound.workers w).mono rfl (List.Subset.refl _)
      count := sound.count.trans noSubmission.symm }
  | @setIterations m grows covered =>
    obtain rfl := Exec.done.inj run
    have noSubmission : submissions (sent ++ [.setIterations m]) = submissions sent := by
      simp [submissions]
    have same := RepeatedSquare.indices_append_of_noCall sent
      (show (Event.setIterations (F := F) m).index? = none from rfl)
    exact { sound with
      workers := fun w => (sound.workers w).mono rfl (List.Subset.refl _)
      small := same ▸ sound.small
      yRet := ⟨n, whole, same ▸ window, yRet.noCall rfl⟩
      count := sound.count.trans noSubmission.symm }
  | @submitCheckpoint m next covered recent =>
    obtain rfl := Exec.done.inj run
    have same := RepeatedSquare.indices_append_of_noCall sent
      (show (Event.submitCheckpoint (F := F) m).index? = none from rfl)
    have multiple : 2 ^ 15 ∣ m := ⟨_, next⟩
    have power : IsPower m s.weso.yRet := yRet.power whole multiple window recent covered setForm
    have inside : m < 2 ^ 34 := by
      cases m with
      | zero => norm_num
      | succ m =>
        obtain ⟨form, found, -⟩ := covered m (Nat.lt_succ_self m)
        exact sound.small m (RepeatedSquare.mem_indices_of_lastDelivered found)
    exact { sound with
      small := same ▸ sound.small
      yRet := ⟨n, whole, same ▸ window, yRet.noCall rfl⟩
      count := by
        simp only [FastStorage.submitCheckpoint, List.map_append, sound.count,
          RepeatedSquare.submissions_append]
        rfl
      submitted := by
        intro entry member
        rcases List.mem_append.mp member with old | new
        · exact sound.submitted entry old
        · obtain rfl := List.mem_singleton.mp new
          exact power
      pending := by
        intro entry member
        rcases mem_insert member with rfl | old
        · exact ⟨multiple, inside, power⟩
        · exact sound.pending entry old }
  | newEvent =>
    obtain rfl := Exec.done.inj run
    have noSubmission : submissions (sent ++ [Event.newEvent (F := F)]) = submissions sent := by
      simp [submissions]
    have same := RepeatedSquare.indices_append_of_noCall sent (show (Event.newEvent (F := F)).index? = none from rfl)
    exact { sound with
      small := same ▸ sound.small
      yRet := ⟨n, whole, same ▸ window, yRet.noCall rfl⟩
      count := sound.count.trans noSubmission.symm }

theorem Sound.setWorker (sound : Sound IsPower r sent s) {w : Fin FastStorage.intermediatesThreads}
    {worker : Worker F} {weso : FastAlgorithmCallback F} {storage : FastStorage F}
    (frame : weso.segments = s.weso.segments ∧ weso.multiProcMachine = s.weso.multiProcMachine ∧
      weso.yRet = s.weso.yRet ∧ s.weso.stored ⊆ weso.stored)
    (same : storage.intermediatesIter = s.storage.intermediatesIter ∧
      storage.submitted = s.storage.submitted)
    (pending : storage.pendingIntermediates ⊆ s.storage.pendingIntermediates)
    (forms : ∀ entry ∈ weso.stored, IsPower entry.1.2 entry.2)
    (right : WorkerRight IsPower weso worker)
    (flags : ∀ n, 2 ^ 15 ∣ n → storage.intermediatesStored (flagOf n) = true →
      s.storage.intermediatesStored (flagOf n) = true ∨ StoredAll IsPower weso n (n + 2 ^ 15)) :
    Sound IsPower r sent ({ s with weso := weso, storage := storage }.setWorker w worker) := by
  obtain ⟨sameS, sameM, sameY, more⟩ := frame
  obtain ⟨sameI, sameL⟩ := same
  constructor
  case multi => exact sameM.trans sound.multi
  case small => exact sound.small
  case yRet =>
    obtain ⟨n, whole, window, yRet⟩ := sound.yRet
    exact ⟨n, whole, window, by simpa only [NWeso.setWorker, sameY] using yRet⟩
  case count => simpa only [NWeso.setWorker, sameL] using sound.count
  case submitted => simpa only [NWeso.setWorker, sameL] using sound.submitted
  case pending => exact fun entry member => sound.pending entry (pending member)
  case workers =>
    intro w'
    by_cases this : w' = w
    · subst this
      simpa only [NWeso.setWorker, Function.update_self] using right
    · simpa only [NWeso.setWorker, Function.update_of_ne this] using (sound.workers w').mono sameS more
  case forms => exact forms
  case flags =>
    intro n whole set
    rcases flags n whole set with old | new
    · exact (sound.flags n whole old).mono sameS more
    · exact new
  case finished =>
    simp only [NWeso.setWorker, sameI]
    exact ⟨sound.finished.1, sound.finished.2.mono sameS more⟩
  case returned =>
    simp only [NWeso.setWorker, sameI]
    exact sound.returned

/-- What a step of a worker can be. -/
inductive WorkStep (r : Routines F) (w : Fin FastStorage.intermediatesThreads) (s : NWeso F) : NWeso F → Prop where
  | wait : s.workers w = .idle → s.storage.pendingIntermediates = [] → WorkStep r w s s
  | take {iterBegin : ℕ} {y : F} {entries : List (ℕ × F)} : s.workers w = .idle →
    s.storage.pendingIntermediates = (iterBegin, y) :: entries →
    WorkStep r w s ({ s with storage :=
      { s.storage with pendingIntermediates := entries } }.setWorker w (.busy y iterBegin iterBegin 0))
  | store {y : F} {iterBegin iteration bucket : ℕ} {weso : FastAlgorithmCallback F} :
    s.workers w = .busy y iterBegin iteration bucket → iteration < iterBegin + 2 ^ 15 →
    bucket < s.weso.segments → s.weso.visit id y iteration bucket = .done weso →
    WorkStep r w s ({ s with weso := weso }.setWorker w (.busy y iterBegin iteration (bucket + 1)))
  | square {y : F} {iterBegin iteration bucket : ℕ} :
    s.workers w = .busy y iterBegin iteration bucket → iteration < iterBegin + 2 ^ 15 →
    ¬bucket < s.weso.segments →
    WorkStep r w s (s.setWorker w (.busy (r.nudupl y) iterBegin (iteration + 1) 0))
  | announce {y : F} {iterBegin iteration bucket : ℕ} {storage : FastStorage F} :
    s.workers w = .busy y iterBegin iteration bucket → ¬iteration < iterBegin + 2 ^ 15 →
    s.storage.addIntermediates iterBegin = .done storage →
    WorkStep r w s ({ s with storage := storage }.setWorker w .idle)

theorem work_cases {w : Fin FastStorage.intermediatesThreads} (run : s.work r w = .done t) :
    WorkStep r w s t := by
  unfold NWeso.work at run
  cases state : s.workers w with
  | idle =>
    simp only [state] at run
    cases pending : s.storage.pendingIntermediates with
    | nil =>
      simp only [pending] at run
      obtain rfl := Exec.done.inj run
      exact .wait state pending
    | cons entry entries =>
      simp only [pending] at run
      obtain rfl := Exec.done.inj run
      exact .take state pending
  | busy y iterBegin iteration bucket =>
    simp only [state] at run
    split_ifs at run with more inner
    · obtain ⟨weso, visit, last⟩ := Exec.bind_eq_done.mp run
      obtain rfl := Exec.done.inj last
      exact .store state more inner visit
    · obtain rfl := Exec.done.inj run
      exact .square state more inner
    · obtain ⟨storage, announce, last⟩ := Exec.bind_eq_done.mp run
      obtain rfl := Exec.done.inj last
      exact .announce state more announce

theorem Sound.work (sound : Sound IsPower r sent s) (nudupl : RepeatedSquare.Squares IsPower r.nudupl)
    {w : Fin FastStorage.intermediatesThreads} (run : s.work r w = .done t) : Sound IsPower r sent t := by
  have worker := sound.workers w
  cases work_cases run with
  | wait => exact sound
  | take state pending =>
    obtain ⟨whole, small, power⟩ := sound.pending _ (by rw [pending]; exact List.mem_cons_self)
    refine sound.setWorker ⟨rfl, rfl, rfl, List.Subset.refl _⟩ ⟨rfl, rfl⟩ ?_ sound.forms ?_
      fun n _ set => .inl set
    · rw [pending]
      exact List.subset_cons_self _ _
    · exact .busy whole small le_rfl (Nat.le_add_right _ _) power
        (fun bucket _ e le lt => absurd le (by omega)) fun b lt => absurd lt (Nat.not_lt_zero b)
  | @store y iterBegin iteration bucket weso state more inner visit =>
    rw [state] at worker
    cases worker with
    | busy whole small le le' power chunk part =>
      obtain ⟨sameS, sameM, sameY, grown, forms, stored⟩ := visit_stored visit power sound.forms
      refine sound.setWorker ⟨sameS, sameM, sameY, grown⟩ ⟨rfl, rfl⟩ (List.Subset.refl _) forms ?_
        fun n _ set => .inl set
      refine .busy whole small le le' power (chunk.mono sameS grown) fun b lt inside => ?_
      by_cases last : b = bucket
      · exact last ▸ stored
      · exact (part b (by omega) (sameS ▸ inside)).mono grown
  | @square y iterBegin iteration bucket state more inner =>
    rw [state] at worker
    cases worker with
    | busy whole small le le' power chunk part =>
      refine sound.setWorker ⟨rfl, rfl, rfl, List.Subset.refl _⟩ ⟨rfl, rfl⟩ (List.Subset.refl _)
        sound.forms ?_ fun n _ set => .inl set
      refine .busy whole small (by omega) (by omega) (nudupl _ _ power) ?_
        fun b lt => absurd lt (Nat.not_lt_zero b)
      intro b inside e first last
      by_cases old : e < iteration
      · exact chunk b inside e first old
      · obtain rfl : e = iteration := by omega
        exact part b (by omega) inside
  | @announce y iterBegin iteration bucket storage state more announce =>
    rw [state] at worker
    cases worker with
    | busy whole small le le' power chunk part =>
      obtain rfl := addIntermediates_eq small announce
      have done : iteration = iterBegin + 2 ^ 15 := by omega
      refine sound.setWorker ⟨rfl, rfl, rfl, List.Subset.refl _⟩ ⟨rfl, rfl⟩ (List.Subset.refl _)
        sound.forms .idle fun n multiple set => ?_
      by_cases same : flagOf n = flagOf iterBegin
      · obtain rfl := flagOf_injective multiple whole same
        exact .inr (done ▸ chunk)
      · dsimp only at set
        rw [Function.update_of_ne same] at set
        exact .inl set

theorem getFlag_done {storage : FastStorage F} {i : ℕ} (read : storage.getFlag i = .done true) :
    storage.intermediatesStored i = true := by
  unfold FastStorage.getFlag at read
  split_ifs at read
  exact Exec.done.inj read

/-- `GetFinishedSegment` advances by a part whose flags are set, or returns. -/
theorem getFinishedSegment_cases (run : s.getFinishedSegment = .done t) :
    (s.weso.multiProcMachine = true ∧ t = { s with storage :=
        { s.storage with intermediatesIter := s.storage.intermediatesIter + 2 ^ 16 } } ∧
      s.storage.intermediatesStored (2 * (s.storage.intermediatesIter / 2 ^ 16)) = true ∧
      s.storage.intermediatesStored (2 * (s.storage.intermediatesIter / 2 ^ 16) + 1) = true) ∨
    (s.weso.multiProcMachine = true ∧ t = { s with intermediatesIter := s.storage.intermediatesIter }) ∨
    (s.weso.multiProcMachine = false ∧ t = { s with intermediatesIter := s.vdfIteration }) := by
  unfold NWeso.getFinishedSegment at run
  split_ifs at run with multi
  · obtain ⟨first, readFirst, rest⟩ := Exec.bind_eq_done.mp run
    split_ifs at rest with set
    · obtain ⟨second, readSecond, last⟩ := Exec.bind_eq_done.mp rest
      split_ifs at last with set'
      · exact .inl ⟨multi, (Exec.done.inj last).symm, getFlag_done (set ▸ readFirst), getFlag_done (set' ▸ readSecond)⟩
      · exact .inr (.inl ⟨multi, (Exec.done.inj last).symm⟩)
    · exact .inr (.inl ⟨multi, (Exec.done.inj rest).symm⟩)
  · exact .inr (.inr ⟨by simpa using multi, (Exec.done.inj run).symm⟩)

/-- Both flags of a part of 2 ^ 16 iterations stand for its two chunks. -/
theorem Sound.getFinishedSegment (sound : Sound IsPower r sent s)
    (run : s.getFinishedSegment = .done t) : Sound IsPower r sent t := by
  obtain ⟨multiple, stored⟩ := sound.finished
  have wait : Sound IsPower r sent { s with intermediatesIter := s.storage.intermediatesIter } :=
    { sound with returned := ⟨multiple, le_rfl⟩ }
  rcases getFinishedSegment_cases run with ⟨-, rfl, first, second⟩ | ⟨-, rfl⟩ | ⟨single, -⟩
  · have even : flagOf s.storage.intermediatesIter = 2 * (s.storage.intermediatesIter / 2 ^ 16) := by
      unfold flagOf
      split_ifs <;> omega
    have odd : flagOf (s.storage.intermediatesIter + 2 ^ 15) =
        2 * (s.storage.intermediatesIter / 2 ^ 16) + 1 := by
      unfold flagOf
      split_ifs <;> omega
    have chunk := sound.flags s.storage.intermediatesIter (by omega) (even ▸ first)
    have chunk' := sound.flags (s.storage.intermediatesIter + 2 ^ 15) (by omega) (odd ▸ second)
    have whole : s.storage.intermediatesIter + 2 ^ 15 + 2 ^ 15 = s.storage.intermediatesIter + 2 ^ 16 := by
      omega
    rw [whole] at chunk'
    exact { sound with
      finished := ⟨by simp only; omega, stored.append (chunk.append chunk')⟩
      returned := ⟨sound.returned.1, sound.returned.2.trans (Nat.le_add_right _ _)⟩ }
  · exact wait
  · cases sound.multi.symm.trans single

theorem power2_done {bucket sgLength : ℕ} (run : FastAlgorithmCallback.power2 bucket = .done sgLength) :
    sgLength = segmentSize bucket := by
  unfold FastAlgorithmCallback.power2 at run
  split_ifs at run
  rw [← Exec.done.inj run, segmentSize, Nat.one_shiftLeft]

/-- A segment that has arrived is made, and both its checkpoints are looked up. -/
theorem appendSegment_cases {bucket : ℕ} (run : s.appendSegment bucket = .done t) : t = s ∨
    (bucket < s.weso.segments ∧ s.lastAppended bucket + segmentSize bucket ≤ s.intermediatesIter ∧
      (s.lastAppended bucket + segmentSize bucket) / 2 ^ 16 < FastAlgorithmCallback.checkpointsCapacity ∧
      t = { s with
        handed := s.handed ++ [(bucket, s.lastAppended bucket)]
        lastAppended := Function.update s.lastAppended bucket
          (s.lastAppended bucket + segmentSize bucket) }) := by
  unfold NWeso.appendSegment at run
  split_ifs at run with inside
  · obtain ⟨sgLength, length, rest⟩ := Exec.bind_eq_done.mp run
    obtain rfl := power2_done length
    split_ifs at rest with arrived
    · obtain ⟨x, -, rest⟩ := Exec.bind_eq_done.mp rest
      obtain ⟨y, look, last⟩ := Exec.bind_eq_done.mp rest
      unfold FastAlgorithmCallback.getCheckpoint at look
      split_ifs at look with room
      exact .inr ⟨inside, arrived, room, (Exec.done.inj last).symm⟩
    · exact .inl (Exec.done.inj rest).symm
  · exact .inl (Exec.done.inj run).symm

theorem prove_eq {iteration : ℕ} (run : s.prove iteration = .done t) : t = s := by
  unfold NWeso.prove at run
  split_ifs at run with reached
  · obtain ⟨y, -, rest⟩ := Exec.bind_eq_done.mp run
    exact (Exec.done.inj rest).symm
  · exact (Exec.done.inj run).symm

theorem Sound.other (sound : Sound IsPower r sent s) (nudupl : RepeatedSquare.Squares IsPower r.nudupl)
    {next : Step F} (noEvent : ∀ event, next ≠ .event event) (run : s.step r next = .done t) :
    Sound IsPower r sent t := by
  cases next with
  | event event => exact absurd rfl (noEvent event)
  | work w =>
    rw [NWeso.step, if_pos sound.multi] at run
    exact sound.work nudupl run
  | observe =>
    obtain rfl := Exec.done.inj run
    exact { sound with }
  | getFinishedSegment => exact sound.getFinishedSegment run
  | appendSegment bucket =>
    rcases appendSegment_cases run with rfl | ⟨-, -, -, rfl⟩
    · exact sound
    · exact { sound with }
  | prove iteration =>
    obtain rfl := prove_eq run
    exact sound

end Steps

section Run

variable {iterations : ℕ}

theorem fill_stored (f : F) (n : ℕ) (c : FastAlgorithmCallback F) (zero : IsPower 0 f)
    (right : ∀ entry ∈ c.stored, IsPower entry.1.2 entry.2) :
    ∀ entry ∈ (FastAlgorithmCallback.fill f n c).stored, IsPower entry.1.2 entry.2 := by
  induction n with
  | zero => exact right
  | succ n ih =>
    intro entry member
    rcases List.mem_cons.mp member with rfl | old
    · exact zero
    · exact ih entry old

theorem fill_frame (f : F) (n : ℕ) (c : FastAlgorithmCallback F) :
    (FastAlgorithmCallback.fill f n c).segments = c.segments ∧
      (FastAlgorithmCallback.fill f n c).multiProcMachine = c.multiProcMachine ∧
      (FastAlgorithmCallback.fill f n c).yRet = c.yRet ∧
      (FastAlgorithmCallback.fill f n c).iterations = c.iterations := by
  induction n with
  | zero => exact ⟨rfl, rfl, rfl, rfl⟩
  | succ n ih => exact ih

theorem start_eq {weso : FastAlgorithmCallback F} {multi : Bool}
    (run : FastAlgorithmCallback.start segments f multi = .done weso) :
    1 ≤ segments ∧ weso = FastAlgorithmCallback.fill f segments
      ⟨segments, multi, fun _ => none, fun i => if i = 0 then some f else none, f, 0, []⟩ := by
  unfold FastAlgorithmCallback.start at run
  split_ifs at run with few large
  exact ⟨by omega, (Exec.done.inj run).symm⟩

theorem Sound.start (zero : IsPower 0 f) {weso : FastAlgorithmCallback F}
    (run : FastAlgorithmCallback.start segments f true = .done weso) :
    Sound IsPower r [] (NWeso.start weso) := by
  obtain ⟨-, rfl⟩ := start_eq run
  obtain ⟨-, sameM, sameY, -⟩ := fill_frame f segments
    ⟨segments, true, fun _ => none, fun i => if i = 0 then some f else none, f, 0, []⟩
  constructor
  case multi => exact sameM
  case small => simp [indices]
  case yRet => exact ⟨0, dvd_zero _, by simp [indices], .first (by rw [NWeso.start, sameY]; exact zero)⟩
  case count => rfl
  case submitted => simp [NWeso.start, FastStorage.start]
  case pending => simp [NWeso.start, FastStorage.start]
  case workers => exact fun w => .idle
  case forms => exact fill_stored f segments _ zero (by simp)
  case flags => simp [NWeso.start, FastStorage.start]
  case finished => exact ⟨dvd_zero _, fun bucket _ e le lt => absurd lt (Nat.not_lt_zero e)⟩
  case returned => exact ⟨dvd_zero _, le_rfl⟩

/-- The calls made so far are calls of some run of the loop. -/
theorem Reachable.feed {multi : Bool} (reachable : Reachable IsPower r (mode multi iterations) segments f sent s)
    (square : RepeatedSquare.Squares IsPower r.square) (zero : IsPower 0 f) : Feed IsPower sent := by
  induction reachable with
  | start => exact .nil
  | event _ loop part _ _ =>
    obtain ⟨rest, whole⟩ := part
    have feed := (loop.boundary rfl square zero).feed
    rw [← whole] at feed
    exact feed.of_append
  | other _ _ _ ih => exact ih

theorem Reachable.sound (reachable : Reachable IsPower r (mode true iterations) segments f sent s)
    (right : r.Right IsPower) (zero : IsPower 0 f) : Sound IsPower r sent s := by
  induction reachable with
  | start run => exact Sound.start zero run
  | @event sent s t loop event before inner part run ih =>
    have feed := (before.event inner part run).feed right.square zero
    exact ih.event feed.last.2 right.setForm run
  | other _ noEvent run ih => exact ih.other right.nudupl noEvent run

section Frame

variable {c c' : FastAlgorithmCallback F} {setForm : F → F} {form : F} {iteration : ℕ}

theorem visits_frame {n : ℕ}
    (run : Exec.forLoop n (FastAlgorithmCallback.visit setForm form iteration) c = .done c') :
    c'.segments = c.segments ∧ c'.multiProcMachine = c.multiProcMachine ∧
      c'.iterations = c.iterations := by
  induction n generalizing c' with
  | zero =>
    obtain rfl := Exec.done.inj run
    exact ⟨rfl, rfl, rfl⟩
  | succ n ih =>
    obtain ⟨c₁, before, visit⟩ := Exec.bind_eq_done.mp run
    obtain ⟨sameS, sameM, sameI⟩ := ih before
    rcases FastAlgorithmCallback.visit_cases visit with ⟨-, rfl⟩ | ⟨-, pos, -, rfl⟩
    · exact ⟨sameS, sameM, sameI⟩
    · exact ⟨sameS, sameM, sameI⟩

theorem keepForms_frame (run : c.keepForms setForm form iteration = .done c') :
    c'.segments = c.segments ∧ c'.multiProcMachine = c.multiProcMachine ∧
      c'.iterations = c.iterations := by
  by_cases multi : c.multiProcMachine = true
  · obtain rfl := FastAlgorithmCallback.keepForms_multi multi run
    split_ifs <;> exact ⟨rfl, rfl, rfl⟩
  · rw [FastAlgorithmCallback.keepForms, if_neg multi] at run
    exact visits_frame run

end Frame

theorem work_frame {w : Fin FastStorage.intermediatesThreads} (run : s.work r w = .done t) :
    (t.weso.segments = s.weso.segments ∧ t.weso.multiProcMachine = s.weso.multiProcMachine ∧
      t.weso.iterations = s.weso.iterations) ∧
    t.storage.intermediatesIter = s.storage.intermediatesIter ∧ t.vdfIteration = s.vdfIteration ∧
    t.intermediatesIter = s.intermediatesIter ∧ t.lastAppended = s.lastAppended ∧ t.handed = s.handed := by
  cases work_cases run with
  | store _ _ _ visit =>
    rcases FastAlgorithmCallback.visit_cases visit with ⟨-, rfl⟩ | ⟨-, pos, -, rfl⟩
    · exact ⟨⟨rfl, rfl, rfl⟩, rfl, rfl, rfl, rfl, rfl⟩
    · exact ⟨⟨rfl, rfl, rfl⟩, rfl, rfl, rfl, rfl, rfl⟩
  | announce _ _ announce =>
    unfold FastStorage.addIntermediates at announce
    dsimp only at announce
    split_ifs at announce
    all_goals
      obtain rfl := Exec.done.inj announce
      exact ⟨⟨rfl, rfl, rfl⟩, rfl, rfl, rfl, rfl, rfl⟩
  | _ => exact ⟨⟨rfl, rfl, rfl⟩, rfl, rfl, rfl, rfl, rfl⟩

theorem step_frame {next : Step F} (run : s.step r next = .done t) :
    t.weso.segments = s.weso.segments ∧ t.weso.multiProcMachine = s.weso.multiProcMachine := by
  cases next with
  | event event =>
    cases event with
    | onIteration form i =>
      obtain ⟨weso, call, last⟩ := Exec.bind_eq_done.mp run
      obtain rfl := Exec.done.inj last
      obtain ⟨c₁, checkpoints, keep, rfl, -⟩ := FastAlgorithmCallback.onIteration_cases call
      obtain ⟨sameS, sameM, -⟩ := keepForms_frame keep
      exact ⟨sameS, sameM⟩
    | _ =>
      obtain rfl := Exec.done.inj run
      exact ⟨rfl, rfl⟩
  | work w =>
    rw [NWeso.step] at run
    split_ifs at run
    · obtain ⟨⟨sameS, sameM, -⟩, -⟩ := work_frame run
      exact ⟨sameS, sameM⟩
    · obtain rfl := Exec.done.inj run
      exact ⟨rfl, rfl⟩
  | observe =>
    obtain rfl := Exec.done.inj run
    exact ⟨rfl, rfl⟩
  | getFinishedSegment =>
    rcases getFinishedSegment_cases run with ⟨-, rfl, -⟩ | ⟨-, rfl⟩ | ⟨-, rfl⟩ <;> exact ⟨rfl, rfl⟩
  | appendSegment bucket =>
    rcases appendSegment_cases run with rfl | ⟨-, -, -, rfl⟩ <;> exact ⟨rfl, rfl⟩
  | prove iteration =>
    obtain rfl := prove_eq run
    exact ⟨rfl, rfl⟩

theorem Reachable.frame {multi : Bool} (reachable : Reachable IsPower r (mode multi iterations) segments f sent s) :
    s.weso.segments = segments ∧ s.weso.multiProcMachine = multi := by
  induction reachable with
  | start run =>
    obtain ⟨-, rfl⟩ := start_eq run
    obtain ⟨sameS, sameM, -⟩ := fill_frame f segments
      ⟨segments, multi, fun _ => none, fun i => if i = 0 then some f else none, f, 0, []⟩
    exact ⟨sameS, sameM⟩
  | event _ _ _ run ih =>
    obtain ⟨sameS, sameM⟩ := step_frame run
    exact ⟨sameS.trans ih.1, sameM.trans ih.2⟩
  | other _ _ run ih =>
    obtain ⟨sameS, sameM⟩ := step_frame run
    exact ⟨sameS.trans ih.1, sameM.trans ih.2⟩

end Run

/-- The submissions are the multiples of 2 ^ 15, one after the other. -/
theorem submissions_eq (feed : Feed IsPower sent) :
    submissions sent = (List.range (submissions sent).length).map (2 ^ 15 * ·) := by
  induction feed with
  | nil => rfl
  | @snoc sent event _ allowed ih =>
    cases allowed with
    | submitCheckpoint next _ _ =>
      have one (n : ℕ) : submissions [Event.submitCheckpoint (F := F) n] = [n] := rfl
      rw [RepeatedSquare.submissions_append, one, List.length_append, List.length_singleton,
        List.range_succ, List.map_append, ← ih, next]
      rfl
    | _ => simpa [submissions] using ih

end NWeso

end ChiaVdf
