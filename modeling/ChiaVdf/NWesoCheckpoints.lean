import ChiaVdf.NWesoSession

/-! The checkpoints of an n-weso session, and the segments that the event loop has made of them. -/
namespace ChiaVdf

open RepeatedSquare (Event Feed Covered iterations indices lastDelivered)

namespace FastAlgorithmCallback

variable {F : Type} {c c' : FastAlgorithmCallback F} {setForm : F → F} {form : F} {iteration bucket n : ℕ}

theorem visit_checkpoints (run : c.visit setForm form iteration bucket = .done c') :
    c'.checkpoints = c.checkpoints := by
  rcases visit_cases run with ⟨-, rfl⟩ | ⟨-, pos, -, rfl⟩ <;> rfl

theorem keepForms_checkpoints (run : c.keepForms setForm form iteration = .done c') :
    c'.checkpoints = c.checkpoints := by
  by_cases multi : c.multiProcMachine = true
  · obtain rfl := keepForms_multi multi run
    split_ifs <;> rfl
  · rw [keepForms, if_neg multi] at run
    generalize c.segments = n at run
    induction n generalizing c' with
    | zero => exact Exec.done.inj run ▸ rfl
    | succ n ih =>
      obtain ⟨c₁, before, visit⟩ := Exec.bind_eq_done.mp run
      exact (visit_checkpoints visit).trans (ih before)

theorem onIteration_checkpoints (run : c.onIteration setForm form iteration = .done c') :
    ((iteration + 1) % 2 ^ 16 ≠ 0 ∧ c'.checkpoints = c.checkpoints) ∨
      ∃ n, iteration + 1 = n * 2 ^ 16 ∧ n < checkpointsCapacity ∧
        c'.checkpoints = Function.update c.checkpoints n (some (setForm form)) := by
  obtain ⟨c₁, keep, rest⟩ := Exec.bind_eq_done.mp run
  have same := keepForms_checkpoints keep
  split_ifs at rest with multiple
  · unfold setCheckpoint at rest
    split_ifs at rest with inside
    obtain rfl := Exec.done.inj rest
    exact .inr ⟨_, (Nat.div_mul_cancel (Nat.dvd_of_mod_eq_zero multiple)).symm, inside, by rw [← same]⟩
  · obtain rfl := Exec.done.inj rest
    exact .inl ⟨multiple, same⟩

theorem fill_checkpoints (f : F) (n : ℕ) (c : FastAlgorithmCallback F) :
    (fill f n c).checkpoints = c.checkpoints := by
  induction n with
  | zero => rfl
  | succ n ih => exact ih

end FastAlgorithmCallback

namespace NWeso

variable {F : Type} {IsPower : ℕ → F → Prop} {r : Routines F} {segments limit : ℕ} {f : F} {multi : Bool}
  {sent : List (Event F)} {s t : NWeso F}

section Checkpoints

/-- Every checkpoint that a call was made for holds the form of the last such call. -/
structure Checkpoints (r : Routines F) (f : F) (sent : List (Event F)) (s : NWeso F) : Prop where
  zero : s.weso.checkpoints 0 = some f
  later : ∀ n m, m + 1 = n * 2 ^ 16 → m ∈ indices sent → n < FastAlgorithmCallback.checkpointsCapacity ∧
    ∃ form, lastDelivered m sent = some form ∧ s.weso.checkpoints n = some (r.setForm form)

theorem Checkpoints.event {event : Event F} (checkpoints : Checkpoints r f sent s)
    (run : s.handle r event = .done t) : Checkpoints r f (sent ++ [event]) t := by
  have silent (noCall : event.index? = none) (same : t.weso.checkpoints = s.weso.checkpoints) :
      Checkpoints r f (sent ++ [event]) t := by
    refine ⟨same ▸ checkpoints.zero, fun n m eq member => ?_⟩
    rw [RepeatedSquare.indices_append_of_noCall sent noCall] at member
    rw [lastDelivered_snoc_of_noCall _ noCall, same]
    exact checkpoints.later n m eq member
  cases event with
  | onIteration form i =>
    obtain ⟨weso, call, last⟩ := Exec.bind_eq_done.mp run
    obtain rfl := Exec.done.inj last
    rcases FastAlgorithmCallback.onIteration_checkpoints call with ⟨other, same⟩ | ⟨n, exact_n, inside, same⟩
    · refine ⟨same ▸ checkpoints.zero, fun n m eq member => ?_⟩
      have different : i ≠ m := by
        rintro rfl
        exact other (by rw [eq]; exact Nat.mul_mod_left ..)
      rw [lastDelivered_snoc, if_neg different, same]
      rcases RepeatedSquare.mem_indices_append_onIteration.mp member with old | new
      · exact checkpoints.later n m eq old
      · exact absurd new.symm different
    · constructor
      · have later : 0 ≠ n := by omega
        simp only [same, Function.update_of_ne later, checkpoints.zero]
      · intro n' m eq member
        rw [lastDelivered_snoc, same]
        by_cases here : i = m
        · subst here
          have equal : n' = n := by omega
          subst equal
          exact ⟨inside, form, if_pos rfl, Function.update_self ..⟩
        · have other : n' ≠ n := by omega
          rw [if_neg here, Function.update_of_ne other]
          rcases RepeatedSquare.mem_indices_append_onIteration.mp member with old | new
          · exact checkpoints.later n' m eq old
          · exact absurd new.symm here
  | _ =>
    obtain rfl := Exec.done.inj run
    exact silent rfl rfl

theorem other_checkpoints {next : Step F} (noEvent : ∀ event, next ≠ .event event) (run : s.step r next = .done t) :
    t.weso.checkpoints = s.weso.checkpoints := by
  cases next with
  | event event => exact absurd rfl (noEvent event)
  | work w =>
    rw [NWeso.step] at run
    split_ifs at run
    · cases work_cases run with
      | store _ _ _ visit => exact FastAlgorithmCallback.visit_checkpoints visit
      | _ => rfl
    · exact Exec.done.inj run ▸ rfl
  | observe => exact Exec.done.inj run ▸ rfl
  | getFinishedSegment =>
    rcases getFinishedSegment_cases run with ⟨-, rfl, -⟩ | ⟨-, rfl⟩ | ⟨-, rfl⟩ <;> rfl
  | appendSegment bucket => rcases appendSegment_cases run with rfl | ⟨-, -, -, rfl⟩ <;> rfl
  | prove iteration => exact prove_eq run ▸ rfl

theorem Reachable.checkpoints (reachable : Reachable IsPower r (mode multi limit) segments f sent s) :
    Checkpoints r f sent s := by
  induction reachable with
  | start run =>
    obtain ⟨-, rfl⟩ := start_eq run
    refine ⟨?_, by simp [indices]⟩
    rw [NWeso.start, FastAlgorithmCallback.fill_checkpoints]
    rfl
  | event _ _ _ run ih => exact ih.event run
  | other _ noEvent run ih =>
    have same := other_checkpoints noEvent run
    exact ⟨same ▸ ih.zero, same ▸ ih.later⟩

/-- The checkpoints of all iterations that were published are there, and right. -/
theorem Reachable.checkpoint (reachable : Reachable IsPower r (mode multi limit) segments f sent s)
    (right : r.Right IsPower) (zero : IsPower 0 f) {n : ℕ} (below : n * 2 ^ 16 ≤ s.weso.iterations) :
    n < FastAlgorithmCallback.checkpointsCapacity ∧
      ∃ form, s.weso.checkpoints n = some form ∧ IsPower (n * 2 ^ 16) form := by
  cases n with
  | zero => exact ⟨by decide, f, reachable.checkpoints.zero, by simpa using zero⟩
  | succ n =>
    have published := (reachable.handed right.square zero).published
    obtain ⟨form, last, power⟩ := covered_iterations (reachable.feed right.square zero)
      ((n + 1) * 2 ^ 16 - 1) (by omega)
    obtain ⟨inside, form', last', found⟩ := reachable.checkpoints.later (n + 1) ((n + 1) * 2 ^ 16 - 1) (by omega)
      (RepeatedSquare.mem_indices_of_lastDelivered last)
    obtain rfl := Option.some.inj (last.symm.trans last')
    rw [show (n + 1) * 2 ^ 16 - 1 + 1 = (n + 1) * 2 ^ 16 by omega] at power
    exact ⟨inside, _, found, right.setForm _ _ power⟩

end Checkpoints

section Append

variable {i n : ℕ}

/-- Every segment in front of the one to be made next was made. -/
def AllMade (s : NWeso F) : Prop :=
  ∀ i k, k * segmentSize i < s.lastAppended i → (i, k * segmentSize i) ∈ s.handed

/-- What the event loop leaves alone while it makes segments. -/
structure SameMemory (s t : NWeso F) : Prop where
  weso : t.weso = s.weso
  storage : t.storage = s.storage
  vdfIteration : t.vdfIteration = s.vdfIteration
  intermediatesIter : t.intermediatesIter = s.intermediatesIter

/-- A segment is made exactly when it has arrived. -/
theorem appendSegment_arrived (inside : i < s.weso.segments) (run : s.appendSegment i = .done t) :
    (s.lastAppended i + segmentSize i ≤ s.intermediatesIter ∧ t = { s with
        handed := s.handed ++ [(i, s.lastAppended i)]
        lastAppended := Function.update s.lastAppended i (s.lastAppended i + segmentSize i) }) ∨
      (¬s.lastAppended i + segmentSize i ≤ s.intermediatesIter ∧ t = s) := by
  unfold NWeso.appendSegment at run
  rw [if_pos inside] at run
  obtain ⟨sgLength, length, rest⟩ := Exec.bind_eq_done.mp run
  obtain rfl := power2_done length
  split_ifs at rest with arrived
  · obtain ⟨x, -, rest⟩ := Exec.bind_eq_done.mp rest
    obtain ⟨y, -, last⟩ := Exec.bind_eq_done.mp rest
    exact .inl ⟨arrived, (Exec.done.inj last).symm⟩
  · exact .inr ⟨arrived, (Exec.done.inj rest).symm⟩

theorem AllMade.appendSegment (made : AllMade s) (whole : segmentSize i ∣ s.lastAppended i)
    (run : s.appendSegment i = .done t) : AllMade t := by
  rcases appendSegment_cases run with rfl | ⟨-, -, -, rfl⟩
  · exact made
  · intro j k lt
    by_cases same : j = i
    · subst same
      obtain ⟨m, eq⟩ := whole
      simp only [Function.update_self, eq] at lt ⊢
      rw [Nat.mul_comm (segmentSize j), ← Nat.succ_mul] at lt
      rcases Nat.lt_succ_iff_lt_or_eq.mp (Nat.lt_of_mul_lt_mul_right lt) with before | rfl
      · exact List.mem_append_left _ (made j k (by
          rw [eq, Nat.mul_comm (segmentSize j)]
          exact Nat.mul_lt_mul_of_pos_right before segmentSize_pos))
      · exact List.mem_append_right _ (by rw [Nat.mul_comm]; exact List.mem_singleton.mpr rfl)
    · simp only [Function.update_of_ne same] at lt
      exact List.mem_append_left _ (made j k lt)

theorem appendLoop_spec (inside : i < s.weso.segments)
    (run : Exec.forLoop n (fun _ t => t.appendSegment i) s = .done t) :
    SameMemory s t ∧ t.lastAppended = Function.update s.lastAppended i
      (s.lastAppended i + min n ((s.intermediatesIter - s.lastAppended i) / segmentSize i) * segmentSize i) := by
  induction n generalizing t with
  | zero =>
    obtain rfl := Exec.done.inj run
    exact ⟨⟨rfl, rfl, rfl, rfl⟩, by simp⟩
  | succ n ih =>
    obtain ⟨u, before, last⟩ := Exec.bind_eq_done.mp run
    obtain ⟨memory, counted⟩ := ih before
    generalize total : (s.intermediatesIter - s.lastAppended i) / segmentSize i = count at counted ⊢
    have at_i : u.lastAppended i = s.lastAppended i + min n count * segmentSize i := by
      rw [counted, Function.update_self]
    -- There is a turn to do as long as `n` is below the count.
    have more : u.lastAppended i + segmentSize i ≤ u.intermediatesIter ↔ n < count := by
      rw [at_i, memory.intermediatesIter, ← total, ← Nat.succ_le_iff, Nat.le_div_iff_mul_le segmentSize_pos, total]
      have least := Nat.div_mul_le_self (s.intermediatesIter - s.lastAppended i) (segmentSize i)
      rw [total] at least
      rcases le_total n count with le | le
      · rw [min_eq_left le, Nat.succ_mul]
        have positive : 0 < segmentSize i := segmentSize_pos
        omega
      · have most : s.intermediatesIter - s.lastAppended i < count * segmentSize i + segmentSize i := by
          rw [← total]
          exact Nat.lt_div_mul_add segmentSize_pos
        have longer := Nat.mul_le_mul_right (segmentSize i) le
        rw [min_eq_right le, Nat.succ_mul]
        have positive : 0 < segmentSize i := segmentSize_pos
        omega
    rcases appendSegment_arrived (memory.weso ▸ inside) last with ⟨arrived, rfl⟩ | ⟨arrived, rfl⟩
    · have lt := more.mp arrived
      refine ⟨⟨memory.weso, memory.storage, memory.vdfIteration, memory.intermediatesIter⟩, ?_⟩
      simp only [at_i, counted, Function.update_idem, min_eq_left lt.le, min_eq_left (Nat.succ_le_of_lt lt),
        Nat.succ_mul, Nat.add_assoc]
    · rw [more, not_lt] at arrived
      refine ⟨memory, ?_⟩
      rw [counted, min_eq_right arrived, min_eq_right (by omega)]

/-- A property that every new segment keeps. -/
theorem appendLoop_keeps {Keeps : NWeso F → Prop} (start : Keeps s)
    (step : ∀ {u v}, Keeps u → u.appendSegment i = .done v → Keeps v)
    (run : Exec.forLoop n (fun _ t => t.appendSegment i) s = .done t) : Keeps t := by
  induction n generalizing t with
  | zero => exact Exec.done.inj run ▸ start
  | succ n ih =>
    obtain ⟨u, before, last⟩ := Exec.bind_eq_done.mp run
    exact step (ih before) last

theorem appendSegments_spec {s t : NWeso Form} (run : NWesoSession.appendSegments s = .done t) :
    SameMemory s t ∧ ∀ i, t.lastAppended i = if i < s.weso.segments then
      s.lastAppended i + (s.intermediatesIter - s.lastAppended i) / segmentSize i * segmentSize i
      else s.lastAppended i := by
  have partly {n : ℕ} {u : NWeso Form} (le : n ≤ s.weso.segments) (run : Exec.forLoop n (fun i t =>
      Exec.forLoop (s.intermediatesIter / segmentSize i + 1) (fun _ t => t.appendSegment i) t) s = .done u) :
      SameMemory s u ∧ ∀ i, u.lastAppended i = if i < n then
        s.lastAppended i + (s.intermediatesIter - s.lastAppended i) / segmentSize i * segmentSize i
        else s.lastAppended i := by
    induction n generalizing u with
    | zero =>
      obtain rfl := Exec.done.inj run
      exact ⟨⟨rfl, rfl, rfl, rfl⟩, fun i => by simp⟩
    | succ n ih =>
      obtain ⟨v, before, last⟩ := Exec.bind_eq_done.mp run
      obtain ⟨memory, counted⟩ := ih (by omega) before
      obtain ⟨memory', counted'⟩ := appendLoop_spec (by rw [memory.weso]; omega) last
      refine ⟨⟨memory'.weso.trans memory.weso, memory'.storage.trans memory.storage,
        memory'.vdfIteration.trans memory.vdfIteration, memory'.intermediatesIter.trans memory.intermediatesIter⟩,
        fun i => ?_⟩
      rw [counted']
      by_cases here : i = n
      · subst here
        have enough := Nat.div_le_div_right (c := segmentSize i) (Nat.sub_le s.intermediatesIter (s.lastAppended i))
        rw [Function.update_self, counted, if_neg (lt_irrefl i), if_pos (Nat.lt_succ_self i),
          memory.intermediatesIter, min_eq_right (by omega)]
      · rw [Function.update_of_ne here, counted]
        have same : i < n + 1 ↔ i < n := by omega
        simp only [same]
  exact partly le_rfl run

theorem appendSegments_keeps (Keeps : NWeso Form → Prop) {s t : NWeso Form} (start : Keeps s)
    (step : ∀ {i u v}, Keeps u → u.appendSegment i = .done v → Keeps v)
    (run : NWesoSession.appendSegments s = .done t) : Keeps t := by
  unfold NWesoSession.appendSegments at run
  generalize s.weso.segments = n at run
  induction n generalizing t with
  | zero => exact Exec.done.inj run ▸ start
  | succ n ih =>
    obtain ⟨u, before, last⟩ := Exec.bind_eq_done.mp run
    exact appendLoop_keeps (ih before) step last

end Append

end NWeso

end ChiaVdf
