import ChiaVdf.ProveSelection

/-! Where the segments of a `ProverManager` come from: one step makes segments out of checkpoints, moves them,
and adds proofs to those whose provers are finished. -/
namespace ChiaVdf

namespace ProverManager

variable {F : Type} {m t : ProverManager F} {forms : Forms F} {event : Event} {new : List (Segment F)}
  {next total : ℕ → ℕ}

/-- A prover as it was, for all that its proof is about. -/
structure SameEnds (p q : Segment F) : Prop where
  key : q.key = p.key
  x : q.x = p.x
  y : q.y = p.y

/-- What one step makes of the segments. -/
structure Comes (forms : Forms F) (event : Event) (m t : ProverManager F) : Prop where
  pending : ∀ i, ∀ s ∈ t.pendingSegments i, s ∈ m.pendingSegments i ∨ ∃ n, event = .append n ∧ m.phase = .appending ∧
    i < m.segmentCount ∧ s ∈ newSegments forms (segmentSize i) n (n / segmentSize i + 1) (m.lastAppended i)
  provers : ∀ q ∈ t.provers, (∃ i, q.segment ∈ m.pendingSegments i ∧ q.isFinished = false) ∨
    ∃ (j : ℕ) (p : SegmentProver F), m.provers[j]? = some p ∧ SameEnds p.segment q.segment ∧
      (q.isFinished = true → p.isFinished = true ∨ event = .finish j)
  done : ∀ i, ∀ s ∈ t.doneSegments i, s.isEmpty = false → s ∈ m.doneSegments i ∨
    ∃ p ∈ m.provers, p.isFinished = true ∧
      s = { p.segment with proof := some (forms.prove p.segment.start p.segment.length) }
  segmentCount : t.segmentCount = m.segmentCount
  lastAppended : (∀ n, event ≠ .append n) → t.lastAppended = m.lastAppended

theorem SameEnds.refl (p : Segment F) : SameEnds p p := ⟨rfl, rfl, rfl⟩

theorem Comes.of_same (same : SamePlaces m t) : Comes forms event m t where
  pending i s member := .inl (same.pendingSegments ▸ member)
  provers q member := by
    rw [same.provers] at member
    obtain ⟨j, entry⟩ := List.mem_iff_getElem?.mp member
    exact .inr ⟨j, q, entry, .refl _, .inl⟩
  done i s member _ := .inl (same.doneSegments ▸ member)
  segmentCount := same.segmentCount
  lastAppended _ := same.lastAppended

theorem Comes.modify {f : SegmentProver F → SegmentProver F} (j : ℕ) (ends : ∀ p, SameEnds p.segment (f p).segment)
    (finished : ∀ p, (f p).isFinished = true → p.isFinished = true ∨ event = .finish j)
    (same : SamePlaces { m with provers := m.provers.modify j f } t) : Comes forms event m t where
  pending i s member := .inl (same.pendingSegments ▸ member)
  provers q member := by
    rw [same.provers] at member
    obtain ⟨n, entry⟩ := List.mem_iff_getElem?.mp member
    rw [List.getElem?_modify] at entry
    obtain ⟨p, at_n, rfl⟩ := Option.map_eq_some_iff.mp entry
    refine .inr ⟨n, p, at_n, ?_⟩
    by_cases here : j = n
    · subst here
      simpa using ⟨ends p, finished p⟩
    · simpa [here] using ⟨SameEnds.refl p.segment, fun done => .inl done⟩
  done i s member _ := .inl (same.doneSegments ▸ member)
  segmentCount := same.segmentCount
  lastAppended _ := same.lastAppended

theorem Comes.collect (j : ℕ) (newSmall : Bool) : Comes forms .collect m (m.collect forms j newSmall) := by
  unfold ProverManager.collect
  split
  · split_ifs
    · have same := samePlaces_updateProving (m := m)
      exact .of_same ⟨same.segmentCount, same.provers, same.pendingSegments, same.lastAppended, same.doneSegments⟩
    · exact .of_same ⟨rfl, rfl, rfl, rfl, rfl⟩
  · next p entry =>
    have member := List.mem_of_getElem? entry
    dsimp only
    have recorded (finished : p.isFinished = true) {i : ℕ} {s : Segment F}
        (listed : s ∈ Function.update m.doneSegments (getSegmentBucket p.segment.length)
          (ProverManager.record (m.doneSegments (getSegmentBucket p.segment.length))
            (p.segment.start / p.segment.length)
            { p.segment with proof := some (forms.prove p.segment.start p.segment.length) }) i)
        (full : s.isEmpty = false) : s ∈ m.doneSegments i ∨ ∃ p ∈ m.provers, p.isFinished = true ∧
          s = { p.segment with proof := some (forms.prove p.segment.start p.segment.length) } := by
      by_cases here : i = getSegmentBucket p.segment.length
      · subst here
        rw [Function.update_self] at listed
        obtain ⟨n, at_n⟩ := List.mem_iff_getElem?.mp listed
        rcases (record_iff full).mp at_n with ⟨-, rfl⟩ | ⟨-, old⟩
        · exact .inr ⟨p, member, finished, rfl⟩
        · exact .inl (List.mem_of_getElem? old)
      · rw [Function.update_of_ne here] at listed
        exact .inl listed
    split_ifs with finished fully
    · exact {
        pending := fun _ _ => .inl
        provers := by
          intro q inside
          obtain ⟨n, at_n⟩ := List.mem_iff_getElem?.mp ((List.eraseIdx_sublist ..).subset inside)
          exact .inr ⟨n, q, at_n, .refl _, .inl⟩
        done := fun i s listed full => recorded finished listed full
        segmentCount := rfl
        lastAppended := fun _ => rfl }
    · exact {
        pending := fun _ _ => .inl
        provers := by
          intro q inside
          rcases List.mem_or_eq_of_mem_set inside with old | rfl
          · obtain ⟨n, at_n⟩ := List.mem_iff_getElem?.mp old
            exact .inr ⟨n, q, at_n, .refl _, .inl⟩
          · exact .inr ⟨j, p, entry, ⟨rfl, rfl, rfl⟩, .inl⟩
        done := fun i s listed full => recorded finished listed full
        segmentCount := rfl
        lastAppended := fun _ => rfl }
    · exact .of_same ⟨rfl, rfl, rfl, rfl, rfl⟩

/-- A prover that goes on, or a new one for a segment that was pending. -/
theorem Comes.spawn {s : Segment F} {source : Source} (source_of : From m (s, source))
    (same : SamePlaces (m.spawn s source).1 t) : Comes forms .schedule m t := by
  cases source_of with
  | @paused i p entry paused =>
    exact .modify (f := fun p => { p with isPaused := false }) i (fun p => ⟨rfl, rfl, rfl⟩) (fun p done => .inl done)
      same
  | @pending i s inside front =>
    exact {
      pending := by
        intro i' s' member
        rw [same.pendingSegments] at member
        refine .inl ?_
        by_cases here : i' = i
        · subst here
          simp only [ProverManager.spawn, Function.update_self] at member
          exact List.mem_of_mem_tail member
        · simpa only [ProverManager.spawn, Function.update_of_ne here] using member
      provers := by
        intro q member
        rw [same.provers] at member
        rcases List.mem_append.mp member with old | new
        · obtain ⟨n, at_n⟩ := List.mem_iff_getElem?.mp old
          exact .inr ⟨n, q, at_n, .refl _, .inl⟩
        · obtain rfl := List.mem_singleton.mp new
          exact .inl ⟨i, List.mem_of_head? front, rfl⟩
      done := fun _ _ member _ => .inl (same.doneSegments ▸ member)
      segmentCount := same.segmentCount
      lastAppended := fun _ => same.lastAppended }

theorem Comes.of_setPaused {j : ℕ} {isPaused : Bool} (comes : Comes forms event (m.setPaused j isPaused) t) :
    Comes forms event m t := by
  have unpaused {n : ℕ} {p : SegmentProver F} (entry : (m.setPaused j isPaused).provers[n]? = some p) :
      ∃ q, m.provers[n]? = some q ∧ p.segment = q.segment ∧ p.isFinished = q.isFinished := by
    rw [ProverManager.setPaused, List.getElem?_modify] at entry
    obtain ⟨q, at_n, rfl⟩ := Option.map_eq_some_iff.mp entry
    refine ⟨q, at_n, ?_⟩
    split_ifs <;> exact ⟨rfl, rfl⟩
  exact {
    pending := comes.pending
    provers := by
      intro q member
      rcases comes.provers q member with fresh | ⟨n, p, entry, ends, finished⟩
      · exact .inl fresh
      · obtain ⟨p', entry', segment, isFinished⟩ := unpaused entry
        exact .inr ⟨n, p', entry', segment ▸ ends, isFinished ▸ finished⟩
    done := by
      intro i s member full
      rcases comes.done i s member full with old | ⟨p, owner, finished, eq⟩
      · exact .inl old
      · obtain ⟨n, entry⟩ := List.mem_iff_getElem?.mp owner
        obtain ⟨p', entry', segment, isFinished⟩ := unpaused entry
        exact .inr ⟨p', List.mem_of_getElem? entry', isFinished ▸ finished, segment ▸ eq⟩
    segmentCount := comes.segmentCount
    lastAppended := comes.lastAppended }

theorem From.pause {c : Segment F × Source} (source_of : From m c) (j : ℕ) : From (m.setPaused j true) c := by
  cases source_of with
  | @paused i p entry paused =>
    refine .paused ?_ paused
    rw [ProverManager.setPaused, List.getElem?_modify, entry]
    split_ifs
    · simp [← paused]
    · rfl
  | pending inside front => exact .pending inside front

theorem Comes.schedule {a : ℕ} (places : Places m next total) (run : m.schedule a = .done (t, new)) :
    Comes forms .schedule m t := by
  unfold ProverManager.schedule at run
  dsimp only at run
  by_cases none : m.best.1.isEmpty = true
  · rw [if_pos none] at run
    obtain ⟨rfl, -⟩ := Prod.mk.inj (Exec.done.inj run)
    exact .of_same ⟨rfl, rfl, rfl, rfl, rfl⟩
  · have source_of : From m m.best := by
      rcases best_spec places with ⟨nothing, -⟩ | ⟨-, source_of, -⟩
      · exact absurd nothing none
      · exact source_of
    rw [if_neg none] at run
    generalize m.best = found at source_of run
    obtain ⟨s, source⟩ := found
    split_ifs at run with free worse
    · have spawned : _ = t := congrArg Prod.fst (Exec.done.inj run)
      refine .spawn source_of ?_
      subst spawned
      cases source <;> exact ⟨rfl, rfl, rfl, rfl, rfl⟩
    · split at run
      · next index _ =>
        have spawned : _ = t := congrArg Prod.fst (Exec.done.inj run)
        refine .of_setPaused (.spawn (source_of.pause index) ?_)
        subst spawned
        exact ⟨rfl, rfl, rfl, rfl, rfl⟩
      · cases run
    · obtain ⟨rfl, -⟩ := Prod.mk.inj (Exec.done.inj run)
      exact .of_same ⟨rfl, rfl, rfl, rfl, rfl⟩

theorem Comes.append {n : ℕ} (phase : m.phase = .appending) :
    Comes forms (.append n) m (m.append forms n) where
  pending i s member := by
    simp only [ProverManager.append] at member
    split_ifs at member with inside
    · rcases List.mem_append.mp member with old | arrived
      · exact .inl old
      · exact .inr ⟨n, rfl, phase, inside, arrived⟩
    · exact .inl member
  provers q member := by
    obtain ⟨j, entry⟩ := List.mem_iff_getElem?.mp member
    exact .inr ⟨j, q, entry, .refl _, .inl⟩
  done _ _ member _ := .inl member
  segmentCount := rfl
  lastAppended other := absurd rfl (other n)

theorem step_comes (places : Places m next total) (run : m.step forms event = .done (t, new)) :
    Comes forms event m t := by
  have idle {s : ProverManager F} (run : (.done (s, []) : Exec (ProverManager F × List (Segment F))) = .done (t, new))
      (same : SamePlaces m s) : Comes forms event m t := by
    obtain ⟨rfl, -⟩ := Prod.mk.inj (Exec.done.inj run)
    exact .of_same same
  cases event with
  | finish i =>
    obtain ⟨rfl, -⟩ := Prod.mk.inj (Exec.done.inj run)
    exact .modify (f := fun p => { p with isFinished := true }) i (fun p => ⟨rfl, rfl, rfl⟩) (fun _ _ => .inr rfl)
      ⟨rfl, rfl, rfl, rfl, rfl⟩
  | fullyFinish i =>
    obtain ⟨rfl, -⟩ := Prod.mk.inj (Exec.done.inj run)
    exact .modify (f := fun p => { p with isFullyFinished := p.isFullyFinished || p.isFinished }) i
      (fun p => ⟨rfl, rfl, rfl⟩) (fun _ done => .inl done) ⟨rfl, rfl, rfl, rfl, rfl⟩
  | wake vdfIteration =>
    rw [step] at run
    split at run <;> exact idle run ⟨rfl, rfl, rfl, rfl, rfl⟩
  | collect =>
    rw [step] at run
    split at run
    · obtain ⟨rfl, -⟩ := Prod.mk.inj (Exec.done.inj run)
      exact .collect _ _
    · exact idle run ⟨rfl, rfl, rfl, rfl, rfl⟩
  | append n =>
    rw [step] at run
    split at run
    · next phase =>
      obtain ⟨rfl, -⟩ := Prod.mk.inj (Exec.done.inj run)
      exact .append phase
    · exact idle run ⟨rfl, rfl, rfl, rfl, rfl⟩
  | schedule =>
    rw [step] at run
    split at run
    · exact .schedule places run
    · exact idle run ⟨rfl, rfl, rfl, rfl, rfl⟩
  | request iteration =>
    rw [step] at run
    split at run <;> exact idle run ⟨rfl, rfl, rfl, rfl, rfl⟩
  | erase iteration =>
    rw [step] at run
    split at run <;> exact idle run ⟨rfl, rfl, rfl, rfl, rfl⟩

section Arrived

variable {i n fuel last : ℕ} {s : Segment F}

theorem length_newSegments : (newSegments forms (segmentSize i) n fuel last).length =
    min fuel ((n - last) / segmentSize i) := by
  induction fuel generalizing last with
  | zero => simp [newSegments]
  | succ fuel ih =>
    have positive : 0 < segmentSize i := segmentSize_pos
    rw [newSegments]
    split_ifs with arrived
    · have more : n - last = n - (last + segmentSize i) + segmentSize i := by omega
      rw [List.length_cons, ih, more, Nat.add_div_right _ positive, Nat.succ_min_succ]
    · rw [Nat.div_eq_of_lt (by omega), Nat.min_zero, List.length_nil]

/-- A new segment goes from one checkpoint to another, both of which have been reached. -/
theorem mem_newSegments (whole : segmentSize i ∣ last)
    (member : s ∈ newSegments forms (segmentSize i) n fuel last) :
    segmentSize i ∣ s.start ∧ s.length = segmentSize i ∧ s.start + s.length ≤ n ∧
      s.x = some (forms.checkpoints (s.start / 2 ^ 16)) ∧
      s.y = some (forms.checkpoints ((s.start + s.length) / 2 ^ 16)) := by
  induction fuel generalizing last with
  | zero => cases member
  | succ fuel ih =>
    rw [newSegments] at member
    split_ifs at member with arrived
    · rcases List.mem_cons.mp member with rfl | later
      · exact ⟨whole, rfl, arrived, rfl, rfl⟩
      · exact ih (Nat.dvd_add_self_right.mpr whole) later
    · cases member

end Arrived

end ProverManager

end ChiaVdf
