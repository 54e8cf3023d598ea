import Mathlib.Data.Prod.Lex
import ChiaVdf.ProverSegments

/-! Which provers run. The scheduling loop starts the best waiting segment while a thread is free, and then
swaps it with the worst running one as long as that one is worse. -/
namespace ChiaVdf

namespace ProverManager

variable {F : Type}

/-- Shorter segments come first, and of one length the earlier ones. -/
def Segment.rank (s : Segment F) : ℕ ×ₗ ℕ := toLex (s.length, s.start)

/-- `w` waits for a thread. -/
def Waits (m : ProverManager F) (w : Segment F) : Prop :=
  (∃ p ∈ m.provers, p.isPaused = true ∧ p.segment = w) ∨ ∃ i < m.segmentCount, w ∈ m.pendingSegments i

def running (m : ProverManager F) : ℕ := m.provers.countP fun p => !p.isPaused

section Search

variable {m : ProverManager F} {next total : ℕ → ℕ} {s t w : Segment F} {i : ℕ}

theorem isWorseThan_iff (full : s.isEmpty = false) : s.isWorseThan t = true ↔ t.rank < s.rank := by
  rw [Segment.isWorseThan, full, Segment.rank, Segment.rank, Prod.Lex.toLex_lt_toLex]
  simp only [Bool.false_eq_true, if_false]
  split_ifs with longer shorter
  · simp [longer]
  · simp only [false_iff]
    omega
  · rw [decide_eq_true_eq]
    omega

/-- The search over a list of segments, none of them empty, finds a best one. -/
theorem foldl_best {α : Type} (seg : α → Segment F) (l : List α) (start : α) (full : ∀ a ∈ l, (seg a).isEmpty = false) :
    let found := l.foldl (fun best new => if (seg best).isWorseThan (seg new) then new else best) start
    (found = start ∧ ((seg start).isEmpty = true → l = []) ∨ found ∈ l) ∧
      ((seg start).isEmpty = false → (seg found).rank ≤ (seg start).rank) ∧
      ∀ a ∈ l, (seg found).rank ≤ (seg a).rank := by
  induction l generalizing start with
  | nil => exact ⟨.inl ⟨rfl, fun _ => rfl⟩, fun _ => le_rfl, by simp⟩
  | cons head l ih =>
    have full_head := full head (List.mem_cons_self ..)
    have full_l : ∀ a ∈ l, (seg a).isEmpty = false := fun a member => full a (List.mem_cons_of_mem _ member)
    rw [List.foldl_cons]
    by_cases worse : (seg start).isWorseThan (seg head) = true
    · rw [if_pos worse]
      obtain ⟨found, le, least⟩ := ih head full_l
      refine ⟨.inr ?_, fun full_start => ?_, fun a member => ?_⟩
      · rcases found with ⟨same, -⟩ | member
        · rw [same]
          exact List.mem_cons_self ..
        · exact List.mem_cons_of_mem _ member
      · exact (le full_head).trans ((isWorseThan_iff full_start).mp worse).le
      · rcases List.mem_cons.mp member with rfl | later
        · exact le full_head
        · exact least a later
    · rw [if_neg worse]
      have full_start : (seg start).isEmpty = false := by
        by_contra empty
        rw [Segment.isWorseThan, if_pos (by simpa using empty), full_head] at worse
        exact worse rfl
      have le_head : (seg start).rank ≤ (seg head).rank := by
        rw [isWorseThan_iff full_start] at worse
        exact not_lt.mp worse
      obtain ⟨found, le, least⟩ := ih start full_l
      refine ⟨?_, le, fun a member => ?_⟩
      · rcases found with ⟨same, -⟩ | member
        · exact .inl ⟨same, fun empty => by simp [full_start] at empty⟩
        · exact .inr (List.mem_cons_of_mem _ member)
      · rcases List.mem_cons.mp member with rfl | later
        · exact (le full_start).trans le_head
        · exact least a later

/-- Where a candidate comes from. -/
inductive From (m : ProverManager F) : Segment F × Source → Prop where
  | paused {i : ℕ} {p : SegmentProver F} : m.provers[i]? = some p → p.isPaused = true → From m (p.segment, .paused i)
  | pending {i : ℕ} {s : Segment F} : i < m.segmentCount → (m.pendingSegments i).head? = some s →
      From m (s, .pending i)

theorem mem_candidates {c : Segment F × Source} : c ∈ m.candidates ↔ From m c := by
  rw [candidates, List.mem_append, List.mem_filterMap, List.mem_filterMap]
  constructor
  · rintro (⟨⟨p, i⟩, member, eq⟩ | ⟨i, member, eq⟩)
    · dsimp only at eq
      split_ifs at eq with paused
      obtain rfl := Option.some.inj eq
      exact .paused (List.mem_zipIdx_iff_getElem?.mp member) paused
    · obtain ⟨s, front, rfl⟩ := Option.map_eq_some_iff.mp eq
      exact .pending (List.mem_range.mp member) front
  · intro source
    cases source with
    | @paused i p entry paused => exact .inl ⟨(p, i), List.mem_zipIdx_iff_getElem?.mpr entry, by simp [paused]⟩
    | @pending i s inside front => exact .inr ⟨i, List.mem_range.mpr inside, by simp [front]⟩

theorem best_spec (places : Places m next total) :
    (m.best.1.isEmpty = true ∧ ∀ w, ¬m.Waits w) ∨
      m.best.1.isEmpty = false ∧ From m m.best ∧ ∀ w, m.Waits w → m.best.1.rank ≤ w.rank := by
  have full : ∀ c ∈ m.candidates, c.1.isEmpty = false := by
    intro c member
    cases mem_candidates.mp member with
    | paused entry paused =>
      obtain ⟨i, k, -, seg⟩ := places.owned _ (List.mem_of_getElem? entry)
      exact seg.2
    | pending inside front => exact (places.head front).1.2
  have listed {w : Segment F} (waits : m.Waits w) : ∃ c ∈ m.candidates, c.1.rank ≤ w.rank := by
    rcases waits with ⟨p, member, paused, rfl⟩ | ⟨i, inside, member⟩
    · obtain ⟨n, bound, rfl⟩ := List.getElem_of_mem member
      exact ⟨_, mem_candidates.mpr (.paused (List.getElem?_eq_getElem bound) paused), le_rfl⟩
    · obtain ⟨s, rest, eq⟩ := List.exists_cons_of_ne_nil (List.ne_nil_of_mem member)
      have front : (m.pendingSegments i).head? = some s := by rw [eq, List.head?_cons]
      refine ⟨_, mem_candidates.mpr (.pending inside front), ?_⟩
      have at_s := (places.head front).1
      have pend : w.key ∈ (List.range' (next i) (total i - next i)).map (segKey i) :=
        places.pending i ▸ List.mem_map_of_mem member
      obtain ⟨k, range, key⟩ := List.mem_map.mp pend
      have at_w : IsSeg i k w := ⟨key.symm, places.full i w member⟩
      rw [Segment.rank, Segment.rank, at_s.length, at_w.length, at_s.start, at_w.start]
      refine Prod.Lex.toLex_le_toLex.mpr (.inr ⟨rfl, ?_⟩)
      exact Nat.mul_le_mul_right _ (List.mem_range'_1.mp range).1
  obtain ⟨found, -, least⟩ := foldl_best Prod.fst m.candidates (Segment.empty, .pending 0) full
  rcases found with ⟨same, none⟩ | member
  · refine .inl ⟨congrArg (fun c => c.1.isEmpty) same, fun w waits => ?_⟩
    obtain ⟨c, member, -⟩ := listed waits
    rw [none rfl] at member
    cases member
  · refine .inr ⟨full _ member, mem_candidates.mp member, fun w waits => ?_⟩
    obtain ⟨c, listed, le⟩ := listed waits
    exact (least c listed).trans le

theorem foldl_worst (l : List (SegmentProver F × ℕ)) (start : Segment F × Option ℕ)
    (full : ∀ a ∈ l, a.1.segment.isEmpty = false) :
    let found := l.foldl (fun worst new =>
      if worst.1.isEmpty || new.1.segment.isWorseThan worst.1 then (new.1.segment, some new.2) else worst) start
    (found = start ∧ (start.1.isEmpty = true → l = []) ∨ ∃ a ∈ l, found = (a.1.segment, some a.2)) ∧
      (start.1.isEmpty = false → start.1.rank ≤ found.1.rank) ∧ ∀ a ∈ l, a.1.segment.rank ≤ found.1.rank := by
  induction l generalizing start with
  | nil => exact ⟨.inl ⟨rfl, fun _ => rfl⟩, fun _ => le_rfl, by simp⟩
  | cons head l ih =>
    have full_head := full head (List.mem_cons_self ..)
    have full_l : ∀ a ∈ l, a.1.segment.isEmpty = false := fun a member => full a (List.mem_cons_of_mem _ member)
    rw [List.foldl_cons]
    by_cases worse : (start.1.isEmpty || head.1.segment.isWorseThan start.1) = true
    · rw [if_pos worse]
      obtain ⟨found, le, most⟩ := ih (head.1.segment, some head.2) full_l
      refine ⟨.inr ?_, fun full_start => ?_, fun a member => ?_⟩
      · rcases found with ⟨same, -⟩ | ⟨a, member, same⟩
        · exact ⟨head, List.mem_cons_self .., same⟩
        · exact ⟨a, List.mem_cons_of_mem _ member, same⟩
      · rw [full_start, Bool.false_or, isWorseThan_iff full_head] at worse
        exact worse.le.trans (le full_head)
      · rcases List.mem_cons.mp member with rfl | later
        · exact le full_head
        · exact most a later
    · rw [if_neg worse]
      rw [Bool.or_eq_true, not_or, Bool.not_eq_true, isWorseThan_iff full_head, not_lt] at worse
      obtain ⟨full_start, le_start⟩ := worse
      obtain ⟨found, le, most⟩ := ih start full_l
      refine ⟨?_, le, fun a member => ?_⟩
      · rcases found with ⟨same, -⟩ | ⟨a, member, same⟩
        · exact .inl ⟨same, fun empty => by simp [full_start] at empty⟩
        · exact .inr ⟨a, List.mem_cons_of_mem _ member, same⟩
      · rcases List.mem_cons.mp member with rfl | later
        · exact le_start.trans (le full_start)
        · exact most a later

theorem worstRunning_spec (places : Places m next total) (some_run : 0 < m.running) :
    ∃ i p, m.worstRunning = (p.segment, some i) ∧ m.provers[i]? = some p ∧ p.isPaused = false ∧
      ∀ q ∈ m.provers, q.isPaused = false → q.segment.rank ≤ p.segment.rank := by
  have mem_list {a : SegmentProver F × ℕ} : (a ∈ m.provers.zipIdx.filter fun entry => !entry.1.isPaused) ↔
      m.provers[a.2]? = some a.1 ∧ a.1.isPaused = false := by
    rw [List.mem_filter, List.mem_zipIdx_iff_getElem?]
    simp
  obtain ⟨found, -, most⟩ := foldl_worst (m.provers.zipIdx.filter fun entry => !entry.1.isPaused)
    (Segment.empty, none) (by
      intro a member
      obtain ⟨i, k, -, seg⟩ := places.owned _ (List.mem_of_getElem? (mem_list.mp member).1)
      exact seg.2)
  have listed {q : SegmentProver F} (member : q ∈ m.provers) (runs : q.isPaused = false) :
      ∃ n, (q, n) ∈ m.provers.zipIdx.filter fun entry => !entry.1.isPaused := by
    obtain ⟨n, bound, rfl⟩ := List.getElem_of_mem member
    exact ⟨n, mem_list.mpr ⟨List.getElem?_eq_getElem bound, runs⟩⟩
  rcases found with ⟨-, none⟩ | ⟨⟨p, i⟩, member, same⟩
  · obtain ⟨q, member, runs⟩ := List.countP_pos_iff.mp some_run
    obtain ⟨n, inside⟩ := listed member (by simpa using runs)
    rw [none rfl] at inside
    cases inside
  · obtain ⟨entry, runs⟩ := mem_list.mp member
    refine ⟨i, p, same, entry, runs, fun q owner runs' => ?_⟩
    obtain ⟨n, inside⟩ := listed owner runs'
    have le := most (q, n) inside
    rw [same] at le
    exact le

end Search

section Spawn

variable {m : ProverManager F} {next total : ℕ → ℕ} {log : List (Segment F)} {s : Segment F} {source : Source}
  {p : SegmentProver F} {i j n : ℕ}

theorem countP_modify {α : Type} {c : α → Bool} {f : α → α} {l : List α} {a : α} (entry : l[i]? = some a) :
    (l.modify i f).countP c + (if c a then 1 else 0) = l.countP c + if c (f a) then 1 else 0 := by
  induction l generalizing i with
  | nil => simp at entry
  | cons head l ih =>
    cases i with
    | zero =>
      obtain rfl := Option.some.inj entry
      rw [List.modify_zero_cons, List.countP_cons, List.countP_cons]
      omega
    | succ i =>
      have rest := ih (i := i) entry
      rw [List.modify_succ_cons, List.countP_cons, List.countP_cons]
      omega

theorem running_resume (entry : m.provers[i]? = some p) (paused : p.isPaused = true) :
    (m.setPaused i false).running = m.running + 1 := by
  have count := countP_modify (c := fun p => !p.isPaused) (f := fun p => { p with isPaused := false }) entry
  simpa [running, ProverManager.setPaused, paused] using count

theorem running_pause (entry : m.provers[i]? = some p) (runs : p.isPaused = false) :
    (m.setPaused i true).running + 1 = m.running := by
  have count := countP_modify (c := fun p => !p.isPaused) (f := fun p => { p with isPaused := true }) entry
  simpa [running, ProverManager.setPaused, runs] using count

theorem running_spawn (source_of : From m (s, source)) : (m.spawn s source).1.running = m.running + 1 := by
  cases source_of with
  | paused entry paused => exact running_resume entry paused
  | pending inside front =>
    rw [running, spawn, List.countP_append]
    rfl

theorem From.setPaused {c : Segment F × Source} (source_of : From m c) (entry : m.provers[j]? = some p)
    (runs : p.isPaused = false) : From (m.setPaused j true) c := by
  cases source_of with
  | @paused i q entry' paused =>
    have other : j ≠ i := by
      rintro rfl
      obtain rfl := Option.some.inj (entry.symm.trans entry')
      rw [runs] at paused
      cases paused
    refine .paused ?_ paused
    rw [ProverManager.setPaused, List.getElem?_modify_ne _ _ other]
    exact entry'
  | pending inside front => exact .pending inside front

theorem From.congr {t : ProverManager F} {c : Segment F × Source} (source_of : From m c) (same : SamePlaces m t) :
    From t c := by
  cases source_of with
  | paused entry paused => exact .paused (by rwa [same.provers]) paused
  | pending inside front => exact .pending (by rwa [same.segmentCount]) (by rwa [same.pendingSegments])

theorem spawn_frame (s : Segment F) (source : Source) :
    (m.spawn s source).1.maxProvingThreads = m.maxProvingThreads ∧ (m.spawn s source).1.phase = m.phase := by
  cases source <;> exact ⟨rfl, rfl⟩

/-- The segments for which provers were made. -/
structure Logged (log : List (Segment F)) (next : ℕ → ℕ) : Prop where
  once : (log.map Segment.key).Nodup
  mem : ∀ key, key ∈ log.map Segment.key ↔ ∃ i k, k < next i ∧ key = segKey i k

theorem Places.spawn (places : Places m next total) (logged : Logged log next) (source_of : From m (s, source)) :
    ∃ next', Places (m.spawn s source).1 next' total ∧ Logged (log ++ (m.spawn s source).2) next' := by
  cases source_of with
  | @paused i p entry paused =>
    refine ⟨next, places.setPaused i false, ?_⟩
    rw [ProverManager.spawn, List.append_nil]
    exact logged
  | @pending i s inside front =>
    refine ⟨Function.update next i (next i + 1), places.spawn_pending front, ?_⟩
    have seg := (places.head front).1
    have fresh : s.key ∉ log.map Segment.key := by
      intro member
      obtain ⟨i', k', lt, key⟩ := (logged.mem _).mp member
      obtain ⟨rfl, rfl⟩ := segKey_inj.mp (seg.1.symm.trans key)
      exact absurd lt (lt_irrefl _)
    rw [ProverManager.spawn]
    exact {
      once := by
        rw [List.map_append, List.map_singleton]
        refine List.nodup_append.mpr ⟨logged.once, List.nodup_singleton _, ?_⟩
        rintro key member key' new rfl
        exact fresh (List.mem_singleton.mp new ▸ member)
      mem := by
        intro key
        rw [List.map_append, List.map_singleton, List.mem_append, List.mem_singleton, logged.mem]
        constructor
        · rintro (⟨i', k', lt, eq⟩ | rfl)
          · refine ⟨i', k', ?_, eq⟩
            by_cases here : i' = i
            · subst here
              rw [Function.update_self]
              omega
            · rwa [Function.update_of_ne here]
          · exact ⟨i, next i, by rw [Function.update_self]; omega, seg.1⟩
        · rintro ⟨i', k', lt, rfl⟩
          by_cases here : i' = i
          · subst here
            rw [Function.update_self] at lt
            by_cases last : k' = next i'
            · exact .inr (last ▸ seg.1.symm)
            · exact .inl ⟨i', k', by omega, rfl⟩
          · rw [Function.update_of_ne here] at lt
            exact .inl ⟨i', k', lt, rfl⟩ }

end Spawn

section Threads

variable {m t : ProverManager F} {next total : ℕ → ℕ} {log new : List (Segment F)} {forms : Forms F} {event : Event}
  {a : ℕ}

/-- No segment that waits is better than a running one, and if one waits then all threads are in use. -/
structure Settled (m : ProverManager F) : Prop where
  best : ∀ w, m.Waits w → ∀ p ∈ m.provers, p.isPaused = false → p.segment.rank ≤ w.rank
  full : ∀ w, m.Waits w → m.running = m.maxProvingThreads

/-- The number of running provers, as the scheduling loop counts it. -/
structure Threads (m : ProverManager F) : Prop where
  positive : 0 < m.maxProvingThreads
  few : m.running ≤ m.maxProvingThreads
  active : ∀ a, m.phase = .scheduling a → a = m.running
  settled : m.phase = .waiting → Settled m

theorem Places.spawn_threads {s : Segment F} {source : Source} (places : Places m next total)
    (logged : Logged log next) (source_of : From m (s, source)) (positive : 0 < m.maxProvingThreads)
    (room : m.running < m.maxProvingThreads) (phase : m.phase = .scheduling (m.running + 1)) :
    (∃ next', Places (m.spawn s source).1 next' total ∧ Logged (log ++ (m.spawn s source).2) next') ∧
      Threads (m.spawn s source).1 := by
  refine ⟨places.spawn logged source_of, ?_⟩
  have count := running_spawn source_of
  obtain ⟨limit, now⟩ := spawn_frame (m := m) s source
  exact {
    positive := by rw [limit]; exact positive
    few := by rw [count, limit]; exact room
    active := by
      intro a phase'
      rw [now, phase] at phase'
      rw [count]
      exact (Phase.scheduling.inj phase').symm
    settled := fun waiting => by rw [now, phase] at waiting; cases waiting }

theorem schedule_free {a : ℕ} (found : m.best.1.isEmpty = false) (free : a < m.maxProvingThreads) :
    m.schedule a = .done ({ m with phase := .scheduling (a + 1) }.spawn m.best.1 m.best.2) := by
  simp [schedule, found, free]

theorem schedule_pause {a i : ℕ} {s : Segment F} (found : m.best.1.isEmpty = false)
    (full : ¬a < m.maxProvingThreads) (worst : m.worstRunning = (s, some i))
    (worse : s.isWorseThan m.best.1 = true) :
    m.schedule a = .done ((m.setPaused i true).spawn m.best.1 m.best.2) := by
  simp [schedule, found, full, worst, worse]

theorem schedule_wait {a i : ℕ} {s : Segment F} (found : m.best.1.isEmpty = false)
    (full : ¬a < m.maxProvingThreads) (worst : m.worstRunning = (s, some i))
    (better : ¬s.isWorseThan m.best.1 = true) :
    m.schedule a = .done ({ m with phase := .waiting }, []) := by
  simp [schedule, found, full, worst, better]

/-- A turn of the scheduling loop ends it in a settled state, or starts the best waiting segment. -/
theorem schedule_spec (places : Places m next total) (threads : Threads m) (logged : Logged log next)
    (phase : m.phase = .scheduling a) : ∃ t new, m.schedule a = .done (t, new) ∧
      (∃ next', Places t next' total ∧ Logged (log ++ new) next') ∧ Threads t := by
  obtain rfl := threads.active a phase
  rcases best_spec places with ⟨none, nothing⟩ | ⟨found, source_of, least⟩
  · refine ⟨{ m with phase := .waiting }, [], by rw [schedule]; exact if_pos none, ⟨next, ?_, ?_⟩, ?_⟩
    · exact places.congr ⟨rfl, rfl, rfl, rfl, rfl⟩
    · rwa [List.append_nil]
    · exact {
        positive := threads.positive
        few := threads.few
        active := by simp
        settled := fun _ => ⟨fun w waits => absurd waits (nothing w), fun w waits => absurd waits (nothing w)⟩ }
  · have found : m.best.1.isEmpty = false := by simpa using found
    by_cases free : m.running < m.maxProvingThreads
    · rw [schedule_free found free]
      have same : SamePlaces m { m with phase := .scheduling (m.running + 1) } := ⟨rfl, rfl, rfl, rfl, rfl⟩
      have spawned := (places.congr same).spawn_threads logged (source_of.congr same) threads.positive free rfl
      exact ⟨_, _, Prod.eta _ ▸ rfl, spawned⟩
    · obtain ⟨i, p, worst, entry, runs, most⟩ := worstRunning_spec places (by have := threads.positive; omega)
      obtain ⟨j, k, -, seg⟩ := places.owned p (List.mem_of_getElem? entry)
      by_cases worse : p.segment.isWorseThan m.best.1 = true
      · rw [schedule_pause found free worst worse]
        have paused := running_pause entry runs
        have room : (m.setPaused i true).running < m.maxProvingThreads := by
          have few := threads.few
          omega
        have spawned := (places.setPaused i true).spawn_threads logged (source_of.setPaused entry runs)
          threads.positive room (by rw [paused]; exact phase)
        exact ⟨_, _, Prod.eta _ ▸ rfl, spawned⟩
      · rw [schedule_wait found free worst worse]
        refine ⟨{ m with phase := .waiting }, [], rfl, ⟨next, ?_, ?_⟩, ?_⟩
        · exact places.congr ⟨rfl, rfl, rfl, rfl, rfl⟩
        · rwa [List.append_nil]
        · rw [isWorseThan_iff seg.2, not_lt] at worse
          exact {
            positive := threads.positive
            few := threads.few
            active := by simp
            settled := fun _ => {
              best := fun w waits q owner runs' => ((most q owner runs').trans worse).trans (least w waits)
              full := fun _ _ => le_antisymm threads.few (not_lt.mp free) } }

/-- What scheduling sees of a prover. -/
def view (l : List (SegmentProver F)) : List (Segment F × Bool) := l.map fun p => (p.segment, p.isPaused)

theorem running_eq_view : m.running = (view m.provers).countP fun v => !v.2 := by
  rw [running, view, List.countP_map]
  rfl

theorem view_modify (f : SegmentProver F → SegmentProver F)
    (same : ∀ p, (f p).segment = p.segment ∧ (f p).isPaused = p.isPaused) (l : List (SegmentProver F)) (i : ℕ) :
    view (l.modify i f) = view l := by
  induction l generalizing i with
  | nil => rw [List.modify_nil]
  | cons p l ih =>
    cases i with
    | zero =>
      rw [List.modify_zero_cons, view, view, List.map_cons, List.map_cons, (same p).1, (same p).2]
    | succ i =>
      have rest := ih i
      rw [view, view] at rest
      rw [List.modify_succ_cons, view, view, List.map_cons, List.map_cons, rest]

theorem mem_view {l : List (SegmentProver F)} {s : Segment F} {paused : Bool} :
    (s, paused) ∈ view l ↔ ∃ p ∈ l, p.isPaused = paused ∧ p.segment = s := by
  rw [view, List.mem_map]
  simp only [Prod.mk.injEq, and_comm]

/-- Nothing changes for the threads while the provers are seen as before. -/
theorem Threads.congr (threads : Threads m) (provers : view t.provers = view m.provers)
    (pending : t.pendingSegments = m.pendingSegments) (count : t.segmentCount = m.segmentCount)
    (limit : t.maxProvingThreads = m.maxProvingThreads) (phase : t.phase = m.phase) : Threads t := by
  have same : t.running = m.running := by rw [running_eq_view, running_eq_view, provers]
  have waits {w : Segment F} (waits : t.Waits w) : m.Waits w := by
    rcases waits with paused | ⟨i, inside, member⟩
    · exact .inl (mem_view.mp (provers ▸ mem_view.mpr paused))
    · exact .inr ⟨i, count ▸ inside, pending ▸ member⟩
  exact {
    positive := limit ▸ threads.positive
    few := by rw [same, limit]; exact threads.few
    active := by rw [same, phase]; exact threads.active
    settled := by
      rw [phase]
      intro waiting
      have settled := threads.settled waiting
      exact {
        best := by
          intro w waits' p member runs
          obtain ⟨q, member', runs', eq⟩ := mem_view.mp (provers ▸ mem_view.mpr ⟨p, member, runs, rfl⟩)
          exact eq ▸ settled.best w (waits waits') q member' runs'
        full := by
          intro w waits'
          rw [same, limit]
          exact settled.full w (waits waits') } }

/-- While the event loop collects or appends, only the number of threads matters. -/
theorem Threads.busy (positive : 0 < t.maxProvingThreads) (few : t.running ≤ t.maxProvingThreads)
    (phase : t.phase ≠ .waiting) (active : ∀ a, t.phase = .scheduling a → a = t.running) : Threads t :=
  ⟨positive, few, active, fun waiting => absurd waiting phase⟩

theorem maxProvingThreads_updateProving : m.updateProving.maxProvingThreads = m.maxProvingThreads := by
  unfold updateProving
  dsimp only
  split
  · split_ifs <;> rfl
  · rfl

theorem Threads.collect (threads : Threads m) (j : ℕ) (newSmall : Bool) :
    Threads (m.collect forms j newSmall) := by
  unfold ProverManager.collect
  split
  · split_ifs
    · have same := samePlaces_updateProving (m := m)
      have few := threads.few
      rw [← maxProvingThreads_updateProving] at few
      refine .busy ?_ ?_ (by simp) (by simp)
      · rw [maxProvingThreads_updateProving]
        exact threads.positive
      · rw [running, same.provers]
        exact few
    · exact .busy threads.positive threads.few (by simp) (by simp)
  · next p entry =>
    dsimp only
    split_ifs
    · exact .busy threads.positive (((List.eraseIdx_sublist ..).countP_le).trans threads.few) (by simp) (by simp)
    · refine .busy threads.positive ?_ (by simp) (by simp)
      obtain ⟨inside, rfl⟩ := List.getElem?_eq_some_iff.mp entry
      refine le_trans (le_of_eq ?_) threads.few
      rw [running, running, List.countP_set inside]
      split_ifs with runs
      · have some_run : 0 < m.provers.countP fun p => !p.isPaused :=
          List.countP_pos_iff.mpr ⟨_, List.getElem_mem inside, runs⟩
        omega
      · omega
    · exact .busy threads.positive threads.few (by simp) (by simp)

end Threads

section Runs

variable {m t : ProverManager F} {next total : ℕ → ℕ} {log new : List (Segment F)} {forms : Forms F} {event : Event}
  {segmentCount maxProvingThreads : ℕ} {multiProcMachine : Bool}

/-- A state that is reached, with the segments for which provers were made. -/
inductive Run (forms : Forms F) (segmentCount maxProvingThreads : ℕ) (multiProcMachine : Bool) :
    ProverManager F → List (Segment F) → Prop where
  | init : Run forms segmentCount maxProvingThreads multiProcMachine
      (init segmentCount maxProvingThreads multiProcMachine) []
  | step {m t : ProverManager F} {log new : List (Segment F)} (event : Event) :
      Run forms segmentCount maxProvingThreads multiProcMachine m log → m.step forms event = .done (t, new) →
      Run forms segmentCount maxProvingThreads multiProcMachine t (log ++ new)

variable (forms) in
/-- Every step keeps the segments in their places and the threads within their number. -/
theorem step_spec (places : Places m next total) (threads : Threads m) (logged : Logged log next) (event : Event) :
    ∃ t new, m.step forms event = .done (t, new) ∧
      (∃ next' total', Places t next' total' ∧ Logged (log ++ new) next') ∧ Threads t := by
  have idle : (∃ next' total', Places m next' total' ∧ Logged (log ++ []) next') ∧ Threads m :=
    ⟨⟨next, total, places, by rwa [List.append_nil]⟩, threads⟩
  cases event with
  | finish i =>
    refine ⟨_, _, rfl, ⟨next, total, ?_, by rwa [List.append_nil]⟩, ?_⟩
    · exact places.provers (forall₂_modify (fun p => { p with isFinished := true }) (fun _ => ⟨rfl, rfl, fun _ => rfl⟩)
        m.provers i)
    · exact threads.congr (view_modify (fun p => { p with isFinished := true }) (fun _ => ⟨rfl, rfl⟩) _ _) rfl rfl rfl
        rfl
  | fullyFinish i =>
    refine ⟨_, _, rfl, ⟨next, total, ?_, by rwa [List.append_nil]⟩, ?_⟩
    · exact places.provers (forall₂_modify (fun p => { p with
        isFullyFinished := p.isFullyFinished || p.isFinished }) (fun _ => ⟨rfl, rfl, id⟩) m.provers i)
    · exact threads.congr (view_modify (fun p => { p with isFullyFinished := p.isFullyFinished || p.isFinished })
        (fun _ => ⟨rfl, rfl⟩) _ _) rfl rfl rfl rfl
  | wake vdfIteration =>
    rw [step]
    cases phase : m.phase with
    | waiting =>
      refine ⟨_, _, rfl, ⟨next, total, ?_, by rwa [List.append_nil]⟩, ?_⟩
      · exact places.congr ⟨rfl, rfl, rfl, rfl, rfl⟩
      · have positive := threads.positive
        have few := threads.few
        refine .busy ?_ ?_ (by simp [wake]) (by simp [wake])
        · rw [wake]
          dsimp only
          split_ifs <;> omega
        · rw [wake, running]
          dsimp only
          rw [running] at few
          split_ifs <;> omega
    | _ => exact ⟨m, [], rfl, idle⟩
  | collect =>
    rw [step]
    cases phase : m.phase with
    | collecting i newSmall =>
      exact ⟨_, _, rfl, ⟨next, total, places.collect newSmall, by rwa [List.append_nil]⟩, threads.collect i newSmall⟩
    | _ => exact ⟨m, [], rfl, idle⟩
  | append intermediatesIter =>
    rw [step]
    cases phase : m.phase with
    | appending =>
      obtain ⟨total', places'⟩ := places.append forms (n := intermediatesIter)
      refine ⟨_, _, rfl, ⟨next, total', places', by rwa [List.append_nil]⟩, ?_⟩
      exact .busy threads.positive threads.few (by simp [ProverManager.append])
        (by simp [ProverManager.append, running])
    | _ => exact ⟨m, [], rfl, idle⟩
  | schedule =>
    rw [step]
    cases phase : m.phase with
    | scheduling a =>
      obtain ⟨t, new, run, ⟨next', places', logged'⟩, threads'⟩ := schedule_spec places threads logged phase
      exact ⟨t, new, run, ⟨next', total, places', logged'⟩, threads'⟩
    | _ => exact ⟨m, [], rfl, idle⟩
  | request iteration =>
    rw [step]
    cases phase : m.phase with
    | collecting => exact ⟨m, [], rfl, idle⟩
    | _ =>
      refine ⟨_, _, rfl, ⟨next, total, ?_, by rwa [List.append_nil]⟩, ?_⟩
      · exact places.congr ⟨rfl, rfl, rfl, rfl, rfl⟩
      · exact threads.congr rfl rfl rfl rfl phase.symm
  | erase iteration =>
    rw [step]
    cases phase : m.phase with
    | collecting => exact ⟨m, [], rfl, idle⟩
    | _ =>
      refine ⟨_, _, rfl, ⟨next, total, ?_, by rwa [List.append_nil]⟩, ?_⟩
      · exact places.congr ⟨rfl, rfl, rfl, rfl, rfl⟩
      · exact threads.congr rfl rfl rfl rfl phase.symm

theorem Run.spec (run : Run forms segmentCount maxProvingThreads multiProcMachine m log)
    (positive : 0 < maxProvingThreads) :
    (∃ next total, Places m next total ∧ Logged log next) ∧ Threads m := by
  induction run with
  | init =>
    refine ⟨⟨fun _ => 0, fun _ => 0, ?_, ⟨List.nodup_nil, by simp⟩⟩, ?_⟩
    · exact {
        le := fun _ => le_rfl
        beyond := fun _ _ => rfl
        appended := fun _ => (Nat.zero_mul _).symm
        pending := fun _ => rfl
        full := by simp [ProverManager.init]
        owned := by simp [ProverManager.init]
        once := List.nodup_nil
        done := by simp [ProverManager.init]
        cover := by simp
        both := by simp [ProverManager.init] }
    · exact {
        positive := positive
        few := Nat.zero_le _
        active := by simp [ProverManager.init]
        settled := fun _ => {
          best := by simp [ProverManager.init]
          full := by simp [Waits, ProverManager.init] } }
  | step event run step ih =>
    obtain ⟨⟨next, total, places, logged⟩, threads⟩ := ih
    obtain ⟨t, new, step', rest⟩ := step_spec forms places threads logged event
    obtain ⟨rfl, rfl⟩ := Prod.mk.inj (Exec.done.inj (step.symm.trans step'))
    exact ⟨rest.1.imp fun next' ⟨total', both⟩ => ⟨total', both⟩, rest.2⟩

def createdKeys (m : ProverManager F) : List (ℕ × ℕ) :=
  (List.range m.segmentCount).flatMap fun i => (List.range (m.lastAppended i / segmentSize i)).map (segKey i)

def pendingKeys (m : ProverManager F) : List (ℕ × ℕ) :=
  (List.range m.segmentCount).flatMap fun i => (m.pendingSegments i).map Segment.key

def ownedKeys (m : ProverManager F) : List (ℕ × ℕ) := m.provers.map fun p => p.segment.key

def doneKeys (m : ProverManager F) : List (ℕ × ℕ) :=
  (List.range m.segmentCount).flatMap fun i => ((m.doneSegments i).filter fun s => !s.isEmpty).map Segment.key

/-- The scheduling invariant; `log` are the segments for which provers were made, in order. Only a segment
whose prover is finished is at its prover and done. -/
structure Sound (m : ProverManager F) (log : List (Segment F)) : Prop where
  created : ∀ key, key ∈ m.createdKeys ↔ key ∈ m.pendingKeys ∨ key ∈ m.ownedKeys ∨ key ∈ m.doneKeys
  once : (m.pendingKeys ++ m.ownedKeys).Nodup
  doneOnce : m.doneKeys.Nodup
  pendingNotDone : ∀ key ∈ m.pendingKeys, key ∉ m.doneKeys
  ownedAndDone : ∀ p ∈ m.provers, p.segment.key ∈ m.doneKeys → p.isFinished = true
  startedOnce : (log.map Segment.key).Nodup
  started : ∀ key, key ∈ log.map Segment.key ↔ key ∈ m.ownedKeys ∨ key ∈ m.doneKeys
  threads : m.running ≤ m.maxProvingThreads
  best : m.phase = .waiting → ∀ w, m.Waits w → ∀ p ∈ m.provers, p.isPaused = false →
    ¬(w.length < p.segment.length ∨ w.length = p.segment.length ∧ w.start < p.segment.start)
  full : m.phase = .waiting → ∀ w, m.Waits w → m.running = m.maxProvingThreads

theorem Places.mem_created (places : Places m next total) {key : ℕ × ℕ} :
    key ∈ m.createdKeys ↔ ∃ i k, k < total i ∧ key = segKey i k := by
  rw [createdKeys, List.mem_flatMap]
  constructor
  · rintro ⟨i, -, member⟩
    obtain ⟨k, inside, rfl⟩ := List.mem_map.mp member
    rw [places.appended, Nat.mul_div_cancel _ segmentSize_pos, List.mem_range] at inside
    exact ⟨i, k, inside, rfl⟩
  · rintro ⟨i, k, lt, rfl⟩
    refine ⟨i, List.mem_range.mpr ?_, List.mem_map_of_mem ?_⟩
    · by_contra beyond
      rw [places.beyond i (not_lt.mp beyond)] at lt
      cases lt
    · rwa [places.appended, Nat.mul_div_cancel _ segmentSize_pos, List.mem_range]

theorem Places.mem_pending (places : Places m next total) {key : ℕ × ℕ} :
    key ∈ m.pendingKeys ↔ ∃ i k, next i ≤ k ∧ k < total i ∧ key = segKey i k := by
  rw [pendingKeys, List.mem_flatMap]
  constructor
  · rintro ⟨i, -, member⟩
    rw [places.pending] at member
    obtain ⟨k, inside, rfl⟩ := List.mem_map.mp member
    obtain ⟨le, lt⟩ := List.mem_range'_1.mp inside
    exact ⟨i, k, le, by omega, rfl⟩
  · rintro ⟨i, k, le, lt, rfl⟩
    refine ⟨i, List.mem_range.mpr ?_, ?_⟩
    · by_contra beyond
      rw [places.beyond i (not_lt.mp beyond)] at lt
      cases lt
    · rw [places.pending]
      exact List.mem_map_of_mem (List.mem_range'_1.mpr ⟨le, by omega⟩)

theorem Places.mem_owned (places : Places m next total) {key : ℕ × ℕ} :
    key ∈ m.ownedKeys ↔ ∃ i k, key = segKey i k ∧ ∃ p ∈ m.provers, IsSeg i k p.segment := by
  rw [ownedKeys, List.mem_map]
  constructor
  · rintro ⟨p, member, rfl⟩
    obtain ⟨i, k, -, seg⟩ := places.owned p member
    exact ⟨i, k, seg.1, p, member, seg⟩
  · rintro ⟨i, k, rfl, p, member, seg⟩
    exact ⟨p, member, seg.1⟩

theorem Places.mem_done (places : Places m next total) {key : ℕ × ℕ} :
    key ∈ m.doneKeys ↔ ∃ i k, key = segKey i k ∧ m.IsDone i k := by
  rw [doneKeys, List.mem_flatMap]
  constructor
  · rintro ⟨i, -, member⟩
    obtain ⟨s, inside, rfl⟩ := List.mem_map.mp member
    obtain ⟨listed, full⟩ := List.mem_filter.mp inside
    obtain ⟨k, bound, rfl⟩ := List.getElem_of_mem listed
    have entry := List.getElem?_eq_getElem bound
    have full' : (m.doneSegments i)[k].isEmpty = false := by simpa using full
    exact ⟨i, k, (places.done entry full').2.1, _, entry, full'⟩
  · rintro ⟨i, k, rfl, s, entry, full⟩
    obtain ⟨lt, key, -⟩ := places.done entry full
    refine ⟨i, List.mem_range.mpr ?_, key ▸ List.mem_map_of_mem ?_⟩
    · by_contra beyond
      have le := places.le i
      rw [places.beyond i (not_lt.mp beyond)] at le
      omega
    · exact List.mem_filter.mpr ⟨List.mem_of_getElem? entry, by simp [full]⟩

theorem nodup_flatMap_keys {f : ℕ → List (ℕ × ℕ)} (count : ℕ) (each : ∀ i, (f i).Nodup)
    (size : ∀ i, ∀ key ∈ f i, key.2 = segmentSize i) : ((List.range count).flatMap f).Nodup := by
  refine List.nodup_flatMap.mpr ⟨fun i _ => each i, ?_⟩
  refine List.nodup_range.imp fun {i j} other key at_i at_j => other ?_
  exact segmentSize_injective ((size i key at_i).symm.trans (size j key at_j))

theorem Places.sound (places : Places m next total) (threads : Threads m) (logged : Logged log next) :
    Sound m log where
  created := by
    intro key
    rw [places.mem_created, places.mem_pending, places.mem_owned, places.mem_done]
    constructor
    · rintro ⟨i, k, lt, rfl⟩
      by_cases pends : next i ≤ k
      · exact .inl ⟨i, k, pends, lt, rfl⟩
      · rcases places.cover i k (not_le.mp pends) with owned | done
        · exact .inr (.inl ⟨i, k, rfl, owned⟩)
        · exact .inr (.inr ⟨i, k, rfl, done⟩)
    · rintro (⟨i, k, -, lt, rfl⟩ | ⟨i, k, rfl, p, member, seg⟩ | ⟨i, k, rfl, s, entry, full⟩)
      · exact ⟨i, k, lt, rfl⟩
      · obtain ⟨i', k', lt, seg'⟩ := places.owned p member
        obtain ⟨rfl, rfl⟩ := seg.unique seg'
        exact ⟨i, k, lt.trans_le (places.le i), rfl⟩
      · exact ⟨i, k, (places.done entry full).1.trans_le (places.le i), rfl⟩
  once := by
    refine List.nodup_append.mpr ⟨?_, places.once, ?_⟩
    · refine nodup_flatMap_keys _ (fun i => ?_) (fun i key member => ?_)
      · rw [places.pending]
        have numbers : (List.range' (next i) (total i - next i)).Nodup := List.nodup_range'
        exact numbers.map fun k k' same => (segKey_inj.mp same).2
      · rw [places.pending] at member
        obtain ⟨k, -, rfl⟩ := List.mem_map.mp member
        rfl
    · rintro key pends key' owned rfl
      obtain ⟨i, k, le, -, rfl⟩ := places.mem_pending.mp pends
      obtain ⟨i', k', same, p, member, seg⟩ := places.mem_owned.mp owned
      obtain ⟨rfl, rfl⟩ := segKey_inj.mp same
      obtain ⟨i', k', lt, seg'⟩ := places.owned p member
      obtain ⟨rfl, rfl⟩ := seg.unique seg'
      omega
  doneOnce := by
    refine nodup_flatMap_keys _ (fun i => ?_) (fun i key member => ?_)
    · refine List.pairwise_map.mpr (List.pairwise_filter.mpr (List.pairwise_iff_getElem.mpr ?_))
      intro k k' bound bound' lt full full' same
      have at_k := places.done (List.getElem?_eq_getElem bound) (by simpa using full)
      have at_k' := places.done (List.getElem?_eq_getElem bound') (by simpa using full')
      obtain ⟨-, eq⟩ := segKey_inj.mp (at_k.2.1.symm.trans (same.trans at_k'.2.1))
      omega
    · obtain ⟨s, inside, rfl⟩ := List.mem_map.mp member
      obtain ⟨listed, full⟩ := List.mem_filter.mp inside
      obtain ⟨k, bound, rfl⟩ := List.getElem_of_mem listed
      exact congrArg Prod.snd (places.done (List.getElem?_eq_getElem bound) (by simpa using full)).2.1
  pendingNotDone := by
    intro key pends done
    obtain ⟨i, k, le, -, rfl⟩ := places.mem_pending.mp pends
    obtain ⟨i', k', same, s, entry, full⟩ := places.mem_done.mp done
    obtain ⟨rfl, rfl⟩ := segKey_inj.mp same
    have lt := (places.done entry full).1
    omega
  ownedAndDone := by
    intro p member done
    obtain ⟨i, k, -, seg⟩ := places.owned p member
    obtain ⟨i', k', same, isDone⟩ := places.mem_done.mp done
    obtain ⟨rfl, rfl⟩ := segKey_inj.mp (seg.1.symm.trans same)
    exact places.both p member i k seg isDone
  startedOnce := logged.once
  started := by
    intro key
    rw [logged.mem, places.mem_owned, places.mem_done]
    constructor
    · rintro ⟨i, k, lt, rfl⟩
      rcases places.cover i k lt with owned | done
      · exact .inl ⟨i, k, rfl, owned⟩
      · exact .inr ⟨i, k, rfl, done⟩
    · rintro (⟨i, k, rfl, p, member, seg⟩ | ⟨i, k, rfl, s, entry, full⟩)
      · obtain ⟨i', k', lt, seg'⟩ := places.owned p member
        obtain ⟨rfl, rfl⟩ := seg.unique seg'
        exact ⟨i, k, lt, rfl⟩
      · exact ⟨i, k, (places.done entry full).1, rfl⟩
  threads := threads.few
  best := by
    intro waiting w waits p member runs
    have le := (threads.settled waiting).best w waits p member runs
    rw [Segment.rank, Segment.rank, Prod.Lex.toLex_le_toLex] at le
    omega
  full waiting := (threads.settled waiting).full

/-- In every state that is reached, with at least one thread to start with, and no step uses an index that
was never set. -/
theorem scheduling_sound (run : Run forms segmentCount maxProvingThreads multiProcMachine m log)
    (positive : 0 < maxProvingThreads) :
    Sound m log ∧ ∀ event, ∃ t new, m.step forms event = .done (t, new) := by
  obtain ⟨⟨next, total, places, logged⟩, threads⟩ := run.spec positive
  refine ⟨places.sound threads logged, fun event => ?_⟩
  obtain ⟨t, new, step, -⟩ := step_spec forms places threads logged event
  exact ⟨t, new, step⟩

def runEvents (forms : Forms F) : List Event → ProverManager F × List (Segment F) →
    Exec (ProverManager F × List (Segment F))
  | [], state => .done state
  | event :: events, (m, log) => do
    let (m, new) ← m.step forms event
    runEvents forms events (m, log ++ new)

theorem Run.events (run : Run forms segmentCount maxProvingThreads multiProcMachine m log) {events : List Event}
    {log' : List (Segment F)} (steps : runEvents forms events (m, log) = .done (t, log')) :
    Run forms segmentCount maxProvingThreads multiProcMachine t log' := by
  induction events generalizing m log with
  | nil =>
    obtain ⟨rfl, rfl⟩ := Prod.mk.inj (Exec.done.inj steps)
    exact run
  | cons event events ih =>
    obtain ⟨⟨u, new⟩, step, rest⟩ := Exec.bind_eq_done.mp steps
    exact ih (run.step event step) rest

/-- The state that events lead to satisfies `c`. -/
def leadsTo (x : Exec (ProverManager F × List (Segment F))) (c : ProverManager F → Bool) : Bool :=
  match x with
  | .done (m, _) => c m
  | _ => false

theorem exists_of_leadsTo {x : Exec (ProverManager F × List (Segment F))} {c : ProverManager F → Bool}
    (leads : leadsTo x c = true) : ∃ t log', x = .done (t, log') ∧ c t = true := by
  cases x with
  | done r => exact ⟨r.1, r.2, rfl, leads⟩
  | _ => cases leads

/-- Two threads, and three segments, the last of which waits. -/
theorem scheduling_sound_three : ∃ (m : ProverManager Unit) (log : List (Segment Unit)),
    m.phase = .waiting ∧ m.pendingKeys = [(2 * 2 ^ 16, 2 ^ 16)] ∧ Sound m log := by
  obtain ⟨m, log, steps, facts⟩ := exists_of_leadsTo (x := runEvents ⟨fun _ => (), fun _ _ => ()⟩
    [.wake 200000, .collect, .append 200000, .schedule, .schedule, .schedule] (init 1 2 false, []))
    (c := fun m => decide (m.phase = .waiting ∧ m.pendingKeys = [(2 * 2 ^ 16, 2 ^ 16)])) (by decide +kernel)
  obtain ⟨waiting, pending⟩ := of_decide_eq_true facts
  exact ⟨m, log, waiting, pending, (scheduling_sound (Run.init.events steps) (by decide)).1⟩

/-- A prover that is finished, but not fully finished when the event loop looks, keeps its segment. -/
theorem done_segment_owned : ∃ (m : ProverManager Unit) (log : List (Segment Unit)),
    Run ⟨fun _ => (), fun _ _ => ()⟩ 1 1 false m log ∧ m.phase = .waiting ∧
      (0, 2 ^ 16) ∈ m.ownedKeys ∧ (0, 2 ^ 16) ∈ m.doneKeys := by
  obtain ⟨m, log, steps, facts⟩ := exists_of_leadsTo (x := runEvents ⟨fun _ => (), fun _ _ => ()⟩
    [.wake 65536, .collect, .append 65536, .schedule, .schedule, .finish 0, .wake 65536, .collect, .collect,
      .append 65536, .schedule, .fullyFinish 0] (init 1 1 false, []))
    (c := fun m => decide (m.phase = .waiting ∧ (0, 2 ^ 16) ∈ m.ownedKeys ∧ (0, 2 ^ 16) ∈ m.doneKeys))
    (by decide +kernel)
  exact ⟨m, log, Run.init.events steps, of_decide_eq_true facts⟩

end Runs

end ProverManager

end ChiaVdf
