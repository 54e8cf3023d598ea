import ChiaVdf.ProverScheduling

/-! The segments that `Prove` selects. The vectors of `done_segments` are read up to the last one that fits,
each from where the longer ones end; a position that holds no finished segment is not passed over. -/
namespace ChiaVdf

namespace ProverManager

variable {F : Type}

/-- The segments follow each other from `first` to `last`. -/
def Contiguous : ℕ → List (Segment F) → ℕ → Prop
  | first, [], last => first = last
  | first, s :: rest, last => s.start = first ∧ Contiguous (first + s.length) rest last

/-- The segments are done, and prove all of the iterations but those of the last partial segment. -/
structure Proves (segments : List (Segment F)) (iteration : ℕ) : Prop where
  done : ∀ s ∈ segments, s.isEmpty = false ∧ s.proof.isSome = true
  contiguous : Contiguous 0 segments (iteration - iteration % 2 ^ 16)
  total : (segments.map Segment.length).sum + iteration % 2 ^ 16 = iteration
  few : segments.length ≤ 63

/-- How many entries of one length are read at most. -/
def limit (m : ProverManager F) (iteration i : ℕ) : ℕ := min (m.doneSegments i).length (iteration / segmentSize i)

/-- Every position that is read, from where the longer segments end, is that of a finished segment. -/
def NoneMissing (m : ProverManager F) (iteration : ℕ) : Prop :=
  ∀ i < m.segmentCount, ∀ k < m.limit iteration i,
    (∀ j < m.segmentCount, i < j → m.limit iteration j * segmentSize j ≤ k * segmentSize i) → m.IsDone i k

instance (m : ProverManager F) (i k : ℕ) : Decidable (m.IsDone i k) :=
  decidable_of_iff (((m.doneSegments i)[k]?).any (fun s => !s.isEmpty) = true) (by
    rw [Option.any_eq_true, IsDone]
    simp only [Bool.not_eq_true'])

instance (m : ProverManager F) (iteration : ℕ) : Decidable (m.NoneMissing iteration) := by
  unfold NoneMissing
  infer_instance

section Select

variable {m : ProverManager F} {next total : ℕ → ℕ} {iteration i k p : ℕ}

theorem Contiguous.append {first mid last : ℕ} {segments rest : List (Segment F)}
    (before : Contiguous first segments mid) (after : Contiguous mid rest last) :
    Contiguous first (segments ++ rest) last := by
  induction segments generalizing first with
  | nil => exact before ▸ after
  | cons s segments ih => exact ⟨before.1, ih before.2⟩

theorem Contiguous.sum {first last : ℕ} {segments : List (Segment F)} (chain : Contiguous first segments last) :
    first + (segments.map Segment.length).sum = last := by
  induction segments generalizing first with
  | nil => exact chain
  | cons s segments ih =>
    have rest := ih chain.2
    rw [List.map_cons, List.sum_cons]
    omega

theorem selectFrom_eq (l : List (Segment F)) (k : ℕ) :
    selectFrom (segmentSize i) iteration l (k * segmentSize i) =
      (l.take (min l.length (iteration / segmentSize i - k)),
        (k + min l.length (iteration / segmentSize i - k)) * segmentSize i) := by
  induction l generalizing k with
  | nil => simp [selectFrom]
  | cons s l ih =>
    rw [selectFrom, ← Nat.succ_mul]
    by_cases fits : (k + 1) * segmentSize i ≤ iteration
    · have more : k + 1 ≤ iteration / segmentSize i := (Nat.le_div_iff_mul_le segmentSize_pos).mpr fits
      obtain ⟨n, eq⟩ : ∃ n, iteration / segmentSize i - k = n + 1 := ⟨iteration / segmentSize i - k - 1, by omega⟩
      rw [if_pos fits, ih, eq, show iteration / segmentSize i - (k + 1) = n by omega, List.length_cons,
        Nat.add_min_add_right, List.take_succ_cons]
      dsimp only
      rw [show k.succ + min l.length n = k + (min l.length n + 1) by omega]
    · have none : iteration / segmentSize i - k = 0 := by
        have less : iteration / segmentSize i < k + 1 := (Nat.div_lt_iff_lt_mul segmentSize_pos).mpr (not_le.mp fits)
        omega
      rw [if_neg fits, none]
      simp

theorem Places.contiguous (places : Places m next total) (count k : ℕ)
    (done : ∀ j, k ≤ j → j < k + count → m.IsDone i j) :
    Contiguous (k * segmentSize i) (((m.doneSegments i).drop k).take count) ((k + count) * segmentSize i) := by
  induction count generalizing k with
  | zero => exact rfl
  | succ count ih =>
    obtain ⟨s, entry, full⟩ := done k le_rfl (by omega)
    obtain ⟨bound, rfl⟩ := List.getElem?_eq_some_iff.mp entry
    have key := (places.done entry full).2.1
    have rest := ih (k + 1) fun j le lt => done j (by omega) (by omega)
    rw [List.drop_eq_getElem_cons bound, List.take_succ_cons]
    refine ⟨congrArg Prod.fst key, ?_⟩
    have length : (m.doneSegments i)[k].length = segmentSize i := congrArg Prod.snd key
    rw [length, ← Nat.succ_mul, show k + (count + 1) = k + 1 + count by omega]
    exact rest

theorem mem_stretch {count : ℕ} {s : Segment F} : s ∈ ((m.doneSegments i).drop k).take count ↔
    ∃ j, k ≤ j ∧ j < k + count ∧ (m.doneSegments i)[j]? = some s := by
  rw [List.mem_iff_getElem?]
  constructor
  · rintro ⟨j, entry⟩
    have bound : j < count := by
      by_contra beyond
      rw [List.getElem?_take_eq_none (not_lt.mp beyond)] at entry
      cases entry
    rw [List.getElem?_take_of_lt bound, List.getElem?_drop] at entry
    exact ⟨k + j, by omega, by omega, entry⟩
  · rintro ⟨j, le, lt, entry⟩
    refine ⟨j - k, ?_⟩
    rw [List.getElem?_take_of_lt (by omega), List.getElem?_drop, show k + (j - k) = j by omega]
    exact entry

/-- The selection over the lengths below `n`, after longer segments that prove `p` iterations. -/
structure Selected (m : ProverManager F) (iteration n p : ℕ) (segments : List (Segment F)) (q : ℕ) : Prop where
  le : q ≤ iteration
  multiple : 2 ^ 16 ∣ q
  filled : (∀ s ∈ segments, s.isEmpty = false) ↔ ∀ i < n, ∀ k < m.limit iteration i, p ≤ k * segmentSize i →
    (∀ j < n, i < j → m.limit iteration j * segmentSize j ≤ k * segmentSize i) → m.IsDone i k
  contiguous : (∀ s ∈ segments, s.isEmpty = false) → Contiguous p segments q
  proved : ∀ s ∈ segments, s.isEmpty = false → s.proof.isSome = true

/-- A stretch that goes on to the limit, if that is further, lies within the vector. -/
theorem stretch_done {count : ℕ} (reach : k + count = max k (m.limit iteration i)) :
    (∀ s ∈ ((m.doneSegments i).drop k).take count, s.isEmpty = false) ↔
      ∀ j, k ≤ j → j < k + count → m.IsDone i j := by
  constructor
  · intro full j low high
    have bound : j < (m.doneSegments i).length := by
      rw [reach, lt_max_iff, limit] at high
      omega
    have entry := List.getElem?_eq_getElem bound
    exact ⟨_, entry, full _ (mem_stretch.mpr ⟨j, low, high, entry⟩)⟩
  · intro done s member
    obtain ⟨j, low, high, entry⟩ := mem_stretch.mp member
    obtain ⟨s', entry', full⟩ := done j low high
    obtain rfl := Option.some.inj (entry.symm.trans entry')
    exact full

theorem stretch_fits {count : ℕ} (reach : k + count = max k (m.limit iteration i))
    (le : k * segmentSize i ≤ iteration) : (k + count) * segmentSize i ≤ iteration := by
  rw [reach]
  rcases max_choice k (m.limit iteration i) with eq | eq
  · rw [eq]
    exact le
  · rw [eq]
    exact (Nat.mul_le_mul_right _ (min_le_right _ _)).trans (Nat.div_mul_le_self ..)

/-- The turn for one length: the stretch of that length, and the shorter segments behind it. -/
theorem selectLoop_succ (n k : ℕ) : ∃ count, k + count = max k (m.limit iteration n) ∧
    selectLoop m.doneSegments iteration (n + 1) (k * segmentSize n) =
      (((m.doneSegments n).drop k).take count ++
          (selectLoop m.doneSegments iteration n ((k + count) * segmentSize n)).1,
        (selectLoop m.doneSegments iteration n ((k + count) * segmentSize n)).2) := by
  refine ⟨min ((m.doneSegments n).drop k).length (iteration / segmentSize n - k), ?_, ?_⟩
  · rw [List.length_drop, limit]
    omega
  · rw [selectLoop, Nat.mul_div_cancel _ segmentSize_pos, selectFrom_eq]

/-- What has to be done from `k` on: the stretch of the longest segments, and what the shorter ones are read for. -/
theorem needed_succ {n count : ℕ} (reach : k + count = max k (m.limit iteration n)) :
    ((∀ j, k ≤ j → j < k + count → m.IsDone n j) ∧
      ∀ i < n, ∀ j < m.limit iteration i, (k + count) * segmentSize n ≤ j * segmentSize i →
        (∀ j' < n, i < j' → m.limit iteration j' * segmentSize j' ≤ j * segmentSize i) → m.IsDone i j) ↔
    ∀ i < n + 1, ∀ j < m.limit iteration i, k * segmentSize n ≤ j * segmentSize i →
      (∀ j' < n + 1, i < j' → m.limit iteration j' * segmentSize j' ≤ j * segmentSize i) → m.IsDone i j := by
  rw [reach]
  constructor
  · rintro ⟨here, shorter⟩ i lt j inside after longer
    by_cases same : i = n
    · subst same
      have low : k ≤ j := Nat.le_of_mul_le_mul_right after segmentSize_pos
      exact here j low (by omega)
    · refine shorter i (by omega) j inside ?_ fun j' lt' => longer j' (by omega)
      rcases max_choice k (m.limit iteration n) with eq | eq
      · rwa [eq]
      · rw [eq]
        exact longer n (by omega) (by omega)
  · intro all
    constructor
    · intro j low high
      exact all n (by omega) j (by omega) (Nat.mul_le_mul_right _ low) fun j' lt' gt => by omega
    · intro i lt j inside after longer
      have ends (a : ℕ) (le : a ≤ max k (m.limit iteration n)) : a * segmentSize n ≤ j * segmentSize i :=
        (Nat.mul_le_mul_right _ le).trans after
      apply all i (by omega) j inside (ends k (le_max_left ..))
      intro j' lt' gt
      by_cases same : j' = n
      · exact same ▸ ends _ (le_max_right ..)
      · exact longer j' (by omega) gt

theorem selectLoop_spec (places : Places m next total) (n p : ℕ) (multiple : segmentSize n ∣ p) (le : p ≤ iteration) :
    Selected m iteration n p (selectLoop m.doneSegments iteration n p).1
      (selectLoop m.doneSegments iteration n p).2 := by
  induction n generalizing p with
  | zero =>
    exact {
      le := le
      multiple := multiple
      filled := by simp [selectLoop]
      contiguous := fun _ => rfl
      proved := by simp [selectLoop] }
  | succ n ih =>
    have divides : segmentSize n ∣ segmentSize (n + 1) := pow_dvd_pow _ (by omega)
    obtain ⟨k, rfl⟩ : ∃ k, p = k * segmentSize n := by
      obtain ⟨k, eq⟩ := divides.trans multiple
      exact ⟨k, by rw [eq, Nat.mul_comm]⟩
    obtain ⟨count, reach, eq⟩ := selectLoop_succ n k
    have rest := ih ((k + count) * segmentSize n) (Dvd.intro_left _ rfl) (stretch_fits reach le)
    rw [eq]
    exact {
      le := rest.le
      multiple := rest.multiple
      filled := by rw [List.forall_mem_append, stretch_done reach, rest.filled, needed_succ reach]
      contiguous := by
        intro full
        have done := (stretch_done reach).mp fun s member => full s (List.mem_append_left _ member)
        exact (places.contiguous count k done).append
          (rest.contiguous fun s member => full s (List.mem_append_right _ member))
      proved := by
        intro s member full
        rcases List.mem_append.mp member with here | later
        · obtain ⟨j, -, -, entry⟩ := mem_stretch.mp here
          exact (places.done entry full).2.2
        · exact rest.proved s later full }

/-- What `Prove` selects is a whole proof if and only if no segment is missing where it reads. -/
theorem Places.proves_iff (places : Places m next total) {segments : List (Segment F)}
    (selected : m.select iteration = some segments) : Proves segments iteration ↔ m.NoneMissing iteration := by
  obtain ⟨few, enough, rfl⟩ : (selectLoop m.doneSegments iteration m.segmentCount 0).1.length ≤ 63 ∧
      iteration - iteration % 2 ^ 16 ≤ (selectLoop m.doneSegments iteration m.segmentCount 0).2 ∧
      (selectLoop m.doneSegments iteration m.segmentCount 0).1 = segments := by
    rw [select] at selected
    split_ifs at selected with waited
    dsimp only at selected
    split_ifs at selected with retry
    rw [not_or, not_lt, not_lt] at retry
    exact ⟨retry.1, retry.2, Option.some.inj selected⟩
  have spec := selectLoop_spec places m.segmentCount 0 (dvd_zero _) (Nat.zero_le iteration)
  have ends : (selectLoop m.doneSegments iteration m.segmentCount 0).2 = iteration - iteration % 2 ^ 16 := by
    have le := spec.le
    obtain ⟨n, eq⟩ := spec.multiple
    omega
  have filled : (∀ s ∈ (selectLoop m.doneSegments iteration m.segmentCount 0).1, s.isEmpty = false) ↔
      m.NoneMissing iteration := by
    rw [spec.filled, NoneMissing]
    simp only [Nat.zero_le, true_imp_iff]
  rw [← filled]
  constructor
  · intro proves s member
    exact (proves.done s member).1
  · intro full
    have contiguous := spec.contiguous full
    rw [ends] at contiguous
    have sum := contiguous.sum
    have le := Nat.mod_le iteration (2 ^ 16)
    exact {
      done := fun s member => ⟨full s member, spec.proved s member (full s member)⟩
      contiguous := contiguous
      total := by omega
      few := few }

variable {forms : Forms F} {segmentCount maxProvingThreads : ℕ} {multiProcMachine : Bool}
  {log segments : List (Segment F)}

/-- In every state that is reached: what `Prove` selects is a whole proof, unless it reads past a segment that
is not done although a later one of the same length is. -/
theorem prove_selection (run : Run forms segmentCount maxProvingThreads multiProcMachine m log)
    (positive : 0 < maxProvingThreads) (selected : m.select iteration = some segments) :
    Proves segments iteration ↔ m.NoneMissing iteration := by
  obtain ⟨⟨next, total, places, -⟩, -⟩ := run.spec positive
  exact places.proves_iff selected

/-- Eight segments of 2^16 iterations run on three threads, then two of 2^18, the second of which is done first. -/
def overtaken : List Event :=
  [.request (2 ^ 18), .wake (2 ^ 19), .collect, .append (2 ^ 19), .schedule, .schedule, .schedule, .schedule,
    .finish 0, .fullyFinish 0, .finish 1, .fullyFinish 1, .finish 2, .fullyFinish 2,
    .wake (2 ^ 19), .collect, .collect, .collect, .collect, .append (2 ^ 19), .schedule, .schedule, .schedule,
      .schedule,
    .finish 0, .fullyFinish 0, .finish 1, .fullyFinish 1, .finish 2, .fullyFinish 2,
    .wake (2 ^ 19), .collect, .collect, .collect, .collect, .erase (2 ^ 18), .append (2 ^ 19), .schedule, .schedule,
    .schedule, .schedule, .finish 0, .fullyFinish 0, .finish 1, .fullyFinish 1,
    .wake (2 ^ 19), .collect, .collect, .collect, .collect, .append (2 ^ 19), .schedule, .schedule,
    .finish 1, .fullyFinish 1, .wake (2 ^ 19), .collect, .collect, .collect, .append (2 ^ 19), .schedule]

/-- Before that, the four segments of 2^16 iterations are a proof. -/
theorem prove_selection_four : ∃ (m : ProverManager Unit) (segments : List (Segment Unit)),
    m.select (2 ^ 18) = some segments ∧ segments.length = 4 ∧ Proves segments (2 ^ 18) := by
  obtain ⟨m, log, steps, facts⟩ := exists_of_leadsTo
    (x := runEvents ⟨fun _ => (), fun _ _ => ()⟩ (overtaken.take 41) (init 8 3 false, []))
    (c := fun m => decide (((m.select (2 ^ 18)).any fun segments => segments.length = 4) = true ∧
      m.NoneMissing (2 ^ 18))) (by decide +kernel)
  obtain ⟨some_segments, noneMissing⟩ := of_decide_eq_true facts
  obtain ⟨segments, selected, four⟩ := (Option.any_eq_true ..).mp some_segments
  exact ⟨m, segments, selected, of_decide_eq_true four,
    (prove_selection (Run.init.events steps) (by decide) selected).mpr noneMissing⟩

/-- After that, the proof for as many iterations begins with a segment that is not done. -/
theorem placeholder_selected : ∃ (m : ProverManager Unit) (log segments : List (Segment Unit)),
    Run ⟨fun _ => (), fun _ _ => ()⟩ 8 3 false m log ∧ m.phase = .waiting ∧
      m.select (2 ^ 18) = some segments ∧ ¬Proves segments (2 ^ 18) := by
  obtain ⟨m, log, steps, facts⟩ := exists_of_leadsTo
    (x := runEvents ⟨fun _ => (), fun _ _ => ()⟩ overtaken (init 8 3 false, []))
    (c := fun m => decide (m.phase = .waiting ∧
      ((m.select (2 ^ 18)).any fun segments => segments.any fun s => s.isEmpty) = true)) (by decide +kernel)
  obtain ⟨waiting, some_segments⟩ := of_decide_eq_true facts
  obtain ⟨segments, selected, bad⟩ := (Option.any_eq_true ..).mp some_segments
  refine ⟨m, log, segments, Run.init.events steps, waiting, selected, fun proves => ?_⟩
  obtain ⟨s, member, empty⟩ := List.any_eq_true.mp bad
  rw [(proves.done s member).1] at empty
  cases empty

end Select

end ProverManager

end ChiaVdf
