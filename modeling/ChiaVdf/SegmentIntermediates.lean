import ChiaVdf.FinishedSegments

/-! The intermediates that a segment prover reads are the ones it asks for: what each slot of the
sliding windows holds, on both kinds of machines. -/
namespace ChiaVdf

open RepeatedSquare (Event Feed Covered iterations indices lastDelivered checkpointInterval)

namespace NWeso

variable {F : Type} {IsPower : ℕ → F → Prop} {r : Routines F} {segments limit : ℕ} {f : F} {multi : Bool}
  {sent : List (Event F)} {s t : NWeso F}

/-- No slot was overwritten with the form of an earlier exponent. -/
def Timely (stored : List ((ℕ × ℕ) × F)) : Prop :=
  stored.Pairwise fun new old =>
    FastAlgorithmCallback.getPosition new.1.2 new.1.1 = FastAlgorithmCallback.getPosition old.1.2 old.1.1 →
      old.1.2 ≤ new.1.2

section Table

variable {c c' : FastAlgorithmCallback F} {setForm : F → F} {form : F} {iteration bucket e : ℕ}

/-- A slot holds what was stored in it last, and only for exponents that have a slot. -/
structure Table (c : FastAlgorithmCallback F) : Prop where
  few : c.segments ≤ 15
  content : ∀ pos, c.forms pos = SlidingWindow.content position c.stored pos
  kept : ∀ entry ∈ c.stored, entry.1.1 < c.segments ∧ Kept entry.1.1 entry.1.2

theorem Table.setForms (table : Table c) (inside : bucket < c.segments) (kept : Kept bucket e) (form : F) :
    Table (c.setForms e bucket (position (bucket, e)) form) where
  few := table.few
  content pos := by
    by_cases same : position (bucket, e) = pos
    · subst same
      exact (Function.update_self ..).trans SlidingWindow.content_cons_self.symm
    · refine (Function.update_of_ne (Ne.symm same) ..).trans ?_
      rw [table.content pos]
      exact (SlidingWindow.content_cons_of_ne same).symm
  kept entry member := by
    rcases List.mem_cons.mp member with rfl | old
    · exact ⟨inside, kept⟩
    · exact table.kept entry old

theorem Table.congr (table : Table c) (segments : c'.segments = c.segments) (forms : c'.forms = c.forms)
    (stored : c'.stored = c.stored) : Table c' where
  few := segments ▸ table.few
  content pos := by rw [forms, stored, table.content pos]
  kept entry member := by
    rw [stored] at member
    rw [segments]
    exact table.kept entry member

theorem Table.visit (table : Table c) (inside : bucket < c.segments)
    (run : c.visit setForm form iteration bucket = .done c') :
    (¬Kept bucket iteration ∧ c' = c) ∨
      (Kept bucket iteration ∧
        c' = c.setForms iteration bucket (position (bucket, iteration)) (setForm form)) := by
  have small : bucket ≤ 14 := by have := table.few; omega
  rcases FastAlgorithmCallback.visit_cases run with ⟨test, rfl⟩ | ⟨test, pos, place, rfl⟩
  · rw [wants_eq small] at test
    exact .inl ⟨by simpa using test, rfl⟩
  · rw [wants_eq small] at test
    rw [formAt_eq small inside] at place
    obtain rfl := Exec.done.inj place
    exact .inr ⟨by simpa using test, rfl⟩

theorem Table.of_visit (table : Table c) (inside : bucket < c.segments)
    (run : c.visit setForm form iteration bucket = .done c') : Table c' := by
  rcases table.visit inside run with ⟨-, rfl⟩ | ⟨kept, rfl⟩
  · exact table
  · exact table.setForms inside kept _

theorem position_zero (bucket : ℕ) : position (bucket, 0) = FastAlgorithmCallback.bucketsBegin bucket := by
  simp [position, SlidingWindow.slot]

theorem Table.fill (f : F) (few : c.segments ≤ 15) (empty : c.forms = fun _ => none)
    (nothing : c.stored = []) {n : ℕ} (le : n ≤ c.segments) :
    Table (FastAlgorithmCallback.fill f n c) := by
  induction n with
  | zero => exact ⟨few, fun pos => by rw [FastAlgorithmCallback.fill, empty, nothing]; rfl,
      by simp [FastAlgorithmCallback.fill, nothing]⟩
  | succ n ih =>
    have inside : n < (FastAlgorithmCallback.fill f n c).segments := by
      rw [(fill_frame f n c).1]
      omega
    have zero : Kept n 0 := by simp [Kept]
    have step := (ih (by omega)).setForms inside zero f
    rwa [position_zero] at step

theorem Table.getForm (table : Table c) (inside : bucket < c.segments) (kept : Kept bucket e)
    (timely : Timely c.stored)
    (recent : ∀ entry ∈ c.stored, entry.1.1 = bucket →
      entry.1.2 < e + kWindowSize * segmentSize bucket)
    (written : ∃ form, ((bucket, e), form) ∈ c.stored) :
    ∃ form, c.stored.lookup (bucket, e) = some form ∧ c.getForm e bucket = .done (some form) := by
  have small : bucket ≤ 14 := by have := table.few; omega
  have ordered : c.stored.Pairwise fun new old => position new.1 = position old.1 → old.1 ≤ new.1 := by
    refine List.Pairwise.imp_of_mem (fun {new old} newMember oldMember earlier same => ?_) timely
    obtain ⟨insideNew, -⟩ := table.kept new newMember
    obtain ⟨insideOld, -⟩ := table.kept old oldMember
    have few := table.few
    rw [getPosition_eq (by omega), getPosition_eq (by omega)] at earlier
    exact ⟨(bucket_eq_of_position same).ge, earlier (congrArg Exec.done same)⟩
  have last : ∀ entry ∈ c.stored, position entry.1 = position (bucket, e) → entry.1 ≤ (bucket, e) := by
    intro entry member same
    obtain ⟨-, keptEntry⟩ := table.kept entry member
    obtain ⟨⟨b, e'⟩, form⟩ := entry
    obtain rfl := bucket_eq_of_position same
    have near := recent _ member rfl
    refine ⟨le_rfl, ?_⟩
    by_contra later
    rcases eq_or_window_le kept keptEntry same.symm (not_le.mp later).le with equal | apart
    · exact later equal.ge
    · dsimp only at near apart
      omega
  obtain ⟨read, form, found⟩ := SlidingWindow.content_latest ordered last written
  refine ⟨form, found, ?_⟩
  rw [FastAlgorithmCallback.getForm, formAt_eq small inside, Exec.done_bind, table.content, read, found]
  rfl

end Table

section SingleProcessor

variable {c c' : FastAlgorithmCallback F} {setForm : F → F} {form : F} {i : ℕ}

theorem lookup_cons (key key' : ℕ × ℕ) (value : F) (stored : List ((ℕ × ℕ) × F)) :
    ((key', value) :: stored).lookup key = if key = key' then some value else stored.lookup key := by
  by_cases same : key = key'
  · simp [same]
  · have different : (key == key') = false := beq_eq_false_iff_ne.mpr same
    rw [List.lookup_cons, different, if_neg same]

/-- A new exponent that no stored one is far ahead of keeps the order in each slot. -/
theorem Timely.cons {stored : List ((ℕ × ℕ) × F)} (timely : Timely stored) (few : segments ≤ 15)
    (kept : ∀ entry ∈ stored, entry.1.1 < segments ∧ Kept entry.1.1 entry.1.2) {bucket e : ℕ}
    (inside : bucket < segments) (wanted : Kept bucket e)
    (recent : ∀ entry ∈ stored, entry.1.2 < e + 2 ^ 16) (form : F) :
    Timely (((bucket, e), form) :: stored) := by
  refine List.pairwise_cons.mpr ⟨fun old member same => ?_, timely⟩
  obtain ⟨insideOld, keptOld⟩ := kept old member
  have near := recent old member
  obtain ⟨⟨b, e'⟩, value⟩ := old
  dsimp only at insideOld keptOld near same ⊢
  rw [getPosition_eq (by omega), getPosition_eq (by omega)] at same
  have shared := Exec.done.inj same
  obtain rfl := bucket_eq_of_position shared
  by_contra later
  rcases eq_or_window_le wanted keptOld shared (not_le.mp later).le with equal | apart
  · exact later equal.ge
  · have long : 2 ^ 16 ≤ segmentSize bucket := Nat.pow_le_pow_right (by norm_num) (Nat.le_add_right _ _)
    simp only [kWindowSize] at apart
    omega

/-- What the visits of the first `n` buckets by one call have done. -/
structure Visited (setForm : F → F) (form : F) (e n : ℕ) (c c' : FastAlgorithmCallback F) : Prop where
  table : Table c'
  timely : Timely c'.stored
  members : ∀ entry ∈ c'.stored, entry ∈ c.stored ∨ entry.1.2 = e
  lookup : ∀ b e', c'.stored.lookup (b, e') =
    if e' = e ∧ b < n ∧ Kept b e then some (setForm form) else c.stored.lookup (b, e')

theorem Table.visits {e n : ℕ} (table : Table c) (timely : Timely c.stored)
    (recent : ∀ entry ∈ c.stored, entry.1.2 < e + 2 ^ 16) (le : n ≤ c.segments)
    (run : Exec.forLoop n (FastAlgorithmCallback.visit setForm form e) c = .done c') :
    Visited setForm form e n c c' := by
  induction n generalizing c' with
  | zero =>
    obtain rfl := Exec.done.inj run
    exact ⟨table, timely, fun entry member => .inl member, fun b e' => by simp⟩
  | succ n ih =>
    obtain ⟨c₁, before, visit⟩ := Exec.bind_eq_done.mp run
    have visited := ih (by omega) before
    obtain ⟨sameS, -, -⟩ := visits_frame before
    have inside : n < c₁.segments := by omega
    rcases visited.table.visit inside visit with ⟨unwanted, rfl⟩ | ⟨wanted, rfl⟩
    · refine ⟨visited.table, visited.timely, visited.members, fun b e' => ?_⟩
      rw [visited.lookup b e']
      by_cases last : b = n
      · simp [last, unwanted]
      · have same : b < n + 1 ↔ b < n := by omega
        simp only [same]
    · constructor
      case table => exact visited.table.setForms inside wanted _
      case timely =>
        refine visited.timely.cons visited.table.few visited.table.kept inside wanted ?_ _
        intro entry member
        rcases visited.members entry member with old | new
        · exact recent entry old
        · omega
      case members =>
        intro entry member
        rcases List.mem_cons.mp member with rfl | old
        · exact .inr rfl
        · exact visited.members entry old
      case lookup =>
        intro b e'
        have cons := lookup_cons (b, e') (n, e) (setForm form) c₁.stored
        rw [visited.lookup b e'] at cons
        refine cons.trans ?_
        by_cases here : (b, e') = (n, e)
        · obtain ⟨rfl, rfl⟩ := Prod.mk.inj here
          simp [wanted]
        · have same : (e' = e ∧ b < n + 1 ∧ Kept b e) ↔ e' = e ∧ b < n ∧ Kept b e := by
            constructor
            · rintro ⟨equal, lt, kept⟩
              have other : b ≠ n := fun last => here (by rw [last, equal])
              exact ⟨equal, by omega, kept⟩
            · rintro ⟨equal, lt, kept⟩
              exact ⟨equal, by omega, kept⟩
          rw [if_neg here]
          simp only [same]

/-- The invariant of a session without `FastStorage`. -/
structure Delivered (r : Routines F) (f : F) (sent : List (Event F)) (s : NWeso F) : Prop where
  single : s.weso.multiProcMachine = false
  table : Table s.weso
  published : s.weso.iterations = iterations sent
  timely : Timely s.weso.stored
  first : ∀ b < s.weso.segments, s.weso.stored.lookup (b, 0) = some f
  later : ∀ b < s.weso.segments, ∀ m ∈ indices sent, Kept b (m + 1) → ∃ form,
    lastDelivered m sent = some form ∧ s.weso.stored.lookup (b, m + 1) = some (r.setForm form)
  known : ∀ entry ∈ s.weso.stored, ∀ m, entry.1.2 = m + 1 → m ∈ indices sent

theorem lookup_fill (f : F) (n : ℕ) (c : FastAlgorithmCallback F) {b : ℕ} (lt : b < n) :
    (FastAlgorithmCallback.fill f n c).stored.lookup (b, 0) = some f := by
  induction n with
  | zero => omega
  | succ n ih =>
    refine (lookup_cons (b, 0) (n, 0) f _).trans ?_
    by_cases last : b = n
    · simp [last]
    · rw [if_neg (by simpa using last)]
      exact ih (by omega)

theorem mem_fill (f : F) (n : ℕ) (c : FastAlgorithmCallback F) (empty : c.stored = []) :
    ∀ entry ∈ (FastAlgorithmCallback.fill f n c).stored, entry.1.2 = 0 := by
  induction n with
  | zero => simp [FastAlgorithmCallback.fill, empty]
  | succ n ih =>
    intro entry member
    rcases List.mem_cons.mp member with rfl | old
    · rfl
    · exact ih entry old

/-- A call of `OnIteration` stores its form in every bucket that wants it. -/
theorem Delivered.onIteration (delivered : Delivered r f sent s) {form : F}
    (recent : ∀ j ∈ indices sent, j < i + checkpointInterval)
    (run : s.handle r (.onIteration form i) = .done t) :
    Delivered r f (sent ++ [.onIteration form i]) t := by
  have interval : checkpointInterval = 10000 := rfl
  obtain ⟨weso, call, last⟩ := Exec.bind_eq_done.mp run
  obtain rfl := Exec.done.inj last
  obtain ⟨c₁, checkpoints, keep, rfl, -⟩ := FastAlgorithmCallback.onIteration_cases call
  obtain ⟨sameS, sameM, sameI⟩ := keepForms_frame keep
  have single : ¬s.weso.multiProcMachine = true := by simp [delivered.single]
  rw [FastAlgorithmCallback.keepForms, if_neg single] at keep
  have near : ∀ entry ∈ s.weso.stored, entry.1.2 < i + 1 + 2 ^ 16 := by
    intro entry member
    cases exponent : entry.1.2 with
    | zero => omega
    | succ m =>
      have := recent m (delivered.known entry member m exponent)
      omega
  have visited := delivered.table.visits delivered.timely near le_rfl keep
  constructor
  case single => exact sameM.trans delivered.single
  case table => exact visited.table.congr rfl rfl rfl
  case published =>
    simp only [sameI, delivered.published, iterations, List.foldl_append, List.foldl_cons, List.foldl_nil]
  case timely => exact visited.timely
  case first =>
    intro b lt
    refine (visited.lookup b 0).trans ?_
    rw [if_neg (by omega)]
    exact delivered.first b (sameS ▸ lt)
  case later =>
    intro b lt m member kept
    have lt : b < s.weso.segments := sameS ▸ lt
    rw [lastDelivered_snoc]
    by_cases here : i = m
    · subst here
      refine ⟨form, if_pos rfl, (visited.lookup b (i + 1)).trans ?_⟩
      rw [if_pos ⟨rfl, lt, kept⟩]
    · rw [if_neg here]
      rcases RepeatedSquare.mem_indices_append_onIteration.mp member with old | new
      · obtain ⟨form', found, stored⟩ := delivered.later b lt m old kept
        refine ⟨form', found, (visited.lookup b (m + 1)).trans ?_⟩
        rw [if_neg (by omega), stored]
      · exact absurd new.symm here
  case known =>
    intro entry member m exponent
    rw [RepeatedSquare.mem_indices_append_onIteration]
    rcases visited.members entry member with old | new
    · exact .inl (delivered.known entry old m exponent)
    · exact .inr (by omega)

theorem Delivered.noCall (delivered : Delivered r f sent s) {event : Event F}
    (noCall : event.index? = none) (run : s.handle r event = .done t) :
    Delivered r f (sent ++ [event]) t := by
  have same := RepeatedSquare.indices_append_of_noCall sent noCall
  have later : ∀ b < s.weso.segments, ∀ m ∈ indices (sent ++ [event]), Kept b (m + 1) → ∃ form,
      lastDelivered m (sent ++ [event]) = some form ∧
        s.weso.stored.lookup (b, m + 1) = some (r.setForm form) := by
    intro b lt m member kept
    rw [lastDelivered_snoc_of_noCall _ noCall]
    exact delivered.later b lt m (same ▸ member) kept
  have known : ∀ entry ∈ s.weso.stored, ∀ m, entry.1.2 = m + 1 → m ∈ indices (sent ++ [event]) :=
    same ▸ delivered.known
  cases event with
  | onIteration => simp [Event.index?] at noCall
  | setIterations m =>
    obtain rfl := Exec.done.inj run
    exact { delivered with
      table := delivered.table.congr rfl rfl rfl
      published := (RepeatedSquare.iterations_append_setIterations _ _).symm
      later := later
      known := known }
  | _ =>
    obtain rfl := Exec.done.inj run
    exact { delivered with
      published := delivered.published.trans (by simp [iterations])
      later := later
      known := known }

theorem Delivered.other (delivered : Delivered r f sent s) {next : Step F}
    (noEvent : ∀ event, next ≠ .event event) (run : s.step r next = .done t) : Delivered r f sent t := by
  have single : ¬s.weso.multiProcMachine = true := by simp [delivered.single]
  cases next with
  | event event => exact absurd rfl (noEvent event)
  | work w =>
    rw [NWeso.step, if_neg single] at run
    obtain rfl := Exec.done.inj run
    exact delivered
  | observe =>
    obtain rfl := Exec.done.inj run
    exact { delivered with }
  | getFinishedSegment =>
    rcases getFinishedSegment_cases run with ⟨-, rfl, -⟩ | ⟨-, rfl⟩ | ⟨-, rfl⟩ <;> exact { delivered with }
  | appendSegment bucket =>
    rcases appendSegment_cases run with rfl | ⟨-, -, -, rfl⟩ <;> exact { delivered with }
  | prove iteration =>
    obtain rfl := prove_eq run
    exact delivered

theorem Reachable.delivered (reachable : Reachable IsPower r (mode false limit) segments f sent s)
    (few : segments ≤ 15) (square : RepeatedSquare.Squares IsPower r.square) (zero : IsPower 0 f) :
    Delivered r f sent s := by
  induction reachable with
  | start run =>
    obtain ⟨-, rfl⟩ := start_eq run
    obtain ⟨sameS, sameM, -, sameI⟩ := fill_frame f segments
      ⟨segments, false, fun _ => none, fun i => if i = 0 then some f else none, f, 0, []⟩
    have zeros := mem_fill f segments
      ⟨segments, false, fun _ => none, fun i => if i = 0 then some f else none, f, 0, []⟩ rfl
    constructor
    case single => exact sameM
    case table => exact Table.fill f few rfl rfl le_rfl
    case published => exact sameI
    case timely =>
      refine List.Pairwise.imp_of_mem (fun {new old} _ oldMember _ => ?_)
        (List.pairwise_of_forall fun _ _ => True.intro)
      rw [zeros old oldMember]
      exact fun _ => Nat.zero_le _
    case first => exact fun b lt => lookup_fill f segments _ (lt.trans_eq sameS)
    case later => simp [indices]
    case known =>
      intro entry member m exponent
      have := zeros entry member
      omega
  | @event sent s t loop event before inner part run ih =>
    have feed := (before.event inner part run).feed square zero
    obtain ⟨-, allowed⟩ := feed.last
    cases allowed with
    | onIteration _ _ recent => exact ih.onIteration recent run
    | _ => exact ih.noCall rfl run
  | other _ noEvent run ih => exact ih.other noEvent run

end SingleProcessor

section Handed

/-- How far the intermediates are known to be stored. -/
def settled (s : NWeso F) : ℕ :=
  if s.weso.multiProcMachine then s.storage.intermediatesIter else s.weso.iterations

/-- What the event loop knows: segments are only made of settled iterations. -/
structure Handed (sent : List (Event F)) (s : NWeso F) : Prop where
  published : s.weso.iterations = iterations sent
  observed : s.vdfIteration ≤ s.weso.iterations
  returned : s.intermediatesIter ≤ settled s
  appended : ∀ b, segmentSize b ∣ s.lastAppended b
  handed : ∀ p ∈ s.handed, p.1 < s.weso.segments ∧ segmentSize p.1 ∣ p.2 ∧
    p.2 + segmentSize p.1 ≤ settled s ∧ p.2 + segmentSize p.1 ≤ 2 ^ 34

/-- More iterations are settled, and the event loop has not moved. -/
theorem Handed.grow {sent' : List (Event F)} (handed : Handed sent s)
    (published : t.weso.iterations = iterations sent')
    (grows : s.weso.iterations ≤ t.weso.iterations) (more : settled s ≤ settled t)
    (frame : t.weso.segments = s.weso.segments ∧ t.vdfIteration = s.vdfIteration ∧
      t.intermediatesIter = s.intermediatesIter ∧ t.lastAppended = s.lastAppended ∧ t.handed = s.handed) :
    Handed sent' t := by
  obtain ⟨sameS, sameV, sameI, sameL, sameH⟩ := frame
  constructor
  case published => exact published
  case observed => exact sameV ▸ handed.observed.trans grows
  case returned => exact sameI ▸ handed.returned.trans more
  case appended => exact sameL ▸ handed.appended
  case handed =>
    intro p member
    rw [sameH] at member
    obtain ⟨inside, whole, known, bound⟩ := handed.handed p member
    exact ⟨sameS ▸ inside, whole, known.trans more, bound⟩

theorem Handed.event (handed : Handed sent s) {event : Event F}
    (allowed : RepeatedSquare.Allowed IsPower sent event) (run : s.handle r event = .done t) :
    Handed (sent ++ [event]) t := by
  cases allowed with
  | @onIteration form i =>
    obtain ⟨weso, call, last⟩ := Exec.bind_eq_done.mp run
    obtain rfl := Exec.done.inj last
    obtain ⟨c₁, checkpoints, keep, rfl, -⟩ := FastAlgorithmCallback.onIteration_cases call
    obtain ⟨sameS, sameM, sameI⟩ := keepForms_frame keep
    have same : iterations (sent ++ [.onIteration form i]) = iterations sent := by simp [iterations]
    refine handed.grow (by rw [same]; exact sameI.trans handed.published) sameI.ge ?_
      ⟨sameS, rfl, rfl, rfl, rfl⟩
    simp only [settled, sameM, sameI, le_refl]
  | @setIterations m grows =>
    obtain rfl := Exec.done.inj run
    have le : s.weso.iterations ≤ m := handed.published.trans_le grows
    refine handed.grow (RepeatedSquare.iterations_append_setIterations _ _).symm le ?_
      ⟨rfl, rfl, rfl, rfl, rfl⟩
    unfold settled
    split_ifs
    · exact le_rfl
    · exact le
  | submitCheckpoint =>
    obtain rfl := Exec.done.inj run
    exact handed.grow (handed.published.trans (by simp [iterations])) le_rfl le_rfl ⟨rfl, rfl, rfl, rfl, rfl⟩
  | newEvent =>
    obtain rfl := Exec.done.inj run
    exact handed.grow (handed.published.trans (by simp [iterations])) le_rfl le_rfl ⟨rfl, rfl, rfl, rfl, rfl⟩

theorem Handed.other (handed : Handed sent s) {next : Step F} (noEvent : ∀ event, next ≠ .event event)
    (run : s.step r next = .done t) : Handed sent t := by
  cases next with
  | event event => exact absurd rfl (noEvent event)
  | work w =>
    rw [NWeso.step] at run
    split_ifs at run
    · obtain ⟨⟨sameS, sameM, sameI⟩, sameT, frame⟩ := work_frame run
      refine handed.grow (sameI.trans handed.published) sameI.ge ?_ ⟨sameS, frame⟩
      simp only [settled, sameM, sameI, sameT, le_refl]
    · obtain rfl := Exec.done.inj run
      exact handed
  | observe =>
    obtain rfl := Exec.done.inj run
    exact { handed with observed := le_rfl }
  | getFinishedSegment =>
    rcases getFinishedSegment_cases run with ⟨multi, rfl, -⟩ | ⟨multi, rfl⟩ | ⟨single, rfl⟩
    · refine handed.grow handed.published le_rfl ?_ ⟨rfl, rfl, rfl, rfl, rfl⟩
      simp only [settled, multi, if_true]
      exact Nat.le_add_right _ _
    · exact { handed with returned := by simp only [settled, multi, if_true, le_refl] }
    · exact { handed with
        returned := by
          simp only [settled, single, Bool.false_eq_true, if_false]
          exact handed.observed }
  | appendSegment bucket =>
    rcases appendSegment_cases run with rfl | ⟨inside, arrived, room, rfl⟩
    · exact handed
    · have whole := handed.appended bucket
      constructor
      case published => exact handed.published
      case observed => exact handed.observed
      case returned => exact handed.returned
      case appended =>
        intro b
        by_cases same : b = bucket
        · subst same
          simp only [Function.update_self]
          exact Nat.dvd_add_self_right.mpr whole
        · simp only [Function.update_of_ne same]
          exact handed.appended b
      case handed =>
        intro p member
        rcases List.mem_append.mp member with old | new
        · exact handed.handed p old
        · obtain rfl := List.mem_singleton.mp new
          refine ⟨inside, whole, arrived.trans handed.returned, ?_⟩
          have part : 2 ^ 16 ∣ s.lastAppended bucket + segmentSize bucket :=
            (Nat.pow_dvd_pow 2 (Nat.le_add_right 16 _)).trans (Nat.dvd_add_self_right.mpr whole)
          simp only [FastAlgorithmCallback.checkpointsCapacity] at room
          show s.lastAppended bucket + segmentSize bucket ≤ 2 ^ 34
          omega
  | prove iteration =>
    obtain rfl := prove_eq run
    exact handed

theorem Reachable.handed (reachable : Reachable IsPower r (mode multi limit) segments f sent s)
    (square : RepeatedSquare.Squares IsPower r.square) (zero : IsPower 0 f) : Handed sent s := by
  induction reachable with
  | start run =>
    obtain ⟨-, rfl⟩ := start_eq run
    obtain ⟨-, -, -, sameI⟩ := fill_frame f segments
      ⟨segments, multi, fun _ => none, fun i => if i = 0 then some f else none, f, 0, []⟩
    exact ⟨sameI, Nat.zero_le _, Nat.zero_le _, fun b => dvd_zero _, by simp [NWeso.start]⟩
  | @event sent s t loop event before inner part run ih =>
    have feed := (before.event inner part run).feed square zero
    exact ih.event feed.last.2 run
  | other _ noEvent run ih => exact ih.other noEvent run

end Handed

section Delivered

theorem covered_iterations (feed : Feed IsPower sent) : Covered IsPower (iterations sent) sent := by
  induction feed with
  | nil => exact fun i lt => absurd lt (Nat.not_lt_zero i)
  | @snoc sent event _ allowed ih =>
    have keep (noCall : event.index? = none) {n : ℕ} (covered : Covered IsPower n sent) :
        Covered IsPower n (sent ++ [event]) := by
      intro i lt
      rw [lastDelivered_snoc_of_noCall _ noCall]
      exact covered i lt
    cases allowed with
    | @onIteration form i published =>
      have same : iterations (sent ++ [.onIteration form i]) = iterations sent := by simp [iterations]
      rw [same]
      intro j lt
      have other : ¬i = j := by omega
      rw [lastDelivered_snoc, if_neg other]
      exact ih j lt
    | setIterations _ covered =>
      rw [RepeatedSquare.iterations_append_setIterations]
      exact keep rfl covered
    | submitCheckpoint => simpa [iterations] using keep rfl ih
    | newEvent => simpa [iterations] using keep rfl ih

/-- Below what is settled, the form stored last for an exponent is the right one. -/
theorem Reachable.lookup (reachable : Reachable IsPower r (mode multi limit) segments f sent s)
    (few : segments ≤ 15) (right : r.Right IsPower) (zero : IsPower 0 f) {bucket e : ℕ}
    (inside : bucket < segments) (kept : Kept bucket e) (below : e < settled s) :
    (∃ form, ((bucket, e), form) ∈ s.weso.stored) ∧
      ∀ form, s.weso.stored.lookup (bucket, e) = some form → IsPower e form := by
  have member_of_lookup {form : F} (found : s.weso.stored.lookup (bucket, e) = some form) :
      ((bucket, e), form) ∈ s.weso.stored := by
    obtain ⟨before, after, split, -⟩ := List.lookup_eq_some_iff.mp found
    rw [split]
    exact List.mem_append_right _ List.mem_cons_self
  cases multi with
  | true =>
    have sound := reachable.sound right zero
    rw [settled, if_pos sound.multi] at below
    have wanted : FastAlgorithmCallback.wants e bucket = .done true := by
      rw [wants_eq (by omega), decide_eq_true kept]
    obtain ⟨form, member, -⟩ := sound.finished.2 bucket (reachable.frame.1 ▸ inside) e (Nat.zero_le e) below wanted
    exact ⟨⟨form, member⟩, fun form found => sound.forms _ (member_of_lookup found)⟩
  | false =>
    have delivered := reachable.delivered few right.square zero
    have here : bucket < s.weso.segments := reachable.frame.1 ▸ inside
    rw [settled, if_neg (by simp [delivered.single]), delivered.published] at below
    cases e with
    | zero =>
      have found := delivered.first bucket here
      refine ⟨⟨f, member_of_lookup found⟩, fun form found' => ?_⟩
      rw [found] at found'
      exact Option.some.inj found' ▸ zero
    | succ m =>
      obtain ⟨form, last, power⟩ := covered_iterations (reachable.feed right.square zero) m (by omega)
      obtain ⟨form', last', found⟩ := delivered.later bucket here m
        (RepeatedSquare.mem_indices_of_lastDelivered last) kept
      rw [last] at last'
      obtain rfl := Option.some.inj last'
      refine ⟨⟨_, member_of_lookup found⟩, fun form found' => ?_⟩
      rw [found] at found'
      exact Option.some.inj found' ▸ right.setForm _ _ power

end Delivered

end NWeso

end ChiaVdf
