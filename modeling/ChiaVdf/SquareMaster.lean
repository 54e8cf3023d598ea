import ChiaVdf.SquareEntries

/-! The phases of the master keep to the discipline. -/
namespace ChiaVdf
namespace SquareThreads

open Handover Handover.Discipline

section Master

variable {p : Setting} {a b : ℤ} {doomed : Prop} {n : ℕ} {s : Start} {v v' : View Value}

/-- What the master knows all through an iteration. -/
structure Base (s : Start) (n : ℕ) (v : View Value) : Prop where
  a : Wrote .master n v (.number (.as n.bodd)) s.a
  b : Wrote .master n v (.number (.bs n.bodd)) s.b
  abIndex : Wrote .master n v .abIndex n.bodd
  bHigher : Wrote .master n v .bHigher s.bHigher
  numValid : Wrote .master n v .numValid n

/-- What it knows behind its gcd. -/
structure Reduced (p : Setting) (s : Start) (n : ℕ) (v : View Value) : Prop where
  base : Base s n v
  fence : 87 * n ≤ v.fence
  start : SquareState.phase0Master s.a s.b p.L = true
  returned : Returned p s .gcd10 n v

/-- What an iteration of the master starts from. -/
inductive OfBase (n : ℕ) : Field → Prop
  | as : OfBase n (.number (.as n.bodd))
  | bs : OfBase n (.number (.bs n.bodd))
  | abIndex : OfBase n .abIndex
  | bHigher : OfBase n .bHigher
  | numValid : OfBase n .numValid

theorem OfBase.own {field : Field} (ofBase : OfBase n field) : Own .master field := by
  cases ofBase <;> exact ⟨rfl, rfl⟩

theorem OfBase.not_ofGcd {field : Field} {g : Gcd} (ofBase : OfBase n field) : ¬OfGcd g field := by
  rintro ⟨⟩ <;> cases ofBase

theorem Base.mono (base : Base s n v)
    (same : ∀ field, OfBase n field → v'.known field = v.known field) : Base s n v' :=
  ⟨(same _ .as).trans base.a, (same _ .bs).trans base.b, (same _ .abIndex).trans base.abIndex,
    (same _ .bHigher).trans base.bHigher, (same _ .numValid).trans base.numValid⟩

/-- What it relies on behind its gcd. -/
inductive Relied (n : ℕ) : Field → Prop
  | as : Relied n (.number (.as n.bodd))
  | bs : Relied n (.number (.bs n.bodd))
  | abIndex : Relied n .abIndex
  | bHigher : Relied n .bHigher
  | numValid : Relied n .numValid
  | gcdAs (slot : Bool) : Relied n (.number (.gcdAs .gcd10 slot))
  | gcdBs (slot : Bool) : Relied n (.number (.gcdBs .gcd10 slot))
  | endIndex : Relied n (.endIndex .gcd10)

theorem OfBase.relied {field : Field} (ofBase : OfBase n field) : Relied n field := by
  cases ofBase <;> constructor

theorem Relied.own {field : Field} (relied : Relied n field) : Own .master field := by
  cases relied <;> exact ⟨rfl, rfl⟩

theorem Relied.not_ofProduct {field : Field} {g : Gcd} (relied : Relied n field) : ¬OfProduct g field := by
  rintro ⟨⟩ <;> cases relied

theorem Reduced.mono (reduced : Reduced p s n v) (fence : v.fence ≤ v'.fence)
    (same : ∀ field, Relied n field → v'.known field = v.known field) : Reduced p s n v' := by
  obtain ⟨base, before, start, fits, finishes, endIndex, numberA, numberB⟩ := reduced
  exact ⟨base.mono fun field ofBase => same field ofBase.relied, before.trans fence, start, fits, finishes,
    (same _ .endIndex).trans endIndex, (same _ (.gcdAs _)).trans numberA,
    (same _ (.gcdBs _)).trans numberB⟩

theorem Reduced.advanced {target : ℕ} (reduced : Reduced p s n v) :
    Reduced p s n (advancedTo p a b .master v target) :=
  reduced.mono le_rfl fun _ relied => advancedTo_known relied.own

theorem Reduced.passed {target : ℕ} (reduced : Reduced p s n v) : Reduced p s n (v.passed target) :=
  reduced.mono (le_max_left _ _) fun _ _ => rfl

theorem Reduced.wrote {field : Field} {cell : Cell (Value field)} (reduced : Reduced p s n v)
    (other : ¬Relied n field) : Reduced p s n (v.wrote field cell) := by
  refine reduced.mono le_rfl fun field' relied => View.wrote_other ?_
  rintro rfl
  exact other relied

theorem Base.higher (base : Base s n v) :
    Wrote .master n v (.number (if s.bHigher then .bs n.bodd else .as n.bodd)) s.operands10.1 := by
  unfold Start.operands10
  cases s.bHigher
  · exact base.a
  · exact base.b

theorem Base.lower (base : Base s n v) :
    Wrote .master n v (.number (if s.bHigher then .as n.bodd else .bs n.bodd)) s.operands10.2 := by
  unfold Start.operands10
  cases s.bHigher
  · exact base.b
  · exact base.a

theorem phase0Master_keeps (now : start p a b n = some s) (base : Base s n v)
    (counter : v.counter = 87 * n) (stops : s.next p = none → doomed) :
    Keeps p a b doomed .master (fun _ v' => v'.counter = 87 * n + 41 ∧ Reduced p s n v')
      (phase0Master p n) v := by
  have within : v.counter < 87 * (n + 1) := by omega
  refine .fence (.fetch within base.abIndex (.fetch within base.abIndex (.load within base.a (.load within base.b ?_))))
  by_cases start : SquareState.phase0Master s.a s.b p.L = true
  · rw [if_neg (by rw [start]; nofun)]
    have fence : 87 * n ≤ (v.passed (counterStart n + counterStartPhase0)).fence := le_max_right _ _
    have mine {field : Field} (ofGcd : OfGcd .gcd10 field) (entry : ∀ i, field ≠ .uvEntry .gcd10 i) :
        Mine .master field v.counter (v.passed (counterStart n + counterStartPhase0)).fence :=
      ofGcd.mine fence (by rw [counter]; exact Nat.lt_add_of_pos_right (by decide))
        fun i same => absurd same (entry i)
    refine .fetch within base.bHigher (.load within base.higher (.store (mine (.gcdAs _) nofun) ?_))
    refine .fetch within (.wrote base.bHigher nofun) (.load within (.wrote base.lower ?_)
      (.store (mine (.gcdBs _) nofun) ?_))
    · cases s.bHigher <;> nofun
    refine gcdUnsigned_keeps (g := .gcd10) now counter fence (.wrote .self nofun) .self rfl ?_
      fun v' counter' returned frame => ⟨counter', ?_, ?_, start, returned⟩
    · rintro (unfit | endless)
      · exact stops (Start.next_none_of_master fun goesOn => unfit goesOn.fits)
      · exact stops (Start.next_none_of_master fun goesOn => endless goesOn.finishes)
    · have beside := ((Frame.wrote (g := .gcd10) (.gcdAs _)).trans (.wrote (.gcdBs _))).trans frame
      exact base.mono fun field ofBase => beside.2 field ofBase.own ofBase.not_ofGcd
    · rw [frame.1]
      exact fence
  · rw [if_pos (Bool.not_eq_true _ ▸ start)]
    exact .giveUp (stops (Start.next_none_of_master fun goesOn => start goesOn.start))

/-- What the master knows behind the gcd of the slave. -/
structure Cofactored (p : Setting) (s : Start) (n : ℕ) (v : View Value) : Prop where
  reduced : Reduced p s n v
  fence : 87 * n + 42 ≤ v.fence
  applied : Applied p s .gcdST n v
  vIndex : Wrote .master n v .vIndex (s.gcd p .gcdST).lastSlot

theorem phase1Master_keeps (now : start p a b n = some s) (reduced : Reduced p s n v)
    (counter : v.counter = 87 * n + 42) (stops : s.next p = none → doomed) :
    Keeps p a b doomed .master (fun _ v' => v'.counter = 87 * n + 42 ∧ Cofactored p s n v')
      (phase1Master n) v := by
  have fence : 87 * n + 42 ≤ (v.passed (counterStart n + counterStartPhase1)).fence := le_max_right _ _
  have mine {field : Field} (ofProduct : OfProduct .gcdST field) :
      Mine .master field v.counter (v.passed (counterStart n + counterStartPhase1)).fence :=
    ofProduct.mine (n := n) counter.le (by omega)
  have entered : 87 * n ≤ v.counter := by omega
  have past : 87 * n ≤ (v.passed (counterStart n + counterStartPhase1)).fence := by omega
  refine .fence (.store (mine (.cofactor0 _)) (.store (mine (.cofactor1 _)) (.bind ?_)))
  refine applyEntries_keeps (g := .gcdST) now rfl ⟨entered, counter.le, past, .inl (Nat.zero_le _),
    .wrote .self nofun, .self⟩ (fun endless => stops (Start.next_none_of_slave fun goesOn =>
      endless goesOn.finishes)) fun v' applied beside' => ?_
  have beside := (Beside.passed.trans ((Beside.wrote (.cofactor0 _)).trans (.wrote (.cofactor1 _)))).trans
    beside'
  have counter' := beside.counter.trans counter
  have fence' := fence.trans beside'.fence
  refine .putLast (mine_before n ⟨rfl, rfl⟩ rfl trivial (by omega) (by omega))
    ⟨counter', .wrote (reduced.mono beside.fence fun field relied => ?_) nofun, fence', ?_, .self⟩
  · exact beside.known field relied.not_ofProduct
  · obtain ⟨finishes, cofactor0, cofactor1⟩ := applied
    exact ⟨finishes, cofactor0.wrote nofun, cofactor1.wrote nofun⟩

/-- What the master knows behind its phase 2. -/
structure Halved (p : Setting) (s : Start) (n : ℕ) (v : View Value) : Prop where
  reduced : Reduced p s n v
  h : Wrote .master n v (.number .h) (s.h p)
  v1H : Wrote .master n v (.number .v1H) (s.v1 p * s.h p)

theorem phase2Master_keeps (now : start p a b n = some s) (cofactored : Cofactored p s n v)
    (counter : v.counter = 87 * n + 84) :
    Keeps p a b doomed .master (fun _ v' => v'.counter = 87 * n + 84 ∧ Halved p s n v')
      (phase2Master p n) v := by
  obtain ⟨reduced, -, ⟨-, -, cofactor1⟩, vIndex⟩ := cofactored
  have entered : 87 * n ≤ v.counter := by omega
  have within : v.counter < 87 * (n + 1) := by omega
  refine .fence (.fetch within reduced.base.abIndex (.fetch within reduced.base.abIndex (.fetch within vIndex ?_)))
  refine .bind (.fetch within vIndex (.load within cofactor1 ?_))
  refine .loadValue now rfl rfl (42, 84) rfl (le_max_right _ _) entered counter.le trivial trivial (fun _ is => is) ?_
  refine .load within cofactor1 (.store (mine_unhanded ⟨rfl, rfl⟩ rfl) (.fence ?_))
  refine .fetchValue now rfl rfl (84, 84) rfl (le_max_right _ _) entered counter.le trivial trivial (fun _ is => is) ?_
  refine .load within (.passed (.wrote reduced.base.b nofun)) ?_
  refine .loadValue now rfl rfl (84, 84) rfl (le_max_right _ _) entered counter.le trivial rfl (fun _ is => is) ?_
  refine .store (mine_unhanded ⟨rfl, rfl⟩ rfl) (.load within .self (.load within (.wrote (.passed .self) nofun) ?_))
  refine .store (mine_unhanded ⟨rfl, rfl⟩ rfl) (.load within .self ?_)
  refine .load within (.wrote (.wrote (.passed (.wrote reduced.base.a nofun)) nofun) nofun) ?_
  refine .store (mine_unhanded ⟨rfl, rfl⟩ rfl) (.bind (.negateIf within .self (mine_unhanded ⟨rfl, rfl⟩ rfl) ?_))
  refine .load within (.wrote (.wrote (.wrote (.wrote (.passed (.wrote cofactor1 nofun)) nofun) nofun) nofun) nofun) ?_
  refine .load within .self (.storeLast (mine_unhanded ⟨rfl, rfl⟩ rfl) ⟨counter, ?_, .wrote .self nofun, .self⟩)
  refine .wrote (.wrote (.wrote (.wrote (.wrote ?_ nofun) nofun) nofun) nofun) nofun
  exact .passed (.wrote reduced.passed nofun)

/-- What the master knows behind its phase 3. -/
structure Doubled (p : Setting) (s : Start) (n : ℕ) (v : View Value) : Prop where
  reduced : Reduced p s n v
  h : Wrote .master n v (.number .h) (s.h p)
  newA : Wrote .master (n + 1) v (.number (.as !n.bodd)) (s.newA p)
  A2 : Wrote .master n v (.number .A2) (s.newA p * 2)

theorem serves_next (n : ℕ) : (!n.bodd) = (n + 1).bodd := (Nat.bodd_succ n).symm

theorem not_relied_next (n : ℕ) :
    ¬Relied n (.number (.as !n.bodd)) ∧ ¬Relied n (.number (.bs !n.bodd)) := by
  constructor <;> intro relied
  all_goals
    generalize slot : (!n.bodd) = x at relied
    cases relied
    simp at slot

theorem phase3Master_keeps (now : start p a b n = some s) (halved : Halved p s n v)
    (counter : v.counter = 87 * n + 85) :
    Keeps p a b doomed .master (fun _ v' => v'.counter = 87 * n + 85 ∧ Doubled p s n v')
      (phase3Master n) v := by
  obtain ⟨reduced, h, v1H⟩ := halved
  have entered : 87 * n ≤ v.counter := by omega
  have past : 87 * n ≤ (v.passed (counterStart n + counterStartPhase3)).fence := reduced.passed.fence
  have within : v.counter < 87 * (n + 1) := by omega
  have within' : v.counter < 87 * (n + 1 + 1) := by omega
  refine .fence (.fetch within reduced.base.abIndex ?_)
  refine .loadValue now rfl rfl (85, 85) rfl (le_max_right _ _) entered counter.le trivial trivial (fun _ is => is) ?_
  refine .load within v1H (.store (mine_next ⟨rfl, rfl⟩ rfl (serves_next n) rfl (n := n) ?_ past) ?_)
  · rw [View.passed_counter]
    omega
  refine .load within' .self (.storeLast (mine_unhanded ⟨rfl, rfl⟩ rfl) ⟨counter, ?_, ?_, .wrote .self nofun, .self⟩)
  · exact .wrote (.wrote reduced.passed (not_relied_next n).1) nofun
  · exact .wrote (.wrote (.passed h) nofun) nofun

/-- What the next iteration starts from. -/
theorem phase4Master_keeps (now : start p a b n = some s) (doubled : Doubled p s n v)
    (counter : v.counter = 87 * n + 86) (stops : s.next p = none → doomed) :
    Keeps p a b doomed .master (fun _ v' => v'.counter = 87 * n + 86 ∧ 87 * n + 86 ≤ v'.fence ∧
      ∃ s', start p a b (n + 1) = some s' ∧ Base s' (n + 1) v') (phase4Master n) v := by
  obtain ⟨reduced, h, newA, A2⟩ := doubled
  obtain ⟨base, -, begun, fits, finishes, endIndex, numberA, numberB⟩ := reduced
  have entered : 87 * n ≤ v.counter := by omega
  have within : v.counter < 87 * (n + 1) := by omega
  have within' : v.counter < 87 * (n + 1 + 1) := by omega
  refine .fence (.fetch within base.abIndex
    (.fetch within base.abIndex (.fetch within endIndex (.load within numberA ?_))))
  by_cases one : (s.gcdEnd p .gcd10).1 ≠ 1
  · rw [if_pos one]
    refine .giveUp (stops (Start.next_none_of_master fun goesOn => one ?_))
    rw [goesOn.ends]
  rw [if_neg one]
  refine .fetch within endIndex (.load within numberB ?_)
  by_cases zero : (s.gcdEnd p .gcd10).2 ≠ 0
  · rw [if_pos zero]
    refine .giveUp (stops (Start.next_none_of_master fun goesOn => zero ?_))
    rw [goesOn.ends]
  rw [if_neg zero]
  have masterGoesOn : s.MasterGoesOn p :=
    ⟨begun, fits, finishes, Prod.ext (not_not.mp one) (not_not.mp zero)⟩
  refine .loadValue now rfl rfl (85, 86) rfl (le_max_right _ _) entered counter.le trivial trivial (fun _ is => is) ?_
  refine .load within h (.store (mine_unhanded ⟨rfl, rfl⟩ rfl) (.fence ?_))
  refine .loadHanded now rfl rfl (86, 86) rfl (le_max_right _ _) entered counter.le trivial trivial fun e is => ?_
  obtain ⟨rfl, slaveGoesOn⟩ := is
  refine .load within (.passed .self) (.store (mine_unhanded ⟨rfl, rfl⟩ rfl) (.load within .self ?_))
  refine .load within (.wrote (.passed (.wrote A2 nofun)) nofun) ?_
  have fence : 87 * n + 86 ≤ max (max v.fence (counterStart n + counterStartPhase3))
      (counterStart n + counterStartPhase4) := le_max_right _ _
  have fence' : 87 * n ≤ max (max v.fence (counterStart n + counterStartPhase3))
      (counterStart n + counterStartPhase4) := by omega
  have past : 87 * (n + 1) + 85 < max (max v.fence (counterStart n + counterStartPhase3))
      (counterStart n + counterStartPhase4) + 87 := by omega
  have before : v.counter < 87 * (n + 1) := by omega
  refine .store (mine_next ⟨rfl, rfl⟩ rfl (serves_next n) rfl before fence') ?_
  refine .load within' (.wrote (.wrote (.passed (.wrote newA nofun)) nofun) nofun) ?_
  refine .store (mine_next ⟨rfl, rfl⟩ rfl (serves_next n) rfl before fence') ?_
  refine .load within' (.wrote .self nofun) (.load within' .self ?_)
  refine .put (mine_before (n + 1) ⟨rfl, rfl⟩ rfl trivial before ((Nat.le_add_right _ _).trans_lt past)) ?_
  refine .fetch within (.wrote (.wrote (.wrote (.wrote (.passed (.wrote base.abIndex nofun)) nofun) nofun) nofun)
    nofun) ?_
  refine .put (mine_before (n + 1) ⟨rfl, rfl⟩ rfl trivial before past) ?_
  refine .fetch within (.wrote (.wrote (.wrote (.wrote (.wrote (.passed (.wrote base.numValid nofun)) nofun) nofun)
    nofun) nofun) nofun) ?_
  refine .putLast (mine_unhanded ⟨rfl, rfl⟩ rfl) ⟨counter, fence, _, (start_succ now).trans
    (Start.next_some slaveGoesOn masterGoesOn), ?_, ?_, ?_, ?_, .self⟩
  · rw [← serves_next]
    exact .wrote (.wrote (.wrote .self nofun) nofun) nofun
  · rw [← serves_next]
    exact .wrote (.wrote (.wrote (.wrote .self nofun) nofun) nofun) nofun
  · rw [← serves_next]
    exact .wrote .self nofun
  · exact .wrote (.wrote .self nofun) nofun

/-- The listener divides for the state that the next iteration starts from. -/
theorem assign_keeps (base : Base s (n + 1) v) (counter : v.counter = 87 * n + 86)
    (fence : 87 * n + 86 ≤ v.fence) :
    Keeps p a b doomed .master (fun _ v' => v'.counter = v.counter ∧ v'.fence = v.fence ∧ Base s (n + 1) v')
      (assign p (n + 1)) v := by
  have mine (field : Field) (both : shared field = true) : Mine .master field v.counter v.fence := by
    unfold Mine
    rw [if_pos both]
    refine ⟨n, ?_⟩
    unfold SharedWindow
    omega
  have within : v.counter < 87 * (n + 1 + 1) := by omega
  refine .fetch within base.numValid (.fetch within base.abIndex (.fetch within base.abIndex ?_))
  refine divideC_keeps (s := s) within mine (.inl ⟨rfl, within, base.a⟩) (.inl ⟨rfl, within, base.b⟩)
    fun v' counter' fence' same c remainder => ?_
  have base' : Base s (n + 1) v' := base.mono fun field ofBase => same field ofBase.own.2
  rw [← counter'] at within
  refine .load within remainder (.load within base'.a (.load within c ?_))
  split
  case isTrue => exact ⟨counter', fence', base'⟩
  case isFalse => exact .load within base'.a (.load within base'.b (.load within c ⟨counter', fence', base'⟩))

theorem onIterationMaster_keeps (base : Base s (n + 1) v) (counter : v.counter = 87 * n + 86)
    (fence : 87 * n + 86 ≤ v.fence) :
    Keeps p a b doomed .master (fun _ v' => v'.counter = v.counter ∧ v'.fence = v.fence ∧ Base s (n + 1) v')
      (onIteration p .master n) v := by
  unfold onIteration
  split
  case isTrue => exact .bind ((assign_keeps base counter fence).mono fun _ _ kept => kept)
  case isFalse => exact ⟨rfl, rfl, base⟩

/-- The master hands over what an iteration starts from. -/
theorem startPhase0Master_keeps {next : Unit → Action Unit} {post : Unit → View Value → Prop}
    (now : start p a b n = some s) (base : Base s n v) (le : v.counter ≤ 87 * n)
    (entered : 87 * n ≤ v.counter + 1) (legal : Legal (87 * n) v.fence)
    (rest : Keeps p a b doomed .master post (next ()) (advancedTo p a b .master v (counterStart n))) :
    Keeps p a b doomed .master post (startPhase n 0 >>= next) v := by
  refine .advance (y := 0) _ rfl (by decide) entered le legal ?_ rest
  intro field w own opened newly small serves written
  have opens := opens_of_window opened
  generalize w.1 = first at opens newly small
  cases opens
  case as slot =>
    obtain rfl : slot = n.bodd := serves
    exact ⟨_, base.a, s, now, rfl⟩
  case bs slot =>
    obtain rfl : slot = n.bodd := serves
    exact ⟨_, base.b, s, now, rfl⟩
  case abIndex => exact ⟨_, base.abIndex, s, now, rfl⟩
  case bHigher => exact ⟨_, base.bHigher, s, now, rfl⟩
  all_goals omega

/-- It hands over the cofactors behind the gcd of the slave. -/
theorem startPhase2Master_keeps {next : Unit → Action Unit} {post : Unit → View Value → Prop}
    (now : start p a b n = some s) (cofactored : Cofactored p s n v) (counter : v.counter = 87 * n + 42)
    (rest : Keeps p a b doomed .master post (next ()) (advancedTo p a b .master v (counterStart n + 84))) :
    Keeps p a b doomed .master post (startPhase n 2 >>= next) v := by
  obtain ⟨reduced, fence, ⟨finishes, cofactor0, cofactor1⟩, vIndex⟩ := cofactored
  refine .advance (y := 84) _ rfl (by decide) (by omega) (by omega)
    (legal_within reduced.fence (by decide)) ?_ rest
  intro field w own opened newly small serves written
  have opens := opens_of_window opened
  generalize w.1 = first at opens newly small
  have written' := written s now
  cases opens
  case v0s slot =>
    obtain rfl : slot = (s.gcd p .gcdST).lastSlot := written'
    exact ⟨_, cofactor0, s, now, rfl⟩
  case v1s slot =>
    obtain rfl : slot = (s.gcd p .gcdST).lastSlot := written'
    exact ⟨_, cofactor1, s, now, rfl⟩
  case vIndex => exact ⟨_, vIndex, s, now, rfl⟩
  case uvEntry g i le =>
    cases g
    · simp only [Gcd.delta, counterStartPhase0] at newly
      omega
    · cases own
  all_goals first | omega | cases own

/-- Nothing else of the master's is handed over when it starts a phase. -/
theorem startPhaseMaster_keeps {phase y : ℕ} {next : Unit → Action Unit} {post : Unit → View Value → Prop}
    (is : getCounterStart phase = y) (quiet : y = 42 ∨ y = 85 ∨ y = 86) (counter : v.counter + 1 = 87 * n + y)
    (past : 87 * n ≤ v.fence)
    (rest : Keeps p a b doomed .master post (next ()) (advancedTo p a b .master v (counterStart n + y))) :
    Keeps p a b doomed .master post (startPhase n phase >>= next) v := by
  unfold startPhase
  rw [is]
  refine .advance (y := y) _ rfl (by omega) (by omega) (by omega) (legal_within past (by omega)) ?_ rest
  intro field w own opened newly small serves written
  have opens := opens_of_window opened
  generalize w.1 = first at opens newly small
  cases opens
  case uvEntry g i le =>
    cases g
    · simp only [Gcd.delta, counterStartPhase0] at newly small
      omega
    · cases own
  all_goals first | omega | cases own

theorem Cofactored.advanced {target : ℕ} (cofactored : Cofactored p s n v) :
    Cofactored p s n (advancedTo p a b .master v target) := by
  obtain ⟨reduced, fence, ⟨finishes, cofactor0, cofactor1⟩, vIndex⟩ := cofactored
  exact ⟨reduced.advanced, fence, ⟨finishes, cofactor0.advanced (OfProduct.cofactor0 _).own,
    cofactor1.advanced (OfProduct.cofactor1 _).own⟩, vIndex.advanced ⟨rfl, rfl⟩⟩

theorem Halved.advanced {target : ℕ} (halved : Halved p s n v) :
    Halved p s n (advancedTo p a b .master v target) := by
  obtain ⟨reduced, h, v1H⟩ := halved
  exact ⟨reduced.advanced, h.advanced ⟨rfl, rfl⟩, v1H.advanced ⟨rfl, rfl⟩⟩

theorem Doubled.advanced {target : ℕ} (doubled : Doubled p s n v) :
    Doubled p s n (advancedTo p a b .master v target) := by
  obtain ⟨reduced, h, newA, A2⟩ := doubled
  exact ⟨reduced.advanced, h.advanced ⟨rfl, rfl⟩, newA.advanced ⟨rfl, rfl⟩, A2.advanced ⟨rfl, rfl⟩⟩

/-- The master in front of iteration `n`. -/
structure MasterAt (p : Setting) (a b : ℤ) (n : ℕ) (v : View Value) : Prop where
  le : v.counter ≤ 87 * n
  entered : 87 * n ≤ v.counter + 1
  legal : Legal (87 * n) v.fence
  base : ∃ s, SquareThreads.start p a b n = some s ∧ Base s n v

theorem iterationMaster_keeps (at_ : MasterAt p a b n v) (stops : start p a b (n + 1) = none → doomed) :
    Keeps p a b doomed .master (fun _ => MasterAt p a b (n + 1)) (do
      phases p .master n (List.range 5)
      onIteration p .master n) v := by
  obtain ⟨le, entered, legal, s, now, base⟩ := at_
  rw [start_succ now] at stops
  refine .bind ?_
  refine startPhase0Master_keeps now base le entered legal (.bind ?_)
  refine (phase0Master_keeps now (base.mono fun field ofBase => advancedTo_known ofBase.own) rfl stops).mono
    fun _ v done => ?_
  obtain ⟨counter, reduced⟩ := done
  refine startPhaseMaster_keeps (y := 42) rfl (.inl rfl) (by omega) reduced.fence (.bind ?_)
  refine (phase1Master_keeps now reduced.advanced rfl stops).mono fun _ v done => ?_
  obtain ⟨counter, cofactored⟩ := done
  refine startPhase2Master_keeps now cofactored counter (.bind ?_)
  refine (phase2Master_keeps now cofactored.advanced rfl).mono fun _ v done => ?_
  obtain ⟨counter, halved⟩ := done
  refine startPhaseMaster_keeps (y := 85) rfl (.inr (.inl rfl)) (by omega) halved.reduced.fence (.bind ?_)
  refine (phase3Master_keeps now halved.advanced rfl).mono fun _ v done => ?_
  obtain ⟨counter, doubled⟩ := done
  refine startPhaseMaster_keeps (y := 86) rfl (.inr (.inr rfl)) (by omega) doubled.reduced.fence (.bind ?_)
  refine (phase4Master_keeps now doubled.advanced rfl stops).mono fun _ v done => ?_
  obtain ⟨counter, fence, s', now', base'⟩ := done
  refine (onIterationMaster_keeps base' counter fence).mono fun _ v done => ?_
  obtain ⟨counter', fence', base''⟩ := done
  exact ⟨by omega, by omega, fun m before => by omega, s', now', base''⟩

end Master

end SquareThreads
end ChiaVdf
