import ChiaVdf.SquareMaster

/-! The phases of the slave keep to the discipline. -/
namespace ChiaVdf
namespace SquareThreads

open Handover Handover.Discipline

section Slave

variable {p : Setting} {a b : ℤ} {doomed : Prop} {n : ℕ} {s : Start} {v v' : View Value}

/-- What the slave relies on from the master all through an iteration. -/
structure Follows (n : ℕ) (v : View Value) : Prop where
  fence : 87 * n ≤ v.fence
  entered : 87 * n ≤ v.counter
  till : v.counter ≤ 87 * n + 85

theorem Follows.findsA (follows : Follows n v) (now : start p a b n = some s) :
    Finds p a b .slave v .master n (.number (.as n.bodd)) s.a := by
  refine .inr ⟨rfl, rfl, turn_within follows.entered follows.till (by decide),
    ⟨(0, 85), rfl, follows.fence, follows.till, rfl, fun _ _ => trivial⟩, ?_⟩
  rintro x ⟨s', now', rfl⟩
  rw [Option.some.inj (now.symm.trans now')]

theorem Follows.findsB (follows : Follows n v) (now : start p a b n = some s) :
    Finds p a b .slave v .master n (.number (.bs n.bodd)) s.b := by
  refine .inr ⟨rfl, rfl, turn_within follows.entered follows.till (by decide),
    ⟨(0, 85), rfl, follows.fence, follows.till, rfl, fun _ _ => trivial⟩, ?_⟩
  rintro x ⟨s', now', rfl⟩
  rw [Option.some.inj (now.symm.trans now')]

theorem Beside.follows {g : Gcd} (beside : Beside g v v') (follows : Follows n v) : Follows n v' :=
  ⟨follows.fence.trans beside.fence, follows.entered.trans_eq beside.counter.symm,
    beside.counter.trans_le follows.till⟩

theorem Beside.keeps {g : Gcd} {t : Side} {field : Field} {content : Value field} (beside : Beside g v v')
    (known : Wrote t n v field content) (other : ¬OfProduct g field) : Wrote t n v' field content :=
  (beside.known field other).trans known

/-- What the entries of the gcd of the master are applied to. -/
theorem startU_keeps {α : Type} {post : α → View Value → Prop} {next : Unit → Action α}
    (now : start p a b n = some s) (counter : v.counter = 87 * n) (fence : 87 * n ≤ v.fence)
    (rest : ∀ v', Beside .gcd10 v v' → Wrote .slave n v' (.number (.U0s false)) s.startU.1 →
      Wrote .slave n v' (.number (.U1s false)) s.startU.2 →
      Keeps p a b doomed .slave post (next ()) v') :
    Keeps p a b doomed .slave post (startU n n.bodd >>= next) v := by
  have mine {field : Field} (ofProduct : OfProduct .gcd10 field) : Mine .slave field v.counter v.fence :=
    ofProduct.mine (n := n) counter.le fence
  have mine0 := mine (.cofactor0 false)
  have mine1 := mine (.cofactor1 false)
  have follows : Follows n v := ⟨fence, counter.ge, by omega⟩
  have within : v.counter < 87 * (n + 1) := by omega
  have signs : s.startU = (if decide (s.b < 0) then -(if s.bHigher then 1 else 0) else if s.bHigher then 1 else 0,
      if decide (s.b < 0) then -(if s.bHigher then 0 else 1) else if s.bHigher then 0 else 1) := by
    unfold Start.startU
    cases s.bHigher <;> by_cases negative : s.b < 0 <;> simp [negative]
  rw [signs] at rest
  have first := follows.findsB now
  refine .bind ?_
  refine .fetchValue now rfl rfl (0, 0) rfl fence counter.ge counter.le trivial trivial (fun _ is => is) ?_
  refine .fetchValue now rfl rfl (0, 0) rfl fence counter.ge counter.le trivial trivial (fun _ is => is) ?_
  cases higher : s.bHigher with
  | true =>
    rw [higher] at rest
    simp only [if_true] at rest ⊢
    refine .store mine0 (.store mine1 (.found (.wrote (.wrote first nofun) nofun) (.bind ?_)))
    refine .negateIf within (.wrote .self nofun) mine0 (.negateIf within (.wrote .self nofun) mine1 ?_)
    refine rest _ ?_ (.wrote .self nofun) .self
    exact ((Beside.wrote (.cofactor0 _)).trans (.wrote (.cofactor1 _))).trans
      ((Beside.wrote (.cofactor0 _)).trans (.wrote (.cofactor1 _)))
  | false =>
    rw [higher] at rest
    simp only [Bool.false_eq_true, if_false] at rest ⊢
    refine .store mine1 (.store mine0 (.found (.wrote (.wrote first nofun) nofun) (.bind ?_)))
    refine .negateIf within .self mine0 (.negateIf within (.wrote (.wrote .self nofun) nofun) mine1 ?_)
    refine rest _ ?_ (.wrote .self nofun) .self
    exact ((Beside.wrote (.cofactor1 _)).trans (.wrote (.cofactor0 _))).trans
      ((Beside.wrote (.cofactor0 _)).trans (.wrote (.cofactor1 _)))

theorem finishK_keeps {α : Type} {post : α → View Value → Prop} {k : Bool} {U0 : ℤ} {next : Unit → Action α}
    (now : start p a b n = some s) (counter : v.counter = 87 * n) (fence : 87 * n ≤ v.fence)
    (cofactor : Wrote .slave n v (.number (.U0s k)) U0) (c : Wrote .slave n v (.number .c) (s.c p))
    (rest : ∀ v', Beside .gcd10 v v' → Wrote .slave n v' (.number (.U0s k)) (-(U0 * s.c p) % s.a) →
      Keeps p a b doomed .slave post (next ()) v') :
    Keeps p a b doomed .slave post (finishK n n.bodd k >>= next) v := by
  have mine : Mine .slave (.number (.U0s k)) v.counter v.fence :=
    OfProduct.mine (g := .gcd10) (n := n) (.cofactor0 k) counter.le fence
  have follows : Follows n v := ⟨fence, counter.ge, by omega⟩
  have within : v.counter < 87 * (n + 1) := by omega
  have divisor := follows.findsA now
  refine .bind (.load within cofactor
    (.load within c (.store mine (.bind (.negateIf within .self mine (.load within .self ?_))))))
  refine .found (.wrote (.wrote divisor nofun) nofun) (.storeLast mine (rest _ ?_ .self))
  exact ((Beside.wrote (.cofactor0 k)).trans (.wrote (.cofactor0 k))).trans (.wrote (.cofactor0 k))

/-- What the slave knows behind the gcd of the master. -/
structure Divided (p : Setting) (s : Start) (n : ℕ) (v : View Value) : Prop where
  fence : 87 * n ≤ v.fence
  remainder : s.cRemainder p = 0
  signs : ¬(s.a < 0 ∨ s.c p < 0)
  c : Wrote .slave n v (.number .c) (s.c p)
  kIndex : Wrote .slave n v .kIndex (s.gcd p .gcd10).lastSlot
  k : Wrote .slave n v (.number (.U0s (s.gcd p .gcd10).lastSlot)) (s.k p)

theorem phase0Slave_keeps (counter : v.counter = 87 * n) (stops : start p a b (n + 1) = none → doomed) :
    Keeps p a b doomed .slave (fun _ v' => v'.counter = 87 * n ∧
      ∃ s, start p a b n = some s ∧ Divided p s n v') (phase0Slave p n) v := by
  have past : 87 * n ≤ (v.passed (counterStart n + counterStartPhase0)).fence := le_max_right _ _
  refine .fence (.fetchFirst rfl rfl (0, 85) rfl past counter.ge (counter.trans_le (Nat.le_add_right _ _)) trivial
    (fun _ _ => trivial) fun s i now is => ?_)
  obtain rfl : i = n.bodd := is
  rw [start_succ now] at stops
  have counter₀ : (v.passed (counterStart n + counterStartPhase0)).counter = 87 * n := counter
  generalize v.passed _ = v₀ at past counter₀ ⊢
  have follows : Follows n v₀ := ⟨past, counter₀.ge, by omega⟩
  refine .fetchValue now rfl rfl (0, 85) rfl past counter₀.ge follows.till trivial trivial (fun _ is => is) ?_
  have within : v₀.counter < 87 * (n + 1) := by omega
  refine divideC_keeps within (fun field both => ?_) (follows.findsA now) (follows.findsB now)
    fun v₁ counter₁ fence₁ _ c remainder => ?_
  · unfold Mine
    rw [if_pos both]
    exact ⟨n, counter₀.ge, by omega, past⟩
  rw [← fence₁] at past
  rw [counter₀] at counter₁
  have follows₁ : Follows n v₁ := ⟨past, counter₁.ge, by omega⟩
  have within₁ : v₁.counter < 87 * (n + 1) := by omega
  refine .load within₁ remainder ?_
  by_cases divides : s.cRemainder p ≠ 0
  · rw [if_pos divides]
    exact .giveUp (stops (Start.next_none_of_slave fun goesOn => divides goesOn.remainder))
  rw [if_neg divides]
  refine .found (follows₁.findsA now) (.load within₁ c ?_)
  by_cases signs : s.a < 0 ∨ s.c p < 0
  · rw [if_pos signs]
    exact .giveUp (stops (Start.next_none_of_slave fun goesOn => goesOn.signs signs))
  rw [if_neg signs]
  refine startU_keeps now counter₁ past fun v₂ beside₂ U0 U1 => ?_
  have counter₂ := beside₂.counter.trans counter₁
  refine .bind (applyEntries_keeps (g := .gcd10) now rfl ⟨counter₂.ge, counter₂.le, past.trans beside₂.fence,
    .inl (Nat.zero_le _), U0, U1⟩ (fun endless => stops (Start.next_none_of_master fun goesOn =>
      endless goesOn.finishes)) fun v₃ applied beside₃ => ?_)
  have beside := beside₂.trans beside₃
  have counter₃ := beside.counter.trans counter₁
  refine finishK_keeps now counter₃ (past.trans beside.fence) applied.cofactor0
    (beside.keeps c nofun) fun v₄ beside₄ k => ?_
  have all := beside.trans beside₄
  exact .putLast (mine_unhanded ⟨rfl, rfl⟩ rfl) ⟨all.counter.trans counter₁, s, now, past.trans all.fence,
    not_not.mp divides, signs, .wrote (all.keeps c nofun) nofun, .self, .wrote k nofun⟩

/-- What the slave knows behind its gcd. -/
structure Ended (p : Setting) (s : Start) (n : ℕ) (v : View Value) : Prop where
  fence : 87 * n ≤ v.fence
  goesOn : s.SlaveGoesOn p
  endIndex : Wrote .slave n v (.endIndex .gcdST) (s.gcd p .gcdST).lastSlot
  t : Wrote .slave n v (.number (.gcdBs .gcdST (s.gcd p .gcdST).lastSlot)) (s.t p)

theorem phase1Slave_keeps (now : start p a b n = some s) (counter : v.counter = 87 * n + 42)
    (remainder : s.cRemainder p = 0) (signs : ¬(s.a < 0 ∨ s.c p < 0))
    (kIndex : Wrote .slave n v .kIndex (s.gcd p .gcd10).lastSlot)
    (k : Wrote .slave n v (.number (.U0s (s.gcd p .gcd10).lastSlot)) (s.k p))
    (stops : s.next p = none → doomed) :
    Keeps p a b doomed .slave (fun _ v' => v'.counter = 87 * n + 83 ∧ Ended p s n v') (phase1Slave p n) v := by
  have past : 87 * n ≤ (v.passed (counterStart n + counterStartPhase0)).fence := le_max_right _ _
  have follows : Follows n (v.passed (counterStart n + counterStartPhase0)) :=
    ⟨past, (Nat.le_add_right _ _).trans counter.ge, counter.trans_le (by omega)⟩
  have mine {field : Field} (ofGcd : OfGcd .gcdST field) (entry : ∀ i, field ≠ .uvEntry .gcdST i) :
      Mine .slave field v.counter (v.passed (counterStart n + counterStartPhase0)).fence :=
    ofGcd.mine past (by rw [counter]; exact Nat.lt_add_of_pos_right (by decide))
      fun i same => absurd same (entry i)
  refine .fence (.fetchValue now rfl rfl (0, 85) rfl past follows.entered follows.till trivial trivial
    (fun _ is => is) ?_)
  have within : v.counter < 87 * (n + 1) := by omega
  refine .fetch within kIndex (.found (follows.findsA now) (.store (mine (.gcdAs _) nofun) ?_))
  refine .load within (.wrote k nofun) (.store (mine (.gcdBs _) nofun) ?_)
  refine gcdUnsigned_keeps (g := .gcdST) now counter past (.wrote .self nofun) .self rfl ?_
    fun v' counter' returned frame => ⟨counter', ?_, ?_, returned.endIndex, returned.numberB⟩
  · rintro (unfit | endless)
    · exact stops (Start.next_none_of_slave fun goesOn => unfit goesOn.fits)
    · exact stops (Start.next_none_of_slave fun goesOn => endless goesOn.finishes)
  · rw [frame.1]
    exact past
  · exact ⟨remainder, signs, returned.fits, returned.finishes⟩

theorem Ended.passed {target : ℕ} (ended : Ended p s n v) : Ended p s n (v.passed target) :=
  ⟨ended.fence.trans (le_max_left _ _), ended.goesOn, ended.endIndex, ended.t⟩

theorem Ended.wrote {field : Field} {cell : Cell (Value field)} (ended : Ended p s n v)
    (other : ¬OfGcd .gcdST field) : Ended p s n (v.wrote field cell) := by
  have ne {field' : Field} (ofGcd : OfGcd .gcdST field') : field' ≠ field := by
    rintro rfl
    exact other ofGcd
  exact ⟨ended.fence, ended.goesOn, ended.endIndex.wrote (ne .endIndex), ended.t.wrote (ne (.gcdBs _))⟩

theorem Ended.advanced {target : ℕ} (ended : Ended p s n v) :
    Ended p s n (advancedTo p a b .slave v target) :=
  ⟨ended.fence, ended.goesOn, ended.endIndex.advanced ⟨rfl, rfl⟩, ended.t.advanced ⟨rfl, rfl⟩⟩

theorem loadSNegative_keeps {next : Bool → Action Unit} {post : Unit → View Value → Prop}
    (now : start p a b n = some s) (since : 87 * n + 84 ≤ v.fence) (entered : 87 * n ≤ v.counter)
    (till : v.counter ≤ 87 * n + 85)
    (rest : Keeps p a b doomed .slave post (next (SquareState.sNegative (s.v1 p))) v) :
    Keeps p a b doomed .slave post (loadSNegative n >>= next) v := by
  refine .bind (.fetchValue now rfl rfl (84, 85) rfl since entered till trivial trivial (fun _ is => is) ?_)
  exact .loadValue now rfl rfl (84, 85) rfl since entered till trivial rfl (fun _ is => is) rest

/-- What the slave knows behind its phase 2. -/
structure Signed (p : Setting) (s : Start) (n : ℕ) (v : View Value) : Prop where
  ended : Ended p s n v
  tTS : Wrote .slave n v (.number .tTS) (s.tTS p)
  v02 : Wrote .slave n v (.number .v02) (s.v02 p)

theorem phase2Slave_keeps (now : start p a b n = some s) (ended : Ended p s n v)
    (counter : v.counter = 87 * n + 84) :
    Keeps p a b doomed .slave (fun _ v' => v'.counter = 87 * n + 84 ∧ Signed p s n v') (phase2Slave n) v := by
  have past : 87 * n + 84 ≤ ((v.passed (counterStart n + counterStartPhase1)).passed
      (counterStart n + counterStartPhase2)).fence := le_max_right _ _
  have entered : 87 * n + 42 ≤ (v.passed (counterStart n + counterStartPhase1)).fence := le_max_right _ _
  have free₁ : 87 * n + 85 < (v.passed (counterStart n + counterStartPhase1)).fence + 87 := by omega
  have free₂ : 87 * n + 86 < ((v.passed (counterStart n + counterStartPhase1)).passed
      (counterStart n + counterStartPhase2)).fence + 87 := by omega
  have entered : 87 * n ≤ v.counter := by omega
  have before : v.counter < 87 * n + 85 := by omega
  have within : v.counter < 87 * (n + 1) := by omega
  refine .fence (.fetch within ended.endIndex (.load within ended.t ?_))
  refine .store (mine_before n ⟨rfl, rfl⟩ rfl trivial before free₁) (.fence ?_)
  refine .fetchValue now rfl rfl (84, 85) rfl past entered before.le trivial trivial (fun _ is => is) ?_
  refine loadSNegative_keeps now past entered before.le ?_
  refine .bind (.negateIf within (.passed .self) (mine_before n ⟨rfl, rfl⟩ rfl trivial before
    ((Nat.lt_succ_self _).trans free₂)) ?_)
  refine .loadValue now rfl rfl (84, 85) rfl past entered before.le trivial rfl (fun _ is => is) ?_
  refine .storeLast (mine_before n ⟨rfl, rfl⟩ rfl trivial before free₂) ⟨counter, ?_, .wrote .self nofun, .self⟩
  exact .wrote (.wrote (.passed (.wrote ended.passed nofun)) nofun) nofun

theorem phase3Slave_keeps (now : start p a b n = some s) (ended : Ended p s n v)
    (counter : v.counter = 87 * n + 85) :
    Keeps p a b doomed .slave (fun _ v' => v'.counter = 87 * n + 85 ∧ Ended p s n v' ∧
      Wrote .slave n v' (.number .e) (s.e p)) (phase3Slave p n) v := by
  have past : 87 * n + 84 ≤ (v.passed (counterStart n + counterStartPhase2)).fence := le_max_right _ _
  have follows : Follows n (v.passed (counterStart n + counterStartPhase2)) :=
    ⟨by omega, (Nat.le_add_right _ _).trans counter.ge, counter.le⟩
  have divisor := follows.findsA now
  have free : 87 * n + 86 < (v.passed (counterStart n + counterStartPhase2)).fence + 87 := by omega
  have before : v.counter < 87 * n + 86 := by omega
  have within : v.counter < 87 * (n + 1) := by omega
  refine .fence (.fetchValue now rfl rfl (0, 85) rfl follows.fence follows.entered follows.till trivial trivial
    (fun _ is => is) ?_)
  refine .fetchValue now rfl rfl (0, 85) rfl follows.fence follows.entered follows.till trivial trivial
    (fun _ is => is) (.fetch within ended.endIndex ?_)
  refine .fetchValue now rfl rfl (84, 85) rfl past follows.entered counter.le trivial trivial (fun _ is => is) ?_
  refine .fetchValue now rfl rfl (84, 85) rfl past follows.entered counter.le trivial trivial (fun _ is => is) ?_
  refine loadSNegative_keeps now past follows.entered counter.le (.load within ended.t ?_)
  refine .loadValue now rfl rfl (84, 85) rfl past follows.entered counter.le trivial rfl (fun _ is => is) ?_
  refine .store (mine_unhanded ⟨rfl, rfl⟩ rfl) (.bind (.negateIf within .self (mine_unhanded ⟨rfl, rfl⟩ rfl) ?_))
  refine .found (.wrote (.wrote divisor nofun) nofun) (.load within .self (.store (mine_unhanded ⟨rfl, rfl⟩ rfl) ?_))
  refine .load within (.wrote (.wrote (.wrote ended.t nofun) nofun) nofun) ?_
  refine .store (mine_unhanded ⟨rfl, rfl⟩ rfl) (.load within .self (.load within (.wrote .self nofun) ?_))
  refine .store (mine_unhanded ⟨rfl, rfl⟩ rfl) (.load within .self ?_)
  refine .loadValue now rfl rfl (84, 85) rfl past follows.entered counter.le trivial rfl (fun _ is => is) ?_
  refine .store (mine_unhanded ⟨rfl, rfl⟩ rfl) ?_
  refine .found (.wrote (.wrote (.wrote (.wrote (.wrote (.wrote (follows.findsB now) nofun) nofun) nofun)
    nofun) nofun) nofun) (.load within .self ?_)
  refine .store (mine_before n ⟨rfl, rfl⟩ rfl trivial before free) ?_
  refine .negateIf within .self (mine_before n ⟨rfl, rfl⟩ rfl trivial before free) ⟨counter, ?_, .self⟩
  refine .wrote (.wrote (.wrote (.wrote (.wrote (.wrote ?_ nofun) nofun) nofun) nofun) nofun) nofun
  exact .wrote (.wrote ended.passed nofun) nofun

section Starts

variable {next : Unit → Action Unit} {post : Unit → View Value → Prop}

theorem startPhase0Slave_keeps (le : v.counter ≤ 87 * n) (entered : 87 * n ≤ v.counter + 1)
    (legal : Legal (87 * n) v.fence)
    (rest : Keeps p a b doomed .slave post (next ()) (advancedTo p a b .slave v (counterStart n))) :
    Keeps p a b doomed .slave post (startPhase n 0 >>= next) v := by
  refine .advance (y := 0) _ rfl (by decide) entered le legal ?_ rest
  intro field w own opened newly small serves written
  have opens := opens_of_window opened
  generalize w.1 = first at opens newly small
  cases opens <;> first | omega | cases own

/-- The slave hands over `c`. -/
theorem startPhase1Slave_keeps (now : start p a b n = some s) (divided : Divided p s n v)
    (counter : v.counter = 87 * n)
    (rest : Keeps p a b doomed .slave post (next ()) (advancedTo p a b .slave v (counterStart n + 42))) :
    Keeps p a b doomed .slave post (startPhase n 1 >>= next) v := by
  refine .advance (y := 42) _ rfl (by decide) (by omega) (by omega)
    (legal_within divided.fence (by decide)) ?_ rest
  intro field w own opened newly small serves written
  have opens := opens_of_window opened
  generalize w.1 = first at opens newly small
  cases opens
  case c => exact ⟨_, divided.c, s, now, rfl⟩
  case uvEntry g i le =>
    cases g
    · cases own
    · simp only [Gcd.delta, counterStartPhase1, counterStartPhase0, gcdNumCounter, gcdMaxIterations,
        gcdSize] at small
      omega
  all_goals omega

theorem startPhase2Slave_keeps (now : start p a b n = some s) (ended : Ended p s n v)
    (counter : v.counter = 87 * n + 83)
    (rest : Keeps p a b doomed .slave post (next ()) (advancedTo p a b .slave v (counterStart n + 84))) :
    Keeps p a b doomed .slave post (startPhase n 2 >>= next) v := by
  refine .advance (y := 84) _ rfl (by decide) (by omega) (by omega)
    (legal_within ended.fence (by decide)) ?_ rest
  intro field w own opened newly small serves written
  have opens := opens_of_window opened
  generalize w.1 = first at opens newly small
  have written' := written s now
  cases opens
  case gcdBs slot =>
    obtain rfl : slot = (s.gcd p .gcdST).lastSlot := written'
    exact ⟨_, ended.t, s, now, rfl⟩
  case endIndex => exact ⟨_, ended.endIndex, s, now, rfl⟩
  case uvEntry g i le =>
    have := delta_le g
    omega
  all_goals first | omega | cases own

theorem startPhase3Slave_keeps (now : start p a b n = some s) (signed : Signed p s n v)
    (counter : v.counter = 87 * n + 84)
    (rest : Keeps p a b doomed .slave post (next ()) (advancedTo p a b .slave v (counterStart n + 85))) :
    Keeps p a b doomed .slave post (startPhase n 3 >>= next) v := by
  refine .advance (y := 85) _ rfl (by decide) (by omega) (by omega)
    (legal_within signed.ended.fence (by decide)) ?_ rest
  intro field w own opened newly small serves written
  have opens := opens_of_window opened
  generalize w.1 = first at opens newly small
  cases opens
  case tTS => exact ⟨_, signed.tTS, s, now, rfl⟩
  case v02 => exact ⟨_, signed.v02, s, now, rfl⟩
  case uvEntry g i le =>
    have := delta_le g
    omega
  all_goals omega

/-- It hands over `e`, and with it that it has not given up. -/
theorem startPhase4Slave_keeps (now : start p a b n = some s) (ended : Ended p s n v)
    (e : Wrote .slave n v (.number .e) (s.e p)) (counter : v.counter = 87 * n + 85)
    (rest : Keeps p a b doomed .slave post (next ()) (advancedTo p a b .slave v (counterStart n + 86))) :
    Keeps p a b doomed .slave post (startPhase n 4 >>= next) v := by
  refine .advance (y := 86) _ rfl (by decide) (by omega) (by omega)
    (legal_within ended.fence (by decide)) ?_ rest
  intro field w own opened newly small serves written
  have opens := opens_of_window opened
  generalize w.1 = first at opens newly small
  cases opens
  case e => exact ⟨_, e, s, now, rfl, ended.goesOn⟩
  case uvEntry g i le =>
    have := delta_le g
    omega
  all_goals omega

end Starts

/-- The slave in front of iteration `n`. It does not know yet whether the run comes to it. -/
structure SlaveAt (n : ℕ) (v : View Value) : Prop where
  le : v.counter ≤ 87 * n
  entered : 87 * n ≤ v.counter + 1
  legal : Legal (87 * n) v.fence

theorem iterationSlave_keeps (at_ : SlaveAt n v) (stops : start p a b (n + 1) = none → doomed) :
    Keeps p a b doomed .slave (fun _ => SlaveAt (n + 1)) (do
      phases p .slave n (List.range 5)
      onIteration p .slave n) v := by
  obtain ⟨le, entered, legal⟩ := at_
  refine .bind ?_
  refine startPhase0Slave_keeps le entered legal (.bind ?_)
  refine (phase0Slave_keeps rfl stops).mono fun _ v done => ?_
  obtain ⟨counter, s, now, divided⟩ := done
  rw [start_succ now] at stops
  refine startPhase1Slave_keeps now divided counter (.bind ?_)
  refine (phase1Slave_keeps now rfl divided.remainder divided.signs (divided.kIndex.advanced ⟨rfl, rfl⟩)
    (divided.k.advanced ⟨rfl, rfl⟩) stops).mono fun _ v done => ?_
  obtain ⟨counter, ended⟩ := done
  refine startPhase2Slave_keeps now ended counter (.bind ?_)
  refine (phase2Slave_keeps now ended.advanced rfl).mono fun _ v done => ?_
  obtain ⟨counter, signed⟩ := done
  refine startPhase3Slave_keeps now signed counter (.bind ?_)
  refine (phase3Slave_keeps now signed.ended.advanced rfl).mono fun _ v done => ?_
  obtain ⟨counter, ended, e⟩ := done
  refine startPhase4Slave_keeps now ended e counter ?_
  change Keeps p a b doomed .slave _ (onIteration p .slave n) _
  unfold onIteration
  rw [if_neg (by rintro ⟨⟨⟩, -⟩)]
  have fence := ended.fence
  have counter' : (advancedTo p a b .slave v (counterStart n + 86)).counter = 87 * n + 86 := rfl
  exact ⟨by omega, by omega, fun m before => by rw [advancedTo_fence]; omega⟩

end Slave

end SquareThreads
end ChiaVdf
