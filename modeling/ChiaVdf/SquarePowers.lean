import ChiaVdf.NucompInPlace
import ChiaVdf.SquareHandover

/-! What the two threads compute: the values that they hand over are those of the five phases one after
the other, so that each iteration takes a form to its square. -/
namespace ChiaVdf
namespace SquareThreads

open Handover
open SquareState (numLimbs gcdStart)

/-- What the callers of `gcd_unsigned` see of it. -/
def GcdSteps.results (r : GcdSteps) (x : ℤ × ℤ) : GcdResults :=
  ⟨r.steps.map Prod.fst, (numbersAfter r.steps x).1, (numbersAfter r.steps x).2⟩

/-- `gcd_unsigned` for the phases one after the other: nothing where its thread gives up. -/
def Setting.gcdUnsigned (p : Setting) : GcdUnsigned := fun a b threshold =>
  if numLimbs a > gcdSize ∨ numLimbs b > gcdSize then none
  else if (p.gcd |a| |b| threshold).Finishes then
    some ((p.gcd |a| |b| threshold).results (|a|, |b|))
  else none

/-- What `gcd_unsigned` and `mpz_divexact` are relied on for: the entries stand for divisions of Euclid's
algorithm, and a division without a remainder is exact. -/
structure Setting.Genuine (p : Setting) : Prop where
  threshold : 0 ≤ p.L
  divides : ∀ x y, y ≠ 0 → p.divideExact (y * x) y = x
  euclid : ∀ a b threshold, 0 ≤ b → b ≤ a → 0 ≤ threshold → threshold < a →
    (p.gcd a b threshold).Finishes →
      GcdRun ((p.gcd a b threshold).results (a, b)).entries (a, b)
        (((p.gcd a b threshold).results (a, b)).aEnd, ((p.gcd a b threshold).results (a, b)).bEnd)

section Iteration

variable {p : Setting} {s : Start} {a b L : ℤ}

theorem results_multiply (steps : GcdSteps) (x y : ℤ × ℤ) :
    (steps.results x).multiply y = product steps.steps y := by
  rw [GcdResults.multiply, product, GcdSteps.results, List.foldl_map]

theorem numLimbs_abs (n : ℤ) : numLimbs |n| = numLimbs n := by
  unfold numLimbs mpSize
  rw [Int.natAbs_abs]
  by_cases zero : n = 0
  · simp [zero]
  · rw [if_neg zero, if_neg (abs_ne_zero.mpr zero), Int.natAbs_mul, Int.natAbs_mul, Int.natAbs_sign_of_ne_zero zero,
      Int.natAbs_sign_of_ne_zero (abs_ne_zero.mpr zero)]

theorem numLimbs_mono {m n : ℤ} (nonneg : 0 ≤ m) (le : m ≤ n) : numLimbs m ≤ numLimbs n := by
  unfold numLimbs mpSize
  by_cases zero : m = 0
  · simp [zero]
  have pos : n ≠ 0 := by omega
  have logs : m.natAbs.log2 ≤ n.natAbs.log2 :=
    (Nat.le_log2 (by omega)).mpr (((Nat.le_log2 (by omega)).mp le_rfl).trans (by omega))
  rw [if_neg zero, if_neg pos, Int.natAbs_mul, Int.natAbs_mul, Int.natAbs_sign_of_ne_zero zero,
    Int.natAbs_sign_of_ne_zero pos, one_mul, one_mul, Int.natAbs_natCast, Int.natAbs_natCast]
  exact Nat.succ_le_succ (Nat.div_le_div_right logs)

/-- The first phase of the master only goes on with a number above the threshold of the second gcd. -/
theorem above_threshold (starts : SquareState.phase0Master a b L = true) : L < a := by
  unfold SquareState.phase0Master at starts
  obtain ⟨⟨-, -, nonneg⟩, limbs⟩ := of_decide_eq_true starts
  by_contra le
  exact absurd (numLimbs_mono nonneg (not_lt.mp le)) (not_le.mpr limbs)

theorem gcdStart_eq (s : Start) :
    gcdStart s.a s.b s.bHigher = (|s.operands10.1|, |s.operands10.2|) := by
  unfold gcdStart Start.operands10
  split <;> rfl

theorem gcdUnsigned_done (fits : ¬(numLimbs a > gcdSize ∨ numLimbs b > gcdSize))
    (finishes : (p.gcd |a| |b| L).Finishes) :
    p.gcdUnsigned a b L = some ((p.gcd |a| |b| L).results (|a|, |b|)) :=
  (if_neg fits).trans (if_pos finishes)

theorem divideExact_eq (genuine : p.Genuine) {n d q : ℤ} (run : mpzDivexact n d = .done q) :
    p.divideExact n d = q := by
  unfold mpzDivexact at run
  split_ifs at run with zero inexact
  obtain rfl := Exec.done.inj run
  obtain ⟨x, rfl⟩ := Int.dvd_of_emod_eq_zero (not_not.mp inexact)
  rw [genuine.divides x d zero, Int.mul_ediv_cancel_left x zero]

theorem phase0Slave_done (slave : s.SlaveGoesOn p) (nonzero : s.a ≠ 0) (x : ℤ × ℤ) :
    SquareState.phase0Slave p.D s.a s.b s.bHigher true ((s.gcd10 p).results x) =
      .done (some (s.c p, s.k p)) := by
  have whole : SquareState.divideC (s.b * s.b - p.D) (s.a * 4) true = .done (some (s.c p)) := by
    have remainder : (s.b * s.b - p.D).fmod (s.a * 4) = 0 := slave.remainder
    have four : s.a * 4 ≠ 0 := by omega
    simp only [SquareState.divideC, if_true, mpzFdivQ_done four, mpzFdivR, if_neg four, remainder, Exec.done_bind]
    rfl
  simp only [SquareState.phase0Slave, whole, Exec.done_bind, if_neg slave.signs, results_multiply,
    mpzMod_done nonzero]
  rfl

theorem first_call (master : s.MasterGoesOn p) :
    p.gcdUnsigned (gcdStart s.a s.b s.bHigher).1 (gcdStart s.a s.b s.bHigher).2 0 =
      some ((s.gcd10 p).results (gcdStart s.a s.b s.bHigher)) := by
  have call := gcdUnsigned_done (p := p) (a := |s.operands10.1|) (b := |s.operands10.2|) (L := 0)
  rw [numLimbs_abs, numLimbs_abs, abs_abs, abs_abs] at call
  rw [gcdStart_eq]
  exact call master.fits master.finishes

theorem first_ends (master : s.MasterGoesOn p) :
    ((s.gcd10 p).results (gcdStart s.a s.b s.bHigher)).aEnd = 1 ∧
      ((s.gcd10 p).results (gcdStart s.a s.b s.bHigher)).bEnd = 0 := by
  rw [gcdStart_eq]
  exact ⟨congrArg Prod.fst master.ends, congrArg Prod.snd master.ends⟩

theorem second_call (slave : s.SlaveGoesOn p) :
    p.gcdUnsigned |s.a| |s.k p| p.L = some ((s.gcd p .gcdST).results (|s.a|, |s.k p|)) := by
  have call := gcdUnsigned_done (p := p) (a := |s.a|) (b := |s.k p|) (L := p.L)
  rw [numLimbs_abs, numLimbs_abs, abs_abs, abs_abs] at call
  exact call slave.fits slave.finishes

/-- The phases one after the other, up to where the threads have numbers that depend on a division. -/
theorem iteration_eq (slave : s.SlaveGoesOn p) (master : s.MasterGoesOn p) (nonzero : s.a ≠ 0) :
    SquareState.iteration p.gcdUnsigned p.D p.L s.a s.b s.bHigher true = do
      let (h, v1h) ← SquareState.phase2Master s.a s.b (s.c p) (s.t p) (s.v1 p)
      let e ← SquareState.phase3Slave s.a s.b (s.t p) (s.v0 p) (s.v1 p)
      let B ← mpzMod (e - s.v02 p * h) ((s.tTS p + v1h) * 2)
      return .ok (|s.tTS p + v1h|, B, decide (|B| ≥ |s.tTS p + v1h|)) := by
  have starts : ¬SquareState.phase0Master s.a s.b p.L = false := by simp [master.start]
  have cofactors : SquareState.phase1Master ((s.gcd p .gcdST).results (|s.a|, |s.k p|)) = (s.v0 p, s.v1 p) :=
    results_multiply _ _ _
  have last : ((s.gcd p .gcdST).results (|s.a|, |s.k p|)).bEnd = s.t p := rfl
  obtain ⟨one, zero⟩ := first_ends master
  have ended : ¬(((s.gcd10 p).results (gcdStart s.a s.b s.bHigher)).aEnd ≠ 1 ∨
      ((s.gcd10 p).results (gcdStart s.a s.b s.bHigher)).bEnd ≠ 0) :=
    not_or.mpr ⟨not_not.mpr one, not_not.mpr zero⟩
  simp only [SquareState.iteration, if_neg starts, first_call master, phase0Slave_done slave nonzero,
    second_call slave, cofactors, last, SquareState.phase4Master, if_neg ended, bind_assoc, Exec.done_bind,
    Exec.pure_eq]
  rfl

/-- The iteration of the phases one after the other is the one that the threads share. -/
theorem next_of_iteration (genuine : p.Genuine) (slave : s.SlaveGoesOn p) (master : s.MasterGoesOn p)
    (nonzero : s.a ≠ 0) {state : ℤ × ℤ × Bool}
    (run : SquareState.iteration p.gcdUnsigned p.D p.L s.a s.b s.bHigher true = .done (.ok state)) :
    s.next p = some ⟨state.1, state.2.1, state.2.2⟩ := by
  rw [iteration_eq slave master nonzero] at run
  obtain ⟨⟨h, v1h⟩, phase2, run⟩ := Exec.bind_eq_done.mp run
  obtain ⟨e, phase3, run⟩ := Exec.bind_eq_done.mp run
  obtain ⟨B, phase4, run⟩ := Exec.bind_eq_done.mp run
  obtain ⟨x, division, phase2⟩ := Exec.bind_eq_done.mp phase2
  obtain ⟨y, division', phase3⟩ := Exec.bind_eq_done.mp phase3
  have quotient := divideExact_eq genuine division
  have quotient' := divideExact_eq genuine division'
  obtain ⟨rfl, rfl⟩ : h = s.h p ∧ v1h = s.v1 p * s.h p := by
    have both := Exec.done.inj phase2
    rw [← quotient] at both
    exact ⟨(congrArg Prod.fst both).symm, (congrArg Prod.snd both).symm⟩
  obtain rfl : e = s.e p := by
    rw [← Exec.done.inj phase3, ← quotient']
    rfl
  have sum : s.tTS p + s.v1 p * s.h p = s.newA p := rfl
  rw [sum] at phase4 run
  obtain rfl : B = s.newB p := by
    unfold mpzMod at phase4
    split_ifs at phase4
    exact (Exec.done.inj phase4).symm
  obtain rfl := Except.ok.inj (Exec.done.inj run)
  rw [Start.next_some slave master, abs_abs]
  rfl

end Iteration

section Genuine

variable {p : Setting} {s : Start} {x y : ℤ × ℤ}

theorem gcd_eq_of_divisions {qs : List ℤ} (steps : Divisions x qs y) : Int.gcd x.1 x.2 = Int.gcd y.1 y.2 := by
  induction steps with
  | nil => rfl
  | @cons a b _ _ _ _ ih =>
    rw [← ih]
    change Int.gcd a b = Int.gcd b (a - a / b * b)
    rw [mul_comm, Int.gcd_sub_mul_left_right, Int.gcd_comm]

theorem gcd_eq_of_run {entries : List GcdUvEntry} (run : GcdRun entries x y) :
    Int.gcd x.1 x.2 = Int.gcd y.1 y.2 := by
  induction run with
  | nil => rfl
  | cons steps _ _ ih => rw [gcd_eq_of_divisions steps, ih]

/-- What an iteration starts from, for a form. -/
def Start.ofForm (f : Form) : Start := ⟨f.a, f.b, decide (|f.b| ≥ |f.a|)⟩

variable {d : Discriminant} {f g : Form} {z : ReducedForm d} {r : GcdResults}

theorem operands10_cases (f : Form) :
    (Start.ofForm f).operands10 = (f.b, f.a) ∧ |f.a| ≤ |f.b| ∨
      (Start.ofForm f).operands10 = (f.a, f.b) ∧ |f.b| < |f.a| := by
  unfold Start.operands10 Start.ofForm
  by_cases higher : |f.a| ≤ |f.b|
  · exact .inl ⟨if_pos (decide_eq_true higher), higher⟩
  · exact .inr ⟨if_neg (by simpa using higher), not_le.mp higher⟩

theorem operands10_ordered (pos : 0 < f.a) :
    0 < |(Start.ofForm f).operands10.1| ∧ |(Start.ofForm f).operands10.2| ≤ |(Start.ofForm f).operands10.1| := by
  have large := abs_pos.mpr pos.ne'
  rcases operands10_cases f with ⟨same, higher⟩ | ⟨same, lower⟩
  · rw [same]
    exact ⟨large.trans_le higher, higher⟩
  · rw [same]
    exact ⟨large, lower.le⟩

theorem gcd_operands10 (f : Form) :
    Int.gcd |(Start.ofForm f).operands10.1| |(Start.ofForm f).operands10.2| = Int.gcd f.a f.b := by
  simp only [Int.gcd, Int.natAbs_abs]
  rcases operands10_cases f with ⟨same, -⟩ | ⟨same, -⟩
  · rw [same, Nat.gcd_comm]
  · rw [same]

theorem first_run (genuine : p.Genuine) (pos : 0 < f.a) (master : (Start.ofForm f).MasterGoesOn p) :
    GcdRun (((Start.ofForm f).gcd10 p).results (gcdStart f.a f.b (Start.ofForm f).bHigher)).entries
      (gcdStart f.a f.b (Start.ofForm f).bHigher) (1, 0) := by
  obtain ⟨large, ordered⟩ := operands10_ordered pos
  have start : gcdStart f.a f.b (Start.ofForm f).bHigher = _ := gcdStart_eq (Start.ofForm f)
  obtain ⟨one, zero⟩ := first_ends master
  have run := genuine.euclid _ _ 0 (abs_nonneg _) ordered le_rfl large master.finishes
  rw [gcdStart_eq] at one zero
  change GcdRun (((Start.ofForm f).gcd10 p).results _).entries _ ((((Start.ofForm f).gcd10 p).results _).aEnd,
    (((Start.ofForm f).gcd10 p).results _).bEnd) at run
  rw [one, zero] at run
  rwa [start]

theorem coprime_of_run (run : GcdRun r.entries (gcdStart f.a f.b (Start.ofForm f).bHigher) (1, 0)) :
    Int.gcd f.a f.b = 1 := by
  have start : gcdStart f.a f.b (Start.ofForm f).bHigher = _ := gcdStart_eq (Start.ofForm f)
  rw [← gcd_operands10, ← Int.gcd_one_left 0, ← gcd_eq_of_run run, start]

theorem second_run (genuine : p.Genuine) (pos : 0 < f.a) (slave : (Start.ofForm f).SlaveGoesOn p)
    (starts : SquareState.phase0Master f.a f.b p.L = true) {k : ℤ} (same : (Start.ofForm f).k p = k)
    (ks : 0 ≤ k) (lt : k < f.a) :
    ∃ r, p.gcdUnsigned f.a k p.L = some r ∧ GcdRun r.entries (f.a, k) (r.aEnd, r.bEnd) := by
  have call := second_call slave
  have finishes : (p.gcd |f.a| |(Start.ofForm f).k p| p.L).Finishes := slave.finishes
  change p.gcdUnsigned |f.a| _ _ = some ((p.gcd |f.a| |(Start.ofForm f).k p| p.L).results (|f.a|, _)) at call
  rw [same, abs_of_pos pos, abs_of_nonneg ks] at call finishes
  exact ⟨_, call, genuine.euclid f.a k p.L ks lt.le genuine.threshold (above_threshold starts) finishes⟩

/-- An iteration in which no thread gives up takes a form to its square. -/
theorem next_squares (genuine : p.Genuine) (disc : p.D = d.D) (rep : Represents f z) {s' : Start}
    (next : (Start.ofForm f).next p = some s') : ∃ g, Represents g (z * z) ∧ s' = Start.ofForm g := by
  have slave : (Start.ofForm f).SlaveGoesOn p := by
    by_contra stops
    cases (Start.next_none_of_slave stops).symm.trans next
  have master : (Start.ofForm f).MasterGoesOn p := by
    by_contra stops
    cases (Start.next_none_of_master stops).symm.trans next
  have nonzero : (Start.ofForm f).a ≠ 0 := rep.pos.ne'
  have fdisc : f.disc = p.D := rep.disc.trans disc.symm
  have neg : f.disc < 0 := rep.disc ▸ d.D_neg
  have run := first_run genuine rep.pos master
  have coprime := coprime_of_run run
  obtain ⟨k, slaveRuns, ks, lt, residue⟩ :=
    phase0Slave_spec rep.pos neg (Start.ofForm f).bHigher true (run.fold)
  have same : (Start.ofForm f).k p = k := by
    have done := phase0Slave_done slave nonzero (gcdStart f.a f.b (Start.ofForm f).bHigher)
    rw [fdisc] at slaveRuns
    exact congrArg Prod.snd (Option.some.inj (Exec.done.inj (done.symm.trans slaveRuns)))
  obtain ⟨r, called, run'⟩ := second_run genuine rep.pos slave master.start same ks lt
  obtain ⟨aEnd, bEnd⟩ := first_ends master
  obtain ⟨A, B, h, iterates, Apos, divides, reduced, squared⟩ := iteration_of_runs rep.pos neg coprime
    master.start (first_call master) aEnd bEnd slaveRuns ks lt residue called run'
  rw [fdisc] at iterates divides reduced
  have value := next_of_iteration genuine slave master nonzero iterates
  obtain rfl := Option.some.inj (value.symm.trans next)
  have gdisc : (⟨A, B, (B ^ 2 - p.D) / (4 * A)⟩ : Form).disc = d.D := by
    have whole := Int.mul_ediv_cancel' divides
    rw [BinaryForm.disc, ← disc]
    linarith
  obtain ⟨y, repg⟩ := exists_represents Apos gdisc
  have same : y = z * z := by
    rw [Int.gcd_comm] at coprime
    have forms := (Exec.done.inj (repg.reduce.symm.trans reduced)).trans
      (Exec.done.inj (squared.symm.trans (rep.square coprime)))
    exact ReducedForm.ext forms
  refine ⟨_, same ▸ repg, ?_⟩
  rw [Start.ofForm, abs_of_pos Apos]

theorem start_powers (genuine : p.Genuine) (disc : p.D = d.D) (rep : Represents f z) {n : ℕ}
    (now : start p f.a f.b n = some s) : ∃ g, Represents g (z ^ 2 ^ n) ∧ s = Start.ofForm g := by
  induction n generalizing s with
  | zero =>
    obtain rfl := Option.some.inj now
    exact ⟨f, by rwa [pow_zero, pow_one], rfl⟩
  | succ n ih =>
    obtain ⟨s', before, next⟩ := Option.bind_eq_some_iff.mp now
    obtain ⟨g, repg, rfl⟩ := ih before
    obtain ⟨h, reph, same⟩ := next_squares genuine disc repg next
    rw [← sq, ← pow_mul, ← pow_succ] at reph
    exact ⟨h, reph, same⟩

/-- Whatever the schedule: where the threads have returned without an error, the form in memory is the
one they started from, squared as often as there were iterations. -/
theorem multithread_squares (genuine : p.Genuine) (disc : p.D = d.D) (rep : Represents f z) (iterations : ℕ)
    (memory : (field : Field) → Cell (Value field)) (moves : List Move)
    (clean : ((multithread p iterations memory f.a f.b).run moves).error = false)
    (returned : (((multithread p iterations memory f.a f.b).run moves).thread .master).code = .ret ()) :
    ∃ g, Represents g (z ^ 2 ^ iterations) ∧
      outcome ((multithread p iterations memory f.a f.b).run moves).memory = (g.a, g.b, iterations) := by
  obtain ⟨s, now, ends⟩ := outcome_of_returned p iterations memory f.a f.b clean returned
  obtain ⟨g, repg, rfl⟩ := start_powers genuine disc rep now
  exact ⟨g, repg, ends⟩

end Genuine

section Euclid

/-- Euclid's algorithm, with an entry for each division. -/
def euclidSteps (threshold : ℤ) : ℕ → ℤ → ℤ → List (GcdUvEntry × ℤ × ℤ)
  | 0, _, _ => []
  | fuel + 1, a, b =>
    if b ≤ threshold then [] else (oneDivision (a / b).toNat, b, a % b) :: euclidSteps threshold fuel b (a % b)

/-- A gcd with an entry for each division. -/
def euclid (D L : ℤ) : Setting where
  D := D
  L := L
  gcd a b threshold := ⟨euclidSteps threshold (b.toNat + 1) a b, false⟩
  divideExact x y := x / y
  listens _ := false

theorem euclidSteps_spec {threshold a b : ℤ} (fuel : ℕ) (nonneg : 0 ≤ b) (a_nonneg : 0 ≤ a) (bound : 0 ≤ threshold) :
    GcdRun ((euclidSteps threshold fuel a b).map Prod.fst) (a, b)
      (numbersAfter (euclidSteps threshold fuel a b) (a, b)) := by
  induction fuel generalizing a b with
  | zero => exact .nil _
  | succ fuel ih =>
    unfold euclidSteps
    split
    case isTrue => exact .nil _
    case isFalse more =>
      have pos : 0 < b := bound.trans_lt (not_le.mp more)
      have run := ih (Int.emod_nonneg a pos.ne') nonneg
      have divided : divide (a, b) (a / b).toNat = (b, a % b) := by
        rw [divide, Int.toNat_of_nonneg (Int.ediv_nonneg a_nonneg nonneg), Int.emod_def, mul_comm b]
      refine .cons_one pos (Int.toNat_of_nonneg (Int.ediv_nonneg a_nonneg nonneg)).symm ?_
      rw [divided]
      exact run

theorem euclid_genuine {D L : ℤ} (nonneg : 0 ≤ L) : (euclid D L).Genuine where
  threshold := nonneg
  divides x _ nonzero := Int.mul_ediv_cancel_left x nonzero
  euclid _ b _ bs le bound _ _ := euclidSteps_spec (b.toNat + 1) bs (bs.trans le) bound

/-- Two iterations of a form of discriminant `-23`, by threads that take turns. -/
theorem multithread_squares_23 : ∃ x : ReducedForm ⟨23, by norm_num, rfl⟩, x.form = ⟨2, 1, 3⟩ ∧
    ∃ g, Represents g (x ^ 2 ^ 2) ∧
      outcome ((multithread (euclid (-23) 0) 2 unwritten 2 1).run (inTurns 600)).memory = (g.a, g.b, 2) := by
  refine ⟨⟨⟨2, 1, 3⟩, ⟨by norm_num, by norm_num, by norm_num, by norm_num⟩, rfl⟩, rfl, ?_⟩
  exact multithread_squares (euclid_genuine le_rfl) rfl (ReducedForm.represents _) 2 unwritten (inTurns 600)
    (by decide +kernel) (Code.eq_ret_of_returned (by decide +kernel))

end Euclid

end SquareThreads
end ChiaVdf
