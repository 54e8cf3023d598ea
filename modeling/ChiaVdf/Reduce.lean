import ChiaVdf.VdfNew

/-! Reduction of positive definite forms: it ends within its budget of turns, and what it
returns is the reduced representative of the input's class. -/
namespace ChiaVdf.Form

open BinaryForm

variable {f g : Form}

/-- The window of `b` that both kinds of step restore. -/
def Normal (f : Form) : Prop := -f.a < f.b ∧ f.b ≤ f.a

theorem c_pos (pos : 0 < f.a) (neg : f.disc < 0) : 0 < f.c := by
  unfold disc at neg
  nlinarith [sq_nonneg f.b]

theorem normalize_eq (pos : 0 < f.a) : normalize f =
    .done ⟨f.a, f.b + 2 * f.a * ((f.a - f.b) / (2 * f.a)),
      f.a * ((f.a - f.b) / (2 * f.a)) ^ 2 + f.b * ((f.a - f.b) / (2 * f.a)) + f.c⟩ := by
  simp only [normalize, mpzFdivQ_pos (show 0 < 2 * f.a by omega), Exec.done_bind, Exec.pure_eq]
  congr 2 <;> ring

theorem normalize_spec (pos : 0 < f.a) :
    ∃ g, normalize f = .done g ∧ Normal g ∧ g.a = f.a ∧ ProperlyEquivalent f g := by
  refine ⟨_, normalize_eq pos, ?_, rfl, equivalent_translate f _⟩
  have split := Int.mul_ediv_add_emod (f.a - f.b) (2 * f.a)
  have low := Int.emod_nonneg (f.a - f.b) (show 2 * f.a ≠ 0 by omega)
  have high := Int.emod_lt_of_pos (f.a - f.b) (show 0 < 2 * f.a by omega)
  constructor <;> dsimp only <;> linarith

theorem normalize_of_normal (pos : 0 < f.a) (normal : Normal f) : normalize f = .done f := by
  have zero : (f.a - f.b) / (2 * f.a) = 0 :=
    Int.ediv_eq_zero_of_lt (by linarith [normal.2]) (by linarith [normal.1])
  rw [normalize_eq pos, zero]
  congr 1
  ext <;> simp

theorem reduceImpl_eq (pos : 0 < f.c) : reduceImpl f =
    .done ⟨f.c, -f.b + 2 * f.c * ((f.c + f.b) / (2 * f.c)),
      f.c * ((f.c + f.b) / (2 * f.c)) ^ 2 + -f.b * ((f.c + f.b) / (2 * f.c)) + f.a⟩ := by
  simp only [reduceImpl, mpzFdivQ_pos (show 0 < 2 * f.c by omega), Exec.done_bind, Exec.pure_eq]
  congr 2 <;> ring

theorem reduceImpl_spec (pos : 0 < f.c) :
    ∃ g, reduceImpl f = .done g ∧ Normal g ∧ g.a = f.c ∧ ProperlyEquivalent f g := by
  refine ⟨_, reduceImpl_eq pos, ?_, rfl, (equivalent_swap f).trans (equivalent_translate _ _)⟩
  have split := Int.mul_ediv_add_emod (f.c + f.b) (2 * f.c)
  have low := Int.emod_nonneg (f.c + f.b) (show 2 * f.c ≠ 0 by omega)
  have high := Int.emod_lt_of_pos (f.c + f.b) (show 0 < 2 * f.c by omega)
  constructor <;> dsimp only <;> linarith

theorem reduceImpl_flip (same : f.a = f.c) (normal : Normal f) (minus : f.b < 0) :
    reduceImpl f = .done ⟨f.c, -f.b, f.a⟩ := by
  have pos : 0 < f.c := by have := normal.1; omega
  have zero : (f.c + f.b) / (2 * f.c) = 0 :=
    Int.ediv_eq_zero_of_lt (by linarith [normal.1]) (by linarith)
  rw [reduceImpl_eq pos, zero]
  congr 1
  ext <;> simp

theorem reduceLoop_exit {fuel : ℕ} (stop : ¬(f.a > f.c ∨ f.a = f.c ∧ f.b < 0)) :
    reduceLoop (fuel + 1) f = .done f := by
  simp only [reduceLoop, if_neg stop]

theorem reduced_of_normal (normal : Normal f) (stop : ¬(f.a > f.c ∨ f.a = f.c ∧ f.b < 0)) :
    f.Reduced := by
  push Not at stop
  exact ⟨normal.1, normal.2, stop.1, stop.2⟩

theorem Reduced.normal (red : f.Reduced) : Normal f := ⟨red.1, red.2.1⟩

theorem Reduced.stop (red : f.Reduced) : ¬(f.a > f.c ∨ f.a = f.c ∧ f.b < 0) := by
  push Not
  exact ⟨red.2.2.1, red.2.2.2⟩

/-- The loop keeps the class; every turn but the last sign flip lowers `a`. -/
theorem reduceLoop_spec (fuel : ℕ) (f : Form) (pos : 0 < f.a) (neg : f.disc < 0)
    (normal : Normal f) (enough : 2 * f.a.natAbs + 2 ≤ fuel) :
    ∃ g, reduceLoop fuel f = .done g ∧ g.Reduced ∧ ProperlyEquivalent f g := by
  induction fuel generalizing f with
  | zero => omega
  | succ fuel ih =>
    by_cases turn : f.a > f.c ∨ f.a = f.c ∧ f.b < 0
    · simp only [reduceLoop, if_pos turn]
      have cpos := c_pos pos neg
      rcases turn with larger | ⟨same, minus⟩
      · obtain ⟨g, step, gnormal, ga, e⟩ := reduceImpl_spec cpos
        obtain ⟨r, run, red, e'⟩ := ih g (by omega) (e.disc_eq ▸ neg) gnormal (by omega)
        exact ⟨r, by rw [step, Exec.done_bind, run], red, e.trans e'⟩
      · have stop : ¬((⟨f.c, -f.b, f.a⟩ : Form).a > (⟨f.c, -f.b, f.a⟩ : Form).c ∨
            (⟨f.c, -f.b, f.a⟩ : Form).a = (⟨f.c, -f.b, f.a⟩ : Form).c ∧
            (⟨f.c, -f.b, f.a⟩ : Form).b < 0) := by dsimp only; omega
        have gnormal : Normal ⟨f.c, -f.b, f.a⟩ := by
          have := normal.1
          constructor <;> dsimp only <;> omega
        obtain ⟨left, rfl⟩ : ∃ left, fuel = left + 1 := ⟨fuel - 1, by omega⟩
        refine ⟨_, ?_, reduced_of_normal gnormal stop, equivalent_swap f⟩
        rw [reduceImpl_flip same normal minus, Exec.done_bind, reduceLoop_exit stop]
    · exact ⟨f, reduceLoop_exit turn, reduced_of_normal normal turn, ProperlyEquivalent.refl f⟩

theorem reduce_spec (pos : 0 < f.a) (neg : f.disc < 0) :
    ∃ g, reduce f = .done g ∧ g.Reduced ∧ ProperlyEquivalent f g := by
  obtain ⟨f', first, normal, fa, e⟩ := normalize_spec pos
  obtain ⟨g, loop, red, e'⟩ := reduceLoop_spec f'.reduceFuel f' (fa ▸ pos) (e.disc_eq ▸ neg) normal
    (by unfold reduceFuel; omega)
  refine ⟨g, ?_, red, e.trans e'⟩
  simp only [reduce, first, Exec.done_bind, loop, normalize_of_normal red.pos (Reduced.normal red)]

theorem reduce_of_reduced (red : f.Reduced) : reduce f = .done f := by
  have same := normalize_of_normal red.pos (Reduced.normal red)
  have loop : reduceLoop f.reduceFuel f = .done f := reduceLoop_exit (Reduced.stop red)
  simp only [reduce, same, Exec.done_bind, loop]

/-- The class determines what `reduce` returns. -/
theorem reduce_eq_of_equivalent (pos : 0 < f.a) (neg : f.disc < 0) (red : g.Reduced)
    (e : ProperlyEquivalent f g) : reduce f = .done g := by
  obtain ⟨g', run, red', e'⟩ := reduce_spec pos neg
  rw [run, red'.unique red (e'.symm.trans e)]

theorem isReduced_of_reduced (red : f.Reduced) : isReduced f = true := by
  obtain ⟨low, high, ac, tie⟩ := red
  have apos : 0 < f.a := by omega
  simp only [isReduced, decide_eq_true_eq, abs_of_pos apos]
  constructor
  · rcases ac.lt_or_eq with lt | eq
    · exact Or.inl lt
    · exact Or.inr ⟨eq, tie eq⟩
  · rcases high.lt_or_eq with lt | eq
    · exact Or.inl (abs_lt.mpr ⟨low, lt⟩)
    · exact Or.inr eq.symm

/-- `fromAbd` on a pair that belongs to a form `⟨a, b, c⟩` of the discriminant. -/
theorem fromAbd_eq_reduce (pos : 0 < f.a) : fromAbd f.a f.b f.disc = reduce f := by
  have value : f.b * f.b - f.disc = 4 * f.a * f.c := by unfold disc; ring
  have nonzero : 4 * f.a ≠ 0 := by omega
  simp only [fromAbd, if_neg (not_le.mpr pos), value, mpzMod_done nonzero, Int.mul_emod_right,
    Exec.done_bind, ne_eq, not_true_eq_false, if_false, mpzFdivQ_exact nonzero f.c rfl]

theorem fromAbd_done {a b d : ℤ} (run : fromAbd a b d = .done g) :
    ∃ c, 0 < a ∧ (⟨a, b, c⟩ : Form).disc = d ∧ reduce ⟨a, b, c⟩ = .done g := by
  unfold fromAbd at run
  split at run
  · simp at run
  · next pos =>
    have nonzero : 4 * a ≠ 0 := by omega
    rw [mpzMod_done nonzero, Exec.done_bind] at run
    split at run
    · simp at run
    · next exact =>
      push Not at exact
      obtain ⟨c, hc⟩ := Int.dvd_of_emod_eq_zero exact
      rw [mpzFdivQ_exact nonzero c hc, Exec.done_bind] at run
      exact ⟨c, by omega, by unfold disc; dsimp only; linarith, run⟩

section Indefinite

/-- With a negative divisor the step leaves `b` within `c` as well. -/
theorem reduceImpl_neg (minus : f.c < 0) :
    ∃ g, reduceImpl f = .done g ∧ g.a = f.c ∧ |g.b| ≤ -f.c ∧ g.disc = f.disc := by
  have floor : (f.c + f.b).fdiv (2 * f.c) = -(f.c + f.b) / (2 * -f.c) := by
    rw [← Int.fdiv_eq_ediv_of_nonneg _ (by omega), ← Int.neg_fdiv_neg, mul_neg]
  have split := Int.mul_ediv_add_emod (-(f.c + f.b)) (2 * -f.c)
  have low := Int.emod_nonneg (-(f.c + f.b)) (show 2 * -f.c ≠ 0 by omega)
  have high := Int.emod_lt_of_pos (-(f.c + f.b)) (show 0 < 2 * -f.c by omega)
  refine ⟨_, by rw [reduceImpl, mpzFdivQ_done (by omega), floor]; rfl, rfl, ?_, ?_⟩
  · dsimp only
    generalize -(f.c + f.b) / (2 * -f.c) = s at *
    exact abs_le.mpr ⟨by linarith, by linarith⟩
  · unfold disc
    ring

/-- A form that is not definite: the loop comes to a negative `a` and stops there, or divides by
a `c` that is zero. -/
theorem reduceLoop_indefinite (fuel : ℕ) (f : Form) (pos : 0 < f.a) (nonneg : 0 ≤ f.disc) (normal : Normal f)
    (enough : f.a.natAbs + 2 ≤ fuel) :
    (0 < f.disc ∧ ∃ g, reduceLoop fuel f = .done g ∧ g.a ≠ 0) ∨ reduceLoop fuel f = .fault .divideByZero := by
  induction fuel generalizing f with
  | zero => omega
  | succ fuel ih =>
    have square : f.b ^ 2 ≤ f.a ^ 2 := sq_le_sq' (by linarith [normal.1]) normal.2
    have larger : f.a > f.c := by
      by_contra le
      unfold disc at nonneg
      nlinarith
    rw [reduceLoop, if_pos (.inl larger)]
    rcases lt_trichotomy f.c 0 with minus | zero | plus
    · obtain ⟨g, step, ga, gb, same⟩ := reduceImpl_neg minus
      have positive : 0 < f.disc := by
        unfold disc
        nlinarith [sq_nonneg f.b]
      have stop : ¬(g.a > g.c ∨ g.a = g.c ∧ g.b < 0) := by
        have square' : g.b ^ 2 ≤ f.c ^ 2 := by
          rw [← sq_abs g.b, ← neg_sq f.c]
          exact pow_le_pow_left₀ (abs_nonneg _) gb 2
        rw [← same] at positive
        unfold disc at positive
        rintro (above | ⟨equal, -⟩) <;> nlinarith
      obtain ⟨left, rfl⟩ : ∃ left, fuel = left + 1 := ⟨fuel - 1, by omega⟩
      exact .inl ⟨positive, g, by rw [step, Exec.done_bind, reduceLoop_exit stop], by omega⟩
    · right
      rw [reduceImpl, zero]
      rfl
    · obtain ⟨g, step, gnormal, ga, e⟩ := reduceImpl_spec plus
      rw [step, Exec.done_bind, ← e.disc_eq]
      exact ih g (by omega) (e.disc_eq ▸ nonneg) gnormal (by omega)

theorem reduce_indefinite (pos : 0 < f.a) (nonneg : 0 ≤ f.disc) :
    (0 < f.disc ∧ ∃ g, reduce f = .done g) ∨ reduce f = .fault .divideByZero := by
  obtain ⟨f', first, normal, fa, e⟩ := normalize_spec pos
  rw [reduce, first, Exec.done_bind, ← e.disc_eq]
  rcases reduceLoop_indefinite f'.reduceFuel f' (fa ▸ pos) (e.disc_eq ▸ nonneg) normal
    (by unfold reduceFuel; omega) with ⟨positive, g, loop, nonzero⟩ | loop
  · refine .inl ⟨positive, ?_⟩
    rw [loop, Exec.done_bind, normalize, mpzFdivQ_done (by omega)]
    exact ⟨_, rfl⟩
  · rw [loop]
    exact .inr rfl

/-- `from_abd` for the discriminants that no definite form has. -/
theorem fromAbd_indefinite {a b D : ℤ} (nonneg : 0 ≤ D) :
    (∃ what, fromAbd a b D = .thrown what) ∨ (0 < D ∧ ∃ g, fromAbd a b D = .done g) ∨
      fromAbd a b D = .fault .divideByZero := by
  by_cases pos : 0 < a
  · by_cases exact : (b * b - D) % (4 * a) = 0
    · obtain ⟨c, hc⟩ := Int.dvd_of_emod_eq_zero exact
      have disc : (⟨a, b, c⟩ : Form).disc = D := by
        unfold BinaryForm.disc
        dsimp only
        linarith
      have same : fromAbd a b D = reduce ⟨a, b, c⟩ := by
        rw [← disc]
        exact fromAbd_eq_reduce (f := ⟨a, b, c⟩) pos
      rw [same]
      rcases reduce_indefinite (f := ⟨a, b, c⟩) pos (disc ▸ nonneg) with ⟨positive, done⟩ | fault
      · exact .inr (.inl ⟨disc ▸ positive, done⟩)
      · exact .inr (.inr fault)
    · left
      rw [fromAbd, if_neg (not_le.mpr pos), mpzMod_done (by omega), Exec.done_bind, if_pos exact]
      exact ⟨_, rfl⟩
  · left
    rw [fromAbd, if_pos (not_lt.mp pos)]
    exact ⟨_, rfl⟩

end Indefinite

end ChiaVdf.Form
