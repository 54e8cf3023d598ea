import Mathlib.Tactic

/-! Integral binary quadratic forms, their substitutions and their reduced
representatives. Equivalence is proper: only determinant one substitutions count. -/

@[ext] structure BinaryForm where
  a : ℤ
  b : ℤ
  c : ℤ
  deriving DecidableEq, Repr

namespace BinaryForm

def disc (f : BinaryForm) : ℤ := f.b ^ 2 - 4 * f.a * f.c

def eval (f : BinaryForm) (x y : ℤ) : ℤ := f.a * x ^ 2 + f.b * x * y + f.c * y ^ 2

/-- The form read in the coordinates `x = p*x' + q*y'`, `y = r*x' + s*y'`. -/
def act (f : BinaryForm) (p q r s : ℤ) : BinaryForm :=
  ⟨f.eval p r, 2 * f.a * p * q + f.b * (p * s + q * r) + 2 * f.c * r * s, f.eval q s⟩

def ProperlyEquivalent (f g : BinaryForm) : Prop :=
  ∃ p q r s : ℤ, p * s - q * r = 1 ∧ g = f.act p q r s

/-- Every class of a negative discriminant has exactly one such member. -/
def Reduced (f : BinaryForm) : Prop :=
  -f.a < f.b ∧ f.b ≤ f.a ∧ f.a ≤ f.c ∧ (f.a = f.c → 0 ≤ f.b)

instance (f : BinaryForm) : Decidable f.Reduced := by unfold Reduced; infer_instance

/-- No common divisor other than a unit; stated through the Bézout relation it is used in. -/
def Primitive (f : BinaryForm) : Prop := ∃ x y z : ℤ, x * f.a + y * f.b + z * f.c = 1

section Substitution

variable {f g h : BinaryForm}

theorem act_act (f : BinaryForm) (p q r s p' q' r' s' : ℤ) :
    (f.act p q r s).act p' q' r' s' =
      f.act (p * p' + q * r') (p * q' + q * s') (r * p' + s * r') (r * q' + s * s') := by
  ext <;> simp only [act, eval] <;> ring

@[simp] theorem act_one (f : BinaryForm) : f.act 1 0 0 1 = f := by
  ext <;> simp [act, eval]

theorem disc_act (f : BinaryForm) (p q r s : ℤ) :
    (f.act p q r s).disc = (p * s - q * r) ^ 2 * f.disc := by
  simp only [disc, act, eval]; ring

theorem act_inverse (det : p * s - q * r = 1) : (f.act p q r s).act s (-q) (-r) p = f := by
  rw [act_act]
  have h1 : p * s + q * -r = 1 := by linarith
  have h2 : p * -q + q * p = 0 := by ring
  have h3 : r * s + s * -r = 0 := by ring
  have h4 : r * -q + s * p = 1 := by linarith
  rw [h1, h2, h3, h4, act_one]

theorem ProperlyEquivalent.refl (f : BinaryForm) : ProperlyEquivalent f f :=
  ⟨1, 0, 0, 1, by ring, (act_one f).symm⟩

theorem ProperlyEquivalent.symm (e : ProperlyEquivalent f g) : ProperlyEquivalent g f := by
  obtain ⟨p, q, r, s, det, rfl⟩ := e
  exact ⟨s, -q, -r, p, by linarith, (act_inverse det).symm⟩

theorem ProperlyEquivalent.trans (e : ProperlyEquivalent f g) (e' : ProperlyEquivalent g h) :
    ProperlyEquivalent f h := by
  obtain ⟨p, q, r, s, det, rfl⟩ := e
  obtain ⟨p', q', r', s', det', rfl⟩ := e'
  refine ⟨_, _, _, _, ?_, act_act ..⟩
  calc _ = (p * s - q * r) * (p' * s' - q' * r') := by ring
    _ = 1 := by rw [det, det']; ring

theorem ProperlyEquivalent.disc_eq (e : ProperlyEquivalent f g) : g.disc = f.disc := by
  obtain ⟨p, q, r, s, det, rfl⟩ := e
  rw [disc_act, det]; ring

/-- Translation `x ↦ x + n*y`: the leading coefficient stays, `b` moves by `2*a*n`. -/
theorem equivalent_translate (f : BinaryForm) (n : ℤ) :
    ProperlyEquivalent f ⟨f.a, f.b + 2 * f.a * n, f.a * n ^ 2 + f.b * n + f.c⟩ :=
  ⟨1, n, 0, 1, by ring, by ext <;> simp only [act, eval] <;> ring⟩

/-- The outer coefficients trade places under `(x, y) ↦ (-y, x)`. -/
theorem equivalent_swap (f : BinaryForm) : ProperlyEquivalent f ⟨f.c, -f.b, f.a⟩ :=
  ⟨0, -1, 1, 0, by ring, by ext <;> simp only [act, eval] <;> ring⟩

end Substitution

section Reduction

variable {f g : BinaryForm}

theorem Reduced.pos (red : f.Reduced) : 0 < f.a := by
  have := red.1; have := red.2.1; omega

theorem Reduced.abs_b_le (red : f.Reduced) : |f.b| ≤ f.a := by
  have := red.1
  exact abs_le.mpr ⟨by omega, red.2.1⟩

theorem neg_le_abs_mul (b x y a : ℤ) (small : |b| ≤ a) : -(a * (|x| * |y|)) ≤ b * x * y := by
  have bound : |b * x * y| ≤ a * (|x| * |y|) := by
    rw [mul_assoc, abs_mul, abs_mul]
    exact mul_le_mul_of_nonneg_right small (by positivity)
  linarith [neg_abs_le (b * x * y)]

/-- Off the first axis a reduced form stays above its last coefficient. -/
theorem Reduced.c_le_eval (red : f.Reduced) (x y : ℤ) (off : y ≠ 0) : f.c ≤ f.eval x y := by
  have cross := neg_le_abs_mul f.b x y f.a red.abs_b_le
  have apos := red.pos
  have ac := red.2.2.1
  have ypos : 1 ≤ |y| := Int.one_le_abs off
  have xnonneg := abs_nonneg x
  have xx : x ^ 2 = |x| ^ 2 := (sq_abs x).symm
  have yy : y ^ 2 = |y| ^ 2 := (sq_abs y).symm
  unfold eval
  rw [xx, yy]
  generalize |x| = u at *
  generalize |y| = v at *
  have lower : f.a * u ^ 2 - f.a * (u * v) + f.c * v ^ 2 ≤
      f.a * u ^ 2 + f.b * x * y + f.c * v ^ 2 := by linarith
  refine le_trans ?_ lower
  rcases le_or_gt v u with big | small
  · have gain : 0 ≤ f.a * (u * (u - v)) :=
      mul_nonneg apos.le (mul_nonneg xnonneg (by linarith))
    have square : f.c * 1 ≤ f.c * v ^ 2 := by
      apply mul_le_mul_of_nonneg_left _ (by linarith)
      nlinarith
    nlinarith
  · have loss : f.a * (u * (v - u)) ≤ f.c * (u * (v - u)) :=
      mul_le_mul_of_nonneg_right ac (mul_nonneg xnonneg (by linarith))
    have rest : 1 ≤ v ^ 2 - u * (v - u) := by nlinarith
    have scaled : f.c * 1 ≤ f.c * (v ^ 2 - u * (v - u)) :=
      mul_le_mul_of_nonneg_left rest (by linarith)
    nlinarith

/-- The leading coefficient of a reduced form is its minimum. -/
theorem Reduced.a_le_eval (red : f.Reduced) (x y : ℤ) (nonzero : x ≠ 0 ∨ y ≠ 0) :
    f.a ≤ f.eval x y := by
  by_cases off : y = 0
  · have xne : x ≠ 0 := by tauto
    have square : 1 ≤ x ^ 2 := by
      have := Int.one_le_abs xne
      nlinarith [sq_abs x]
    subst off
    have := red.pos
    simp only [eval]
    nlinarith
  · exact red.2.2.1.trans (red.c_le_eval x y off)

theorem unimodular_left_ne_zero (det : p * s - q * r = 1) : p ≠ 0 ∨ r ≠ (0 : ℤ) := by
  by_contra none
  push Not at none
  rw [none.1, none.2] at det
  simp at det

theorem Reduced.a_le_of_equivalent (redf : f.Reduced) (e : ProperlyEquivalent f g) :
    f.a ≤ g.a := by
  obtain ⟨p, q, r, s, det, rfl⟩ := e
  exact redf.a_le_eval p r (unimodular_left_ne_zero det)

/-- A translation cannot move `b` inside the window `(-a, a]`. -/
theorem Reduced.eq_of_translate (redf : f.Reduced) (redg : g.Reduced) (same : g.a = f.a)
    (shift : g.b = f.b + 2 * f.a * n) (discs : g.disc = f.disc) : f = g := by
  have apos := redf.pos
  have lo := redg.1
  have hi := redg.2.1
  have lof := redf.1
  have hif := redf.2.1
  have zero : n = 0 := by
    have upper : n < 1 := by by_contra big; push Not at big; nlinarith
    have lower : -1 < n := by by_contra big; push Not at big; nlinarith
    omega
  have sameb : g.b = f.b := by rw [shift, zero]; ring
  have samec : g.c = f.c := by
    simp only [disc, same, sameb] at discs
    have := mul_left_cancel₀ (show 4 * f.a ≠ 0 by omega)
      (show 4 * f.a * g.c = 4 * f.a * f.c by linarith)
    exact this
  ext
  · exact same.symm
  · exact sameb.symm
  · exact samec.symm

/-- Gauss: a class of a negative discriminant holds one reduced form only. -/
theorem Reduced.unique (redf : f.Reduced) (redg : g.Reduced) (e : ProperlyEquivalent f g) :
    f = g := by
  have same : g.a = f.a :=
    le_antisymm (redg.a_le_of_equivalent e.symm) (redf.a_le_of_equivalent e)
  have discs := e.disc_eq
  obtain ⟨p, q, r, s, det, hg⟩ := e
  have hf : f = g.act s (-q) (-r) p := by rw [hg, act_inverse det]
  by_cases axis : r = 0
  · subst axis
    have unit : p * s = 1 := by linarith
    refine redf.eq_of_translate (n := p * q) redg same ?_ discs
    rw [hg]
    simp only [act]
    linear_combination f.b * unit
  · -- both forms take their minimum off the axis, so both have `a = c`
    have fc : f.c = f.a := by
      have value : f.eval p r = f.a := by rw [← same, hg]; rfl
      exact le_antisymm (value ▸ redf.c_le_eval p r axis) redf.2.2.1
    have gc : g.c = g.a := by
      have value : g.eval s (-r) = g.a := by rw [same, hf]; rfl
      exact le_antisymm (value ▸ redg.c_le_eval s (-r) (by simpa using axis)) redg.2.2.1
    have fb := redf.2.2.2 fc.symm
    have gb := redg.2.2.2 gc.symm
    have squares : g.b ^ 2 = f.b ^ 2 := by
      simp only [disc, gc, fc, same] at discs
      linarith
    have sameb : g.b = f.b := by
      rcases sq_eq_sq_iff_eq_or_eq_neg.mp squares with eq | eq <;> omega
    ext
    · exact same.symm
    · exact sameb.symm
    · rw [fc, gc, same]

end Reduction

end BinaryForm
