import Mathlib.Algebra.QuadraticAlgebra.Basic
import Mathlib.RingTheory.Ideal.Operations
import ChiaVdf.BinaryForm.Basic

/-! Forms of one discriminant as ideals of the quadratic order of that discriminant.
Ideals that differ by principal factors have properly equivalent forms, so composing
forms becomes multiplying ideals and inherits its associativity. -/
namespace BinaryForm

section Similar

variable {R : Type*} [CommRing R] {I J K I' J' : Ideal R}

/-- Equality up to nonzero principal factors. -/
def Similar (I J : Ideal R) : Prop :=
  ∃ α β : R, α ≠ 0 ∧ β ≠ 0 ∧ Ideal.span {α} * I = Ideal.span {β} * J

theorem Similar.refl [Nontrivial R] (I : Ideal R) : Similar I I :=
  ⟨1, 1, one_ne_zero, one_ne_zero, rfl⟩

theorem Similar.symm (e : Similar I J) : Similar J I := by
  obtain ⟨α, β, hα, hβ, eq⟩ := e
  exact ⟨β, α, hβ, hα, eq.symm⟩

theorem Similar.trans [NoZeroDivisors R] (e : Similar I J) (e' : Similar J K) : Similar I K := by
  obtain ⟨α, β, hα, hβ, eq⟩ := e
  obtain ⟨γ, δ, hγ, hδ, eq'⟩ := e'
  refine ⟨γ * α, β * δ, mul_ne_zero hγ hα, mul_ne_zero hβ hδ, ?_⟩
  calc Ideal.span {γ * α} * I = Ideal.span {γ} * (Ideal.span {α} * I) := by
        rw [← Ideal.span_singleton_mul_span_singleton, mul_assoc]
    _ = Ideal.span {β} * (Ideal.span {γ} * J) := by rw [eq, mul_left_comm]
    _ = Ideal.span {β * δ} * K := by
        rw [eq', ← Ideal.span_singleton_mul_span_singleton, mul_assoc]

theorem Similar.mul [NoZeroDivisors R] (e : Similar I J) (e' : Similar I' J') : Similar (I * I') (J * J') := by
  obtain ⟨α, β, hα, hβ, eq⟩ := e
  obtain ⟨γ, δ, hγ, hδ, eq'⟩ := e'
  refine ⟨α * γ, β * δ, mul_ne_zero hα hγ, mul_ne_zero hβ hδ, ?_⟩
  rw [← Ideal.span_singleton_mul_span_singleton, ← Ideal.span_singleton_mul_span_singleton,
    mul_mul_mul_comm, eq, eq', mul_mul_mul_comm]

theorem similar_span_mul [Nontrivial R] {α : R} (nonzero : α ≠ 0) (I : Ideal R) :
    Similar (Ideal.span {α} * I) I :=
  ⟨1, α, one_ne_zero, nonzero, by rw [Ideal.span_singleton_one, ← Ideal.one_eq_top, one_mul]⟩

end Similar

/-- The quadratic order with `ω * ω = n + ε * ω`, of discriminant `ε ^ 2 + 4 * n`. -/
abbrev Order (n ε : ℤ) := QuadraticAlgebra ℤ n ε

variable {n ε : ℤ} {f g : BinaryForm}

def HasDisc (n ε : ℤ) (f : BinaryForm) : Prop := f.disc = ε ^ 2 + 4 * n

/-- Half of `b + ε`, which is even for every form of the discriminant. -/
def shift (ε : ℤ) (f : BinaryForm) : ℤ := (f.b + ε) / 2

/-- A root of `X^2 + b*X + a*c`. -/
def root (n ε : ℤ) (f : BinaryForm) : Order n ε := ⟨-f.shift ε, 1⟩

/-- The lattice point with coordinates `x, y` against `a` and the root. -/
def point (n ε : ℤ) (f : BinaryForm) (x y : ℤ) : Order n ε := x * f.a + y * f.root n ε

def ideal (n ε : ℤ) (f : BinaryForm) : Ideal (Order n ε) := Ideal.span {(f.a : Order n ε), f.root n ε}

@[simp] theorem point_re (f : BinaryForm) (x y : ℤ) :
    (f.point n ε x y).re = x * f.a - y * f.shift ε := by
  simp [point, root, QuadraticAlgebra.re_intCast, QuadraticAlgebra.im_intCast, sub_eq_add_neg]

@[simp] theorem point_im (f : BinaryForm) (x y : ℤ) : (f.point n ε x y).im = y := by
  simp [point, root, QuadraticAlgebra.re_intCast, QuadraticAlgebra.im_intCast]

theorem a_eq_point (f : BinaryForm) : (f.a : Order n ε) = f.point n ε 1 0 := by simp [point]

theorem root_eq_point (f : BinaryForm) : f.root n ε = f.point n ε 0 1 := by simp [point]

theorem HasDisc.two_shift (disc : HasDisc n ε f) : 2 * f.shift ε = f.b + ε := by
  have even : Even (f.b + ε) := by
    have product : (f.b - ε) * (f.b + ε) = 2 * (2 * (f.a * f.c + n)) := by
      unfold HasDisc BinaryForm.disc at disc; linarith
    by_contra odd
    have odd := Int.not_even_iff_odd.mp odd
    have odd' : Odd (f.b - ε) := by simpa [Int.odd_sub, Int.odd_add] using odd
    exact Int.not_even_iff_odd.mpr (odd'.mul odd) (product ▸ even_two_mul _)
  exact Int.two_mul_ediv_two_of_even even

theorem HasDisc.shift_mul (disc : HasDisc n ε f) :
    f.shift ε * (f.shift ε - ε) = n + f.a * f.c := by
  have half := disc.two_shift
  unfold HasDisc BinaryForm.disc at disc
  have four : 4 * (f.shift ε * (f.shift ε - ε)) = 4 * (n + f.a * f.c) := by
    linear_combination (2 * f.shift ε - 2 * ε + f.b + ε) * half + disc
  linarith

theorem HasDisc.root_mul_root (disc : HasDisc n ε f) :
    f.root n ε * f.root n ε = -(f.b : Order n ε) * f.root n ε - f.a * f.c := by
  have half := disc.two_shift
  have product := disc.shift_mul
  ext <;> simp [root, QuadraticAlgebra.re_intCast, QuadraticAlgebra.im_intCast]
  · linear_combination f.shift ε * half - product
  · linarith

theorem mem_ideal (disc : HasDisc n ε f) (z : Order n ε) :
    z ∈ f.ideal n ε ↔ ∃ x y : ℤ, z = f.point n ε x y := by
  constructor
  · intro member
    obtain ⟨u, v, rfl⟩ := Ideal.mem_span_pair.mp member
    have product := disc.shift_mul
    refine ⟨u.re + u.im * f.shift ε - v.im * f.c, u.im * f.a + v.re + v.im * (ε - f.shift ε), ?_⟩
    ext <;> simp [root, QuadraticAlgebra.re_intCast, QuadraticAlgebra.im_intCast]
    · linear_combination (-v.im) * product
    · ring
  · rintro ⟨x, y, rfl⟩
    exact Ideal.mem_span_pair.mpr ⟨x, y, rfl⟩

theorem norm_point (disc : HasDisc n ε f) (x y : ℤ) :
    (f.point n ε x y).norm = f.a * f.eval x (-y) := by
  have half := disc.two_shift
  have product := disc.shift_mul
  simp only [QuadraticAlgebra.norm_def, point_re, point_im, eval]
  linear_combination (-f.a * x * y) * half + y ^ 2 * product

/-- Coordinates of a lattice point are unique. -/
theorem point_inj (pos : 0 < f.a) {x y x' y' : ℤ}
    (eq : f.point n ε x y = f.point n ε x' y') : x = x' ∧ y = y' := by
  have im : y = y' := by simpa using congrArg QuadraticAlgebra.im eq
  have re := congrArg QuadraticAlgebra.re eq
  simp only [point_re, im] at re
  exact ⟨mul_right_cancel₀ pos.ne' (show x * f.a = x' * f.a by linarith), im⟩

/-- Signed area of two elements against the basis `1, ω`. -/
def area (u v : Order n ε) : ℤ := u.re * v.im - u.im * v.re

theorem area_mul (γ u v : Order n ε) : area (γ * u) (γ * v) = γ.norm * area u v := by
  simp only [area, QuadraticAlgebra.norm_def, QuadraticAlgebra.re_mul, QuadraticAlgebra.im_mul]
  ring

theorem area_point (f : BinaryForm) (p q r s : ℤ) :
    area (f.point n ε p q) (f.point n ε r s) = (p * s - q * r) * f.a := by
  simp only [area, point_re, point_im]; ring

theorem eval_act (f : BinaryForm) (p q r s x y : ℤ) :
    (f.act p q r s).eval x y = f.eval (p * x + q * y) (r * x + s * y) := by
  simp only [act, eval]; ring

theorem ext_of_eval (same : ∀ x y, f.eval x y = g.eval x y) : f = g := by
  have h10 := same 1 0
  have h01 := same 0 1
  have h11 := same 1 1
  simp [eval] at h10 h01 h11
  ext <;> linarith

section Negative

variable (neg : ε ^ 2 + 4 * n < 0)

include neg in
theorem norm_pos {z : Order n ε} (nonzero : z ≠ 0) : 0 < z.norm := by
  have four : 4 * z.norm = (2 * z.re + ε * z.im) ^ 2 - (ε ^ 2 + 4 * n) * z.im ^ 2 := by
    rw [QuadraticAlgebra.norm_def]; ring
  by_cases im : z.im = 0
  · have re : z.re ≠ 0 := fun re => nonzero (QuadraticAlgebra.ext re im)
    have : 0 < z.re ^ 2 := by positivity
    rw [im] at four
    nlinarith
  · have : 0 < z.im ^ 2 := by positivity
    nlinarith [sq_nonneg (2 * z.re + ε * z.im)]

include neg in
theorem order_noZeroDivisors : NoZeroDivisors (Order n ε) where
  eq_zero_or_eq_zero_of_mul_eq_zero := by
    intro x y product
    by_contra none
    push Not at none
    have positive := mul_pos (norm_pos neg none.1) (norm_pos neg none.2)
    rw [← map_mul, product, QuadraticAlgebra.norm_zero] at positive
    exact lt_irrefl _ positive

/-- One inclusion of `α * I_f = β * I_g`, written out on the generators of `f`. -/
theorem generators_of_le (discg : HasDisc n ε g) {α β : Order n ε}
    (le : Ideal.span {α} * f.ideal n ε ≤ Ideal.span {β} * g.ideal n ε) :
    ∃ p q r s : ℤ, α * f.a = β * g.point n ε p q ∧ α * f.root n ε = β * g.point n ε r s := by
  have image (z) (member : z ∈ f.ideal n ε) : ∃ x y : ℤ, α * z = β * g.point n ε x y := by
    have target := le (Ideal.mul_mem_mul (Ideal.mem_span_singleton_self α) member)
    obtain ⟨w, hw, eq⟩ := Ideal.mem_span_singleton_mul.mp target
    obtain ⟨x, y, rfl⟩ := (mem_ideal discg w).mp hw
    exact ⟨x, y, eq.symm⟩
  obtain ⟨p, q, first⟩ := image f.a (Ideal.subset_span (by simp))
  obtain ⟨r, s, second⟩ := image (f.root n ε) (Ideal.subset_span (by simp))
  exact ⟨p, q, r, s, first, second⟩

include neg in
/-- Two lattice bases that generate each other differ by a unimodular matrix. -/
theorem unimodular_of_generators (posf : 0 < f.a) {α β : Order n ε} (hα : α ≠ 0)
    (fa : α * f.a = β * g.point n ε p q) (froot : α * f.root n ε = β * g.point n ε r s)
    (ga : β * g.a = α * f.point n ε p' q') (groot : β * g.root n ε = α * f.point n ε r' s') :
    (p * s - q * r) * (p' * s' - q' * r') = 1 := by
  have := order_noZeroDivisors neg
  have first : 1 = p * p' + q * r' ∧ 0 = p * q' + q * s' := by
    apply point_inj (n := n) (ε := ε) posf
    apply mul_left_cancel₀ hα
    rw [← a_eq_point, fa]
    simp only [point] at ga groot ⊢
    push_cast
    linear_combination (p : Order n ε) * ga + (q : Order n ε) * groot
  have second : 0 = r * p' + s * r' ∧ 1 = r * q' + s * s' := by
    apply point_inj (n := n) (ε := ε) posf
    apply mul_left_cancel₀ hα
    rw [← root_eq_point, froot]
    simp only [point] at ga groot ⊢
    push_cast
    linear_combination (r : Order n ε) * ga + (s : Order n ε) * groot
  calc (p * s - q * r) * (p' * s' - q' * r')
      = (p * p' + q * r') * (r * q' + s * s') - (p * q' + q * s') * (r * p' + s * r') := by ring
    _ = 1 := by rw [← first.1, ← first.2, ← second.2]; ring

include neg in
/-- Similar ideals come from properly equivalent forms: the two bases of the common
lattice are both positively oriented, so the matrix between them has determinant one. -/
theorem properlyEquivalent_of_similar (discf : HasDisc n ε f) (discg : HasDisc n ε g)
    (posf : 0 < f.a) (posg : 0 < g.a) (similar : Similar (f.ideal n ε) (g.ideal n ε)) :
    ProperlyEquivalent g f := by
  obtain ⟨α, β, hα, hβ, eq⟩ := similar
  obtain ⟨p, q, r, s, fa, froot⟩ := generators_of_le discg eq.le
  obtain ⟨p', q', r', s', ga, groot⟩ := generators_of_le discf eq.ge
  have dets := unimodular_of_generators neg posf hα fa froot ga groot
  have nα := norm_pos neg hα
  have nβ := norm_pos neg hβ
  have scale : α.norm * f.a = β.norm * ((p * s - q * r) * g.a) := by
    rw [← area_point, ← area_mul, ← fa, ← froot, area_mul, a_eq_point, root_eq_point, area_point]
    ring
  have positive : 0 < p * s - q * r := by
    have : 0 < β.norm * g.a * (p * s - q * r) := by nlinarith [mul_pos nα posf]
    exact (pos_iff_pos_of_mul_pos this).mp (mul_pos nβ posg)
  have det : p * s - q * r = 1 := by
    rcases Int.mul_eq_one_iff_eq_one_or_neg_one.mp dets with h | h <;> omega
  rw [det, one_mul] at scale
  refine ⟨p, -r, -q, s, by linarith, ext_of_eval fun x y => ?_⟩
  have norms : α.norm * (f.a * f.eval x y) =
      β.norm * (g.a * g.eval (p * x - r * y) (s * y - q * x)) := by
    have lhs := norm_point discf x (-y)
    have rhs := norm_point discg (p * x - r * y) (q * x - s * y)
    rw [neg_neg] at lhs
    rw [neg_sub] at rhs
    rw [← lhs, ← rhs, ← map_mul, ← map_mul]
    congr 1
    simp only [point] at fa froot ⊢
    push_cast
    linear_combination (x : Order n ε) * fa - (y : Order n ε) * froot
  have cancel : α.norm * f.a * f.eval x y =
      α.norm * f.a * g.eval (p * x - r * y) (s * y - q * x) := by
    rw [mul_assoc, norms, ← mul_assoc, ← scale]
  rw [mul_left_cancel₀ (mul_pos nα posf).ne' cancel, eval_act]
  congr 1 <;> ring

end Negative

end BinaryForm
