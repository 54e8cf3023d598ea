import ChiaVdf.BinaryForm.Ideal

/-! Gauss composition read as multiplication of ideals. The composite is described by
the integers of the classical bilinear identities, so any way of finding them qualifies. -/
namespace BinaryForm

variable {n ε : ℤ} {f g : BinaryForm}

theorem HasDisc.of_equivalent (disc : HasDisc n ε f) (e : ProperlyEquivalent f g) :
    HasDisc n ε g := e.disc_eq.trans disc

theorem HasDisc.shift_sub (discf : HasDisc n ε f) (discg : HasDisc n ε g) (m : ℤ)
    (move : g.b = f.b + 2 * m) : g.shift ε = f.shift ε + m := by
  have hf := discf.two_shift
  have hg := discg.two_shift
  linarith

/-- Moving `b` by `2*m` translates the root by `-m`. -/
theorem HasDisc.root_sub (discf : HasDisc n ε f) (discg : HasDisc n ε g) (m : ℤ)
    (move : g.b = f.b + 2 * m) : f.root n ε = g.root n ε + m := by
  have moved := discf.shift_sub discg m move
  ext <;> simp [root, QuadraticAlgebra.re_intCast, QuadraticAlgebra.im_intCast]
  linarith

section Substitution

theorem span_singleton_mul_pair {R : Type*} [CommRing R] (x y z : R) :
    Ideal.span {x} * Ideal.span {y, z} = Ideal.span {x * y, x * z} := by
  rw [Ideal.span_mul_span', Set.singleton_mul, Set.image_pair]

theorem span_pair_eq_of_mem {R : Type*} [CommRing R] {x y x' y' : R}
    (hx : x ∈ Ideal.span {x', y'}) (hy : y ∈ Ideal.span {x', y'})
    (hx' : x' ∈ Ideal.span {x, y}) (hy' : y' ∈ Ideal.span {x, y}) :
    Ideal.span {x, y} = Ideal.span {x', y'} := by
  apply le_antisymm <;> rw [Ideal.span_le, Set.insert_subset_iff, Set.singleton_subset_iff]
  · exact ⟨hx, hy⟩
  · exact ⟨hx', hy'⟩

theorem mem_span_four {R : Type*} [CommRing R] {e x₁ x₂ x₃ x₄ : R} (c₁ c₂ c₃ c₄ : R)
    (eq : e = c₁ * x₁ + c₂ * x₂ + c₃ * x₃ + c₄ * x₄) : e ∈ Ideal.span {x₁, x₂, x₃, x₄} := by
  rw [eq]
  refine add_mem (add_mem (add_mem ?_ ?_) ?_) ?_ <;>
    exact Ideal.mul_mem_left _ _ (Ideal.subset_span (by simp))

/-- A unimodular change of generators. -/
theorem ideal_eq_span (f : BinaryForm) {p q r s : ℤ} (det : p * s - q * r = 1) :
    f.ideal n ε = Ideal.span {f.point n ε p (-r), f.point n ε (-q) s} := by
  have det' : (p : Order n ε) * s - q * r = 1 := by exact_mod_cast congrArg (Int.cast (R := Order n ε)) det
  apply span_pair_eq_of_mem <;> rw [Ideal.mem_span_pair] <;> simp only [point] <;> push_cast
  · exact ⟨s, r, by linear_combination (f.a : Order n ε) * det'⟩
  · exact ⟨q, p, by linear_combination f.root n ε * det'⟩
  · exact ⟨p, -r, by ring⟩
  · exact ⟨-q, s, by ring⟩

/-- Equivalent forms have similar ideals: conjugating the new first basis vector
carries one lattice onto a multiple of the other. -/
theorem similar_of_properlyEquivalent (disc : HasDisc n ε f) (pos : 0 < f.a)
    (e : ProperlyEquivalent f g) : Similar (f.ideal n ε) (g.ideal n ε) := by
  have discg := disc.of_equivalent e
  obtain ⟨p, q, r, s, det, rfl⟩ := e
  have basis : f.point n ε p (-r) ≠ 0 := by
    intro zero
    have := point_inj (n := n) (ε := ε) pos (zero.trans (by simp [point]) : _ = f.point n ε 0 0)
    rcases unimodular_left_ne_zero det with h | h <;> omega
  have conj : star (f.point n ε p (-r)) ≠ 0 := by simpa using basis
  have apos : (f.a : Order n ε) ≠ 0 := by exact_mod_cast pos.ne'
  refine ⟨star (f.point n ε p (-r)), f.a, conj, apos, ?_⟩
  have half := disc.two_shift
  have product := disc.shift_mul
  have moved := disc.shift_sub discg (f.a * p * q + f.b * q * r + f.c * r * s) (by
    simp only [act]; linear_combination f.b * det)
  have bezout : p * s = 1 + q * r := by linarith
  rw [ideal_eq_span f det, ideal, span_singleton_mul_pair, span_singleton_mul_pair]
  congr 1
  have first : star (f.point n ε p (-r)) * f.point n ε p (-r) = f.a * ((f.act p q r s).a : Order n ε) := by
    rw [mul_comm, ← QuadraticAlgebra.algebraMap_norm_eq_mul_star, norm_point disc]
    simp [act]
  have second : star (f.point n ε p (-r)) * f.point n ε (-q) s =
      f.a * (f.act p q r s).root n ε := by
    ext
    · simp [root, moved]
      linear_combination (-f.a * q * r) * half - (r * s) * product - (f.a * f.shift ε) * bezout
    · simp [root]
      linear_combination f.a * bezout
  rw [first, second]

end Substitution

/-- The integers of one Gauss composition of `f` and `g`: `w` is taken out of the two
leading coefficients and of the mean of the middle ones, and `k, l, m` solve the
congruences modulo `s` and `t`. -/
structure Composition (f g : BinaryForm) where
  w : ℤ
  s : ℤ
  t : ℤ
  u : ℤ
  k : ℤ
  l : ℤ
  m : ℤ
  first : f.a = w * s
  second : g.a = w * t
  mean : f.b + g.b = 2 * (w * u)
  difference : g.b - f.b = 2 * (t * k - s * l)
  last : g.c = u * k - s * m
  last' : f.c = u * l - t * m

namespace Composition

def result (z : Composition f g) : BinaryForm :=
  ⟨z.s * z.t, z.w * z.u - (z.k * z.t + z.l * z.s), z.k * z.l - z.w * z.m⟩

theorem result_b_left (z : Composition f g) : z.result.b = f.b + 2 * -(z.l * z.s) := by
  have := z.mean; have := z.difference
  simp only [result]; linarith

theorem result_b_right (z : Composition f g) : z.result.b = g.b + 2 * -(z.k * z.t) := by
  have := z.mean; have := z.difference
  simp only [result]; linarith

theorem result_disc (z : Composition f g) : z.result.disc = f.disc := by
  have b := z.result_b_left
  unfold disc
  rw [b, z.first, z.last']
  simp only [result]
  have mean := z.mean
  have difference := z.difference
  have fb : f.b = z.w * z.u - (z.t * z.k - z.s * z.l) := by linarith
  rw [fb]; ring

/-- The ideal of the composite, up to the factor taken out. -/
theorem ideal_mul (z : Composition f g) (discf : HasDisc n ε f) (discg : HasDisc n ε g)
    (prim : f.Primitive) :
    f.ideal n ε * g.ideal n ε = Ideal.span {(z.w : Order n ε)} * z.result.ideal n ε := by
  have disc : HasDisc n ε z.result := z.result_disc.trans discf
  have rootf := discf.root_sub disc _ z.result_b_left
  have rootg := discg.root_sub disc _ z.result_b_right
  have square := disc.root_mul_root
  obtain ⟨x, y, v, bezout⟩ := prim
  have fa : (f.a : Order n ε) = z.w * z.s := by exact_mod_cast congrArg (Int.cast (R := Order n ε)) z.first
  have ga : (g.a : Order n ε) = z.w * z.t := by exact_mod_cast congrArg (Int.cast (R := Order n ε)) z.second
  have fb : f.b = z.w * z.u - (z.t * z.k - z.s * z.l) := by linarith [z.mean, z.difference]
  have unit : (x : Order n ε) * (z.w * z.s) + y * (z.w * z.u - (z.t * z.k - z.s * z.l)) +
      v * (z.u * z.l - z.t * z.m) = 1 := by
    have := bezout
    rw [z.first, fb, z.last'] at this
    exact_mod_cast congrArg (Int.cast (R := Order n ε)) this
  have resa : (z.result.a : Order n ε) = z.s * z.t := by simp [result]
  have resb : (z.result.b : Order n ε) = z.w * z.u - (z.k * z.t + z.l * z.s) := by simp [result]
  have resc : (z.result.c : Order n ε) = z.k * z.l - z.w * z.m := by simp [result]
  rw [resa, resb, resc] at square
  push_cast at rootf rootg
  unfold ideal
  rw [Ideal.span_pair_mul_span_pair, span_singleton_mul_pair, rootf, rootg, fa, ga, resa]
  generalize z.result.root n ε = θ at square
  apply le_antisymm
  · rw [Ideal.span_le]
    rintro e (rfl | rfl | rfl | rfl) <;> apply Ideal.mem_span_pair.mpr
    · exact ⟨z.w, 0, by ring⟩
    · exact ⟨-z.k, z.s, by ring⟩
    · exact ⟨-z.l, z.t, by ring⟩
    · exact ⟨z.m, -z.u, by linear_combination -square⟩
  · -- each new generator is a combination of the four products weighted by `unit`
    rw [Ideal.span_le, Set.insert_subset_iff, Set.singleton_subset_iff]
    constructor
    · refine mem_span_four (x * z.s + y * z.u) (y * z.t) (-y * z.s - v * z.u) (-v * z.t) ?_
      linear_combination -(z.w * z.s * z.t : Order n ε) * unit + (v * z.t : Order n ε) * square
    · refine mem_span_four (x * z.k + y * z.m) (x * z.w + y * z.l) (-y * z.k - v * z.m)
        (-y * z.w - v * z.l) ?_
      linear_combination -(z.w * θ : Order n ε) * unit + (y * z.w + v * z.l : Order n ε) * square

end Composition

/-- The opposite form, with the middle coefficient negated. -/
def opposite (f : BinaryForm) : BinaryForm := ⟨f.a, -f.b, f.c⟩

theorem HasDisc.opposite (disc : HasDisc n ε f) : HasDisc n ε f.opposite := by
  unfold HasDisc BinaryForm.disc at *
  simpa [BinaryForm.opposite] using disc

/-- A primitive form and its opposite multiply to a principal ideal. -/
theorem ideal_mul_opposite (disc : HasDisc n ε f) (prim : f.Primitive) :
    f.ideal n ε * f.opposite.ideal n ε = Ideal.span {(f.a : Order n ε)} := by
  have other := disc.root_sub disc.opposite (-f.b) (by simp [BinaryForm.opposite]; ring)
  have square := disc.root_mul_root
  obtain ⟨x, y, v, bezout⟩ := prim
  have unit : (x : Order n ε) * f.a + y * f.b + v * f.c = 1 := by
    exact_mod_cast congrArg (Int.cast (R := Order n ε)) bezout
  have opp : f.opposite.root n ε = f.root n ε + f.b := by
    rw [other]; push_cast; ring
  unfold ideal
  rw [Ideal.span_pair_mul_span_pair, opp, show f.opposite.a = f.a from rfl]
  generalize f.root n ε = θ at square
  apply le_antisymm
  · rw [Ideal.span_le]
    rintro e (rfl | rfl | rfl | rfl) <;> apply Ideal.mem_span_singleton'.mpr
    · exact ⟨f.a, rfl⟩
    · exact ⟨θ + f.b, by ring⟩
    · exact ⟨θ, rfl⟩
    · exact ⟨-f.c, by linear_combination -square⟩
  · rw [Ideal.span_le, Set.singleton_subset_iff]
    refine mem_span_four x y (-y) (-v) ?_
    linear_combination -(f.a : Order n ε) * unit + (v : Order n ε) * square

/-- A form that represents one at the first axis is the unit of composition. -/
theorem ideal_of_a_eq_one (one : f.a = 1) : f.ideal n ε = ⊤ := by
  rw [Ideal.eq_top_iff_one]
  exact Ideal.subset_span (by simp [one])

end BinaryForm
