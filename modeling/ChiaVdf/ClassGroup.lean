import Mathlib.Algebra.Group.Basic
import Mathlib.Data.Nat.Prime.Basic
import ChiaVdf.Multiply

/-! The group the verifier and the provers compute in: reduced forms of a discriminant
`-p` under `operator*`. Associativity is that of multiplying ideals; it transfers because a
class of ideals holds one reduced form only. -/
namespace ChiaVdf

open BinaryForm

/-- Discriminants as `CreateDiscriminant` makes them: `D = -p` for a prime `p = 7 (mod 8)`. -/
structure Discriminant where
  p : ℕ
  prime : p.Prime
  mod8 : p % 8 = 7

namespace Discriminant

def D (d : Discriminant) : ℤ := -d.p

/-- The order of discriminant `D` is generated by `ω` with `ω * ω = n + ω`. -/
def n (d : Discriminant) : ℤ := -((d.p + 1) / 4)

theorem one_add_n (d : Discriminant) : (1 : ℤ) ^ 2 + 4 * d.n = d.D := by
  have := d.mod8
  unfold n D
  omega

theorem D_neg (d : Discriminant) : d.D < 0 := by
  have := d.prime.pos
  unfold D
  omega

end Discriminant

theorem Discriminant.square_dvd (d : Discriminant) (divides : r * r ∣ d.D) : r * r = 1 := by
  have natural : r.natAbs * r.natAbs ∣ d.p := by
    have := Int.natAbs_dvd_natAbs.mpr divides
    rwa [Int.natAbs_mul, Discriminant.D, Int.natAbs_neg, Int.natAbs_natCast] at this
  have unit := Nat.isUnit_iff.mp (d.prime.prime.squarefree _ natural)
  rw [← Int.natAbs_mul_self' r, unit]
  norm_num

theorem Discriminant.squarefree (d : Discriminant) : Squarefree d.D := fun _ divides =>
  isUnit_iff_exists_inv.mpr ⟨_, d.square_dvd divides⟩

/-- A reduced form of discriminant `D`; the elements of the class group. -/
@[ext] structure ReducedForm (d : Discriminant) where
  form : Form
  reduced : form.Reduced
  disc : form.disc = d.D

variable {d : Discriminant} {f g : Form}

theorem hasDisc_of_disc (disc : f.disc = d.D) : HasDisc d.n 1 f := disc.trans d.one_add_n.symm

/-- A prime discriminant has no square divisor, so none of its forms has a content. -/
theorem primitive_of_disc (disc : f.disc = d.D) : f.Primitive := by
  have square : ((Int.gcd (Int.gcd f.a f.b) f.c : ℕ) : ℤ) ^ 2 ∣ f.disc := by
    obtain ⟨a, ha⟩ := (Int.gcd_dvd_left (Int.gcd f.a f.b : ℤ) f.c).trans (Int.gcd_dvd_left f.a f.b)
    obtain ⟨b, hb⟩ := (Int.gcd_dvd_left (Int.gcd f.a f.b : ℤ) f.c).trans (Int.gcd_dvd_right f.a f.b)
    obtain ⟨c, hc⟩ := Int.gcd_dvd_right (Int.gcd f.a f.b : ℤ) f.c
    generalize ((Int.gcd (Int.gcd f.a f.b) f.c : ℕ) : ℤ) = e at *
    refine ⟨b ^ 2 - 4 * a * c, ?_⟩
    unfold BinaryForm.disc
    rw [ha, hb, hc]; ring
  have unit : Int.gcd (Int.gcd f.a f.b) f.c = 1 := by
    rw [disc, Discriminant.D, dvd_neg] at square
    have square' : Int.gcd (Int.gcd f.a f.b) f.c ^ 2 ∣ d.p := by exact_mod_cast square
    rw [pow_two] at square'
    exact Nat.isUnit_iff.mp (d.prime.prime.squarefree _ square')
  have outer := Int.gcd_eq_gcd_ab (Int.gcd f.a f.b) f.c
  have inner := Int.gcd_eq_gcd_ab f.a f.b
  rw [unit, inner] at outer
  refine ⟨f.a.gcdA f.b * (Int.gcd f.a f.b : ℤ).gcdA f.c, f.a.gcdB f.b * (Int.gcd f.a f.b : ℤ).gcdA f.c,
    (Int.gcd f.a f.b : ℤ).gcdB f.c, ?_⟩
  rw [← inner] at outer
  push_cast at outer
  linear_combination -outer + (Int.gcd f.a f.b : ℤ).gcdA f.c * -inner

/-- The class of a form, as the ideals similar to its own. -/
abbrev Discriminant.ideal (d : Discriminant) (f : Form) : Ideal (Order d.n 1) := f.ideal d.n 1

theorem Discriminant.neg (d : Discriminant) : (1 : ℤ) ^ 2 + 4 * d.n < 0 := by
  rw [d.one_add_n]; exact d.D_neg

instance (d : Discriminant) : NoZeroDivisors (Order d.n 1) := order_noZeroDivisors d.neg

/-- `reduce` stays in the class of ideals. -/
theorem reduce_similar (pos : 0 < f.a) (disc : f.disc = d.D) :
    ∃ g : ReducedForm d, Form.reduce f = .done g.form ∧ Similar (d.ideal f) (d.ideal g.form) := by
  obtain ⟨g, run, red, e⟩ := Form.reduce_spec pos (disc ▸ d.D_neg)
  exact ⟨⟨g, red, e.disc_eq.trans disc⟩, run,
    similar_of_properlyEquivalent (hasDisc_of_disc disc) pos e⟩

theorem ReducedForm.eq_of_similar {x y : ReducedForm d}
    (similar : Similar (d.ideal x.form) (d.ideal y.form)) : x = y := by
  apply ReducedForm.ext
  exact (y.reduced.unique x.reduced (properlyEquivalent_of_similar d.neg (hasDisc_of_disc x.disc)
    (hasDisc_of_disc y.disc) x.reduced.pos y.reduced.pos similar)).symm

theorem reduce_composition (disc : f.disc = d.D) (disc' : g.disc = d.D) (z : Composition f g)
    (wpos : 0 < z.w) (spos : 0 < z.s) (tpos : 0 < z.t) :
    ∃ h : ReducedForm d, Form.reduce z.result = .done h.form ∧
      Similar (d.ideal f * d.ideal g) (d.ideal h.form) := by
  obtain ⟨h, run, similar⟩ := reduce_similar (d := d) (mul_pos spos tpos : 0 < z.result.a)
    (z.result_disc.trans disc)
  refine ⟨h, run, ?_⟩
  rw [z.ideal_mul (hasDisc_of_disc disc) (hasDisc_of_disc disc') (primitive_of_disc disc)]
  have nonzero : (z.w : Order d.n 1) ≠ 0 := by exact_mod_cast wpos.ne'
  exact (similar_span_mul nonzero _).trans similar

theorem multiply_similar (fpos : 0 < f.a) (gpos : 0 < g.a) (disc : f.disc = d.D)
    (disc' : g.disc = d.D) : ∃ h : ReducedForm d, Form.multiply f g = .done h.form ∧
      Similar (d.ideal f * d.ideal g) (d.ideal h.form) := by
  obtain ⟨z, wpos, spos, tpos, run⟩ := Form.multiply_eq_reduce fpos gpos (disc'.trans disc.symm)
  rw [run]
  exact reduce_composition disc disc' z wpos spos tpos

theorem Reduced.three_sq_le (red : f.Reduced) : 3 * f.a ^ 2 ≤ -f.disc := by
  have low := red.1
  have high := red.2.1
  have pos := red.pos
  have square : f.b ^ 2 ≤ f.a ^ 2 := sq_le_sq' (by omega) high
  have product : f.a * f.a ≤ f.a * f.c := mul_le_mul_of_nonneg_left red.2.2.1 pos.le
  unfold BinaryForm.disc
  nlinarith

/-- In a reduced form `a` is too small to share the factor `p` with `b`. -/
theorem ReducedForm.coprime (x : ReducedForm d) : Int.gcd x.form.b x.form.a = 1 := by
  have pos := x.reduced.pos
  have divides : (Int.gcd x.form.b x.form.a : ℤ) ∣ (d.p : ℤ) := by
    have disc : (d.p : ℤ) = 4 * x.form.a * x.form.c - x.form.b ^ 2 := by
      have := x.disc
      unfold BinaryForm.disc Discriminant.D at this
      linarith
    rw [disc]
    exact dvd_sub ((Int.gcd_dvd_right ..).mul_left 4 |>.mul_right _)
      ((Int.gcd_dvd_left ..).trans (dvd_pow_self _ two_ne_zero))
  rcases (Nat.dvd_prime d.prime).mp (by exact_mod_cast divides) with one | whole
  · exact one
  · have large : (d.p : ℤ) ≤ x.form.a :=
      Int.le_of_dvd pos (whole ▸ Int.gcd_dvd_right x.form.b x.form.a)
    have small := Reduced.three_sq_le x.reduced
    rw [x.disc, Discriminant.D, neg_neg] at small
    have := d.prime.pos
    nlinarith

theorem square_similar (x : ReducedForm d) :
    ∃ h : ReducedForm d, Form.square x.form = .done h.form ∧
      Similar (d.ideal x.form * d.ideal x.form) (d.ideal h.form) := by
  obtain ⟨z, w, spos, tpos, run⟩ := Form.square_eq_reduce x.reduced.pos x.coprime
  rw [run]
  exact reduce_composition x.disc x.disc z (by rw [w]; exact one_pos) spos tpos

section Group

/-- The result of a run that is known to end in a reduced form. -/
def ReducedForm.ofRun (run : Exec Form) (ends : ∃ g : ReducedForm d, run = .done g.form) :
    ReducedForm d :=
  match run, ends with
  | .done f, ends => ⟨f, by obtain ⟨g, eq⟩ := ends; cases eq; exact g.reduced,
      by obtain ⟨g, eq⟩ := ends; cases eq; exact g.disc⟩
  | .thrown _, ends | .fault _, ends | .diverged, ends => absurd ends (by simp)

theorem ReducedForm.ofRun_spec (run : Exec Form) (ends : ∃ g : ReducedForm d, run = .done g.form) :
    run = .done (ReducedForm.ofRun run ends).form := by
  obtain ⟨g, rfl⟩ := ends
  rfl

theorem multiply_ends (x y : ReducedForm d) :
    ∃ h : ReducedForm d, Form.multiply x.form y.form = .done h.form := by
  obtain ⟨h, run, -⟩ := multiply_similar x.reduced.pos y.reduced.pos x.disc y.disc
  exact ⟨h, run⟩

theorem opposite_disc (f : Form) : f.opposite.disc = f.disc := by
  unfold BinaryForm.disc opposite
  ring

theorem inverse_ends (x : ReducedForm d) :
    ∃ h : ReducedForm d, Form.inverse x.form = .done h.form := by
  obtain ⟨h, run, -⟩ := reduce_similar (f := x.form.opposite) x.reduced.pos
    ((opposite_disc _).trans x.disc)
  exact ⟨h, run⟩

instance : Mul (ReducedForm d) := ⟨fun x y => ReducedForm.ofRun _ (multiply_ends x y)⟩

instance : Inv (ReducedForm d) := ⟨fun x => ReducedForm.ofRun _ (inverse_ends x)⟩

instance : One (ReducedForm d) where
  one :=
    { form := ⟨1, 1, (d.p + 1) / 4⟩
      reduced := by
        have := d.mod8
        refine ⟨by norm_num, le_rfl, ?_, fun _ => by norm_num⟩
        change 1 ≤ ((d.p : ℤ) + 1) / 4
        omega
      disc := by
        have := d.mod8
        unfold BinaryForm.disc Discriminant.D
        dsimp only
        omega }

theorem multiply_run (x y : ReducedForm d) :
    Form.multiply x.form y.form = .done (x * y).form := ReducedForm.ofRun_spec _ (multiply_ends x y)

theorem inverse_run (x : ReducedForm d) : Form.inverse x.form = .done x⁻¹.form :=
  ReducedForm.ofRun_spec _ (inverse_ends x)

theorem identity_run (d : Discriminant) :
    Form.identity d.D = .done (1 : ReducedForm d).form := by
  rw [Form.identity, ← (1 : ReducedForm d).disc]
  exact (Form.fromAbd_eq_reduce (f := (1 : ReducedForm d).form) one_pos).trans
    (Form.reduce_of_reduced (1 : ReducedForm d).reduced)

theorem mul_similar (x y : ReducedForm d) :
    Similar (d.ideal x.form * d.ideal y.form) (d.ideal (x * y).form) := by
  obtain ⟨h, run, similar⟩ := multiply_similar x.reduced.pos y.reduced.pos x.disc y.disc
  have same : h.form = (x * y).form := by
    have := run.symm.trans (multiply_run x y)
    exact Exec.done.inj this
  exact same ▸ similar

theorem inv_similar (x : ReducedForm d) :
    Similar (d.ideal x.form.opposite) (d.ideal x⁻¹.form) := by
  obtain ⟨h, run, similar⟩ := reduce_similar (d := d) (f := x.form.opposite) x.reduced.pos
    ((opposite_disc _).trans x.disc)
  have same : h.form = x⁻¹.form := Exec.done.inj (run.symm.trans (inverse_run x))
  exact same ▸ similar

theorem ideal_one (d : Discriminant) : d.ideal (1 : ReducedForm d).form = 1 :=
  (ideal_of_a_eq_one rfl).trans Ideal.one_eq_top.symm

theorem mul_mul_similar (x y z : ReducedForm d) :
    Similar (d.ideal (x * y * z).form) (d.ideal x.form * d.ideal y.form * d.ideal z.form) :=
  ((mul_similar (x * y) z).symm).trans ((mul_similar x y).symm.mul (BinaryForm.Similar.refl _))

instance : CommGroup (ReducedForm d) where
  mul_assoc x y z := by
    apply ReducedForm.eq_of_similar
    refine (mul_mul_similar x y z).trans ?_
    rw [mul_assoc]
    exact ((BinaryForm.Similar.refl _).mul (mul_similar y z)).trans (mul_similar x (y * z))
  one_mul x := by
    apply ReducedForm.eq_of_similar
    have := (mul_similar 1 x).symm
    rwa [ideal_one, one_mul] at this
  mul_one x := by
    apply ReducedForm.eq_of_similar
    have := (mul_similar x 1).symm
    rwa [ideal_one, mul_one] at this
  inv_mul_cancel x := by
    apply ReducedForm.eq_of_similar
    refine (mul_similar x⁻¹ x).symm.trans (((inv_similar x).symm.mul (BinaryForm.Similar.refl _)).trans ?_)
    rw [mul_comm, ideal_mul_opposite (hasDisc_of_disc x.disc) (primitive_of_disc x.disc), ideal_one]
    have nonzero : (x.form.a : Order d.n 1) ≠ 0 := by exact_mod_cast x.reduced.pos.ne'
    have := similar_span_mul nonzero (1 : Ideal (Order d.n 1))
    rwa [mul_one] at this
  mul_comm x y := by
    apply ReducedForm.eq_of_similar
    refine (mul_similar x y).symm.trans ?_
    rw [mul_comm]
    exact mul_similar y x

theorem square_run (x : ReducedForm d) : Form.square x.form = .done (x * x).form := by
  obtain ⟨h, run, similar⟩ := square_similar x
  have same : h = x * x := ReducedForm.eq_of_similar (similar.symm.trans (mul_similar x x))
  rw [run, same]

end Group

/-- `operator*` on distinct objects makes the reduced forms of discriminant `D` an abelian
group with neutral element `identity` and inverse `inverse`; on a copy of its argument it
agrees with `square`. -/
theorem operator_mul_abelian_group (d : Discriminant) :
    (∀ x y : ReducedForm d, ∃ z : ReducedForm d, Form.multiply x.form y.form = .done z.form) ∧
    (∀ x y : ReducedForm d, Form.multiply x.form y.form = Form.multiply y.form x.form) ∧
    (∀ x y z : ReducedForm d,
      (Form.multiply x.form y.form >>= fun xy => Form.multiply xy z.form) =
        (Form.multiply y.form z.form >>= fun yz => Form.multiply x.form yz)) ∧
    (∃ e : ReducedForm d, Form.identity d.D = .done e.form ∧
      ∀ x : ReducedForm d, Form.multiply x.form e.form = .done x.form ∧
        Form.multiply e.form x.form = .done x.form) ∧
    (∀ x : ReducedForm d, ∃ i : ReducedForm d, Form.inverse x.form = .done i.form ∧
      Form.multiply x.form i.form = Form.identity d.D) ∧
    (∀ x : ReducedForm d, Form.multiply x.form x.form = Form.square x.form) := by
  refine ⟨multiply_ends, fun x y => ?_, fun x y z => ?_, ⟨1, identity_run d, fun x => ⟨?_, ?_⟩⟩,
    fun x => ⟨x⁻¹, inverse_run x, ?_⟩, fun x => ?_⟩
  · rw [multiply_run, multiply_run, mul_comm]
  · simp only [multiply_run, Exec.done_bind, mul_assoc]
  · rw [multiply_run, mul_one]
  · rw [multiply_run, one_mul]
  · rw [multiply_run, mul_inv_cancel, identity_run]
  · rw [multiply_run, square_run]

end ChiaVdf
