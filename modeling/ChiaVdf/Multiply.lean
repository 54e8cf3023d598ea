import ChiaVdf.BinaryForm.Compose
import ChiaVdf.Reduce

/-! The congruences of `multiply` are always solvable and its divisions exact: both ways of
composing run through a Gauss composition and then reduce its result. -/
namespace ChiaVdf.Form

open BinaryForm

variable {f g : Form}

theorem solveLinearCongruence_spec {a b m : ℤ} (pos : 0 < m) (solvable : (Int.gcd a m : ℤ) ∣ b) :
    ∃ mu v, solveLinearCongruence a b m = .done (mu, v) ∧ m ∣ a * mu - b ∧
      m = Int.gcd a m * v := by
  have gpos : (0 : ℤ) < Int.gcd a m := by
    exact_mod_cast Int.gcd_pos_of_ne_zero_right a pos.ne'
  obtain ⟨q, hq⟩ := solvable
  obtain ⟨v, hv⟩ := Int.gcd_dvd_right a m
  have bezout := mpzGcdext_bezout a m
  refine ⟨q * (mpzGcdext a m).s % m, v, ?_, ?_, hv⟩
  · have remainder : b % (Int.gcd a m : ℤ) = 0 := by rw [hq, Int.mul_emod_right]
    simp only [solveLinearCongruence, mpzGcdext_gcd, mpzFdivQ_exact gpos.ne' q hq,
      mpzFdivQ_exact gpos.ne' v hv, mpzMod_done gpos.ne', mpzMod_done pos.ne', remainder,
      Exec.done_bind, Exec.pure_eq, ne_eq, not_true_eq_false, if_false]
  · rw [Int.emod_def]
    refine ⟨-(q * (mpzGcdext a m).t) - a * (q * (mpzGcdext a m).s / m), ?_⟩
    linear_combination q * bezout - hq

theorem b_add_even (discs : g.disc = f.disc) : Even (g.b + f.b) := by
  have product : (g.b - f.b) * (g.b + f.b) = 2 * (2 * (g.a * g.c - f.a * f.c)) := by
    unfold disc at discs; linarith
  by_contra odd
  have odd := Int.not_even_iff_odd.mp odd
  have odd' : Odd (g.b - f.b) := by simpa [Int.odd_sub, Int.odd_add] using odd
  exact Int.not_even_iff_odd.mpr (odd'.mul odd) (product ▸ even_two_mul _)

theorem threeGcd_eq (a b c : ℤ) : threeGcd a b c = Int.gcd (Int.gcd a b) c := rfl

/-- Once the common divisor is out, three numbers have a Bézout relation. -/
theorem threeGcd_bezout (a b c : ℤ) (pos : 0 < a) :
    ∃ w s t u x y z : ℤ, threeGcd a b c = w ∧ 0 < w ∧ a = w * s ∧ b = w * t ∧ c = w * u ∧
      x * s + y * t + z * u = 1 := by
  have apos : 0 < Int.gcd a b := Int.gcd_pos_of_ne_zero_left b pos.ne'
  have wpos : (0 : ℤ) < threeGcd a b c := by
    rw [threeGcd_eq]
    exact_mod_cast Int.gcd_pos_of_ne_zero_left c (by exact_mod_cast apos.ne')
  have dvd_ab : threeGcd a b c ∣ (Int.gcd a b : ℤ) := Int.gcd_dvd_left _ _
  obtain ⟨s, hs⟩ := dvd_ab.trans (Int.gcd_dvd_left a b)
  obtain ⟨t, ht⟩ := dvd_ab.trans (Int.gcd_dvd_right a b)
  obtain ⟨u, hu⟩ : threeGcd a b c ∣ c := Int.gcd_dvd_right _ _
  have outer := Int.gcd_eq_gcd_ab (Int.gcd a b) c
  have inner := Int.gcd_eq_gcd_ab a b
  rw [← threeGcd_eq] at outer
  generalize threeGcd a b c = w at *
  refine ⟨w, s, t, u, (Int.gcd a b : ℤ).gcdA c * a.gcdA b, (Int.gcd a b : ℤ).gcdA c * a.gcdB b,
    (Int.gcd a b : ℤ).gcdB c, rfl, wpos, hs, ht, hu, ?_⟩
  apply mul_left_cancel₀ wpos.ne'
  calc _ = (a * a.gcdA b + b * a.gcdB b) * (Int.gcd a b : ℤ).gcdA c +
        c * (Int.gcd a b : ℤ).gcdB c := by rw [hs, ht, hu]; ring
    _ = w * 1 := by rw [← inner, ← outer, mul_one]

/-- The common part of `u` and `s`: what the first congruence leaves undetermined. -/
theorem common_part (u : ℤ) {s : ℤ} (spos : 0 < s) :
    ∃ e u' r p q : ℤ, (Int.gcd u s : ℤ) = e ∧ 0 < e ∧ 0 < r ∧ u = e * u' ∧ s = e * r ∧
      p * u' + q * r = 1 := by
  have epos : (0 : ℤ) < Int.gcd u s := by exact_mod_cast Int.gcd_pos_of_ne_zero_right u spos.ne'
  obtain ⟨u', hu⟩ := Int.gcd_dvd_left u s
  obtain ⟨r, hr⟩ := Int.gcd_dvd_right u s
  have bezout := Int.gcd_eq_gcd_ab u s
  generalize (Int.gcd u s : ℤ) = e at *
  refine ⟨e, u', r, u.gcdA s, u.gcdB s, rfl, epos, pos_of_mul_pos_right (hr ▸ spos) epos.le, hu,
    hr, mul_left_cancel₀ epos.ne' ?_⟩
  linear_combination -bezout - (u.gcdA s) * hu - (u.gcdB s) * hr

theorem gcd_first (u : ℤ) {s t : ℤ} (tpos : 0 < t) :
    (Int.gcd (t * u) (s * t) : ℤ) = t * Int.gcd u s := by
  rw [mul_comm s t, Int.gcd_mul_left]
  push_cast
  rw [abs_of_pos tpos]

/-- A divisor of `u` and `s` is coprime to `t`, so the second congruence has the period
the first one leaves over. -/
theorem gcd_second {s t u u' e r x y z : ℤ} (rpos : 0 < r) (eu : u = e * u') (es : s = e * r)
    (unit : x * s + y * t + z * u = 1) : (Int.gcd (t * r) s : ℤ) = r := by
  have coprime : Int.gcd t e = 1 := by
    apply Int.isCoprime_iff_gcd_eq_one.mp
    exact ⟨y, x * r + z * u', by rw [es, eu] at unit; linear_combination unit⟩
  rw [es, Int.gcd_mul_right, coprime, one_mul]
  push_cast
  exact abs_of_pos rpos

/-- Both congruences of `multiply` have solutions, and the combined `k` meets the two
conditions of a composition: `t*k ≡ h` and `u*k ≡ c` modulo `s`. -/
theorem congruences_spec {s t u h c c₁ x y z : ℤ} (spos : 0 < s) (tpos : 0 < t)
    (unit : x * s + y * t + z * u = 1) (cross : h * u + s * c₁ = t * c) :
    ∃ kTemp factor n v, solveLinearCongruence (t * u) (h * u + s * c₁) (s * t) = .done (kTemp, factor) ∧
      solveLinearCongruence (t * factor) (h - t * kTemp) s = .done (n, v) ∧
      s ∣ t * (kTemp + factor * n) - h ∧ s ∣ u * (kTemp + factor * n) - c := by
  obtain ⟨e, u', r, p, q, he, epos, rpos, hu, hr, coprime⟩ := common_part u spos
  have ec : e ∣ c := by
    obtain ⟨j, hj⟩ : e ∣ t * c := by
      rw [← cross, hu, hr]
      exact ⟨h * u' + r * c₁, by ring⟩
    refine ⟨x * r * c + y * j + z * u' * c, ?_⟩
    rw [hr, hu] at unit
    linear_combination y * hj - c * unit
  have first : (Int.gcd (t * u) (s * t) : ℤ) ∣ h * u + s * c₁ := by
    rw [gcd_first u tpos, he, cross]
    exact mul_dvd_mul_left t ec
  obtain ⟨kTemp, factor, run₁, sol₁, period⟩ :=
    solveLinearCongruence_spec (mul_pos spos tpos) first
  have hfactor : r = factor := by
    apply mul_left_cancel₀ (mul_pos tpos epos).ne'
    rw [gcd_first u tpos, he, hr] at period
    linear_combination period
  subst hfactor
  obtain ⟨i, hi⟩ : s ∣ u * kTemp - c := by
    have scaled : s * t ∣ (u * kTemp - c) * t := by
      rw [cross] at sol₁
      convert sol₁ using 1
      ring
    exact Int.dvd_of_mul_dvd_mul_right tpos.ne' scaled
  have second : (Int.gcd (t * r) s : ℤ) ∣ h - t * kTemp := by
    rw [gcd_second rpos hu hr unit]
    have scaled : u' * (t * kTemp - h) = r * (t * i + c₁) := by
      apply mul_left_cancel₀ epos.ne'
      linear_combination t * hi - cross - (t * kTemp - h) * hu + (t * i + c₁) * hr
    refine ⟨-(p * (t * i + c₁) + q * (t * kTemp - h)), ?_⟩
    linear_combination -p * scaled + (t * kTemp - h) * coprime
  obtain ⟨n, v, run₂, sol₂, -⟩ := solveLinearCongruence_spec spos second
  refine ⟨kTemp, r, n, v, run₁, run₂, ?_, i + u' * n, ?_⟩
  · convert sol₂ using 1; ring
  · linear_combination hi + (r * n) * hu - (u' * n) * hr

/-- `multiply` finds the integers of a Gauss composition and reduces the composite. -/
theorem multiply_eq_reduce (fpos : 0 < f.a) (gpos : 0 < g.a) (discs : g.disc = f.disc) :
    ∃ z : Composition f g, 0 < z.w ∧ 0 < z.s ∧ 0 < z.t ∧ multiply f g = reduce z.result := by
  obtain ⟨mean, hmean⟩ := b_add_even discs
  obtain ⟨w, s, t, u, x, y, v, hw, wpos, hs, ht, hu, unit⟩ := threeGcd_bezout f.a g.a mean fpos
  have spos : 0 < s := pos_of_mul_pos_right (hs ▸ fpos) wpos.le
  have tpos : 0 < t := pos_of_mul_pos_right (ht ▸ gpos) wpos.le
  have stpos : 0 < s * t := mul_pos spos tpos
  obtain ⟨h, hh⟩ : ∃ h, h = mean - f.b := ⟨_, rfl⟩
  have hsum : g.b + f.b = 2 * mean := by linarith
  have hdiff : g.b - f.b = 2 * h := by linarith
  -- both forms have the same discriminant: this makes the first congruence divisible by `t`
  have cross : h * u + s * f.c = t * g.c := by
    apply mul_left_cancel₀ wpos.ne'
    have four : 4 * (h * mean) = 4 * (g.a * g.c - f.a * f.c) := by
      unfold disc at discs
      linear_combination discs - (g.b + f.b) * hdiff - 2 * h * hsum
    rw [hs, ht, hu] at four
    linarith
  obtain ⟨kTemp, factor, n, v, run₁, run₂, ⟨l, hl⟩, m, hm⟩ :=
    congruences_spec spos tpos unit cross
  have last' : f.c = u * l - t * m := by
    apply mul_left_cancel₀ spos.ne'
    linear_combination cross - t * hm + u * hl
  have hm' : t * u * (kTemp + factor * n) - h * u - s * f.c = s * t * m := by
    linear_combination t * hm - cross
  refine ⟨⟨w, s, t, u, kTemp + factor * n, l, m, hs, ht, by linarith, by linarith, by linarith,
    last'⟩, wpos, spos, tpos, ?_⟩
  simp only [multiply, mpzFdivQ_exact two_ne_zero mean hsum, mpzFdivQ_exact two_ne_zero h hdiff,
    Exec.done_bind, hw, mpzFdivQ_exact wpos.ne' s hs, mpzFdivQ_exact wpos.ne' t ht,
    mpzFdivQ_exact wpos.ne' u hu, run₁, run₂, mpzFdivQ_exact spos.ne' l hl,
    mpzFdivQ_exact stpos.ne' m hm']
  rfl

/-- `square` is the composition of a form with itself when its `a` and `b` are coprime. -/
theorem square_eq_reduce (fpos : 0 < f.a) (coprime : Int.gcd f.b f.a = 1) :
    ∃ z : Composition f f, z.w = 1 ∧ 0 < z.s ∧ 0 < z.t ∧ square f = reduce z.result := by
  have bezout := mpzGcdext_bezout f.b f.a
  rw [coprime] at bezout
  obtain ⟨u, hu⟩ : ∃ u, u = f.c * (mpzGcdext f.b f.a).s % f.a := ⟨_, rfl⟩
  have exact : f.a ∣ f.b * u - f.c := by
    rw [hu, Int.emod_def]
    refine ⟨-(f.c * (mpzGcdext f.b f.a).t) - f.b * (f.c * (mpzGcdext f.b f.a).s / f.a), ?_⟩
    push_cast at bezout
    linear_combination f.c * bezout
  obtain ⟨m, hm⟩ := exact
  refine ⟨⟨1, f.a, f.a, f.b, u, u, m, by ring, by ring, by ring, by ring, by linarith, by linarith⟩,
    rfl, fpos, fpos, ?_⟩
  simp only [square, mpzGcdext_gcd, coprime, Nat.cast_one,
    mpzFdivQ_exact one_ne_zero f.c (one_mul f.c).symm, Exec.done_bind, mpzMod_done fpos.ne', ← hu,
    mpzFdivQ_exact fpos.ne' m hm, Composition.result]
  congr 2
  · ring
  · ring

end ChiaVdf.Form
