import ChiaVdf.Exec

/-! The GMP operations behind `integer`, as exact integer arithmetic. Where GMP raises a
signal on an operand (a zero divisor, an even root of a negative number) the result here
is a fault. -/
namespace ChiaVdf

/-- `mpz_fdiv_q`, which is `integer::operator/`. -/
def mpzFdivQ (n d : ℤ) : Exec ℤ := if d = 0 then .fault .divideByZero else .done (n.fdiv d)

/-- `mpz_mod`, which is `integer::operator%`: the sign of the modulus is ignored. -/
def mpzMod (n d : ℤ) : Exec ℤ := if d = 0 then .fault .divideByZero else .done (n % d)

/-- `mpz_fdiv_r`, with the sign of the divisor. -/
def mpzFdivR (n d : ℤ) : Exec ℤ := if d = 0 then .fault .divideByZero else .done (n.fmod d)

/-- `mpz_tdiv_q`, rounding toward zero. -/
def mpzTdivQ (n d : ℤ) : Exec ℤ := if d = 0 then .fault .divideByZero else .done (n.tdiv d)

/-- `mpz_tdiv_r`, with the sign of the dividend. -/
def mpzTdivR (n d : ℤ) : Exec ℤ := if d = 0 then .fault .divideByZero else .done (n.tmod d)

/-- `mpz_divexact`, which is only defined when `d` divides `n`. -/
def mpzDivexact (n d : ℤ) : Exec ℤ :=
  if d = 0 then .fault .divideByZero
  else if n % d ≠ 0 then .fault .inexactDivision
  else .done (n / d)

/-- `mpz_sqrt`, the integer part of the root. -/
def mpzSqrt (n : ℤ) : Exec ℤ := if n < 0 then .fault .evenRootOfNegative else .done n.toNat.sqrt

/-- `mpz_perfect_square_p`. -/
def mpzPerfectSquareP (n : ℤ) : Bool := 0 ≤ n ∧ (n.toNat.sqrt : ℤ) * n.toNat.sqrt = n

/-- `mpz_powm_ui`, the nonnegative residue of `b ^ e`. -/
def mpzPowmUi (b : ℤ) (e : ℕ) (m : ℤ) : Exec ℤ :=
  if m = 0 then .fault .divideByZero else .done (b ^ e % m)

/-- `mpz_root` for the fourth root, as two square roots. -/
def mpzRoot4 (n : ℤ) : Exec ℤ :=
  if n < 0 then .fault .evenRootOfNegative else .done n.toNat.sqrt.sqrt

/-- `mpz_tstbit`, in two's complement for negative numbers. -/
def mpzTstbit (n : ℤ) (i : ℕ) : Bool := n / 2 ^ i % 2 = 1

/-- `_mp_size`: the number of 64-bit limbs with the sign of the number. -/
def mpSize (n : ℤ) : ℤ := if n = 0 then 0 else n.sign * ((n.natAbs.log2 / 64 + 1 : ℕ) : ℤ)

/-- `mpz_sizeinbase` for base 2; the number zero counts as one digit. -/
def mpzSizeinbase2 (n : ℤ) : ℕ := if n = 0 then 1 else n.natAbs.log2 + 1

/-- `integer::num_bits`. -/
abbrev numBits (n : ℤ) : ℕ := mpzSizeinbase2 n

structure GcdRes where
  gcd : ℤ
  s : ℤ
  t : ℤ

/-- `mpz_gcdext`: of all cofactors GMP documents the ones with `|s| < |b| / (2*g)`, with
the sign of `a` where `|b| = 2*g` leaves a choice and zero where `|a| = |b|`. -/
def mpzGcdext (a b : ℤ) : GcdRes :=
  let g : ℤ := Int.gcd a b
  let m : ℤ := |b| / g
  let r := a.gcdA b % m
  let s : ℤ :=
    if b = 0 then a.sign
    else if |a| = |b| then 0
    else if 2 * r < m ∨ m = 2 ∧ 0 < a then r else r - m
  ⟨g, s, (g - a * s) / b⟩

section Spec

variable {n d a b : ℤ}

theorem mpzFdivQ_done (nonzero : d ≠ 0) : mpzFdivQ n d = .done (n.fdiv d) := by
  simp [mpzFdivQ, nonzero]

theorem mpzFdivQ_pos (pos : 0 < d) : mpzFdivQ n d = .done (n / d) := by
  rw [mpzFdivQ_done pos.ne', Int.fdiv_eq_ediv_of_nonneg n pos.le]

theorem mpzFdivQ_exact (nonzero : d ≠ 0) (q : ℤ) (eq : n = d * q) : mpzFdivQ n d = .done q := by
  rw [mpzFdivQ_done nonzero, eq, Int.mul_fdiv_cancel_left q nonzero]

theorem mpzMod_done (nonzero : d ≠ 0) : mpzMod n d = .done (n % d) := by
  simp [mpzMod, nonzero]

theorem mpzFdivR_pos (pos : 0 < d) : mpzFdivR n d = .done (n % d) := by
  rw [mpzFdivR, if_neg pos.ne', Int.fmod_eq_emod_of_nonneg n pos.le]

theorem mpzTdivQ_done (nonzero : d ≠ 0) : mpzTdivQ n d = .done (n.tdiv d) := by
  simp [mpzTdivQ, nonzero]

theorem mpzTdivR_done (nonzero : d ≠ 0) : mpzTdivR n d = .done (n.tmod d) := by
  simp [mpzTdivR, nonzero]

theorem mpzDivexact_exact (nonzero : d ≠ 0) (q : ℤ) (eq : n = d * q) : mpzDivexact n d = .done q := by
  simp [mpzDivexact, nonzero, eq]

theorem mpzSqrt_done (nonneg : 0 ≤ n) : mpzSqrt n = .done n.toNat.sqrt := by
  simp [mpzSqrt, not_lt.mpr nonneg]

theorem mpzPowmUi_done (nonzero : d ≠ 0) (e : ℕ) : mpzPowmUi n e d = .done (n ^ e % d) := by
  simp [mpzPowmUi, nonzero]

theorem lt_two_pow_sizeinbase2 (nonneg : 0 ≤ n) : n < 2 ^ mpzSizeinbase2 n := by
  unfold mpzSizeinbase2
  split
  · subst n; norm_num
  · have := Nat.lt_log2_self (n := n.natAbs)
    zify at this
    rwa [abs_of_nonneg nonneg] at this

theorem natAbs_lt_iff_sizeinbase2_le (pos : 0 < k) : n.natAbs < 2 ^ k ↔ mpzSizeinbase2 n ≤ k := by
  unfold mpzSizeinbase2
  split
  · subst n; simp; omega
  · next nonzero =>
    rw [Nat.succ_le_iff, Nat.log2_lt (by omega)]

@[simp] theorem mpzGcdext_gcd (a b : ℤ) : (mpzGcdext a b).gcd = Int.gcd a b := rfl

theorem gcd_dvd_natAbs (a b : ℤ) : ∃ m : ℤ, |b| = Int.gcd a b * m :=
  (dvd_abs (Int.gcd a b : ℤ) b).mpr (Int.gcd_dvd_right a b)

/-- Every `s` in the residue class of the Bézout coefficient solves `a * s ≡ gcd`. -/
theorem dvd_gcd_sub_of_residue {m s : ℤ} (hm : |b| = Int.gcd a b * m) (close : m ∣ s - a.gcdA b) :
    b ∣ Int.gcd a b - a * s := by
  have bezout := Int.gcd_eq_gcd_ab a b
  obtain ⟨a', ha⟩ := Int.gcd_dvd_left a b
  obtain ⟨j, hj⟩ := close
  have eq : (Int.gcd a b : ℤ) - a * s = b * a.gcdB b - a' * j * |b| := by
    have hs : s = a.gcdA b + m * j := by linarith
    rw [hs, hm]
    linear_combination bezout - (j * m) * ha
  rw [eq]
  exact dvd_sub (dvd_mul_right _ _) (Dvd.dvd.mul_left ((dvd_abs b b).mpr dvd_rfl) _)

/-- GMP's choice of `s`, case by case: all of them are Bézout coefficients. -/
theorem dvd_gcd_sub_mul_s (a b : ℤ) : b ∣ Int.gcd a b - a * (mpzGcdext a b).s := by
  by_cases zero : b = 0
  · subst zero
    simp [mpzGcdext, Int.mul_sign_self]
  by_cases same : |a| = |b|
  · have whole : (Int.gcd a b : ℤ) = |b| := by
      rw [Int.gcd, Int.natAbs_eq_natAbs_iff.mpr (abs_eq_abs.mp same), Nat.gcd_self,
        Int.natCast_natAbs]
    simp only [mpzGcdext, zero, same, if_true, if_false, mul_zero, sub_zero, whole]
    exact (dvd_abs b b).mpr dvd_rfl
  have gpos : (Int.gcd a b : ℤ) ≠ 0 := by
    exact_mod_cast (Int.gcd_pos_of_ne_zero_right a zero).ne'
  obtain ⟨m, hm⟩ := gcd_dvd_natAbs a b
  have quotient : |b| / (Int.gcd a b : ℤ) = m := by rw [hm, Int.mul_ediv_cancel_left _ gpos]
  have residue : m ∣ a.gcdA b % m - a.gcdA b :=
    ⟨-(a.gcdA b / m), by rw [Int.emod_def]; ring⟩
  apply dvd_gcd_sub_of_residue hm
  simp only [mpzGcdext, if_neg zero, if_neg same, quotient]
  split
  · exact residue
  · obtain ⟨j, hj⟩ := residue
    exact ⟨j - 1, by linear_combination hj⟩

theorem mpzGcdext_bezout (a b : ℤ) :
    a * (mpzGcdext a b).s + b * (mpzGcdext a b).t = Int.gcd a b := by
  have exact := Int.mul_ediv_cancel' (dvd_gcd_sub_mul_s a b)
  have unfolded : (mpzGcdext a b).t = (Int.gcd a b - a * (mpzGcdext a b).s) / b := rfl
  rw [unfolded, exact]; ring

end Spec

end ChiaVdf
