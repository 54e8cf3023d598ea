import ChiaVdf.BqfcLayout
import ChiaVdf.ClassGroup

/-! Compression of a form to the cofactor of its partial gcd, and the recovery of `b` from
it: a modular square root that is exact because the remainder lies below the root of `a`. -/
namespace ChiaVdf.Bqfc

/-- The pairs that belong to a form of discriminant `D` with `b` in the window of `a`. -/
structure Pair (D a b : ℤ) : Prop where
  pos : 0 < a
  low : -a < b
  high : b ≤ a
  disc : 4 * a ∣ b ^ 2 - D

/-- What `compr` leaves of a pair with `|b| ≤ a`, `b ≠ a`. -/
structure Compressed (a b : ℤ) (c : QfbC) : Prop where
  g_pos : 1 ≤ c.g
  a_eq : c.a * c.g = a
  t_ne : c.t ≠ 0
  coprime : Int.gcd c.t c.a = 1
  sign : c.bSign = decide (b < 0)
  b0_eq : c.b0 = if c.g = 1 then 0 else |b| / c.a
  t_small : |c.t * c.g| * (a.toNat.sqrt + 1) ≤ a
  root : ∃ r, 0 ≤ r ∧ r * c.g ≤ a.toNat.sqrt ∧ c.a ∣ r - c.t * |b|

theorem sqrt_sq_le (nonneg : 0 ≤ a) : (a.toNat.sqrt : ℤ) * a.toNat.sqrt ≤ a := by
  have := Nat.sqrt_le a.toNat
  zify at this
  rwa [Int.toNat_of_nonneg nonneg] at this

theorem lt_succ_sqrt (nonneg : 0 ≤ a) : a < ((a.toNat.sqrt : ℤ) + 1) * (a.toNat.sqrt + 1) := by
  have := Nat.lt_succ_sqrt a.toNat
  zify at this
  rwa [Int.toNat_of_nonneg nonneg] at this

theorem sqrt_lt (two : 2 ≤ a) : (a.toNat.sqrt : ℤ) < a := by
  have := sqrt_sq_le (show 0 ≤ a by omega)
  by_contra large
  have : a * a ≤ (a.toNat.sqrt : ℤ) * a.toNat.sqrt :=
    mul_self_le_mul_self (by omega) (by omega)
  nlinarith

theorem sign_abs (b : ℤ) : (if decide (b < 0) = true then -b else b) = |b| := by
  split <;> next sign => simp at sign; simp [abs_of_neg, abs_of_nonneg, sign]

theorem sign_tdiv (b d : ℤ) : (if decide (b < 0) = true then -b.tdiv d else b.tdiv d) = |b| / d := by
  split <;> next sign =>
    simp at sign
    first
    | rw [← Int.neg_tdiv, Int.tdiv_eq_ediv_of_nonneg (by omega), abs_of_neg sign]
    | rw [Int.tdiv_eq_ediv_of_nonneg sign, abs_of_nonneg sign]

theorem cofactor_spec (two : 2 ≤ a) (small : |b| ≤ a) :
    ∃ s, mpzXgcdPartial a |b| a.toNat.sqrt = .done s ∧ s.co1 ≠ 0 ∧
      |s.co1| * (a.toNat.sqrt + 1) ≤ a ∧ 0 ≤ s.r1 ∧ s.r1 ≤ a.toNat.sqrt ∧ a ∣ s.r1 + s.co1 * |b| := by
  obtain ⟨τ, s, run, inv, low⟩ := mpzXgcdPartial_spec (abs_nonneg b) small
    (Int.natCast_nonneg a.toNat.sqrt) (sqrt_lt two)
  refine ⟨s, run, ?_, ?_, inv.nonneg, low, inv.cong1⟩
  · intro zero
    have := inv.co1
    simp [zero] at this
  · rw [← abs_neg, Xgcd.abs_of_sign inv.sign (by linarith [inv.co1])]
    linarith [inv.small]

theorem compr_spec (two : 2 ≤ a) (small : |b| ≤ a) (ne : a ≠ b) :
    ∃ c, compr a b = .done c ∧ Compressed a b c := by
  have aSqrt := mpzSqrt_done (show 0 ≤ a by omega)
  obtain ⟨s, run, co1_ne, co1_small, r1s, r1_le, cong⟩ := cofactor_spec two small
  have gpos : 0 < (Int.gcd a (-s.co1) : ℤ) := by
    exact_mod_cast Int.gcd_pos_of_ne_zero_left _ (by omega)
  obtain ⟨a', ha⟩ := Int.gcd_dvd_left a (-s.co1)
  obtain ⟨t', ht⟩ := Int.gcd_dvd_right a (-s.co1)
  have coprime : Int.gcd t' a' = 1 := by
    have := Int.gcd_mul_left (Int.gcd a (-s.co1) : ℤ) a' t'
    rw [← ha, ← ht, Int.natAbs_natCast] at this
    rw [Int.gcd_comm]
    exact Nat.eq_of_mul_eq_mul_left (by omega) (this.symm.trans (mul_one _).symm)
  set g : ℤ := ((Int.gcd a (-s.co1) : ℕ) : ℤ) with g_def
  have a'pos : 0 < a' := by nlinarith
  refine ⟨⟨a', t', g, if g = 1 then 0 else |b| / a', decide (b < 0)⟩, ?_, ?_⟩
  · simp only [compr, if_neg ne, aSqrt, Exec.done_bind, sign_abs, run, ← g_def]
    split
    · next one =>
      rw [one, one_mul] at ha ht
      rw [one, ha, ht]
      rfl
    · rw [mpzDivexact_exact gpos.ne' a' ha, Exec.done_bind, mpzDivexact_exact gpos.ne' t' ht,
        Exec.done_bind, mpzTdivQ_done a'pos.ne', Exec.done_bind, sign_tdiv]
      rfl
  · constructor
    case g_pos => exact gpos
    case a_eq => dsimp only; rw [mul_comm, ← ha]
    case t_ne =>
      rintro rfl
      rw [mul_zero, neg_eq_zero] at ht
      exact co1_ne ht
    case coprime => exact coprime
    case sign => rfl
    case b0_eq => rfl
    case t_small =>
      dsimp only
      rw [mul_comm t', ← ht, abs_neg]
      exact co1_small
    case root =>
      have gr : g ∣ s.r1 := by
        have first : g ∣ s.r1 + s.co1 * |b| := (Dvd.intro _ ha.symm).trans cong
        have second : g ∣ -s.co1 * |b| := (Dvd.intro _ ht.symm).mul_right _
        have := dvd_add first second
        rwa [show s.r1 + s.co1 * |b| + -s.co1 * |b| = s.r1 by ring] at this
      obtain ⟨r, hr⟩ := gr
      refine ⟨r, ?_, ?_, ?_⟩
      · nlinarith
      · dsimp only; rw [mul_comm, ← hr]; exact r1_le
      · obtain ⟨j, hj⟩ := cong
        refine ⟨j, mul_left_cancel₀ gpos.ne' ?_⟩
        dsimp only
        linear_combination hj - hr + |b| * ht + j * ha

theorem Compressed.t_le (cmp : Compressed a b c) (two : 2 ≤ a) : |c.t * c.g| ≤ a.toNat.sqrt := by
  have := cmp.t_small
  have := lt_succ_sqrt (show 0 ≤ a by omega)
  have root : (0 : ℤ) ≤ a.toNat.sqrt := by positivity
  by_contra large
  nlinarith

section Decompress

variable {d : Discriminant} {D : ℤ}

theorem Compressed.a_pos (cmp : Compressed a b c) (two : 2 ≤ a) : 0 < c.a := by
  have := cmp.g_pos
  have := cmp.a_eq
  nlinarith

/-- The remainder is the root of a number below `a'`; a square `a` would divide `D`. -/
theorem Compressed.root_sq_lt (free : Squarefree D) (cmp : Compressed a b c) (two : 2 ≤ a) (disc : a ∣ b ^ 2 - D)
    (rs : 0 ≤ r) (low : r * c.g ≤ a.toNat.sqrt) (cong : c.a ∣ r - c.t * |b|) : r * r < c.a := by
  have apos := cmp.a_pos two
  have gpos := cmp.g_pos
  have eq := cmp.a_eq
  have square : r * c.g * (r * c.g) ≤ c.a * c.g := by
    have := mul_self_le_mul_self (mul_nonneg rs (by omega)) low
    rw [eq]
    exact this.trans (sqrt_sq_le (by omega))
  have le : r * r * c.g ≤ c.a := by
    refine le_of_mul_le_mul_right ?_ (show 0 < c.g by omega)
    linarith
  have wide : r * r * 1 ≤ r * r * c.g := mul_le_mul_of_nonneg_left gpos (mul_self_nonneg r)
  by_contra large
  have same : r * r = c.a := by linarith
  have one : c.g = 1 := by
    rw [same] at le
    nlinarith
  rw [one, mul_one] at eq
  -- `a = r * r` divides `t * b` squared, hence `b` squared and the discriminant
  obtain ⟨j, hj⟩ := cong
  have divides : c.a ∣ c.t * c.t * (b ^ 2) := by
    rw [← sq_abs b]
    exact ⟨1 - 2 * r * j + c.a * j * j, by
      linear_combination -(c.t * |b| + r - c.a * j) * hj + same⟩
  rw [mul_assoc] at divides
  have coprime : Int.gcd c.a c.t = 1 := by rw [Int.gcd_comm]; exact cmp.coprime
  have divides_b := Int.dvd_of_dvd_mul_right_of_gcd_one
    (Int.dvd_of_dvd_mul_right_of_gcd_one divides coprime) coprime
  have divides_D : r * r ∣ D := by
    rw [same, eq]
    rw [eq] at divides_b
    have := dvd_sub divides_b disc
    rwa [sub_sub_cancel] at this
  obtain rfl | rfl := Int.isUnit_iff.mp (free r divides_D) <;> omega

theorem perfectSquare (rs : 0 ≤ r) : mpzPerfectSquareP (r * r) = true ∧ mpzSqrt (r * r) = .done r := by
  have nonneg : 0 ≤ r * r := mul_self_nonneg r
  have root : ((r * r).toNat.sqrt : ℤ) = r := by
    obtain ⟨n, rfl⟩ := Int.eq_ofNat_of_zero_le rs
    have : ((n : ℤ) * n).toNat = n * n := by rw [← Nat.cast_mul, Int.toNat_natCast]
    rw [this, Nat.sqrt_eq]
  refine ⟨?_, by rw [mpzSqrt_done nonneg, root]⟩
  simp [mpzPerfectSquareP, nonneg, root]

/-- GMP's cofactor is at least `-m`, so one addition makes it a residue. -/
theorem neg_le_mpzGcdext_s (pos : 0 < m) (coprime : Int.gcd x m = 1) : -m ≤ (mpzGcdext x m).s := by
  have nonneg := Int.emod_nonneg (x.gcdA m) pos.ne'
  simp only [mpzGcdext, if_neg pos.ne', coprime, Nat.cast_one, Int.ediv_one, abs_of_pos pos]
  split
  · omega
  · split <;> omega

/-- The residue that `decompr` multiplies the root with is an inverse of `t`. -/
theorem inverse_spec (pos : 0 < m) (coprime : Int.gcd x m = 1) :
    let t := if x < 0 then x + m else x
    let s := (mpzGcdext t m).s
    (mpzGcdext t m).gcd = 1 ∧ 0 ≤ (if s < 0 then s + m else s) ∧
      m ∣ 1 - x * (if s < 0 then s + m else s) := by
  intro t s
  have unit : Int.gcd t m = 1 := by
    simp only [t]
    split
    · rw [Int.gcd_add_self_left]; exact coprime
    · exact coprime
  have low := neg_le_mpzGcdext_s pos unit
  have bezout := dvd_gcd_sub_mul_s t m
  rw [unit, Nat.cast_one] at bezout
  have t_mod : m ∣ t - x := by
    simp only [t]; split <;> simp
  refine ⟨by simp [unit], by split <;> omega, ?_⟩
  obtain ⟨i, hi⟩ := bezout
  obtain ⟨j, hj⟩ := t_mod
  split
  · exact ⟨i + j * s - x, by linear_combination hi + s * hj⟩
  · exact ⟨i + j * s, by linear_combination hi + s * hj⟩

/-- What `decompr` makes of a compressed pair: `b` itself, or its residue when `g` is one. -/
theorem decompr_spec (free : Squarefree D) (two : 2 ≤ a) (small : |b| ≤ a) (disc : a ∣ b ^ 2 - D)
    (cmp : Compressed a b c) (strict : Bool) : decompr D c strict =
      .done (some (a, if b < 0 then -(if c.g = 1 then |b| % a else |b|)
        else if c.g = 1 then |b| % a else |b|)) := by
  obtain ⟨r, rs, low, cong⟩ := cmp.root
  have apos := cmp.a_pos two
  have square := cmp.root_sq_lt free two disc rs low cong
  have divides : c.a ∣ a := Dvd.intro _ cmp.a_eq
  obtain ⟨unit, tInv_nonneg, inverse⟩ := inverse_spec apos cmp.coprime
  simp only [decompr, if_neg cmp.t_ne, if_neg apos.ne', unit, ne_eq, not_true_eq_false, if_false,
    mpzMod_done apos.ne', mpzPowmUi_done apos.ne', mpzTdivR_done apos.ne', Exec.done_bind]
  generalize (if (mpzGcdext (if c.t < 0 then c.t + c.a else c.t) c.a).s < 0 then
    (mpzGcdext (if c.t < 0 then c.t + c.a else c.t) c.a).s + c.a
    else (mpzGcdext (if c.t < 0 then c.t + c.a else c.t) c.a).s) = tInv at *
  have residue : (c.t ^ 2 % c.a * (D % c.a)).tmod c.a = r * r := by
    rw [Int.tmod_eq_emod_of_nonneg (mul_nonneg (Int.emod_nonneg _ apos.ne')
      (Int.emod_nonneg _ apos.ne')), ← Int.mul_emod]
    have same : c.t ^ 2 * D ≡ r * r [ZMOD c.a] := by
      apply Int.modEq_iff_dvd.mpr
      obtain ⟨j, hj⟩ := cong
      obtain ⟨i, hi⟩ := divides.trans disc
      rw [← sq_abs b] at hi
      exact ⟨j * (r + c.t * |b|) + c.t ^ 2 * i, by
        linear_combination (r + c.t * |b|) * hj + c.t ^ 2 * hi⟩
    rw [same.eq, Int.emod_eq_of_lt (mul_self_nonneg r) square]
  have low_eq : (r * tInv).tmod c.a = |b| % c.a := by
    rw [Int.tmod_eq_emod_of_nonneg (mul_nonneg rs tInv_nonneg)]
    apply Int.modEq_iff_dvd.mpr
    obtain ⟨j, hj⟩ := cong
    obtain ⟨i, hi⟩ := inverse
    exact ⟨|b| * i - j * tInv, by linear_combination |b| * hi - tInv * hj⟩
  obtain ⟨isSquare, sqrt⟩ := perfectSquare rs
  have outA : (if c.g > 1 then c.a * c.g else c.a) = a := by
    have := cmp.g_pos
    have eq := cmp.a_eq
    split
    · exact eq
    · rw [show c.g = 1 by omega, mul_one] at eq; exact eq
  have outB : (if c.b0 > 0 then |b| % c.a + c.a * c.b0 else |b| % c.a) =
      if c.g = 1 then |b| % a else |b| := by
    have eq := cmp.a_eq
    rw [cmp.b0_eq]
    by_cases one : c.g = 1
    · rw [one, mul_one] at eq
      simp [one, eq]
    · have quotient := Int.ediv_nonneg (abs_nonneg b) apos.le
      have whole := Int.emod_add_mul_ediv |b| c.a
      simp only [if_neg one]
      split
      · exact whole
      · rw [show |b| / c.a = 0 by omega] at whole
        simpa using whole
  have inside : abs (if c.g = 1 then |b| % a else |b|) ≤ a := by
    split
    · rw [abs_of_nonneg (Int.emod_nonneg _ (by omega))]
      exact (Int.emod_lt_of_pos _ (by omega)).le
    · rwa [abs_abs]
  simp only [residue, isSquare, Bool.not_true, Bool.false_eq_true, if_false, sqrt, Exec.done_bind,
    low_eq, outA, outB, cmp.sign, decide_eq_true_eq]
  generalize (if c.g = 1 then |b| % a else |b|) = v at *
  have check : ¬(strict = true ∧ |if b < 0 then -v else v| > |a|) := by
    rw [abs_of_pos (show 0 < a by omega)]
    rintro ⟨-, large⟩
    split at large
    · rw [abs_neg] at large; omega
    · omega
  rw [if_neg check]
  rfl

theorem decompr_pair (free : Squarefree D) (two : 2 ≤ a) (small : |b| < a) (disc : a ∣ b ^ 2 - D)
    (cmp : Compressed a b c) (strict : Bool) : decompr D c strict = .done (some (a, b)) := by
  rw [decompr_spec free two small.le disc cmp strict, Int.emod_eq_of_lt (abs_nonneg b) small, ite_self]
  congr 3
  split <;> next sign => simp [abs_of_neg, abs_of_nonneg, sign, not_lt.mp]

theorem decompr_strict (run : decompr D c true = .done (some (a, b))) : |b| ≤ |a| := by
  unfold decompr at run
  split at run
  · cases run; rfl
  dsimp only at run
  split at run
  · cases run
  generalize mpzGcdext (if c.t < 0 then c.t + c.a else c.t) c.a = r at run
  by_cases unit : r.gcd ≠ 1
  · rw [if_pos unit] at run
    cases run
  rw [if_neg unit] at run
  obtain ⟨d, -, run⟩ := Exec.bind_eq_done.mp run
  obtain ⟨square, -, run⟩ := Exec.bind_eq_done.mp run
  obtain ⟨tmp, -, run⟩ := Exec.bind_eq_done.mp run
  split at run
  · cases run
  obtain ⟨root, -, run⟩ := Exec.bind_eq_done.mp run
  obtain ⟨low, -, run⟩ := Exec.bind_eq_done.mp run
  generalize (if c.g > 1 then c.a * c.g else c.a) = a' at run
  generalize (if c.bSign = true then -(if c.b0 > 0 then low + c.a * c.b0 else low)
    else if c.b0 > 0 then low + c.a * c.b0 else low) = b' at run
  split at run
  · cases run
  · next inside =>
    cases run
    simpa using inside

/-- The partial gcd of `a` and `a` leaves the cofactor coprime to `a`. -/
theorem Compressed.g_eq_one (cmp : Compressed a (-a) c) (two : 2 ≤ a) (divides : a ∣ d.D) :
    c.g = 1 := by
  have gpos := cmp.g_pos
  have factor : c.g.natAbs ∣ d.p := by
    have := Int.natAbs_dvd_natAbs.mpr ((Dvd.intro_left _ cmp.a_eq).trans divides)
    rwa [Discriminant.D, Int.natAbs_neg, Int.natAbs_natCast] at this
  rcases (Nat.dvd_prime d.prime).mp factor with one | whole
  · omega
  · have le : a ≤ d.p := by
      rw [Discriminant.D, dvd_neg] at divides
      exact Int.le_of_dvd (by exact_mod_cast d.prime.pos) divides
    have t_one := Int.one_le_abs cmp.t_ne
    have t_le := cmp.t_le two
    rw [abs_mul, abs_of_pos (show 0 < c.g by omega)] at t_le
    have := sqrt_lt two
    have : c.g = d.p := by omega
    have : 1 * c.g ≤ |c.t| * c.g := mul_le_mul_of_nonneg_right t_one (by omega)
    omega

theorem compr_one : compr 1 (-1) = .done ⟨1, 1, 1, 0, true⟩ := by
  have root : mpzSqrt 1 = .done 1 := by simp [mpzSqrt]
  simp [compr, root, mpzXgcdPartial_stop]

theorem decompr_one (D : ℤ) : decompr D ⟨1, 1, 1, 0, true⟩ true = .done (some (1, 0)) := by
  have root : mpzSqrt 0 = .done 0 := by simp [mpzSqrt]
  simp [decompr, mpzGcdext, mpzMod, mpzPowmUi, mpzTdivR, root, mpzPerfectSquareP]

/-- The pair `(a, -a)` is not what its own encoding decodes to. -/
theorem opposite_refused (pos : 0 < a) (divides : a ∣ d.D) (compressed : compr a (-a) = .done c) :
    0 ≤ c.a ∧ 0 ≤ c.g ∧ 0 ≤ c.b0 ∧ decompr d.D c true = .done (some (a, 0)) := by
  rcases (by omega : a = 1 ∨ 2 ≤ a) with rfl | two
  · obtain rfl := Exec.done.inj (compr_one.symm.trans compressed)
    exact ⟨by norm_num, by norm_num, by norm_num, decompr_one d.D⟩
  · have small : |-a| ≤ a := by rw [abs_neg, abs_of_pos pos]
    obtain ⟨c', run, cmp⟩ := compr_spec two small (by omega)
    obtain rfl := Exec.done.inj (run.symm.trans compressed)
    have one := cmp.g_eq_one two divides
    have square : a ∣ (-a) ^ 2 - d.D := dvd_sub (by rw [neg_sq]; exact dvd_pow_self a two_ne_zero) divides
    refine ⟨(cmp.a_pos two).le, by omega, by simp [cmp.b0_eq, one], ?_⟩
    rw [decompr_spec d.squarefree two small square cmp]
    simp [one, abs_of_pos pos]

end Decompress

end ChiaVdf.Bqfc
