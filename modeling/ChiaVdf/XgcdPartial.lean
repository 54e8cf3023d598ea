import ChiaVdf.Integer

/-! `mpz_xgcd_partial`: Euclid's algorithm stopped at a bound, with Lehmer's inner loop on
signed words. The word loop can pass the bound, so what is proved at the exit is not that
the remainders are the first below it, but the bounds on the cofactor that survive. -/
namespace ChiaVdf

/-- `GMP_LIMB_BITS` of the 64-bit builds. -/
def gmpLimbBits : ℕ := 64

/-- Arithmetic in `mp_limb_signed_t`. -/
def word (x : ℤ) : ℤ := Int.bmod x (2 ^ gmpLimbBits)

/-- `chiavdf_mpz_extract_uword_from_shift_nonneg`. -/
def extractUwordFromShift (x : ℤ) (shift : ℕ) : ℤ := word (x.natAbs / 2 ^ shift : ℕ)

namespace Xgcd

/-- The words of the inner loop. -/
structure Words where
  rr2 : ℤ
  rr1 : ℤ
  aa2 : ℤ
  aa1 : ℤ
  bb2 : ℤ
  bb1 : ℤ

/-- One turn of the `for` loop; nothing when it breaks. -/
def turn (i : ℕ) (s : Words) : Option Words :=
  let qq := word (s.rr2.tdiv s.rr1)
  let t1 := word (s.rr2 - qq * s.rr1)
  let t2 := word (s.aa2 - qq * s.aa1)
  let t3 := word (s.bb2 - qq * s.bb1)
  if i % 2 = 1 then
    if t1 < word (-t3) ∨ word (s.rr1 - t1) < word (t2 - s.aa1) then none
    else some ⟨s.rr1, t1, s.aa1, t2, s.bb1, t3⟩
  else
    if t1 < word (-t2) ∨ word (s.rr1 - t1) < word (t3 - s.bb1) then none
    else some ⟨s.rr1, t1, s.aa1, t2, s.bb1, t3⟩

/-- The `for` loop, with the count of its turns. -/
def wordLoop (bb : ℤ) : ℕ → ℕ → Words → Exec (ℕ × Words)
  | 0, _, _ => .diverged
  | fuel + 1, i, s =>
    if s.rr1 ≠ 0 ∧ s.rr1 > bb then
      match turn i s with
      | none => .done (i, s)
      | some s' => wordLoop bb fuel (i + 1) s'
    else .done (i, s)

structure State where
  co2 : ℤ
  co1 : ℤ
  r2 : ℤ
  r1 : ℤ

def divisionStep (s : State) : State :=
  let q := s.r2.tdiv s.r1
  ⟨s.co1, s.co2 - s.co1 * q, s.r1, s.r2.tmod s.r1⟩

def wordStep (w : Words) (s : State) : State :=
  let r2 := s.r2 * w.bb2 + s.r1 * w.aa2
  let r1 := s.r1 * w.aa1 + s.r2 * w.bb1
  let co2 := s.co2 * w.bb2 + s.co1 * w.aa2
  let co1 := s.co1 * w.aa1 + s.co2 * w.bb1
  let (co1, r1) := if r1 < 0 then (-co1, -r1) else (co1, r1)
  let (co2, r2) := if r2 < 0 then (-co2, -r2) else (co2, r2)
  ⟨co2, co1, r2, r1⟩

/-- The bits that do not fit a signed word next to the larger remainder. -/
def shift (s : State) : ℕ := max (mpzSizeinbase2 s.r2) (mpzSizeinbase2 s.r1) - (gmpLimbBits - 1)

/-- The body of the `while` loop. -/
def step (L : ℤ) (s : State) : Exec State := do
  let rr2 := extractUwordFromShift s.r2 (shift s)
  let rr1 := extractUwordFromShift s.r1 (shift s)
  let bb := extractUwordFromShift L (shift s)
  let (i, w) ← wordLoop bb (rr1.natAbs + 1) 0 ⟨rr2, rr1, 0, 1, 1, 0⟩
  return if i = 0 then divisionStep s else wordStep w s

def loop (L : ℤ) : ℕ → State → Exec State
  | 0, _ => .diverged
  | fuel + 1, s =>
    if s.r1 ≠ 0 ∧ s.r1 > L then do
      let s ← step L s
      loop L fuel s
    else .done s

end Xgcd

open Xgcd in
/-- On return: the cofactors `co2`, `co1` and the remainders `r2`, `r1`. -/
def mpzXgcdPartial (r2 r1 L : ℤ) : Exec State := do
  let s ← loop L (r1.natAbs + 1) ⟨0, -1, r2, r1⟩
  return if s.r2 < 0 then ⟨-s.co2, -s.co1, -s.r2, s.r1⟩ else s

namespace Xgcd

section Words

theorem word_eq (small : |x| < 2 ^ 63) : word x = x := by
  rw [abs_lt] at small
  unfold word gmpLimbBits
  apply Int.bmod_eq_of_le <;> norm_num <;> omega

/-- The cofactors of an even or odd number of division steps: `σ` is their determinant and
their signs alternate. -/
structure Cofactors (σ : ℤ) (s : Words) : Prop where
  sign : σ = 1 ∨ σ = -1
  det : s.aa1 * s.bb2 - s.aa2 * s.bb1 = σ
  aa1 : 1 ≤ σ * s.aa1
  aa2 : σ * s.aa2 ≤ 0
  bb2 : 0 ≤ σ * s.bb2
  bb1 : σ * s.bb1 ≤ 0
  bb : 1 ≤ σ * s.bb2 - σ * s.bb1

/-- The words as combinations of the truncated remainders `R2`, `R1`. -/
structure Truncated (R2 R1 : ℤ) (s : Words) : Prop where
  rr2 : s.rr2 = s.bb2 * R2 + s.aa2 * R1
  rr1 : s.rr1 = s.bb1 * R2 + s.aa1 * R1
  nonneg : 0 ≤ s.rr1
  le : s.rr1 ≤ s.rr2

theorem Cofactors.square (co : Cofactors σ s) : σ * σ = 1 := by
  rcases co.sign with rfl | rfl <;> norm_num

theorem Cofactors.total_a (co : Cofactors σ s) (tr : Truncated R2 R1 s) :
    σ * s.aa1 * s.rr2 - σ * s.aa2 * s.rr1 = R2 := by
  rw [tr.rr2, tr.rr1]
  linear_combination σ * R2 * co.det + R2 * co.square

theorem Cofactors.total_b (co : Cofactors σ s) (tr : Truncated R2 R1 s) :
    σ * s.bb2 * s.rr1 - σ * s.bb1 * s.rr2 = R1 := by
  rw [tr.rr2, tr.rr1]
  linear_combination σ * R1 * co.det + R1 * co.square

/-- The words after a division step with quotient `q`. -/
def divided (s : Words) (q : ℤ) : Words :=
  ⟨s.rr1, s.rr2 - q * s.rr1, s.aa1, s.aa2 - q * s.aa1, s.bb1, s.bb2 - q * s.bb1⟩

theorem Cofactors.divided (co : Cofactors σ s) (pos : 1 ≤ q) : Cofactors (-σ) (divided s q) := by
  obtain ⟨sign, det, aa1, aa2, bb2, bb1, bb⟩ := co
  have grow_a : 0 ≤ (q - 1) * (σ * s.aa1) := mul_nonneg (by linarith) (by linarith)
  have grow_b : 0 ≤ (q - 1) * -(σ * s.bb1) := mul_nonneg (by linarith) (by linarith)
  constructor
  case sign => rcases sign with rfl | rfl <;> norm_num
  all_goals simp only [Xgcd.divided]
  case det => linear_combination -det
  all_goals linarith

theorem Truncated.divided (tr : Truncated R2 R1 s) (pos : 0 < s.rr1) :
    Truncated R2 R1 (divided s (s.rr2 / s.rr1)) := by
  have rest : s.rr2 - s.rr2 / s.rr1 * s.rr1 = s.rr2 % s.rr1 := by
    rw [Int.emod_def]; ring
  constructor <;> simp only [Xgcd.divided]
  case rr2 => exact tr.rr1
  case rr1 =>
    generalize s.rr2 / s.rr1 = q
    linear_combination tr.rr2 - q * tr.rr1
  case nonneg => rw [rest]; exact Int.emod_nonneg _ pos.ne'
  case le => rw [rest]; exact (Int.emod_lt_of_pos _ pos).le

theorem Truncated.one_le_quotient (tr : Truncated R2 R1 s) (pos : 0 < s.rr1) :
    1 ≤ s.rr2 / s.rr1 := by
  rw [Int.le_ediv_iff_mul_le pos]
  linarith [tr.le]

/-- The sign the cofactors have before turn `i`. -/
def turnSign (i : ℕ) : ℤ := if i % 2 = 1 then -1 else 1

theorem turnSign_succ (i : ℕ) : turnSign (i + 1) = -turnSign i := by
  rcases Nat.mod_two_eq_zero_or_one i with even | odd
  · have : (i + 1) % 2 = 1 := by omega
    simp [turnSign, even, this]
  · have : (i + 1) % 2 = 0 := by omega
    simp [turnSign, odd, this]

/-- Jebelean's condition under which a division step of the truncated remainders is one of
the remainders themselves; `n` and `m` are the sizes of the negative cofactors. -/
def Exactly (i : ℕ) (s s' : Words) : Prop :=
  if i % 2 = 1 then -s'.bb1 ≤ s'.rr1 ∧ s'.aa1 - s.aa1 ≤ s.rr1 - s'.rr1
  else -s'.aa1 ≤ s'.rr1 ∧ s'.bb1 - s.bb1 ≤ s.rr1 - s'.rr1

theorem abs_of_sign (sign : σ = 1 ∨ σ = -1) (nonneg : 0 ≤ σ * x) : |x| = σ * x := by
  rcases sign with rfl | rfl
  · rw [one_mul] at nonneg ⊢; exact abs_of_nonneg nonneg
  · rw [neg_one_mul] at nonneg ⊢; exact abs_of_nonpos (by linarith)

theorem le_of_total {x y u v R : ℤ} (total : x * u + y * v = R) (xs : 0 ≤ x) (ys : 0 ≤ y)
    (us : 1 ≤ u) (vs : 0 ≤ v) : x ≤ R := by
  have := mul_le_mul_of_nonneg_left us xs
  linarith [mul_nonneg ys vs]

theorem add_le_of_total {x y u v R : ℤ} (total : x * u + y * v = R) (xs : 0 ≤ x) (ys : 0 ≤ y)
    (us : 1 ≤ u) (vs : 1 ≤ v) : x + y ≤ R := by
  have := mul_le_mul_of_nonneg_left us xs
  have := mul_le_mul_of_nonneg_left vs ys
  linarith

theorem Cofactors.abs_aa1_le (co : Cofactors σ s) (tr : Truncated R2 R1 s) (pos : 1 ≤ s.rr2) :
    |s.aa1| ≤ R2 := by
  rw [abs_of_sign co.sign (by linarith [co.aa1])]
  exact le_of_total (y := -(σ * s.aa2)) (by linarith [co.total_a tr]) (by linarith [co.aa1])
    (by linarith [co.aa2]) pos tr.nonneg

theorem Cofactors.abs_bb1_le (co : Cofactors σ s) (tr : Truncated R2 R1 s) (pos : 1 ≤ s.rr2) :
    |s.bb1| ≤ R1 := by
  rw [← abs_neg, abs_of_sign co.sign (by linarith [co.bb1])]
  exact le_of_total (y := σ * s.bb2) (by linarith [co.total_b tr]) (by linarith [co.bb1])
    (by linarith [co.bb2]) pos tr.nonneg

theorem Cofactors.abs_aa1_sub_le (co : Cofactors σ s) (tr : Truncated R2 R1 s)
    (pos : 1 ≤ s.rr2) (pos' : 1 ≤ s.rr1) : |s.aa1 - s.aa2| ≤ R2 := by
  rw [abs_of_sign co.sign (by linarith [co.aa1, co.aa2])]
  have := add_le_of_total (x := σ * s.aa1) (y := -(σ * s.aa2)) (R := R2)
    (by linarith [co.total_a tr]) (by linarith [co.aa1]) (by linarith [co.aa2]) pos pos'
  linarith

theorem Cofactors.abs_bb1_sub_le (co : Cofactors σ s) (tr : Truncated R2 R1 s)
    (pos : 1 ≤ s.rr2) (pos' : 1 ≤ s.rr1) : |s.bb1 - s.bb2| ≤ R1 := by
  rw [abs_sub_comm, abs_of_sign co.sign (by linarith [co.bb1, co.bb2])]
  have := add_le_of_total (x := σ * s.bb2) (y := -(σ * s.bb1)) (R := R1)
    (by linarith [co.total_b tr]) co.bb2 (by linarith [co.bb1]) pos' pos
  linarith

theorem Cofactors.divided_bb1 (co : Cofactors σ s) (pos : 1 ≤ q) :
    1 ≤ σ * (Xgcd.divided s q).bb1 := by
  have grow : 0 ≤ (q - 1) * -(σ * s.bb1) := mul_nonneg (by linarith) (by linarith [co.bb1])
  have := co.bb
  simp only [Xgcd.divided]
  linarith

/-- No word of a turn overflows, and the turn breaks unless the division step is exact. -/
theorem turn_spec (co : Cofactors (turnSign i) s) (tr : Truncated R2 R1 s) (pos : 0 < s.rr1)
    (fits : R2 < 2 ^ 63) (fits' : R1 < 2 ^ 63) : turn i s = none ∨
      Exactly i s (divided s (s.rr2 / s.rr1)) ∧ turn i s = some (divided s (s.rr2 / s.rr1)) := by
  have quotient := tr.one_le_quotient pos
  have co' := co.divided quotient
  have tr' := tr.divided pos
  have bb1_pos := co.divided_bb1 quotient
  have rr2_le : s.rr2 ≤ R2 := by
    refine le_of_total (y := s.rr1) (u := turnSign i * s.aa1) (v := -(turnSign i * s.aa2)) ?_
      (by linarith [tr.le]) pos.le co.aa1 (by linarith [co.aa2])
    linarith [co.total_a tr]
  have qq : word (s.rr2.tdiv s.rr1) = s.rr2 / s.rr1 := by
    have upper := Int.ediv_le_self s.rr1 (show 0 ≤ s.rr2 by linarith [tr.le])
    rw [Int.tdiv_eq_ediv_of_nonneg (by linarith [tr.le])]
    exact word_eq (by rw [abs_of_nonneg (by linarith)]; linarith)
  have rr2' : (divided s (s.rr2 / s.rr1)).rr2 = s.rr1 := rfl
  have t1 : word (s.rr2 - s.rr2 / s.rr1 * s.rr1) = (divided s (s.rr2 / s.rr1)).rr1 :=
    word_eq (show |(divided s (s.rr2 / s.rr1)).rr1| < 2 ^ 63 by
      rw [abs_of_nonneg tr'.nonneg]; linarith [tr.le, tr'.le])
  have aa1_lt := (co'.abs_aa1_le tr' pos).trans_lt fits
  have bb1_lt := (co'.abs_bb1_le tr' pos).trans_lt fits'
  have t2 : word (s.aa2 - s.rr2 / s.rr1 * s.aa1) = (divided s (s.rr2 / s.rr1)).aa1 :=
    word_eq aa1_lt
  have t3 : word (s.bb2 - s.rr2 / s.rr1 * s.bb1) = (divided s (s.rr2 / s.rr1)).bb1 :=
    word_eq bb1_lt
  -- the second half of the test is only evaluated when the new remainder is positive
  have diff_a : 1 ≤ (divided s (s.rr2 / s.rr1)).rr1 →
      word ((divided s (s.rr2 / s.rr1)).aa1 - s.aa1) = (divided s (s.rr2 / s.rr1)).aa1 - s.aa1 :=
    fun positive => word_eq ((co'.abs_aa1_sub_le tr' pos positive).trans_lt fits)
  have diff_b : 1 ≤ (divided s (s.rr2 / s.rr1)).rr1 →
      word ((divided s (s.rr2 / s.rr1)).bb1 - s.bb1) = (divided s (s.rr2 / s.rr1)).bb1 - s.bb1 :=
    fun positive => word_eq ((co'.abs_bb1_sub_le tr' pos positive).trans_lt fits')
  have diff : word (s.rr1 - (divided s (s.rr2 / s.rr1)).rr1) =
      s.rr1 - (divided s (s.rr2 / s.rr1)).rr1 := by
    apply word_eq
    have := tr'.nonneg
    have := tr'.le
    rw [abs_of_nonneg (by linarith)]; linarith [tr.le]
  have aa1_pos := co'.aa1
  simp only [turn, qq, t1, t2, t3, diff, word_eq ((abs_neg _).trans_lt aa1_lt),
    word_eq ((abs_neg _).trans_lt bb1_lt), Exactly]
  by_cases odd : i % 2 = 1
  · have sign : turnSign i = -1 := if_pos odd
    simp only [if_pos odd]
    by_cases low : (divided s (s.rr2 / s.rr1)).rr1 < -(divided s (s.rr2 / s.rr1)).bb1
    · exact .inl (if_pos (.inl low))
    rw [sign] at bb1_pos
    rw [diff_a (by linarith)]
    split
    · exact .inl rfl
    · next exact => exact .inr ⟨by push Not at exact; exact exact, rfl⟩
  · have sign : turnSign i = 1 := if_neg odd
    simp only [if_neg odd]
    by_cases low : (divided s (s.rr2 / s.rr1)).rr1 < -(divided s (s.rr2 / s.rr1)).aa1
    · exact .inl (if_pos (.inl low))
    rw [sign] at aa1_pos
    rw [diff_b (by linarith)]
    split
    · exact .inl rfl
    · next exact => exact .inr ⟨by push Not at exact; exact exact, rfl⟩

/-- A truncated value large enough for the cofactor `y` keeps its sign in full precision. -/
theorem le_of_truncated {M t x y e e' : ℤ} (ts : 0 ≤ t) (xs : 0 ≤ x) (low : -y ≤ t)
    (es : 0 ≤ e) (es' : 0 ≤ e') (small : e' < M) : t ≤ M * t + x * e + y * e' := by
  have rest : 0 ≤ (t + y) * e' := mul_nonneg (by linarith) es'
  have gain : t * 1 ≤ t * (M - e') := mul_le_mul_of_nonneg_left (by linarith) ts
  linarith [mul_nonneg xs es]

/-- What the words say about the remainders themselves after `i` turns. -/
structure Exact (r2 r1 bb : ℤ) (i : ℕ) (s : Words) : Prop where
  upper : s.bb1 * r2 + s.aa1 * r1 ≤ r1
  nonneg : 0 < i → 0 ≤ s.bb1 * r2 + s.aa1 * r1
  lt : 0 < i → s.bb1 * r2 + s.aa1 * r1 < s.bb2 * r2 + s.aa2 * r1
  le : 0 < i → s.bb2 * r2 + s.aa2 * r1 ≤ r1
  above : 0 < i → bb + 1 ≤ s.rr2

theorem Exact.next {M R2 R1 e2 e1 : ℤ} (co : Cofactors (turnSign i) s)
    (tr : Truncated R2 R1 s) (pos : 0 < s.rr1) (above : bb < s.rr1)
    (e2s : 0 ≤ e2) (e2_lt : e2 < M) (e1s : 0 ≤ e1) (e1_lt : e1 < M)
    (ex : Exact (M * R2 + e2) (M * R1 + e1) bb i s) (jebelean : Exactly i s (divided s (s.rr2 / s.rr1))) :
    Exact (M * R2 + e2) (M * R1 + e1) bb (i + 1) (divided s (s.rr2 / s.rr1)) := by
  have quotient := tr.one_le_quotient pos
  have co' := co.divided quotient
  have tr' := tr.divided pos
  have shrinks : (divided s (s.rr2 / s.rr1)).rr1 < s.rr1 := by
    have := Int.emod_lt_of_pos s.rr2 pos
    rw [Int.emod_def] at this
    simp only [Xgcd.divided]
    linarith
  have bb2' : (divided s (s.rr2 / s.rr1)).bb2 = s.bb1 := rfl
  have aa2' : (divided s (s.rr2 / s.rr1)).aa2 = s.aa1 := rfl
  have rr2' : (divided s (s.rr2 / s.rr1)).rr2 = s.rr1 := rfl
  generalize divided s (s.rr2 / s.rr1) = s' at *
  have rr1 := tr.rr1
  have rr1' := tr'.rr1
  have aa1 := co.aa1; have bb1 := co.bb1
  have aa1' := co'.aa1; have bb1' := co'.bb1
  have value : s'.bb1 * (M * R2 + e2) + s'.aa1 * (M * R1 + e1) =
      M * s'.rr1 + s'.bb1 * e2 + s'.aa1 * e1 := by rw [rr1']; ring
  have drop : s.bb1 * (M * R2 + e2) + s.aa1 * (M * R1 + e1) -
      (s'.bb1 * (M * R2 + e2) + s'.aa1 * (M * R1 + e1)) =
      M * (s.rr1 - s'.rr1) + (s.bb1 - s'.bb1) * e2 + (s.aa1 - s'.aa1) * e1 := by
    rw [rr1', rr1]; ring
  have both : s'.rr1 ≤ M * s'.rr1 + s'.bb1 * e2 + s'.aa1 * e1 ∧ s.rr1 - s'.rr1 ≤
      M * (s.rr1 - s'.rr1) + (s.bb1 - s'.bb1) * e2 + (s.aa1 - s'.aa1) * e1 := by
    by_cases odd : i % 2 = 1
    · rw [show turnSign i = -1 from if_pos odd] at *
      obtain ⟨first, second⟩ : -s'.bb1 ≤ s'.rr1 ∧ s'.aa1 - s.aa1 ≤ s.rr1 - s'.rr1 := by
        simpa only [Exactly, if_pos odd] using jebelean
      constructor
      · linarith [le_of_truncated tr'.nonneg (by linarith : 0 ≤ s'.aa1) first e1s e2s e2_lt]
      · linarith [le_of_truncated (y := s.aa1 - s'.aa1) (by linarith : 0 ≤ s.rr1 - s'.rr1)
          (by linarith : 0 ≤ s.bb1 - s'.bb1) (by linarith) e2s e1s e1_lt]
    · rw [show turnSign i = 1 from if_neg odd] at *
      obtain ⟨first, second⟩ : -s'.aa1 ≤ s'.rr1 ∧ s'.bb1 - s.bb1 ≤ s.rr1 - s'.rr1 := by
        simpa only [Exactly, if_neg odd] using jebelean
      constructor
      · linarith [le_of_truncated tr'.nonneg (by linarith : 0 ≤ s'.bb1) first e2s e1s e1_lt]
      · linarith [le_of_truncated (y := s.bb1 - s'.bb1) (by linarith : 0 ≤ s.rr1 - s'.rr1)
          (by linarith : 0 ≤ s.aa1 - s'.aa1) (by linarith) e1s e2s e2_lt]
  have nonneg := tr'.nonneg
  refine ⟨?_, fun _ => ?_, fun _ => ?_, fun _ => ?_, fun _ => ?_⟩
  · linarith [ex.upper]
  · linarith
  · rw [bb2', aa2']; linarith
  · rw [bb2', aa2']; exact ex.upper
  · rw [rr2']; linarith

/-- The word loop ends; its cofactors make an exact step of Euclid's algorithm if it made a
turn at all. -/
theorem wordLoop_spec {M R2 R1 e2 e1 : ℤ} (fits : R2 < 2 ^ 63) (fits' : R1 < 2 ^ 63)
    (bbs : 0 ≤ bb) (e2s : 0 ≤ e2) (e2_lt : e2 < M) (e1s : 0 ≤ e1) (e1_lt : e1 < M) (fuel i : ℕ)
    (s : Words) (co : Cofactors (turnSign i) s) (tr : Truncated R2 R1 s)
    (ex : Exact (M * R2 + e2) (M * R1 + e1) bb i s) (enough : s.rr1.natAbs < fuel) :
    ∃ i' s', wordLoop bb fuel i s = .done (i', s') ∧ Cofactors (turnSign i') s' ∧
      Truncated R2 R1 s' ∧ Exact (M * R2 + e2) (M * R1 + e1) bb i' s' := by
  induction fuel generalizing i s with
  | zero => omega
  | succ fuel ih =>
    by_cases go : s.rr1 ≠ 0 ∧ s.rr1 > bb
    · have pos : 0 < s.rr1 := by omega
      simp only [wordLoop, if_pos go]
      rcases turn_spec co tr pos fits fits' with stop | ⟨exactly, next⟩
      · exact ⟨i, s, by rw [stop], co, tr, ex⟩
      · rw [next]
        refine ih (i + 1) _ ?_ (tr.divided pos)
          (ex.next co tr pos go.2 e2s e2_lt e1s e1_lt exactly) ?_
        · rw [turnSign_succ]; exact co.divided (tr.one_le_quotient pos)
        · have := Int.emod_lt_of_pos s.rr2 pos
          have := Int.emod_nonneg s.rr2 pos.ne'
          rw [Int.emod_def] at *
          simp only [Xgcd.divided, mul_comm (s.rr2 / s.rr1)]
          omega
    · exact ⟨i, s, by simp only [wordLoop, if_neg go], co, tr, ex⟩

end Words

section Remainders

/-- A division step, or several at once: the matrix of `w` applied to remainders and
cofactors. -/
def combined (w : Words) (s : State) : State :=
  ⟨s.co2 * w.bb2 + s.co1 * w.aa2, s.co1 * w.aa1 + s.co2 * w.bb1,
    s.r2 * w.bb2 + s.r1 * w.aa2, s.r1 * w.aa1 + s.r2 * w.bb1⟩

/-- What the `while` loop keeps: `N` and `b` are the numbers it started from. -/
structure Inv (N b L τ : ℤ) (s : State) : Prop where
  sign : τ = 1 ∨ τ = -1
  co1 : τ * s.co1 ≤ -1
  co2 : 0 ≤ τ * s.co2
  total : s.co2 * s.r1 - s.co1 * s.r2 = τ * N
  nonneg : 0 ≤ s.r1
  le : s.r1 ≤ s.r2
  cong1 : N ∣ s.r1 + s.co1 * b
  cong2 : N ∣ s.r2 + s.co2 * b
  small : -(τ * s.co1) * (L + 1) ≤ N

/-- The same without a lower bound on the cofactor, which is zero right after the first division of
a pair in the wrong order. -/
structure Weak (N b L τ : ℤ) (s : State) : Prop where
  sign : τ = 1 ∨ τ = -1
  co1 : τ * s.co1 ≤ 0
  co2 : 0 ≤ τ * s.co2
  total : s.co2 * s.r1 - s.co1 * s.r2 = τ * N
  nonneg : 0 ≤ s.r1
  le : s.r1 ≤ s.r2
  cong1 : N ∣ s.r1 + s.co1 * b
  cong2 : N ∣ s.r2 + s.co2 * b
  small : -(τ * s.co1) * (L + 1) ≤ N

theorem Inv.weak (inv : Inv N b L τ s) : Weak N b L τ s :=
  ⟨inv.sign, by linarith [inv.co1], inv.co2, inv.total, inv.nonneg, inv.le, inv.cong1, inv.cong2,
    inv.small⟩

theorem Weak.inv (weak : Weak N b L τ s) (strict : τ * s.co1 ≤ -1) : Inv N b L τ s :=
  ⟨weak.sign, strict, weak.co2, weak.total, weak.nonneg, weak.le, weak.cong1, weak.cong2, weak.small⟩

theorem Weak.combined (inv : Weak N b L τ s) (co : Cofactors σ w)
    (nonneg : 0 ≤ (combined w s).r1) (le : (combined w s).r1 ≤ (combined w s).r2)
    (small : -(τ * σ * (Xgcd.combined w s).co1) * (L + 1) ≤ N) :
    Weak N b L (τ * σ) (Xgcd.combined w s) ∧
      (τ * s.co1 ≤ -1 → τ * σ * (Xgcd.combined w s).co1 ≤ -1) := by
  obtain ⟨sign, co1, co2, total, -, -, cong1, cong2, -⟩ := inv
  have second : 0 ≤ τ * s.co2 * -(σ * w.bb1) := mul_nonneg co2 (by linarith [co.bb1])
  refine ⟨?_, fun strict => ?_⟩
  · constructor
    case sign => rcases sign with rfl | rfl <;> rcases co.sign with rfl | rfl <;> norm_num
    case nonneg => exact nonneg
    case le => exact le
    case small => exact small
    all_goals simp only [Xgcd.combined]
    case co1 =>
      have first : 0 ≤ -(τ * s.co1) * (σ * w.aa1) := mul_nonneg (by linarith) (by linarith [co.aa1])
      linarith
    case co2 =>
      have first : 0 ≤ τ * s.co2 * (σ * w.bb2) := mul_nonneg co2 co.bb2
      have third : 0 ≤ -(τ * s.co1) * -(σ * w.aa2) := mul_nonneg (by linarith) (by linarith [co.aa2])
      linarith
    case total => linear_combination σ * total + (s.co2 * s.r1 - s.co1 * s.r2) * co.det
    case cong1 =>
      obtain ⟨u, hu⟩ := cong1
      obtain ⟨v, hv⟩ := cong2
      exact ⟨w.aa1 * u + w.bb1 * v, by linear_combination w.aa1 * hu + w.bb1 * hv⟩
    case cong2 =>
      obtain ⟨u, hu⟩ := cong1
      obtain ⟨v, hv⟩ := cong2
      exact ⟨w.bb2 * v + w.aa2 * u, by linear_combination w.bb2 * hv + w.aa2 * hu⟩
  · have first : 1 ≤ -(τ * s.co1) * (σ * w.aa1) := by nlinarith [co.aa1]
    simp only [Xgcd.combined]
    linarith

theorem divisionStep_spec (inv : Weak N b L τ s) (Ls : 0 ≤ L) (above : L < s.r1) :
    (Weak N b L (-τ) (divisionStep s) ∧ (τ * s.co1 ≤ -1 → -τ * (divisionStep s).co1 ≤ -1)) ∧
      (divisionStep s).r1 < s.r1 := by
  have pos : 0 < s.r1 := by omega
  have r2s : 0 ≤ s.r2 := inv.nonneg.trans inv.le
  have quotient : 1 ≤ s.r2 / s.r1 := by
    rw [Int.le_ediv_iff_mul_le pos]; linarith [inv.le]
  have eq : divisionStep s = combined ⟨0, 0, 1, -(s.r2 / s.r1), 0, 1⟩ s := by
    simp only [divisionStep, combined, Int.tdiv_eq_ediv_of_nonneg r2s, Int.tmod_eq_emod_of_nonneg r2s,
      Int.emod_def]
    congr 1 <;> ring
  have r1_eq : (divisionStep s).r1 = s.r2 % s.r1 := Int.tmod_eq_emod_of_nonneg r2s
  have low := Int.emod_nonneg s.r2 pos.ne'
  have high := Int.emod_lt_of_pos s.r2 pos
  refine ⟨?_, by rw [r1_eq]; exact high⟩
  have co : Cofactors (-1) ⟨0, 0, 1, -(s.r2 / s.r1), 0, 1⟩ := by
    constructor <;> simp [quotient]
  have next := inv.combined co
  rw [← eq, r1_eq] at next
  rw [← mul_neg_one]
  refine next low high.le ?_
  -- the cofactor times the old remainder, which was above `L`, is part of `N`
  have part : -(τ * -1 * (divisionStep s).co1) * s.r1 ≤ N := by
    have total : -(τ * -1 * (divisionStep s).co1) * s.r1 + -(τ * s.co1) * (s.r2 % s.r1) = N := by
      have square : τ * τ = 1 := by rcases inv.sign with rfl | rfl <;> norm_num
      simp only [divisionStep, Int.tdiv_eq_ediv_of_nonneg r2s, Int.emod_def]
      linear_combination τ * inv.total + N * square
    have := mul_nonneg (by linarith [inv.co1] : 0 ≤ -(τ * s.co1)) low
    linarith
  have cofactor : 0 ≤ -(τ * -1 * (divisionStep s).co1) := by
    have := mul_nonneg (by linarith [inv.co1] : 0 ≤ -(τ * s.co1)) (by linarith : 0 ≤ s.r2 / s.r1)
    have := inv.co2
    simp only [divisionStep, Int.tdiv_eq_ediv_of_nonneg r2s]
    linarith
  have := mul_le_mul_of_nonneg_left (by omega : L + 1 ≤ s.r1) cofactor
  linarith

theorem extract_eq (xs : 0 ≤ x) (fits : x < 2 ^ (k + 63)) : extractUwordFromShift x k = x / 2 ^ k := by
  have cast : ((x.natAbs / 2 ^ k : ℕ) : ℤ) = x / 2 ^ k := by
    push_cast
    rw [abs_of_nonneg xs]
  rw [extractUwordFromShift, cast]
  apply word_eq
  rw [abs_of_nonneg (by positivity), Int.ediv_lt_iff_lt_mul (by positivity)]
  rwa [pow_add, mul_comm] at fits

theorem wordStep_spec {M R2 R1 e2 e1 : ℤ} (inv : Weak N b L τ s)
    (r2 : s.r2 = M * R2 + e2) (r1 : s.r1 = M * R1 + e1) (e2s : 0 ≤ e2) (e1s : 0 ≤ e1)
    (bound : L + 1 ≤ M * (bb + 1)) (Ms : 0 ≤ M)
    (co : Cofactors σ w) (tr : Truncated R2 R1 w)
    (ex : Exact (M * R2 + e2) (M * R1 + e1) bb i w) (turns : 0 < i) :
    (Weak N b L (τ * σ) (wordStep w s) ∧ (τ * s.co1 ≤ -1 → τ * σ * (wordStep w s).co1 ≤ -1)) ∧
      (wordStep w s).r1 < s.r1 := by
  have r1_eq : (combined w s).r1 = w.bb1 * (M * R2 + e2) + w.aa1 * (M * R1 + e1) := by
    simp only [combined, r2, r1]; ring
  have r2_eq : (combined w s).r2 = w.bb2 * (M * R2 + e2) + w.aa2 * (M * R1 + e1) := by
    simp only [combined, r2, r1]; ring
  have nonneg := ex.nonneg turns
  have lt := ex.lt turns
  have le := ex.le turns
  have same : wordStep w s = combined w s := by
    have keep1 : ¬(combined w s).r1 < 0 := by omega
    have keep2 : ¬(combined w s).r2 < 0 := by omega
    simp only [combined] at keep1 keep2
    simp only [wordStep, combined, if_neg keep1, if_neg keep2]
  rw [same]
  refine ⟨inv.combined co (by omega) (by omega) ?_, by omega⟩
  have above := ex.above turns
  have nonneg' := tr.nonneg
  have square : τ * τ = 1 := by rcases inv.sign with rfl | rfl <;> norm_num
  have C1 : 0 ≤ -(τ * s.co1) := by linarith [inv.co1]
  have C2 := inv.co2
  have A : 0 ≤ σ * w.aa1 := by linarith [co.aa1]
  have B : 0 ≤ -(σ * w.bb1) := by linarith [co.bb1]
  have partA : σ * w.aa1 * w.rr2 ≤ R2 := by
    have := mul_nonneg (by linarith [co.aa2] : 0 ≤ -(σ * w.aa2)) nonneg'
    linarith [co.total_a tr]
  have partB : -(σ * w.bb1) * w.rr2 ≤ R1 := by
    have := mul_nonneg co.bb2 nonneg'
    linarith [co.total_b tr]
  calc -(τ * σ * (combined w s).co1) * (L + 1)
      = (-(τ * s.co1) * (σ * w.aa1) + τ * s.co2 * -(σ * w.bb1)) * (L + 1) := by
        simp only [combined]; ring
    _ ≤ (-(τ * s.co1) * (σ * w.aa1) + τ * s.co2 * -(σ * w.bb1)) * (M * w.rr2) := by
        apply mul_le_mul_of_nonneg_left _ (add_nonneg (mul_nonneg C1 A) (mul_nonneg C2 B))
        exact bound.trans (mul_le_mul_of_nonneg_left above Ms)
    _ = -(τ * s.co1) * (M * (σ * w.aa1 * w.rr2)) + τ * s.co2 * (M * (-(σ * w.bb1) * w.rr2)) := by
        ring
    _ ≤ -(τ * s.co1) * (M * R2) + τ * s.co2 * (M * R1) :=
        add_le_add (mul_le_mul_of_nonneg_left (mul_le_mul_of_nonneg_left partA Ms) C1)
          (mul_le_mul_of_nonneg_left (mul_le_mul_of_nonneg_left partB Ms) C2)
    _ ≤ -(τ * s.co1) * s.r2 + τ * s.co2 * s.r1 :=
        add_le_add (mul_le_mul_of_nonneg_left (by linarith) C1)
          (mul_le_mul_of_nonneg_left (by linarith) C2)
    _ = N := by linear_combination τ * inv.total + N * square

/-- One turn of the `while` loop keeps its invariant and lowers `r1`. -/
theorem step_spec (inv : Weak N b L τ s) (Ls : 0 ≤ L) (above : L < s.r1) :
    ∃ τ' s', step L s = .done s' ∧
      (Weak N b L τ' s' ∧ (τ * s.co1 ≤ -1 → τ' * s'.co1 ≤ -1)) ∧ s'.r1 < s.r1 := by
  have r1s := inv.nonneg
  have r2s : 0 ≤ s.r2 := r1s.trans inv.le
  have fits2 : s.r2 < 2 ^ (shift s + 63) :=
    (lt_two_pow_sizeinbase2 r2s).trans_le (pow_le_pow_right₀ (by norm_num) (by
      unfold shift gmpLimbBits; omega))
  have fits1 : s.r1 < 2 ^ (shift s + 63) := inv.le.trans_lt fits2
  have Mpos : (0 : ℤ) < 2 ^ shift s := by positivity
  have word_lt : ∀ x : ℤ, x < 2 ^ (shift s + 63) → x / 2 ^ shift s < 2 ^ 63 := fun x small => by
    rw [Int.ediv_lt_iff_lt_mul Mpos]
    rwa [pow_add, mul_comm] at small
  have split2 := Int.mul_ediv_add_emod s.r2 (2 ^ shift s)
  have split1 := Int.mul_ediv_add_emod s.r1 (2 ^ shift s)
  have splitL := Int.mul_ediv_add_emod L (2 ^ shift s)
  have e2s := Int.emod_nonneg s.r2 Mpos.ne'
  have e1s := Int.emod_nonneg s.r1 Mpos.ne'
  have e2_lt := Int.emod_lt_of_pos s.r2 Mpos
  have e1_lt := Int.emod_lt_of_pos s.r1 Mpos
  have eL_lt := Int.emod_lt_of_pos L Mpos
  have start : Cofactors (turnSign 0)
      ⟨s.r2 / 2 ^ shift s, s.r1 / 2 ^ shift s, 0, 1, 1, 0⟩ := by
    constructor <;> simp [turnSign]
  obtain ⟨i, w, run, co, tr, ex⟩ := wordLoop_spec (word_lt _ fits2) (word_lt _ fits1)
    (Int.ediv_nonneg Ls Mpos.le) e2s e2_lt e1s e1_lt ((s.r1 / 2 ^ shift s).natAbs + 1) 0 _ start
    ⟨by simp, by simp, Int.ediv_nonneg r1s Mpos.le, Int.ediv_le_ediv Mpos inv.le⟩
    ⟨by simp, by simp, by simp, by simp, by simp⟩ (Nat.lt_succ_self _)
  simp only [step, extract_eq r2s fits2, extract_eq r1s fits1,
    extract_eq Ls (above.trans fits1), run, Exec.done_bind, Exec.pure_eq]
  by_cases none : i = 0
  · rw [if_pos none]
    exact ⟨_, _, rfl, divisionStep_spec inv Ls above⟩
  · rw [if_neg none]
    exact ⟨_, _, rfl, wordStep_spec inv split2.symm split1.symm e2s e1s (by linarith) Mpos.le
      co tr ex (Nat.pos_of_ne_zero none)⟩

theorem loop_spec (fuel : ℕ) (s : State) (inv : Weak N b L τ s) (Ls : 0 ≤ L)
    (enough : s.r1.natAbs < fuel) :
    ∃ τ' s', loop L fuel s = .done s' ∧
      (Weak N b L τ' s' ∧ (τ * s.co1 ≤ -1 → τ' * s'.co1 ≤ -1)) ∧ s'.r1 ≤ L := by
  induction fuel generalizing s τ with
  | zero => omega
  | succ fuel ih =>
    by_cases go : s.r1 ≠ 0 ∧ s.r1 > L
    · obtain ⟨τ', s', run, ⟨inv', strict⟩, lower⟩ := step_spec inv Ls go.2
      have := inv.nonneg
      have := inv'.nonneg
      obtain ⟨τ'', s'', run', ⟨inv'', strict'⟩, low⟩ := ih s' inv' (by omega)
      simp only [loop, if_pos go, run, Exec.done_bind]
      exact ⟨τ'', s'', run', ⟨inv'', fun first => strict' (strict first)⟩, low⟩
    · refine ⟨τ, s, by simp only [loop, if_neg go], ⟨inv, id⟩, ?_⟩
      have := inv.nonneg
      omega

end Remainders

end Xgcd

open Xgcd in
/-- `mpz_xgcd_partial` on `b ≤ N` with a bound below `N` ends with a remainder within the
bound and a cofactor that is at most `N / (L + 1)`. -/
theorem mpzXgcdPartial_spec (bs : 0 ≤ b) (le : b ≤ N) (Ls : 0 ≤ L) (Lt : L < N) :
    ∃ τ s, mpzXgcdPartial N b L = .done s ∧ Inv N b L τ s ∧ s.r1 ≤ L := by
  have start : Inv N b L 1 ⟨0, -1, N, b⟩ := by
    constructor <;> simp <;> linarith
  obtain ⟨τ, s, run, ⟨weak, strict⟩, low⟩ :=
    loop_spec (b.natAbs + 1) _ start.weak Ls (Nat.lt_succ_self _)
  have inv := weak.inv (strict start.co1)
  refine ⟨τ, s, ?_, inv, low⟩
  have keep : ¬s.r2 < 0 := by linarith [inv.nonneg, inv.le]
  simp only [mpzXgcdPartial, run, Exec.done_bind, Exec.pure_eq, if_neg keep]

theorem mpzXgcdPartial_stop (le : b ≤ L) : mpzXgcdPartial N b L =
    .done (if N < 0 then ⟨0, 1, -N, b⟩ else ⟨0, -1, N, b⟩) := by
  have stop : ¬(b ≠ 0 ∧ b > L) := by omega
  simp [mpzXgcdPartial, Xgcd.loop, stop]

end ChiaVdf
