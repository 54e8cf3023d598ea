import ChiaVdf.Reducer
import ChiaVdf.Reduce

/-! The word arithmetic of `Reducer.h`: what `mpz_get_si_2exp` reads off a number, and that
`calc_uvwx` neither wraps around where it goes on nor divides by zero, for every form whose
leading words it is given. -/
namespace ChiaVdf.Reducer

section LeadingBits

variable {op : ℤ}

/-- The leading 63 bits of a number, with its sign. -/
def leading (op : ℤ) : ℤ := op.sign * (op.natAbs * 2 ^ 63 / 2 ^ mpzSizeinbase2 op : ℕ)

theorem lzcnt64_log2 (x : ℕ) (nonzero : x ≠ 0) : 63 - lzcnt64 x + 1 = x.log2 + 1 := by
  have size : mpzSizeinbase2 (x : ℤ) = x.log2 + 1 := by simp [mpzSizeinbase2, nonzero]
  unfold lzcnt64
  rw [if_neg (by exact_mod_cast nonzero), size]
  push_cast
  ring

/-- The top limb, and how many of its bits are in use. -/
theorem top_limb {n : ℕ} (nonzero : n ≠ 0) :
    n / 2 ^ (64 * (n.log2 / 64)) % 2 ^ 64 = n / 2 ^ (64 * (n.log2 / 64)) ∧
      n / 2 ^ (64 * (n.log2 / 64)) ≠ 0 ∧ (n / 2 ^ (64 * (n.log2 / 64))).log2 = n.log2 % 64 := by
  have low := Nat.log2_self_le nonzero
  have high := Nat.lt_log2_self (n := n)
  have split := Nat.div_add_mod n.log2 64
  generalize n.log2 / 64 = q at *
  have small := Nat.mod_lt n.log2 (show 64 > 0 by norm_num)
  generalize n.log2 % 64 = t at *
  rw [← split] at low high
  have lower : 2 ^ t ≤ n / 2 ^ (64 * q) := by
    rw [Nat.le_div_iff_mul_le (by positivity), ← pow_add]
    exact (congrArg (2 ^ ·) (Nat.add_comm _ _)).trans_le low
  have upper : n / 2 ^ (64 * q) < 2 ^ (t + 1) := by
    rw [Nat.div_lt_iff_lt_mul (by positivity), ← pow_add]
    exact high.trans_eq (congrArg (2 ^ ·) (by ring))
  have positive : n / 2 ^ (64 * q) ≠ 0 := (lt_of_lt_of_le (by positivity) lower).ne'
  refine ⟨Nat.mod_eq_of_lt (upper.trans_le (Nat.pow_le_pow_right (by norm_num) (by omega))), positive, ?_⟩
  exact (Nat.log2_eq_iff positive).mpr ⟨lower, upper⟩

theorem signedShift_left {x j : ℕ} (pos : 0 < j) (fits : x * 2 ^ j < 2 ^ 63) :
    signedShift x j = (x * 2 ^ j : ℕ) := by
  have whole : |((x * 2 ^ j : ℕ) : ℤ)| < 2 ^ 63 := by rw [Nat.abs_cast]; exact_mod_cast fits
  rw [signedShift, if_pos (by exact_mod_cast pos), Int.toNat_natCast, ← Xgcd.word_eq whole]
  push_cast
  rfl

theorem signedShift_right {x j : ℕ} (limb : x < 2 ^ 64) (fits : x / 2 ^ j < 2 ^ 63) :
    signedShift x (-j) = (x / 2 ^ j : ℕ) := by
  rw [signedShift, if_neg (by omega)]
  split
  · next far =>
    have zero : x / 2 ^ j = 0 :=
      Nat.div_eq_of_lt (limb.trans_le (Nat.pow_le_pow_right (by norm_num) (by omega)))
    rw [zero, Nat.cast_zero]
  · have whole : |((x / 2 ^ j : ℕ) : ℤ)| < 2 ^ 63 := by rw [Nat.abs_cast]; exact_mod_cast fits
    rw [neg_neg, Int.toNat_natCast, ← Xgcd.word_eq whole]
    push_cast
    rfl

theorem leading_of_limbs {n q t : ℕ} (room : t < 62) :
    n * 2 ^ 63 / 2 ^ (64 * (q + 1) + t + 1) =
      n / 2 ^ (64 * (q + 1)) * 2 ^ (62 - t) + n / 2 ^ (64 * q) % 2 ^ 64 / 2 ^ (t + 2) := by
  have exps : (2 : ℕ) ^ (64 * (q + 1) + t + 1) = 2 ^ (64 * q + (t + 2)) * 2 ^ 63 := by
    rw [← pow_add]
    congr 1
    omega
  have upper : n / 2 ^ (64 * (q + 1)) = n / 2 ^ (64 * q) / 2 ^ 64 := by
    rw [Nat.div_div_eq_div_mul, ← pow_add]
    rfl
  have room' : (2 : ℕ) ^ 64 = 2 ^ (62 - t) * 2 ^ (t + 2) := by
    rw [← pow_add]
    congr 1
    omega
  rw [exps, Nat.mul_div_mul_right _ _ (by positivity), pow_add, ← Nat.div_div_eq_div_mul, upper]
  generalize n / 2 ^ (64 * q) = limbs
  have split : limbs % 2 ^ 64 + limbs / 2 ^ 64 * 2 ^ (62 - t) * 2 ^ (t + 2) = limbs := by
    rw [mul_assoc, ← room', Nat.mod_add_div']
  calc limbs / 2 ^ (t + 2)
      = (limbs % 2 ^ 64 + limbs / 2 ^ 64 * 2 ^ (62 - t) * 2 ^ (t + 2)) / 2 ^ (t + 2) := by rw [split]
    _ = limbs / 2 ^ 64 * 2 ^ (62 - t) + limbs % 2 ^ 64 / 2 ^ (t + 2) := by
        rw [Nat.add_mul_div_right _ _ (by positivity), Nat.add_comm]

/-- Where the top limb has no room for a further bit it is the whole answer. -/
theorem leading_of_top {n q t : ℕ} (full : 62 ≤ t) :
    n * 2 ^ 63 / 2 ^ (64 * q + t + 1) = n / 2 ^ (64 * q) / 2 ^ (t - 62) := by
  have exps : (2 : ℕ) ^ (64 * q + t + 1) = 2 ^ (64 * q) * 2 ^ (t - 62) * 2 ^ 63 := by
    rw [← pow_add, ← pow_add]
    congr 1
    omega
  rw [exps, Nat.mul_div_mul_right _ _ (by positivity), Nat.div_div_eq_div_mul]

theorem leading_of_limb {n t : ℕ} (room : t < 62) : n * 2 ^ 63 / 2 ^ (t + 1) = n * 2 ^ (62 - t) := by
  have exps : (2 : ℕ) ^ 63 = 2 ^ (62 - t) * 2 ^ (t + 1) := by
    rw [← pow_add]
    congr 1
    omega
  rw [exps, ← mul_assoc, Nat.mul_div_cancel _ (by positivity)]

theorem leading_lt {n : ℕ} : n * 2 ^ 63 / 2 ^ (n.log2 + 1) < 2 ^ 63 := by
  rw [Nat.div_lt_iff_lt_mul (by positivity), mul_comm]
  exact Nat.mul_lt_mul_of_pos_left Nat.lt_log2_self (by positivity)

theorem le_leading {n : ℕ} (nonzero : n ≠ 0) : 2 ^ 62 ≤ n * 2 ^ 63 / 2 ^ (n.log2 + 1) := by
  rw [Nat.le_div_iff_mul_le (by positivity), pow_succ]
  have := Nat.log2_self_le nonzero
  omega

theorem word_natCast {x : ℕ} (fits : x < 2 ^ 63) : word x = x :=
  Xgcd.word_eq (by rw [Nat.abs_cast]; exact_mod_cast fits)

theorem mpSize_abs (nonzero : op ≠ 0) : |mpSize op| = (op.natAbs.log2 / 64 : ℕ) + 1 := by
  unfold mpSize
  rw [if_neg nonzero, abs_mul, Int.abs_sign_of_ne_zero nonzero, one_mul, Nat.abs_cast, Nat.cast_succ]

theorem mpzGetlimbn_natCast {i : ℕ} (within : (i : ℤ) < |mpSize op|) :
    mpzGetlimbn op i = (op.natAbs / 2 ^ (64 * i) % 2 ^ 64 : ℕ) := by
  rw [mpzGetlimbn, if_pos ⟨by positivity, within⟩, Int.toNat_natCast]

/-- What the shift makes of the top limb. -/
def topBits (n : ℕ) : ℕ :=
  if n.log2 % 64 < 62 then n / 2 ^ (64 * (n.log2 / 64)) * 2 ^ (62 - n.log2 % 64)
  else n * 2 ^ 63 / 2 ^ (n.log2 + 1)

theorem signedShift_top {n : ℕ} (nonzero : n ≠ 0) :
    signedShift (n / 2 ^ (64 * (n.log2 / 64)) : ℕ) (63 - ((n.log2 % 64 : ℕ) + 1)) = topBits n := by
  obtain ⟨limb, positive, bits⟩ := top_limb nonzero
  have below := Nat.lt_log2_self (n := n / 2 ^ (64 * (n.log2 / 64)))
  rw [bits] at below
  unfold topBits
  split
  · next room =>
    have fits : n / 2 ^ (64 * (n.log2 / 64)) * 2 ^ (62 - n.log2 % 64) < 2 ^ 63 := by
      calc _ < 2 ^ (n.log2 % 64 + 1) * 2 ^ (62 - n.log2 % 64) := Nat.mul_lt_mul_of_pos_right below (by positivity)
        _ = 2 ^ 63 := by rw [← pow_add]; congr 1; omega
    rw [← signedShift_left (by omega) fits]
    congr 1
    omega
  · next full =>
    have value := leading_of_top (n := n) (q := n.log2 / 64) (not_lt.mp full)
    rw [Nat.div_add_mod] at value
    have word : n / 2 ^ (64 * (n.log2 / 64)) < 2 ^ 64 := by
      rw [← limb]
      exact Nat.mod_lt _ (by positivity)
    have fits : n / 2 ^ (64 * (n.log2 / 64)) / 2 ^ (n.log2 % 64 - 62) < 2 ^ 63 := by
      rw [← value]
      exact leading_lt
    have back : (63 - ((n.log2 % 64 : ℕ) + 1) : ℤ) = -(n.log2 % 64 - 62 : ℕ) := by omega
    rw [value, back, signedShift_right word fits]

/-- The bits of the next limb fill what the top limb leaves. -/
theorem topBits_add {n : ℕ} (more : 0 < n.log2 / 64) :
    topBits n + n / 2 ^ (64 * (n.log2 / 64 - 1)) % 2 ^ 64 / 2 ^ (n.log2 % 64 + 2) =
      n * 2 ^ 63 / 2 ^ (n.log2 + 1) := by
  have split := Nat.div_add_mod n.log2 64
  obtain ⟨q, hq⟩ : ∃ q, n.log2 / 64 = q + 1 := ⟨n.log2 / 64 - 1, by omega⟩
  unfold topBits
  rw [hq, Nat.add_sub_cancel]
  by_cases room : n.log2 % 64 < 62
  · have value := leading_of_limbs (n := n) (q := q) room
    rw [← hq, split] at value
    rw [if_pos room, value, hq]
  · have limb : n / 2 ^ (64 * q) % 2 ^ 64 < 2 ^ 64 := Nat.mod_lt _ (by positivity)
    have none : n / 2 ^ (64 * q) % 2 ^ 64 / 2 ^ (n.log2 % 64 + 2) = 0 :=
      Nat.div_eq_of_lt (limb.trans_le (Nat.pow_le_pow_right (by norm_num) (by omega)))
    rw [if_neg room, none, Nat.add_zero]

theorem topBits_eq {n : ℕ} (one : n.log2 / 64 = 0) : topBits n = n * 2 ^ 63 / 2 ^ (n.log2 + 1) := by
  unfold topBits
  by_cases room : n.log2 % 64 < 62
  · have whole : n.log2 % 64 = n.log2 := by omega
    rw [whole] at room
    rw [whole, if_pos room, leading_of_limb room, one]
    simp
  · rw [if_neg room]

theorem signedShift_prev {x t : ℕ} (limb : x < 2 ^ 64) :
    signedShift x (-1 - ((t : ℕ) + 1)) = (x / 2 ^ (t + 2) : ℕ) := by
  have shift : (-1 - ((t : ℕ) + 1) : ℤ) = -(t + 2 : ℕ) := by omega
  have fits : x / 2 ^ (t + 2) < 2 ^ 63 := by
    rw [Nat.div_lt_iff_lt_mul (by positivity), pow_add]
    have := Nat.one_le_two_pow (n := t)
    omega
  rw [shift, signedShift_right limb fits]

theorem limbs_together {n : ℕ} {prev : ℤ}
    (next : 0 < n.log2 / 64 → prev = (n / 2 ^ (64 * (n.log2 / 64 - 1)) % 2 ^ 64 : ℕ)) :
    (if ((n.log2 / 64 : ℕ) : ℤ) + 1 > 1 then
        (word (topBits n + signedShift prev (-1 - ((n.log2 % 64 : ℕ) + 1))),
          ((n.log2 % 64 : ℕ) : ℤ) + 1 + ((n.log2 / 64 : ℕ) + 1 - 1) * 64)
      else ((topBits n : ℤ), ((n.log2 % 64 : ℕ) : ℤ) + 1)) =
      (((n * 2 ^ 63 / 2 ^ (n.log2 + 1) : ℕ) : ℤ), ((n.log2 + 1 : ℕ) : ℤ)) := by
  have fits := leading_lt (n := n)
  have split := Nat.div_add_mod n.log2 64
  by_cases more : 0 < n.log2 / 64
  · rw [if_pos (by omega), next more, signedShift_prev (Nat.mod_lt _ (by positivity)), ← Nat.cast_add,
      topBits_add more, word_natCast fits]
    exact Prod.ext rfl (by dsimp only; omega)
  · have zero : n.log2 / 64 = 0 := by omega
    rw [topBits_eq zero, zero, if_neg (by omega)]
    exact Prod.ext rfl (by dsimp only; omega)

theorem mpzGetSi2exp_eq (nonzero : op ≠ 0) : mpzGetSi2exp op = (leading op, (mpzSizeinbase2 op : ℤ)) := by
  have nonzero' : op.natAbs ≠ 0 := Int.natAbs_ne_zero.mpr nonzero
  have size := mpSize_abs nonzero
  obtain ⟨limb, positive, bits⟩ := top_limb nonzero'
  have last : mpzGetlimbn op ((op.natAbs.log2 / 64 : ℕ) + 1 - 1) =
      (op.natAbs / 2 ^ (64 * (op.natAbs.log2 / 64)) : ℕ) := by
    rw [add_sub_cancel_right, mpzGetlimbn_natCast (by omega), limb]
  have next : 0 < op.natAbs.log2 / 64 → mpzGetlimbn op ((op.natAbs.log2 / 64 : ℕ) + 1 - 2) =
      (op.natAbs / 2 ^ (64 * (op.natAbs.log2 / 64 - 1)) % 2 ^ 64 : ℕ) := by
    intro more
    rw [← mpzGetlimbn_natCast (by omega)]
    congr 1
    omega
  have whole : mpzSizeinbase2 op = op.natAbs.log2 + 1 := if_neg nonzero
  have fits := leading_lt (n := op.natAbs)
  simp only [mpzGetSi2exp, size, last, lzcnt64_log2 _ positive, bits, signedShift_top nonzero',
    limbs_together next, leading, whole]
  congr 1
  split
  · next minus =>
    have small : |(-(op.natAbs * 2 ^ 63 / 2 ^ (op.natAbs.log2 + 1) : ℕ) : ℤ)| < 2 ^ 63 := by
      rw [abs_neg, Nat.abs_cast]
      exact_mod_cast fits
    rw [Xgcd.word_eq small, Int.sign_eq_neg_one_of_neg minus, neg_one_mul]
  · next plus => rw [Int.sign_eq_one_of_pos (by omega), one_mul]

theorem leading_scaled (nonzero : op ≠ 0) :
    |op * 2 ^ 63 - leading op * 2 ^ mpzSizeinbase2 op| < 2 ^ mpzSizeinbase2 op ∧
      (0 < op → leading op * 2 ^ mpzSizeinbase2 op ≤ op * 2 ^ 63) ∧
      (op < 0 → op * 2 ^ 63 ≤ leading op * 2 ^ mpzSizeinbase2 op) := by
  have split := Nat.div_add_mod (op.natAbs * 2 ^ 63) (2 ^ mpzSizeinbase2 op)
  have rest := Nat.mod_lt (op.natAbs * 2 ^ 63) (show 2 ^ mpzSizeinbase2 op > 0 by positivity)
  unfold leading
  generalize op.natAbs * 2 ^ 63 / 2 ^ mpzSizeinbase2 op = l at *
  generalize op.natAbs * 2 ^ 63 % 2 ^ mpzSizeinbase2 op = r at *
  zify at split rest
  generalize (2 : ℤ) ^ mpzSizeinbase2 op = p at *
  rcases lt_or_gt_of_ne nonzero with minus | plus
  · rw [abs_of_neg minus] at split
    rw [Int.sign_eq_neg_one_of_neg minus]
    refine ⟨abs_lt.mpr ⟨by linarith, by linarith⟩, by omega, fun _ => by linarith⟩
  · rw [abs_of_pos plus] at split
    rw [Int.sign_eq_one_of_pos plus]
    refine ⟨abs_lt.mpr ⟨by linarith, by linarith⟩, fun _ => by linarith, by omega⟩

theorem leading_bounds (nonzero : op ≠ 0) : 2 ^ 62 ≤ |leading op| ∧ |leading op| < 2 ^ 63 := by
  have whole : mpzSizeinbase2 op = op.natAbs.log2 + 1 := if_neg nonzero
  have low := le_leading (Int.natAbs_ne_zero.mpr nonzero)
  have high := leading_lt (n := op.natAbs)
  rw [leading, whole, abs_mul, Int.abs_sign_of_ne_zero nonzero, one_mul, Nat.abs_cast]
  exact ⟨by exact_mod_cast low, by exact_mod_cast high⟩

end LeadingBits

section LeadingWords

variable {f : Form} {op : ℤ} {e : ℕ}

def firstExp (f : Form) : ℤ := min (mpzGetSi2exp f.a).2 (min (mpzGetSi2exp f.b).2 (mpzGetSi2exp f.c).2)

def secondExp (f : Form) : ℤ := max (mpzGetSi2exp f.a).2 (max (mpzGetSi2exp f.b).2 (mpzGetSi2exp f.c).2)

/-- The word that stands for `op` next to a number of `second` bits. -/
def leadingWord (second op : ℤ) : ℤ :=
  (mpzGetSi2exp op).1 / 2 ^ (second + 1 - (mpzGetSi2exp op).2).toNat

/-- What `calc_uvwx` is given for a form. -/
def leadingWords (f : Form) : Form :=
  ⟨leadingWord (secondExp f) f.a, leadingWord (secondExp f) f.b, leadingWord (secondExp f) f.c⟩

/-- The cofactors of a turn that is made on words. -/
def cofactors (f : Form) : Exec Cofactors :=
  calcUvwx (leadingWords f).a (leadingWords f).b (leadingWords f).c

theorem turn_eq (f : Form) : turn f =
    if secondExp f - firstExp f > EXP_THRESH then reducer f
    else do
      let m ← cofactors f
      return apply m f := rfl

theorem leadingWord_eq (nonzero : op ≠ 0) (room : mpzSizeinbase2 op ≤ e) :
    leadingWord e op = leading op / 2 ^ (e + 1 - mpzSizeinbase2 op) := by
  have shift : ((e : ℤ) + 1 - (mpzSizeinbase2 op : ℤ)).toNat = e + 1 - mpzSizeinbase2 op := by omega
  rw [leadingWord, mpzGetSi2exp_eq nonzero, shift]

/-- The word and what is cut off it. -/
theorem leadingWord_split (nonzero : op ≠ 0) (room : mpzSizeinbase2 op ≤ e) :
    ∃ q r : ℤ, 1 ≤ q ∧ 0 ≤ r ∧ r < q ∧ 2 ^ (e + 1) = q * 2 ^ mpzSizeinbase2 op ∧
      q * leadingWord e op + r = leading op := by
  refine ⟨2 ^ (e + 1 - mpzSizeinbase2 op), leading op % 2 ^ (e + 1 - mpzSizeinbase2 op),
    one_le_pow₀ (by norm_num), Int.emod_nonneg _ (by positivity), Int.emod_lt_of_pos _ (by positivity), ?_, ?_⟩
  · rw [← pow_add]
    congr 1
    omega
  · rw [leadingWord_eq nonzero room, Int.mul_ediv_add_emod]

/-- A word is off by less than one in its last place, and below the number where that is positive. -/
theorem leadingWord_scaled (nonzero : op ≠ 0) (room : mpzSizeinbase2 op ≤ e) :
    |op * 2 ^ 63 - leadingWord e op * 2 ^ (e + 1)| < 2 ^ (e + 1) ∧
      (0 < op → leadingWord e op * 2 ^ (e + 1) ≤ op * 2 ^ 63) := by
  obtain ⟨close, below, above⟩ := leading_scaled nonzero
  obtain ⟨q, r, -, low, high, exps, split⟩ := leadingWord_split nonzero room
  have larger : (1 : ℤ) ≤ 2 ^ mpzSizeinbase2 op := one_le_pow₀ (by norm_num)
  rw [exps]
  generalize leadingWord e op = w at *
  generalize (2 : ℤ) ^ mpzSizeinbase2 op = p at *
  rw [← split] at close below above
  obtain ⟨left, right⟩ := abs_lt.mp close
  have product : r * p + p ≤ q * p := by nlinarith
  have nonneg : 0 ≤ r * p := by positivity
  have apart : w * (q * p) = (q * w + r) * p - r * p := by ring
  rw [apart]
  refine ⟨?_, fun plus => by linarith [below plus]⟩
  rcases lt_or_gt_of_ne nonzero with minus | plus
  · have := above minus
    exact abs_lt.mpr ⟨by linarith, by linarith⟩
  · have := below plus
    exact abs_lt.mpr ⟨by linarith, by linarith⟩

theorem leadingWord_bounds (nonzero : op ≠ 0) (room : mpzSizeinbase2 op ≤ e) :
    -2 ^ 62 ≤ leadingWord e op ∧ leadingWord e op < 2 ^ 62 := by
  obtain ⟨low, high⟩ := abs_lt.mp (leading_bounds nonzero).2
  have two : (2 : ℤ) ≤ 2 ^ (e + 1 - mpzSizeinbase2 op) := le_self_pow₀ (by norm_num) (by omega)
  rw [leadingWord_eq nonzero room]
  constructor
  · rw [Int.le_ediv_iff_mul_le (by positivity)]
    linarith
  · rw [Int.ediv_lt_iff_lt_mul (by positivity)]
    linarith

theorem le_leadingWord (plus : 0 < op) (room : mpzSizeinbase2 op ≤ e) (close : e ≤ mpzSizeinbase2 op + 31) :
    2 ^ 30 ≤ leadingWord e op := by
  have low := (leading_bounds plus.ne').1
  have sign : 0 ≤ leading op := by
    rw [leading, Int.sign_eq_one_of_pos plus, one_mul]
    positivity
  rw [abs_of_nonneg sign] at low
  have small : (2 : ℤ) ^ (e + 1 - mpzSizeinbase2 op) ≤ 2 ^ 32 := pow_le_pow_right₀ (by norm_num) (by omega)
  rw [leadingWord_eq plus.ne' room, Int.le_ediv_iff_mul_le (by positivity)]
  linarith

/-- What the leading words of a positive definite form look like: `x ^ 2 < 4 * y * z` is kept up to
the last place of each word. -/
structure Fits (w : Form) : Prop where
  a_pos : 0 < w.a
  a_lt : w.a < 2 ^ 62
  b_le : |w.b| ≤ 2 ^ 62
  c_pos : 0 < w.c
  c_lt : w.c < 2 ^ 62
  disc : w.disc < 10 * 2 ^ 62

theorem mpzGetSi2exp_zero : mpzGetSi2exp 0 = (0, 0) := rfl

theorem disc_lt_of_scaled {a b c x y z p q : ℤ} (pos : 0 < p) (qpos : 0 < q) (neg : b ^ 2 < 4 * a * c)
    (cpos : 0 < c) (xpos : 0 < x) (zpos : 0 < z) (xclose : a * q < (x + 1) * p) (yclose : |b * q - y * p| < p)
    (zclose : c * q < (z + 1) * p) : y ^ 2 - 4 * x * z < 2 * |y| + 4 * x + 4 * z + 4 := by
  have ynonneg := abs_nonneg y
  have square : (|y| - 1) ^ 2 < 4 * (x + 1) * (z + 1) ∨ y = 0 := by
    by_cases zero : y = 0
    · exact .inr zero
    refine .inl (lt_of_mul_lt_mul_right ?_ (sq_nonneg p))
    have ypos : 0 ≤ (|y| - 1) * p := mul_nonneg (by have := abs_pos.mpr zero; omega) pos.le
    have far : (|y| - 1) * p ≤ |b * q| := by
      have triangle := abs_sub_abs_le_abs_sub (y * p) (b * q)
      rw [abs_sub_comm, abs_mul, abs_of_pos pos] at triangle
      linarith
    have outer : a * q * (c * q) < (x + 1) * p * ((z + 1) * p) :=
      mul_lt_mul'' xclose zclose (le_of_lt ?_) (by positivity)
    calc (|y| - 1) ^ 2 * p ^ 2 = ((|y| - 1) * p) ^ 2 := by ring
      _ ≤ |b * q| ^ 2 := pow_le_pow_left₀ ypos far 2
      _ = b ^ 2 * q ^ 2 := by rw [sq_abs]; ring
      _ ≤ 4 * a * c * q ^ 2 := mul_le_mul_of_nonneg_right neg.le (sq_nonneg q)
      _ = 4 * (a * q * (c * q)) := by ring
      _ < 4 * ((x + 1) * p * ((z + 1) * p)) := by linarith
      _ = 4 * (x + 1) * (z + 1) * p ^ 2 := by ring
    have apos : 0 < a := pos_of_mul_pos_left (b := 4 * c) (by nlinarith [sq_nonneg b]) (by positivity)
    positivity
  rcases square with less | zero
  · rw [← sq_abs y]
    linarith
  · subst zero
    have := mul_pos xpos zpos
    norm_num
    linarith

theorem exists_exponent (pos : 0 < f.a) (cpos : 0 < f.c) (near : secondExp f - firstExp f ≤ EXP_THRESH) :
    ∃ e : ℕ, secondExp f = e ∧ mpzSizeinbase2 f.a ≤ e ∧ (f.b ≠ 0 → mpzSizeinbase2 f.b ≤ e) ∧
      mpzSizeinbase2 f.c ≤ e ∧ e ≤ mpzSizeinbase2 f.a + 31 ∧ e ≤ mpzSizeinbase2 f.c + 31 := by
  refine ⟨(secondExp f).toNat, ?_⟩
  by_cases zero : f.b = 0
  · simp only [secondExp, firstExp, EXP_THRESH, mpzGetSi2exp_eq pos.ne', zero, mpzGetSi2exp_zero,
      mpzGetSi2exp_eq cpos.ne'] at near ⊢
    omega
  · simp only [secondExp, firstExp, EXP_THRESH, mpzGetSi2exp_eq pos.ne', mpzGetSi2exp_eq zero,
      mpzGetSi2exp_eq cpos.ne'] at near ⊢
    omega

theorem lt_next_leadingWord {x : ℤ} (xpos : 0 < x) (room : mpzSizeinbase2 x ≤ e) :
    x * 2 ^ 63 < (leadingWord e x + 1) * 2 ^ (e + 1) := by
  have := (abs_lt.mp (leadingWord_scaled xpos.ne' room).1).2
  linarith

theorem leadingWords_fits (pos : 0 < f.a) (neg : f.disc < 0) (bnz : f.b ≠ 0)
    (near : secondExp f - firstExp f ≤ EXP_THRESH) : Fits (leadingWords f) := by
  have cpos := Form.c_pos pos neg
  obtain ⟨e, same, ra, rb, rc, na, nc⟩ := exists_exponent pos cpos near
  have apos := le_leadingWord pos ra na
  have cwpos := le_leadingWord cpos rc nc
  have abound := leadingWord_bounds pos.ne' ra
  have bbound := leadingWord_bounds bnz (rb bnz)
  have cbound := leadingWord_bounds cpos.ne' rc
  have babs : |leadingWord e f.b| ≤ 2 ^ 62 := abs_le.mpr ⟨bbound.1, bbound.2.le⟩
  have square : f.b ^ 2 < 4 * f.a * f.c := by
    unfold BinaryForm.disc at neg
    linarith
  have disc := disc_lt_of_scaled (by positivity) (by positivity) square cpos (by linarith) (by linarith)
    (lt_next_leadingWord pos ra) (leadingWord_scaled bnz (rb bnz)).1 (lt_next_leadingWord cpos rc)
  unfold leadingWords
  rw [same]
  refine ⟨by linarith, abound.2, babs, by linarith, cbound.2, ?_⟩
  unfold BinaryForm.disc
  dsimp only
  linarith

end LeadingWords

section Cofactors

variable {w g : Form} {m : Cofactors}

/-- The quotient is the nearest one, so that the next `b` is at most `c` and the next `c` is not
above `a`. -/
theorem quotient_spec {b c : ℤ} (bs : |b| ≤ 2 ^ 62) (pos : 0 < c) (small : c < 2 ^ 62) :
    ∃ s, quotient b c = .done s ∧ |2 * (c * s) - b| ≤ c ∧ 0 ≤ s * (b - c * s) := by
  obtain ⟨low, high⟩ := abs_le.mp bs
  have two : word (2 * c) = 2 * c := Xgcd.word_eq (abs_lt.mpr ⟨by linarith, by linarith⟩)
  have nearest {d : ℤ} (nonneg : 0 ≤ d) : 0 ≤ (d + c) / (2 * c) ∧ |2 * (c * ((d + c) / (2 * c))) - d| ≤ c ∧
      0 ≤ (d + c) / (2 * c) * (d - c * ((d + c) / (2 * c))) := by
    have split := Int.mul_ediv_add_emod (d + c) (2 * c)
    have rlow := Int.emod_nonneg (d + c) (show 2 * c ≠ 0 by omega)
    have rhigh := Int.emod_lt_of_pos (d + c) (show 0 < 2 * c by omega)
    have qnonneg : 0 ≤ (d + c) / (2 * c) := Int.ediv_nonneg (by omega) (by omega)
    generalize (d + c) / (2 * c) = q at *
    refine ⟨qnonneg, abs_le.mpr ⟨by linarith, by linarith⟩, ?_⟩
    rcases qnonneg.eq_or_lt with zero | one
    · rw [← zero, zero_mul]
    · exact mul_nonneg qnonneg (by nlinarith)
  unfold quotient
  split
  · next nonneg =>
    have sum : word (b + c) = b + c := Xgcd.word_eq (abs_lt.mpr ⟨by linarith, by linarith⟩)
    obtain ⟨-, close, gain⟩ := nearest nonneg
    rw [two, sum, mpzTdivQ_done (by omega), Int.tdiv_eq_ediv_of_nonneg (by omega)]
    exact ⟨_, rfl, close, gain⟩
  · next minus =>
    have sum : word (-b + c) = -b + c := Xgcd.word_eq (abs_lt.mpr ⟨by linarith, by linarith⟩)
    obtain ⟨qnonneg, close, gain⟩ := nearest (d := -b) (by omega)
    rw [two, sum, mpzTdivQ_done (by omega), Int.tdiv_eq_ediv_of_nonneg (by omega), Exec.done_bind]
    have fits : word (-((-b + c) / (2 * c))) = -((-b + c) / (2 * c)) := by
      apply Xgcd.word_eq
      rw [abs_neg, abs_of_nonneg qnonneg]
      have : (-b + c) / (2 * c) ≤ -b + c := Int.ediv_le_self _ (by omega)
      linarith
    rw [fits]
    refine ⟨_, rfl, ?_, ?_⟩
    · rw [← abs_neg]
      convert close using 2
      ring
    · convert gain using 1
      ring

/-- A cofactor that the quotient would lead to still is a word, and far from the largest: the form bounds it. -/
theorem next_le {b c u v s γ δ : ℤ} (eq : (2 * c * u - b * v) ^ 2 = 4 * c * γ + δ * v ^ 2) (pos : 0 < c)
    (γs : γ < 2 ^ 62) (δs : δ < 10 * 2 ^ 62) (vs : |v| ≤ 2 ^ 31) (close : |2 * (c * s) - b| ≤ c) :
    |-u + s * v| ≤ 7 * 2 ^ 60 := by
  have vsq : v ^ 2 ≤ 2 ^ 62 := by
    calc v ^ 2 = |v| ^ 2 := (sq_abs v).symm
      _ ≤ (2 ^ 31) ^ 2 := pow_le_pow_left₀ (abs_nonneg v) vs 2
      _ = 2 ^ 62 := by norm_num
  have δv : δ * v ^ 2 ≤ 10 * 2 ^ 62 * 2 ^ 62 := by
    calc δ * v ^ 2 ≤ 10 * 2 ^ 62 * v ^ 2 := mul_le_mul_of_nonneg_right δs.le (sq_nonneg v)
      _ ≤ 10 * 2 ^ 62 * 2 ^ 62 := by linarith
  have first : |2 * c * u - b * v| ≤ 13 * 2 ^ 60 * c := by
    apply abs_le_of_sq_le_sq _ (by positivity)
    rw [eq]
    have : 4 * c * γ ≤ 4 * c * 2 ^ 62 := mul_le_mul_of_nonneg_left γs.le (by positivity)
    nlinarith
  have second : |(2 * (c * s) - b) * v| ≤ c * 2 ^ 31 := by
    rw [abs_mul]
    exact mul_le_mul close vs (abs_nonneg v) pos.le
  have whole : 2 * c * |-u + s * v| ≤ 2 * c * (7 * 2 ^ 60) := by
    calc 2 * c * |-u + s * v| = |2 * c * (-u + s * v)| := by
          rw [abs_mul, abs_of_pos (show 0 < 2 * c by omega)]
      _ = |(2 * (c * s) - b) * v - (2 * c * u - b * v)| := by
          congr 1
          ring
      _ ≤ |(2 * (c * s) - b) * v| + |2 * c * u - b * v| := abs_sub _ _
      _ ≤ 2 * c * (7 * 2 ^ 60) := by linarith
  exact le_of_mul_le_mul_left whole (by omega)

/-- Where `calc_uvwx` goes on, its cofactors take the words it was given to the words it is at,
without any that wrapped around. -/
structure Walk (w : Form) (m : Cofactors) (g : Form) : Prop where
  uni : Unimodular m
  eq : w.act m.u m.v m.w m.x = g
  a_lt : g.a < 2 ^ 62
  b_le : |g.b| ≤ 2 ^ 62
  c_pos : 0 < g.c
  c_lt : g.c < 2 ^ 62

theorem Fits.walk (fits : Fits w) : Walk w ⟨1, 0, 0, 1⟩ w :=
  ⟨unimodular_one, BinaryForm.act_one w, fits.a_lt, fits.b_le, fits.c_pos, fits.c_lt⟩

theorem Walk.disc (walk : Walk w m g) : g.disc = w.disc := by
  have det := walk.uni.det
  rw [← walk.eq, BinaryForm.disc_act, det]
  ring

theorem Walk.back (walk : Walk w m g) : w = g.act m.x (-m.v) (-m.w) m.u := by
  rw [← walk.eq, BinaryForm.act_inverse walk.uni.det]

theorem llabs_small {x : ℤ} (small : |x| < 2 ^ 63) : llabs (word x) = .done |x| := by
  have low := (abs_lt.mp small).1
  rw [Xgcd.word_eq small, llabs, if_neg (by linarith)]

theorem Walk.v_le (fits : Fits w) (walk : Walk w m g) {s : ℤ} (close : |2 * (g.c * s) - g.b| ≤ g.c) :
    |-m.u + s * m.v| ≤ 7 * 2 ^ 60 := by
  have below := walk.disc ▸ fits.disc
  refine next_le (γ := w.c) (δ := g.disc) ?_ walk.c_pos fits.c_lt below walk.uni.v close
  rw [walk.back]
  simp only [BinaryForm.act, BinaryForm.eval, BinaryForm.disc]
  ring

theorem Walk.x_le (fits : Fits w) (walk : Walk w m g) {s : ℤ} (close : |2 * (g.c * s) - g.b| ≤ g.c) :
    |-m.w + s * m.x| ≤ 7 * 2 ^ 60 := by
  have below := walk.disc ▸ fits.disc
  refine next_le (γ := w.a) (δ := g.disc) ?_ walk.c_pos fits.a_lt below walk.uni.x close
  rw [walk.back]
  simp only [BinaryForm.act, BinaryForm.eval, BinaryForm.disc]
  ring

theorem Walk.llabs_v (fits : Fits w) (walk : Walk w m g) {s : ℤ} (close : |2 * (g.c * s) - g.b| ≤ g.c) :
    |-m.u + s * m.v| < 2 ^ 63 :=
  (walk.v_le fits close).trans_lt (by norm_num)

theorem Walk.llabs_x (fits : Fits w) (walk : Walk w m g) {s : ℤ} (close : |2 * (g.c * s) - g.b| ≤ g.c) :
    |-m.w + s * m.x| < 2 ^ 63 :=
  (walk.x_le fits close).trans_lt (by norm_num)

/-- The word of the next `c` is that number wherever the loop goes on: from below the most negative
word it would wrap around to one above `c`. -/
theorem word_next {C c : ℤ} (low : -10 * 2 ^ 60 ≤ C) (high : C < 2 ^ 62) (cs : c < 2 ^ 62)
    (less : word C < c) : word C = C := by
  by_cases below : C < -2 ^ 63
  · obtain ⟨j, hj⟩ := word_close C
    have range : -2 ^ 63 ≤ word C := by
      unfold word gmpLimbBits
      exact Int.le_bmod (by norm_num)
    rw [hj] at range less
    omega
  · have fits : -2 ^ 63 ≤ C := not_lt.mp below
    unfold word gmpLimbBits
    apply Int.bmod_eq_of_le <;> norm_num <;> linarith

theorem Walk.next (fits : Fits w) (walk : Walk w m g) {s : ℤ} (close : |2 * (g.c * s) - g.b| ≤ g.c)
    (gain : 0 ≤ s * (g.b - g.c * s)) (vs : |word (-m.u + s * m.v)| ≤ 2 ^ 31)
    (xs : |word (-m.w + s * m.x)| ≤ 2 ^ 31) (less : word (g.a - s * (g.b - g.c * s)) < g.c)
    (plus : 0 < word (g.a - s * (g.b - g.c * s))) :
    Walk w ⟨m.v, word (-m.u + s * m.v), m.x, word (-m.w + s * m.x)⟩
      ⟨g.c, word (-g.b + 2 * (g.c * s)), word (g.a - s * (g.b - g.c * s))⟩ := by
  have disc := walk.disc ▸ fits.disc
  have cpos := walk.c_pos
  have clt := walk.c_lt
  have low : -10 * 2 ^ 60 ≤ g.a - s * (g.b - g.c * s) := by
    have scaled : 4 * g.c * (g.a - s * (g.b - g.c * s)) = (2 * (g.c * s) - g.b) ^ 2 - g.disc := by
      unfold BinaryForm.disc
      ring
    by_contra far
    push Not at far
    have := sq_nonneg (2 * (g.c * s) - g.b)
    nlinarith
  have bsmall : |-g.b + 2 * (g.c * s)| ≤ g.c := by
    convert close using 2
    ring
  have same := word_next low (by linarith [walk.a_lt]) clt less
  rw [same] at less plus ⊢
  rw [Xgcd.word_eq (show |-g.b + 2 * (g.c * s)| < 2 ^ 63 by linarith)]
  refine ⟨walk.uni.next rfl rfl vs xs, ?_, clt, bsmall.trans clt.le, plus, less.trans clt⟩
  rw [Xgcd.word_eq (walk.llabs_v fits close), Xgcd.word_eq (walk.llabs_x fits close)]
  have moved : w.act m.v (-m.u + s * m.v) m.x (-m.w + s * m.x) =
      (w.act m.u m.v m.w m.x).act 0 (-1) 1 s := by
    rw [BinaryForm.act_act]
    congr 1 <;> ring
  rw [moved, walk.eq]
  ext <;> simp only [BinaryForm.act, BinaryForm.eval] <;> ring

/-- The loop ends: `c` falls and stays positive, and no operation of it is undefined. -/
theorem calcLoop_total (fuel : ℕ) (fits : Fits w) (walk : Walk w m g) (enough : g.c.natAbs < fuel) :
    ∃ m', calcLoop fuel m g.a g.b g.c = .done m' := by
  induction fuel generalizing m g with
  | zero => omega
  | succ fuel ih =>
    obtain ⟨s, hs, close, gain⟩ := quotient_spec walk.b_le walk.c_pos walk.c_lt
    have hv := llabs_small (walk.llabs_v fits close)
    have hx := llabs_small (walk.llabs_x fits close)
    simp only [calcLoop, hs, hv, hx, Exec.done_bind]
    split
    · next below =>
      obtain ⟨vs, xs⟩ := le_of_lor below
      split
      · next goes =>
        rw [← Xgcd.word_eq (walk.llabs_v fits close)] at vs
        rw [← Xgcd.word_eq (walk.llabs_x fits close)] at xs
        have next := walk.next fits close gain vs xs goes.1 goes.2
        exact ih next (by dsimp only; omega)
      · exact ⟨_, rfl⟩
    · exact ⟨_, rfl⟩

/-- `calc_uvwx` finds a matrix of determinant one for all words that stand for a form. -/
theorem calcUvwx_total (fits : Fits w) : ∃ m, calcUvwx w.a w.b w.c = .done m ∧ Unimodular m := by
  obtain ⟨m, run⟩ := calcLoop_total (w.c.natAbs + 2) fits fits.walk (by omega)
  exact ⟨m, run, calcLoop_unimodular _ unimodular_one run⟩

end Cofactors

end ChiaVdf.Reducer
