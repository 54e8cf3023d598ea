import ChiaVdf.Gcd128

/-! `gcd_unsigned`: Euclid's algorithm on numbers of a fixed number of limbs, until the second one is not
above the threshold. The quotients are found in groups on the leading 128 bits; `gcd_unsigned_slow` takes
them one by one. -/
namespace ChiaVdf

open Lehmer

/-- `ab`, `uv` and the parity. -/
@[ext] structure GcdState where
  a : ℤ
  b : ℤ
  u0 : ℤ
  u1 : ℤ
  parity : ℤ
  deriving DecidableEq

/-- `int_t(..)`, and `*=`: the limbs above are lost, the sign stays. -/
def truncated (size : ℕ) (v : ℤ) : ℤ := v.tmod (2 ^ (64 * size))

/-- `fixed_integer(const integer&)` -/
def fromInteger (size : ℕ) (v : ℤ) : Exec ℤ :=
  if numBits v ≤ 64 * size then .done v else .fault .assertion

def setNegative (v : ℤ) (negative : Bool) : ℤ := if negative then -|v| else |v|

def window (v : ℤ) (start : ℕ) : ℤ := v / 2 ^ start % 2 ^ 64

/-- `window(shift)|window(shift+64)<<64`: the two have no bits in common. -/
def head128 (v : ℤ) (shift : ℕ) : ℤ := window v shift + window v (shift + 64) * 2 ^ 64

/-- How many bits `gcd_128` does not see. -/
def headShift (a : ℤ) : ℕ := numBits a - 128

/-- `divide_integers` guesses the limbs of a quotient one by one, and then asserts that quotient and remainder are those
of the `integer`s, which on these operands are `mpz_fdiv_q` and `mpz_mod`. -/
def gcdUnsignedSlowTurn (size : ℕ) (s : GcdState) : Exec GcdState := do
  let q ← mpzFdivQ s.a s.b
  let q ← fromInteger size q
  let r ← mpzMod s.a s.b
  let r ← fromInteger size r
  return ⟨s.b, r, s.u1, truncated size (s.u0 + q * s.u1), -s.parity⟩

def gcdUnsignedSlowLoop (size : ℕ) (threshold : ℤ) : ℕ → GcdState → Exec GcdState
  | 0, _ => .diverged
  | fuel + 1, s =>
    if s.b > threshold then gcdUnsignedSlowTurn size s >>= gcdUnsignedSlowLoop size threshold fuel
    else .done s

def gcdUnsignedSlow (size : ℕ) (threshold : ℤ) (fuel : ℕ) (s : GcdState) : Exec GcdState :=
  if s.a > threshold then gcdUnsignedSlowLoop size threshold fuel s else .fault .assertion

/-- The remainders that a matrix leads to: differences of products without their high limbs. -/
def newRemainders (size : ℕ) (a b : ℤ) (uv : Matrix2) (even : Bool) : ℤ × ℤ :=
  let aNew1 := setNegative (truncated size (a * uv.m00)) (!even)
  let aNew2 := setNegative (truncated size (b * uv.m01)) even
  let bNew1 := setNegative (truncated size (a * uv.m10)) even
  let bNew2 := setNegative (truncated size (b * uv.m11)) (!even)
  if !even then (truncated size (aNew2 + aNew1), truncated size (bNew1 + bNew2))
  else (truncated size (aNew1 + aNew2), truncated size (bNew2 + bNew1))

def dot (size : ℕ) (ax ay bx by' : ℤ) : ℤ :=
  truncated size (truncated size (bx * ax) + truncated size (by' * ay))

/-- One turn of `gcd_unsigned`: the new state, or `valid` where the loop is left. -/
def gcdUnsignedTurn (m : GcdBase) (size : ℕ) (threshold : ℤ) (s : GcdState) :
    Exec (Bool ⊕ GcdState) :=
  if ¬(s.a ≥ s.b ∧ ¬s.b < 0) then .fault .assertion
  else if s.a ≤ threshold then .done (.inl false)
  else if s.b ≤ threshold then .done (.inl true)
  else do
    let shift := headShift s.a
    match ← gcd128 m (head128 s.a shift, head128 s.b shift) (decide (shift ≠ 0))
        (head128 threshold shift) with
    | none => return .inl false
    | some (uv, localParity) =>
      let ab := newRemainders size s.a s.b uv (decide (localParity = 0))
      if ab.1 < 0 then .fault .assertion
      else if ab.2 < 0 then .fault .assertion
      else return .inr ⟨ab.1, ab.2, dot size uv.m00 uv.m01 s.u0 s.u1, dot size uv.m10 uv.m11 s.u0 s.u1,
        s.parity * (1 - localParity - localParity)⟩

/-- The loop: `valid` and the state it is left in. -/
def gcdUnsignedLoop (m : GcdBase) (size : ℕ) (threshold : ℤ) : ℕ → GcdState → Exec (Bool × GcdState)
  | 0, _ => .diverged
  | fuel + 1, s => do
    match ← gcdUnsignedTurn m size threshold s with
    | .inl valid => return (valid, s)
    | .inr s' => gcdUnsignedLoop m size threshold fuel s'

/-- The slow algorithm is run in any case: to compare with, or for its result. -/
def gcdUnsigned (m : GcdBase) (size : ℕ) (threshold : ℤ) (fuel : ℕ) (s : GcdState) : Exec GcdState :=
  if ¬(s.a ≥ s.b ∧ ¬s.b < 0) then .fault .assertion
  else if ¬(¬s.a < 0 ∧ ¬s.b < 0) then .fault .assertion
  else if ¬(¬s.u0 < 0 ∧ ¬s.u1 < 0) then .fault .assertion
  else do
    let (valid, s1) ← gcdUnsignedLoop m size threshold fuel s
    let s2 ← gcdUnsignedSlow size threshold fuel s
    if valid then if s1 = s2 then return s1 else .fault .assertion
    else return s2

/-- What the type of the numbers and the assertions at the start promise. -/
structure GcdState.Fits (size : ℕ) (s : GcdState) : Prop where
  nonneg : 0 ≤ s.b
  le : s.b ≤ s.a
  a_lt : s.a < 2 ^ (64 * size)
  u0_nonneg : 0 ≤ s.u0
  u0_lt : s.u0 < 2 ^ (64 * size)
  u1_nonneg : 0 ≤ s.u1
  u1_lt : s.u1 < 2 ^ (64 * size)

/-- The state that the quotients lead to. -/
def GcdState.after (size : ℕ) (qs : List ℤ) (a b : ℤ) (s : GcdState) : GcdState :=
  ⟨a, b, (cofactors qs (s.u0, s.u1)).1 % 2 ^ (64 * size), (cofactors qs (s.u0, s.u1)).2 % 2 ^ (64 * size),
    s.parity * sign qs⟩

section Heads

variable {a b : ℤ}

theorem head128_eq (v : ℤ) (shift : ℕ) : head128 v shift = v / 2 ^ shift % 2 ^ 128 := by
  have high : v / 2 ^ (shift + 64) = v / 2 ^ shift / 2 ^ 64 := by
    rw [pow_add, Int.ediv_ediv_of_nonneg (by positivity)]
  rw [head128, window, window, high]
  omega

theorem head128_of_le (nonneg : 0 ≤ b) (le : b ≤ a) : head128 b (headShift a) = b / 2 ^ headShift a := by
  have bits : numBits a ≤ 128 + headShift a := by
    unfold headShift
    omega
  have pos : (0 : ℤ) < 2 ^ headShift a := by positivity
  have small : b < 2 ^ 128 * 2 ^ headShift a := by
    rw [← pow_add]
    exact (le.trans_lt (lt_two_pow_sizeinbase2 (nonneg.trans le))).trans_le
      (pow_le_pow_right₀ (by norm_num) bits)
  rw [head128_eq, Int.emod_eq_of_lt (Int.ediv_nonneg nonneg pos.le)
    ((Int.ediv_lt_iff_lt_mul pos).mpr small)]

/-- A matrix that is accepted on the heads is that of the next quotients of the whole numbers. -/
theorem gcd128_head_quotients {m : GcdBase} {threshold : ℤ} {uv : Matrix2} {parity : ℕ}
    (nonneg : 0 ≤ b) (le : b ≤ a)
    (run : gcd128 m (head128 a (headShift a), head128 b (headShift a)) (decide (headShift a ≠ 0))
      threshold = .done (some (uv, parity))) :
    ∃ qs a' b', qs ≠ [] ∧ Quotients a b qs a' b' ∧ uv = magnitudes qs ∧ parity = qs.length % 2 := by
  have fits : head128 a (headShift a) < 2 ^ 128 := by
    rw [head128_eq]
    exact Int.emod_lt_of_pos _ (by norm_num)
  rw [head128_of_le nonneg le, head128_of_le (nonneg.trans le) le_rfl] at run
  rw [head128_of_le (nonneg.trans le) le_rfl] at fits
  generalize headShift a = shift at run fits
  have pos : (0 : ℤ) < 2 ^ shift := by positivity
  have order : b / 2 ^ shift ≤ a / 2 ^ shift := Int.ediv_le_ediv pos le
  obtain ⟨qs, a', b', any, quotients, whole, odd, passes⟩ :=
    gcd128_quotients (Int.ediv_nonneg nonneg pos.le) order fits run
  by_cases exact : shift = 0
  · subst exact
    rw [pow_zero, Int.ediv_one, Int.ediv_one] at quotients
    exact ⟨qs, a', b', any, quotients, whole, odd⟩
  · obtain ⟨a'', b'', -, full⟩ := quotients_of_passes quotients order (passes (decide_eq_true exact))
      (Int.emod_nonneg a pos.ne') (Int.emod_lt_of_pos a pos) (Int.emod_nonneg b pos.ne')
      (Int.emod_lt_of_pos b pos) any
    rw [Int.ediv_mul_add_emod, Int.ediv_mul_add_emod] at full
    exact ⟨qs, a'', b'', any, full, whole, odd⟩

end Heads

section Limbs

variable {size : ℕ} {p q r : ℤ}

theorem truncated_of_nonneg (nonneg : 0 ≤ p) : truncated size p = p % 2 ^ (64 * size) :=
  Int.tmod_eq_emod_of_nonneg nonneg

theorem truncated_sub (p0 : 0 ≤ p) (q0 : 0 ≤ q) (r0 : 0 ≤ r) (r_lt : r < 2 ^ (64 * size))
    (exact : p - q = r)
    (nonneg : 0 ≤ truncated size (setNegative (truncated size p) false + setNegative (truncated size q) true)) :
    truncated size (setNegative (truncated size p) false + setNegative (truncated size q) true) = r := by
  have pos : (0 : ℤ) < 2 ^ (64 * size) := by positivity
  rw [truncated_of_nonneg p0, truncated_of_nonneg q0] at *
  have pLow := Int.emod_nonneg p pos.ne'
  have qLow := Int.emod_nonneg q pos.ne'
  have pHigh := Int.emod_lt_of_pos p pos
  have qHigh := Int.emod_lt_of_pos q pos
  simp only [setNegative, Bool.false_eq_true, if_false, if_true, abs_of_nonneg pLow, abs_of_nonneg qLow,
    ← sub_eq_add_neg, truncated] at nonneg ⊢
  have whole : (p % 2 ^ (64 * size) - q % 2 ^ (64 * size)).tmod (2 ^ (64 * size)) =
      p % 2 ^ (64 * size) - q % 2 ^ (64 * size) := by
    rcases le_total (q % 2 ^ (64 * size)) (p % 2 ^ (64 * size)) with le | le
    · exact Int.tmod_eq_of_lt (by omega) (by omega)
    · rw [← neg_sub, Int.neg_tmod, Int.tmod_eq_of_lt (by omega) (by omega)]
  rw [whole] at nonneg ⊢
  calc p % 2 ^ (64 * size) - q % 2 ^ (64 * size)
    _ = (p % 2 ^ (64 * size) - q % 2 ^ (64 * size)) % 2 ^ (64 * size) :=
      (Int.emod_eq_of_lt nonneg (by omega)).symm
    _ = r := by rw [← Int.sub_emod, exact, Int.emod_eq_of_lt r0 r_lt]

theorem dot_eq {ax ay bx by' : ℤ} (ax0 : 0 ≤ ax) (ay0 : 0 ≤ ay) (bx0 : 0 ≤ bx) (by0 : 0 ≤ by') :
    dot size ax ay bx by' = (bx * ax + by' * ay) % 2 ^ (64 * size) := by
  have pos : (0 : ℤ) < 2 ^ (64 * size) := by positivity
  rw [dot, truncated_of_nonneg (mul_nonneg bx0 ax0), truncated_of_nonneg (mul_nonneg by0 ay0),
    truncated_of_nonneg (add_nonneg (Int.emod_nonneg _ pos.ne') (Int.emod_nonneg _ pos.ne')),
    ← Int.add_emod]

/-- The signs that the products are given turn the differences around for an odd number of quotients. -/
theorem newRemainders_eq {a b a' b' : ℤ} {qs : List ℤ} (run : Quotients a b qs a' b') (nonneg : 0 ≤ b)
    (le : b ≤ a) (a_lt : a < 2 ^ (64 * size))
    (first : ¬(newRemainders size a b (magnitudes qs) (decide (qs.length % 2 = 0))).1 < 0)
    (second : ¬(newRemainders size a b (magnitudes qs) (decide (qs.length % 2 = 0))).2 < 0) :
    newRemainders size a b (magnitudes qs) (decide (qs.length % 2 = 0)) = (a', b') := by
  obtain ⟨low, order, -, top, -⟩ := run.bounds nonneg le
  obtain ⟨u1, u2, v1, v2, -⟩ := cofactors_nonneg (run.one_le le)
  obtain ⟨ra, rb⟩ := run.remainders
  have a0 : 0 ≤ a := nonneg.trans le
  have v2' : 0 ≤ (vs qs).2 := by omega
  unfold newRemainders at *
  by_cases even : qs.length % 2 = 0
  · rw [sign_even even, one_mul] at ra rb
    simp only [decide_eq_true even, Bool.not_true, Bool.false_eq_true, if_false, magnitudes,
      not_lt] at first second ⊢
    rw [truncated_sub (mul_nonneg a0 u1) (mul_nonneg nonneg v1) (low.trans order) (by omega)
        (by rw [ra]; ring) first,
      truncated_sub (mul_nonneg nonneg v2') (mul_nonneg a0 u2) low (by omega) (by rw [rb]; ring) second]
  · rw [sign_odd even] at ra rb
    simp only [decide_eq_false even, Bool.not_false, if_true, magnitudes, not_lt] at first second ⊢
    rw [truncated_sub (mul_nonneg nonneg v1) (mul_nonneg a0 u1) (low.trans order) (by omega)
        (by rw [ra]; ring) first,
      truncated_sub (mul_nonneg a0 u2) (mul_nonneg nonneg v2') low (by omega) (by rw [rb]; ring) second]

end Limbs

section After

variable {size : ℕ} {s : GcdState} {qs rs : List ℤ} {a b a' b' : ℤ}

theorem GcdState.Fits.after_nil (fits : s.Fits size) : s.after size [] s.a s.b = s := by
  ext <;> simp only [GcdState.after, cofactors, List.foldl_nil, sign_nil, mul_one,
    Int.emod_eq_of_lt fits.u0_nonneg fits.u0_lt, Int.emod_eq_of_lt fits.u1_nonneg fits.u1_lt]

theorem GcdState.after_after :
    (s.after size qs a b).after size rs a' b' = s.after size (qs ++ rs) a' b' := by
  have congr (x y c d : ℤ) : (x % 2 ^ (64 * size) * c + y % 2 ^ (64 * size) * d) % 2 ^ (64 * size) =
      (x * c + y * d) % 2 ^ (64 * size) :=
    ((Int.mod_modEq x _).mul_right c).add ((Int.mod_modEq y _).mul_right d)
  rw [GcdState.after, GcdState.after, GcdState.after, cofactors_append, cofactors_eq rs, cofactors_eq rs,
    congr, congr, sign_append, mul_assoc]

theorem GcdState.Fits.after (fits : s.Fits size) (run : Quotients s.a s.b qs a' b') :
    (s.after size qs a' b').Fits size := by
  obtain ⟨low, order, -, top, -⟩ := run.bounds fits.nonneg fits.le
  have pos : (0 : ℤ) < 2 ^ (64 * size) := by positivity
  exact ⟨low, order, top.trans_lt fits.a_lt, Int.emod_nonneg _ pos.ne', Int.emod_lt_of_pos _ pos,
    Int.emod_nonneg _ pos.ne', Int.emod_lt_of_pos _ pos⟩

end After

section Slow

variable {size fuel fuel' : ℕ} {threshold : ℤ} {s t t' : GcdState} {qs : List ℤ} {a b a' b' : ℤ}

theorem fromInteger_done {v : ℤ} (pos : 0 < size) (nonneg : 0 ≤ v) (lt : v < 2 ^ (64 * size)) :
    fromInteger size v = .done v := by
  refine if_pos ((natAbs_lt_iff_sizeinbase2_le (by omega)).mp ?_)
  zify
  rwa [abs_of_nonneg nonneg]

theorem GcdState.Fits.slowTurn (fits : s.Fits size) (pos : 0 < s.b) :
    gcdUnsignedSlowTurn size s = .done (s.after size [s.a / s.b] s.b (s.a % s.b)) := by
  have a_lt := fits.a_lt
  have le := fits.le
  have limbs : 0 < size := by
    rcases Nat.eq_zero_or_pos size with rfl | pos'
    · rw [Nat.mul_zero, pow_zero] at a_lt
      omega
    · exact pos'
  have a0 : 0 ≤ s.a := fits.nonneg.trans le
  have quotient : 0 ≤ s.a / s.b := Int.ediv_nonneg a0 fits.nonneg
  have quotient_le : s.a / s.b ≤ s.a := Int.ediv_le_self _ a0
  have remainder := Int.emod_lt_of_pos s.a pos
  have sum : 0 ≤ s.u0 + s.a / s.b * s.u1 :=
    add_nonneg fits.u0_nonneg (mul_nonneg quotient fits.u1_nonneg)
  rw [gcdUnsignedSlowTurn, mpzFdivQ_pos pos, Exec.done_bind, fromInteger_done limbs quotient (by omega),
    Exec.done_bind, mpzMod_done pos.ne', Exec.done_bind,
    fromInteger_done limbs (Int.emod_nonneg _ pos.ne') (by omega), Exec.done_bind, Exec.pure_eq,
    truncated_of_nonneg sum]
  simp only [GcdState.after, cofactors, List.foldl_cons, List.foldl_nil, step, sign_cons, sign_nil,
    mul_neg, mul_one, Int.emod_eq_of_lt fits.u1_nonneg fits.u1_lt]

/-- The slow algorithm takes the quotients one by one as long as they stay above the threshold. -/
theorem slowLoop_after (run : Quotients a b qs a' b') (fits : s.Fits size) (ha : s.a = a) (hb : s.b = b)
    (above : threshold < a') : gcdUnsignedSlowLoop size threshold (fuel + qs.length) s =
      gcdUnsignedSlowLoop size threshold fuel (s.after size qs a' b') := by
  induction run generalizing s with
  | nil =>
    subst ha hb
    rw [fits.after_nil, List.length_nil, Nat.add_zero]
  | @cons a b a' b' qs pos rest ih =>
    subst ha hb
    have next := fits.after (.cons pos (.nil s.b (s.a % s.b)))
    obtain ⟨-, -, -, le, -⟩ := rest.bounds (Int.emod_nonneg _ pos.ne') (Int.emod_lt_of_pos _ pos).le
    rw [List.length_cons, ← Nat.add_assoc, gcdUnsignedSlowLoop, if_pos (by omega), fits.slowTurn pos,
      Exec.done_bind, ih next rfl rfl above, GcdState.after_after]
    rfl

theorem slowLoop_mono (run : gcdUnsignedSlowLoop size threshold fuel s = .done t) (le : fuel ≤ fuel') :
    gcdUnsignedSlowLoop size threshold fuel' s = .done t := by
  induction fuel generalizing s fuel' with
  | zero => cases run
  | succ fuel ih =>
    obtain ⟨fuel', rfl⟩ := Nat.exists_eq_add_of_le' le
    rw [gcdUnsignedSlowLoop] at run
    rw [Nat.add_succ, gcdUnsignedSlowLoop]
    split at run
    case isTrue more =>
      obtain ⟨next, turn, rest⟩ := Exec.bind_eq_done.mp run
      rw [if_pos more, turn, Exec.done_bind]
      exact ih rest (Nat.le_add_left _ _)
    case isFalse ended => rwa [if_neg ended]

theorem slowLoop_unique (run : gcdUnsignedSlowLoop size threshold fuel s = .done t)
    (run' : gcdUnsignedSlowLoop size threshold fuel' s = .done t') : t = t' :=
  Exec.done.inj ((slowLoop_mono run (Nat.le_max_left fuel fuel')).symm.trans
    (slowLoop_mono run' (Nat.le_max_right fuel fuel')))

/-- The second number gets smaller with each turn. -/
theorem slowLoop_done (fits : s.Fits size) (t0 : 0 ≤ threshold) (enough : s.b.toNat < fuel) :
    ∃ t, gcdUnsignedSlowLoop size threshold fuel s = .done t := by
  induction fuel generalizing s with
  | zero => omega
  | succ fuel ih =>
    rw [gcdUnsignedSlowLoop]
    split
    case isTrue more =>
      have pos : 0 < s.b := by omega
      have small := Int.emod_lt_of_pos s.a pos
      rw [fits.slowTurn pos, Exec.done_bind]
      refine ih (fits.after (.cons pos (.nil s.b (s.a % s.b)))) ?_
      change (s.a % s.b).toNat < fuel
      omega
    case isFalse ended => exact ⟨s, rfl⟩

end Slow

section Loop

variable {m : GcdBase} {size fuel : ℕ} {threshold : ℤ} {s s' : GcdState} {valid : Bool}

/-- One turn takes the numbers over the next quotients, at least one of them. -/
theorem gcdUnsignedTurn_next (fits : s.Fits size)
    (turn : gcdUnsignedTurn m size threshold s = .done (.inr s')) :
    threshold < s.a ∧ threshold < s.b ∧ ∃ qs a b, qs ≠ [] ∧ Quotients s.a s.b qs a b ∧
      s' = s.after size qs a b := by
  unfold gcdUnsignedTurn at turn
  split at turn
  · cases turn
  split at turn
  · cases turn
  split at turn
  · cases turn
  case isFalse aAbove bAbove =>
  obtain ⟨accepted, run, rest⟩ := Exec.bind_eq_done.mp turn
  cases accepted with
  | none => cases rest
  | some accepted =>
    obtain ⟨uv, parity⟩ := accepted
    obtain ⟨qs, a, b, any, quotients, rfl, rfl⟩ := gcd128_head_quotients fits.nonneg fits.le run
    obtain ⟨u1, u2, v1, v2, -⟩ := cofactors_nonneg (quotients.one_le fits.le)
    simp only [] at rest
    split at rest
    · cases rest
    case isFalse first =>
    split at rest
    · cases rest
    case isFalse second =>
    have remainders := newRemainders_eq quotients fits.nonneg fits.le fits.a_lt first second
    refine ⟨by omega, by omega, qs, a, b, any, quotients, ?_⟩
    rw [← Sum.inr.inj (Exec.done.inj rest), remainders]
    simp only [magnitudes]
    rw [dot_eq u1 v1 fits.u0_nonneg fits.u1_nonneg, dot_eq u2 (by omega) fits.u0_nonneg fits.u1_nonneg]
    ext
    · rfl
    · rfl
    · simp only [GcdState.after, cofactors_eq qs]
    · simp only [GcdState.after, cofactors_eq qs]
    · by_cases even : qs.length % 2 = 0
      · simp [GcdState.after, sign_even even, even]
      · have odd : qs.length % 2 = 1 := by omega
        simp [GcdState.after, sign_odd even, odd]

theorem gcdUnsignedTurn_left (turn : gcdUnsignedTurn m size threshold s = .done (.inl true)) :
    threshold < s.a ∧ s.b ≤ threshold := by
  unfold gcdUnsignedTurn at turn
  split at turn
  · cases turn
  split at turn
  · cases turn
  split at turn
  case isTrue aAbove bBelow => exact ⟨not_le.mp aAbove, bBelow⟩
  obtain ⟨accepted, -, rest⟩ := Exec.bind_eq_done.mp turn
  cases accepted with
  | none => cases rest
  | some accepted =>
    obtain ⟨uv, parity⟩ := accepted
    simp only [] at rest
    split at rest
    · cases rest
    split at rest <;> cases rest

/-- A loop that is left as valid is left where the slow algorithm ends. -/
theorem gcdUnsignedLoop_valid (fits : s.Fits size)
    (loop : gcdUnsignedLoop m size threshold fuel s = .done (true, s')) :
    threshold < s.a ∧ threshold < s'.a ∧ s'.b ≤ threshold ∧
      ∃ turns, gcdUnsignedSlowLoop size threshold turns s = .done s' := by
  induction fuel generalizing s with
  | zero => cases loop
  | succ fuel ih =>
    rw [gcdUnsignedLoop] at loop
    obtain ⟨next, turn, rest⟩ := Exec.bind_eq_done.mp loop
    cases next with
    | inl valid =>
      obtain ⟨rfl, rfl⟩ := Prod.mk.inj (Exec.done.inj rest)
      obtain ⟨above, ended⟩ := gcdUnsignedTurn_left turn
      exact ⟨above, above, ended, 1, if_neg (not_lt.mpr ended)⟩
    | inr next =>
      obtain ⟨above, -, qs, a, b, -, quotients, rfl⟩ := gcdUnsignedTurn_next fits turn
      obtain ⟨nextAbove, last, ended, turns, slow⟩ := ih (fits.after quotients) rest
      exact ⟨above, last, ended, turns + qs.length,
        (slowLoop_after quotients fits rfl rfl nextAbove).trans slow⟩

theorem gcdUnsignedTurn_ends : gcdUnsignedTurn m size threshold s ≠ .diverged := by
  unfold gcdUnsignedTurn
  split
  · nofun
  split
  · nofun
  split
  · nofun
  intro turn
  rcases Exec.bind_eq_diverged.mp turn with early | ⟨accepted, -, rest⟩
  · exact gcd128_ends early
  · cases accepted with
    | none => cases rest
    | some accepted =>
      obtain ⟨uv, parity⟩ := accepted
      simp only [] at rest
      split at rest
      · cases rest
      split at rest <;> cases rest

theorem gcdUnsignedLoop_ends (fits : s.Fits size) (enough : s.b.toNat < fuel) :
    gcdUnsignedLoop m size threshold fuel s ≠ .diverged := by
  induction fuel generalizing s with
  | zero => omega
  | succ fuel ih =>
    rw [gcdUnsignedLoop]
    intro loop
    rcases Exec.bind_eq_diverged.mp loop with early | ⟨next, turn, rest⟩
    · exact gcdUnsignedTurn_ends early
    · cases next with
      | inl valid => cases rest
      | inr next =>
        obtain ⟨-, -, qs, a, b, any, quotients, rfl⟩ := gcdUnsignedTurn_next fits turn
        obtain ⟨low, -, -, -, strict⟩ := quotients.bounds fits.nonneg fits.le
        obtain ⟨-, smaller, -⟩ := strict any
        refine ih (fits.after quotients) ?_ rest
        change b.toNat < fuel
        omega

theorem gcdUnsigned_eq_slow (fits : s.Fits size) (t0 : 0 ≤ threshold) (above : threshold < s.a)
    (enough : s.b.toNat < fuel)
    (loop : gcdUnsignedLoop m size threshold fuel s = .done (valid, s')) :
    gcdUnsigned m size threshold fuel s = gcdUnsignedSlow size threshold fuel s := by
  have nonneg := fits.nonneg
  have le := fits.le
  have u0 := fits.u0_nonneg
  have u1 := fits.u1_nonneg
  obtain ⟨t, slow⟩ := slowLoop_done fits t0 enough
  have whole : gcdUnsignedSlow size threshold fuel s = .done t := (if_pos above).trans slow
  rw [gcdUnsigned, if_neg (by omega), if_neg (by omega), if_neg (by omega), loop, Exec.done_bind, whole]
  cases valid with
  | false => rfl
  | true =>
    obtain ⟨-, -, -, turns, slow'⟩ := gcdUnsignedLoop_valid fits loop
    obtain rfl : s' = t := slowLoop_unique slow' slow
    exact if_pos rfl

end Loop

/-- For all tails of the two numbers and every threshold below them: the groups of quotients that are found
on the heads are the next ones, and a loop that is left as valid is left in the state in which the slow
algorithm ends. Both come to an end. -/
theorem gcdUnsigned_agrees (m : GcdBase) (size : ℕ) {threshold : ℤ} {s : GcdState} (fits : s.Fits size)
    (t0 : 0 ≤ threshold) (above : threshold < s.a) :
    (∀ uv parity, gcd128 m (head128 s.a (headShift s.a), head128 s.b (headShift s.a))
        (decide (headShift s.a ≠ 0)) (head128 threshold (headShift s.a)) = .done (some (uv, parity)) →
      ∃ qs a b, qs ≠ [] ∧ Quotients s.a s.b qs a b ∧ uv = magnitudes qs ∧ parity = qs.length % 2) ∧
    (∀ fuel s', gcdUnsignedLoop m size threshold fuel s = .done (true, s') →
      threshold < s'.a ∧ s'.b ≤ threshold ∧
        ∀ fuel' > s.b.toNat, gcdUnsignedSlow size threshold fuel' s = .done s') ∧
    ∀ fuel > s.b.toNat, gcdUnsignedLoop m size threshold fuel s ≠ .diverged := by
  refine ⟨fun uv parity run => gcd128_head_quotients fits.nonneg fits.le run, fun fuel s' loop => ?_,
    fun fuel enough => gcdUnsignedLoop_ends fits enough⟩
  obtain ⟨-, last, ended, turns, slow⟩ := gcdUnsignedLoop_valid fits loop
  refine ⟨last, ended, fun fuel' enough => ?_⟩
  obtain ⟨t, whole⟩ := slowLoop_done fits t0 enough
  rw [gcdUnsignedSlow, if_pos above, whole, slowLoop_unique slow whole]

/-- A base case that stops after one quotient. -/
def oneQuotient : GcdBase where
  gcdBaseBits := 50
  gcd128MaxIter := 3
  toDouble n := n
  baseCase a b isLehmer threshold :=
    let uv := quotientMatrix (a / b)
    if threshold < b ∧ 0 < b ∧ a ≤ 2 ^ 53 - 1 ∧
        (isLehmer = true → checkLehmer (b, a % b) (uv.m00, uv.m10) (uv.m01, uv.m11) = true) then some uv
    else none
  bits_le := by decide
  toDouble_small _ _ _ := rfl
  toDouble_large _ large := large
  baseCase_range a b isLehmer threshold uv run := by
    simp only [Option.ite_none_right_eq_some] at run
    exact run.1.2.2.1
  baseCase_exact a b isLehmer threshold uv _ _ run := by
    simp only [Option.ite_none_right_eq_some] at run
    obtain ⟨⟨-, pos, -, check⟩, matrix⟩ := run
    obtain rfl := Option.some.inj matrix
    refine ⟨[a / b], b, a % b, List.cons_ne_nil _ _, .cons pos (.nil _ _), ?_, check⟩
    simp [productMatrix, quotientMatrix, identityMatrix, Matrix2.mul]

/-- Eight quotients in three turns, the last of which takes an even number of them. -/
theorem gcdUnsigned_agrees_three_limbs :
    gcdUnsignedLoop oneQuotient 3 (3 * 2 ^ 160) 4 ⟨5741 * (2 ^ 160 + 12345), 2378 * (2 ^ 160 + 12345), 1, 0, 1⟩ =
      .done (true, ⟨5 * (2 ^ 160 + 12345), 2 * (2 ^ 160 + 12345), 169, 408, 1⟩) ∧
    ∀ fuel > (2378 * (2 ^ 160 + 12345) : ℤ).toNat,
      gcdUnsignedSlow 3 (3 * 2 ^ 160) fuel ⟨5741 * (2 ^ 160 + 12345), 2378 * (2 ^ 160 + 12345), 1, 0, 1⟩ =
        .done ⟨5 * (2 ^ 160 + 12345), 2 * (2 ^ 160 + 12345), 169, 408, 1⟩ := by
  have loop : gcdUnsignedLoop oneQuotient 3 (3 * 2 ^ 160) 4
      ⟨5741 * (2 ^ 160 + 12345), 2378 * (2 ^ 160 + 12345), 1, 0, 1⟩ =
      .done (true, ⟨5 * (2 ^ 160 + 12345), 2 * (2 ^ 160 + 12345), 169, 408, 1⟩) := by decide +kernel
  exact ⟨loop, ((gcdUnsigned_agrees oneQuotient 3 ⟨by decide, by decide, by decide, by decide, by decide,
    by decide, by decide⟩ (by decide) (by decide)).2.1 4 _ loop).2.2⟩

end ChiaVdf
