import ChiaVdf.Integer
import ChiaVdf.Lehmer

/-! `gcd_128`: quotients of two 128-bit numbers, found by the base case on their leading 50 or 63 bits and
collected as a matrix of 64-bit cofactors. -/
namespace ChiaVdf

open Lehmer

/-- `matrix2`, or the same of 64-bit numbers. -/
@[ext] structure Matrix2 where
  m00 : ℤ
  m01 : ℤ
  m10 : ℤ
  m11 : ℤ
  deriving DecidableEq

def identityMatrix : Matrix2 := ⟨1, 0, 0, 1⟩

def quotientMatrix (q : ℤ) : Matrix2 := ⟨0, 1, 1, -q⟩

namespace Matrix2

def mul (a b : Matrix2) : Matrix2 :=
  ⟨a.m00 * b.m00 + a.m01 * b.m10, a.m00 * b.m01 + a.m01 * b.m11,
    a.m10 * b.m00 + a.m11 * b.m10, a.m10 * b.m01 + a.m11 * b.m11⟩

def abs (a : Matrix2) : Matrix2 := ⟨|a.m00|, |a.m01|, |a.m10|, |a.m11|⟩

end Matrix2

/-- What 64 bits hold. -/
def uint64Exact (v : ℤ) : Option ℤ := if v < 2 ^ 64 then some v else none

/-- `dot_product_exact` of 64-bit numbers. -/
def dotProductExact (a0 a1 b0 b1 : ℤ) : Option ℤ := do
  let t1 ← uint64Exact (a0 * b0)
  let t2 ← uint64Exact (a1 * b1)
  uint64Exact (t1 + t2)

/-- `multiply_exact` of two matrices of 64-bit numbers. -/
def multiplyExact (a b : Matrix2) : Option Matrix2 := do
  let v00 ← dotProductExact a.m00 a.m01 b.m00 b.m10
  let v01 ← dotProductExact a.m00 a.m01 b.m01 b.m11
  let v10 ← dotProductExact a.m10 a.m11 b.m00 b.m10
  let v11 ← dotProductExact a.m10 a.m11 b.m01 b.m11
  return ⟨v00, v01, v10, v11⟩

/-- `check_lehmer`: the tests of both parities. -/
def checkLehmer (a u v : ℤ × ℤ) : Bool :=
  a.2 ≥ -u.2 ∧ a.1 - a.2 ≥ v.2 - v.1 ∧ a.2 ≥ -v.2 ∧ a.1 - a.2 ≥ u.2 - u.1

/-- The matrices of the quotients, multiplied together. -/
def productMatrix (qs : List ℤ) : Matrix2 :=
  qs.foldl (fun uv q => (quotientMatrix q).mul uv) identityMatrix

/-- The cofactors without their signs. -/
def magnitudes (qs : List ℤ) : Matrix2 := ⟨(us qs).1, (vs qs).1, (us qs).2, (vs qs).2⟩

/-- What `gcd_128` runs on: the parameters of the processor, the conversion of a 64-bit number to a
double, which is exact below `2^53` in every rounding mode, and `gcd_base_continued_fraction`, which
returns no matrix where it makes no progress. Its range checks let no larger number through. -/
structure GcdBase where
  gcdBaseBits : ℕ
  gcd128MaxIter : ℕ
  toDouble : ℤ → ℤ
  baseCase : ℤ → ℤ → Bool → ℤ → Option Matrix2
  bits_le : gcdBaseBits ≤ 64
  toDouble_small : ∀ n, 0 ≤ n → n < 2 ^ 53 → toDouble n = n
  toDouble_large : ∀ n, 2 ^ 53 ≤ n → 2 ^ 53 ≤ toDouble n
  baseCase_range : ∀ a b isLehmer threshold uv,
    baseCase a b isLehmer threshold = some uv → a ≤ 2 ^ 53 - 1
  baseCase_exact : ∀ a b isLehmer threshold uv, 0 ≤ b → b ≤ a →
    baseCase a b isLehmer threshold = some uv → ∃ qs a' b', qs ≠ [] ∧ Quotients a b qs a' b' ∧
      uv = productMatrix qs ∧
      (isLehmer = true → checkLehmer (a', b') (uv.m00, uv.m10) (uv.m01, uv.m11) = true)

structure Gcd128State where
  a : ℤ
  b : ℤ
  uv : Matrix2
  parity : ℕ
  progress : Bool
  iter : ℕ

namespace GcdBase

variable (m : GcdBase)

/-- How many bits the base case does not see. -/
def shiftAmount (isLehmer : Bool) (a : ℤ) : ℕ :=
  let aNumBits := numBits a
  let aNumBits := if isLehmer ∧ aNumBits < 96 then 96 else aNumBits
  aNumBits - m.gcdBaseBits

/-- `double(uint64(x>>shift_amount))` -/
def head (x : ℤ) (shift : ℕ) : ℤ := m.toDouble (x / 2 ^ shift % 2 ^ 64)

end GcdBase

/-- The remainders that a matrix leads to, in 128 bits that wrap around. -/
def remainders128 (start : ℤ × ℤ) (uv : Matrix2) (even : Bool) : ℤ × ℤ :=
  let aNew1 := start.1 * uv.m00 % 2 ^ 128
  let aNew2 := start.2 * uv.m01 % 2 ^ 128
  let bNew1 := start.2 * uv.m11 % 2 ^ 128
  let bNew2 := start.1 * uv.m10 % 2 ^ 128
  if even then ((aNew1 - aNew2) % 2 ^ 128, (bNew1 - bNew2) % 2 ^ 128)
  else ((aNew2 - aNew1) % 2 ^ 128, (bNew2 - bNew1) % 2 ^ 128)

def passedEven (uv : Matrix2) (aNew bNew : ℤ) : Bool :=
  bNew ≥ uv.m10 ∧ aNew - bNew ≥ uv.m11 + uv.m01

def passedOdd (uv : Matrix2) (aNew bNew : ℤ) : Bool :=
  bNew ≥ uv.m11 ∧ aNew - bNew ≥ uv.m10 + uv.m00

/-- From the new matrix on: nothing is left of a turn that is thrown away. -/
def gcd128Accept (start : ℤ × ℤ) (isLehmer : Bool) (threshold : ℤ) (uv : Matrix2) (parity iter : ℕ) :
    Exec (Option Gcd128State) :=
  let even := decide (parity = 0)
  let aNew := (remainders128 start uv even).1
  let bNew := (remainders128 start uv even).2
  if isLehmer ∧ ¬aNew ≥ bNew then .fault .assertion
  else if isLehmer ∧ ¬(if even then passedEven uv aNew bNew else passedOdd uv aNew bNew) then .done none
  else if aNew ≤ threshold then .done none
  else .done (some ⟨aNew, bNew, uv, parity, true, iter + 1⟩)

/-- One turn of `gcd_128`: no state where the loop is left without a new matrix. -/
def gcd128Turn (m : GcdBase) (start : ℤ × ℤ) (isLehmer : Bool) (threshold : ℤ) (s : Gcd128State) :
    Exec (Option Gcd128State) :=
  if s.b ≤ threshold then .done none
  else if ¬(s.a ≥ s.b ∧ s.b ≥ 0) then .fault .assertion
  else if s.a = 0 then .fault .assertion
  else
    let shift := m.shiftAmount isLehmer s.a
    match m.baseCase (m.head s.a shift) (m.head s.b shift) (isLehmer || decide (shift ≠ 0))
        (m.head threshold shift) with
    | none => .done none
    | some uvDouble =>
      let uvDoubleInt := uvDouble.abs
      let uvDoubleParity := if uvDouble.m11 < 0 then 1 else 0
      match if s.iter = 0 then some uvDoubleInt else multiplyExact uvDoubleInt s.uv with
      | none => .done none
      | some uvNew => gcd128Accept start isLehmer threshold uvNew (s.parity ^^^ uvDoubleParity) s.iter

/-- The loop, with the number of turns that may follow this one. -/
def gcd128Loop (m : GcdBase) (start : ℤ × ℤ) (isLehmer : Bool) (threshold : ℤ) (left : ℕ)
    (s : Gcd128State) : Exec Gcd128State := do
  match ← gcd128Turn m start isLehmer threshold s with
  | none => return s
  | some s' =>
    match left with
    | 0 => return s'
    | left + 1 => gcd128Loop m start isLehmer threshold left s'

/-- The cofactors without their signs and the parity of the quotients. -/
def gcd128 (m : GcdBase) (ab : ℤ × ℤ) (isLehmer : Bool) (threshold : ℤ) :
    Exec (Option (Matrix2 × ℕ)) := do
  if ¬(ab.1 ≥ ab.2 ∧ ab.2 ≥ 0) then .fault .assertion
  else
    let s ← gcd128Loop m ab isLehmer threshold (m.gcd128MaxIter - 1) ⟨ab.1, ab.2, identityMatrix, 0, false, 0⟩
    return if s.progress then some (s.uv, s.parity) else none

section Matrices

variable {qs rs : List ℤ}

@[simp] theorem magnitudes_nil : magnitudes [] = identityMatrix := rfl

theorem magnitudes_append (qs rs : List ℤ) :
    magnitudes (qs ++ rs) = (magnitudes rs).mul (magnitudes qs) := by
  simp only [magnitudes, us_append, vs_append, Matrix2.mul]
  ext <;> ring

/-- The signs of the cofactors alternate in both directions. -/
theorem productMatrix_eq (qs : List ℤ) : productMatrix qs =
    ⟨sign qs * (us qs).1, -(sign qs * (vs qs).1), -(sign qs * (us qs).2), sign qs * (vs qs).2⟩ := by
  induction qs using List.reverseRecOn with
  | nil => rfl
  | append_singleton qs q ih =>
    have last : productMatrix (qs ++ [q]) = (quotientMatrix q).mul (productMatrix qs) := by
      rw [productMatrix, List.foldl_append]
      rfl
    rw [last, ih, us_append, vs_append, sign_append]
    simp only [quotientMatrix, Matrix2.mul, us_cons, vs_cons, us_nil, vs_nil, sign_cons, sign_nil]
    ext <;> simp only [] <;> ring

theorem abs_sign_mul (qs : List ℤ) {x : ℤ} (nonneg : 0 ≤ x) : |sign qs * x| = x := by
  rw [abs_mul, sign, abs_pow, abs_neg, abs_one, one_pow, one_mul, abs_of_nonneg nonneg]

theorem productMatrix_abs (ones : ∀ q ∈ qs, 1 ≤ q) : (productMatrix qs).abs = magnitudes qs := by
  obtain ⟨u1, u2, v1, v2, -⟩ := cofactors_nonneg ones
  rw [productMatrix_eq, Matrix2.abs, magnitudes]
  simp only [abs_neg, abs_sign_mul qs u1, abs_sign_mul qs u2, abs_sign_mul qs v1,
    abs_sign_mul qs (by omega : 0 ≤ (vs qs).2)]

theorem productMatrix_parity (ones : ∀ q ∈ qs, 1 ≤ q) :
    (if (productMatrix qs).m11 < 0 then 1 else 0) = qs.length % 2 := by
  obtain ⟨-, -, -, v2, -⟩ := cofactors_nonneg ones
  rw [productMatrix_eq]
  by_cases even : qs.length % 2 = 0
  · rw [sign_even even, if_neg (by simp only []; omega), even]
  · rw [sign_odd even, if_pos (by simp only []; omega)]
    omega

/-- The test of the base case is the one for its parity: the other one is between numbers of opposite signs. -/
theorem passes_of_checkLehmer {a b : ℤ}
    (check : checkLehmer (a, b) ((productMatrix qs).m00, (productMatrix qs).m10)
      ((productMatrix qs).m01, (productMatrix qs).m11) = true) : Passes qs a b := by
  rw [productMatrix_eq, checkLehmer, decide_eq_true_eq] at check
  obtain ⟨evenLast, evenGap, oddLast, oddGap⟩ := check
  unfold Passes
  split
  case isTrue even =>
    rw [sign_even even] at evenLast evenGap
    constructor <;> linarith
  case isFalse odd =>
    rw [sign_odd odd] at oddLast oddGap
    constructor <;> linarith

theorem uint64Exact_some {v w : ℤ} (fits : uint64Exact v = some w) : w = v := by
  unfold uint64Exact at fits
  split at fits
  · exact (Option.some.inj fits).symm
  · cases fits

theorem dotProductExact_some {a0 a1 b0 b1 v : ℤ} (fits : dotProductExact a0 a1 b0 b1 = some v) :
    v = a0 * b0 + a1 * b1 := by
  obtain ⟨t1, first, rest⟩ := Option.bind_eq_some_iff.mp fits
  obtain ⟨t2, second, sum⟩ := Option.bind_eq_some_iff.mp rest
  rw [uint64Exact_some sum, uint64Exact_some first, uint64Exact_some second]

theorem multiplyExact_some {a b v : Matrix2} (fits : multiplyExact a b = some v) : v = a.mul b := by
  obtain ⟨v00, h00, rest⟩ := Option.bind_eq_some_iff.mp fits
  obtain ⟨v01, h01, rest⟩ := Option.bind_eq_some_iff.mp rest
  obtain ⟨v10, h10, rest⟩ := Option.bind_eq_some_iff.mp rest
  obtain ⟨v11, h11, whole⟩ := Option.bind_eq_some_iff.mp rest
  rw [← Option.some.inj whole, dotProductExact_some h00, dotProductExact_some h01,
    dotProductExact_some h10, dotProductExact_some h11]
  rfl

end Matrices

namespace GcdBase

variable (m : GcdBase) {a b threshold : ℤ} {isLehmer : Bool} {uv : Matrix2}

theorem shifted_lt (nonneg : 0 ≤ a) (isLehmer : Bool) : a / 2 ^ m.shiftAmount isLehmer a < 2 ^ 64 := by
  have bits : numBits a ≤ 64 + m.shiftAmount isLehmer a := by
    have := m.bits_le
    unfold shiftAmount
    simp only []
    split <;> omega
  rw [Int.ediv_lt_iff_lt_mul (by positivity), ← pow_add]
  exact (lt_two_pow_sizeinbase2 nonneg).trans_le (pow_le_pow_right₀ (by norm_num) bits)

/-- The quotients of the base case are the next ones of the pair it sees the head of. -/
theorem baseCase_quotients (nonneg : 0 ≤ b) (le : b ≤ a)
    (run : m.baseCase (m.head a (m.shiftAmount isLehmer a)) (m.head b (m.shiftAmount isLehmer a))
      (isLehmer || decide (m.shiftAmount isLehmer a ≠ 0)) threshold = some uv) :
    ∃ qs a' b', qs ≠ [] ∧ Quotients a b qs a' b' ∧ uv = productMatrix qs := by
  have shifted := m.shifted_lt (nonneg.trans le) isLehmer
  generalize m.shiftAmount isLehmer a = shift at run shifted
  have pos : (0 : ℤ) < 2 ^ shift := by positivity
  have order : b / 2 ^ shift ≤ a / 2 ^ shift := Int.ediv_le_ediv pos le
  have low : 0 ≤ b / 2 ^ shift := Int.ediv_nonneg nonneg pos.le
  rw [head, head, Int.emod_eq_of_lt (by omega) shifted, Int.emod_eq_of_lt low (by omega)] at run
  have range := m.baseCase_range _ _ _ _ _ run
  have small : a / 2 ^ shift < 2 ^ 53 := by
    by_contra large
    have := m.toDouble_large _ (not_lt.mp large)
    omega
  rw [m.toDouble_small _ (by omega) small, m.toDouble_small _ low (by omega)] at run
  obtain ⟨qs, a', b', any, quotients, whole, test⟩ := m.baseCase_exact _ _ _ _ _ low order run
  by_cases exact : (isLehmer || decide (shift ≠ 0)) = true
  · have check := test exact
    rw [whole] at check
    obtain ⟨a'', b'', -, full⟩ := quotients_of_passes quotients order (passes_of_checkLehmer check)
      (Int.emod_nonneg a pos.ne') (Int.emod_lt_of_pos a pos) (Int.emod_nonneg b pos.ne')
      (Int.emod_lt_of_pos b pos) any
    rw [Int.ediv_mul_add_emod, Int.ediv_mul_add_emod] at full
    exact ⟨qs, a'', b'', any, full, whole⟩
  · obtain ⟨-, rfl⟩ : isLehmer = false ∧ shift = 0 := by simpa using exact
    rw [pow_zero, Int.ediv_one, Int.ediv_one] at quotients
    exact ⟨qs, a', b', any, quotients, whole⟩

end GcdBase

/-- In 128 bits that wrap around the remainders are exact, as they fit. -/
theorem remainders128_eq {A B a b : ℤ} {qs : List ℤ} (run : Quotients A B qs a b) (nonneg : 0 ≤ B)
    (le : B ≤ A) (fits : A < 2 ^ 128) :
    remainders128 (A, B) (magnitudes qs) (decide (qs.length % 2 = 0)) = (a, b) := by
  obtain ⟨low, order, -, top, -⟩ := run.bounds nonneg le
  obtain ⟨first, second⟩ := run.remainders
  have exact {x : ℤ} (x0 : 0 ≤ x) (x1 : x ≤ A) : x % 2 ^ 128 = x := Int.emod_eq_of_lt x0 (by omega)
  unfold remainders128
  by_cases even : qs.length % 2 = 0
  · rw [sign_even even, one_mul] at first second
    rw [decide_eq_true even, if_pos rfl]
    simp only [magnitudes, ← Int.sub_emod]
    rw [mul_comm A, mul_comm B, mul_comm B, mul_comm A, ← first, ← second, exact (by omega) top,
      exact low (by omega)]
  · rw [sign_odd even] at first second
    rw [decide_eq_false even, if_neg Bool.false_ne_true]
    simp only [magnitudes, ← Int.sub_emod]
    have first' : B * (vs qs).1 - A * (us qs).1 = a := by rw [first]; ring
    have second' : A * (us qs).2 - B * (vs qs).2 = b := by rw [second]; ring
    rw [first', second', exact (by omega) top, exact low (by omega)]

theorem passes_iff (qs : List ℤ) (a b : ℤ) :
    (if decide (qs.length % 2 = 0) then passedEven (magnitudes qs) a b
      else passedOdd (magnitudes qs) a b) = true ↔ Passes qs a b := by
  unfold Passes
  by_cases even : qs.length % 2 = 0
  · rw [decide_eq_true even, if_pos rfl, if_pos even]
    exact decide_eq_true_iff
  · rw [decide_eq_false even, if_neg Bool.false_ne_true, if_neg even]
    exact decide_eq_true_iff

section Loop

variable {m : GcdBase} {A B threshold : ℤ} {isLehmer : Bool} {qs : List ℤ} {s s' : Gcd128State}

/-- What the state of the loop is for the quotients that are found. -/
structure Gcd128State.Holds (A B : ℤ) (isLehmer : Bool) (qs : List ℤ) (s : Gcd128State) : Prop where
  quotients : Quotients A B qs s.a s.b
  uv : s.uv = magnitudes qs
  parity : s.parity = qs.length % 2
  first : s.iter = 0 → qs = []
  accepted : s.progress = true → qs ≠ [] ∧ (isLehmer = true → Passes qs s.a s.b)

theorem gcd128Accept_holds {a b : ℤ} {iter : ℕ} (nonneg : 0 ≤ B) (le : B ≤ A) (fits : A < 2 ^ 128)
    (run : Quotients A B qs a b) (any : qs ≠ [])
    (accept : gcd128Accept (A, B) isLehmer threshold (magnitudes qs) (qs.length % 2) iter =
      .done (some s)) : s.Holds A B isLehmer qs := by
  have passed := passes_iff qs a b
  simp only [gcd128Accept, remainders128_eq run nonneg le fits] at accept
  generalize (if decide (qs.length % 2 = 0) = true then passedEven (magnitudes qs) a b
    else passedOdd (magnitudes qs) a b) = test at accept passed
  split at accept
  · cases accept
  split at accept
  · cases accept
  case isFalse accepted =>
    split at accept
    · cases accept
    obtain rfl := Option.some.inj (Exec.done.inj accept)
    refine ⟨run, rfl, rfl, fun none => absurd none (Nat.succ_ne_zero _), fun _ => ⟨any, fun lehmer => ?_⟩⟩
    rw [← passed]
    by_contra failed
    exact accepted ⟨lehmer, failed⟩

theorem gcd128Turn_holds (nonneg : 0 ≤ B) (le : B ≤ A) (fits : A < 2 ^ 128)
    (holds : s.Holds A B isLehmer qs)
    (turn : gcd128Turn m (A, B) isLehmer threshold s = .done (some s')) :
    ∃ qs', s'.Holds A B isLehmer qs' := by
  unfold gcd128Turn at turn
  split at turn
  · cases turn
  split at turn
  · cases turn
  case isFalse ordered =>
  obtain ⟨order, low⟩ : s.a ≥ s.b ∧ s.b ≥ 0 := by simpa using ordered
  split at turn
  · cases turn
  simp only [] at turn
  split at turn
  · cases turn
  case h_2 uvDouble base =>
  obtain ⟨rs, a, b, any, next, rfl⟩ := m.baseCase_quotients low order base
  have ones := next.one_le order
  split at turn
  · cases turn
  case h_2 uvNew product =>
  have matrix : uvNew = magnitudes (qs ++ rs) := by
    rw [productMatrix_abs ones, holds.uv] at product
    split at product
    case isTrue zero =>
      rw [holds.first zero]
      exact (Option.some.inj product).symm
    case isFalse later => rw [multiplyExact_some product, magnitudes_append]
  have parity : s.parity ^^^ (if (productMatrix rs).m11 < 0 then 1 else 0) = (qs ++ rs).length % 2 := by
    rw [productMatrix_parity ones, holds.parity, List.length_append, Nat.add_mod]
    rcases Nat.mod_two_eq_zero_or_one qs.length with h | h <;>
      rcases Nat.mod_two_eq_zero_or_one rs.length with h' | h' <;> rw [h, h'] <;> rfl
  rw [matrix, parity] at turn
  exact ⟨_, gcd128Accept_holds nonneg le fits (holds.quotients.append next)
    (List.append_ne_nil_of_right_ne_nil _ any) turn⟩

theorem gcd128Loop_holds (nonneg : 0 ≤ B) (le : B ≤ A) (fits : A < 2 ^ 128) (left : ℕ)
    (holds : s.Holds A B isLehmer qs)
    (loop : gcd128Loop m (A, B) isLehmer threshold left s = .done s') :
    ∃ qs', s'.Holds A B isLehmer qs' := by
  induction left generalizing s qs with
  | zero =>
    unfold gcd128Loop at loop
    obtain ⟨next, turn, rest⟩ := Exec.bind_eq_done.mp loop
    cases next with
    | none => exact ⟨qs, Exec.done.inj rest ▸ holds⟩
    | some next =>
      obtain ⟨qs', holds'⟩ := gcd128Turn_holds nonneg le fits holds turn
      exact ⟨qs', Exec.done.inj rest ▸ holds'⟩
  | succ left ih =>
    unfold gcd128Loop at loop
    obtain ⟨next, turn, rest⟩ := Exec.bind_eq_done.mp loop
    cases next with
    | none => exact ⟨qs, Exec.done.inj rest ▸ holds⟩
    | some next =>
      obtain ⟨qs', holds'⟩ := gcd128Turn_holds nonneg le fits holds turn
      exact ih holds' rest

theorem gcd128Turn_ends : gcd128Turn m (A, B) isLehmer threshold s ≠ .diverged := by
  unfold gcd128Turn
  split
  · nofun
  split
  · nofun
  split
  · nofun
  simp only []
  split
  · nofun
  split
  · nofun
  unfold gcd128Accept
  simp only []
  split_ifs <;> nofun

theorem gcd128Loop_ends (left : ℕ) : gcd128Loop m (A, B) isLehmer threshold left s ≠ .diverged := by
  induction left generalizing s with
  | zero =>
    unfold gcd128Loop
    intro loop
    rcases Exec.bind_eq_diverged.mp loop with early | ⟨next, -, rest⟩
    · exact gcd128Turn_ends early
    · cases next <;> cases rest
  | succ left ih =>
    unfold gcd128Loop
    intro loop
    rcases Exec.bind_eq_diverged.mp loop with early | ⟨next, -, rest⟩
    · exact gcd128Turn_ends early
    · cases next with
      | none => cases rest
      | some next => exact ih rest

theorem gcd128_ends : gcd128 m (A, B) isLehmer threshold ≠ .diverged := by
  unfold gcd128
  split
  · nofun
  intro run
  rcases Exec.bind_eq_diverged.mp run with early | ⟨s, -, rest⟩
  · exact gcd128Loop_ends _ early
  · cases rest

end Loop

/-- The matrix that is accepted is that of the next quotients; where the numbers are only heads, the last
remainders leave the room that makes them the quotients of the whole numbers. -/
theorem gcd128_quotients {m : GcdBase} {A B threshold : ℤ} {isLehmer : Bool} {uv : Matrix2} {parity : ℕ}
    (nonneg : 0 ≤ B) (le : B ≤ A) (fits : A < 2 ^ 128)
    (run : gcd128 m (A, B) isLehmer threshold = .done (some (uv, parity))) :
    ∃ qs a b, qs ≠ [] ∧ Quotients A B qs a b ∧ uv = magnitudes qs ∧ parity = qs.length % 2 ∧
      (isLehmer = true → Passes qs a b) := by
  have start : Gcd128State.Holds A B isLehmer [] ⟨A, B, identityMatrix, 0, false, 0⟩ :=
    ⟨.nil A B, rfl, rfl, fun _ => rfl, fun none => absurd none Bool.false_ne_true⟩
  unfold gcd128 at run
  rw [if_neg (not_not.mpr ⟨le, nonneg⟩)] at run
  obtain ⟨s, loop, last⟩ := Exec.bind_eq_done.mp run
  obtain ⟨qs, holds⟩ := gcd128Loop_holds nonneg le fits _ start loop
  have result := Exec.done.inj last
  split at result
  case isFalse => cases result
  case isTrue progress =>
    obtain ⟨rfl, rfl⟩ := Prod.mk.inj (Option.some.inj result)
    obtain ⟨any, passes⟩ := holds.accepted progress
    exact ⟨qs, s.a, s.b, any, holds.quotients, holds.uv, holds.parity, passes⟩

end ChiaVdf
