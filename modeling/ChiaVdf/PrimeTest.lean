import Mathlib.NumberTheory.LSeries.PrimesInAP
import Mathlib.NumberTheory.LegendreSymbol.JacobiSymbol
import Mathlib.NumberTheory.Padics.PadicVal.Basic
import ChiaVdf.Integer
import ChiaVdf.Lucas
import ChiaVdf.Pprods
import ChiaVdf.XgcdWords

/-! `primetest.h`: trial division by products of small primes, one strong test to base 2 and a
Lucas-V test. A prime that trial division leaves over and for which a discriminant is found
passes both tests, as long as its bits can be counted by an `int`. -/
namespace ChiaVdf.PrimeTest

/-- A value of type `int`. -/
abbrev int32 (x : ℤ) : Exec ℤ := Xgcd.signedLimb 32 x

def INT_MAX : ℕ := 2 ^ 31 - 1

/-- `checked_cast<int>` of an unsigned number. -/
def checkedCast (value : ℕ) : Exec ℕ :=
  if value > INT_MAX then .thrown "checked_cast: value out of range" else .done value

/-- `mpz_scan1` of a positive number from bit `start` on. -/
def scan1 (n start : ℕ) : ℕ :=
  if n / 2 ^ start = 0 then 2 ^ 64 - 1 else start + padicValNat 2 (n / 2 ^ start)

/-- The `while` loop of `miller_rabin`. -/
def squareLoop (n s : ℕ) : ℕ → ℕ → ℤ → Exec Bool
  | 0, _, _ => .diverged
  | fuel + 1, r, b =>
    if b + 1 = n then .done true
    else if r + 1 = s then .done false
    else do
      let b ← mpzPowmUi b 2 n
      squareLoop n s fuel (r + 1) b

def millerRabin (n : ℕ) (b : ℤ) : Exec Bool := do
  let s ← checkedCast (scan1 n 1)
  let b ← mpzPowmUi b (n / 2 ^ s) n
  if b = 1 then return true else squareLoop n s s 0 b

def VPRP_MAX_D : ℤ := 1000

def pqLoop (n : ℕ) : ℕ → ℤ → Exec (Option (ℕ × ℤ))
  | 0, _ => .diverged
  | fuel + 1, d =>
    if d < VPRP_MAX_D then
      let d := if d.tmod 4 = 1 then d else -d
      if jacobiSym d n = -1 then .done (if d = 5 then some (5, 5) else some (1, (1 - d).tdiv 4))
      else pqLoop n fuel (|d| + 2)
    else .done none

/-- The parameters `p` and `q` of the first discriminant that is no square modulo `n`. -/
def findPq (n : ℕ) : Exec (Option (ℕ × ℤ)) := pqLoop n 500 5

def addmulSi (p a b : ℤ) : Exec ℤ :=
  if b < 0 then do
    let b ← int32 (-b)
    return p - a * b
  else return p + a * b

/-- The body of the loop of `find_lucas_v`, before the remainders are taken. -/
def double (bit : Bool) (p : ℕ) (q minus2q u1 u2 : ℤ) : Exec (ℤ × ℤ) :=
  let tmp2 := u2 * u1
  let u2 := u2 * u2
  let u1 := u1 * u1
  if bit then do
    let u1 := u2 - u1 * q
    let u2 := if p ≠ 1 then u2 * p else u2
    let u2 ← addmulSi u2 tmp2 minus2q
    return (u1, u2)
  else do
    let minusq ← int32 (-q)
    let u2 ← addmulSi u2 u1 minusq
    let tmp2 := tmp2 * 2
    return (if p ≠ 1 then tmp2 - u1 * p else tmp2 - u1, u2)

def lucasLoop (e m : ℤ) (p : ℕ) (q minus2q : ℤ) : ℕ → ℤ → ℤ → Exec (ℤ × ℤ)
  | 0, u1, u2 => .done (u1, u2)
  | i + 1, u1, u2 => do
    let (u1, u2) ← double (mpzTstbit e i) p q minus2q u1 u2
    let u1 ← mpzTdivR u1 m
    let u2 ← mpzTdivR u2 m
    lucasLoop e m p q minus2q i u1 u2

/-- Leaves an integer congruent to the Lucas number `V_e`, which is not reduced any further. -/
def findLucasV (e m : ℤ) (p : ℕ) (q : ℤ) : Exec ℤ := do
  let l ← checkedCast (mpzSizeinbase2 e)
  let minus2q ← int32 (-2 * q)
  let (u1, u2) ← lucasLoop e m p q minus2q (l - 1) 1 p
  return u2 * 2 - u1 * p

/-- `mpz_cdiv_r`, with the sign opposite to the divisor's. -/
def mpzCdivR (n d : ℤ) : Exec ℤ := if d = 0 then .fault .divideByZero else .done (-(-n).fmod d)

def isVprp (n : ℕ) : Exec Bool := do
  match ← findPq n with
  | none => return false
  | some (p, q) => do
    let v ← findLucasV (n + 1) n p q
    let v ← if q < 0 then mpzCdivR v n else mpzFdivR v n
    return v = 2 * q

/-- How many of the products are tried: all from sixteen limbs on, and below that a share that
grows with the cube of the length. -/
def nPprods (n : ℕ) : ℕ :=
  let size := (mpSize n).toNat
  if size < 16 then 5 + (pprods.length - 5) * (size * size * size) / (16 * 16 * 16) else pprods.length

/-- Zero for a composite number, two for a probable prime. -/
def isPrimeBpsw (n : ℕ) : Exec ℕ :=
  if mpzTstbit n 0 = false ∧ n ≠ 2 then .done 0
  else if (pprods.take (nPprods n)).any fun entry => Nat.gcd n entry ≠ 1 then .done 0
  else do
    if ← millerRabin n 2 then
      if ← isVprp n then return 2 else return 0
    else return 0

section Chain

variable {e m q u1 u2 : ℤ} {p : ℕ}

theorem tmod_modEq (a : ℤ) : a.tmod m ≡ a [ZMOD m] := by
  apply Int.modEq_iff_dvd.mpr
  rw [Int.tmod_def]
  exact ⟨a.tdiv m, by ring⟩

theorem addmulSi_eq (p a : ℤ) {b : ℤ} (fits : -(2 ^ 31 - 1) ≤ b) : addmulSi p a b = .done (p + a * b) := by
  unfold addmulSi
  split
  · next neg =>
    simp only [int32, Xgcd.signedLimb]
    rw [if_pos (by constructor <;> norm_num <;> omega)]
    simp only [Exec.done_bind, Exec.pure_eq]
    congr 1
    ring
  · rfl

/-- One turn as polynomials: the special case of `p = 1` changes nothing. -/
theorem double_eq (fits : |2 * q| ≤ 2 ^ 31 - 1) (bit : Bool) : double bit p q (-2 * q) u1 u2 =
    .done (if bit then (u2 ^ 2 - q * u1 ^ 2, p * u2 ^ 2 - 2 * q * (u1 * u2))
      else (2 * (u1 * u2) - p * u1 ^ 2, u2 ^ 2 - q * u1 ^ 2)) := by
  obtain ⟨low, high⟩ := abs_le.mp fits
  have one : (if p ≠ 1 then u2 * u2 * p else u2 * u2) = p * u2 ^ 2 := by
    split
    · ring
    · next one =>
      rw [not_not.mp one]
      push_cast
      ring
  have other : (if p ≠ 1 then u2 * u1 * 2 - u1 * u1 * p else u2 * u1 * 2 - u1 * u1) =
      2 * (u1 * u2) - p * u1 ^ 2 := by
    split
    · ring
    · next one =>
      rw [not_not.mp one]
      push_cast
      ring
  have minusq : int32 (-q) = .done (-q) := by
    simp only [int32, Xgcd.signedLimb]
    exact if_pos (by constructor <;> norm_num <;> omega)
  cases bit with
  | true =>
    simp only [double, if_true, one, addmulSi_eq _ _ (show -(2 ^ 31 - 1) ≤ -2 * q by omega),
      Exec.done_bind, Exec.pure_eq]
    congr 2 <;> ring
  | false =>
    simp only [double, Bool.false_eq_true, if_false, other, minusq,
      addmulSi_eq _ _ (show -(2 ^ 31 - 1) ≤ -q by omega), Exec.done_bind, Exec.pure_eq]
    congr 2
    ring

/-- The registers hold `U_k` and `U_(k+1)`. -/
structure Holds (m : ℤ) (p : ℕ) (q : ℤ) (k : ℕ) (u1 u2 : ℤ) : Prop where
  first : u1 ≡ Lucas.U (p : ℤ) q k [ZMOD m]
  second : u2 ≡ Lucas.U (p : ℤ) q (k + 1) [ZMOD m]

theorem Holds.double (holds : Holds m p q k u1 u2) (fits : |2 * q| ≤ 2 ^ 31 - 1) (bit : Bool) :
    ∃ v1 v2, double bit p q (-2 * q) u1 u2 = .done (v1, v2) ∧
      Holds m p q (2 * k + bit.toNat) (v1.tmod m) (v2.tmod m) := by
  obtain ⟨first, second⟩ := holds
  have squares := (second.pow 2).sub ((first.pow 2).mul_left q)
  rw [← Lucas.U_double_succ] at squares
  cases bit with
  | true =>
    refine ⟨_, _, double_eq fits true, (tmod_modEq _).trans squares, (tmod_modEq _).trans ?_⟩
    have step := ((second.pow 2).mul_left p).sub ((first.mul second).mul_left (2 * q))
    rwa [← Lucas.U_double_succ_succ] at step
  | false =>
    refine ⟨_, _, double_eq fits false, (tmod_modEq _).trans ?_, (tmod_modEq _).trans squares⟩
    have step := ((first.mul second).mul_left 2).sub ((first.pow 2).mul_left p)
    rwa [← Lucas.U_double] at step

theorem prefix_succ (epos : 0 ≤ e) (i : ℕ) :
    (e / 2 ^ i).toNat = 2 * (e / 2 ^ (i + 1)).toNat + (mpzTstbit e i).toNat := by
  have halves : e / 2 ^ (i + 1) = e / 2 ^ i / 2 := by
    rw [pow_succ, Int.ediv_ediv_of_nonneg (by positivity)]
  have nonneg : 0 ≤ e / 2 ^ i := Int.ediv_nonneg epos (by positivity)
  unfold mpzTstbit
  rw [halves]
  generalize e / 2 ^ i = x at *
  by_cases odd : x % 2 = 1
  · simp [odd]; omega
  · simp [odd]; omega

theorem lucasLoop_spec (fits : |2 * q| ≤ 2 ^ 31 - 1) (mpos : 0 < m) (epos : 0 ≤ e) (i : ℕ)
    (holds : Holds m p q (e / 2 ^ i).toNat u1 u2) :
    ∃ v1 v2, lucasLoop e m p q (-2 * q) i u1 u2 = .done (v1, v2) ∧ Holds m p q e.toNat v1 v2 := by
  induction i generalizing u1 u2 with
  | zero =>
    rw [pow_zero, Int.ediv_one] at holds
    exact ⟨u1, u2, rfl, holds⟩
  | succ i ih =>
    obtain ⟨v1, v2, turn, next⟩ := holds.double fits (mpzTstbit e i)
    rw [← prefix_succ epos] at next
    obtain ⟨w1, w2, run, done⟩ := ih next
    refine ⟨w1, w2, ?_, done⟩
    simp only [lucasLoop, turn, Exec.done_bind, mpzTdivR_done mpos.ne', run]

theorem leading_bit (epos : 1 ≤ e) : e / 2 ^ (mpzSizeinbase2 e - 1) = 1 := by
  have nonzero : e.natAbs ≠ 0 := by omega
  have low := Nat.log2_self_le nonzero
  have high := Nat.lt_log2_self (n := e.natAbs)
  have size : mpzSizeinbase2 e - 1 = e.natAbs.log2 := by
    simp [mpzSizeinbase2, show e ≠ 0 by omega]
  have whole : (e.natAbs : ℤ) = e := by omega
  zify at low high
  rw [← Int.natCast_natAbs, whole] at low high
  rw [size]
  apply le_antisymm
  · apply Int.lt_add_one_iff.mp
    rw [Int.ediv_lt_iff_lt_mul (by positivity)]
    exact high.trans_eq (by ring)
  · rw [Int.le_ediv_iff_mul_le (by positivity), one_mul]
    exact low

theorem checkedCast_done {value : ℕ} (small : value ≤ 2 ^ 31 - 1) : checkedCast value = .done value :=
  if_neg (not_lt.mpr small)

theorem checkedCast_thrown {value : ℕ} (large : 2 ^ 31 - 1 < value) :
    checkedCast value = .thrown "checked_cast: value out of range" := if_pos large

theorem findLucasV_thrown (large : 2 ^ 31 - 1 < mpzSizeinbase2 e) :
    findLucasV e m p q = .thrown "checked_cast: value out of range" := by
  rw [findLucasV, checkedCast_thrown large, Exec.thrown_bind]

theorem findLucasV_done (epos : 1 ≤ e) (mpos : 0 < m) (fits : |2 * q| ≤ 2 ^ 31 - 1)
    (small : mpzSizeinbase2 e ≤ 2 ^ 31 - 1) :
    ∃ v, findLucasV e m p q = .done v ∧ v ≡ Lucas.V (p : ℤ) q e.toNat [ZMOD m] := by
  obtain ⟨low, high⟩ := abs_le.mp fits
  have minus2q : int32 (-2 * q) = .done (-2 * q) :=
    if_pos (by constructor <;> norm_num <;> omega)
  have start : Holds m p q (e / 2 ^ (mpzSizeinbase2 e - 1)).toNat 1 p := by
    rw [leading_bit epos]
    exact ⟨by simp, by simp [Lucas.U_two]⟩
  obtain ⟨u1, u2, run, first, second⟩ := lucasLoop_spec fits mpos (by omega) _ start
  refine ⟨u2 * 2 - u1 * p, ?_, ?_⟩
  · simp only [findLucasV, checkedCast_done small, minus2q, Exec.done_bind, run, Exec.pure_eq]
  · rw [Lucas.V_eq, mul_comm u2, mul_comm u1]
    exact (second.mul_left 2).sub (first.mul_left p)

/-- Exponents whose bits an `int` can count: the result is congruent to `V_e`. All others are
refused. -/
theorem findLucasV_modEq (e m : ℤ) (p : ℕ) (q : ℤ) (epos : 1 ≤ e) (mpos : 0 < m)
    (fits : |2 * q| ≤ 2 ^ 31 - 1) :
    (mpzSizeinbase2 e ≤ 2 ^ 31 - 1 →
      ∃ v, findLucasV e m p q = .done v ∧ v ≡ Lucas.V (p : ℤ) q e.toNat [ZMOD m]) ∧
    (2 ^ 31 - 1 < mpzSizeinbase2 e →
      findLucasV e m p q = .thrown "checked_cast: value out of range") :=
  ⟨findLucasV_done epos mpos fits, findLucasV_thrown⟩

theorem findLucasV_modEq_twenty : ∃ v, findLucasV 20 77 5 5 = .done v ∧
    v ≡ Lucas.V ((5 : ℕ) : ℤ) 5 (20 : ℤ).toNat [ZMOD 77] :=
  (findLucasV_modEq 20 77 5 5 (by norm_num) (by norm_num) (by norm_num)).1 (by decide)

theorem sizeinbase2_two_pow (k : ℕ) : mpzSizeinbase2 (2 ^ k) = k + 1 := by
  simp [mpzSizeinbase2, Int.natAbs_pow]

theorem findLucasV_two_pow {k : ℕ} (large : 2 ^ 31 - 1 < k + 1) :
    findLucasV (2 ^ k) m p q = .thrown "checked_cast: value out of range" :=
  findLucasV_thrown (by rwa [sizeinbase2_two_pow])

theorem findLucasV_long : (1 : ℤ) ≤ 2 ^ 2 ^ 31 ∧
    ¬∃ v, findLucasV (2 ^ 2 ^ 31) 7 1 1 = .done v ∧
      v ≡ Lucas.V ((1 : ℕ) : ℤ) 1 ((2 : ℤ) ^ 2 ^ 31).toNat [ZMOD 7] := by
  constructor
  · exact one_le_pow₀ (by norm_num)
  · rintro ⟨v, run, -⟩
    have thrown := findLucasV_two_pow (m := 7) (p := 1) (q := 1) (show 2 ^ 31 - 1 < 2 ^ 31 + 1 by norm_num)
    rw [thrown] at run
    cases run

end Chain

section FindPq

variable {n p : ℕ} {q : ℤ}

/-- The sign that makes an odd number one modulo four. -/
theorem signed_spec {d : ℤ} (pos : 0 < d) (odd : d % 2 = 1) :
    (if d.tmod 4 = 1 then d else -d) % 4 = 1 ∧ |if d.tmod 4 = 1 then d else -d| = d := by
  rw [Int.tmod_eq_emod_of_nonneg pos.le]
  split
  · exact ⟨by omega, abs_of_pos pos⟩
  · exact ⟨by omega, by rw [abs_neg, abs_of_pos pos]⟩

theorem pqLoop_spec {fuel : ℕ} {d : ℤ} (pos : 0 < d) (odd : d % 2 = 1)
    (found : pqLoop n fuel d = .done (some (p, q))) :
    jacobiSym ((p : ℤ) ^ 2 - 4 * q) n = -1 ∧ |q| ≤ 250 := by
  induction fuel generalizing d with
  | zero => cases found
  | succ fuel ih =>
    simp only [pqLoop] at found
    obtain ⟨quarter, size⟩ := signed_spec pos odd
    generalize (if d.tmod 4 = 1 then d else -d) = signed at *
    by_cases below : d < VPRP_MAX_D
    · rw [if_pos below] at found
      unfold VPRP_MAX_D at below
      split at found
      · next nonresidue =>
        split at found
        · next five =>
          obtain ⟨rfl, rfl⟩ := Prod.mk.inj (Option.some.inj (Exec.done.inj found))
          rw [five] at nonresidue
          exact ⟨by simpa using nonresidue, by norm_num⟩
        · obtain ⟨rfl, rfl⟩ := Prod.mk.inj (Option.some.inj (Exec.done.inj found))
          obtain ⟨k, hk⟩ : (4 : ℤ) ∣ 1 - signed := by omega
          have exactly : (1 - signed).tdiv 4 = k := by
            rw [hk]
            exact Int.mul_tdiv_cancel_left k (by norm_num)
          have recovered : ((1 : ℕ) : ℤ) ^ 2 - 4 * k = signed := by push_cast; omega
          rw [exactly, recovered]
          exact ⟨nonresidue, abs_le.mpr (by have := abs_le.mp size.le; omega)⟩
      · rw [size] at found
        exact ih (by omega) (by omega) found
    · rw [if_neg below] at found
      cases found

theorem findPq_spec (found : findPq n = .done (some (p, q))) :
    jacobiSym ((p : ℤ) ^ 2 - 4 * q) n = -1 ∧ |q| ≤ 250 :=
  pqLoop_spec (by norm_num) (by norm_num) found

theorem pqLoop_total (fuel : ℕ) (d : ℤ) (pos : 0 < d) (odd : d % 2 = 1) (below : d < 1002)
    (enough : 1002 ≤ d + 2 * fuel) : ∃ r, pqLoop n fuel d = .done r := by
  induction fuel generalizing d with
  | zero => omega
  | succ fuel ih =>
    simp only [pqLoop]
    obtain ⟨-, size⟩ := signed_spec pos odd
    generalize (if d.tmod 4 = 1 then d else -d) = signed at *
    by_cases again : d < VPRP_MAX_D
    · rw [if_pos again]
      unfold VPRP_MAX_D at again
      split
      · exact ⟨_, rfl⟩
      · rw [size]
        exact ih (d + 2) (by omega) (by omega) (by omega) (by push_cast at enough; omega)
    · exact ⟨none, if_neg again⟩

theorem findPq_total (n : ℕ) : ∃ r, findPq n = .done r :=
  pqLoop_total 500 5 (by norm_num) (by norm_num) (by norm_num) (by norm_num)

end FindPq

section MillerRabin

variable {n : ℕ}

/-- A prime leaves one and minus one as the only square roots of one. -/
theorem sq_ne_one (prime : n.Prime) {b : ℤ} (residue : 0 ≤ b ∧ b < n) (notone : b ≠ 1)
    (notminus : b + 1 ≠ n) : (b : ZMod n) ^ 2 ≠ 1 := by
  have : Fact n.Prime := ⟨prime⟩
  have two := prime.two_le
  have unique {c : ℤ} (inside : 0 ≤ c ∧ c < n) (same : (b : ZMod n) = c) : b = c := by
    have mods : b % n = c % n := (ZMod.intCast_eq_intCast_iff b c n).mp same
    rwa [Int.emod_eq_of_lt residue.1 residue.2, Int.emod_eq_of_lt inside.1 inside.2] at mods
  intro one
  rw [sq] at one
  cases mul_self_eq_one_iff.mp one with
  | inl plus => exact notone (unique (by omega) (by simpa using plus))
  | inr minus =>
    have := unique (c := n - 1) (by omega) (by simpa using minus)
    omega

/-- Squaring a residue that is not one, up to the turn where it would become one, meets minus one. -/
theorem squareLoop_prime (prime : n.Prime) (s k r : ℕ) (b : ℤ) (left : r + k = s) (kpos : 0 < k)
    (residue : 0 ≤ b ∧ b < n) (notone : b ≠ 1) (root : (b : ZMod n) ^ 2 ^ k = 1) :
    squareLoop n s k r b = .done true := by
  have : Fact n.Prime := ⟨prime⟩
  have two := prime.two_le
  induction k generalizing r b with
  | zero => cases kpos
  | succ k ih =>
    simp only [squareLoop]
    split
    · rfl
    · next notminus =>
      have square := sq_ne_one prime residue notone notminus
      split
      · next last =>
        obtain rfl : k = 0 := by omega
        exact absurd root square
      · rw [mpzPowmUi_done (by omega), Exec.done_bind]
        have cast : (((b ^ 2 % n : ℤ)) : ZMod n) = (b : ZMod n) ^ 2 := by
          rw [ZMod.intCast_mod]
          push_cast
          rfl
        apply ih (r + 1) (b ^ 2 % n) (by omega) (by omega)
        · exact ⟨Int.emod_nonneg _ (by omega), Int.emod_lt_of_pos _ (by omega)⟩
        · intro one
          rw [one] at cast
          exact square (by simpa using cast.symm)
        · rw [cast, ← pow_mul, mul_comm, ← pow_succ]
          exact root

theorem scan1_spec (odd : n % 2 = 1) (large : 1 < n) :
    ∃ d, n - 1 = 2 ^ scan1 n 1 * d ∧ n / 2 ^ scan1 n 1 = d ∧ 0 < scan1 n 1 := by
  have nonzero : n / 2 ≠ 0 := by omega
  have : Fact (Nat.Prime 2) := ⟨Nat.prime_two⟩
  obtain ⟨d, hd⟩ := pow_padicValNat_dvd (p := 2) (n := n / 2)
  have scan : scan1 n 1 = 1 + padicValNat 2 (n / 2) := by simp [scan1, nonzero]
  have split : n - 1 = 2 ^ scan1 n 1 * d := by
    rw [scan, pow_add, mul_assoc, pow_one, ← hd]
    omega
  refine ⟨d, split, ?_, by omega⟩
  have whole : n = 2 ^ scan1 n 1 * d + 1 := by omega
  have room : 1 < 2 ^ scan1 n 1 := Nat.one_lt_two_pow (by omega)
  generalize scan1 n 1 = s at *
  rw [whole, Nat.mul_add_div (by omega), Nat.div_eq_of_lt room, add_zero]

/-- The strong test to base 2 accepts every odd prime whose bits can be counted. -/
theorem millerRabin_prime (prime : n.Prime) (odd : n % 2 = 1) (small : scan1 n 1 ≤ 2 ^ 31 - 1) :
    millerRabin n 2 = .done true := by
  have : Fact n.Prime := ⟨prime⟩
  obtain ⟨d, split, shifted, spos⟩ := scan1_spec odd prime.one_lt
  have two : (2 : ZMod n) ≠ 0 := by
    intro zero
    have divides : n ∣ 2 := (ZMod.natCast_eq_zero_iff 2 n).mp (by exact_mod_cast zero)
    have := (Nat.prime_dvd_prime_iff_eq prime Nat.prime_two).mp divides
    omega
  have cast : ((((2 : ℤ) ^ d % n : ℤ)) : ZMod n) = 2 ^ d := by
    rw [ZMod.intCast_mod]
    push_cast
    rfl
  simp only [millerRabin, checkedCast_done small, Exec.done_bind, shifted,
    mpzPowmUi_done (show (n : ℤ) ≠ 0 by exact_mod_cast prime.ne_zero)]
  split
  · rfl
  · next notone =>
    apply squareLoop_prime prime _ _ 0 _ (by omega) spos _ notone
    · rw [cast, ← pow_mul, mul_comm, ← split]
      exact ZMod.pow_card_sub_one_eq_one two
    · have := prime.pos
      exact ⟨Int.emod_nonneg _ (by omega), Int.emod_lt_of_pos _ (by omega)⟩

end MillerRabin

section Bpsw

variable {n p : ℕ} {q v : ℤ}

/-- The remainder is taken on the side of zero on which `2 * q` lies. -/
theorem residue_eq (npos : 0 < n) (small : 2 * |q| < n) (close : v ≡ 2 * q [ZMOD n]) :
    (if q < 0 then mpzCdivR v n else mpzFdivR v n) = .done (2 * q) := by
  have pos : (0 : ℤ) < n := by exact_mod_cast npos
  split
  · next neg =>
    rw [abs_of_neg neg] at small
    have mods : -v % n = -(2 * q) % n := close.neg
    rw [mpzCdivR, if_neg pos.ne', Int.fmod_eq_emod_of_nonneg _ pos.le, mods,
      Int.emod_eq_of_lt (by omega) (by omega), neg_neg]
  · next nonneg =>
    rw [abs_of_nonneg (by omega)] at small
    have mods : v % n = 2 * q % n := close
    rw [mpzFdivR_pos pos, mods, Int.emod_eq_of_lt (by omega) (by omega)]

theorem isVprp_prime (prime : n.Prime) (odd : n % 2 = 1) (found : findPq n = .done (some (p, q)))
    (small : 2 * |q| < n) (count : mpzSizeinbase2 (n + 1) ≤ 2 ^ 31 - 1) : isVprp n = .done true := by
  have : Fact n.Prime := ⟨prime⟩
  obtain ⟨nonresidue, qsmall⟩ := findPq_spec found
  rw [← jacobiSym.legendreSym.to_jacobiSym] at nonresidue
  have fits : |2 * q| ≤ 2 ^ 31 - 1 := by
    rw [abs_mul]
    norm_num
    omega
  obtain ⟨v, run, close⟩ := findLucasV_done (e := n + 1) (m := n) (p := p) (by omega)
    (by exact_mod_cast prime.pos) fits count
  have lucas := Lucas.V_prime_succ (by rintro rfl; omega) p q nonresidue
  have index : ((n : ℤ) + 1).toNat = n + 1 := by omega
  rw [index] at close
  have residue := residue_eq prime.pos small (close.trans lucas)
  simp only [isVprp, found, Exec.done_bind, run, Exec.pure_eq]
  by_cases neg : q < 0
  · rw [if_pos neg] at residue ⊢
    simp [residue]
  · rw [if_neg neg] at residue ⊢
    simp [residue]

theorem isVprp_thrown (found : findPq n = .done (some (p, q)))
    (long : 2 ^ 31 - 1 < mpzSizeinbase2 (n + 1)) :
    isVprp n = .thrown "checked_cast: value out of range" := by
  simp only [isVprp, found, Exec.done_bind, findLucasV_thrown long, Exec.thrown_bind]

/-- The bits of `n + 1` are more than the zeros above the lowest bit of `n`. -/
theorem scan1_le (odd : n % 2 = 1) (large : 1 < n) : scan1 n 1 ≤ mpzSizeinbase2 (n + 1) := by
  obtain ⟨d, split, -, -⟩ := scan1_spec odd large
  have dpos : 0 < d := Nat.pos_of_ne_zero (by rintro rfl; omega)
  have power : 2 ^ scan1 n 1 ≤ n - 1 := split ▸ Nat.le_mul_of_pos_right _ dpos
  have bound := lt_two_pow_sizeinbase2 (n := (n : ℤ) + 1) (by omega)
  have chain : 2 ^ scan1 n 1 < 2 ^ mpzSizeinbase2 ((n : ℤ) + 1) := by zify at power ⊢; omega
  exact ((Nat.pow_lt_pow_iff_right (by norm_num)).mp chain).le

/-- Trial division leaves a prime over unless it divides a product. -/
theorem isPrimeBpsw_eq (prime : n.Prime) (odd : n % 2 = 1)
    (clear : ∀ entry ∈ pprods.take (nPprods n), ¬n ∣ entry) :
    isPrimeBpsw n = do
      if ← millerRabin n 2 then
        if ← isVprp n then return 2 else return 0
      else return 0 := by
  have low : ¬(mpzTstbit n 0 = false ∧ n ≠ 2) := by
    rintro ⟨even, -⟩
    simp [mpzTstbit] at even
    omega
  have coprime : ¬((pprods.take (nPprods n)).any fun entry => Nat.gcd n entry ≠ 1) = true := by
    intro some_factor
    obtain ⟨entry, member, factor⟩ := List.any_eq_true.mp some_factor
    exact (of_decide_eq_true factor) ((Nat.Prime.coprime_iff_not_dvd prime).mpr (clear entry member))
  rw [isPrimeBpsw, if_neg low, if_neg coprime]

theorem isPrimeBpsw_thrown (prime : n.Prime) (odd : n % 2 = 1)
    (clear : ∀ entry ∈ pprods.take (nPprods n), ¬n ∣ entry) (found : findPq n = .done (some (p, q)))
    (long : 2 ^ 31 - 1 < mpzSizeinbase2 (n + 1)) :
    isPrimeBpsw n = .thrown "checked_cast: value out of range" := by
  rw [isPrimeBpsw_eq prime odd clear]
  by_cases few : scan1 n 1 ≤ 2 ^ 31 - 1
  · simp [millerRabin_prime prime odd few, isVprp_thrown found long]
  · have refused := checkedCast_thrown (not_le.mp few)
    simp [millerRabin, refused]

theorem findPq_five (nonresidue : jacobiSym 5 n = -1) : findPq n = .done (some (5, 5)) := by
  have five : (5 : ℤ).tmod 4 = 1 := rfl
  simp [findPq, pqLoop, VPRP_MAX_D, five, nonresidue]

/-- No prime is rejected that trial division leaves over and for which a discriminant is found. Where an
`int` cannot count the bits, the test ends with an exception. -/
theorem isPrimeBpsw_prime (n p : ℕ) (q : ℤ) (prime : n.Prime) (odd : n % 2 = 1)
    (clear : ∀ entry ∈ pprods.take (nPprods n), ¬n ∣ entry)
    (found : findPq n = .done (some (p, q))) (small : 2 * |q| < n) :
    (mpzSizeinbase2 (n + 1) ≤ 2 ^ 31 - 1 →
      millerRabin n 2 = .done true ∧ isVprp n = .done true ∧ isPrimeBpsw n = .done 2) ∧
    (2 ^ 31 - 1 < mpzSizeinbase2 (n + 1) →
      isPrimeBpsw n = .thrown "checked_cast: value out of range") := by
  constructor
  · intro count
    have strong := millerRabin_prime prime odd ((scan1_le odd prime.one_lt).trans count)
    have lucas := isVprp_prime prime odd found small count
    refine ⟨strong, lucas, ?_⟩
    rw [isPrimeBpsw_eq prime odd clear]
    simp [strong, lucas]
  · exact isPrimeBpsw_thrown prime odd clear found

theorem isPrimeBpsw_257 :
    millerRabin 257 2 = .done true ∧ isVprp 257 = .done true ∧ isPrimeBpsw 257 = .done 2 := by
  have nonresidue : jacobiSym 5 257 = -1 := by norm_num
  exact (isPrimeBpsw_prime 257 5 5 (by norm_num) (by norm_num) (by decide +kernel) (findPq_five nonresidue)
    (by norm_num)).1 (by decide)

theorem jacobiSym_five (odd : n % 2 = 1) (two : n % 5 = 2) : jacobiSym 5 n = -1 := by
  have swap := jacobiSym.quadratic_reciprocity_one_mod_four (a := 5) (b := n) rfl (Nat.odd_iff.mpr odd)
  calc jacobiSym 5 n = jacobiSym n 5 := swap
    _ = jacobiSym ((n : ℤ) % (5 : ℕ)) 5 := jacobiSym.mod_left _ _
    _ = jacobiSym 2 5 := by congr 1; omega
    _ = -1 := by norm_num

/-- Beyond every power of two there is a prime for which the first discriminant is the one. -/
theorem exists_long_prime (k : ℕ) (large : 64 ≤ k) : ∃ n : ℕ, n.Prime ∧ n % 2 = 1 ∧
    (∀ entry ∈ pprods.take (nPprods n), ¬n ∣ entry) ∧ findPq n = .done (some (5, 5)) ∧
    2 * |(5 : ℤ)| < n ∧ k < mpzSizeinbase2 (n + 1) := by
  obtain ⟨n, above, prime, residue⟩ :=
    Nat.forall_exists_prime_gt_and_modEq (2 ^ k) (q := 5) (a := 2) (by norm_num) (by norm_num)
  have limb : 2 ^ 64 ≤ 2 ^ k := Nat.pow_le_pow_right (by norm_num) large
  have odd : n % 2 = 1 := prime.eq_two_or_odd.resolve_left (by omega)
  refine ⟨n, prime, odd, ?_, findPq_five (jacobiSym_five odd residue), ?_, ?_⟩
  · intro entry member divides
    have bounds := pprods_bounds (List.mem_of_mem_take member)
    have := Nat.le_of_dvd bounds.1 divides
    omega
  · norm_num
    omega
  · have size := lt_two_pow_sizeinbase2 (n := (n : ℤ) + 1) (by omega)
    have chain : 2 ^ k < 2 ^ mpzSizeinbase2 ((n : ℤ) + 1) := by zify at above ⊢; omega
    exact (Nat.pow_lt_pow_iff_right (by norm_num)).mp chain

/-- Some odd primes are too long for the bits to be counted. -/
theorem isPrimeBpsw_long : ¬∀ (n p : ℕ) (q : ℤ), n.Prime → n % 2 = 1 →
    (∀ entry ∈ pprods.take (nPprods n), ¬n ∣ entry) → findPq n = .done (some (p, q)) → 2 * |q| < n →
    ∃ ret, isPrimeBpsw n = .done ret ∧ ret ≠ 0 := by
  intro accepts
  obtain ⟨n, prime, odd, clear, found, small, long⟩ := exists_long_prime (2 ^ 31) (by norm_num)
  obtain ⟨ret, run, -⟩ := accepts n 5 5 prime odd clear found small
  rw [isPrimeBpsw_thrown prime odd clear found (by omega)] at run
  cases run

end Bpsw

end ChiaVdf.PrimeTest
