import Mathlib.FieldTheory.IsAlgClosed.AlgebraicClosure
import Mathlib.NumberTheory.LegendreSymbol.Basic
import Mathlib.Tactic

/-! The two Lucas sequences of a pair `P`, `Q`: how an index is doubled, and their values at
`p + 1` for a prime `p` that leaves `P² - 4Q` without a square root. -/
namespace Lucas

variable {R S : Type*} [CommRing R] [CommRing S]

def U (P Q : R) : ℕ → R
  | 0 => 0
  | 1 => 1
  | n + 2 => P * U P Q (n + 1) - Q * U P Q n

def V (P Q : R) : ℕ → R
  | 0 => 1 + 1
  | 1 => P
  | n + 2 => P * V P Q (n + 1) - Q * V P Q n

variable (P Q : R)

@[simp] theorem U_zero : U P Q 0 = 0 := rfl
@[simp] theorem U_one : U P Q 1 = 1 := rfl
theorem U_step (n : ℕ) : U P Q (n + 2) = P * U P Q (n + 1) - Q * U P Q n := rfl
@[simp] theorem V_zero : V P Q 0 = 2 := one_add_one_eq_two
@[simp] theorem V_one : V P Q 1 = P := rfl
theorem V_step (n : ℕ) : V P Q (n + 2) = P * V P Q (n + 1) - Q * V P Q n := rfl

theorem U_two : U P Q 2 = P := by simp [U_step]

theorem V_eq (n : ℕ) : V P Q n = 2 * U P Q (n + 1) - P * U P Q n := by
  induction n using Nat.twoStepInduction with
  | zero => simp
  | one => simp [U_two]; ring
  | more n first second =>
    rw [V_step, second, first, U_step P Q (n + 1), U_step P Q n]
    ring

theorem U_add (m n : ℕ) :
    U P Q (m + n + 1) = U P Q (m + 1) * U P Q (n + 1) - Q * (U P Q m * U P Q n) := by
  induction n using Nat.twoStepInduction with
  | zero => simp
  | one =>
    rw [U_step P Q m, U_two]
    simp
    ring
  | more n first second =>
    have next : U P Q (m + (n + 2) + 1) = P * U P Q (m + (n + 1) + 1) - Q * U P Q (m + n + 1) :=
      U_step P Q (m + n + 1)
    rw [next, second, first, U_step P Q (n + 1), U_step P Q n]
    ring

theorem U_double_succ (k : ℕ) : U P Q (2 * k + 1) = U P Q (k + 1) ^ 2 - Q * U P Q k ^ 2 := by
  have sum := U_add P Q k k
  rw [← two_mul] at sum
  rw [sum]
  ring

theorem U_double_succ_succ (k : ℕ) :
    U P Q (2 * k + 2) = P * U P Q (k + 1) ^ 2 - 2 * Q * (U P Q k * U P Q (k + 1)) := by
  have sum := U_add P Q k (k + 1)
  rw [show k + (k + 1) + 1 = 2 * k + 2 by omega] at sum
  rw [sum, U_step]
  ring

theorem U_double (k : ℕ) :
    U P Q (2 * k) = 2 * (U P Q k * U P Q (k + 1)) - P * U P Q k ^ 2 := by
  cases k with
  | zero => simp
  | succ k =>
    rw [show 2 * (k + 1) = 2 * k + 2 by omega, U_double_succ_succ, U_step]
    ring

theorem map_V (f : R →+* S) (n : ℕ) : f (V P Q n) = V (f P) (f Q) n := by
  induction n using Nat.twoStepInduction with
  | zero => rw [V_zero, V_zero, map_ofNat]
  | one => simp
  | more n first second => simp only [V_step, map_sub, map_mul, first, second]

/-- Binet's formula: the sum of the powers of the two roots of `X² - P X + Q`. -/
theorem V_eq_pow_add_pow {P Q α β : R} (sum : α + β = P) (product : α * β = Q) (n : ℕ) :
    V P Q n = α ^ n + β ^ n := by
  induction n using Nat.twoStepInduction with
  | zero => norm_num
  | one => simp [sum]
  | more n first second =>
    rw [V_step, first, second, ← sum, ← product]
    ring

section Prime

variable {p : ℕ} [Fact p.Prime] {K : Type*} [Field K] [Algebra (ZMod p) K] {δ : K}

/-- Where the discriminant is no square, Frobenius turns its root over. -/
theorem pow_card_root {D : ℤ} (odd : p ≠ 2) (root : δ ^ 2 = (D : K))
    (nonresidue : legendreSym p D = -1) : δ ^ p = -δ := by
  have half : p = 2 * (p / 2) + 1 := by
    have := (Fact.out : p.Prime).eq_two_or_odd
    omega
  have euler : ((D : ZMod p) ^ (p / 2) : ZMod p) = -1 := by
    rw [← legendreSym.eq_pow, nonresidue]
    simp
  have upstairs : (D : K) ^ (p / 2) = -1 := by
    have := congrArg (algebraMap (ZMod p) K) euler
    simpa using this
  calc δ ^ p = (δ ^ 2) ^ (p / 2) * δ := by rw [← pow_mul, ← pow_succ, ← half]
    _ = -δ := by simp [root, upstairs]

theorem pow_card_intCast (a : ℤ) : (a : K) ^ p = a := by
  have := congrArg (algebraMap (ZMod p) K) (ZMod.pow_card (a : ZMod p))
  rwa [map_pow, map_intCast] at this

/-- Frobenius exchanges the two roots of the characteristic polynomial. -/
theorem pow_card_swap (a : ℤ) (turned : δ ^ p = -δ) :
    (((a : K) + δ) / 2) ^ p = ((a : K) - δ) / 2 := by
  have two : (2 : K) ^ p = 2 := by exact_mod_cast pow_card_intCast (p := p) (K := K) 2
  have : CharP K p := charP_of_injective_algebraMap (algebraMap (ZMod p) K).injective p
  rw [div_pow, add_pow_char, pow_card_intCast, turned, two, sub_eq_add_neg]

theorem two_ne_zero_of_odd (odd : p ≠ 2) : (2 : K) ≠ 0 := by
  have : CharP K p := charP_of_injective_algebraMap (algebraMap (ZMod p) K).injective p
  intro zero
  have divides := (CharP.cast_eq_zero_iff K p 2).mp (by exact_mod_cast zero)
  exact odd ((Nat.prime_dvd_prime_iff_eq Fact.out Nat.prime_two).mp divides)

theorem V_card_succ (odd : p ≠ 2) (P Q : ℤ) (root : δ ^ 2 = ((P ^ 2 - 4 * Q : ℤ) : K))
    (nonresidue : legendreSym p (P ^ 2 - 4 * Q) = -1) :
    V (P : K) (Q : K) (p + 1) = 2 * Q := by
  have two := two_ne_zero_of_odd (K := K) odd
  have turned := pow_card_root odd root nonresidue
  have back : (-δ) ^ p = - -δ := by
    apply (Fact.out : p.Prime).odd_of_ne_two odd |>.neg_pow δ |>.trans
    simp [turned]
  have first := pow_card_swap P turned
  have second := pow_card_swap P back
  rw [← sub_eq_add_neg, sub_neg_eq_add] at second
  have sum : ((P : K) + δ) / 2 + ((P : K) - δ) / 2 = P := by field_simp; ring
  have product : ((P : K) + δ) / 2 * (((P : K) - δ) / 2) = Q := by
    push_cast at root
    field_simp
    linear_combination -root
  calc V (P : K) (Q : K) (p + 1)
      = (((P : K) + δ) / 2) ^ (p + 1) + (((P : K) - δ) / 2) ^ (p + 1) := V_eq_pow_add_pow sum product _
    _ = ((P : K) - δ) / 2 * (((P : K) + δ) / 2) + ((P : K) + δ) / 2 * (((P : K) - δ) / 2) := by
        simp [pow_succ, first, second]
    _ = 2 * Q := by linear_combination 2 * product

end Prime

/-- The Lucas-V test: a prime for which the discriminant is no square passes it. -/
theorem V_prime_succ {p : ℕ} [Fact p.Prime] (odd : p ≠ 2) (P Q : ℤ)
    (nonresidue : legendreSym p (P ^ 2 - 4 * Q) = -1) : V P Q (p + 1) ≡ 2 * Q [ZMOD p] := by
  obtain ⟨δ, root⟩ := IsAlgClosed.exists_pow_nat_eq
    ((P ^ 2 - 4 * Q : ℤ) : AlgebraicClosure (ZMod p)) (show 0 < 2 by norm_num)
  have upstairs := V_card_succ odd P Q root nonresidue
  have cast := map_V (P : ZMod p) (Q : ZMod p) (algebraMap (ZMod p) (AlgebraicClosure (ZMod p))) (p + 1)
  simp only [map_intCast] at cast
  have descended : V (P : ZMod p) (Q : ZMod p) (p + 1) = 2 * Q := by
    apply (algebraMap (ZMod p) (AlgebraicClosure (ZMod p))).injective
    rw [cast, upstairs, map_mul, map_intCast, map_ofNat]
  have whole := map_V P Q (Int.castRingHom (ZMod p)) (p + 1)
  apply (ZMod.intCast_eq_intCast_iff _ _ p).mp
  simp only [eq_intCast] at whole
  push_cast
  exact whole.trans descended

end Lucas
