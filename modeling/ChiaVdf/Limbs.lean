import Mathlib.Tactic

/-! Magnitudes as sequences of limbs, the lowest first: padding, complements, and the chains of
carries and borrows along them. -/
namespace Limbs

variable {w : ℕ}

/-- The number that the first `n` limbs stand for. -/
def total (v : ℕ → BitVec w) (n : ℕ) : ℕ := ∑ i ∈ Finset.range n, (v i).toNat * 2 ^ (w * i)

variable {v v' a b r : ℕ → BitVec w} {m n : ℕ}

@[simp] theorem total_zero (v : ℕ → BitVec w) : total v 0 = 0 := rfl

theorem total_succ (v : ℕ → BitVec w) (n : ℕ) :
    total v (n + 1) = total v n + (v n).toNat * 2 ^ (w * n) := Finset.sum_range_succ _ _

theorem total_congr (same : ∀ i < n, v i = v' i) : total v n = total v' n := by
  refine Finset.sum_congr rfl fun i hi => ?_
  rw [same i (Finset.mem_range.mp hi)]

theorem pow_limbs_succ (w n : ℕ) : 2 ^ (w * (n + 1)) = 2 ^ w * 2 ^ (w * n) := by
  rw [Nat.mul_succ, pow_add, Nat.mul_comm]

theorem total_lt (v : ℕ → BitVec w) (n : ℕ) : total v n < 2 ^ (w * n) := by
  induction n with
  | zero => simp
  | succ n ih =>
    have limb : (v n).toNat + 1 ≤ 2 ^ w := (v n).isLt
    rw [total_succ, pow_limbs_succ]
    calc total v n + (v n).toNat * 2 ^ (w * n) < 2 ^ (w * n) + (v n).toNat * 2 ^ (w * n) := by omega
      _ = ((v n).toNat + 1) * 2 ^ (w * n) := by ring
      _ ≤ 2 ^ w * 2 ^ (w * n) := Nat.mul_le_mul_right _ limb

theorem total_pad (le : m ≤ n) (v : ℕ → BitVec w) :
    total (fun i => if i < m then v i else 0) n = total v m := by
  induction n, le using Nat.le_induction with
  | base => exact total_congr fun i lt => if_pos lt
  | succ n le ih =>
    rw [total_succ, ih, if_neg (by omega)]
    simp

/-- The first limbs are what is left of a number modulo their weight. -/
theorem total_mod (le : m ≤ n) (v : ℕ → BitVec w) : total v n % 2 ^ (w * m) = total v m := by
  induction n, le using Nat.le_induction with
  | base => exact Nat.mod_eq_of_lt (total_lt v m)
  | succ n le ih =>
    have multiple : 2 ^ (w * m) ∣ (v n).toNat * 2 ^ (w * n) :=
      Dvd.dvd.mul_left (pow_dvd_pow 2 (Nat.mul_le_mul_left w le)) _
    rw [total_succ, Nat.add_mod, Nat.mod_eq_zero_of_dvd multiple, Nat.add_zero, Nat.mod_mod, ih]

theorem total_succ_eq_zero : total v (n + 1) = 0 ↔ total v n = 0 ∧ v n = 0 := by
  have weight : 0 < 2 ^ (w * n) := Nat.two_pow_pos _
  rw [total_succ, Nat.add_eq_zero_iff, Nat.mul_eq_zero, or_iff_left weight.ne', BitVec.toNat_eq]
  simp

theorem total_not (v : ℕ → BitVec w) (n : ℕ) :
    total (fun i => ~~~v i) n + total v n + 1 = 2 ^ (w * n) := by
  induction n with
  | zero => simp
  | succ n ih =>
    have limb : (~~~v n).toNat + (v n).toNat + 1 = 2 ^ w := by
      have := (v n).isLt
      rw [BitVec.toNat_not]
      omega
    rw [total_succ, total_succ, pow_limbs_succ, ← limb]
    calc total (fun i => ~~~v i) n + (~~~v n).toNat * 2 ^ (w * n) +
          (total v n + (v n).toNat * 2 ^ (w * n)) + 1
        = total (fun i => ~~~v i) n + total v n + 1 +
          ((~~~v n).toNat + (v n).toNat) * 2 ^ (w * n) := by ring
      _ = ((~~~v n).toNat + (v n).toNat + 1) * 2 ^ (w * n) := by rw [ih]; ring

/-- One more limb of a sum with carries. -/
theorem carry_succ {c carry carry' : ℕ}
    (before : total r n + carry * 2 ^ (w * n) = total a n + total b n + c)
    (limb : (r n).toNat + 2 ^ w * carry' = (a n).toNat + (b n).toNat + carry) :
    total r (n + 1) + carry' * 2 ^ (w * (n + 1)) = total a (n + 1) + total b (n + 1) + c := by
  rw [total_succ, total_succ, total_succ, pow_limbs_succ]
  calc total r n + (r n).toNat * 2 ^ (w * n) + carry' * (2 ^ w * 2 ^ (w * n))
      = total r n + ((r n).toNat + 2 ^ w * carry') * 2 ^ (w * n) := by ring
    _ = total r n + carry * 2 ^ (w * n) + ((a n).toNat + (b n).toNat) * 2 ^ (w * n) := by
        rw [limb]; ring
    _ = total a n + (a n).toNat * 2 ^ (w * n) + (total b n + (b n).toNat * 2 ^ (w * n)) + c := by
        rw [before]; ring

/-- One more limb of a difference with borrows. -/
theorem borrow_succ {borrow borrow' : ℕ}
    (before : total r n + total b n = total a n + borrow * 2 ^ (w * n))
    (limb : (r n).toNat + (b n).toNat + borrow = (a n).toNat + 2 ^ w * borrow') :
    total r (n + 1) + total b (n + 1) = total a (n + 1) + borrow' * 2 ^ (w * (n + 1)) := by
  rw [total_succ, total_succ, total_succ, pow_limbs_succ]
  have scaled : ((r n).toNat + (b n).toNat + borrow) * 2 ^ (w * n) =
      ((a n).toNat + 2 ^ w * borrow') * 2 ^ (w * n) := by rw [limb]
  rw [Nat.add_mul, Nat.add_mul, Nat.add_mul] at scaled
  calc total r n + (r n).toNat * 2 ^ (w * n) + (total b n + (b n).toNat * 2 ^ (w * n))
      = total a n + ((r n).toNat * 2 ^ (w * n) + (b n).toNat * 2 ^ (w * n) +
          borrow * 2 ^ (w * n)) := by linarith
    _ = total a n + (a n).toNat * 2 ^ (w * n) + borrow' * (2 ^ w * 2 ^ (w * n)) := by
        rw [scaled]; ring

end Limbs
