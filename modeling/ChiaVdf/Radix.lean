import Mathlib.Data.Nat.Digits.Lemmas
import Mathlib.Tactic

/-! Numbers as sequences of fields: cutting a field out, fields of a truncated number, values that are
too large for their field, and the top field of a signed number. -/
namespace Radix

variable {b n : ℕ}

/-- The fields put together again are what the number of fields can hold. -/
theorem sum_fields (b k n : ℕ) : ∑ i ∈ Finset.range k, n / b ^ i % b * b ^ i = n % b ^ k := by
  induction k with
  | zero => simp [Nat.mod_one]
  | succ k ih => rw [Finset.sum_range_succ, ih, Nat.mod_pow_succ, Nat.mul_comm (b ^ k)]

theorem field_truncate {bits start width : ℕ} (inside : start + width ≤ bits) :
    n % 2 ^ bits / 2 ^ start % 2 ^ width = n / 2 ^ start % 2 ^ width := by
  obtain ⟨rest, rfl⟩ := Nat.exists_eq_add_of_le inside
  have split : (2 : ℕ) ^ (start + width + rest) = 2 ^ start * 2 ^ (width + rest) := by
    rw [← pow_add, Nat.add_assoc]
  rw [split, Nat.mod_mul_right_div_self, Nat.mod_mod_of_dvd _ (pow_dvd_pow 2 (Nat.le_add_right _ _))]

/-- A value that is too large for its field spoils only the fields above. -/
theorem field_ofDigits {digits : List ℕ} {i : ℕ} (base : 1 < b) (inside : i < digits.length)
    (small : ∀ d ∈ digits.take i, d < b) : Nat.ofDigits b digits / b ^ i % b = digits[i] % b := by
  have length : (digits.take i).length = i := List.length_take_of_le inside.le
  have split : Nat.ofDigits b digits =
      Nat.ofDigits b (digits.take i) + b ^ i * Nat.ofDigits b (digits.drop i) := by
    conv_lhs => rw [← List.take_append_drop i digits, Nat.ofDigits_append, length]
  have below : Nat.ofDigits b (digits.take i) < b ^ i := by
    have bound := Nat.ofDigits_lt_base_pow_length base small
    rwa [length] at bound
  rw [split, Nat.add_mul_div_left _ _ (Nat.pow_pos (by omega)), Nat.div_eq_of_lt below, Nat.zero_add,
    List.drop_eq_getElem_cons inside, Nat.ofDigits_cons]
  simp

/-- The fields in another order of evaluation: the highest first. -/
theorem foldr_fields (bits k : ℕ) (word : ℕ → ℕ) :
    ((List.range k).map word).foldr (fun w tmp => tmp * 2 ^ bits + w) 0 =
      ∑ j ∈ Finset.range k, word j * 2 ^ (bits * j) := by
  induction k generalizing word with
  | zero => rfl
  | succ k ih =>
    rw [List.range_succ_eq_map, List.map_cons, List.foldr_cons, List.map_map, ih, Finset.sum_range_succ',
      Finset.sum_mul]
    congr 1
    · refine Finset.sum_congr rfl fun j _ => ?_
      rw [Function.comp_apply, Nat.mul_succ, pow_add, Nat.mul_assoc]
    · simp

/-- The low part, and the rest read as a signed field: nothing is lost if the number is in its range, whatever
multiple of the whole range was added. -/
theorem signed_split {m : ℤ} (positive : 0 < m) (p : ℕ) {v : ℤ} (times : ℤ) (low : -(m * 2 ^ p) ≤ v)
    (high : v < m * 2 ^ p) :
    v % m + (v / m + times * 2 ^ (p + 1)).bmod (2 ^ (p + 1)) * m = v := by
  have top : (v / m + times * 2 ^ (p + 1)).bmod (2 ^ (p + 1)) = v / m := by
    have lower : -2 ^ p ≤ v / m := by
      rw [Int.le_ediv_iff_mul_le positive]
      linarith
    have upper : v / m < 2 ^ p := Int.ediv_lt_of_lt_mul positive (by linarith)
    have whole : ((2 ^ (p + 1) : ℕ) : ℤ) = 2 * 2 ^ p := by push_cast; ring
    have multiple : (times * 2 ^ (p + 1)) = ((2 ^ (p + 1) : ℕ) : ℤ) * times := by push_cast; ring
    rw [multiple, Int.add_mul_bmod_self_left]
    exact Int.bmod_eq_of_le_mul_two (by rw [whole]; linarith) (by rw [whole]; linarith)
  rw [top, Int.emod_add_ediv_mul]

end Radix
