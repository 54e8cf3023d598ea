import Mathlib.Tactic

/-! Natural numbers as byte strings of a fixed width, least or most significant byte first. -/

abbrev ByteString := List UInt8

namespace ByteString

/-- The `width` low bytes of `n`, least significant first. -/
def lsbFirst : ℕ → ℕ → ByteString
  | 0, _ => []
  | width + 1, n => UInt8.ofNat n :: lsbFirst width (n / 256)

def ofLsbFirst : ByteString → ℕ
  | [] => 0
  | byte :: bytes => byte.toNat + 256 * ofLsbFirst bytes

def msbFirst (width n : ℕ) : ByteString := (lsbFirst width n).reverse

def ofMsbFirst (bytes : ByteString) : ℕ := ofLsbFirst bytes.reverse

@[simp] theorem length_lsbFirst (width n : ℕ) : (lsbFirst width n).length = width := by
  induction width generalizing n with
  | zero => rfl
  | succ width ih => simp [lsbFirst, ih]

@[simp] theorem length_msbFirst (width n : ℕ) : (msbFirst width n).length = width := by
  simp [msbFirst]

/-- Reading back loses only what the width cannot hold. -/
theorem ofLsbFirst_lsbFirst (width n : ℕ) : ofLsbFirst (lsbFirst width n) = n % 256 ^ width := by
  induction width generalizing n with
  | zero => simp [lsbFirst, ofLsbFirst, Nat.mod_one]
  | succ width ih =>
    rw [lsbFirst, ofLsbFirst, ih, pow_succ', Nat.mod_mul]
    simp

theorem ofLsbFirst_of_lt (small : n < 256 ^ width) : ofLsbFirst (lsbFirst width n) = n := by
  rw [ofLsbFirst_lsbFirst, Nat.mod_eq_of_lt small]

theorem ofLsbFirst_lt (bytes : ByteString) : ofLsbFirst bytes < 256 ^ bytes.length := by
  induction bytes with
  | nil => simp [ofLsbFirst]
  | cons byte bytes ih =>
    have := byte.toNat_lt
    rw [ofLsbFirst, List.length_cons, pow_succ]
    omega

theorem lsbFirst_ofLsbFirst (bytes : ByteString) : lsbFirst bytes.length (ofLsbFirst bytes) = bytes := by
  induction bytes with
  | nil => rfl
  | cons byte bytes ih =>
    have low := byte.toNat_lt
    have rest : (byte.toNat + 256 * ofLsbFirst bytes) / 256 = ofLsbFirst bytes := by omega
    rw [List.length_cons, lsbFirst, ofLsbFirst, rest, ih]
    congr 1
    apply UInt8.toNat_inj.mp
    simp

theorem lsbFirst_zero (width : ℕ) : lsbFirst width 0 = List.replicate width 0 := by
  induction width with
  | zero => rfl
  | succ width ih => simp [lsbFirst, ih, List.replicate_succ]

/-- A wider field is the number followed by zero bytes. -/
theorem lsbFirst_append_zeros (small : n < 256 ^ width) (extra : ℕ) :
    lsbFirst width n ++ List.replicate extra 0 = lsbFirst (width + extra) n := by
  induction width generalizing n with
  | zero =>
    have : n = 0 := by simpa using small
    simp [this, lsbFirst, lsbFirst_zero]
  | succ width ih =>
    have high : n / 256 < 256 ^ width := by
      rw [Nat.div_lt_iff_lt_mul (by norm_num), ← pow_succ]
      exact small
    rw [Nat.add_right_comm, lsbFirst, lsbFirst, List.cons_append, ih high]

theorem ofMsbFirst_of_lt (small : n < 256 ^ width) : ofMsbFirst (msbFirst width n) = n := by
  rw [ofMsbFirst, msbFirst, List.reverse_reverse, ofLsbFirst_of_lt small]

theorem ofMsbFirst_lt (bytes : ByteString) : ofMsbFirst bytes < 256 ^ bytes.length := by
  have := ofLsbFirst_lt bytes.reverse
  rwa [List.length_reverse] at this

theorem msbFirst_ofMsbFirst (bytes : ByteString) : msbFirst bytes.length (ofMsbFirst bytes) = bytes := by
  have := lsbFirst_ofLsbFirst bytes.reverse
  rw [List.length_reverse] at this
  rw [msbFirst, ofMsbFirst, this, List.reverse_reverse]

end ByteString
