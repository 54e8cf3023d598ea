import ChiaVdf.Exec
import ChiaVdf.ByteString

/-! `HashPrime`: hash a counter that starts at the seed, set the masked bits and the lowest
one, and repeat until the number is prime. Hash and primality test are parameters. -/
namespace ChiaVdf

namespace HashPrime

/-- Adds one to a number stored with its last byte first; the carry runs on while bytes
become zero. -/
def incrementLsb : ByteString → ByteString
  | [] => []
  | byte :: bytes => if byte + 1 ≠ 0 then (byte + 1) :: bytes else (byte + 1) :: incrementLsb bytes

def incrementSprout (sprout : ByteString) : ByteString := (incrementLsb sprout.reverse).reverse

/-- The inner loop: hashes until the blob has `bytes` bytes. Every turn adds at least one. -/
def expand (sha : ByteString → Vector UInt8 32) (bytes : ℕ) :
    ℕ → ByteString → ByteString → ByteString × ByteString
  | 0, sprout, blob => (sprout, blob)
  | fuel + 1, sprout, blob =>
    if blob.length < bytes then
      let sprout := incrementSprout sprout
      let hash := (sha sprout).toList
      expand sha bytes fuel sprout (blob ++ hash.take (min hash.length (bytes - blob.length)))
    else (sprout, blob)

def setBit (p b : ℕ) : ℕ := p ||| 2 ^ b

end HashPrime

open HashPrime in
def hashPrime (sha : ByteString → Vector UInt8 32) (prime : ℕ → Bool) (length : ℕ)
    (bitmask : List ℕ) : ℕ → ByteString → Exec ℤ
  | 0, _ => .diverged
  | fuel + 1, sprout =>
    if length % 8 ≠ 0 then .fault .assertion
    else
      let (sprout, blob) := expand sha (length / 8) (length / 8) sprout []
      let p := setBit (bitmask.foldl setBit (ByteString.ofMsbFirst blob)) 0
      if prime p then .done p else hashPrime sha prime length bitmask fuel sprout

def B_bits : ℕ := 264
def B_bytes : ℕ := (B_bits + 7) / 8

namespace HashPrime

theorem length_expand (sha : ByteString → Vector UInt8 32) (bytes fuel : ℕ) (sprout blob : ByteString)
    (inside : blob.length ≤ bytes) (enough : bytes ≤ blob.length + fuel) :
    (expand sha bytes fuel sprout blob).2.length = bytes := by
  induction fuel generalizing sprout blob with
  | zero => simp only [expand]; omega
  | succ fuel ih =>
    simp only [expand]
    split
    · next short =>
      apply ih <;> simp <;> omega
    · simp only; omega

theorem le_setBit (p b : ℕ) : p ≤ setBit p b := Nat.left_le_or

theorem two_pow_le_setBit (p b : ℕ) : 2 ^ b ≤ setBit p b := Nat.right_le_or

theorem setBit_lt (small : p < 2 ^ k) (below : b < k) : setBit p b < 2 ^ k :=
  Nat.or_lt_two_pow small (Nat.pow_lt_pow_right (by norm_num) below)

end HashPrime

open HashPrime in
/-- With its top bit masked in, the prime has exactly `B_bits` bits. -/
theorem hashPrime_bounds {sha : ByteString → Vector UInt8 32} {prime : ℕ → Bool} (fuel : ℕ)
    (seed : ByteString) (run : hashPrime sha prime B_bits [B_bits - 1] fuel seed = .done B) :
    2 ^ 263 ≤ B ∧ B < 2 ^ 264 := by
  induction fuel generalizing seed with
  | zero => cases run
  | succ fuel ih =>
    simp only [hashPrime] at run
    split at run
    · cases run
    split at run
    · have small : ByteString.ofMsbFirst (expand sha (B_bits / 8) (B_bits / 8) seed []).2 < 2 ^ 264 := by
        have := ByteString.ofMsbFirst_lt (expand sha (B_bits / 8) (B_bits / 8) seed []).2
        rw [length_expand _ _ _ _ _ (by simp) (by simp)] at this
        rwa [show (256 : ℕ) = 2 ^ 8 by norm_num, ← pow_mul] at this
      obtain rfl := Exec.done.inj run
      generalize ByteString.ofMsbFirst _ = p at *
      have top := two_pow_le_setBit p 263
      have low := le_setBit (setBit p 263) 0
      have high := setBit_lt (setBit_lt small (show 263 < 264 by norm_num)) (show 0 < 264 by norm_num)
      simp only [B_bits, List.foldl_cons, List.foldl_nil]
      exact ⟨by exact_mod_cast top.trans low, by exact_mod_cast high⟩
    · exact ih _ run

end ChiaVdf
