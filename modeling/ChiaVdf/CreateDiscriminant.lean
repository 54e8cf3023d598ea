import ChiaVdf.Bqfc
import ChiaVdf.HashPrime

/-! `create_discriminant.h`, and what the search of `HashPrime` hashes. The sprout counts up from
the seed in place and wraps around in as many bytes as the seed has, so a search that hashes more
strings than that hashes one of them again, and a search that went round once never ends. -/
namespace ChiaVdf

namespace HashPrime

/-- The strings that `expand` hashes. -/
def expanded (sha : ByteString → Vector UInt8 32) (bytes : ℕ) : ℕ → ByteString → ByteString → List ByteString
  | 0, _, _ => []
  | fuel + 1, sprout, blob =>
    if blob.length < bytes then
      let sprout := incrementSprout sprout
      let hash := (sha sprout).toList
      sprout :: expanded sha bytes fuel sprout (blob ++ hash.take (min hash.length (bytes - blob.length)))
    else []

/-- What is tested for being prime. -/
def candidate (bitmask : List ℕ) (blob : ByteString) : ℕ :=
  setBit (bitmask.foldl setBit (ByteString.ofMsbFirst blob)) 0

/-- The strings that `hashPrime` hashes, turn by turn. -/
def hashed (sha : ByteString → Vector UInt8 32) (prime : ℕ → Bool) (length : ℕ) (bitmask : List ℕ) :
    ℕ → ByteString → List (List ByteString)
  | 0, _ => []
  | fuel + 1, sprout =>
    if length % 8 ≠ 0 then []
    else
      let (next, blob) := expand sha (length / 8) (length / 8) sprout []
      expanded sha (length / 8) (length / 8) sprout [] ::
        if prime (candidate bitmask blob) then [] else hashed sha prime length bitmask fuel next

/-- How many hashes a turn needs. -/
def hashesPerTurn (length : ℕ) : ℕ := (length / 8 + 31) / 32

/-- The candidate of turn `t`, counted from zero. -/
def candidateAt (sha : ByteString → Vector UInt8 32) (length : ℕ) (bitmask : List ℕ) (t : ℕ)
    (seed : ByteString) : ℕ :=
  candidate bitmask
    (expand sha (length / 8) (length / 8) (incrementSprout^[t * hashesPerTurn length] seed) []).2

end HashPrime

open HashPrime in
/-- `CreateDiscriminant`, with a budget of turns for the search. -/
def createDiscriminant (sha : ByteString → Vector UInt8 32) (prime : ℕ → Bool) (fuel : ℕ)
    (seed : ByteString) (length : ℤ) : Exec ℤ :=
  if length ≤ 0 then
    .thrown ("discriminant_size_bits must be positive (got " ++ toString length ++ ")")
  else if length > BQFC_MAX_D_BITS then .thrown "discriminant_size_bits exceeds maximum allowed value"
  else if length % 8 ≠ 0 then
    .thrown ("discriminant_size_bits must be a multiple of 8 (got " ++ toString length ++ ")")
  else if seed.isEmpty then .thrown "seed cannot be empty"
  else do
    let p ← hashPrime sha prime length.toNat [0, 1, 2, length.toNat - 1] fuel seed
    return p * -1

namespace HashPrime

section Counter

variable {seed bytes : ByteString} {i j : ℕ}

@[simp] theorem length_incrementLsb (bytes : ByteString) : (incrementLsb bytes).length = bytes.length := by
  induction bytes with
  | nil => rfl
  | cons byte bytes ih =>
    simp only [incrementLsb]
    split <;> simp [ih]

/-- The carry past the last byte is lost. -/
theorem ofLsbFirst_incrementLsb (bytes : ByteString) :
    ByteString.ofLsbFirst (incrementLsb bytes) = (ByteString.ofLsbFirst bytes + 1) % 256 ^ bytes.length := by
  induction bytes with
  | nil => simp [incrementLsb, ByteString.ofLsbFirst]
  | cons byte bytes ih =>
    have low := byte.toNat_lt
    have sum : (byte + 1).toNat = (byte.toNat + 1) % 256 := by simp
    have high := ByteString.ofLsbFirst_lt bytes
    simp only [incrementLsb, List.length_cons, pow_succ']
    split
    · next carryless =>
      have below : byte.toNat + 1 < 256 := by
        by_contra full
        apply carryless
        apply UInt8.toNat_inj.mp
        rw [sum, show byte.toNat + 1 = 256 by omega]
        rfl
      rw [ByteString.ofLsbFirst, ByteString.ofLsbFirst, sum, Nat.mod_eq_of_lt below,
        Nat.mod_eq_of_lt (by omega)]
      ring
    · next carry =>
      have full : byte.toNat = 255 := by
        have zero := congrArg UInt8.toNat (not_not.mp carry)
        rw [sum] at zero
        simp at zero
        omega
      have next_block : 255 + 256 * ByteString.ofLsbFirst bytes + 1 =
          256 * (ByteString.ofLsbFirst bytes + 1) := by ring
      rw [ByteString.ofLsbFirst, ByteString.ofLsbFirst, ih, full, not_not.mp carry, next_block,
        Nat.mul_mod_mul_left]
      simp

@[simp] theorem length_incrementSprout (seed : ByteString) : (incrementSprout seed).length = seed.length := by
  simp [incrementSprout]

theorem ofMsbFirst_incrementSprout (seed : ByteString) :
    ByteString.ofMsbFirst (incrementSprout seed) = (ByteString.ofMsbFirst seed + 1) % 256 ^ seed.length := by
  simp [ByteString.ofMsbFirst, incrementSprout, ofLsbFirst_incrementLsb]

@[simp] theorem length_iterate (j : ℕ) (seed : ByteString) :
    (incrementSprout^[j] seed).length = seed.length := by
  induction j with
  | zero => rfl
  | succ j ih => rw [Function.iterate_succ_apply', length_incrementSprout, ih]

theorem ofMsbFirst_iterate (j : ℕ) (seed : ByteString) :
    ByteString.ofMsbFirst (incrementSprout^[j] seed) = (ByteString.ofMsbFirst seed + j) % 256 ^ seed.length := by
  induction j with
  | zero => exact (Nat.mod_eq_of_lt (ByteString.ofMsbFirst_lt seed)).symm
  | succ j ih =>
    rw [Function.iterate_succ_apply', ofMsbFirst_incrementSprout, ih, length_iterate, Nat.mod_add_mod]
    rfl

/-- The counter comes back after as many steps as its bytes can count. -/
theorem iterate_eq_iff :
    incrementSprout^[i] seed = incrementSprout^[j] seed ↔ i ≡ j [MOD 256 ^ seed.length] := by
  constructor
  · intro same
    have numbers := congrArg ByteString.ofMsbFirst same
    rw [ofMsbFirst_iterate, ofMsbFirst_iterate] at numbers
    exact Nat.ModEq.add_left_cancel' _ numbers
  · intro close
    have numbers : ByteString.ofMsbFirst (incrementSprout^[i] seed) =
        ByteString.ofMsbFirst (incrementSprout^[j] seed) := by
      rw [ofMsbFirst_iterate, ofMsbFirst_iterate]
      exact close.add_left _
    rw [← ByteString.msbFirst_ofMsbFirst (incrementSprout^[i] seed),
      ← ByteString.msbFirst_ofMsbFirst (incrementSprout^[j] seed), numbers, length_iterate, length_iterate]

theorem nodup_count (n : ℕ) :
    ((List.range n).map fun j => incrementSprout^[j + 1] seed).Nodup ↔ n ≤ 256 ^ seed.length := by
  rw [List.nodup_map_iff_inj_on List.nodup_range]
  constructor
  · intro distinct
    by_contra more
    have positive : 0 < 256 ^ seed.length := by positivity
    have again := distinct 0 (by simp; omega) (256 ^ seed.length) (by simp; omega)
      (iterate_eq_iff.mpr (by simp [Nat.ModEq]))
    omega
  · intro few i below j below' same
    have close := Nat.ModEq.add_right_cancel' 1 (iterate_eq_iff.mp same)
    rw [List.mem_range] at below below'
    exact close.eq_of_lt_of_lt (by omega) (by omega)

end Counter

section Turns

variable {sha : ByteString → Vector UInt8 32} {prime : ℕ → Bool} {length : ℕ} {bitmask : List ℕ}

theorem expand_spec (bytes fuel : ℕ) (sprout blob : ByteString) (inside : blob.length ≤ bytes)
    (enough : bytes ≤ blob.length + fuel) :
    (expand sha bytes fuel sprout blob).1 = incrementSprout^[(bytes - blob.length + 31) / 32] sprout ∧
      expanded sha bytes fuel sprout blob =
        (List.range ((bytes - blob.length + 31) / 32)).map fun j => incrementSprout^[j + 1] sprout := by
  induction fuel generalizing sprout blob with
  | zero =>
    have full : (bytes - blob.length + 31) / 32 = 0 := by omega
    simp [expand, expanded, full]
  | succ fuel ih =>
    simp only [expand, expanded]
    split
    · next short =>
      have taken : (blob ++ (sha (incrementSprout sprout)).toList.take
          (min (sha (incrementSprout sprout)).toList.length (bytes - blob.length))).length =
          blob.length + min 32 (bytes - blob.length) := by simp
      obtain ⟨last, list⟩ := ih (incrementSprout sprout) _ (by rw [taken]; omega) (by rw [taken]; omega)
      have count : (bytes - blob.length + 31) / 32 =
          (bytes - (blob.length + min 32 (bytes - blob.length)) + 31) / 32 + 1 := by omega
      rw [last, list, taken, count, Function.iterate_succ_apply, List.range_succ_eq_map]
      simp [Function.comp_def]
    · have full : (bytes - blob.length + 31) / 32 = 0 := by omega
      simp [full]

theorem expand_turn (sprout : ByteString) :
    (expand sha (length / 8) (length / 8) sprout []).1 = incrementSprout^[hashesPerTurn length] sprout :=
  (expand_spec _ _ sprout [] (by simp) (by simp)).1

theorem expanded_turn (sprout : ByteString) : expanded sha (length / 8) (length / 8) sprout [] =
    (List.range (hashesPerTurn length)).map fun j => incrementSprout^[j + 1] sprout :=
  (expand_spec _ _ sprout [] (by simp) (by simp)).2

theorem candidateAt_succ (t : ℕ) (seed : ByteString) : candidateAt sha length bitmask (t + 1) seed =
    candidateAt sha length bitmask t (incrementSprout^[hashesPerTurn length] seed) := by
  rw [candidateAt, candidateAt, ← Function.iterate_add_apply, Nat.succ_mul]

theorem hashed_succ (whole : length % 8 = 0) (fuel : ℕ) (seed : ByteString) :
    hashed sha prime length bitmask (fuel + 1) seed =
      ((List.range (hashesPerTurn length)).map fun j => incrementSprout^[j + 1] seed) ::
        if prime (candidateAt sha length bitmask 0 seed) then []
        else hashed sha prime length bitmask fuel (incrementSprout^[hashesPerTurn length] seed) := by
  simp only [hashed, whole, ne_eq, not_true, if_false, expanded_turn, expand_turn, candidateAt, zero_mul,
    Function.iterate_zero_apply]

theorem hashPrime_succ (whole : length % 8 = 0) (fuel : ℕ) (seed : ByteString) :
    hashPrime sha prime length bitmask (fuel + 1) seed =
      if prime (candidateAt sha length bitmask 0 seed) then
        .done (candidateAt sha length bitmask 0 seed : ℤ)
      else hashPrime sha prime length bitmask fuel (incrementSprout^[hashesPerTurn length] seed) := by
  simp only [hashPrime, whole, ne_eq, not_true, if_false, expand_turn, candidateAt, candidate, zero_mul,
    Function.iterate_zero_apply]

/-- The strings hashed in a run count up from the seed. -/
theorem hashed_flatten (fuel : ℕ) (seed : ByteString) :
    (hashed sha prime length bitmask fuel seed).flatten =
      (List.range ((hashed sha prime length bitmask fuel seed).length * hashesPerTurn length)).map
        fun j => incrementSprout^[j + 1] seed := by
  induction fuel generalizing seed with
  | zero => simp [hashed]
  | succ fuel ih =>
    by_cases whole : length % 8 = 0
    · rw [hashed_succ whole]
      split
      · simp
      · rw [List.flatten_cons, List.length_cons, ih, Nat.succ_mul, Nat.add_comm, List.range_add, List.map_append,
          List.map_map]
        congr 1
        apply List.map_congr_left
        intro j _
        have shifted : hashesPerTurn length + j + 1 = j + 1 + hashesPerTurn length := by omega
        rw [Function.comp_apply, shifted]
        exact (Function.iterate_add_apply _ _ _ _).symm
    · simp [hashed, whole]

/-- In one run no string is hashed twice exactly if the hashes are no more than the seed's bytes can count. -/
theorem hashed_nodup (fuel : ℕ) (seed : ByteString) : (hashed sha prime length bitmask fuel seed).flatten.Nodup ↔
    (hashed sha prime length bitmask fuel seed).length * hashesPerTurn length ≤ 256 ^ seed.length := by
  rw [hashed_flatten, nodup_count]

theorem length_hashed_of_none (whole : length % 8 = 0) (fuel : ℕ) (seed : ByteString)
    (none : ∀ t, t + 1 < fuel → prime (candidateAt sha length bitmask t seed) = false) :
    (hashed sha prime length bitmask fuel seed).length = fuel := by
  induction fuel generalizing seed with
  | zero => rfl
  | succ fuel ih =>
    rw [hashed_succ whole, List.length_cons]
    congr 1
    cases fuel with
    | zero => split <;> simp [hashed]
    | succ fuel =>
      rw [none 0 (by omega)]
      exact ih _ fun t below => by rw [← candidateAt_succ]; exact none (t + 1) (by omega)

theorem length_hashed_of_prime (whole : length % 8 = 0) (t fuel : ℕ) (seed : ByteString)
    (found : prime (candidateAt sha length bitmask t seed) = true) :
    (hashed sha prime length bitmask fuel seed).length ≤ t + 1 := by
  induction t generalizing fuel seed with
  | zero =>
    cases fuel with
    | zero => simp [hashed]
    | succ fuel => rw [hashed_succ whole, if_pos found]; simp
  | succ t ih =>
    cases fuel with
    | zero => simp [hashed]
    | succ fuel =>
      rw [hashed_succ whole, List.length_cons]
      split
      · simp
      · rw [candidateAt_succ] at found
        exact Nat.succ_le_succ (ih fuel _ found)

/-- However long the search goes on, no string is hashed twice exactly if one of the candidates made from
the first round of the counter is prime. -/
theorem hashed_distinct_iff (sha : ByteString → Vector UInt8 32) (prime : ℕ → Bool) (length : ℕ)
    (bitmask : List ℕ) (seed : ByteString) (whole : length % 8 = 0) (positive : 0 < length) :
    (∀ fuel, (hashed sha prime length bitmask fuel seed).flatten.Nodup) ↔
      ∃ t < 256 ^ seed.length / hashesPerTurn length, prime (candidateAt sha length bitmask t seed) = true := by
  have some_hash : 0 < hashesPerTurn length := by unfold hashesPerTurn; omega
  constructor
  · intro distinct
    by_contra none
    push Not at none
    have long := @length_hashed_of_none _ prime _ _ whole (256 ^ seed.length / hashesPerTurn length + 1) seed
      fun t below => by simpa using none t (by omega)
    have few := (hashed_nodup _ _).mp (distinct (256 ^ seed.length / hashesPerTurn length + 1))
    rw [long, ← Nat.le_div_iff_mul_le some_hash] at few
    omega
  · rintro ⟨t, below, found⟩ fuel
    rw [hashed_nodup, ← Nat.le_div_iff_mul_le some_hash]
    exact (length_hashed_of_prime whole t fuel seed found).trans below

theorem hashed_distinct_iff_zero :
    (∀ fuel, (hashed (fun _ => Vector.replicate 32 0) (fun _ => true) 264 [263] fuel [0]).flatten.Nodup) ↔
      ∃ t < 256 ^ ([0] : ByteString).length / hashesPerTurn 264,
        (fun _ => true) (candidateAt (fun _ => Vector.replicate 32 0) 264 [263] t [0]) = true :=
  hashed_distinct_iff (fun _ => Vector.replicate 32 0) (fun _ => true) 264 [263] [0] rfl (by norm_num)

theorem hashPrime_diverged_iff (whole : length % 8 = 0) (fuel : ℕ) (seed : ByteString) :
    hashPrime sha prime length bitmask fuel seed = .diverged ↔
      ∀ t < fuel, prime (candidateAt sha length bitmask t seed) = false := by
  induction fuel generalizing seed with
  | zero => simp [hashPrime]
  | succ fuel ih =>
    rw [hashPrime_succ whole]
    split
    · next found =>
      constructor
      · intro diverged
        cases diverged
      · intro none
        rw [none 0 (by omega)] at found
        cases found
    · next composite =>
      rw [ih]
      constructor
      · intro none t below
        cases t with
        | zero => simpa using composite
        | succ t => rw [candidateAt_succ]; exact none t (by omega)
      · intro none t below
        rw [← candidateAt_succ]
        exact none (t + 1) (by omega)

theorem candidateAt_mod (t : ℕ) (seed : ByteString) :
    candidateAt sha length bitmask t seed = candidateAt sha length bitmask (t % 256 ^ seed.length) seed := by
  unfold candidateAt
  congr 3
  exact iterate_eq_iff.mpr ((Nat.mod_modEq t _).symm.mul_right _)

/-- A search that finds nothing in its first rounds of the counter never returns. -/
theorem hashPrime_endless (whole : length % 8 = 0) (seed : ByteString)
    (none : ∀ t < 256 ^ seed.length, prime (candidateAt sha length bitmask t seed) = false) (fuel : ℕ) :
    hashPrime sha prime length bitmask fuel seed = .diverged := by
  rw [hashPrime_diverged_iff whole]
  intro t _
  rw [candidateAt_mod]
  exact none _ (Nat.mod_lt _ (by positivity))

theorem createDiscriminant_endless {n : ℕ} {seed : ByteString} (positive : 0 < n) (limit : n ≤ BQFC_MAX_D_BITS)
    (whole : n % 8 = 0) (given : seed ≠ [])
    (none : ∀ t < 256 ^ seed.length, prime (candidateAt sha n [0, 1, 2, n - 1] t seed) = false) (fuel : ℕ) :
    createDiscriminant sha prime fuel seed n = .diverged := by
  have above : ¬(n : ℤ) ≤ 0 := by omega
  have below : ¬(n : ℤ) > BQFC_MAX_D_BITS := by omega
  have bytes : ¬(n : ℤ) % 8 ≠ 0 := by omega
  have nonempty : ¬seed.isEmpty = true := by simpa using given
  rw [createDiscriminant, if_neg above, if_neg below, if_neg bytes, if_neg nonempty, Int.toNat_natCast,
    hashPrime_endless whole seed none, Exec.diverged_bind]

/-- With one byte the counter comes round after 64 turns for 1024 bits. Where none of these candidates is prime,
a string is hashed twice and the search goes on for ever. -/
theorem hashed_again :
    (¬∀ fuel, (hashed (fun _ => Vector.replicate 32 0) (fun _ => false) 1024 [0, 1, 2, 1023] fuel [0]).flatten.Nodup) ∧
      ∀ fuel, createDiscriminant (fun _ => Vector.replicate 32 0) (fun _ => false) fuel [0] 1024 = .diverged := by
  constructor
  · intro distinct
    have few := (hashed_nodup _ _).mp (distinct 65)
    rw [length_hashed_of_none rfl 65 _ fun _ _ => rfl] at few
    exact absurd few (by decide)
  · exact createDiscriminant_endless (n := 1024) (by norm_num) (by decide) rfl (by simp) fun _ _ => rfl

end Turns

end HashPrime

end ChiaVdf
