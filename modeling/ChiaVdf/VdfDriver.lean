import ChiaVdf.HwMessage
import ChiaVdf.Radix

/-! The number format of `vdf_driver.cpp`: a number is cut into coefficients, these are packed with redundant bits,
and the packed number goes out word by word. The functions of the source return `size`, which their callers add to the
offset; here they return the buffer. -/
namespace ChiaVdf

structure VdfDriver where
  WORD_BITS : ℕ
  REDUNDANT_BITS : ℕ
  SIGNED : Bool
  deriving DecidableEq, Repr

/-- `mpz_get_ui`: the low bits of the absolute value. -/
def mpzGetUi (n : ℤ) : ℕ := n.natAbs % 2 ^ 64

/-- `mpz_tdiv_q_2exp`. -/
def mpzTdivQ2exp (n : ℤ) (bits : ℕ) : ℤ := n.tdiv (2 ^ bits)

namespace VdfDriver

open HwMessage (blit)

def REG_BITS : ℕ := 32
def REG_BYTES : ℕ := 32 / 8

/-- The turns of `for (int i = n - 1; i >= 0; i--)`, where `n` is a `size_t`. -/
def intTurns (n : ℕ) : ℕ :=
  let i := (n + (2 ^ 32 - 1)) % 2 ^ 32
  if i < 2 ^ 31 then i + 1 else 0

/-- `write_bytes` for a `uint32_t`: big endian. -/
def writeBytes32 (offset : ℕ) (buf : ByteString) (val : ℕ) : Exec ByteString :=
  blit buf offset (ByteString.msbFirst REG_BYTES val)

/-- `write_bytes` for a `uint64_t`: the low word first. -/
def writeBytes64 (offset : ℕ) (buf : ByteString) (val : ℕ) : Exec ByteString := do
  let buf ← writeBytes32 offset buf (val % 2 ^ 32)
  writeBytes32 (offset + REG_BYTES) buf (val >>> REG_BITS % 2 ^ 32)

/-- The coefficients, least significant first. The last one does not get masked. -/
def coefficients (drv : VdfDriver) : ℕ → ℤ → List ℕ
  | 0, tmp => [mpzGetUi tmp % 2 ^ 32]
  | rest + 1, tmp =>
    (mpzGetUi tmp &&& (2 ^ drv.WORD_BITS - 1) % 2 ^ 32) ::
      coefficients drv rest (mpzTdivQ2exp tmp drv.WORD_BITS)

/-- The loops that put coefficients, or words, together, most significant first. -/
def pack (bits : ℕ) (coeffs : List ℕ) : ℕ :=
  (coeffs.take (intTurns coeffs.length)).foldr (fun coeff tmp => tmp * 2 ^ bits + coeff) 0

/-- The words of a number, 32 bits at a time. -/
def writeWords : ℕ → ℕ → ByteString → ℕ → Exec ByteString
  | 0, _, buf, _ => .done buf
  | turns + 1, offset, buf, tmp => do
    let buf ← writeBytes32 offset buf (mpzGetUi tmp &&& 2 ^ REG_BITS - 1)
    writeWords turns (offset + REG_BYTES) buf (tmp / 2 ^ REG_BITS)

/-- A negative number is taken from a power of two, whose exponent is an `unsigned`. -/
def biased (drv : VdfDriver) (val : ℤ) (numCoeffs : ℕ) : ℤ :=
  if val < 0 then 2 ^ ((numCoeffs * drv.WORD_BITS + drv.REDUNDANT_BITS) % 2 ^ 32) - -val else val

/-- `write_bytes` for an `mpz_t`. -/
def writeBytes (drv : VdfDriver) (size offset : ℕ) (buf : ByteString) (val : ℤ) (numCoeffs : ℕ) :
    Exec ByteString := do
  let coeffs := drv.coefficients ((numCoeffs + (2 ^ 64 - 1)) % 2 ^ 64) (drv.biased val numCoeffs)
  let tmp := pack drv.REDUNDANT_BITS coeffs
  let buf ← blit buf offset (List.replicate size 0)
  if size % REG_BYTES ≠ 0 then .fault .assertion
  else writeWords (size / REG_BYTES) offset buf tmp

/-- `read_bytes` for a `uint32_t`. -/
def readBytes32 (offset : ℕ) (buf : ByteString) : Exec ℕ :=
  if offset + REG_BYTES ≤ buf.length then .done (ByteString.ofMsbFirst ((buf.drop offset).take REG_BYTES))
  else .fault .outOfBounds

/-- `read_bytes` for a `uint64_t`. -/
def readBytes64 (offset : ℕ) (buf : ByteString) : Exec ℕ := do
  let low ← readBytes32 offset buf
  let high ← readBytes32 (offset + REG_BYTES) buf
  return low ||| high <<< REG_BITS

def gather : ℕ → ℕ → ByteString → Exec (List ℕ)
  | 0, _, _ => .done []
  | turns + 1, offset, buf => do
    let word ← readBytes32 offset buf
    let words ← gather turns (offset + REG_BYTES) buf
    return word :: words

/-- Unpack and reduce: `num_coeffs` more turns from the turn `i` on, or less if nothing is left. -/
def unpack (drv : VdfDriver) : ℕ → ℕ → ℕ → ℤ → ℤ
  | 0, _, _, val => val
  | turns + 1, i, tmp, val =>
    if tmp = 0 then val
    else
      let coeff := mpzGetUi tmp &&& (2 ^ drv.REDUNDANT_BITS - 1) % 2 ^ 32
      unpack drv turns (i + 1) (tmp / 2 ^ drv.REDUNDANT_BITS)
        (if drv.SIGNED ∧ coeff >>> (drv.REDUNDANT_BITS - 1) ≠ 0 then
          val - ((2 ^ drv.REDUNDANT_BITS - coeff : ℕ) : ℤ) * 2 ^ (drv.WORD_BITS * i)
        else val + coeff * 2 ^ (drv.WORD_BITS * i))

/-- `read_bytes` for an `mpz_t`. -/
def readBytes (drv : VdfDriver) (size offset : ℕ) (buf : ByteString) (numCoeffs : ℕ) : Exec ℤ := do
  let words ← gather ((size + (REG_BYTES - 1)) / REG_BYTES) offset buf
  return drv.unpack numCoeffs 0 (pack REG_BITS words) 0

end VdfDriver

/-- The fields that the constructor of `ChiaDriver` sets. -/
def ChiaDriver : VdfDriver := ⟨16, 19, true⟩

namespace VdfDriver

section Words

variable {before after buf : ByteString} {offset turns n size : ℕ}

/-- The bytes of the low words of a number. -/
def wordBytes : ℕ → ℕ → ByteString
  | 0, _ => []
  | turns + 1, n => ByteString.msbFirst REG_BYTES (n % 2 ^ REG_BITS) ++ wordBytes turns (n / 2 ^ REG_BITS)

theorem REG_BYTES_eq : REG_BYTES = 4 := rfl

@[simp] theorem length_wordBytes (turns n : ℕ) : (wordBytes turns n).length = 4 * turns := by
  induction turns generalizing n with
  | zero => rfl
  | succ turns ih =>
    rw [wordBytes, List.length_append, ByteString.length_msbFirst, ih, REG_BYTES_eq]
    omega

theorem intTurns_of_le (positive : 1 ≤ n) (fits : n ≤ 2 ^ 31) : intTurns n = n := by
  have wrapped : (n + (2 ^ 32 - 1)) % 2 ^ 32 = n - 1 := by omega
  rw [intTurns, wrapped, if_pos (by omega)]
  omega

theorem intTurns_le (fits : n ≤ 2 ^ 31) : intTurns n = n := by
  rcases Nat.eq_zero_or_pos n with rfl | positive
  · decide
  · exact intTurns_of_le positive fits

theorem mask_getUi {bits : ℕ} (le : bits ≤ 32) (n : ℕ) : mpzGetUi n &&& 2 ^ bits - 1 = n % 2 ^ bits := by
  rw [Nat.and_two_pow_sub_one_eq_mod, mpzGetUi, Int.natAbs_natCast,
    Nat.mod_mod_of_dvd _ (pow_dvd_pow 2 (by omega))]

theorem writeWords_eq (turns n : ℕ) (before after : ByteString) (fits : 4 * turns ≤ after.length) :
    writeWords turns before.length (before ++ after) n =
      .done (before ++ wordBytes turns n ++ after.drop (4 * turns)) := by
  induction turns generalizing n before after with
  | zero => simp [writeWords, wordBytes]
  | succ turns ih =>
    have word : (ByteString.msbFirst REG_BYTES (n % 2 ^ REG_BITS)).length = 4 :=
      ByteString.length_msbFirst _ _
    have written : writeBytes32 before.length (before ++ after) (mpzGetUi n &&& 2 ^ REG_BITS - 1) =
        .done ((before ++ ByteString.msbFirst REG_BYTES (n % 2 ^ REG_BITS)) ++ after.drop 4) := by
      rw [mask_getUi (by decide), writeBytes32, HwMessage.blit_append _ _ _ (by omega), word]
    have next : before.length + REG_BYTES =
        (before ++ ByteString.msbFirst REG_BYTES (n % 2 ^ REG_BITS)).length := by
      rw [List.length_append, word, REG_BYTES_eq]
    have places : 4 + 4 * turns = 4 * (turns + 1) := by omega
    rw [writeWords, written, Exec.done_bind, next, ih _ _ _ (by rw [List.length_drop]; omega), wordBytes,
      List.drop_drop, places, List.append_assoc before]

/-- The word at a place of a buffer. -/
def wordAt (buf : ByteString) (offset : ℕ) : ℕ := ByteString.ofMsbFirst ((buf.drop offset).take REG_BYTES)

theorem gather_eq (fits : offset + 4 * turns ≤ buf.length) :
    gather turns offset buf = .done ((List.range turns).map fun j => wordAt buf (offset + 4 * j)) := by
  induction turns generalizing offset with
  | zero => rfl
  | succ turns ih =>
    have inside : offset + REG_BYTES ≤ buf.length := by rw [REG_BYTES_eq]; omega
    have rest : offset + REG_BYTES + 4 * turns ≤ buf.length := by rw [REG_BYTES_eq]; omega
    rw [gather, readBytes32, if_pos inside, Exec.done_bind, ih rest, Exec.done_bind, Exec.pure_eq,
      List.range_succ_eq_map, List.map_cons, List.map_map]
    congr 2
    apply List.map_congr_left
    intro j _
    rw [Function.comp_apply, REG_BYTES_eq]
    congr 1
    omega

theorem wordAt_append (before buf : ByteString) (place : ℕ) :
    wordAt (before ++ buf) (before.length + place) = wordAt buf place := by
  rw [wordAt, wordAt, List.drop_append, List.drop_of_length_le (by omega), List.nil_append,
    Nat.add_sub_cancel_left]

theorem wordAt_wordBytes {j : ℕ} (inside : j < turns) :
    wordAt (wordBytes turns n ++ after) (4 * j) = n / (2 ^ REG_BITS) ^ j % 2 ^ REG_BITS := by
  induction j generalizing turns n with
  | zero =>
    obtain ⟨turns, rfl⟩ := Nat.exists_eq_succ_of_ne_zero (by omega : turns ≠ 0)
    have word : (ByteString.msbFirst REG_BYTES (n % 2 ^ REG_BITS)).length = REG_BYTES :=
      ByteString.length_msbFirst _ _
    have small : n % 2 ^ REG_BITS < 256 ^ REG_BYTES := Nat.mod_lt _ (by decide)
    rw [wordAt, wordBytes, Nat.mul_zero, List.drop_zero, List.append_assoc, List.take_left' word,
      ByteString.ofMsbFirst_of_lt small, pow_zero, Nat.div_one]
  | succ j ih =>
    obtain ⟨turns, rfl⟩ := Nat.exists_eq_succ_of_ne_zero (by omega : turns ≠ 0)
    have word : (ByteString.msbFirst REG_BYTES (n % 2 ^ REG_BITS)).length = 4 :=
      ByteString.length_msbFirst _ _
    have place : 4 * (j + 1) = (ByteString.msbFirst REG_BYTES (n % 2 ^ REG_BITS)).length + 4 * j := by omega
    rw [wordBytes, place, List.append_assoc, wordAt_append, ih (by omega), pow_succ',
      Nat.div_div_eq_div_mul]

end Words

section Format

variable {buf : ByteString} {size offset n : ℕ} {v : ℤ}

/-- The number in a part of a buffer, its words least significant first. -/
def number (size offset : ℕ) (buf : ByteString) : ℕ :=
  ∑ j ∈ Finset.range (size / 4), wordAt buf (offset + 4 * j) * 2 ^ (32 * j)

/-- The field of 19 bits at an index. -/
def field (size offset : ℕ) (buf : ByteString) (i : ℕ) : ℕ := number size offset buf / (2 ^ 19) ^ i % 2 ^ 19

/-- The sum that a buffer stands for: its fields are signed, and 16 bits apart. -/
def value (size offset : ℕ) (buf : ByteString) (n : ℕ) : ℤ :=
  ∑ i ∈ Finset.range n, (field size offset buf i : ℤ).bmod (2 ^ 19) * 2 ^ (16 * i)

theorem pack_eq {k bits : ℕ} (fits : k ≤ 2 ^ 31) (word : ℕ → ℕ) :
    pack bits ((List.range k).map word) = ∑ j ∈ Finset.range k, word j * 2 ^ (bits * j) := by
  have length : ((List.range k).map word).length = k := by simp
  rw [pack, length, intTurns_le fits, List.take_of_length_le length.le, Radix.foldr_fields]

/-- A field with its top bit set stands for a negative number. -/
theorem bmod_field {c : ℕ} (small : c < 2 ^ 19) :
    (c : ℤ).bmod (2 ^ 19) = if c >>> 18 ≠ 0 then -((2 ^ 19 - c : ℕ) : ℤ) else c := by
  have top : c >>> 18 ≠ 0 ↔ 2 ^ 18 ≤ c := by
    rw [Nat.shiftRight_eq_div_pow]
    omega
  by_cases negative : c >>> 18 ≠ 0
  · rw [if_pos negative, Int.bmod_neg _ _ (by omega)]
    omega
  · rw [if_neg negative, Int.bmod_eq_emod_of_lt (by omega)]
    omega

theorem unpack_eq (turns i tmp : ℕ) (val : ℤ) : ChiaDriver.unpack turns i tmp val =
    val + ∑ j ∈ Finset.range turns,
      ((tmp / (2 ^ 19) ^ j % 2 ^ 19 : ℕ) : ℤ).bmod (2 ^ 19) * 2 ^ (16 * (i + j)) := by
  induction turns generalizing i tmp val with
  | zero => simp [unpack]
  | succ turns ih =>
    by_cases empty : tmp = 0
    · subst empty
      simp [unpack]
    have coeff : mpzGetUi tmp &&& (2 ^ 19 - 1) % 2 ^ 32 = tmp % 2 ^ 19 :=
      @mask_getUi 19 (by decide) tmp
    have term : (if ChiaDriver.SIGNED ∧ (tmp % 2 ^ 19) >>> 18 ≠ 0 then
        val - ((2 ^ 19 - tmp % 2 ^ 19 : ℕ) : ℤ) * 2 ^ (16 * i) else val + (tmp % 2 ^ 19 : ℕ) * 2 ^ (16 * i)) =
        val + ((tmp % 2 ^ 19 : ℕ) : ℤ).bmod (2 ^ 19) * 2 ^ (16 * i) := by
      rw [bmod_field (Nat.mod_lt _ (by decide))]
      by_cases negative : (tmp % 2 ^ 19) >>> 18 ≠ 0
      · rw [if_pos ⟨rfl, negative⟩, if_pos negative]
        ring
      · rw [if_neg fun both => negative both.2, if_neg negative]
    have later (j : ℕ) : tmp / 2 ^ 19 / (2 ^ 19) ^ j = tmp / (2 ^ 19) ^ (j + 1) := by
      rw [Nat.div_div_eq_div_mul, pow_succ' (2 ^ 19) j]
    have index (j : ℕ) : 16 * (i + 1 + j) = 16 * (i + (j + 1)) := by omega
    have turn : ChiaDriver.unpack (turns + 1) i tmp val = ChiaDriver.unpack turns (i + 1) (tmp / 2 ^ 19)
        (val + ((tmp % 2 ^ 19 : ℕ) : ℤ).bmod (2 ^ 19) * 2 ^ (16 * i)) := by
      rw [← term, ← coeff]
      simp only [unpack, empty, if_false]
      rfl
    rw [turn, ih, Finset.sum_range_succ']
    simp only [later, index, pow_zero, Nat.div_one, Nat.add_zero]
    ring

/-- Whatever a buffer holds, reading it gives the sum of its signed fields. -/
theorem readBytes_eq (multiple : 4 ∣ size) (small : size ≤ 2 ^ 33) (fits : offset + size ≤ buf.length) (n : ℕ) :
    ChiaDriver.readBytes size offset buf n = .done (value size offset buf n) := by
  obtain ⟨words, rfl⟩ := multiple
  have turns : (4 * words + (REG_BYTES - 1)) / REG_BYTES = words := by
    rw [REG_BYTES_eq]
    omega
  have whole : pack REG_BITS ((List.range words).map fun j => wordAt buf (offset + 4 * j)) =
      number (4 * words) offset buf := by
    rw [pack_eq (by omega), number, Nat.mul_div_cancel_left _ (by decide : 0 < 4)]
    rfl
  rw [readBytes, turns, gather_eq fits, Exec.done_bind, whole, unpack_eq, value]
  simp [field]

/-- What is written for a number, before it is cut into words. -/
def packed (val : ℤ) (n : ℕ) : ℕ :=
  pack 19 (ChiaDriver.coefficients ((n + (2 ^ 64 - 1)) % 2 ^ 64) (ChiaDriver.biased val n))

theorem writeBytes_eq (multiple : 4 ∣ size) (before after : ByteString) (fits : size ≤ after.length) (val : ℤ)
    (n : ℕ) : ChiaDriver.writeBytes size before.length (before ++ after) val n =
      .done (before ++ wordBytes (size / 4) (packed val n) ++ after.drop size) := by
  obtain ⟨words, rfl⟩ := multiple
  have cleared : (List.replicate (4 * words) (0 : UInt8)).length = 4 * words := List.length_replicate
  have whole : 4 * words % REG_BYTES = 0 := by
    rw [REG_BYTES_eq]
    omega
  have turns : 4 * words / REG_BYTES = words := by
    rw [REG_BYTES_eq]
    omega
  rw [writeBytes, HwMessage.blit_append _ _ _ (by rw [cleared]; exact fits), cleared, Exec.done_bind,
    if_neg (by rw [whole]; decide), turns, List.append_assoc,
    writeWords_eq _ _ _ _ (by rw [List.length_append, cleared]; omega), List.drop_left' cleared,
    Nat.mul_div_cancel_left _ (by decide : 0 < 4)]
  rfl

theorem number_wordBytes (multiple : 4 ∣ size) (before after : ByteString) (m : ℕ) :
    number size before.length (before ++ wordBytes (size / 4) m ++ after) = m % 2 ^ (8 * size) := by
  obtain ⟨words, rfl⟩ := multiple
  have bits : (2 : ℕ) ^ (8 * (4 * words)) = (2 ^ 32) ^ words := by
    rw [← pow_mul]
    congr 1
    omega
  rw [number, Nat.mul_div_cancel_left _ (by decide : 0 < 4), bits, ← Radix.sum_fields]
  apply Finset.sum_congr rfl
  intro j member
  rw [List.append_assoc, wordAt_append, wordAt_wordBytes (Finset.mem_range.mp member), pow_mul]
  rfl

/-- The coefficients of a number that is not negative: all but the last one are masked. -/
theorem coefficients_eq (m n : ℕ) : ChiaDriver.coefficients m n =
    ((List.range m).map fun i => n / (2 ^ 16) ^ i % 2 ^ 16) ++ [n / (2 ^ 16) ^ m % 2 ^ 32] := by
  induction m generalizing n with
  | zero =>
    have low : mpzGetUi n % 2 ^ 32 = n % 2 ^ 32 := by
      rw [mpzGetUi, Int.natAbs_natCast]
      exact Nat.mod_mod_of_dvd _ (by decide)
    rw [coefficients, low, pow_zero, Nat.div_one]
    rfl
  | succ m ih =>
    have masked : mpzGetUi n &&& (2 ^ ChiaDriver.WORD_BITS - 1) % 2 ^ 32 = n % 2 ^ 16 :=
      @mask_getUi 16 (by decide) n
    have shifted : mpzTdivQ2exp n ChiaDriver.WORD_BITS = ((n / 2 ^ 16 : ℕ) : ℤ) := rfl
    have later (i : ℕ) : n / 2 ^ 16 / (2 ^ 16) ^ i = n / (2 ^ 16) ^ (i + 1) := by
      rw [Nat.div_div_eq_div_mul, pow_succ' (2 ^ 16) i]
    rw [coefficients, masked, shifted, ih, List.range_succ_eq_map, List.map_cons, List.map_map, List.cons_append,
      later]
    simp only [later, Function.comp_def, pow_zero, Nat.div_one, Nat.succ_eq_add_one]

theorem packed_field {m i : ℕ} (fits : m < 2 ^ 31) (nonneg : 0 ≤ ChiaDriver.biased v (m + 1)) (le : i ≤ m) :
    packed v (m + 1) / (2 ^ 19) ^ i % 2 ^ 19 =
      (ChiaDriver.biased v (m + 1)).toNat / (2 ^ 16) ^ i % (if i < m then 2 ^ 16 else 2 ^ 19) := by
  obtain ⟨b, same⟩ := Int.eq_ofNat_of_zero_le nonneg
  have turns : (m + 1 + (2 ^ 64 - 1)) % 2 ^ 64 = m := by omega
  have length : (ChiaDriver.coefficients m b).length = m + 1 := by simp [coefficients_eq]
  have horner : (fun coeff tmp : ℕ => tmp * 2 ^ 19 + coeff) = fun coeff tmp => coeff + 2 ^ 19 * tmp := by
    funext coeff tmp
    rw [Nat.add_comm, Nat.mul_comm]
  have whole : packed v (m + 1) = Nat.ofDigits (2 ^ 19) (ChiaDriver.coefficients m b) := by
    rw [packed, turns, same, pack, length, intTurns_le (by omega), List.take_of_length_le length.le, horner,
      Nat.ofDigits_eq_foldr]
    rfl
  have small : ∀ c ∈ (ChiaDriver.coefficients m b).take i, c < 2 ^ 19 := by
    rw [coefficients_eq, List.take_append_of_le_length (by simpa using le)]
    intro c member
    obtain ⟨j, -, rfl⟩ := List.mem_map.mp (List.mem_of_mem_take member)
    exact (Nat.mod_lt _ (by decide)).trans (by decide)
  have inside : i < (ChiaDriver.coefficients m b).length := by omega
  rw [whole, Radix.field_ofDigits (by decide) inside small, same, Int.toNat_natCast]
  rcases Nat.lt_or_eq_of_le le with low | rfl
  · have coeff : (ChiaDriver.coefficients m b)[i] = b / (2 ^ 16) ^ i % 2 ^ 16 := by
      simp [coefficients_eq, low]
    have kept : b / (2 ^ 16) ^ i % 2 ^ 16 < 2 ^ 19 := (Nat.mod_lt _ (by decide)).trans (by decide)
    rw [coeff, if_pos low, Nat.mod_eq_of_lt kept]
  · have coeff : (ChiaDriver.coefficients i b)[i] = b / (2 ^ 16) ^ i % 2 ^ 32 := by
      simp [coefficients_eq]
    rw [coeff, if_neg (lt_irrefl i)]
    exact Nat.mod_mod_of_dvd _ (by decide)

/-- What is read after writing: the low coefficients, and the top one as a signed field. -/
theorem value_packed {m : ℕ} (fits : m < 2 ^ 31) (room : 19 * (m + 1) ≤ 8 * size) (multiple : 4 ∣ size)
    (nonneg : 0 ≤ ChiaDriver.biased v (m + 1)) (before after : ByteString) :
    value size before.length (before ++ wordBytes (size / 4) (packed v (m + 1)) ++ after) (m + 1) =
      ChiaDriver.biased v (m + 1) % 2 ^ (16 * m) +
        (ChiaDriver.biased v (m + 1) / 2 ^ (16 * m)).bmod (2 ^ 19) * 2 ^ (16 * m) := by
  have kept (i : ℕ) (le : i ≤ m) :
      field size before.length (before ++ wordBytes (size / 4) (packed v (m + 1)) ++ after) i =
        (ChiaDriver.biased v (m + 1)).toNat / (2 ^ 16) ^ i % (if i < m then 2 ^ 16 else 2 ^ 19) := by
    rw [field, number_wordBytes multiple, ← pow_mul, Radix.field_truncate (by omega), pow_mul,
      packed_field fits nonneg le]
  obtain ⟨b, same⟩ := Int.eq_ofNat_of_zero_le nonneg
  have low (i : ℕ) (lt : i < m) :
      (field size before.length (before ++ wordBytes (size / 4) (packed v (m + 1)) ++ after) i : ℤ).bmod (2 ^ 19) *
        2 ^ (16 * i) = ((b / (2 ^ 16) ^ i % 2 ^ 16 * (2 ^ 16) ^ i : ℕ) : ℤ) := by
    have small : b / (2 ^ 16) ^ i % 2 ^ 16 < 2 ^ 16 := Nat.mod_lt _ (by decide)
    rw [kept i lt.le, if_pos lt, same, Int.toNat_natCast, Int.bmod_eq_of_le_mul_two (by omega) (by omega), pow_mul]
    push_cast
    rfl
  rw [value, Finset.sum_range_succ, Finset.sum_congr rfl fun i member => low i (Finset.mem_range.mp member),
    ← Nat.cast_sum, Radix.sum_fields, kept m le_rfl, if_neg (lt_irrefl m), same, Int.toNat_natCast]
  have top : ((b / (2 ^ 16) ^ m % 2 ^ 19 : ℕ) : ℤ).bmod (2 ^ 19) = ((b : ℤ) / 2 ^ (16 * m)).bmod (2 ^ 19) := by
    rw [pow_mul]
    push_cast
    exact Int.emod_bmod _ 524288
  have bottom : ((b % (2 ^ 16) ^ m : ℕ) : ℤ) = (b : ℤ) % 2 ^ (16 * m) := by
    rw [pow_mul]
    push_cast
    rfl
  rw [top, bottom]

/-- The bias is a multiple of the whole range of the coefficients, unless its exponent wraps. -/
theorem biased_eq {m : ℕ} (low : -2 ^ (16 * m + 18) ≤ v) (exponent : v < 0 → 16 * (m + 1) + 19 < 2 ^ 32) :
    0 ≤ ChiaDriver.biased v (m + 1) ∧
      ∃ times : ℤ, ChiaDriver.biased v (m + 1) = v + 2 ^ (16 * m) * (times * 2 ^ (18 + 1)) := by
  by_cases negative : v < 0
  · have bits : ((m + 1) * ChiaDriver.WORD_BITS + ChiaDriver.REDUNDANT_BITS) % 2 ^ 32 = 16 * m + 35 := by
      have small := exponent negative
      have unwrapped : (m + 1) * ChiaDriver.WORD_BITS + ChiaDriver.REDUNDANT_BITS = 16 * m + 35 := by
        simp only [ChiaDriver]
        omega
      rw [unwrapped]
      exact Nat.mod_eq_of_lt (by omega)
    have value : ChiaDriver.biased v (m + 1) = v + 2 ^ (16 * m + 35) := by
      rw [biased, if_pos negative, bits]
      ring
    have wide : (2 : ℤ) ^ (16 * m + 18) ≤ 2 ^ (16 * m + 35) := pow_le_pow_right₀ (by norm_num) (by omega)
    refine ⟨by rw [value]; linarith, 2 ^ 16, ?_⟩
    rw [value, pow_add]
    norm_num
  · have value : ChiaDriver.biased v (m + 1) = v := by rw [biased, if_neg negative]
    exact ⟨by rw [value]; omega, 0, by rw [value]; ring⟩

theorem value_written {m : ℕ} (fits : m < 2 ^ 31) (room : 19 * (m + 1) ≤ 8 * size) (multiple : 4 ∣ size)
    (low : -2 ^ (16 * m + 18) ≤ v) (high : v < 2 ^ (16 * m + 18))
    (exponent : v < 0 → 16 * (m + 1) + 19 < 2 ^ 32) (before after : ByteString) :
    value size before.length (before ++ wordBytes (size / 4) (packed v (m + 1)) ++ after) (m + 1) = v := by
  obtain ⟨nonneg, times, bias⟩ := biased_eq low exponent
  have positive : (0 : ℤ) < 2 ^ (16 * m) := by positivity
  rw [pow_add] at low high
  rw [value_packed fits room multiple nonneg, bias, Int.add_mul_emod_self_left,
    Int.add_mul_ediv_left _ _ positive.ne']
  exact Radix.signed_split positive 18 times low high

/-- Writing a number changes `size` bytes, and reading them gives the number back. -/
def RoundTrips (size offset n : ℕ) (v : ℤ) : Prop :=
  ∀ buf : ByteString, offset + size ≤ buf.length → ∃ buf', ChiaDriver.writeBytes size offset buf v n = .done buf' ∧
    ChiaDriver.readBytes size offset buf' n = .done v ∧ buf'.length = buf.length ∧
    buf'.take offset = buf.take offset ∧ buf'.drop (offset + size) = buf.drop (offset + size)

/-- Reading any buffer gives the sum of its fields. -/
def ReadsFields (size offset n : ℕ) : Prop :=
  ∀ buf : ByteString, offset + size ≤ buf.length →
    ChiaDriver.readBytes size offset buf n = .done (value size offset buf n)

theorem roundTrips (positive : 1 ≤ n) (fits : n ≤ 2 ^ 31) (multiple : 4 ∣ size) (small : size ≤ 2 ^ 33)
    (room : 19 * n ≤ 8 * size) (low : -2 ^ (16 * (n - 1) + 18) ≤ v) (high : v < 2 ^ (16 * (n - 1) + 18))
    (exponent : v < 0 → 16 * n + 19 < 2 ^ 32) : RoundTrips size offset n v := by
  intro buf inside
  obtain ⟨m, rfl⟩ : ∃ m, n = m + 1 := ⟨n - 1, by omega⟩
  rw [Nat.add_sub_cancel] at low high
  have start : (buf.take offset).length = offset := List.length_take_of_le (by omega)
  have rest : size ≤ (buf.drop offset).length := by
    rw [List.length_drop]
    omega
  have written := writeBytes_eq multiple (buf.take offset) (buf.drop offset) rest v (m + 1)
  have found := value_written (by omega) room multiple low high exponent (buf.take offset)
    ((buf.drop offset).drop size)
  rw [List.take_append_drop, start, List.drop_drop] at written
  rw [start, List.drop_drop] at found
  have words : (wordBytes (size / 4) (packed v (m + 1))).length = size := by
    rw [length_wordBytes]
    omega
  have head : (buf.take offset ++ wordBytes (size / 4) (packed v (m + 1))).length = offset + size := by
    rw [List.length_append, start, words]
  have length : (buf.take offset ++ wordBytes (size / 4) (packed v (m + 1)) ++ buf.drop (offset + size)).length =
      buf.length := by
    rw [List.length_append, head, List.length_drop]
    omega
  refine ⟨_, written, ?_, length, ?_, ?_⟩
  · rw [readBytes_eq multiple small (by omega), found]
  · rw [List.append_assoc, List.take_left' start]
  · rw [List.drop_left' head]

end Format

end VdfDriver
end ChiaVdf
