import ChiaVdf.VdfDriver
import ChiaVdf.VdfNew

/-! The job of `chia_driver.cpp`: its fields one after the other in the registers of an engine, read back by
`DeserializeJob` and by `init_state` of the emulator. -/
namespace ChiaVdf.ChiaDriver

open VdfDriver

def NUM_1X_COEFFS : ℕ := 18
def NUM_2X_COEFFS : ℕ := 34
def NUM_4X_COEFFS : ℕ := 68

def CHIA_VDF_CMD_A_MULTIREG_COUNT : ℕ := 21
def CHIA_VDF_CMD_F_MULTIREG_COUNT : ℕ := 21
def CHIA_VDF_CMD_D_MULTIREG_COUNT : ℕ := 41
def CHIA_VDF_CMD_L_MULTIREG_COUNT : ℕ := 11
def CHIA_VDF_STATUS_A_MULTIREG_COUNT : ℕ := 21
def CHIA_VDF_STATUS_F_MULTIREG_COUNT : ℕ := 21

def cmdSize : ℕ := 0x101184 - 0x101000 + REG_BYTES

def serializeJob (buf : ByteString) (jobId : UInt32) (iterationCount : UInt64) (a f d l : ℤ) : Exec ByteString := do
  let regSize := REG_BYTES
  let offset := 0
  let buf ← writeBytes32 offset buf jobId.toNat
  let offset := offset + regSize
  let buf ← writeBytes64 offset buf iterationCount.toNat
  let offset := offset + 2 * regSize
  let buf ← ChiaDriver.writeBytes (regSize * CHIA_VDF_CMD_A_MULTIREG_COUNT) offset buf a NUM_2X_COEFFS
  let offset := offset + regSize * CHIA_VDF_CMD_A_MULTIREG_COUNT
  let buf ← ChiaDriver.writeBytes (regSize * CHIA_VDF_CMD_F_MULTIREG_COUNT) offset buf f NUM_2X_COEFFS
  let offset := offset + regSize * CHIA_VDF_CMD_F_MULTIREG_COUNT
  let buf ← ChiaDriver.writeBytes (regSize * CHIA_VDF_CMD_D_MULTIREG_COUNT) offset buf d NUM_4X_COEFFS
  let offset := offset + regSize * CHIA_VDF_CMD_D_MULTIREG_COUNT
  let buf ← ChiaDriver.writeBytes (regSize * CHIA_VDF_CMD_L_MULTIREG_COUNT) offset buf l NUM_1X_COEFFS
  let offset := offset + regSize * CHIA_VDF_CMD_L_MULTIREG_COUNT
  writeBytes32 offset buf 0x1

structure Status where
  jobId : ℕ
  iterationCount : ℕ
  a : ℤ
  f : ℤ
  deriving DecidableEq, Repr

def deserializeJob (buf : ByteString) : Exec Status := do
  let regSize := REG_BYTES
  let offset := 0
  let jobId ← readBytes32 offset buf
  let offset := offset + regSize
  let iterationCount ← readBytes64 offset buf
  let offset := offset + 2 * regSize
  let a ← ChiaDriver.readBytes (regSize * CHIA_VDF_STATUS_A_MULTIREG_COUNT) offset buf NUM_2X_COEFFS
  let offset := offset + regSize * CHIA_VDF_STATUS_A_MULTIREG_COUNT
  let f ← ChiaDriver.readBytes (regSize * CHIA_VDF_STATUS_F_MULTIREG_COUNT) offset buf NUM_2X_COEFFS
  return ⟨jobId, iterationCount, a, f⟩

/-- The arrays of `struct job_reg_set`, behind the `id`. -/
def itersAt : ℕ := 4
def aAt : ℕ := itersAt + 4 * 2
def fAt : ℕ := aAt + 4 * 21
def dAt : ℕ := fAt + 4 * 21
def lAt : ℕ := dAt + 4 * 41
def startFlagAt : ℕ := lAt + 4 * 11

structure JobState where
  curIter : ℕ
  targetIter : ℕ
  d : ℤ
  l : ℤ
  qf : Form
  deriving DecidableEq, Repr

/-- `init_state`, for the registers of an engine. -/
def initState (r : ByteString) : Exec JobState := do
  let targetIter ← readBytes64 0 (r.drop itersAt)
  let a ← ChiaDriver.readBytes (4 * 21) 0 (r.drop aAt) NUM_2X_COEFFS
  let f ← ChiaDriver.readBytes (4 * 21) 0 (r.drop fAt) NUM_2X_COEFFS
  let d ← ChiaDriver.readBytes (4 * 41) 0 (r.drop dAt) NUM_4X_COEFFS
  let l ← ChiaDriver.readBytes (4 * 11) 0 (r.drop lAt) NUM_1X_COEFFS
  let qf ← Form.fromAbd a f d
  return ⟨0, targetIter, d, l, qf⟩

/-- `start_flag & (1 << 24)` in `emu_do_io`, on a machine with the low byte first. -/
def started (r : ByteString) : Bool := (ByteString.ofLsbFirst ((r.drop startFlagAt).take 4)).testBit 24

section Fields

variable {front after : ByteString} {offset size val : ℕ} {v : ℤ}

theorem writeBytes32_at (buf : ByteString) (val : ℕ) (start : front.length = offset) (fits : offset + 4 ≤ buf.length) :
    writeBytes32 offset (front ++ buf.drop offset) val =
      .done ((front ++ ByteString.msbFirst 4 val) ++ buf.drop (offset + 4)) :=
  HwMessage.blit_at buf _ start (ByteString.length_msbFirst _ _) fits

theorem writeBytes64_at (buf : ByteString) (val : ℕ) (start : front.length = offset) (fits : offset + 8 ≤ buf.length) :
    writeBytes64 offset (front ++ buf.drop offset) val =
      .done ((front ++ (ByteString.msbFirst 4 (val % 2 ^ 32) ++ ByteString.msbFirst 4 (val / 2 ^ 32 % 2 ^ 32))) ++
        buf.drop (offset + 8)) := by
  have next : (front ++ ByteString.msbFirst 4 (val % 2 ^ 32)).length = offset + 4 := by
    rw [List.length_append, ByteString.length_msbFirst, start]
  have high : val >>> REG_BITS = val / 2 ^ 32 := Nat.shiftRight_eq_div_pow _ _
  rw [writeBytes64, writeBytes32_at buf _ start (by omega), Exec.done_bind, REG_BYTES_eq,
    writeBytes32_at buf _ next (by omega), high, List.append_assoc front]

theorem writeBytes_at (buf : ByteString) (size : ℕ) (v : ℤ) (n : ℕ) (start : front.length = offset)
    (multiple : 4 ∣ size)
    (fits : offset + size ≤ buf.length) :
    ChiaDriver.writeBytes size offset (front ++ buf.drop offset) v n =
      .done ((front ++ wordBytes (size / 4) (packed v n)) ++ buf.drop (offset + size)) := by
  have written := writeBytes_eq multiple front (buf.drop offset) (by rw [List.length_drop]; omega) v n
  rwa [start, List.drop_drop] at written

theorem readBytes32_drop (place offset : ℕ) (buf : ByteString) :
    readBytes32 (place + offset) buf = readBytes32 offset (buf.drop place) := by
  have inside : place + offset + REG_BYTES ≤ buf.length ↔ offset + REG_BYTES ≤ (buf.drop place).length := by
    rw [List.length_drop, REG_BYTES_eq]
    omega
  rw [readBytes32, readBytes32, List.drop_drop]
  simp only [inside]

theorem gather_drop (turns place offset : ℕ) (buf : ByteString) :
    gather turns (place + offset) buf = gather turns offset (buf.drop place) := by
  induction turns generalizing offset with
  | zero => rfl
  | succ turns ih => rw [gather, gather, readBytes32_drop, Nat.add_assoc, ih]

theorem readBytes64_drop (place : ℕ) (buf : ByteString) :
    readBytes64 place buf = readBytes64 0 (buf.drop place) := by
  have first := readBytes32_drop place 0 buf
  rw [Nat.add_zero] at first
  rw [readBytes64, readBytes64, first, readBytes32_drop, Nat.zero_add]

theorem readBytes_drop (size place n : ℕ) (buf : ByteString) :
    ChiaDriver.readBytes size place buf n = ChiaDriver.readBytes size 0 (buf.drop place) n := by
  have same := gather_drop ((size + (REG_BYTES - 1)) / REG_BYTES) place 0 buf
  rw [Nat.add_zero] at same
  rw [VdfDriver.readBytes, VdfDriver.readBytes, same]

theorem readBytes32_append (small : val < 2 ^ 32) :
    readBytes32 0 (ByteString.msbFirst 4 val ++ after) = .done val := by
  have word : (ByteString.msbFirst 4 val).length = REG_BYTES := ByteString.length_msbFirst _ _
  rw [readBytes32, if_pos (by rw [List.length_append, word]; omega), List.drop_zero, List.take_left' word,
    ByteString.ofMsbFirst_of_lt (small.trans_le (by decide))]

theorem readBytes64_append (small : val < 2 ^ 64) :
    readBytes64 0 ((ByteString.msbFirst 4 (val % 2 ^ 32) ++ ByteString.msbFirst 4 (val / 2 ^ 32 % 2 ^ 32)) ++ after) =
      .done val := by
  have low : val % 2 ^ 32 < 2 ^ 32 := Nat.mod_lt _ (by decide)
  have high : val / 2 ^ 32 < 2 ^ 32 := by omega
  have joined : val % 2 ^ 32 ||| (val / 2 ^ 32) <<< 32 = val := by
    rw [Nat.or_comm, ← Nat.shiftLeft_add_eq_or_of_lt low, Nat.shiftLeft_eq, Nat.div_add_mod']
  have second := readBytes32_drop 4 0
    (ByteString.msbFirst 4 (val % 2 ^ 32) ++ (ByteString.msbFirst 4 (val / 2 ^ 32) ++ after))
  rw [List.drop_left' (ByteString.length_msbFirst _ _), readBytes32_append high] at second
  rw [Nat.mod_eq_of_lt high, readBytes64, List.append_assoc, readBytes32_append low, Exec.done_bind]
  refine (congrArg (· >>= _) second).trans ?_
  exact congrArg Exec.done joined

theorem readBytes_append {m : ℕ} (fits : m < 2 ^ 28 - 2) (room : 19 * (m + 1) ≤ 8 * size) (multiple : 4 ∣ size)
    (small : size ≤ 2 ^ 33) (bound : |v| < 2 ^ (16 * m + 18)) :
    ChiaDriver.readBytes size 0 (wordBytes (size / 4) (packed v (m + 1)) ++ after) (m + 1) = .done v := by
  obtain ⟨low, high⟩ := abs_lt.mp bound
  have found := value_written (v := v) (by omega) room multiple low.le high (by omega) [] after
  have words : (wordBytes (size / 4) (packed v (m + 1))).length = size := by
    rw [length_wordBytes]
    omega
  rw [readBytes_eq multiple small (by rw [List.length_append, words]; omega)]
  congr 1

end Fields

section Job

variable (jobId : UInt32) (iterationCount : UInt64) (a f d l : ℤ)

/-- The words of a field of so many coefficients. -/
def fieldBytes (words : ℕ) (v : ℤ) (n : ℕ) : ByteString := wordBytes words (packed v n)

theorem length_fieldBytes (words : ℕ) (v : ℤ) (n : ℕ) : (fieldBytes words v n).length = 4 * words :=
  length_wordBytes _ _

def iterBytes : ByteString :=
  ByteString.msbFirst 4 (iterationCount.toNat % 2 ^ 32) ++
    ByteString.msbFirst 4 (iterationCount.toNat / 2 ^ 32 % 2 ^ 32)

theorem length_iterBytes : (iterBytes iterationCount).length = 8 := by
  rw [iterBytes, List.length_append, ByteString.length_msbFirst, ByteString.length_msbFirst]

/-- A job, and what comes behind it. -/
def jobBytes (rest : ByteString) : ByteString :=
  ByteString.msbFirst 4 jobId.toNat ++ (iterBytes iterationCount ++ (fieldBytes 21 a NUM_2X_COEFFS ++
    (fieldBytes 21 f NUM_2X_COEFFS ++ (fieldBytes 41 d NUM_4X_COEFFS ++ (fieldBytes 11 l NUM_1X_COEFFS ++
      (ByteString.msbFirst 4 0x1 ++ rest))))))

theorem serializeJob_eq {buf : ByteString} (fits : cmdSize ≤ buf.length) :
    serializeJob buf jobId iterationCount a f d l =
      .done (jobBytes jobId iterationCount a f d l (buf.drop cmdSize)) := by
  have size : cmdSize = 392 := rfl
  rw [size] at fits ⊢
  have id : writeBytes32 0 buf jobId.toNat = .done (ByteString.msbFirst 4 jobId.toNat ++ buf.drop 4) :=
    @writeBytes32_at [] 0 buf jobId.toNat rfl (by omega)
  have idEnd : (ByteString.msbFirst 4 jobId.toNat).length = 4 := ByteString.length_msbFirst _ _
  have iters := writeBytes64_at buf iterationCount.toNat idEnd (by omega)
  rw [← iterBytes] at iters
  have itersEnd : (ByteString.msbFirst 4 jobId.toNat ++ iterBytes iterationCount).length = 12 := by
    rw [List.length_append, idEnd, length_iterBytes]
  have fieldA := writeBytes_at buf 84 a 34 itersEnd (by decide) (by omega)
  have aEnd : (ByteString.msbFirst 4 jobId.toNat ++ iterBytes iterationCount ++
      wordBytes (84 / 4) (packed a 34)).length = 96 := by
    rw [List.length_append, itersEnd, length_wordBytes]
  have fieldF := writeBytes_at buf 84 f 34 aEnd (by decide) (by omega)
  have fEnd : (ByteString.msbFirst 4 jobId.toNat ++ iterBytes iterationCount ++
      wordBytes (84 / 4) (packed a 34) ++ wordBytes (84 / 4) (packed f 34)).length = 180 := by
    rw [List.length_append, aEnd, length_wordBytes]
  have fieldD := writeBytes_at buf 164 d 68 fEnd (by decide) (by omega)
  have dEnd : (ByteString.msbFirst 4 jobId.toNat ++ iterBytes iterationCount ++
      wordBytes (84 / 4) (packed a 34) ++ wordBytes (84 / 4) (packed f 34) ++
      wordBytes (164 / 4) (packed d 68)).length = 344 := by
    rw [List.length_append, fEnd, length_wordBytes]
  have fieldL := writeBytes_at buf 44 l 18 dEnd (by decide) (by omega)
  have lEnd : (ByteString.msbFirst 4 jobId.toNat ++ iterBytes iterationCount ++
      wordBytes (84 / 4) (packed a 34) ++ wordBytes (84 / 4) (packed f 34) ++
      wordBytes (164 / 4) (packed d 68) ++ wordBytes (44 / 4) (packed l 18)).length = 388 := by
    rw [List.length_append, dEnd, length_wordBytes]
  have flag := writeBytes32_at buf 0x1 lEnd (by omega)
  simp only [serializeJob, REG_BYTES_eq, CHIA_VDF_CMD_A_MULTIREG_COUNT, CHIA_VDF_CMD_F_MULTIREG_COUNT,
    CHIA_VDF_CMD_D_MULTIREG_COUNT, CHIA_VDF_CMD_L_MULTIREG_COUNT, NUM_1X_COEFFS, NUM_2X_COEFFS, NUM_4X_COEFFS,
    Nat.zero_add, Nat.reduceMul, Nat.reduceAdd]
  rw [id, Exec.done_bind, iters, Exec.done_bind, fieldA, Exec.done_bind, fieldF, Exec.done_bind, fieldD,
    Exec.done_bind, fieldL, Exec.done_bind, flag]
  simp only [jobBytes, fieldBytes, List.append_assoc, NUM_1X_COEFFS, NUM_2X_COEFFS, NUM_4X_COEFFS]

theorem jobBytes_drop (rest : ByteString) :
    (jobBytes jobId iterationCount a f d l rest).drop 4 = iterBytes iterationCount ++
        (jobBytes jobId iterationCount a f d l rest).drop 12 ∧
    (jobBytes jobId iterationCount a f d l rest).drop 12 = fieldBytes 21 a NUM_2X_COEFFS ++
        (jobBytes jobId iterationCount a f d l rest).drop 96 ∧
    (jobBytes jobId iterationCount a f d l rest).drop 96 = fieldBytes 21 f NUM_2X_COEFFS ++
        (jobBytes jobId iterationCount a f d l rest).drop 180 ∧
    (jobBytes jobId iterationCount a f d l rest).drop 180 = fieldBytes 41 d NUM_4X_COEFFS ++
        (jobBytes jobId iterationCount a f d l rest).drop 344 ∧
    (jobBytes jobId iterationCount a f d l rest).drop 344 = fieldBytes 11 l NUM_1X_COEFFS ++
        (jobBytes jobId iterationCount a f d l rest).drop 388 ∧
    (jobBytes jobId iterationCount a f d l rest).drop 388 = ByteString.msbFirst 4 0x1 ++ rest := by
  have peel {front tail r : ByteString} (place : ℕ) {size : ℕ} (behind : r.drop place = front ++ tail)
      (length : front.length = size) : r.drop (place + size) = tail := by
    rw [← List.drop_drop, behind, List.drop_left' length]
  have at4 := peel (r := jobBytes jobId iterationCount a f d l rest) 0 rfl (ByteString.length_msbFirst _ _)
  have at12 := peel 4 at4 (length_iterBytes _)
  have at96 := peel 12 at12 (length_fieldBytes _ _ _)
  have at180 := peel 96 at96 (length_fieldBytes _ _ _)
  have at344 := peel 180 at180 (length_fieldBytes _ _ _)
  have at388 := peel 344 at344 (length_fieldBytes _ _ _)
  refine ⟨at4.trans (congrArg _ at12.symm), at12.trans (congrArg _ at96.symm), at96.trans (congrArg _ at180.symm),
    at180.trans (congrArg _ at344.symm), at344.trans (congrArg _ at388.symm), at388⟩

/-- A job with numbers in their ranges is read back field by field. -/
def ReadsBack : Prop :=
  ∀ buf : ByteString, cmdSize ≤ buf.length → ∃ buf', serializeJob buf jobId iterationCount a f d l = .done buf' ∧
    buf'.length = buf.length ∧ buf'.drop cmdSize = buf.drop cmdSize ∧
    deserializeJob buf' = .done ⟨jobId.toNat, iterationCount.toNat, a, f⟩ ∧
    ∀ padding : ByteString,
      initState (buf'.take cmdSize ++ padding) =
        (do let qf ← Form.fromAbd a f d; return ⟨0, iterationCount.toNat, d, l, qf⟩) ∧
      started (buf'.take cmdSize ++ padding) = true

variable {a f d l}

theorem deserializeJob_jobBytes (boundA : |a| < 2 ^ 546) (boundF : |f| < 2 ^ 546) (rest : ByteString) :
    deserializeJob (jobBytes jobId iterationCount a f d l rest) =
      .done ⟨jobId.toNat, iterationCount.toNat, a, f⟩ := by
  obtain ⟨at4, at12, at96, -⟩ := jobBytes_drop jobId iterationCount a f d l rest
  have id : readBytes32 0 (jobBytes jobId iterationCount a f d l rest) = .done jobId.toNat :=
    readBytes32_append jobId.toNat_lt
  have iters : readBytes64 4 (jobBytes jobId iterationCount a f d l rest) = .done iterationCount.toNat := by
    rw [readBytes64_drop, at4]
    exact readBytes64_append iterationCount.toNat_lt
  have fieldA : ChiaDriver.readBytes 84 12 (jobBytes jobId iterationCount a f d l rest) 34 = .done a := by
    rw [readBytes_drop, at12]
    exact readBytes_append (by decide) (by decide) (by decide) (by decide) boundA
  have fieldF : ChiaDriver.readBytes 84 96 (jobBytes jobId iterationCount a f d l rest) 34 = .done f := by
    rw [readBytes_drop, at96]
    exact readBytes_append (by decide) (by decide) (by decide) (by decide) boundF
  simp only [deserializeJob, REG_BYTES_eq, CHIA_VDF_STATUS_A_MULTIREG_COUNT, CHIA_VDF_STATUS_F_MULTIREG_COUNT,
    NUM_2X_COEFFS, Nat.zero_add, Nat.reduceMul, Nat.reduceAdd]
  rw [id, Exec.done_bind, iters, Exec.done_bind, fieldA, Exec.done_bind, fieldF]
  rfl

theorem initState_jobBytes (boundA : |a| < 2 ^ 546) (boundF : |f| < 2 ^ 546) (boundD : |d| < 2 ^ 1090)
    (boundL : |l| < 2 ^ 290) (rest : ByteString) :
    initState (jobBytes jobId iterationCount a f d l rest) =
      (do let qf ← Form.fromAbd a f d; return ⟨0, iterationCount.toNat, d, l, qf⟩) := by
  obtain ⟨at4, at12, at96, at180, at344, -⟩ := jobBytes_drop jobId iterationCount a f d l rest
  have iters : readBytes64 0 ((jobBytes jobId iterationCount a f d l rest).drop 4) =
      .done iterationCount.toNat := by
    rw [at4]
    exact readBytes64_append iterationCount.toNat_lt
  have fieldA : ChiaDriver.readBytes 84 0 ((jobBytes jobId iterationCount a f d l rest).drop 12) 34 = .done a := by
    rw [at12]
    exact readBytes_append (by decide) (by decide) (by decide) (by decide) boundA
  have fieldF : ChiaDriver.readBytes 84 0 ((jobBytes jobId iterationCount a f d l rest).drop 96) 34 = .done f := by
    rw [at96]
    exact readBytes_append (by decide) (by decide) (by decide) (by decide) boundF
  have fieldD : ChiaDriver.readBytes 164 0 ((jobBytes jobId iterationCount a f d l rest).drop 180) 68 = .done d := by
    rw [at180]
    exact readBytes_append (by decide) (by decide) (by decide) (by decide) boundD
  have fieldL : ChiaDriver.readBytes 44 0 ((jobBytes jobId iterationCount a f d l rest).drop 344) 18 = .done l := by
    rw [at344]
    exact readBytes_append (by decide) (by decide) (by decide) (by decide) boundL
  simp only [initState, itersAt, aAt, fAt, dAt, lAt, NUM_1X_COEFFS, NUM_2X_COEFFS, NUM_4X_COEFFS, Nat.reduceMul,
    Nat.reduceAdd]
  rw [iters, Exec.done_bind, fieldA, Exec.done_bind, fieldF, Exec.done_bind, fieldD, Exec.done_bind, fieldL,
    Exec.done_bind]

theorem started_jobBytes (rest : ByteString) : started (jobBytes jobId iterationCount a f d l rest) = true := by
  obtain ⟨-, -, -, -, -, at388⟩ := jobBytes_drop jobId iterationCount a f d l rest
  have place : startFlagAt = 388 := rfl
  rw [started, place, at388, List.take_left' (ByteString.length_msbFirst _ _)]
  decide

theorem jobBytes_append (rest padding : ByteString) :
    jobBytes jobId iterationCount a f d l rest ++ padding =
      jobBytes jobId iterationCount a f d l (rest ++ padding) := by
  simp only [jobBytes, List.append_assoc]

theorem length_jobBytes (rest : ByteString) :
    (jobBytes jobId iterationCount a f d l rest).length = cmdSize + rest.length := by
  have size : cmdSize = 392 := rfl
  simp only [jobBytes, List.length_append, ByteString.length_msbFirst, length_iterBytes, length_fieldBytes, size]
  omega

theorem readsBack (boundA : |a| < 2 ^ 546) (boundF : |f| < 2 ^ 546) (boundD : |d| < 2 ^ 1090)
    (nonneg : 0 ≤ l) (boundL : l < 2 ^ 290) : ReadsBack jobId iterationCount a f d l := by
  intro buf fits
  have head : (jobBytes jobId iterationCount a f d l []).length = cmdSize := length_jobBytes _ _ _
  have whole : jobBytes jobId iterationCount a f d l (buf.drop cmdSize) =
      jobBytes jobId iterationCount a f d l [] ++ buf.drop cmdSize := by
    rw [jobBytes_append, List.nil_append]
  refine ⟨_, serializeJob_eq jobId iterationCount a f d l fits, ?_, ?_, ?_, fun padding => ?_⟩
  · rw [length_jobBytes, List.length_drop]
    omega
  · rw [whole, List.drop_left' head]
  · exact deserializeJob_jobBytes jobId iterationCount boundA boundF _
  · rw [whole, List.take_left' head, jobBytes_append]
    exact ⟨initState_jobBytes jobId iterationCount boundA boundF boundD
      (by rwa [abs_of_nonneg nonneg]) _, started_jobBytes jobId iterationCount _⟩

end Job

/-- Numbers survive the buffer, every buffer is the sum of its signed fields, and jobs are read back, as long as the
`int` indices and the `unsigned` exponent hold what they count. -/
theorem numberFormat :
    (∀ (size offset n : ℕ) (v : ℤ), 1 ≤ n → n ≤ 2 ^ 31 → 4 ∣ size → size ≤ 2 ^ 33 → 19 * n ≤ 8 * size →
      -2 ^ (16 * (n - 1) + 18) ≤ v → v < 2 ^ (16 * (n - 1) + 18) → (v < 0 → 16 * n + 19 < 2 ^ 32) →
      RoundTrips size offset n v) ∧
    (∀ size offset n : ℕ, 4 ∣ size → size ≤ 2 ^ 33 → ReadsFields size offset n) ∧
    ∀ (jobId : UInt32) (iterationCount : UInt64) (a f d l : ℤ), |a| < 2 ^ 546 → |f| < 2 ^ 546 → |d| < 2 ^ 1090 →
      0 ≤ l → l < 2 ^ 290 → ReadsBack jobId iterationCount a f d l := by
  refine ⟨?_, ?_, ?_⟩
  · intro size offset n v positive fits multiple small room low high exponent
    exact roundTrips positive fits multiple small room low high exponent
  · intro size offset n multiple small buf inside
    exact readBytes_eq multiple small inside n
  · intro jobId iterationCount a f d l boundA boundF boundD nonneg boundL
    exact readsBack jobId iterationCount boundA boundF boundD nonneg boundL

/-- A negative number in the middle of a buffer, and a job for the discriminant -7. -/
theorem numberFormat_small : RoundTrips 12 2 4 (-12345678901) ∧ ReadsBack 171 5 2 1 (-7) 1 := by
  have large (k : ℕ) (le : 3 ≤ k) : (7 : ℤ) < 2 ^ k :=
    lt_of_lt_of_le (by norm_num) (pow_le_pow_right₀ (by norm_num) le)
  constructor
  · exact numberFormat.1 12 2 4 (-12345678901) (by decide) (by decide) (by decide) (by decide) (by decide)
      (by norm_num) (by norm_num) fun _ => by norm_num
  · exact numberFormat.2.2 171 5 2 1 (-7) 1 (lt_trans (by norm_num) (large 546 (by decide)))
      (lt_trans (by norm_num) (large 546 (by decide))) (lt_of_eq_of_lt (by norm_num) (large 1090 (by decide)))
      (by decide) (lt_trans (by norm_num) (large 290 (by decide)))

section Wraps

variable {size n : ℕ} {v : ℤ}

theorem value_of_roundTrips (trips : RoundTrips size 0 n v) (multiple : 4 ∣ size) (small : size ≤ 2 ^ 33) :
    value size 0 (wordBytes (size / 4) (packed v n)) n = v := by
  have length : (List.replicate size (0 : UInt8)).length = size := List.length_replicate
  obtain ⟨buf, written, read, -⟩ := trips (List.replicate size 0) (by omega)
  have same := writeBytes_eq multiple [] (List.replicate size 0) length.ge v n
  rw [List.drop_of_length_le length.le, List.append_nil, List.nil_append, List.nil_append] at same
  obtain rfl := Exec.done.inj (same.symm.trans written)
  have words : (wordBytes (size / 4) (packed v n)).length = size := by
    rw [length_wordBytes]
    omega
  rw [readBytes_eq multiple small (by omega)] at read
  exact Exec.done.inj read

theorem length_coefficients (m : ℕ) (tmp : ℤ) : (ChiaDriver.coefficients m tmp).length = m + 1 := by
  induction m generalizing tmp with
  | zero => rfl
  | succ m ih => rw [coefficients, List.length_cons, ih]

/-- Too many words for an `int`: the loop that packs them makes no turn. -/
theorem pack_wraps {bits : ℕ} {coeffs : List ℕ} (wraps : intTurns coeffs.length = 0) : pack bits coeffs = 0 := by
  rw [pack, wraps, List.take_zero, List.foldr_nil]

/-- With 2^28 - 1 coefficients the exponent of the bias is 3. -/
theorem not_roundTrips_exponent : ¬RoundTrips (19 * 2 ^ 25) 0 (2 ^ 28 - 1) (-1) := by
  intro trips
  obtain ⟨m, count⟩ : ∃ m : ℕ, m + 1 = 2 ^ 28 - 1 := ⟨2 ^ 28 - 2, by norm_num⟩
  rw [← count] at trips
  have found := value_of_roundTrips trips (by decide) (by norm_num)
  have bits : ((m + 1) * ChiaDriver.WORD_BITS + ChiaDriver.REDUNDANT_BITS) % 2 ^ 32 = 3 := by
    rw [count]
    decide
  have bias : ChiaDriver.biased (-1) (m + 1) = ChiaDriver.biased 7 (m + 1) := by
    rw [biased, biased, if_pos (by decide), if_neg (by decide), bits]
    norm_num
  have same : packed (-1) (m + 1) = packed 7 (m + 1) := by rw [packed, packed, bias]
  have wide : (2 : ℤ) ^ 18 ≤ 2 ^ (16 * m + 18) := pow_le_pow_right₀ (by norm_num) (by omega)
  have seven := @value_written (19 * 2 ^ 25) 7 m (by omega) (by omega) (by decide) (by linarith) (by linarith)
    (by omega) [] []
  rw [List.nil_append, List.append_nil, ← same] at seven
  exact absurd (found.symm.trans seven) (by decide)

/-- With 2^31 + 1 coefficients nothing is packed. -/
theorem not_roundTrips_index : ¬RoundTrips (2 ^ 33) 0 (2 ^ 31 + 1) 1 := by
  intro trips
  have found := value_of_roundTrips trips (by decide) le_rfl
  have empty : packed 1 (2 ^ 31 + 1) = 0 := pack_wraps (by rw [length_coefficients]; decide)
  have zero : number (2 ^ 33) 0 (wordBytes (2 ^ 33 / 4) 0) = 0 := by
    have same := @number_wordBytes (2 ^ 33) (by decide) [] [] 0
    rw [List.nil_append, List.append_nil] at same
    exact same.trans (Nat.zero_mod _)
  rw [empty, value, Finset.sum_eq_zero fun i _ => by rw [field, zero, Nat.zero_div]; simp] at found
  exact absurd found (by decide)

theorem field_zero (nonempty : 4 ≤ size) (buf : ByteString) : field size 0 buf 0 = wordAt buf 0 % 2 ^ 19 := by
  obtain ⟨k, words⟩ : ∃ k, size / 4 = k + 1 := ⟨size / 4 - 1, by omega⟩
  have above : 2 ^ 19 ∣ ∑ j ∈ Finset.range k, wordAt buf (0 + 4 * (j + 1)) * 2 ^ (32 * (j + 1)) :=
    Finset.dvd_sum fun j _ => dvd_mul_of_dvd_right (pow_dvd_pow 2 (by omega)) _
  rw [field, pow_zero, Nat.div_one, number, words, Finset.sum_range_succ', Nat.add_mod,
    Nat.mod_eq_zero_of_dvd above, Nat.zero_add, Nat.mod_mod]
  simp

/-- In a buffer of more than 2^31 words no word is read. -/
theorem not_readsFields : ¬ReadsFields (2 ^ 33 + 4) 0 1 := by
  intro reads
  let buf : ByteString := ByteString.msbFirst 4 1 ++ List.replicate (2 ^ 33) 0
  have length : buf.length = 2 ^ 33 + 4 := by
    rw [List.length_append, ByteString.length_msbFirst, List.length_replicate, Nat.add_comm]
  have read := reads buf (by omega)
  have turns : (2 ^ 33 + 4 + (REG_BYTES - 1)) / REG_BYTES = 2 ^ 31 + 1 := by decide
  have empty : pack REG_BITS ((List.range (2 ^ 31 + 1)).map fun j => wordAt buf (0 + 4 * j)) = 0 :=
    pack_wraps (by rw [List.length_map, List.length_range]; decide)
  have first : wordAt buf 0 = 1 := by
    have word : (ByteString.msbFirst 4 1).length = REG_BYTES := ByteString.length_msbFirst _ _
    have head : buf.take REG_BYTES = ByteString.msbFirst 4 1 := List.take_left' word
    rw [wordAt, List.drop_zero, head]
    decide
  rw [VdfDriver.readBytes, turns, gather_eq (by omega), Exec.done_bind, empty, value, Finset.sum_range_one,
    field_zero (by omega), first] at read
  exact absurd (Exec.done.inj read) (by decide)

/-- The `unsigned` exponent and the two `int` indices do not hold every size. -/
theorem numberFormat_wraps : ¬RoundTrips (19 * 2 ^ 25) 0 (2 ^ 28 - 1) (-1) ∧ ¬RoundTrips (2 ^ 33) 0 (2 ^ 31 + 1) 1 ∧
    ¬ReadsFields (2 ^ 33 + 4) 0 1 :=
  ⟨not_roundTrips_exponent, not_roundTrips_index, not_readsFields⟩

end Wraps

end ChiaVdf.ChiaDriver
