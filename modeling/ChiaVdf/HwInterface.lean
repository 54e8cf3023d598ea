import ChiaVdf.HwEmulator
import ChiaVdf.HwProof

/-! `hw_interface.cpp` on the emulator: what the driver of an engine writes to start and to stop it arrives there, and
what it reads of the status is what the engine had. -/
namespace ChiaVdf

open ChiaDriver (JobState cmdSize serializeJob deserializeJob jobBytes)
open Emulator (doIo N_VDFS CHIA_VDF_CONTROL_REG_OFFSET CHIA_VDF_JOB_CSR_MULT CHIA_VDF_STATUS_JOB_ID_REG_OFFSET)

namespace HwInterface

def CHIA_VDF_JOB_ID_OFFSET : ℕ := 0x1000
def HW_VDF_STATUS_SIZE : ℕ := 0xb4
def HW_VDF_TEMP_FLAG : ℕ := 1 <<< 3
def CLOCK_BIT : ℕ := 0x01
def RESET_BIT : ℕ := 0x10
def BURST_ADDR : ℕ := 0x300000

abbrev Driver := FtdiDriver Emulator

def regWrite (addr data : ℕ) (drv : Driver) : Exec Driver := do
  let (_, drv) ← FtdiDriver.regWrite doIo addr data drv
  return drv

def enableEngine (controlCsr : ℕ) (drv : Driver) : Exec Driver := do
  let drv ← regWrite controlCsr 0 drv
  regWrite controlCsr CLOCK_BIT drv

def disableEngine (controlCsr : ℕ) (drv : Driver) : Exec Driver := do
  let drv ← regWrite controlCsr 0 drv
  regWrite controlCsr RESET_BIT drv

def baseAddr (idx : ℕ) : ℕ := CHIA_VDF_CONTROL_REG_OFFSET + CHIA_VDF_JOB_CSR_MULT * idx

def hwVdfControl (idxMask value : ℕ) (drv : Driver) : Exec Driver :=
  Exec.forLoop N_VDFS (fun i drv => if idxMask.testBit i then regWrite (baseAddr i) value drv else .done drv) drv

/-- `prepare_job`, which fills all of the buffer. -/
def prepareJob (nIters : UInt64) (d a b : ℤ) : Exec ByteString := do
  let L ← mpzRoot4 (-d)
  serializeJob (List.replicate cmdSize 0) 0xab nIters a b d L

def startHwVdf (d a b : ℤ) (nIters : UInt64) (idx : ℕ) (drv : Driver) : Exec Driver := do
  let job ← prepareJob nIters d a b
  let drv ← enableEngine (baseAddr idx) drv
  let (_, drv) ← FtdiDriver.write doIo (baseAddr idx + CHIA_VDF_JOB_ID_OFFSET) job drv
  return drv

def stopHwVdf (idx : ℕ) (drv : Driver) : Exec Driver := disableEngine (baseAddr idx) drv

/-- The status of one engine: that of the first one is read together with the temperature. -/
def readStatus (i : ℕ) (drv : Driver) : Exec (ByteString × Driver) :=
  if i = 0 then do
    let (_, readStatus, drv) ← FtdiDriver.read doIo BURST_ADDR (HW_VDF_STATUS_SIZE + 20) drv
    return (readStatus.drop 20, drv)
  else do
    let (_, readStatus, drv) ← FtdiDriver.read doIo (CHIA_VDF_STATUS_JOB_ID_REG_OFFSET + 0x10000 * i)
      HW_VDF_STATUS_SIZE drv
    return (readStatus, drv)

def readHwStatusTurn (idxMask i : ℕ) (s : Driver × (ℕ → VdfValue)) : Exec (Driver × (ℕ → VdfValue)) := do
  let (drv, values) := s
  if i = 0 ∧ idxMask &&& (HW_VDF_TEMP_FLAG ||| 1 <<< i) ≠ 0 ∨ idxMask.testBit i then do
    let (job, drv) ← readStatus i drv
    if idxMask.testBit i then do
      let status ← deserializeJob job
      return (drv, Function.update values i ⟨status.iterationCount, status.a, status.f⟩)
    else return (drv, values)
  else return (drv, values)

def readHwStatus (idxMask : ℕ) (values : ℕ → VdfValue) (drv : Driver) : Exec (Driver × (ℕ → VdfValue)) :=
  Exec.forLoop N_VDFS (readHwStatusTurn idxMask) (drv, values)

end HwInterface

namespace Emulator

variable {emu : Emulator} {addr i : ℕ} (cmd : UInt8) (bytes : ByteString)

@[simp] theorem set_engines (i : ℕ) (e : Engine) (emu : Emulator) :
    (emu.set i e).engines = Function.update emu.engines i e := rfl
@[simp] theorem set_pllRegs (i : ℕ) (e : Engine) (emu : Emulator) : (emu.set i e).pllRegs = emu.pllRegs := rfl
@[simp] theorem set_self (i : ℕ) (emu : Emulator) : emu.set i (emu.engines i) = emu := by simp [set]
@[simp] theorem set_set (i : ℕ) (e e' : Engine) (emu : Emulator) : (emu.set i e).set i e' = emu.set i e' := by
  simp [set]

/-- The address arrives if it is one of a word and has no more than 26 bits. -/
theorem doIo_header (aligned : 4 ∣ addr) (range : addr < 2 ^ 26) :
    ByteString.ofMsbFirst (((FtdiDriver.header cmd addr ++ bytes).drop 1).take 3) * 2 ^ 2 = addr := by
  have word : addr / 4 < 256 ^ 3 := by omega
  have taken : ((FtdiDriver.header cmd addr ++ bytes).drop 1).take 3 = ByteString.msbFirst 3 (addr / 4) := by
    rw [FtdiDriver.header, List.cons_append, List.drop_succ_cons, List.drop_zero]
    exact List.take_left' (ByteString.length_msbFirst _ _)
  rw [taken, ByteString.ofMsbFirst_of_lt word]
  omega

theorem doIo_write (emu : Emulator) (aligned : 4 ∣ addr) (range : addr < 2 ^ 26) (notPll : pllRegSize ≤ addr) :
    doIo (FtdiDriver.header cmd addr ++ bytes) [] 0 emu = do
      let emu ← Exec.forLoop N_VDFS (engineIo addr bytes) emu
      return (emu, []) := by
  have data : (FtdiDriver.header cmd addr ++ bytes).drop FtdiDriver.CMD_BYTES = bytes :=
    List.drop_left' (FtdiDriver.length_header cmd addr)
  have writes : ¬(bytes.length = 0 ∧ 0 ≠ 0) := by simp
  simp only [doIo, doIo_header cmd bytes aligned range, data, if_neg writes, true_and, if_neg (not_lt.mpr notPll)]

theorem doIo_read (emu : Emulator) (aligned : 4 ∣ addr) (range : addr < 2 ^ 26) {size : ℕ} (positive : size ≠ 0)
    (buf : ByteString)
    (quiet : ∀ i < N_VDFS, ∀ emu, engineIo addr [] i emu = .done emu) :
    doIo (FtdiDriver.header cmd addr) buf size emu = do
      let (emu, read) ← readRegs addr (buf.drop FtdiDriver.WAIT_CYCLES) (size - FtdiDriver.WAIT_CYCLES) emu
      return (emu, buf.take FtdiDriver.WAIT_CYCLES ++ read) := by
  have decoded := doIo_header cmd [] aligned range
  rw [List.append_nil] at decoded
  have data : (FtdiDriver.header cmd addr).drop FtdiDriver.CMD_BYTES = [] :=
    List.drop_of_length_le (FtdiDriver.length_header cmd addr).le
  have reads : ([] : ByteString).length = 0 ∧ size ≠ 0 := ⟨rfl, positive⟩
  have loop : Exec.forLoop N_VDFS (engineIo addr []) emu = .done emu := by
    have unchanged : N_VDFS = 3 := rfl
    simp [Exec.forLoop, unchanged, quiet]
  simp only [doIo, decoded, data, loop, Exec.done_bind, if_pos reads]

theorem engineIo_idle (notControl : addr ≠ CHIA_VDF_CONTROL_REG_OFFSET + CHIA_VDF_JOB_CSR_MULT * i)
    (notJob : addr < CHIA_VDF_CMD_JOB_ID_REG_OFFSET + CHIA_VDF_JOB_CSR_MULT * i ∨
      CHIA_VDF_CMD_JOB_ID_REG_OFFSET + CHIA_VDF_JOB_CSR_MULT * i + Engine.jobRegSize ≤ addr) :
    engineIo addr bytes i emu = .done emu := by
  have outside : ¬(CHIA_VDF_CMD_JOB_ID_REG_OFFSET + CHIA_VDF_JOB_CSR_MULT * i ≤ addr ∧
      addr < CHIA_VDF_CMD_JOB_ID_REG_OFFSET + CHIA_VDF_JOB_CSR_MULT * i + Engine.jobRegSize) := by omega
  simp only [engineIo, if_neg outside, if_neg notControl, Exec.done_bind, set_self, Exec.pure_eq]

theorem forLoop_only {body : ℕ → Emulator → Exec Emulator} {op : Engine → Exec Engine} {n : ℕ} (inside : i < n)
    (here : ∀ emu, body i emu = do let e ← op (emu.engines i); return emu.set i e)
    (others : ∀ j < n, j ≠ i → ∀ emu, body j emu = .done emu) (emu : Emulator) :
    Exec.forLoop n body emu = do let e ← op (emu.engines i); return emu.set i e := by
  have before (k : ℕ) (le : k ≤ i) : Exec.forLoop k body emu = .done emu := by
    induction k with
    | zero => rfl
    | succ k ih => rw [Exec.forLoop, ih (by omega), Exec.done_bind, others k (by omega) (by omega)]
  induction n with
  | zero => omega
  | succ n ih =>
    rw [Exec.forLoop]
    by_cases last : i = n
    · subst last
      rw [before i le_rfl, Exec.done_bind, here]
    · rw [ih (by omega) fun j lt => others j (by omega)]
      cases op (emu.engines i) with
      | done e =>
        simp only [Exec.done_bind, Exec.pure_eq]
        exact others n (by omega) (fun same => last same.symm) _
      | _ => rfl

theorem forLoop_control (inside : i < N_VDFS) (data : ByteString) (emu : Emulator) :
    Exec.forLoop N_VDFS (engineIo (CHIA_VDF_CONTROL_REG_OFFSET + CHIA_VDF_JOB_CSR_MULT * i) data) emu = do
      let e ← control data (emu.engines i)
      return emu.set i e := by
  have many : N_VDFS = 3 := rfl
  apply forLoop_only inside
  · intro emu
    have notJob : ¬(CHIA_VDF_CMD_JOB_ID_REG_OFFSET + CHIA_VDF_JOB_CSR_MULT * i ≤
        CHIA_VDF_CONTROL_REG_OFFSET + CHIA_VDF_JOB_CSR_MULT * i ∧
          CHIA_VDF_CONTROL_REG_OFFSET + CHIA_VDF_JOB_CSR_MULT * i <
          CHIA_VDF_CMD_JOB_ID_REG_OFFSET + CHIA_VDF_JOB_CSR_MULT * i + Engine.jobRegSize) := by
      simp only [CHIA_VDF_CMD_JOB_ID_REG_OFFSET, CHIA_VDF_CONTROL_REG_OFFSET]
      omega
    simp only [engineIo, if_neg notJob, if_true, Exec.done_bind]
  · intro j lt other emu
    apply engineIo_idle data
    · simp only [CHIA_VDF_CONTROL_REG_OFFSET, CHIA_VDF_JOB_CSR_MULT]
      omega
    · simp only [CHIA_VDF_CMD_JOB_ID_REG_OFFSET, CHIA_VDF_CONTROL_REG_OFFSET, CHIA_VDF_JOB_CSR_MULT, Engine.jobRegSize]
      omega

theorem forLoop_writeJob (inside : i < N_VDFS) {offset : ℕ} (small : offset < Engine.jobRegSize) (data : ByteString)
    (emu : Emulator) :
    Exec.forLoop N_VDFS (engineIo (CHIA_VDF_CMD_JOB_ID_REG_OFFSET + CHIA_VDF_JOB_CSR_MULT * i + offset) data) emu = do
      let e ← writeJob offset data (emu.engines i)
      return emu.set i e := by
  have many : N_VDFS = 3 := rfl
  have size : Engine.jobRegSize = 512 := rfl
  apply forLoop_only inside
  · intro emu
    have job : CHIA_VDF_CMD_JOB_ID_REG_OFFSET + CHIA_VDF_JOB_CSR_MULT * i ≤
        CHIA_VDF_CMD_JOB_ID_REG_OFFSET + CHIA_VDF_JOB_CSR_MULT * i + offset ∧
        CHIA_VDF_CMD_JOB_ID_REG_OFFSET + CHIA_VDF_JOB_CSR_MULT * i + offset <
          CHIA_VDF_CMD_JOB_ID_REG_OFFSET + CHIA_VDF_JOB_CSR_MULT * i + Engine.jobRegSize := by omega
    have notControl : CHIA_VDF_CMD_JOB_ID_REG_OFFSET + CHIA_VDF_JOB_CSR_MULT * i + offset ≠
        CHIA_VDF_CONTROL_REG_OFFSET + CHIA_VDF_JOB_CSR_MULT * i := by
      simp only [CHIA_VDF_CMD_JOB_ID_REG_OFFSET, CHIA_VDF_CONTROL_REG_OFFSET]
      omega
    simp only [engineIo, if_pos job, if_neg notControl, Nat.add_sub_cancel_left]
    cases writeJob offset data (emu.engines i) <;> rfl
  · intro j lt other emu
    apply engineIo_idle data
    · simp only [CHIA_VDF_CMD_JOB_ID_REG_OFFSET, CHIA_VDF_CONTROL_REG_OFFSET, CHIA_VDF_JOB_CSR_MULT]
      omega
    · simp only [CHIA_VDF_CMD_JOB_ID_REG_OFFSET, CHIA_VDF_JOB_CSR_MULT, Engine.jobRegSize]
      omega

end Emulator

namespace Engine

variable {e : Engine}

@[simp] theorem jobRegs_withJobRegs (regs : ByteString) (e : Engine) : (e.withJobRegs regs).jobRegs = regs := rfl
@[simp] theorem jobRegs_begun (job : JobState) (e : Engine) : (e.begun job).jobRegs = e.jobRegs := rfl

theorem startJob_done (created : e.created = true) (idle : e.running = false) {job : JobState}
    (init : ChiaDriver.initState e.jobRegs = .done job) : e.startJob = .done (e.begun job) := by
  simp [startJob, created, idle, init]

/-- The registers have their sizes, and no job is flagged. -/
structure Whole (e : Engine) : Prop where
  jobRegs : e.jobRegs.length = jobRegSize
  statusRegs : e.statusRegs.length = jobStatusSize
  quiet : ChiaDriver.started e.jobRegs = false

theorem Whole.disable (whole : e.Whole) : e.disable.Whole := by
  unfold Engine.disable
  split_ifs
  · exact ⟨whole.jobRegs, whole.statusRegs, whole.quiet⟩
  · exact whole

theorem Whole.enable (whole : e.Whole) : e.enable.Whole := ⟨whole.jobRegs, whole.statusRegs, whole.quiet⟩

@[simp] theorem disable_disable (e : Engine) : e.disable.disable = e.disable := by
  unfold Engine.disable
  split_ifs <;> simp_all

@[simp] theorem disable_enable (e : Engine) : e.disable.enable = e.enable := by
  unfold Engine.disable
  split_ifs <;> rfl

end Engine

namespace HwInterface

/-- The buffer and the registers have their sizes, and the emulator injects no errors. -/
structure Whole (drv : Driver) : Prop where
  buffer : drv.intWriteBuf.length = FtdiDriver.MAX_WRITE_BUF
  engines : ∀ i, (drv.device.engines i).Whole
  errorProb : drv.device.errorProb = 0

variable {drv : Driver} {i : ℕ}

theorem Whole.set (whole : Whole drv) {e : Engine} (engine : e.Whole) {intWriteBuf : ByteString}
    (buffer : intWriteBuf.length = FtdiDriver.MAX_WRITE_BUF) : Whole ⟨intWriteBuf, drv.device.set i e⟩ where
  buffer := buffer
  engines j := by
    by_cases same : j = i
    · subst same
      simpa using engine
    · simpa [Function.update_of_ne same] using whole.engines j
  errorProb := whole.errorProb

section Control

theorem control_word {value : ℕ} (small : value < 2 ^ 32) (padding : ByteString) (e : Engine) :
    Emulator.control (ByteString.msbFirst 4 value ++ padding) e =
      .done (if value.testBit 0 then e.enable else e.disable) := by
  rw [Emulator.control, ChiaDriver.readBytes32_append small, Exec.done_bind]
  rfl

theorem regWrite_spec (whole : Whole drv) (inside : i < N_VDFS) {value : ℕ} (small : value < 2 ^ 32) :
    ∃ intWriteBuf, intWriteBuf.length = FtdiDriver.MAX_WRITE_BUF ∧ regWrite (baseAddr i) value drv =
      .done ⟨intWriteBuf, drv.device.set i (if value.testBit 0 then (drv.device.engines i).enable
        else (drv.device.engines i).disable)⟩ := by
  have many : N_VDFS = 3 := rfl
  have word : (ByteString.msbFirst VdfDriver.REG_BYTES value).length = 4 := ByteString.length_msbFirst _ _
  obtain ⟨cmd, padding, intWriteBuf, buffer, -, run⟩ := FtdiDriver.writeCmd_spec doIo (baseAddr i)
    (ByteString.msbFirst VdfDriver.REG_BYTES value) (by omega) whole.buffer
  refine ⟨intWriteBuf, buffer, ?_⟩
  have base : baseAddr i = 0x100000 + 0x10000 * i := rfl
  have sent := Emulator.doIo_write cmd (ByteString.msbFirst VdfDriver.REG_BYTES value ++ padding) drv.device
    (show 4 ∣ baseAddr i by omega) (by omega) (by rw [Emulator.pllRegSize]; omega)
  rw [regWrite, FtdiDriver.regWrite, run, sent, baseAddr, Emulator.forLoop_control inside, VdfDriver.REG_BYTES_eq,
    control_word small]
  rfl

end Control

section Start

theorem enableEngine_spec (whole : Whole drv) (inside : i < N_VDFS) :
    ∃ intWriteBuf, intWriteBuf.length = FtdiDriver.MAX_WRITE_BUF ∧ enableEngine (baseAddr i) drv =
      .done ⟨intWriteBuf, drv.device.set i (drv.device.engines i).enable⟩ := by
  obtain ⟨middle, length, first⟩ := regWrite_spec whole inside (show 0 < 2 ^ 32 by norm_num)
  have whole' : Whole ⟨middle, drv.device.set i (drv.device.engines i).disable⟩ :=
    whole.set (whole.engines i).disable length
  obtain ⟨last, length', second⟩ := regWrite_spec whole' inside (show 1 < 2 ^ 32 by norm_num)
  refine ⟨last, length', ?_⟩
  rw [enableEngine, first]
  exact second.trans (by simp)

theorem started_of_drop {regs regs' : ByteString} (same : regs'.drop 256 = regs.drop 256) :
    ChiaDriver.started regs' = ChiaDriver.started regs := by
  have split : ChiaDriver.startFlagAt = 256 + 132 := rfl
  rw [ChiaDriver.started, ChiaDriver.started, split, ← List.drop_drop, ← List.drop_drop, same]

theorem writeJob_first {e : Engine} (whole : e.Whole) {chunk : ByteString} (size : chunk.length = 256) :
    ∃ jobRegs, Emulator.writeJob 0 chunk e = .done (e.withJobRegs jobRegs) ∧ (e.withJobRegs jobRegs).Whole ∧
      jobRegs.take 256 = chunk := by
  have regs : e.jobRegs.length = 512 := whole.jobRegs
  have written : HwMessage.blit e.jobRegs 0 chunk = .done (chunk ++ e.jobRegs.drop 256) := by
    rw [HwMessage.blit, if_pos (by omega), size]
    simp
  have quiet : ChiaDriver.started (chunk ++ e.jobRegs.drop 256) = false := by
    rw [started_of_drop (List.drop_left' size)]
    exact whole.quiet
  refine ⟨chunk ++ e.jobRegs.drop 256, ?_, ⟨?_, whole.statusRegs, quiet⟩, List.take_left' size⟩
  · simp [Emulator.writeJob, written, quiet]
  · change (chunk ++ e.jobRegs.drop 256).length = 512
    rw [List.length_append, List.length_drop]
    omega

theorem writeJob_second {e : Engine} (whole : e.Whole) (created : e.created = true) (idle : e.running = false)
    {front chunk : ByteString} {job : JobState} (known : e.jobRegs.take 256 = front) (size : chunk.length = 256)
    (flag : ChiaDriver.started (front ++ chunk) = true) (init : ChiaDriver.initState (front ++ chunk) = .done job) :
    ∃ jobRegs, Emulator.writeJob 256 chunk e = .done ((e.withJobRegs jobRegs).begun job) ∧
      ((e.withJobRegs jobRegs).begun job).Whole := by
  have regs : e.jobRegs.length = 512 := whole.jobRegs
  have frontSize : front.length = 256 := by
    rw [← known, List.length_take]
    omega
  have written : HwMessage.blit e.jobRegs 256 chunk = .done (front ++ chunk) := by
    rw [HwMessage.blit, if_pos (by omega), known, size, List.drop_of_length_le (by omega), List.append_nil]
  have flagAt : ChiaDriver.startFlagAt = 388 := rfl
  have cleared : HwMessage.blit (front ++ chunk) ChiaDriver.startFlagAt (List.replicate 4 0) =
      .done ((front ++ chunk).take 388 ++ (List.replicate 4 0 ++ (front ++ chunk).drop 392)) := by
    rw [HwMessage.blit, flagAt, List.length_replicate, if_pos (by rw [List.length_append]; omega), List.append_assoc]
  have place : ((front ++ chunk).take 388).length = 388 := by
    rw [List.length_take, List.length_append]
    omega
  refine ⟨(front ++ chunk).take 388 ++ (List.replicate 4 0 ++ (front ++ chunk).drop 392), ?_, ?_, whole.statusRegs, ?_⟩
  · have start := Engine.startJob_done (e := e.withJobRegs (front ++ chunk)) created idle init
    simp only [Emulator.writeJob, written, Exec.done_bind, Engine.jobRegs_withJobRegs, flag, if_true, start,
      Engine.jobRegs_begun, cleared]
    rfl
  · change ((front ++ chunk).take 388 ++ (List.replicate 4 0 ++ (front ++ chunk).drop 392)).length = 512
    rw [List.length_append, List.length_append, place, List.length_replicate, List.length_drop, List.length_append]
    omega
  · change ChiaDriver.started ((front ++ chunk).take 388 ++ (List.replicate 4 0 ++ (front ++ chunk).drop 392)) = false
    rw [ChiaDriver.started, flagAt, List.drop_left' place, List.take_left' List.length_replicate]
    decide

theorem write_chunk (whole : Whole drv) (inside : i < N_VDFS) {offset : ℕ} (aligned : 4 ∣ offset)
    (small : offset < Engine.jobRegSize) (chunk : ByteString) (fits : chunk.length ≤ 256) :
    ∃ padding intWriteBuf, intWriteBuf.length = FtdiDriver.MAX_WRITE_BUF ∧
      FtdiDriver.roundSizeUp chunk.length = some (chunk ++ padding).length ∧
      FtdiDriver.writeCmd doIo (baseAddr i + CHIA_VDF_JOB_ID_OFFSET + offset) chunk drv = do
        let e ← Emulator.writeJob offset (chunk ++ padding) (drv.device.engines i)
        return (0, ⟨intWriteBuf, drv.device.set i e⟩) := by
  have many : N_VDFS = 3 := rfl
  have size : Engine.jobRegSize = 512 := rfl
  have pll : Emulator.pllRegSize = 32 := rfl
  have place : baseAddr i + CHIA_VDF_JOB_ID_OFFSET + offset = 0x101000 + 0x10000 * i + offset := by
    simp only [baseAddr, CHIA_VDF_CONTROL_REG_OFFSET, CHIA_VDF_JOB_ID_OFFSET, CHIA_VDF_JOB_CSR_MULT]
    omega
  obtain ⟨cmd, padding, intWriteBuf, length, rounded, run⟩ := FtdiDriver.writeCmd_spec doIo
    (baseAddr i + CHIA_VDF_JOB_ID_OFFSET + offset) chunk fits whole.buffer
  refine ⟨padding, intWriteBuf, length, rounded, ?_⟩
  have sent := Emulator.doIo_write cmd (chunk ++ padding) drv.device (show 4 ∣ 0x101000 + 0x10000 * i + offset by omega)
    (by omega) (by omega)
  rw [run, place, sent]
  have loop := Emulator.forLoop_writeJob inside small (chunk ++ padding) drv.device
  rw [Emulator.CHIA_VDF_CMD_JOB_ID_REG_OFFSET, CHIA_VDF_JOB_CSR_MULT] at loop
  rw [loop]
  cases Emulator.writeJob offset (chunk ++ padding) (drv.device.engines i) <;> rfl

/-- A job goes out in two commands. The second one takes along what the first has left in the buffer. -/
theorem write_job (whole : Whole drv) (inside : i < N_VDFS) (created : (drv.device.engines i).created = true)
    (idle : (drv.device.engines i).running = false) {bytes : ByteString} (size : bytes.length = cmdSize)
    {job : JobState}
    (flag : ∀ padding, ChiaDriver.started (bytes ++ padding) = true)
    (init : ∀ padding, ChiaDriver.initState (bytes ++ padding) = .done job) :
    ∃ intWriteBuf jobRegs, FtdiDriver.write doIo (baseAddr i + CHIA_VDF_JOB_ID_OFFSET) bytes drv =
        .done (0, ⟨intWriteBuf, drv.device.set i (((drv.device.engines i).withJobRegs jobRegs).begun job)⟩) ∧
      Whole ⟨intWriteBuf, drv.device.set i (((drv.device.engines i).withJobRegs jobRegs).begun job)⟩ := by
  have size : bytes.length = 392 := size
  have head : (bytes.take 256).length = 256 := by
    rw [List.length_take]
    omega
  have tail : (bytes.drop 256).length = 136 := by
    rw [List.length_drop]
    omega
  obtain ⟨padding, buffer₁, length₁, rounded, run₁⟩ :=
    write_chunk whole inside (dvd_zero 4) (by decide) (bytes.take 256)
    head.le
  obtain rfl : padding = [] := by
    rw [head] at rounded
    have full : 256 = (bytes.take 256 ++ padding).length := Option.some.inj rounded
    rw [List.length_append] at full
    exact List.length_eq_zero_iff.mp (by omega)
  obtain ⟨regs₁, first, whole₁, front⟩ := writeJob_first (whole.engines i) head
  rw [List.append_nil, first, Exec.done_bind, Nat.add_zero] at run₁
  have wholeDrv := whole.set (i := i) whole₁ length₁
  obtain ⟨padding', buffer₂, length₂, rounded', run₂⟩ :=
    write_chunk wholeDrv inside (show 4 ∣ 256 by norm_num) (by decide)
    (bytes.drop 256) (by omega)
  have full : (bytes.drop 256 ++ padding').length = 256 := by
    rw [tail] at rounded'
    exact (Option.some.inj rounded').symm
  have joined : bytes.take 256 ++ (bytes.drop 256 ++ padding') = bytes ++ padding' := by
    rw [← List.append_assoc, List.take_append_drop]
  obtain ⟨regs₂, second, whole₂⟩ := writeJob_second whole₁ created idle front full
    ((congrArg _ joined).trans (flag _)) ((congrArg _ joined).trans (init _))
  simp only [Emulator.set_engines, Function.update_self, second, Exec.done_bind, Emulator.set_set] at run₂
  refine ⟨buffer₂, regs₂, ?_, whole.set whole₂ length₂⟩
  rw [FtdiDriver.write, if_neg (by omega), FtdiDriver.TARGET_WRITE_SIZE, if_pos (by omega), run₁]
  simp only [Exec.done_bind, Exec.pure_eq, ne_eq, not_true_eq_false, if_false]
  rw [FtdiDriver.write, if_neg (by omega), FtdiDriver.TARGET_WRITE_SIZE, if_neg (by omega), run₂]
  rfl

/-- A started engine has the job, and nothing else in the emulator has changed. -/
theorem startHwVdf_spec (whole : Whole drv) (inside : i < N_VDFS) (idle : (drv.device.engines i).running = false)
    {D a b L : ℤ} {qf : Form} (nIters : UInt64) (boundA : |a| < 2 ^ 546) (boundB : |b| < 2 ^ 546)
    (boundD : |D| < 2 ^ 1090)
    (root : mpzRoot4 (-D) = .done L) (boundL : |L| < 2 ^ 290) (form : Form.fromAbd a b D = .done qf) :
    ∃ intWriteBuf jobRegs, startHwVdf D a b nIters i drv = .done ⟨intWriteBuf, drv.device.set i
        (((drv.device.engines i).enable.withJobRegs jobRegs).begun ⟨0, nIters.toNat, D, L, qf⟩)⟩ ∧
      Whole ⟨intWriteBuf, drv.device.set i
        (((drv.device.engines i).enable.withJobRegs jobRegs).begun ⟨0, nIters.toNat, D, L, qf⟩)⟩ := by
  obtain ⟨middle, length, enabled⟩ := enableEngine_spec whole inside
  have whole' := whole.set (i := i) (whole.engines i).enable length
  have job : prepareJob nIters D a b = .done (jobBytes 0xab nIters a b D L []) := by
    rw [prepareJob, root, Exec.done_bind, ChiaDriver.serializeJob_eq 0xab nIters a b D L (by simp)]
    simp
  have size : (jobBytes 0xab nIters a b D L []).length = cmdSize := ChiaDriver.length_jobBytes _ _ _
  have self : (drv.device.set i (drv.device.engines i).enable).engines i = (drv.device.engines i).enable := by simp
  obtain ⟨buffer, regs, sent, wholeLast⟩ := write_job whole' inside (by rw [self]; rfl) (by rw [self]; exact idle) size
    (fun padding => by
      rw [ChiaDriver.jobBytes_append]
      exact ChiaDriver.started_jobBytes 0xab nIters _)
    (fun padding => by
      rw [ChiaDriver.jobBytes_append, ChiaDriver.initState_jobBytes 0xab nIters boundA boundB boundD boundL, form]
      rfl)
  simp only [self, Emulator.set_set] at sent wholeLast
  refine ⟨buffer, regs, ?_, wholeLast⟩
  rw [startHwVdf, job, Exec.done_bind, enabled, Exec.done_bind, sent]
  rfl

theorem stopHwVdf_spec (whole : Whole drv) (inside : i < N_VDFS) :
    ∃ intWriteBuf, stopHwVdf i drv = .done ⟨intWriteBuf, drv.device.set i (drv.device.engines i).disable⟩ ∧
      Whole ⟨intWriteBuf, drv.device.set i (drv.device.engines i).disable⟩ := by
  obtain ⟨middle, length, first⟩ := regWrite_spec whole inside (show 0 < 2 ^ 32 by norm_num)
  have whole' : Whole ⟨middle, drv.device.set i (drv.device.engines i).disable⟩ :=
    whole.set (whole.engines i).disable length
  obtain ⟨last, length', second⟩ := regWrite_spec whole' inside (show RESET_BIT < 2 ^ 32 by decide)
  refine ⟨last, ?_, whole.set (whole.engines i).disable length'⟩
  rw [stopHwVdf, disableEngine, first]
  exact second.trans (by simp [RESET_BIT, Nat.testBit])

end Start

end HwInterface

end ChiaVdf
