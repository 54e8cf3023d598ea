import ChiaVdf.FormArithmetic
import ChiaVdf.FtdiDriver

/-! The emulator of `emu_runner.cpp`: the registers of three engines behind the device, and for each engine the threads
that square. -/
namespace ChiaVdf

open ChiaDriver (JobState initState started)
open HwMessage (blit)
open VdfDriver (readBytes32 writeBytes64)

/-- Where a thread is in `run_job`; `updating` has the form that `qf2` holds. -/
inductive JobThread where
  | launched
  | testing
  | squaring
  | updating (qf2 : Form)
  | ending
  deriving DecidableEq

/-- `g_job_regs[i]`, `g_status_regs[i]` and `*states[i]`, if that was `created`. -/
structure Engine where
  jobRegs : ByteString
  statusRegs : ByteString
  created : Bool
  initDone : Bool
  stopping : Bool
  running : Bool
  error : Bool
  job : JobState
  threads : List JobThread

/-- `errorProb` is the value of `EMU_ERROR_PROB` (zero if that is not set), and `randVal` what the calls of `mrand48`
will return. -/
structure Emulator where
  engines : ℕ → Engine
  pllRegs : ByteString
  errorProb : ℤ
  randVal : ℕ → ℕ

namespace Engine

def jobRegSize : ℕ := 512
def jobStatusSize : ℕ := 180

def zero : Engine where
  jobRegs := List.replicate jobRegSize 0
  statusRegs := List.replicate jobStatusSize 0
  created := false
  initDone := false
  stopping := true
  running := false
  error := false
  job := ⟨0, 0, 0, 0, ⟨0, 0, 0⟩⟩
  threads := []

def withJobRegs (jobRegs : ByteString) (e : Engine) : Engine := { e with jobRegs := jobRegs }

/-- What `init_state` sets, and the thread that is detached. -/
def begun (job : JobState) (e : Engine) : Engine :=
  { e with job := job, initDone := true, stopping := false, threads := e.threads ++ [.launched] }

/-- The first part of `start_job` is a loop that waits as long as a thread is `running`. -/
def startJob (e : Engine) : Exec Engine :=
  if e.created = false then .fault .outOfBounds
  else if e.running then .diverged
  else do
    let job ← initState e.jobRegs
    return e.begun job

/-- What a turn of that loop does. -/
def await (e : Engine) : Engine := if e.running then { e with stopping := true } else e

def disable (e : Engine) : Engine :=
  if e.created ∧ e.initDone ∧ e.stopping = false then { e with stopping := true } else e

def enable (e : Engine) : Engine := { e with created := true, stopping := false }

/-- Where `a[10]` is in the status. -/
def injectAt : ℕ := 12 + 4 * 10

/-- `inject_error`: once there was an error, all values that are read of the job are bad. -/
def injectError (p : ℤ) (randVal : ℕ) (e : Engine) : Exec Engine :=
  if p ≠ 0 ∧ (e.error ∨ randVal % (p % 2 ^ 32).toNat = 0) then do
    let stat ← blit e.statusRegs injectAt (((e.statusRegs.drop injectAt).take 4).map (~~~·))
    return { e with statusRegs := stat, error := true }
  else return e

def updateStatus (p : ℤ) (randVal : ℕ) (e : Engine) : Exec Engine := do
  let stat ←
    if e.stopping = false then do
      let stat ← writeBytes64 4 e.statusRegs e.job.curIter
      let stat ← ChiaDriver.writeBytes (4 * 21) 12 stat e.job.qf.a ChiaDriver.NUM_2X_COEFFS
      ChiaDriver.writeBytes (4 * 21) 96 stat e.job.qf.b ChiaDriver.NUM_2X_COEFFS
    else .done (List.replicate jobStatusSize 0)
  injectError p randVal { e with statusRegs := stat }

/-- A step of `run_job`: the counter and the form change together, under the lock. -/
def threadStep (arith : FormArith) (k : ℕ) (e : Engine) : Exec Engine :=
  match e.threads[k]? with
  | none => .done e
  | some .launched => .done { e with error := false, running := true, threads := e.threads.set k .testing }
  | some .testing =>
    if e.stopping = false ∧ e.job.curIter < e.job.targetIter then .done { e with threads := e.threads.set k .squaring }
    else .done { e with threads := e.threads.set k .ending }
  | some .squaring => do
    let qf2 ← arith.nudupl e.job.qf e.job.d e.job.l
    let qf2 ← arith.reduce qf2
    return { e with threads := e.threads.set k (.updating qf2) }
  | some (.updating qf2) =>
    .done { e with
      job := { e.job with curIter := e.job.curIter + 1, qf := qf2 }
      threads := e.threads.set k .testing }
  | some .ending => .done { e with running := false, threads := e.threads.eraseIdx k }

end Engine

namespace Emulator

def N_VDFS : ℕ := 3
def CHIA_VDF_CONTROL_REG_OFFSET : ℕ := 0x100000
def CHIA_VDF_CMD_JOB_ID_REG_OFFSET : ℕ := 0x101000
def CHIA_VDF_STATUS_JOB_ID_REG_OFFSET : ℕ := 0x102000
def CHIA_VDF_BURST_START : ℕ := 0x300014
def CHIA_VDF_JOB_CSR_MULT : ℕ := 0x10000
def CHIA_VDF_CONTROL_CLK_ENABLE_BIT : ℕ := 0
def pllRegSize : ℕ := 4 * 8
def CLOCK_STATUS_REG_OFFSET : ℕ := 0x1c

def init : Emulator := ⟨fun _ => .zero, List.replicate pllRegSize 0, 0, fun _ => 0⟩

def set (i : ℕ) (e : Engine) (emu : Emulator) : Emulator := { emu with engines := Function.update emu.engines i e }

/-- `copy_regs`. A negative offset begins with zeros. -/
def copyRegs (dst src : ByteString) (size maxSize : ℕ) (offset : ℤ) : Exec ByteString := do
  let pos := (-offset).toNat
  let dst ← blit dst 0 (List.replicate pos 0)
  let size := size - pos
  let offset := offset.toNat
  if size + offset ≤ maxSize then blit dst pos ((src.drop offset).take size)
  else do
    let dst ← blit dst pos ((src.drop offset).take (maxSize - offset))
    blit dst (pos + maxSize - offset) (List.replicate offset 0)

/-- Reading the ID of a job updates its status. -/
def triggers (addr size i : ℕ) : Bool :=
  let jobIdAddr := CHIA_VDF_BURST_START + Engine.jobStatusSize * i
  let jobIdAddr2 := CHIA_VDF_STATUS_JOB_ID_REG_OFFSET + CHIA_VDF_JOB_CSR_MULT * i
  (addr ≤ jobIdAddr && jobIdAddr < addr + size) || (addr ≤ jobIdAddr2 && jobIdAddr2 < addr + size)

def readEngine (addr size i : ℕ) (emu : Emulator) : Exec Emulator :=
  let e := emu.engines i
  if e.created ∧ e.initDone ∧ triggers addr size i then do
    let e ← e.updateStatus emu.errorProb (emu.randVal 0)
    return { emu.set i e with randVal := fun n => emu.randVal (n + 1) }
  else .done emu

def readRegs (addr : ℕ) (buf : ByteString) (size : ℕ) (emu : Emulator) : Exec (Emulator × ByteString) := do
  let emu ← Exec.forLoop N_VDFS (readEngine addr size) emu
  let jobStatusBase := CHIA_VDF_STATUS_JOB_ID_REG_OFFSET
  let burstSize := N_VDFS * Engine.jobStatusSize
  if addr + size > jobStatusBase ∧ addr < jobStatusBase + CHIA_VDF_JOB_CSR_MULT * N_VDFS then do
    let i := (addr + 2 ^ 32 - jobStatusBase) % 2 ^ 32 / CHIA_VDF_JOB_CSR_MULT
    if i < N_VDFS then do
      let offset : ℤ := addr - jobStatusBase - CHIA_VDF_JOB_CSR_MULT * i
      let buf ← copyRegs buf (emu.engines i).statusRegs size Engine.jobStatusSize offset
      return (emu, buf)
    else .fault .outOfBounds
  else if addr + size > CHIA_VDF_BURST_START ∧ addr < CHIA_VDF_BURST_START + burstSize then do
    let statusRegs := (List.range N_VDFS).flatMap fun i => (emu.engines i).statusRegs
    let buf ← copyRegs buf statusRegs size burstSize (addr - CHIA_VDF_BURST_START)
    return (emu, buf)
  else if addr < pllRegSize then do
    let buf ← copyRegs buf emu.pllRegs size pllRegSize addr
    return (emu, buf)
  else do
    let buf ← blit buf 0 (List.replicate size 0)
    return (emu, buf)

/-- The job registers of an engine. The flag is cleared once the job has started. -/
def writeJob (offset : ℕ) (data : ByteString) (e : Engine) : Exec Engine := do
  let jobRegs ← blit e.jobRegs offset data
  let e := e.withJobRegs jobRegs
  if started e.jobRegs then do
    let e ← e.startJob
    let jobRegs ← blit e.jobRegs ChiaDriver.startFlagAt (List.replicate 4 0)
    return e.withJobRegs jobRegs
  else return e

def control (data : ByteString) (e : Engine) : Exec Engine := do
  let data ← readBytes32 0 data
  return if data.testBit CHIA_VDF_CONTROL_CLK_ENABLE_BIT then e.enable else e.disable

/-- What a command does to the engine `i`. -/
def engineIo (addr : ℕ) (data : ByteString) (i : ℕ) (emu : Emulator) : Exec Emulator := do
  let jobControl := CHIA_VDF_CONTROL_REG_OFFSET + CHIA_VDF_JOB_CSR_MULT * i
  let jobCsr := CHIA_VDF_CMD_JOB_ID_REG_OFFSET + CHIA_VDF_JOB_CSR_MULT * i
  let e := emu.engines i
  let e ← if jobCsr ≤ addr ∧ addr < jobCsr + Engine.jobRegSize then writeJob (addr - jobCsr) data e else .done e
  let e ← if addr = jobControl then control data e else .done e
  return emu.set i e

/-- The divider has been taken over and the clock is locked. -/
def clockStatus : ByteString := ByteString.msbFirst 4 (2 ^ 1 + 2 ^ 0)

def writePll (addr : ℕ) (data : ByteString) (emu : Emulator) : Exec Emulator := do
  let regs ← copyRegs (emu.pllRegs.drop addr) data data.length (pllRegSize - addr) 0
  let pllRegs ← blit (emu.pllRegs.take addr ++ regs) CLOCK_STATUS_REG_OFFSET clockStatus
  return { emu with pllRegs := pllRegs }

/-- `emu_do_io`. -/
def doIo : SpiDevice Emulator := fun bufIn bufOut sizeOut emu => do
  let addr := ByteString.ofMsbFirst ((bufIn.drop 1).take 3) * 2 ^ 2
  let data := bufIn.drop FtdiDriver.CMD_BYTES
  let emu ← Exec.forLoop N_VDFS (engineIo addr data) emu
  if data.length = 0 ∧ sizeOut ≠ 0 then do
    let (emu, buf) ← readRegs addr (bufOut.drop FtdiDriver.WAIT_CYCLES) (sizeOut - FtdiDriver.WAIT_CYCLES) emu
    return (emu, bufOut.take FtdiDriver.WAIT_CYCLES ++ buf)
  else if sizeOut = 0 ∧ addr < pllRegSize then do
    let emu ← writePll addr data emu
    return (emu, bufOut)
  else return (emu, bufOut)

end Emulator

end ChiaVdf
