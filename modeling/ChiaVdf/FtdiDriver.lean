import ChiaVdf.ChiaDriver

/-! The transfers of `ftdi_driver.cpp`: a command has a header of four bytes and is padded to one of six sizes, and
what is longer is cut into commands of 256 bytes. -/
namespace ChiaVdf

/-- `FT4222_SPIMaster_MultiReadWrite`: the device gets the bytes that are written and a buffer for those that are
read, and the number of the latter. -/
abbrev SpiDevice (σ : Type) := ByteString → ByteString → ℕ → σ → Exec (σ × ByteString)

/-- `int_read_buf` is cleared by every command that reads. -/
structure FtdiDriver (σ : Type) where
  intWriteBuf : ByteString
  device : σ

namespace FtdiDriver

open HwMessage (blit)

variable {σ : Type}

def WAIT_CYCLES : ℕ := 4
def CMD_BYTES : ℕ := 4
def MAX_WRITE_BUF : ℕ := 2048 + CMD_BYTES
def MAX_READ_BUF : ℕ := 2048 + WAIT_CYCLES

def roundSizeUp (size : ℕ) : Option ℕ :=
  if size ≤ 4 then some 4
  else if size ≤ 16 then some 16
  else if size ≤ 32 then some 32
  else if size ≤ 64 then some 64
  else if size ≤ 128 then some 128
  else if size ≤ 256 then some 256
  else none

/-- The program exits at any other size. -/
def encodeSize : ℕ → Exec ℕ
  | 4 => .done 0
  | 16 => .done 1
  | 32 => .done 2
  | 64 => .done 3
  | 128 => .done 4
  | 256 => .done 5
  | _ => .fault .assertion

/-- `spi_cmd`, with its first field in the low bits. -/
def spiCmd (dataLength waitCycles transferType write : ℕ) : UInt8 :=
  UInt8.ofNat (dataLength + 2 ^ 3 * waitCycles + 2 ^ 5 * transferType + 2 ^ 7 * write)

def SPI_TRANSFER_RW_DATA : ℕ := 0
def SPI_TRANSFER_READ_WITH_DUMMY : ℕ := 3

/-- The bytes of the address, which counts words of four bytes. -/
def header (cmd : UInt8) (addr : ℕ) : ByteString := cmd :: ByteString.msbFirst 3 (addr / 4)

section Commands

variable (io : SpiDevice σ)

def writeRaw (size : ℕ) (s : FtdiDriver σ) : Exec (FtdiDriver σ) := do
  let (device, _) ← io (s.intWriteBuf.take size) [] 0 s.device
  return { s with device := device }

def readRaw (wsize rsize : ℕ) (s : FtdiDriver σ) : Exec (ByteString × FtdiDriver σ) := do
  let (device, intReadBuf) ← io (s.intWriteBuf.take wsize) (List.replicate MAX_READ_BUF 0) rsize s.device
  return (intReadBuf, { s with device := device })

/-- `WriteCmd` with the status that it returns. -/
def writeCmd (addr : ℕ) (writeBuf : ByteString) (s : FtdiDriver σ) : Exec (ℤ × FtdiDriver σ) :=
  match roundSizeUp writeBuf.length with
  | none => .done (-1, s)
  | some paddedSize => do
    let dataLength ← encodeSize paddedSize
    let intWriteBuf ← blit s.intWriteBuf 0 (header (spiCmd dataLength 0 SPI_TRANSFER_RW_DATA 1) addr)
    let intWriteBuf ← blit intWriteBuf 4 writeBuf
    let s ← writeRaw io (paddedSize + CMD_BYTES) { s with intWriteBuf := intWriteBuf }
    return (0, s)

/-- `ReadCmd` with the bytes that it fills in. -/
def readCmd (addr rsize : ℕ) (s : FtdiDriver σ) : Exec (ℤ × ByteString × FtdiDriver σ) :=
  match roundSizeUp rsize with
  | none => .done (-1, [], s)
  | some paddedSize => do
    let dataLength ← encodeSize paddedSize
    let intWriteBuf ← blit s.intWriteBuf 0 (header (spiCmd dataLength 0 SPI_TRANSFER_READ_WITH_DUMMY 0) addr)
    let (intReadBuf, s) ← readRaw io CMD_BYTES (paddedSize + WAIT_CYCLES) { s with intWriteBuf := intWriteBuf }
    return (0, (intReadBuf.drop WAIT_CYCLES).take rsize, s)

def TARGET_WRITE_SIZE : ℕ := 256
def TARGET_READ_SIZE : ℕ := 256

def write (addr : ℕ) (writeBuf : ByteString) (s : FtdiDriver σ) : Exec (ℤ × FtdiDriver σ) :=
  if writeBuf.length = 0 then .done (0, s)
  else if TARGET_WRITE_SIZE ≤ writeBuf.length then do
    let (ret, s) ← writeCmd io addr (writeBuf.take TARGET_WRITE_SIZE) s
    if ret ≠ 0 then return (ret, s)
    else write (addr + TARGET_WRITE_SIZE) (writeBuf.drop TARGET_WRITE_SIZE) s
  else writeCmd io addr writeBuf s
termination_by writeBuf.length
decreasing_by
  rw [List.length_drop, TARGET_WRITE_SIZE]
  omega

def read (addr rsize : ℕ) (s : FtdiDriver σ) : Exec (ℤ × ByteString × FtdiDriver σ) :=
  if rsize = 0 then .done (0, [], s)
  else if TARGET_READ_SIZE ≤ rsize then do
    let (ret, bytes, s) ← readCmd io addr TARGET_READ_SIZE s
    if ret ≠ 0 then return (ret, bytes, s)
    else do
      let (ret, rest, s) ← read (addr + TARGET_READ_SIZE) (rsize - TARGET_READ_SIZE) s
      return (ret, bytes ++ rest, s)
  else readCmd io addr rsize s
termination_by rsize
decreasing_by
  rw [TARGET_READ_SIZE]
  omega

/-- `RegWrite` of a `VdfDriver`. -/
def regWrite (addr data : ℕ) (s : FtdiDriver σ) : Exec (ℤ × FtdiDriver σ) :=
  writeCmd io addr (ByteString.msbFirst VdfDriver.REG_BYTES data) s

end Commands

section Transfers

variable (io : SpiDevice σ) {s : FtdiDriver σ} (addr : ℕ)

@[simp] theorem length_header (cmd : UInt8) (addr : ℕ) : (header cmd addr).length = 4 := by simp [header]

theorem roundSizeUp_done {size : ℕ} (fits : size ≤ 256) : ∃ padded code,
    roundSizeUp size = some padded ∧ size ≤ padded ∧
    padded ≤ 256 ∧ encodeSize padded = .done code := by
  unfold roundSizeUp
  split_ifs
  · exact ⟨4, 0, rfl, by omega, by omega, rfl⟩
  · exact ⟨16, 1, rfl, by omega, by omega, rfl⟩
  · exact ⟨32, 2, rfl, by omega, by omega, rfl⟩
  · exact ⟨64, 3, rfl, by omega, by omega, rfl⟩
  · exact ⟨128, 4, rfl, by omega, by omega, rfl⟩
  · exact ⟨256, 5, rfl, by omega, by omega, rfl⟩

/-- A command is the header, the data and what a longer command has left behind it in the buffer. -/
theorem writeCmd_spec (data : ByteString) (fits : data.length ≤ 256) (whole : s.intWriteBuf.length = MAX_WRITE_BUF) :
    ∃ cmd padding intWriteBuf, intWriteBuf.length = MAX_WRITE_BUF ∧
      roundSizeUp data.length = some (data ++ padding).length ∧
      writeCmd io addr data s = do
        let (device, _) ← io (header cmd addr ++ (data ++ padding)) [] 0 s.device
        return (0, ⟨intWriteBuf, device⟩) := by
  obtain ⟨padded, code, rounded, le, bound, encoded⟩ := roundSizeUp_done fits
  have room : MAX_WRITE_BUF = 2052 := rfl
  let cmd := spiCmd code 0 SPI_TRANSFER_RW_DATA 1
  have first : blit s.intWriteBuf 0 (header cmd addr) = .done (header cmd addr ++ s.intWriteBuf.drop 4) := by
    rw [blit, length_header, if_pos (by omega)]
    simp
  have second : blit (header cmd addr ++ s.intWriteBuf.drop 4) 4 data =
      .done (header cmd addr ++ data ++ s.intWriteBuf.drop (4 + data.length)) :=
    HwMessage.blit_at _ data (length_header cmd addr) rfl (by omega)
  have taken : (header cmd addr ++ data ++ s.intWriteBuf.drop (4 + data.length)).take (padded + CMD_BYTES) =
      header cmd addr ++ (data ++ (s.intWriteBuf.drop (4 + data.length)).take (padded - data.length)) := by
    have split : padded + CMD_BYTES = (header cmd addr ++ data).length + (padded - data.length) := by
      rw [List.length_append, length_header, CMD_BYTES]
      omega
    rw [split, List.take_length_add_append, List.append_assoc]
  refine ⟨cmd, (s.intWriteBuf.drop (4 + data.length)).take (padded - data.length),
    header cmd addr ++ data ++ s.intWriteBuf.drop (4 + data.length), ?_, ?_, ?_⟩
  · rw [List.length_append, List.length_append, length_header, List.length_drop]
    omega
  · rw [rounded, List.length_append, List.length_take, List.length_drop]
    congr 1
    omega
  · simp only [writeCmd, rounded, encoded, Exec.done_bind, writeRaw]
    rw [first, Exec.done_bind, second, Exec.done_bind, taken]
    cases io (header cmd addr ++ (data ++ (s.intWriteBuf.drop (4 + data.length)).take (padded - data.length))) [] 0
      s.device <;> rfl

theorem readCmd_spec (size : ℕ) (fits : size ≤ 256) (whole : s.intWriteBuf.length = MAX_WRITE_BUF) :
    ∃ cmd padded intWriteBuf, intWriteBuf.length = MAX_WRITE_BUF ∧ roundSizeUp size = some padded ∧
      readCmd io addr size s = do
        let (device, intReadBuf) ← io (header cmd addr) (List.replicate MAX_READ_BUF 0) (padded + WAIT_CYCLES) s.device
        return (0, (intReadBuf.drop WAIT_CYCLES).take size, ⟨intWriteBuf, device⟩) := by
  obtain ⟨padded, code, rounded, le, bound, encoded⟩ := roundSizeUp_done fits
  have room : MAX_WRITE_BUF = 2052 := rfl
  let cmd := spiCmd code 0 SPI_TRANSFER_READ_WITH_DUMMY 0
  have first : blit s.intWriteBuf 0 (header cmd addr) = .done (header cmd addr ++ s.intWriteBuf.drop 4) := by
    rw [blit, length_header, if_pos (by omega)]
    simp
  have taken : (header cmd addr ++ s.intWriteBuf.drop 4).take CMD_BYTES = header cmd addr :=
    List.take_left' (length_header cmd addr)
  refine ⟨cmd, padded, header cmd addr ++ s.intWriteBuf.drop 4, ?_, rounded, ?_⟩
  · rw [List.length_append, length_header, List.length_drop]
    omega
  · simp only [readCmd, rounded, encoded, Exec.done_bind, readRaw]
    rw [first, Exec.done_bind, taken]
    cases io (header cmd addr) (List.replicate MAX_READ_BUF 0) (padded + WAIT_CYCLES) s.device <;> rfl

end Transfers

end FtdiDriver

end ChiaVdf
