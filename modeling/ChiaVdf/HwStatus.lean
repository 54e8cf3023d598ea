import ChiaVdf.HwInterface

/-! What `read_hw_status` gets: the counter and the form that each engine had when its status was read, or zeros from an
engine that is stopping. -/
namespace ChiaVdf

open ChiaDriver (JobState deserializeJob)
open HwMessage (blit)
open Emulator (doIo readRegs readEngine copyRegs triggers N_VDFS CHIA_VDF_STATUS_JOB_ID_REG_OFFSET
    CHIA_VDF_JOB_CSR_MULT)

namespace Engine

variable {e : Engine}

def withStatusRegs (statusRegs : ByteString) (e : Engine) : Engine := { e with statusRegs := statusRegs }

/-- What an engine has to say. -/
def value (e : Engine) : VdfValue :=
  if e.stopping = false then ⟨e.job.curIter, e.job.qf.a, e.job.qf.b⟩ else ⟨0, 0, 0⟩

@[simp] theorem value_withStatusRegs (regs : ByteString) (e : Engine) : (e.withStatusRegs regs).value = e.value := rfl

/-- The numbers of an engine fit its registers. -/
structure Bounded (e : Engine) : Prop where
  curIter : e.job.curIter < 2 ^ 64
  a : |e.job.qf.a| < 2 ^ 546
  b : |e.job.qf.b| < 2 ^ 546

/-- The status registers hold what the engine has to say. -/
def Shows (e : Engine) : Prop :=
  ∃ id, deserializeJob e.statusRegs = .done ⟨id, e.value.iters, e.value.a, e.value.b⟩

/-- The status of a form, behind the ID of a job. -/
def statusBytes (id : ByteString) (iters : ℕ) (a b : ℤ) : ByteString :=
  id ++ (ByteString.msbFirst 4 (iters % 2 ^ 32) ++ ByteString.msbFirst 4 (iters / 2 ^ 32 % 2 ^ 32)) ++
    ChiaDriver.fieldBytes 21 a ChiaDriver.NUM_2X_COEFFS ++ ChiaDriver.fieldBytes 21 b ChiaDriver.NUM_2X_COEFFS

theorem deserializeJob_statusBytes {id : ByteString} (word : id.length = 4) {iters : ℕ} (small : iters < 2 ^ 64)
    {a b : ℤ}
    (boundA : |a| < 2 ^ 546) (boundB : |b| < 2 ^ 546) :
    deserializeJob (statusBytes id iters a b) = .done ⟨ByteString.ofMsbFirst id, iters, a, b⟩ := by
  have bytes : ∃ rest, statusBytes id iters a b = id ++ rest := ⟨_, by simp only [statusBytes, List.append_assoc]; rfl⟩
  have at4 : (statusBytes id iters a b).drop 4 =
      (ByteString.msbFirst 4 (iters % 2 ^ 32) ++ ByteString.msbFirst 4 (iters / 2 ^ 32 % 2 ^ 32)) ++
        (ChiaDriver.fieldBytes 21 a ChiaDriver.NUM_2X_COEFFS ++
          ChiaDriver.fieldBytes 21 b ChiaDriver.NUM_2X_COEFFS) := by
    rw [statusBytes, List.append_assoc, List.append_assoc, List.drop_left' word, List.append_assoc]
  have at12 : (statusBytes id iters a b).drop 12 =
      ChiaDriver.fieldBytes 21 a ChiaDriver.NUM_2X_COEFFS ++ ChiaDriver.fieldBytes 21 b ChiaDriver.NUM_2X_COEFFS := by
    have behind := congrArg (List.drop 8) at4
    rwa [List.drop_drop, List.drop_left' (by simp)] at behind
  have at96 : (statusBytes id iters a b).drop 96 = ChiaDriver.fieldBytes 21 b ChiaDriver.NUM_2X_COEFFS ++ [] := by
    have behind := congrArg (List.drop 84) at12
    have field : (ChiaDriver.fieldBytes 21 a ChiaDriver.NUM_2X_COEFFS).length = 84 := ChiaDriver.length_fieldBytes _ _ _
    rw [List.drop_drop, List.drop_left' field] at behind
    rw [List.append_nil]
    exact behind
  have first : VdfDriver.readBytes32 0 (statusBytes id iters a b) = .done (ByteString.ofMsbFirst id) := by
    obtain ⟨rest, split⟩ := bytes
    have number := ByteString.ofMsbFirst_lt id
    have whole := ByteString.msbFirst_ofMsbFirst id
    rw [word] at number whole
    rw [split, ← whole]
    exact (ChiaDriver.readBytes32_append (number.trans_eq (by norm_num))).trans (by rw [whole])
  have second : VdfDriver.readBytes64 4 (statusBytes id iters a b) = .done iters := by
    rw [ChiaDriver.readBytes64_drop, at4]
    exact ChiaDriver.readBytes64_append small
  have third : ChiaDriver.readBytes 84 12 (statusBytes id iters a b) 34 = .done a := by
    rw [ChiaDriver.readBytes_drop, at12]
    exact ChiaDriver.readBytes_append (by decide) (by decide) (by decide) (by decide) boundA
  have fourth : ChiaDriver.readBytes 84 96 (statusBytes id iters a b) 34 = .done b := by
    rw [ChiaDriver.readBytes_drop, at96]
    exact ChiaDriver.readBytes_append (by decide) (by decide) (by decide) (by decide) boundB
  simp only [deserializeJob, VdfDriver.REG_BYTES_eq, ChiaDriver.CHIA_VDF_STATUS_A_MULTIREG_COUNT,
    ChiaDriver.CHIA_VDF_STATUS_F_MULTIREG_COUNT, ChiaDriver.NUM_2X_COEFFS, Nat.zero_add, Nat.reduceMul, Nat.reduceAdd]
  rw [first, Exec.done_bind, second, Exec.done_bind, third, Exec.done_bind, fourth]
  rfl

theorem deserializeJob_total {buf : ByteString} (whole : jobStatusSize ≤ buf.length) :
    ∃ s, deserializeJob buf = .done s := by
  have size : 180 ≤ buf.length := whole
  have word (offset : ℕ) (inside : offset + 4 ≤ 180) : ∃ n, VdfDriver.readBytes32 offset buf = .done n := by
    refine ⟨_, if_pos ?_⟩
    rw [VdfDriver.REG_BYTES_eq]
    omega
  obtain ⟨id, first⟩ := word 0 (by norm_num)
  obtain ⟨low, second⟩ := word 4 (by norm_num)
  obtain ⟨high, third⟩ := word 8 (by norm_num)
  have iters : VdfDriver.readBytes64 4 buf = .done (low ||| high <<< VdfDriver.REG_BITS) := by
    rw [VdfDriver.readBytes64, second, Exec.done_bind, VdfDriver.REG_BYTES_eq, third]
    rfl
  have a : ChiaDriver.readBytes 84 12 buf 34 = .done (VdfDriver.value 84 12 buf 34) :=
    VdfDriver.readBytes_eq (by norm_num) (by norm_num) (by omega) 34
  have b : ChiaDriver.readBytes 84 96 buf 34 = .done (VdfDriver.value 84 96 buf 34) :=
    VdfDriver.readBytes_eq (by norm_num) (by norm_num) (by omega) 34
  simp only [deserializeJob, VdfDriver.REG_BYTES_eq, ChiaDriver.CHIA_VDF_STATUS_A_MULTIREG_COUNT,
    ChiaDriver.CHIA_VDF_STATUS_F_MULTIREG_COUNT, ChiaDriver.NUM_2X_COEFFS, Nat.zero_add, Nat.reduceMul, Nat.reduceAdd]
  rw [first, Exec.done_bind, iters, Exec.done_bind, a, Exec.done_bind, b]
  exact ⟨_, rfl⟩

theorem updateStatus_spec (whole : e.Whole) (randVal : ℕ) : ∃ regs,
    e.updateStatus 0 randVal = .done (e.withStatusRegs regs) ∧
    (e.withStatusRegs regs).Whole ∧ (e.Bounded → (e.withStatusRegs regs).Shows) := by
  have length : e.statusRegs.length = 180 := whole.statusRegs
  cases stop : e.stopping with
  | true =>
    have silent : e.value = ⟨0, 0, 0⟩ := by simp [value, stop]
    refine ⟨List.replicate jobStatusSize 0, by simp [updateStatus, injectError, stop, withStatusRegs],
      ⟨whole.jobRegs, ?_, whole.quiet⟩, ?_⟩
    · exact List.length_replicate
    · intro _
      rw [Shows, value_withStatusRegs, silent]
      have zeros : deserializeJob (List.replicate jobStatusSize 0) = .done ⟨0, 0, 0, 0⟩ := by decide +kernel
      exact ⟨0, zeros⟩
  | false =>
    have full : e.value = ⟨e.job.curIter, e.job.qf.a, e.job.qf.b⟩ := by simp [value, stop]
    have word : (e.statusRegs.take 4).length = 4 := by
      rw [List.length_take]
      omega
    have iters := ChiaDriver.writeBytes64_at e.statusRegs e.job.curIter word (by omega)
    rw [List.take_append_drop] at iters
    generalize split : ByteString.msbFirst 4 (e.job.curIter % 2 ^ 32) ++
      ByteString.msbFirst 4 (e.job.curIter / 2 ^ 32 % 2 ^ 32) =
      counter at iters
    have counterSize : counter.length = 8 := by simp [← split]
    have at12 : (e.statusRegs.take 4 ++ counter).length = 12 := by
      rw [List.length_append, word, counterSize]
    have fieldA := ChiaDriver.writeBytes_at e.statusRegs 84 e.job.qf.a 34 at12 (by norm_num) (by omega)
    have at96 : (e.statusRegs.take 4 ++ counter ++
        VdfDriver.wordBytes (84 / 4) (VdfDriver.packed e.job.qf.a 34)).length =
        96 := by
      rw [List.length_append, at12, VdfDriver.length_wordBytes]
    have fieldB := ChiaDriver.writeBytes_at e.statusRegs 84 e.job.qf.b 34 at96 (by norm_num) (by omega)
    have last : e.statusRegs.drop (96 + 84) = [] := List.drop_of_length_le (by omega)
    rw [last, List.append_nil] at fieldB
    have bytes : e.statusRegs.take 4 ++ counter ++ VdfDriver.wordBytes (84 / 4) (VdfDriver.packed e.job.qf.a 34) ++
        VdfDriver.wordBytes (84 / 4) (VdfDriver.packed e.job.qf.b 34) =
          statusBytes (e.statusRegs.take 4) e.job.curIter e.job.qf.a e.job.qf.b := by
      rw [statusBytes, split]
      rfl
    rw [bytes] at fieldB
    have size : (statusBytes (e.statusRegs.take 4) e.job.curIter e.job.qf.a e.job.qf.b).length = jobStatusSize := by
      rw [← bytes, List.length_append, at96, VdfDriver.length_wordBytes]
      rfl
    refine ⟨statusBytes (e.statusRegs.take 4) e.job.curIter e.job.qf.a e.job.qf.b, ?_,
      ⟨whole.jobRegs, size, whole.quiet⟩, ?_⟩
    · simp only [updateStatus, if_pos stop, iters, Exec.done_bind, ChiaDriver.NUM_2X_COEFFS, fieldA, fieldB,
        injectError,
        ne_eq, not_true, false_and, if_false]
      rfl
    · intro bounded
      rw [Shows, value_withStatusRegs, full]
      exact ⟨_, deserializeJob_statusBytes word bounded.curIter bounded.a bounded.b⟩

/-- Reading leaves the job of an engine as it is. -/
def SameJob (e e' : Engine) : Prop := ∃ regs, e' = e.withStatusRegs regs

theorem SameJob.refl (e : Engine) : e.SameJob e := ⟨e.statusRegs, rfl⟩

theorem SameJob.trans {e e' e'' : Engine} (first : e.SameJob e') (second : e'.SameJob e'') : e.SameJob e'' := by
  obtain ⟨_, rfl⟩ := first
  obtain ⟨regs, rfl⟩ := second
  exact ⟨regs, rfl⟩

theorem SameJob.value {e e' : Engine} (same : e.SameJob e') : e'.value = e.value := by
  obtain ⟨_, rfl⟩ := same
  rfl

/-- An engine that has had a job, with numbers that fit. -/
structure Ready (e : Engine) : Prop where
  created : e.created = true
  initDone : e.initDone = true
  bounded : e.Bounded

theorem SameJob.ready {e e' : Engine} (same : e.SameJob e') (ready : e.Ready) : e'.Ready := by
  obtain ⟨_, rfl⟩ := same
  exact ⟨ready.created, ready.initDone, ready.bounded.curIter, ready.bounded.a, ready.bounded.b⟩

end Engine

namespace Emulator

variable {emu : Emulator}

/-- What a read of `size` bytes at `addr` does to the status of the first `n` engines. -/
theorem forLoop_readEngine (whole : ∀ j, (emu.engines j).Whole) (quiet : emu.errorProb = 0) (addr size n : ℕ) :
    ∃ emu', Exec.forLoop n (readEngine addr size) emu = .done emu' ∧ emu'.errorProb = 0 ∧
      ∀ j, (emu.engines j).SameJob (emu'.engines j) ∧ (emu'.engines j).Whole ∧
        (j < n → triggers addr size j = true → (emu.engines j).Ready → (emu'.engines j).Shows) := by
  apply Exec.forLoop_done fun n (emu' : Emulator) => emu'.errorProb = 0 ∧
    ∀ j, (emu.engines j).SameJob (emu'.engines j) ∧ (emu'.engines j).Whole ∧
      (j < n → triggers addr size j = true → (emu.engines j).Ready → (emu'.engines j).Shows)
  · exact ⟨quiet, fun j => ⟨.refl _, whole j, fun lt => absurd lt (Nat.not_lt_zero j)⟩⟩
  · rintro i - mid ⟨silent, inv⟩
    obtain ⟨same, wholeMid, -⟩ := inv i
    by_cases read : (mid.engines i).created ∧ (mid.engines i).initDone ∧ triggers addr size i
    · obtain ⟨regs, run, wholeNew, shows⟩ := Engine.updateStatus_spec wholeMid (mid.randVal 0)
      refine ⟨{ mid.set i ((mid.engines i).withStatusRegs regs) with randVal := fun n => mid.randVal (n + 1) }, ?_,
        silent, fun j => ?_⟩
      · simp only [readEngine, if_pos read, silent, run, Exec.done_bind, Exec.pure_eq]
      · by_cases here : j = i
        · subst here
          simp only [set_engines, Function.update_self]
          exact ⟨same.trans ⟨regs, rfl⟩, wholeNew, fun _ _ ready => shows (same.ready ready).bounded⟩
        · simp only [set_engines, Function.update_of_ne here]
          obtain ⟨sameJ, wholeJ, before⟩ := inv j
          exact ⟨sameJ, wholeJ, fun lt => before (by omega)⟩
    · refine ⟨mid, by simp only [readEngine, if_neg read], silent, fun j => ?_⟩
      obtain ⟨sameJ, wholeJ, before⟩ := inv j
      refine ⟨sameJ, wholeJ, fun lt triggered ready => ?_⟩
      by_cases here : j = i
      · subst here
        exact absurd ⟨(sameJ.ready ready).created, (sameJ.ready ready).initDone, triggered⟩ read
      · exact before (by omega) triggered ready

/-- The first engine is read at the burst address, behind five words of zeros. -/
theorem readRegs_burst (whole : ∀ j, (emu.engines j).Whole) (quiet : emu.errorProb = 0) {buf : ByteString}
    (room : 256 ≤ buf.length) :
    ∃ emu' rest, readRegs 0x300000 buf 256 emu =
        .done (emu', List.replicate 20 0 ++ ((emu'.engines 0).statusRegs ++ rest)) ∧ emu'.errorProb = 0 ∧
      ∀ j, (emu.engines j).SameJob (emu'.engines j) ∧ (emu'.engines j).Whole ∧
        (j = 0 → (emu.engines j).Ready → (emu'.engines j).Shows) := by
  obtain ⟨emu', loop, silent, inv⟩ := forLoop_readEngine whole quiet 0x300000 256 N_VDFS
  have many : N_VDFS = 3 := rfl
  have size (j : ℕ) : (emu'.engines j).statusRegs.length = 180 := (inv j).2.1.statusRegs
  have regs : (List.range N_VDFS).flatMap (fun i => (emu'.engines i).statusRegs) =
      (emu'.engines 0).statusRegs ++ ((emu'.engines 1).statusRegs ++ (emu'.engines 2).statusRegs) := by
    simp [many, List.range_succ]
  have zeros : blit buf 0 (List.replicate 20 0) = .done (List.replicate 20 0 ++ buf.drop 20) := by
    rw [blit, List.length_replicate, if_pos (by omega)]
    simp
  have taken : (((emu'.engines 0).statusRegs ++
      ((emu'.engines 1).statusRegs ++ (emu'.engines 2).statusRegs)).drop 0).take 236 =
      (emu'.engines 0).statusRegs ++ (emu'.engines 1).statusRegs.take 56 := by
    rw [List.drop_zero, List.take_append, size 0, List.take_of_length_le (by rw [size]; norm_num),
      List.take_append_of_le_length (by rw [size]; norm_num)]
  have status : blit (List.replicate 20 0 ++ buf.drop 20) 20
      ((emu'.engines 0).statusRegs ++ (emu'.engines 1).statusRegs.take 56) =
      .done (List.replicate 20 0 ++ ((emu'.engines 0).statusRegs ++ (emu'.engines 1).statusRegs.take 56) ++
        buf.drop (20 + 236)) := by
    apply HwMessage.blit_at
    · exact List.length_replicate
    · rw [List.length_append, List.length_take, size, size]
      norm_num
    · omega
  refine ⟨emu', (emu'.engines 1).statusRegs.take 56 ++ buf.drop 256, ?_, silent, fun j => ⟨(inv j).1, (inv j).2.1, ?_⟩⟩
  · have copied : copyRegs buf
        ((emu'.engines 0).statusRegs ++ ((emu'.engines 1).statusRegs ++ (emu'.engines 2).statusRegs))
        256 (N_VDFS * Engine.jobStatusSize) (0x300000 - CHIA_VDF_BURST_START : ℤ) = .done (List.replicate 20 0 ++
          ((emu'.engines 0).statusRegs ++ (emu'.engines 1).statusRegs.take 56) ++ buf.drop (20 + 236)) := by
      have before : (-(0x300000 - CHIA_VDF_BURST_START : ℤ)).toNat = 20 := rfl
      have offset : (0x300000 - CHIA_VDF_BURST_START : ℤ).toNat = 0 := rfl
      simp only [copyRegs, before, offset, zeros, Exec.done_bind]
      rw [if_pos (by rw [many, Engine.jobStatusSize]; norm_num)]
      rw [taken]
      exact status
    have notStatus : ¬(0x300000 + 256 > CHIA_VDF_STATUS_JOB_ID_REG_OFFSET ∧
        0x300000 < CHIA_VDF_STATUS_JOB_ID_REG_OFFSET + CHIA_VDF_JOB_CSR_MULT * N_VDFS) := by decide
    have burst : 0x300000 + 256 > CHIA_VDF_BURST_START ∧
        0x300000 < CHIA_VDF_BURST_START + N_VDFS * Engine.jobStatusSize := by
      decide
    simp only [readRegs, loop, Exec.done_bind, if_neg notStatus, if_pos burst, regs]
    rw [show ((0x300000 : ℕ) : ℤ) = 0x300000 from rfl, copied]
    simp
  · rintro rfl ready
    exact (inv 0).2.2 (by omega) (by decide) ready

theorem readRegs_status (whole : ∀ j, (emu.engines j).Whole) (quiet : emu.errorProb = 0) {i : ℕ} (inside : i < N_VDFS)
    {buf : ByteString}
    (room : 256 ≤ buf.length) :
    ∃ emu' rest, readRegs (CHIA_VDF_STATUS_JOB_ID_REG_OFFSET + 0x10000 * i) buf 256 emu =
        .done (emu', (emu'.engines i).statusRegs ++ rest) ∧ emu'.errorProb = 0 ∧
      ∀ j, (emu.engines j).SameJob (emu'.engines j) ∧ (emu'.engines j).Whole ∧
        (j = i → (emu.engines j).Ready → (emu'.engines j).Shows) := by
  obtain ⟨emu', loop, silent, inv⟩ := forLoop_readEngine whole quiet
    (CHIA_VDF_STATUS_JOB_ID_REG_OFFSET + 0x10000 * i) 256 N_VDFS
  have many : N_VDFS = 3 := rfl
  have base : CHIA_VDF_STATUS_JOB_ID_REG_OFFSET = 0x102000 := rfl
  have stride : CHIA_VDF_JOB_CSR_MULT = 0x10000 := rfl
  have size : (emu'.engines i).statusRegs.length = 180 := (inv i).2.1.statusRegs
  have copied : copyRegs buf (emu'.engines i).statusRegs 256 Engine.jobStatusSize 0 =
      .done ((emu'.engines i).statusRegs ++ buf.drop 180) := by
    have none : blit buf 0 [] = .done buf := by simp [blit]
    have status : blit buf 0 (emu'.engines i).statusRegs = .done ((emu'.engines i).statusRegs ++ buf.drop 180) := by
      rw [blit, size, if_pos (by omega)]
      simp
    have last : blit ((emu'.engines i).statusRegs ++ buf.drop 180) 180 [] =
        .done ((emu'.engines i).statusRegs ++ buf.drop 180) := by
      rw [blit, if_pos (by rw [List.length_append, size]; simp)]
      simp
    have whole : (emu'.engines i).statusRegs.take 180 = (emu'.engines i).statusRegs := List.take_of_length_le size.le
    simp only [copyRegs, neg_zero, Int.toNat_zero, List.replicate_zero, none, Exec.done_bind, Nat.sub_zero,
      Nat.add_zero,
      Engine.jobStatusSize, List.drop_zero, whole, status, Nat.zero_add, last]
    rfl
  refine ⟨emu', buf.drop 180, ?_, silent, fun j => ⟨(inv j).1, (inv j).2.1, ?_⟩⟩
  · have status : CHIA_VDF_STATUS_JOB_ID_REG_OFFSET + 0x10000 * i + 256 > CHIA_VDF_STATUS_JOB_ID_REG_OFFSET ∧
        CHIA_VDF_STATUS_JOB_ID_REG_OFFSET + 0x10000 * i <
          CHIA_VDF_STATUS_JOB_ID_REG_OFFSET + CHIA_VDF_JOB_CSR_MULT * N_VDFS := by
      rw [stride, many]
      omega
    have engine : (CHIA_VDF_STATUS_JOB_ID_REG_OFFSET + 0x10000 * i + 2 ^ 32 -
        CHIA_VDF_STATUS_JOB_ID_REG_OFFSET) % 2 ^ 32 /
        CHIA_VDF_JOB_CSR_MULT = i := by
      rw [base, stride]
      omega
    have offset : ((CHIA_VDF_STATUS_JOB_ID_REG_OFFSET + 0x10000 * i : ℕ) : ℤ) -
      (CHIA_VDF_STATUS_JOB_ID_REG_OFFSET : ℕ) -
        (CHIA_VDF_JOB_CSR_MULT : ℕ) * (i : ℕ) = 0 := by
      rw [stride]
      push_cast
      ring
    simp only [readRegs, loop, Exec.done_bind, if_pos status, engine, if_pos inside, offset, copied]
    rfl
  · rintro rfl ready
    apply (inv j).2.2 (by omega) _ ready
    simp only [triggers, Bool.or_eq_true, Bool.and_eq_true, decide_eq_true_eq, stride]
    omega

end Emulator

namespace HwInterface

variable {drv : Driver} {i : ℕ}

theorem readStatus_spec (whole : Whole drv) (inside : i < N_VDFS) :
    ∃ drv', readStatus i drv = .done ((drv'.device.engines i).statusRegs, drv') ∧ Whole drv' ∧
      (∀ j, (drv.device.engines j).SameJob (drv'.device.engines j)) ∧
      ((drv.device.engines i).Ready → (drv'.device.engines i).Shows) := by
  have many : N_VDFS = 3 := rfl
  have control : Emulator.CHIA_VDF_CONTROL_REG_OFFSET = 0x100000 := rfl
  have job : Emulator.CHIA_VDF_CMD_JOB_ID_REG_OFFSET = 0x101000 := rfl
  have stride : CHIA_VDF_JOB_CSR_MULT = 0x10000 := rfl
  have registers : Engine.jobRegSize = 512 := rfl
  have room : 256 ≤ ((List.replicate FtdiDriver.MAX_READ_BUF (0 : UInt8)).drop FtdiDriver.WAIT_CYCLES).length := by
    rw [List.length_drop, List.length_replicate]
    decide
  have wait : ((List.replicate FtdiDriver.MAX_READ_BUF (0 : UInt8)).take FtdiDriver.WAIT_CYCLES).length =
      FtdiDriver.WAIT_CYCLES := by
    rw [List.length_take, List.length_replicate]
    rfl
  by_cases first : i = 0
  · subst first
    obtain ⟨cmd, padded, intWriteBuf, length, rounded, run⟩ := FtdiDriver.readCmd_spec doIo BURST_ADDR 200 (by norm_num)
      whole.buffer
    obtain rfl : 256 = padded := Option.some.inj rounded
    have sent := Emulator.doIo_read cmd drv.device (show 4 ∣ BURST_ADDR by decide) (by decide)
      (show 256 + FtdiDriver.WAIT_CYCLES ≠ 0 by decide) (List.replicate FtdiDriver.MAX_READ_BUF 0) fun j lt emu => by
        apply Emulator.engineIo_idle
        · rw [BURST_ADDR, control, stride]
          omega
        · rw [BURST_ADDR, job, stride, registers]
          omega
    obtain ⟨emu, rest, read, silent, inv⟩ := Emulator.readRegs_burst whole.engines whole.errorProb room
    have size : (emu.engines 0).statusRegs.length = 180 := (inv 0).2.1.statusRegs
    refine ⟨⟨intWriteBuf, emu⟩, ?_, ⟨length, fun j => (inv j).2.1, silent⟩, fun j => (inv j).1, (inv 0).2.2 rfl⟩
    have bytes : ((List.replicate 20 (0 : UInt8) ++ ((emu.engines 0).statusRegs ++ rest)).take 200).drop 20 =
        (emu.engines 0).statusRegs := by
      rw [List.drop_take, List.drop_left' List.length_replicate]
      exact List.take_left' size
    rw [readStatus, if_pos rfl, FtdiDriver.read, if_neg (by decide), if_neg (by decide)]
    rw [show HW_VDF_STATUS_SIZE + 20 = 200 from rfl, run, sent, Nat.add_sub_cancel, BURST_ADDR, read]
    simp only [Exec.done_bind, Exec.pure_eq, List.drop_left' wait, bytes]
  · obtain ⟨cmd, padded, intWriteBuf, length, rounded, run⟩ := FtdiDriver.readCmd_spec doIo
      (CHIA_VDF_STATUS_JOB_ID_REG_OFFSET + 0x10000 * i) HW_VDF_STATUS_SIZE (by decide) whole.buffer
    obtain rfl : 256 = padded := Option.some.inj rounded
    have base : CHIA_VDF_STATUS_JOB_ID_REG_OFFSET = 0x102000 := rfl
    have sent := Emulator.doIo_read cmd drv.device (show 4 ∣ CHIA_VDF_STATUS_JOB_ID_REG_OFFSET + 0x10000 * i by omega)
      (by omega)
      (show 256 + FtdiDriver.WAIT_CYCLES ≠ 0 by decide) (List.replicate FtdiDriver.MAX_READ_BUF 0) fun j lt emu => by
        apply Emulator.engineIo_idle
        · rw [base, control, stride]
          omega
        · rw [base, job, stride, registers]
          omega
    obtain ⟨emu, rest, read, silent, inv⟩ := Emulator.readRegs_status whole.engines whole.errorProb inside room
    have size : (emu.engines i).statusRegs.length = HW_VDF_STATUS_SIZE := (inv i).2.1.statusRegs
    refine ⟨⟨intWriteBuf, emu⟩, ?_, ⟨length, fun j => (inv j).2.1, silent⟩, fun j => (inv j).1, (inv i).2.2 rfl⟩
    rw [readStatus, if_neg first, FtdiDriver.read, if_neg (by decide), if_neg (by decide)]
    rw [run, sent, Nat.add_sub_cancel, read]
    simp only [Exec.done_bind, Exec.pure_eq, List.drop_left' wait, List.take_left' size]

/-- `read_hw_status` gets from every engine of the mask what that engine has, and it changes none of their jobs. -/
theorem readHwStatus_values (whole : Whole drv) (idxMask : ℕ) (values : ℕ → VdfValue) :
    ∃ drv' values', readHwStatus idxMask values drv = .done (drv', values') ∧ Whole drv' ∧
      (∀ j, (drv.device.engines j).SameJob (drv'.device.engines j)) ∧
      (∀ j < N_VDFS, idxMask.testBit j = true → (drv.device.engines j).Ready →
        values' j = (drv.device.engines j).value) ∧
      ∀ j, idxMask.testBit j = false → values' j = values j := by
  have loop := @Exec.forLoop_done _ N_VDFS (readHwStatusTurn idxMask) (drv, values) fun n s =>
    Whole s.1 ∧ (∀ j, (drv.device.engines j).SameJob (s.1.device.engines j)) ∧
      (∀ j < n, idxMask.testBit j = true → (drv.device.engines j).Ready → s.2 j = (drv.device.engines j).value) ∧
      ∀ j, idxMask.testBit j = false → s.2 j = values j
  obtain ⟨⟨drv', values'⟩, run, inv⟩ :=
    loop ⟨whole, fun j => .refl _, fun j lt => absurd lt (Nat.not_lt_zero j), fun _ _ => rfl⟩
    fun i inside ⟨mid, seen⟩ ⟨wholeMid, same, got, kept⟩ => by
      by_cases read : i = 0 ∧ idxMask &&& (HW_VDF_TEMP_FLAG ||| 1 <<< i) ≠ 0 ∨ idxMask.testBit i = true
      · obtain ⟨next, run, wholeNext, sameNext, shows⟩ := readStatus_spec wholeMid inside
        have same' (j : ℕ) := (same j).trans (sameNext j)
        by_cases asked : idxMask.testBit i = true
        · obtain ⟨status, known⟩ := Engine.deserializeJob_total (wholeNext.engines i).statusRegs.ge
          refine ⟨(next, Function.update seen i ⟨status.iterationCount, status.a, status.f⟩), ?_, wholeNext, same',
            ?_, ?_⟩
          · simp only [readHwStatusTurn, if_pos read, run, Exec.done_bind, if_pos asked, known, Exec.pure_eq]
          · intro j lt askedJ ready
            by_cases here : j = i
            · subst here
              obtain ⟨id, shown⟩ := shows ((same j).ready ready)
              obtain rfl := Exec.done.inj (known.symm.trans shown)
              simp only [Function.update_self, (same' j).value]
            · simpa only [Function.update_of_ne here] using got j (by omega) askedJ ready
          · intro j notAsked
            have here : j ≠ i := by
              rintro rfl
              simp [asked] at notAsked
            simpa only [Function.update_of_ne here] using kept j notAsked
        · refine ⟨(next, seen), ?_, wholeNext, same', ?_, kept⟩
          · simp only [readHwStatusTurn, if_pos read, run, Exec.done_bind, if_neg asked, Exec.pure_eq]
          · intro j lt askedJ ready
            have here : j ≠ i := by
              rintro rfl
              exact asked askedJ
            exact got j (by omega) askedJ ready
      · refine ⟨(mid, seen), by simp only [readHwStatusTurn, if_neg read, Exec.pure_eq], wholeMid, same, ?_, kept⟩
        intro j lt askedJ ready
        have here : j ≠ i := by
          rintro rfl
          exact read (.inr askedJ)
        exact got j (by omega) askedJ ready
  exact ⟨drv', values', run, inv⟩

theorem hwVdfControl_spec (whole : Whole drv) (idxMask : ℕ) {value : ℕ} (small : value < 2 ^ 32) :
    ∃ drv', hwVdfControl idxMask value drv = .done drv' ∧ Whole drv' ∧ ∀ j, drv'.device.engines j =
      if j < N_VDFS ∧ idxMask.testBit j = true then
        if value.testBit 0 then (drv.device.engines j).enable else (drv.device.engines j).disable
      else drv.device.engines j := by
  apply Exec.forLoop_done fun n (drv' : Driver) => Whole drv' ∧ ∀ j, drv'.device.engines j =
    if j < n ∧ idxMask.testBit j = true then
      if value.testBit 0 then (drv.device.engines j).enable else (drv.device.engines j).disable
    else drv.device.engines j
  · exact ⟨whole, by simp⟩
  · rintro i inside mid ⟨wholeMid, reached⟩
    have before : mid.device.engines i = drv.device.engines i := by simp [reached]
    by_cases asked : idxMask.testBit i = true
    · obtain ⟨intWriteBuf, length, run⟩ := regWrite_spec wholeMid inside small
      refine ⟨_, (if_pos asked).trans run, wholeMid.set ?_ length, fun j => ?_⟩
      · split_ifs
        · exact (wholeMid.engines i).enable
        · exact (wholeMid.engines i).disable
      · by_cases here : j = i
        · subst here
          simp [asked, before]
        · have later : j < i + 1 ↔ j < i := by omega
          simp [Function.update_of_ne here, reached, later]
    · refine ⟨mid, by simp only [if_neg asked], wholeMid, fun j => ?_⟩
      by_cases here : j = i
      · subst here
        simp [asked, before]
      · have later : j < i + 1 ↔ j < i := by omega
        simp [reached, later]

section RoundTrip

theorem nearlyReduced_bounded {D : ℤ} {f : Form} (pos : 0 < f.a) (nearly : NearlyReduced f) (disc : f.disc = D)
    (bound : |D| < 2 ^ 1090) : |f.a| < 2 ^ 546 ∧ |f.b| < 2 ^ 546 := by
  obtain ⟨le, le'⟩ := nearly
  have square : f.b ^ 2 ≤ f.a ^ 2 := sq_le_sq' (abs_le.mp le).1 (abs_le.mp le).2
  have product : f.a * f.a ≤ f.a * f.c := mul_le_mul_of_nonneg_left le' pos.le
  have third : 3 * f.a ^ 2 ≤ -D := by
    rw [← disc, BinaryForm.disc]
    linarith
  have whole : 3 * f.a ^ 2 < 2 ^ 1090 := (third.trans (neg_le_abs D)).trans_lt bound
  have small : f.a < 2 ^ 545 := lt_of_pow_lt_pow_left₀ 2 (by positivity) (by rw [← pow_mul]; omega)
  rw [abs_of_pos pos]
  omega

theorem reduced_of_fromAbd {D a b : ℤ} {f : Form} (neg : D < 0) (form : Form.fromAbd a b D = .done f) :
    f.Reduced ∧ f.disc = D := by
  obtain ⟨c, pos, disc, reduced⟩ := Form.fromAbd_done form
  obtain ⟨g, run, red, same⟩ := Form.reduce_spec (f := ⟨a, b, c⟩) pos (disc ▸ neg)
  obtain rfl := Exec.done.inj (run.symm.trans reduced)
  exact ⟨red, same.disc_eq.trans disc⟩

theorem root_bounded {D : ℤ} (neg : D < 0) (bound : |D| < 2 ^ 1090) : ∃ L, mpzRoot4 (-D) = .done L ∧ |L| < 2 ^ 290 := by
  refine ⟨((-D).toNat.sqrt.sqrt : ℕ), if_neg (by omega), ?_⟩
  rw [abs_of_neg neg] at bound
  have fourth : (-D).toNat.sqrt.sqrt ^ 4 < (2 ^ 290) ^ 4 := by
    have outer := Nat.sqrt_le' (-D).toNat
    have inner := Nat.sqrt_le' (-D).toNat.sqrt
    have twice : (-D).toNat.sqrt.sqrt ^ 4 ≤ (-D).toNat := by
      calc (-D).toNat.sqrt.sqrt ^ 4 = ((-D).toNat.sqrt.sqrt ^ 2) ^ 2 := by ring
        _ ≤ (-D).toNat.sqrt ^ 2 := Nat.pow_le_pow_left inner 2
        _ ≤ (-D).toNat := outer
    omega
  rw [Nat.abs_cast]
  exact_mod_cast lt_of_pow_lt_pow_left₀ 4 (by positivity) fourth

/-- What an engine is started with is what its status then has, whatever the buffers and the registers held before and
whatever else is read along with it; the other engines keep what they have. -/
theorem startHwVdf_readHwStatus (whole : Whole drv) (inside : i < N_VDFS)
    (idle : (drv.device.engines i).running = false)
    {D a b : ℤ} {qf : Form} (nIters : UInt64) (boundA : |a| < 2 ^ 546) (boundB : |b| < 2 ^ 546) (neg : D < 0)
    (boundD : |D| < 2 ^ 1090) (form : Form.fromAbd a b D = .done qf) (idxMask : ℕ) (values : ℕ → VdfValue) :
    ∃ drv' drv'' values', startHwVdf D a b nIters i drv = .done drv' ∧
      readHwStatus idxMask values drv' = .done (drv'', values') ∧
      (idxMask.testBit i = true → values' i = ⟨0, qf.a, qf.b⟩) ∧
      (∀ j < N_VDFS, j ≠ i → idxMask.testBit j = true → (drv.device.engines j).Ready →
        values' j = (drv.device.engines j).value) ∧
      ∀ j, idxMask.testBit j = false → values' j = values j := by
  obtain ⟨red, disc⟩ := reduced_of_fromAbd neg form
  obtain ⟨smallA, smallB⟩ := nearlyReduced_bounded red.pos (nearlyReduced_of_reduced red) disc boundD
  obtain ⟨L, root, boundL⟩ := root_bounded neg boundD
  obtain ⟨intWriteBuf, jobRegs, started, whole'⟩ := startHwVdf_spec whole inside idle nIters boundA boundB boundD root
    boundL form
  obtain ⟨drv'', values', read, -, -, got, kept⟩ := readHwStatus_values whole' idxMask values
  refine ⟨_, drv'', values', started, read, fun asked => ?_, fun j lt other asked ready => ?_, kept⟩
  · have ready : ((((drv.device.engines i).enable.withJobRegs jobRegs).begun ⟨0, nIters.toNat, D, L, qf⟩)).Ready :=
      ⟨rfl, rfl, show 0 < 2 ^ 64 by norm_num, smallA, smallB⟩
    have value := got i inside asked (by simpa using ready)
    rwa [Emulator.set_engines, Function.update_self] at value
  · have value := got j lt asked (by simpa [Function.update_of_ne other] using ready)
    simpa [Function.update_of_ne other] using value

/-- The second engine, while the temperature is read as well. -/
theorem startHwVdf_readHwStatus_second : ∃ drv' drv'' values',
    startHwVdf (-23) 2 1 5 1 ⟨List.replicate FtdiDriver.MAX_WRITE_BUF 7, .init⟩ = .done drv' ∧
      readHwStatus 10 (fun _ => ⟨1, 2, 3⟩) drv' = .done (drv'', values') ∧
      values' 1 = ⟨0, 2, 1⟩ ∧ values' 0 = ⟨1, 2, 3⟩ := by
  have whole : Whole ⟨List.replicate FtdiDriver.MAX_WRITE_BUF 7, .init⟩ :=
    ⟨List.length_replicate, fun _ => ⟨List.length_replicate, List.length_replicate,
      show ChiaDriver.started Engine.zero.jobRegs = false by decide⟩, rfl⟩
  obtain ⟨drv', drv'', values', started, read, got, -, kept⟩ := startHwVdf_readHwStatus (i := 1) whole (by decide) rfl 5
    (show |(2 : ℤ)| < 2 ^ 546 by decide +kernel) (show |(1 : ℤ)| < 2 ^ 546 by decide +kernel)
    (show (-23 : ℤ) < 0 by norm_num) (by decide +kernel)
    (show Form.fromAbd 2 1 (-23) = .done ⟨2, 1, 3⟩ by decide +kernel) 10 fun _ => ⟨1, 2, 3⟩
  exact ⟨drv', drv'', values', started, read, got (by decide), kept 0 (by decide)⟩

end RoundTrip

end HwInterface

end ChiaVdf
