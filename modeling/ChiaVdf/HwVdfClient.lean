import ChiaVdf.HwProofSafety

/-! `event_loop` of `hw_vdf_client.cpp` on the emulator, for one of its VDFs. Between any two of its effects the
threads of the engines and the aux threads take steps, and so do the other VDFs. -/
namespace ChiaVdf

open BinaryForm
open Emulator (N_VDFS)
open HwInterface (startHwVdf stopHwVdf readHwStatus hwVdfControl startHwVdf_spec stopHwVdf_spec readHwStatus_values
  hwVdfControl_spec)

/-- Where the loop is with the VDF: a status of its engine may have been read, or the engine been stopped to be
restarted. The phases of `hw_proof_add_value` are those of `EventLoop`. -/
inductive ClientPhase where
  | polling
  | adding
  | stopped
  deriving DecidableEq

/-- `running` is the state `RUNNING` of the connection, which becomes `IDLING` at the end. -/
structure VdfClient where
  drv : HwInterface.Driver
  values : ℕ → VdfValue
  vdf : VdfState
  running : Bool
  phase : ClientPhase

namespace VdfClient

/-- The iterations that every VDF of the client is started for. -/
def nIters : ℕ := 2000 * 1000 * 1000

inductive Event where
  | thread (i k : ℕ)
  | control (idxMask value : ℕ)
  | await (i : ℕ)
  | startOther (i : ℕ) (d a b : ℤ) (nIters : UInt64)
  | readStatus (idxMask : ℕ)
  | addValue
  | vdf (event : VdfState.Event)
  | stop
  | start
  | complete

variable (arith : FormArith) (D L : ℤ) (idx : ℕ)

abbrev engine (client : VdfClient) (i : ℕ) : Engine := client.drv.device.engines i

def withDrv (client : VdfClient) (drv : HwInterface.Driver) : VdfClient := { client with drv := drv }

def withVdf (client : VdfClient) (vdf : VdfState) : VdfClient := { client with vdf := vdf }

def withPhase (client : VdfClient) (phase : ClientPhase) : VdfClient := { client with phase := phase }

@[simp] theorem withPhase_phase (client : VdfClient) (phase : ClientPhase) : (client.withPhase phase).phase = phase :=
  rfl

def withEngine (client : VdfClient) (i : ℕ) (e : Engine) : VdfClient :=
  client.withDrv ⟨client.drv.intWriteBuf, client.drv.device.set i e⟩

def read (client : VdfClient) (idxMask : ℕ) : Exec VdfClient := do
  let (drv, values) ← readHwStatus idxMask client.values client.drv
  return { client with
    drv := drv
    values := values
    phase := if idxMask.testBit idx then .adding else .polling }

def stop (client : VdfClient) : Exec VdfClient := do
  let drv ← stopHwVdf idx client.drv
  return (client.withDrv drv).withPhase .stopped

/-- The engine goes on from the last form that is known. -/
def start (client : VdfClient) : Exec VdfClient := do
  let pos ← client.vdf.lastGoodPos (client.vdf.curIters / HW_VDF_VALUE_INTERVAL)
  match client.vdf.values pos with
  | none => .fault .outOfBounds
  | some f => do
    let vdf ← client.vdf.restart
    let drv ← startHwVdf D f.a f.b (UInt64.ofNat vdf.targetIters - UInt64.ofNat vdf.itersOffset) idx client.drv
    return ((client.withVdf vdf).withDrv drv).withPhase .polling

def complete (client : VdfClient) : Exec VdfClient := do
  let drv ← stopHwVdf idx client.drv
  return { client.withDrv drv with running := false }

def step (client : VdfClient) : Event → Exec VdfClient
  | .thread i k => do
    let e ← (client.engine i).threadStep arith k
    return client.withEngine i e
  | .control idxMask value => do
    let drv ← hwVdfControl idxMask value client.drv
    return client.withDrv drv
  | .await i => .done (client.withEngine i (client.engine i).await)
  | .startOther i d a b nIters => do
    let drv ← startHwVdf d a b nIters i client.drv
    return client.withDrv drv
  | .readStatus idxMask => client.read idx idxMask
  | .addValue => do
    let vdf ← client.vdf.step arith D L (.value (client.values idx))
    return (client.withVdf vdf).withPhase .polling
  | .vdf event => do
    let vdf ← client.vdf.step arith D L event
    return client.withVdf vdf
  | .stop => client.stop idx
  | .start => client.start D idx
  | .complete => client.complete idx

/-- What the loop does next. A start waits for a thread that is running, and a thread that has not begun by then is not
waited for; that it has begun is a condition here. The numbers of another VDF are ones that a job can hold. -/
def Enabled (client : VdfClient) : Event → Prop
  | .thread _ _ => True
  | .control _ value => value < 2 ^ 32
  | .await i => i ≠ idx ∨ client.phase = .stopped
  | .startOther i D a b _ => i ≠ idx ∧ i < N_VDFS ∧ (client.engine i).running = false ∧ |a| < 2 ^ 546 ∧ |b| < 2 ^ 546 ∧
      D < 0 ∧ |D| < 2 ^ 1090 ∧ ∃ qf, Form.fromAbd a b D = .done qf
  | .readStatus idxMask => client.phase = .polling ∧ client.vdf.eventLoop = .reading ∧
      (idxMask.testBit idx = true → client.running = true ∧ client.vdf.completed = false)
  | .addValue => client.phase = .adding
  | .vdf (.value _) => False
  | .vdf .loop => client.vdf.eventLoop ≠ .restarting
  | .vdf _ => True
  | .stop => client.phase = .polling ∧ client.vdf.eventLoop = .restarting
  | .start => client.phase = .stopped ∧ (client.engine idx).threads = []
  | .complete => client.phase = .polling ∧ client.vdf.eventLoop = .reading ∧ client.vdf.completed = true

end VdfClient

/-- The runs of the client from a challenge on, whatever the engines did before that. -/
inductive VdfClient.Reachable {d : Discriminant} (arith : FormArith) (x : ReducedForm d) (idx : ℕ) : VdfClient → Prop
  | init {drv drv' : HwInterface.Driver} {values : ℕ → VdfValue} {maxAuxThreads : ℕ} {a b : ℤ} {vdf : VdfState}
      (whole : HwInterface.Whole drv) (none : (drv.device.engines idx).threads = [])
      (idle : (drv.device.engines idx).running = false) (boundA : |a| < 2 ^ 546) (boundB : |b| < 2 ^ 546)
      (form : Form.fromAbd a b d.D = .done x.form)
      (run : VdfState.initVdfState d.D VdfClient.nIters maxAuxThreads a b = .done vdf)
      (started : HwInterface.startHwVdf d.D a b (UInt64.ofNat vdf.targetIters) idx drv = .done drv') :
      Reachable arith x idx ⟨drv', values, vdf, true, .polling⟩
  | step {s t : VdfClient} {event : VdfClient.Event} (reachable : Reachable arith x idx s)
      (enabled : s.Enabled idx event) (run : s.step arith d.D d.L idx event = .done t) : Reachable arith x idx t

namespace VdfClient

variable {d : Discriminant} {arith : FormArith} {x : ReducedForm d} {idx : ℕ} {s t : VdfClient}

structure Right (arith : FormArith) (x : ReducedForm d) (idx : ℕ) (s : VdfClient) : Prop where
  whole : HwInterface.Whole s.drv
  engine : (s.engine idx).Right x s.vdf.itersOffset s.vdf.targetIters
  vdf : s.vdf.Reachable arith x fun vdf val => vdf.ShortGap (vdf.totalIters val)
  kept : s.vdf.Kept
  adding : s.phase = .adding → s.vdf.eventLoop = .reading ∧
    (s.values idx).Told x s.vdf.itersOffset s.vdf.targetIters
  stopped : s.phase = .stopped → s.vdf.eventLoop = .restarting

theorem step_below {arith' : FormArith} (below : arith.Below arith') (D L : ℤ) (s : VdfClient) (event : Event) :
    Exec.Below (s.step arith D L idx event) (s.step arith' D L idx event) := by
  cases event with
  | thread i k => exact ((s.engine i).threadStep_below below k).first
  | addValue => exact (s.vdf.step_below below _).first
  | vdf event => exact (s.vdf.step_below below event).first
  | _ => rfl

/-- The steps that reduce forms. -/
def Event.Reduces : Event → Prop
  | .thread _ _ => True
  | .vdf (.aux _) => True
  | _ => False

/-- A step that is done where the reducer always comes back is done, or the reducer does not come back. -/
theorem step_completed {D L : ℤ} {s t : VdfClient} (event : Event)
    (run : s.step arith.completed D L idx event = .done t) :
    s.step arith D L idx event = .done t ∨ event.Reduces ∧ s.step arith D L idx event = .diverged := by
  have below : Exec.Below (s.step arith D L idx event) (s.step arith.completed D L idx event) :=
    s.step_below arith.below_completed D L event
  rw [run] at below
  rcases below with diverged | done
  · cases event with
    | thread i k => exact .inr ⟨trivial, diverged⟩
    | vdf event =>
      cases event with
      | aux i => exact .inr ⟨trivial, diverged⟩
      | _ => exact .inl run
    | _ => exact .inl run
  · exact .inl done

/-- A run in which the reducer has come back is one of the arithmetic that always comes back. -/
theorem Reachable.completed (reachable : Reachable arith x idx s) : Reachable arith.completed x idx s := by
  induction reachable with
  | init whole none idle boundA boundB form run started => exact .init whole none idle boundA boundB form run started
  | @step s t event _ enabled run ih => exact ih.step enabled ((s.step_below arith.below_completed _ _ event).done run)

section Engines

theorem Right.withDrv (right : s.Right arith x idx) {drv : HwInterface.Driver} (whole : HwInterface.Whole drv)
    (engine : (drv.device.engines idx).Right x s.vdf.itersOffset s.vdf.targetIters) :
    (s.withDrv drv).Right arith x idx where
  whole := whole
  engine := engine
  vdf := right.vdf
  kept := right.kept
  adding := right.adding
  stopped := right.stopped

theorem Right.withEngine (right : s.Right arith x idx) {i : ℕ} {e : Engine} (whole : e.Whole)
    (engine : i = idx → e.Right x s.vdf.itersOffset s.vdf.targetIters) : (s.withEngine i e).Right arith x idx := by
  refine right.withDrv (right.whole.set whole right.whole.buffer) ?_
  by_cases here : idx = i
  · subst here
    simpa using engine rfl
  · simpa [Function.update_of_ne here] using right.engine

theorem Right.thread (squares : arith.Squares x) (right : s.Right arith x idx) {i k : ℕ}
    (run : s.step arith d.D d.L idx (.thread i k) = .done t) : t.Right arith x idx := by
  obtain ⟨e, moved, last⟩ := Exec.bind_eq_done.mp run
  obtain rfl := Exec.done.inj last
  refine right.withEngine ((right.whole.engines i).of_registers (Engine.threadStep_registers moved)) ?_
  rintro rfl
  exact right.engine.threadStep squares moved

theorem Right.control (right : s.Right arith x idx) (idxMask : ℕ) {value : ℕ} (small : value < 2 ^ 32) :
    ∃ t, s.step arith d.D d.L idx (.control idxMask value) = .done t ∧ t.Right arith x idx := by
  obtain ⟨drv, run, whole, engines⟩ := hwVdfControl_spec right.whole idxMask small
  refine ⟨s.withDrv drv, by simp only [step, run, Exec.done_bind, Exec.pure_eq], right.withDrv whole ?_⟩
  rw [engines]
  split_ifs
  · exact right.engine.enable
  · exact right.engine.disable
  · exact right.engine

theorem Right.await (right : s.Right arith x idx) (i : ℕ) :
    (s.withEngine i (s.engine i).await).Right arith x idx := by
  apply right.withEngine
  · apply (right.whole.engines i).of_registers
    unfold Engine.await
    split_ifs <;> exact ⟨rfl, rfl⟩
  · rintro rfl
    exact right.engine.await

theorem Right.startOther (right : s.Right arith x idx) {i : ℕ} {D a b : ℤ} (nIters : UInt64)
    (enabled : s.Enabled idx (.startOther i D a b nIters)) :
    ∃ t, s.step arith d.D d.L idx (.startOther i D a b nIters) = .done t ∧ t.Right arith x idx := by
  obtain ⟨other, inside, idle, boundA, boundB, neg, boundD, qf, form⟩ := enabled
  obtain ⟨L, root, boundL⟩ := HwInterface.root_bounded neg boundD
  obtain ⟨intWriteBuf, jobRegs, run, whole⟩ := startHwVdf_spec right.whole inside idle nIters boundA boundB boundD root
    boundL form
  refine ⟨_, by simp only [step, run, Exec.done_bind]; rfl, right.withDrv whole ?_⟩
  simpa [Function.update_of_ne (Ne.symm other)] using right.engine

end Engines

section Values

theorem Right.read (bits : |d.D| < 2 ^ 1090) (inside : idx < N_VDFS) (right : s.Right arith x idx) {idxMask : ℕ}
    (enabled : s.Enabled idx (.readStatus idxMask)) :
    ∃ t, s.step arith d.D d.L idx (.readStatus idxMask) = .done t ∧ t.Right arith x idx := by
  obtain ⟨-, reading, -⟩ := enabled
  obtain ⟨drv, values, run, whole, same, got, -⟩ := readHwStatus_values right.whole idxMask s.values
  have small : s.vdf.targetIters < 2 ^ 64 := right.kept.small.trans (by norm_num)
  refine ⟨_, by simp only [step, VdfClient.read, run, Exec.done_bind]; rfl, ?_⟩
  refine ⟨whole, right.engine.sameJob (same idx), right.vdf, right.kept, fun adding => ⟨reading, ?_⟩, fun stopped => ?_⟩
  · have asked : idxMask.testBit idx = true := by
      by_contra other
      simp [other] at adding
    change (values idx).Told x s.vdf.itersOffset s.vdf.targetIters
    rw [got idx inside asked (right.engine.ready bits small)]
    exact right.engine.told
  · simp only at stopped
    split_ifs at stopped

theorem Right.addValue (right : s.Right arith x idx) (adding : s.phase = .adding) :
    ∃ t, s.step arith d.D d.L idx .addValue = .done t ∧ t.Right arith x idx := by
  obtain ⟨reading, told⟩ := right.adding adding
  obtain ⟨vdf, run, kept⟩ := right.kept.addValue told
  have step : s.vdf.step arith d.D d.L (.value (s.values idx)) = .done vdf := by
    simp only [VdfState.step, reading, run]
  have offset := VdfState.addValue_offset run
  have target : vdf.targetIters = s.vdf.targetIters := kept.target.trans right.kept.target.symm
  have reachable : vdf.Reachable arith x fun vdf val => vdf.ShortGap (vdf.totalIters val) := by
    refine right.vdf.step (fun val same => ?_) step
    obtain rfl := VdfState.Event.value.inj same
    exact right.kept.delivers told
  refine ⟨_, by simp only [VdfClient.step, step, Exec.done_bind]; rfl, ?_⟩
  refine ⟨right.whole, ?_, reachable, kept, by simp, by simp⟩
  change (s.engine idx).Right x vdf.itersOffset vdf.targetIters
  rw [offset, target]
  exact right.engine

/-- A step of `hw_proof.cpp` that needs nothing from the hardware. -/
theorem Right.withVdf (right : s.Right arith x idx) {event : VdfState.Event} {vdf : VdfState}
    (run : s.vdf.step arith d.D d.L event = .done vdf) (inner : ∀ val, event ≠ .value val) (kept : vdf.Kept)
    (offset : vdf.itersOffset = s.vdf.itersOffset)
    (phase : s.phase ≠ .polling → vdf.eventLoop = s.vdf.eventLoop) : (s.withVdf vdf).Right arith x idx := by
  have target : vdf.targetIters = s.vdf.targetIters := kept.target.trans right.kept.target.symm
  refine ⟨right.whole, ?_, right.vdf.step (fun val same => absurd same (inner val)) run, kept, ?_, ?_⟩
  · change (s.engine idx).Right x vdf.itersOffset vdf.targetIters
    rw [offset, target]
    exact right.engine
  · intro adding
    have adding : s.phase = .adding := adding
    obtain ⟨reading, told⟩ := right.adding adding
    refine ⟨(phase (by simp [adding])).trans reading, ?_⟩
    change (s.values idx).Told x vdf.itersOffset vdf.targetIters
    rwa [offset, target]
  · intro stopped
    have stopped : s.phase = .stopped := stopped
    exact (phase (by simp [stopped])).trans (right.stopped stopped)

theorem Right.vdfStep (squares : arith.Squares x) (right : s.Right arith x idx)
    {event : VdfState.Event} (enabled : s.Enabled idx (.vdf event)) :
    ∃ t, s.step arith d.D d.L idx (.vdf event) = .done t ∧ t.Right arith x idx := by
  have lift {vdf : VdfState} (run : s.vdf.step arith d.D d.L event = .done vdf) :
      s.step arith d.D d.L idx (.vdf event) = .done (s.withVdf vdf) := by
    simp only [VdfClient.step, run, Exec.done_bind, Exec.pure_eq]
  cases event with
  | value val => exact enabled.elim
  | loop =>
    have goes : s.vdf.eventLoop ≠ .restarting := enabled
    obtain ⟨vdf, run, kept⟩ := right.kept.loopStep
    have run' : s.vdf.step arith d.D d.L .loop = .done vdf := run
    refine ⟨_, lift run', right.withVdf run' (by simp) kept (VdfState.loopStep_offset run goes) fun busy => ?_⟩
    cases phase : s.phase with
    | polling => exact absurd phase busy
    | stopped => exact absurd (right.stopped phase) goes
    | adding =>
      have reading := (right.adding phase).1
      simp only [VdfState.loopStep, reading] at run
      obtain rfl := Exec.done.inj run
      rfl
  | startProof i =>
    have kept : (s.vdf.setAuxThread i .computeProof).Kept :=
      right.kept.setThread (show AuxThread.Inside _ .computeProof from trivial) i
    cases phase : s.vdf.eventLoop with
    | startingProofs =>
      have run : s.vdf.step arith d.D d.L (.startProof i) =
          .done (if s.vdf.auxThreadsBusy i then s.vdf else s.vdf.setAuxThread i .computeProof) := by
        simp only [VdfState.step, phase]
      refine ⟨_, lift run, right.withVdf run (by simp) ?_ ?_ fun _ => ?_⟩
      · split_ifs
        · exact right.kept
        · exact kept
      · split_ifs <;> rfl
      · split_ifs <;> rfl
    | _ =>
      have run : s.vdf.step arith d.D d.L (.startProof i) = .done s.vdf := by simp only [VdfState.step, phase]
      exact ⟨_, lift run, right.withVdf run (by simp) right.kept rfl fun _ => rfl⟩
  | aux i =>
    obtain ⟨vdf, run, kept⟩ := right.kept.aux squares (right.vdf.collected squares) i
    obtain ⟨offset, phase⟩ := VdfState.auxStep_frame run
    have run' : s.vdf.step arith d.D d.L (.aux i) = .done vdf := run
    exact ⟨_, lift run', right.withVdf run' (by simp) kept offset fun _ => phase⟩

end Values

section Restart

theorem Right.stop (inside : idx < N_VDFS) (right : s.Right arith x idx) (restarting : s.vdf.eventLoop = .restarting) :
    ∃ t, s.step arith d.D d.L idx .stop = .done t ∧ t.Right arith x idx := by
  obtain ⟨intWriteBuf, run, whole⟩ := stopHwVdf_spec right.whole inside
  refine ⟨_, by simp only [step, VdfClient.stop, run, Exec.done_bind]; rfl, ?_⟩
  refine ⟨whole, ?_, right.vdf, right.kept, by simp, fun _ => restarting⟩
  simpa [VdfClient.engine, withPhase, VdfClient.withDrv] using right.engine.disable

theorem Right.complete (inside : idx < N_VDFS) (right : s.Right arith x idx) :
    ∃ t, s.step arith d.D d.L idx .complete = .done t ∧ t.Right arith x idx := by
  obtain ⟨intWriteBuf, run, whole⟩ := stopHwVdf_spec right.whole inside
  refine ⟨_, by simp only [step, VdfClient.complete, run, Exec.done_bind]; rfl, ?_⟩
  refine ⟨whole, ?_, right.vdf, right.kept, right.adding, right.stopped⟩
  simpa [VdfClient.engine, VdfClient.withDrv] using right.engine.disable

theorem Right.start (bits : |d.D| < 2 ^ 1090) (inside : idx < N_VDFS) (squares : arith.Squares x)
    (right : s.Right arith x idx) (stopped : s.phase = .stopped) (none : (s.engine idx).threads = []) :
    ∃ t, s.step arith d.D d.L idx .start = .done t ∧ t.Right arith x idx := by
  have restarting := right.stopped stopped
  have collected := right.vdf.collected squares
  obtain ⟨pos, found, -, valid⟩ := VdfState.lastGoodPos_done right.kept.first (s.vdf.curIters / HW_VDF_VALUE_INTERVAL)
  obtain ⟨f, value, rep⟩ := collected.holds pos valid
  have nearly := right.kept.values pos f value
  generalize offset : pos * HW_VDF_VALUE_INTERVAL = from_ at *
  let vdf : VdfState := { s.vdf with itersOffset := from_, eventLoop := .reading }
  have restarted : s.vdf.restart = .done vdf := by
    simp only [VdfState.restart, found, Exec.done_bind, offset]
    rfl
  have step : s.vdf.step arith d.D d.L .loop = .done vdf := by
    simp only [VdfState.step, VdfState.loopStep, restarting, restarted]
  obtain ⟨u, again, kept⟩ := right.kept.loopStep
  obtain rfl : vdf = u := Exec.done.inj (step.symm.trans again)
  have target : vdf.targetIters < 2 ^ 64 := kept.small.trans (by norm_num)
  have left : (UInt64.ofNat vdf.targetIters - UInt64.ofNat vdf.itersOffset).toNat =
    vdf.targetIters - vdf.itersOffset := by
    have le := kept.offset
    have offset := le.trans_lt target
    rw [UInt64.toNat_sub_of_le]
    · rw [UInt64.toNat_ofNat_of_lt' target, UInt64.toNat_ofNat_of_lt' offset]
    · rwa [UInt64.le_iff_toNat_le, UInt64.toNat_ofNat_of_lt' target, UInt64.toNat_ofNat_of_lt' offset]
  have idle : (s.engine idx).running = false := by
    rcases right.engine.threads with ⟨-, idle⟩ | ⟨thread, one, -⟩
    · exact idle
    · simp [none] at one
  obtain ⟨boundA, boundB⟩ := HwInterface.nearlyReduced_bounded rep.pos nearly rep.disc bits
  have form : Form.fromAbd f.a f.b d.D = .done (x ^ 2 ^ from_).form := by
    rw [← rep.disc, Form.fromAbd_eq_reduce rep.pos, rep.reduce]
  obtain ⟨L, root, boundL⟩ := HwInterface.root_bounded d.D_neg bits
  obtain rfl : d.L = L := Exec.done.inj ((mpzRoot4_neg_D d).symm.trans root)
  obtain ⟨intWriteBuf, jobRegs, run, whole⟩ := startHwVdf_spec right.whole inside idle
    (UInt64.ofNat vdf.targetIters - UInt64.ofNat vdf.itersOffset) boundA boundB bits root boundL
    form
  refine ⟨_, by simp only [VdfClient.step, VdfClient.start, found, Exec.done_bind, value, restarted, run]; rfl, ?_⟩
  have reachable : vdf.Reachable arith x fun vdf val => vdf.ShortGap (vdf.totalIters val) := by
    refine right.vdf.step ?_ step
    rintro val ⟨⟩
  refine ⟨whole, ?_, reachable, kept, by simp, by simp⟩
  have begun := Engine.begun_right (x := x) (e := (s.engine idx).enable.withJobRegs jobRegs) rfl none idle
    (Nat.add_sub_cancel' kept.offset)
  simpa [VdfClient.engine, withPhase, VdfClient.withDrv, VdfClient.withVdf, left] using begun

end Restart

section Runs

/-- No step of the client fails that is not one of a thread of another engine. -/
theorem Right.step_done (bits : |d.D| < 2 ^ 1090) (inside : idx < N_VDFS) (squares : arith.Squares x)
    (right : s.Right arith x idx) {event : Event} (enabled : s.Enabled idx event)
    (own : ∀ i k, event = .thread i k → i = idx) :
    ∃ t, s.step arith d.D d.L idx event = .done t ∧ t.Right arith x idx := by
  cases event with
  | thread i k =>
    obtain rfl := own i k rfl
    obtain ⟨e, moved⟩ := right.engine.threadStep_done squares k
    have run : s.step arith d.D d.L i (.thread i k) = .done (s.withEngine i e) := by
      simp only [VdfClient.step, moved, Exec.done_bind, Exec.pure_eq]
    exact ⟨_, run, right.thread squares run⟩
  | control idxMask value => exact right.control idxMask enabled
  | await i => exact ⟨_, rfl, right.await i⟩
  | startOther i D a b nIters => exact right.startOther nIters enabled
  | readStatus idxMask => exact right.read bits inside enabled
  | addValue => exact right.addValue enabled
  | vdf event => exact right.vdfStep squares enabled
  | stop => exact right.stop inside enabled.2
  | start => exact right.start bits inside squares enabled.1 enabled.2
  | complete => exact right.complete inside

theorem Right.step (bits : |d.D| < 2 ^ 1090) (inside : idx < N_VDFS) (squares : arith.Squares x)
    (right : s.Right arith x idx) {event : Event} (enabled : s.Enabled idx event)
    (run : s.step arith d.D d.L idx event = .done t) : t.Right arith x idx := by
  have only (own : ∀ i k, event = .thread i k → i = idx) : t.Right arith x idx := by
    obtain ⟨u, run', rightU⟩ := right.step_done bits inside squares enabled own
    obtain rfl := Exec.done.inj (run.symm.trans run')
    exact rightU
  cases event with
  | thread i k => exact right.thread squares run
  | _ => exact only (by simp)

theorem genuine_of_fromAbd {a b : ℤ} (form : Form.fromAbd a b d.D = .done x.form) : VdfValue.Genuine x ⟨0, a, b⟩ := by
  obtain ⟨c, pos, disc, reduced⟩ := Form.fromAbd_done form
  obtain ⟨h, run, similar⟩ := reduce_similar pos disc
  have same : x = h := ReducedForm.ext (Exec.done.inj (reduced.symm.trans run))
  refine ⟨c, ?_⟩
  rw [pow_zero, pow_one, same]
  exact ⟨pos, disc, similar⟩

theorem init_kept {maxAuxThreads : ℕ} {a b : ℤ} {vdf : VdfState} (form : Form.fromAbd a b d.D = .done x.form)
    (run : VdfState.initVdfState d.D nIters maxAuxThreads a b = .done vdf) :
    vdf.Kept ∧ vdf.itersOffset = 0 ∧ vdf.eventLoop = .reading := by
  rw [VdfState.initVdfState, form] at run
  obtain rfl := Exec.done.inj run
  refine ⟨⟨rfl, Nat.zero_le _, Nat.zero_le _, Nat.zero_le _, rfl, ?_, by simp, fun _ => trivial, trivial, rfl⟩, rfl,
    rfl⟩
  apply VdfState.nearly_update _ (nearlyReduced_of_reduced x.reduced)
  simp

theorem Reachable.right (bits : |d.D| < 2 ^ 1090) (inside : idx < N_VDFS) (squares : arith.Squares x)
    (reachable : Reachable arith x idx s) : s.Right arith x idx := by
  induction reachable with
  | @init drv drv' values maxAuxThreads a b vdf whole none idle boundA boundB form run started =>
    obtain ⟨kept, offset, reading⟩ := init_kept form run
    obtain ⟨L, root, boundL⟩ := HwInterface.root_bounded d.D_neg bits
    obtain rfl : d.L = L := Exec.done.inj ((mpzRoot4_neg_D d).symm.trans root)
    obtain ⟨intWriteBuf, jobRegs, started', whole'⟩ := startHwVdf_spec whole inside idle (UInt64.ofNat vdf.targetIters)
      boundA boundB bits root boundL form
    obtain rfl := Exec.done.inj (started.symm.trans started')
    have target : vdf.targetIters < 2 ^ 64 := kept.small.trans (by norm_num)
    have begun := Engine.begun_right (x := x) (e := (drv.device.engines idx).enable.withJobRegs jobRegs) rfl none idle
      (Nat.zero_add vdf.targetIters)
    refine ⟨whole', ?_, .init (genuine_of_fromAbd form) run, kept, by simp, by simp⟩
    rw [offset]
    simpa [VdfClient.engine, UInt64.toNat_ofNat_of_lt' target] using begun
  | step _ enabled run ih => exact ih.step bits inside squares enabled run

theorem exists_launched (arith : FormArith) : ∃ (x : ReducedForm ⟨23, by norm_num, rfl⟩) (s : VdfClient),
    x.form = ⟨2, 1, 3⟩ ∧
    Reachable arith x 1 s ∧
      (s.phase = .polling ∧ s.running = true ∧ VdfState.initVdfState (-23) nIters 4 2 1 = .done s.vdf) ∧
    (s.engine 1).threads = [.launched] ∧ (s.engine 1).stopping = false ∧
    (s.engine 1).job.curIter = 0 ∧ (s.engine 1).job.targetIter = nIters := by
  let x : ReducedForm ⟨23, by norm_num, rfl⟩ := ⟨⟨2, 1, 3⟩, by decide, rfl⟩
  have form : Form.fromAbd 2 1 (-23) = .done x.form := by decide +kernel
  have whole : HwInterface.Whole ⟨List.replicate FtdiDriver.MAX_WRITE_BUF 0, .init⟩ :=
    ⟨List.length_replicate, fun _ => ⟨List.length_replicate, List.length_replicate,
      show ChiaDriver.started Engine.zero.jobRegs = false by decide⟩, rfl⟩
  obtain ⟨L, root, boundL⟩ := HwInterface.root_bounded (show (-23 : ℤ) < 0 by norm_num) (by decide +kernel)
  obtain ⟨intWriteBuf, jobRegs, started, -⟩ := startHwVdf_spec (i := 1) whole (by decide) rfl (UInt64.ofNat nIters)
    (show |(2 : ℤ)| < 2 ^ 546 by decide +kernel) (show |(1 : ℤ)| < 2 ^ 546 by decide +kernel)
    (show |(-23 : ℤ)| < 2 ^ 1090 by decide +kernel) root boundL form
  have run : ∃ vdf, VdfState.initVdfState (-23) nIters 4 2 1 = .done vdf ∧ vdf.targetIters = nIters :=
    ⟨_, by rw [VdfState.initVdfState, form, Exec.done_bind]; rfl, rfl⟩
  obtain ⟨vdf, run, target⟩ := run
  refine ⟨x, ⟨_, fun _ => ⟨0, 0, 0⟩, vdf, true, .polling⟩, rfl,
    .init whole rfl rfl (show |(2 : ℤ)| < 2 ^ 546 by decide +kernel)
    (show |(1 : ℤ)| < 2 ^ 546 by decide +kernel) form run (by rw [target]; exact started), ⟨rfl, rfl, run⟩, ?_⟩
  simp [VdfClient.engine, Emulator.set, Engine.begun, Engine.withJobRegs, Engine.enable, Emulator.init, Engine.zero,
    UInt64.toNat_ofNat_of_lt' (show nIters < 2 ^ 64 by decide)]

@[simp] theorem engine_withEngine (s : VdfClient) (i : ℕ) (e : Engine) : (s.withEngine i e).engine i = e := by
  simp [engine, withEngine, withDrv, Emulator.set]

theorem Reachable.thread {i k : ℕ} {e : Engine} (reachable : s.Reachable arith x idx)
    (run : (s.engine i).threadStep arith k = .done e) :
    (s.withEngine i e).Reachable arith x idx := by
  have moved : s.step arith d.D d.L idx (.thread i k) = .done (s.withEngine i e) := by
    simp only [VdfClient.step, run, Exec.done_bind, Exec.pure_eq]
  have enabled : s.Enabled idx (.thread i k) := trivial
  exact reachable.step enabled moved

theorem Reachable.squaring (reachable : s.Reachable arith x idx) (launched : (s.engine idx).threads = [.launched])
    (going : (s.engine idx).stopping = false) (room : (s.engine idx).job.curIter < (s.engine idx).job.targetIter) :
    ∃ t : VdfClient, t.Reachable arith x idx ∧ (t.engine idx).threads = [.squaring] := by
  generalize first : s.engine idx = e at launched going room
  have begins := reachable.thread (i := idx) (k := 0)
    (e := { e with error := false, running := true, threads := [.testing] })
    (by simp [first, Engine.threadStep, launched])
  have tests := begins.thread (i := idx) (k := 0)
    (e := { e with error := false, running := true, threads := [.squaring] })
    (by simp [Engine.threadStep, going, room])
  exact ⟨_, tests, by simp⟩

theorem Reachable.squared (bits : |d.D| < 2 ^ 1090) (inside : idx < Emulator.N_VDFS) (squares : arith.Squares x)
    (reachable : s.Reachable arith x idx) (launched : (s.engine idx).threads = [.launched])
    (going : (s.engine idx).stopping = false) (room : (s.engine idx).job.curIter < (s.engine idx).job.targetIter) :
    ∃ t : VdfClient, t.Reachable arith x idx ∧ t.phase = s.phase ∧ t.running = s.running ∧ t.vdf = s.vdf ∧
      (t.engine idx).stopping = false ∧ (t.engine idx).job.curIter = (s.engine idx).job.curIter + 1 := by
  have right := (reachable.right bits inside squares).engine
  obtain ⟨g, h, squared, reduced, -⟩ := squares right.qf right.nearly
  rw [← right.discriminant, ← right.bound] at squared
  generalize first : s.engine idx = e at right squared launched going room ⊢
  have begins := reachable.thread (i := idx) (k := 0)
    (e := { e with error := false, running := true, threads := [.testing] })
    (by simp [first, Engine.threadStep, launched])
  have tests := begins.thread (i := idx) (k := 0)
    (e := { e with error := false, running := true, threads := [.squaring] })
    (by simp [Engine.threadStep, going, room])
  have squared' := tests.thread (i := idx) (k := 0)
    (e := { e with error := false, running := true, threads := [.updating h] })
    (by simp [Engine.threadStep, squared, reduced])
  have updates := squared'.thread (i := idx) (k := 0) (e := { e with
    error := false
    running := true
    threads := [.testing]
    job := { e.job with curIter := e.job.curIter + 1, qf := h } }) (by simp [Engine.threadStep])
  exact ⟨_, updates, rfl, rfl, rfl, by simp [going], by simp⟩

theorem Reachable.vdfStep (reachable : s.Reachable arith x idx) {event : VdfState.Event} {vdf : VdfState}
    (enabled : s.Enabled idx (.vdf event)) (run : s.vdf.step arith d.D d.L event = .done vdf) :
    (s.withVdf vdf).Reachable arith x idx := by
  have moved : s.step arith d.D d.L idx (.vdf event) = .done (s.withVdf vdf) := by
    simp only [VdfClient.step, run, Exec.done_bind, Exec.pure_eq]
  exact reachable.step enabled moved

theorem exists_swapped (squares : ∀ x : ReducedForm ⟨23, by norm_num, rfl⟩, x.form = ⟨2, 1, 3⟩ → arith.Squares x) :
    ∃ (x : ReducedForm ⟨23, by norm_num, rfl⟩) (s : VdfClient), x.form = ⟨2, 1, 3⟩ ∧ Reachable arith x 1 s ∧
      s.vdf.eventLoop = .startingProofs ∧ s.vdf.lastVal.iters = 1 ∧
    s.vdf.validValues 0 = true ∧ s.vdf.values 0 = some ⟨2, 1, 3⟩ ∧ s.vdf.auxThreadsBusy 0 = false := by
  obtain ⟨x, s, same, reachable, ⟨polling, running, begun⟩, launched, going, zero, target⟩ := exists_launched arith
  let d : Discriminant := ⟨23, by norm_num, rfl⟩
  have bits : |d.D| < 2 ^ 1090 := by decide +kernel
  obtain ⟨s, reachable, phase, runs, vdf, going, once⟩ := reachable.squared bits (by decide) (squares x same) launched
    going (by rw [zero, target]; decide)
  have right := reachable.right bits (by decide) (squares x same)
  have form : Form.fromAbd 2 1 (-23) = .done ⟨2, 1, 3⟩ := by decide +kernel
  rw [VdfState.initVdfState, form, Exec.done_bind] at begun
  have init := Exec.done.inj begun
  rw [← vdf] at init
  rw [zero] at once
  have offset : s.vdf.itersOffset = 0 := by rw [← init]
  have reading : s.vdf.eventLoop = .reading := by rw [← init]
  have first : s.vdf.lastVal.iters = 0 := by rw [← init]
  obtain ⟨drv, values, read, -, -, got, -⟩ := HwInterface.readHwStatus_values right.whole 2 s.values
  have value : values 1 = ⟨1, (s.engine 1).job.qf.a, (s.engine 1).job.qf.b⟩ := by
    rw [got 1 (by decide) (by decide) (right.engine.ready bits (right.kept.small.trans (by norm_num))), Engine.value,
      if_pos going, once]
  have enabled : s.Enabled 1 (.readStatus 2) :=
    ⟨phase.trans polling, reading, fun _ => ⟨runs.trans running, by rw [← init]⟩⟩
  have asked : s.step arith d.D d.L 1 (.readStatus 2) = .done ⟨drv, values, s.vdf, s.running, .adding⟩ := by
    simp only [VdfClient.step, VdfClient.read, read, Exec.done_bind]
    rfl
  have adds := reachable.step enabled asked
  have rep := right.engine.qf
  have total : s.vdf.totalIters ⟨1, (s.engine 1).job.qf.a, (s.engine 1).job.qf.b⟩ = 1 := by
    simp [VdfState.totalIters, offset]
  have added : s.vdf.step arith d.D d.L (.value (values 1)) = .done { s.vdf with
      nSkipped := 0
      eventLoop := .addingWork ⟨1, (s.engine 1).job.qf.a, (s.engine 1).job.qf.b % (2 * (s.engine 1).job.qf.a)⟩ } := by
    simp only [VdfState.step, reading, value]
    rw [VdfState.addValue_form rep (by simp [total, offset, first]), total, VdfState.handleValue,
      if_neg (show ¬1 = 1 / HW_VDF_VALUE_INTERVAL * HW_VDF_VALUE_INTERVAL by decide)]
  generalize one : (⟨1, _, _⟩ : VdfValue) = val at added
  have iters : val.iters = 1 := by rw [← one]
  have none : endIters val.iters = 0 := by
    rw [iters]
    decide
  have moved : (⟨drv, values, s.vdf, s.running, .adding⟩ : VdfClient).step arith d.D d.L 1 .addValue =
      .done ⟨drv, values, { s.vdf with nSkipped := 0, eventLoop := .addingWork val }, s.running, .polling⟩ := by
    simp only [VdfClient.step, added, Exec.done_bind]
    rfl
  have enabled : (⟨drv, values, s.vdf, s.running, .adding⟩ : VdfClient).Enabled 1 .addValue := rfl
  have works := adds.step enabled moved
  have adds : ({ s.vdf with nSkipped := 0, eventLoop := .addingWork val } : VdfState).step arith d.D d.L .loop =
      .done { s.vdf with nSkipped := 0, eventLoop := .swapping val } := by
    simp [VdfState.step, VdfState.loopStep, VdfState.addWork, none]
  have swaps : ({ s.vdf with nSkipped := 0, eventLoop := .swapping val } : VdfState).step arith d.D d.L .loop =
      .done (({ s.vdf with nSkipped := 0, eventLoop := .swapping val } : VdfState).swapValue val) := rfl
  have enabled : (⟨drv, values, { s.vdf with nSkipped := 0, eventLoop := .addingWork val }, s.running, .polling⟩ :
      VdfClient).Enabled 1 (.vdf .loop) := by simp [Enabled]
  have works := works.vdfStep enabled adds
  have enabled : (⟨drv, values, { s.vdf with nSkipped := 0, eventLoop := .swapping val }, s.running, .polling⟩ :
      VdfClient).Enabled 1 (.vdf .loop) := by simp [Enabled]
  have starts := works.vdfStep enabled swaps
  refine ⟨x, _, same, starts, rfl, iters, ?_⟩
  simp only [withVdf, VdfState.swapValue, VdfState.auxThreadsBusy, ← init]
  simp

/-- Where squaring comes back, in every run of the client on the emulator no value is taken for a bad one, the forms
that are marked are the right ones, and up to the last value every multiple of the interval is marked or will be.
What the engine says at any time is the form after the iterations that it says, or nothing. -/
theorem values_collected (bits : |d.D| < 2 ^ 1090) (inside : idx < N_VDFS) {x : ReducedForm d}
    (returns : SquaresReturn x) : ∃ enough, ∀ turns ≥ enough, ∀ s : VdfClient, Reachable (.inPlace turns) x idx s →
      s.vdf.nBad = 0 ∧ s.vdf.lastVal.Genuine x ∧
        (∀ pos, s.vdf.validValues pos = true → s.vdf.Holds x pos) ∧
        (∀ pos, pos * HW_VDF_VALUE_INTERVAL ≤ s.vdf.lastVal.iters →
          s.vdf.validValues pos = true ∨ s.vdf.Pending (.inPlace turns) d pos) ∧
        (s.engine idx).value.Told x s.vdf.itersOffset s.vdf.targetIters := by
  obtain ⟨enough, squares⟩ := returns.squares
  refine ⟨enough, fun turns le s reachable => ?_⟩
  have right := reachable.right bits inside (squares turns le)
  have collected := right.vdf.collected (squares turns le)
  exact ⟨right.kept.nBad, collected.last, collected.holds, collected.covered, right.engine.told⟩

/-- The first iteration has been taken over. -/
theorem values_collected_swapped : ∃ enough, ∀ turns ≥ enough,
    ∃ (x : ReducedForm ⟨23, by norm_num, rfl⟩) (s : VdfClient), x.form = ⟨2, 1, 3⟩ ∧ Reachable (.inPlace turns) x 1 s ∧
      s.vdf.lastVal.iters = 1 ∧ s.vdf.lastVal.Genuine x ∧ s.vdf.nBad = 0 ∧ s.vdf.Holds x 0 := by
  have bits : |Discriminant.D ⟨23, by norm_num, rfl⟩| < 2 ^ 1090 := by decide +kernel
  let x : ReducedForm ⟨23, by norm_num, rfl⟩ := ⟨⟨2, 1, 3⟩, by decide, rfl⟩
  obtain ⟨enough, squares⟩ := (VdfState.squaresReturn_23 x).squares
  obtain ⟨enough', collected⟩ := values_collected bits (show 1 < N_VDFS by decide) (VdfState.squaresReturn_23 x)
  refine ⟨max enough enough', fun turns le => ?_⟩
  obtain ⟨y, s, same, reachable, -, one, first, -⟩ := exists_swapped fun y same => by
    obtain rfl : y = x := ReducedForm.ext same
    exact squares turns (le_of_max_le_left le)
  obtain rfl : y = x := ReducedForm.ext same
  obtain ⟨good, genuine, stored, -⟩ := collected turns (le_of_max_le_right le) s reachable
  exact ⟨x, s, same, reachable, one, genuine, good, stored 0 first⟩

/-- Where squaring comes back the client does not abort, throw or write out of bounds, whatever comes next in a run. -/
theorem client_safe (bits : |d.D| < 2 ^ 1090) (inside : idx < N_VDFS) {x : ReducedForm d}
    (returns : SquaresReturn x) : ∃ enough, ∀ turns ≥ enough, ∀ s : VdfClient, Reachable (.inPlace turns) x idx s →
      ∀ event, s.Enabled idx event → (∀ i k, event = .thread i k → i = idx) →
        ∃ t, s.step (.inPlace turns) d.D d.L idx event = .done t := by
  obtain ⟨enough, squares⟩ := returns.squares
  refine ⟨enough, fun turns le s reachable event enabled own => ?_⟩
  obtain ⟨t, run, -⟩ := (reachable.right bits inside (squares turns le)).step_done bits inside (squares turns le)
    enabled own
  exact ⟨t, run⟩

/-- The thread of the engine squares. -/
theorem client_safe_squaring : ∃ enough, ∀ turns ≥ enough,
    ∃ (x : ReducedForm ⟨23, by norm_num, rfl⟩) (s t : VdfClient), x.form = ⟨2, 1, 3⟩ ∧
      Reachable (.inPlace turns) x 1 s ∧
      (s.engine 1).threads = [.squaring] ∧
      s.step (.inPlace turns) (-23) (Discriminant.L ⟨23, by norm_num, rfl⟩) 1 (.thread 1 0) = .done t := by
  have bits : |Discriminant.D ⟨23, by norm_num, rfl⟩| < 2 ^ 1090 := by decide +kernel
  let x : ReducedForm ⟨23, by norm_num, rfl⟩ := ⟨⟨2, 1, 3⟩, by decide, rfl⟩
  obtain ⟨enough, safe⟩ := client_safe bits (show 1 < N_VDFS by decide) (VdfState.squaresReturn_23 x)
  refine ⟨enough, fun turns le => ?_⟩
  obtain ⟨y, s, same, reachable, -, launched, going, zero, target⟩ := exists_launched (.inPlace turns)
  obtain rfl : y = x := ReducedForm.ext same
  obtain ⟨s', reachable', squaring⟩ := reachable.squaring launched going (by rw [zero, target]; decide)
  obtain ⟨t, run⟩ := safe turns le s' reachable' (.thread 1 0) trivial fun i k event => by
    obtain ⟨rfl, -⟩ := Event.thread.inj event
    rfl
  exact ⟨x, s', t, same, reachable', squaring, run⟩

end Runs

end VdfClient

end ChiaVdf
