import ChiaVdf.InterruptableReads
import ChiaVdf.ProveSelection
import ChiaVdf.ProveTwoWeso

/-! A whole n-weso session: the squaring thread and the workers of `FastStorage`, the event loop of
`ProverManager`, the threads of the segment provers, and `Prove`. -/
namespace ChiaVdf

open RepeatedSquare (Event Feed Allowed Covered iterations indices lastDelivered)

/-- `read` and `proof` belong to the thread of a segment, which is known by its start and its length: what
`GetForm(i)` returned in the turn for `j`, and the proof that the thread has made. -/
structure NWesoSession where
  nweso : NWeso Form
  manager : ProverManager Form
  read : ℕ × ℕ → ℕ → ℕ → Option Form
  proof : ℕ × ℕ → Option Form

/-- The segment as `Prove` writes it. -/
def ProverManager.Segment.toSegment (s : ProverManager.Segment Form) : ChiaVdf.Segment where
  start := UInt64.ofNat s.start
  length := UInt64.ofNat s.length
  x := s.x.getD .unset
  y := s.y.getD .unset
  proof := s.proof.getD .unset
  isEmpty := s.isEmpty

namespace NWesoSession

inductive Step where
  | work (w : Fin FastStorage.intermediatesThreads)
  /-- The event loop: it wakes up, collects proofs, finds out what has arrived, appends and schedules it. -/
  | wake
  | collect
  | getFinishedSegment
  | append
  | schedule
  /-- `Prove` adds its iteration to `pending_iters` or takes it away. -/
  | request (iteration : ℕ)
  | erase (iteration : ℕ)
  /-- The thread of the prover with index `p` asks for an intermediate, ends, and says so. -/
  | read (p j i : ℕ)
  | finish (p : ℕ)
  | fullyFinish (p : ℕ)

/-- What the event loop finds when it looks. -/
def forms (s : NWesoSession) : ProverManager.Forms Form where
  checkpoints n := (s.nweso.weso.checkpoints n).getD .unset
  prove start length := (s.proof (start, length)).getD .unset

def manage (event : ProverManager.Event) (s : NWesoSession) : Exec NWesoSession := do
  let (manager, _) ← s.manager.step s.forms event
  return { s with manager := manager }

/-- The two loops of the event loop over what has arrived. -/
def appendSegments (s : NWeso Form) : Exec (NWeso Form) :=
  Exec.forLoop s.weso.segments (fun i t =>
    Exec.forLoop (s.intermediatesIter / segmentSize i + 1) (fun _ t => t.appendSegment i) t) s

/-- `GenerateProof` of a segment with what its thread has read; it has not ended before all is read. -/
def generate (env : VerifierEnv) (D : ℤ) (s : NWesoSession) (segment : ProverManager.Segment Form) : Exec Form :=
  let prover := InterruptableProver.ofSegment segment.start segment.length
  env.generateProof D segment.toSegment prover.k prover.l fun j i =>
    match s.read segment.key j i with
    | some form => .done form
    | none => .diverged

/-- A step of any thread but the squaring thread. What is not possible at the moment changes nothing. -/
def step (env : VerifierEnv) (D : ℤ) (r : Routines Form) (s : NWesoSession) : Step → Exec NWesoSession
  | .work w => do
    let nweso ← s.nweso.step r (.work w)
    return { s with nweso := nweso }
  | .wake =>
    match s.manager.phase with
    | .waiting => do
      let nweso ← s.nweso.step r .observe
      { s with nweso := nweso }.manage (.wake nweso.vdfIteration)
    | _ => return s
  | .collect => s.manage .collect
  | .getFinishedSegment =>
    match s.manager.phase with
    | .appending => do
      let nweso ← s.nweso.step r .getFinishedSegment
      return { s with nweso := nweso }
    | _ => return s
  | .append =>
    match s.manager.phase with
    | .appending => do
      let nweso ← appendSegments s.nweso
      { s with nweso := nweso }.manage (.append nweso.intermediatesIter)
    | _ => return s
  | .schedule => s.manage .schedule
  | .request iteration => s.manage (.request iteration)
  | .erase iteration => s.manage (.erase iteration)
  | .read p j i =>
    match s.manager.provers[p]? with
    | some prover => do
      let form ← (InterruptableProver.ofSegment prover.segment.start prover.segment.length).getForm i s.nweso.weso
      return { s with
        read := Function.update s.read prover.segment.key
          (Function.update (s.read prover.segment.key) j
            (Function.update (s.read prover.segment.key j) i (some (form.getD .unset)))) }
    | none => return s
  | .finish p =>
    match s.manager.provers[p]? with
    | some prover => do
      let proof ← s.generate env D prover.segment
      { s with proof := Function.update s.proof prover.segment.key (some proof) }.manage (.finish p)
    | none => return s
  | .fullyFinish p => s.manage (.fullyFinish p)

/-- No lock of the source makes sure of this: a thread asks while its segment is in the sliding window, no worker
of `FastStorage` stores behind a later exponent of the same slot, and none is ahead of the squaring thread. -/
def InTime (s : NWesoSession) : Step → Prop
  | .read p _ _ => ∀ prover, s.manager.provers[p]? = some prover →
    (s.nweso.weso.multiProcMachine = true → NWeso.Timely s.nweso.weso.stored) ∧
      ∀ entry ∈ s.nweso.weso.stored, entry.1.1 = getSegmentBucket prover.segment.length →
        entry.1.2 < prover.segment.start + kWindowSize * prover.segment.length
  | .append => s.nweso.weso.multiProcMachine = true → s.nweso.intermediatesIter ≤ s.nweso.weso.iterations
  | _ => True

def start (weso : FastAlgorithmCallback Form) (maxProvingThreads : ℕ) : NWesoSession where
  nweso := .start weso
  manager := .init weso.segments maxProvingThreads weso.multiProcMachine
  read _ _ _ := none
  proof _ := none

/-- The states of a session whose threads are in time, with the calls that the squaring thread has made. -/
inductive Run (IsPower : ℕ → Form → Prop) (env : VerifierEnv) (D : ℤ) (r : Routines Form) (mode : RepeatedSquare.Mode)
    (segments maxProvingThreads : ℕ) (f : Form) : List (Event Form) → NWesoSession → Prop where
  | start {weso : FastAlgorithmCallback Form} :
    FastAlgorithmCallback.start segments f mode.fastStorage = .done weso →
    Run IsPower env D r mode segments maxProvingThreads f [] (start weso maxProvingThreads)
  | event {sent : List (Event Form)} {s : NWesoSession} {t : NWeso Form} {loop : RepeatedSquare.State Form}
      {event : Event Form} :
    Run IsPower env D r mode segments maxProvingThreads f sent s →
    RepeatedSquare.Reachable IsPower mode r.square f loop → sent ++ [event] <+: loop.events →
    s.nweso.step r (.event event) = .done t →
    Run IsPower env D r mode segments maxProvingThreads f (sent ++ [event]) { s with nweso := t }
  | step {sent : List (Event Form)} {s t : NWesoSession} {next : Step} :
    Run IsPower env D r mode segments maxProvingThreads f sent s → s.InTime next →
    s.step env D r next = .done t → Run IsPower env D r mode segments maxProvingThreads f sent t

/-- The last segment of a proof is squared again from its checkpoint, with a tenth of the forms kept. -/
def lastSegment (env : VerifierEnv) (D : ℤ) (y : Form) (start length : ℕ) : Exec Segment := do
  let L ← mpzRoot4 (-D)
  let (y', intermediates) ← Exec.forLoop length
    (ProverSlow.squareStep env.arith D L 10 (length / 10 + 100)) (y, [])
  let sg : Segment := ⟨UInt64.ofNat start, UInt64.ofNat length, y, y', .unset, false⟩
  let proof ← env.generateProof D sg 10 1 fun _ i => ProverSlow.entry intermediates i
  return { sg with proof := proof }

/-- `Prove`, which has looked up its checkpoint in `weso` and then selected `segments`. -/
def prove (env : VerifierEnv) (D : ℤ) (weso : FastAlgorithmCallback Form)
    (segments : List (ProverManager.Segment Form)) (iteration : ℕ) : Exec ProofBytes := do
  let y := (← weso.getCheckpoint (iteration / 2 ^ 16)).getD .unset
  if iteration % 2 ^ 16 = 0 then env.serializeProof D y (segments.map (·.toSegment))
  else
    let last ← lastSegment env D y (iteration - iteration % 2 ^ 16) (iteration % 2 ^ 16)
    env.serializeProof D last.y (segments.map (·.toSegment) ++ [last])

section Below

variable {env env' : VerifierEnv} {D : ℤ} {r : Routines Form} {s t : NWesoSession}

theorem generate_below (below : env.Below env') (s : NWesoSession) (segment : ProverManager.Segment Form) :
    Exec.Below (generate env D s segment) (generate env' D s segment) := by
  unfold generate
  apply Prover.generateProof_below below

theorem step_below (below : env.Below env') (s : NWesoSession) (next : Step) :
    Exec.Below (s.step env D r next) (s.step env' D r next) := by
  cases next with
  | finish p =>
    simp only [step]
    cases s.manager.provers[p]? with
    | none => rfl
    | some prover => exact (generate_below below s prover.segment).first
  | _ => rfl

/-- A session whose reductions have come back is one of the arithmetic that always comes back. -/
theorem Run.completed {IsPower : ℕ → Form → Prop} {mode : RepeatedSquare.Mode} {segments maxProvingThreads : ℕ}
    {f : Form}
    {sent : List (Event Form)} (run : Run IsPower env D r mode segments maxProvingThreads f sent s) :
    Run IsPower env.completed D r mode segments maxProvingThreads f sent s := by
  induction run with
  | start made => exact .start made
  | event _ reachable sends step ih => exact ih.event reachable sends step
  | @step sent s t next _ inTime step ih => exact ih.step inTime ((step_below env.below_completed s next).done step)

theorem lastSegment_below (below : env.Below env') (y : Form) (start length : ℕ) :
    Exec.Below (lastSegment env D y start length) (lastSegment env' D y start length) := by
  apply Exec.Below.rest
  intro L
  apply (Exec.Below.forLoop _ fun i s => ProverSlow.squareStep_below below.arith L _ _ i s).bind
  intro s
  exact (Prover.generateProof_below below _ _).first

theorem prove_below (below : env.Below env') (weso : FastAlgorithmCallback Form)
    (segments : List (ProverManager.Segment Form)) (iteration : ℕ) :
    Exec.Below (prove env D weso segments iteration) (prove env' D weso segments iteration) := by
  apply Exec.Below.rest
  intro y
  dsimp only
  split_ifs
  · rw [below.serializeProof]
  · apply (lastSegment_below below _ _ _).bind
    intro last
    rw [below.serializeProof]

end Below

end NWesoSession

end ChiaVdf
