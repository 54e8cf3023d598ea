import ChiaVdf.Exec
import ChiaVdf.SegmentSlots

/-! The event loop of `ProverManager` (`vdf.h`) and the choice of segments in `Prove`. The provers of the
segments run in threads of their own; a prover sets `is_finished` and then `is_fully_finished`, at any time
between two steps of the event loop. -/
namespace ChiaVdf

namespace ProverManager

/-- `struct Segment`. What `Segment()` leaves open is zero or `none`. -/
structure Segment (F : Type) where
  start : ℕ
  length : ℕ
  x : Option F
  y : Option F
  proof : Option F
  isEmpty : Bool
  deriving DecidableEq

namespace Segment

variable {F : Type}

def empty : Segment F := ⟨0, 0, none, none, none, true⟩

def isWorseThan (s other : Segment F) : Bool :=
  if s.isEmpty then !other.isEmpty
  else if s.length > other.length then true
  else if s.length < other.length then false
  else s.start > other.start

end Segment

/-- An `InterruptableProver` with its segment. -/
structure SegmentProver (F : Type) where
  segment : Segment F
  isPaused : Bool
  isFinished : Bool
  isFullyFinished : Bool
  deriving DecidableEq

/-- Where the event loop is. -/
inductive Phase where
  | waiting
  | collecting (i : ℕ) (newSmallSegment : Bool)
  | appending
  | scheduling (activeProvers : ℕ)
  deriving DecidableEq

/-- What the event loop finds: the checkpoints of the VDF, and the proofs that the provers make. -/
structure Forms (F : Type) where
  checkpoints : ℕ → F
  prove : ℕ → ℕ → F

end ProverManager

open ProverManager

/-- The vectors with one entry for each segment length are functions. -/
structure ProverManager (F : Type) where
  segmentCount : ℕ
  multiProcMachine : Bool
  maxProvingThreads : ℕ
  increasedProving : Bool
  provers : List (SegmentProver F)
  pendingSegments : ℕ → List (Segment F)
  lastAppended : ℕ → ℕ
  doneSegments : ℕ → List (Segment F)
  pendingIters : List ℕ
  maxProvingIteration : ℕ
  vdfIteration : ℕ
  phase : Phase

namespace ProverManager

variable {F : Type}

def init (segmentCount maxProvingThreads : ℕ) (multiProcMachine : Bool) : ProverManager F where
  segmentCount := segmentCount
  multiProcMachine := multiProcMachine
  maxProvingThreads := maxProvingThreads
  increasedProving := false
  provers := []
  pendingSegments _ := []
  lastAppended _ := 0
  doneSegments _ := []
  pendingIters := []
  maxProvingIteration := 0
  vdfIteration := 0
  phase := .waiting

/-- The event loop wakes up and looks at the VDF. -/
def wake (m : ProverManager F) (vdfIteration : ℕ) : ProverManager F :=
  let increase := vdfIteration ≥ 500000000 ∧ m.increasedProving = false ∧ m.multiProcMachine = true
  { m with
    vdfIteration := vdfIteration
    maxProvingThreads := if increase then m.maxProvingThreads + 2 else m.maxProvingThreads
    increasedProving := if increase then true else m.increasedProving
    phase := .collecting 0 false }

/-- `done_segments[index]` with a segment at `position`, after as many empty ones as it takes. -/
def record (done : List (Segment F)) (position : ℕ) (segment : Segment F) : List (Segment F) :=
  (done ++ List.replicate (position + 1 - done.length) Segment.empty).set position segment

/-- The number of segments at the front that are not empty, `limit` at most. -/
def countDone : ℕ → List (Segment F) → ℕ
  | 0, _ => 0
  | _, [] => 0
  | limit + 1, segment :: rest => if segment.isEmpty then 0 else countDone limit rest + 1

/-- The loop over the segment lengths that finds how many iterations can be proved. -/
def provable (done : ℕ → List (Segment F)) : ℕ → ℕ → ℕ → ℕ
  | 0, _, iteration => iteration
  | i + 1, proofBlobs, iteration =>
    if proofBlobs < 63 then
      if iteration % segmentSize i ≠ 0 then provable done i proofBlobs iteration
      else
        let count := countDone (63 - proofBlobs) ((done i).drop (iteration / segmentSize i))
        provable done i (proofBlobs + count) (iteration + count * segmentSize i)
    else iteration

/-- The update of `max_proving_iteration` after a segment of 2^16 iterations is done. -/
def updateProving (m : ProverManager F) : ProverManager F :=
  let expected :=
    match (m.doneSegments 0).getLast? with
    | some segment => segment.start + segment.length
    | none => 0
  match m.pendingIters.min? with
  | some best =>
    if expected ≥ best - best % 2 ^ 16 then
      { m with maxProvingIteration := provable m.doneSegments m.segmentCount 0 0 }
    else m
  | none => m

/-- One turn of the loop over `provers`. -/
def collect (forms : Forms F) (m : ProverManager F) (i : ℕ) (newSmallSegment : Bool) : ProverManager F :=
  match m.provers[i]? with
  | none => { (if newSmallSegment then m.updateProving else m) with phase := .appending }
  | some prover =>
    if prover.isFinished then
      let segment := { prover.segment with proof := some (forms.prove prover.segment.start prover.segment.length) }
      let newSmallSegment := newSmallSegment || segment.length == 2 ^ 16
      let index := getSegmentBucket segment.length
      let doneSegments := Function.update m.doneSegments index
        (record (m.doneSegments index) (segment.start / segment.length) segment)
      if prover.isFullyFinished then
        { m with
          doneSegments := doneSegments
          provers := m.provers.eraseIdx i
          phase := .collecting i newSmallSegment }
      else
        { m with
          doneSegments := doneSegments
          provers := m.provers.set i { prover with segment := segment }
          phase := .collecting (i + 1) newSmallSegment }
    else { m with phase := .collecting (i + 1) newSmallSegment }

/-- The segments of one length that have arrived. -/
def newSegments (forms : Forms F) (length intermediatesIter : ℕ) : ℕ → ℕ → List (Segment F)
  | 0, _ => []
  | fuel + 1, last =>
    if last + length ≤ intermediatesIter then
      ⟨last, length, some (forms.checkpoints (last / 2 ^ 16)), some (forms.checkpoints ((last + length) / 2 ^ 16)),
          none, false⟩ ::
        newSegments forms length intermediatesIter fuel (last + length)
    else []

def append (forms : Forms F) (m : ProverManager F) (intermediatesIter : ℕ) : ProverManager F :=
  let arrived i := newSegments forms (segmentSize i) intermediatesIter (intermediatesIter / segmentSize i + 1)
    (m.lastAppended i)
  { m with
    pendingSegments := fun i =>
      if i < m.segmentCount then m.pendingSegments i ++ arrived i else m.pendingSegments i
    lastAppended := fun i =>
      if i < m.segmentCount then m.lastAppended i + (arrived i).length * segmentSize i else m.lastAppended i
    phase := .scheduling (m.provers.countP fun prover => !prover.isPaused) }

/-- Where a segment waits: at a paused prover, or in `pending_segments`. -/
inductive Source where
  | paused (index : ℕ)
  | pending (index : ℕ)
  deriving DecidableEq

/-- The segments that the search for the best one looks at, in its order. -/
def candidates (m : ProverManager F) : List (Segment F × Source) :=
  (m.provers.zipIdx.filterMap fun (prover, i) =>
      if prover.isPaused then some (prover.segment, .paused i) else none) ++
    (List.range m.segmentCount).filterMap fun i => (m.pendingSegments i).head?.map fun segment =>
      (segment, .pending i)

def best (m : ProverManager F) : Segment F × Source :=
  m.candidates.foldl (fun best new => if best.1.isWorseThan new.1 then new else best) (Segment.empty, .pending 0)

/-- The worst segment of a running prover, with the index of the prover. -/
def worstRunning (m : ProverManager F) : Segment F × Option ℕ :=
  (m.provers.zipIdx.filter fun (prover, _) => !prover.isPaused).foldl
    (fun worst new => if worst.1.isEmpty || new.1.segment.isWorseThan worst.1 then (new.1.segment, some new.2)
      else worst) (Segment.empty, none)

def setPaused (m : ProverManager F) (index : ℕ) (isPaused : Bool) : ProverManager F :=
  { m with provers := m.provers.modify index fun prover => { prover with isPaused := isPaused } }

/-- Resumes a paused prover or makes a new one; gives the segments for which it makes one. -/
def spawn (m : ProverManager F) (segment : Segment F) : Source → ProverManager F × List (Segment F)
  | .paused index => (m.setPaused index false, [])
  | .pending index =>
    ({ m with
      provers := m.provers ++ [⟨segment, false, false, false⟩]
      pendingSegments := Function.update m.pendingSegments index (m.pendingSegments index).tail }, [segment])

/-- One turn of the scheduling loop. With no running prover to pause, an index is used that was never set. -/
def schedule (m : ProverManager F) (activeProvers : ℕ) : Exec (ProverManager F × List (Segment F)) :=
  let best := m.best
  if best.1.isEmpty then .done ({ m with phase := .waiting }, [])
  else if activeProvers < m.maxProvingThreads then
    .done ({ m with phase := .scheduling (activeProvers + 1) }.spawn best.1 best.2)
  else
    let worst := m.worstRunning
    if worst.1.isWorseThan best.1 then
      match worst.2 with
      | some index => .done ((m.setPaused index true).spawn best.1 best.2)
      | none => .fault .outOfBounds
    else .done ({ m with phase := .waiting }, [])

inductive Event where
  /-- A prover thread sets `is_finished`. -/
  | finish (i : ℕ)
  /-- A prover thread sets `is_fully_finished`. -/
  | fullyFinish (i : ℕ)
  /-- The event loop wakes up. -/
  | wake (vdfIteration : ℕ)
  | collect
  | append (intermediatesIter : ℕ)
  | schedule
  /-- `Prove` adds its iteration to `pending_iters` or takes it away. -/
  | request (iteration : ℕ)
  | erase (iteration : ℕ)
  deriving DecidableEq

/-- A step, with the segments for which it makes provers. What is not possible at the moment changes nothing;
`Prove` and the collecting loop exclude each other by `proof_mutex`. -/
def step (forms : Forms F) (m : ProverManager F) : Event → Exec (ProverManager F × List (Segment F))
  | .finish i =>
    .done ({ m with provers := m.provers.modify i fun prover => { prover with isFinished := true } }, [])
  | .fullyFinish i =>
    .done ({ m with provers := m.provers.modify i fun prover =>
      { prover with isFullyFinished := prover.isFullyFinished || prover.isFinished } }, [])
  | .wake vdfIteration =>
    match m.phase with
    | .waiting => .done (m.wake vdfIteration, [])
    | _ => .done (m, [])
  | .collect =>
    match m.phase with
    | .collecting i newSmallSegment => .done (m.collect forms i newSmallSegment, [])
    | _ => .done (m, [])
  | .append intermediatesIter =>
    match m.phase with
    | .appending => .done (m.append forms intermediatesIter, [])
    | _ => .done (m, [])
  | .schedule =>
    match m.phase with
    | .scheduling activeProvers => m.schedule activeProvers
    | _ => .done (m, [])
  | .request iteration =>
    match m.phase with
    | .collecting _ _ => .done (m, [])
    | _ => .done ({ m with pendingIters := if iteration ∈ m.pendingIters then m.pendingIters
        else iteration :: m.pendingIters }, [])
  | .erase iteration =>
    match m.phase with
    | .collecting _ _ => .done (m, [])
    | _ => .done ({ m with pendingIters := m.pendingIters.erase iteration }, [])

/-- The inner loop of the selection in `Prove`. -/
def selectFrom (size iteration : ℕ) : List (Segment F) → ℕ → List (Segment F) × ℕ
  | [], provedIters => ([], provedIters)
  | segment :: rest, provedIters =>
    if provedIters + size ≤ iteration then
      let (segments, provedIters) := selectFrom size iteration rest (provedIters + size)
      (segment :: segments, provedIters)
    else ([], provedIters)

/-- The selection of the segments of a proof, longest first. -/
def selectLoop (done : ℕ → List (Segment F)) (iteration : ℕ) : ℕ → ℕ → List (Segment F) × ℕ
  | 0, provedIters => ([], provedIters)
  | i + 1, provedIters =>
    let (segments, provedIters) :=
      selectFrom (segmentSize i) iteration ((done i).drop (provedIters / segmentSize i)) provedIters
    let (rest, provedIters) := selectLoop done iteration i provedIters
    (segments ++ rest, provedIters)

/-- The segments with which `Prove` leaves its selection loop, if it does. -/
def select (m : ProverManager F) (iteration : ℕ) : Option (List (Segment F)) :=
  if m.maxProvingIteration ≥ iteration - iteration % 2 ^ 16 then
    let (segments, provedIters) := selectLoop m.doneSegments iteration m.segmentCount 0
    if segments.length > 63 ∨ provedIters < iteration - iteration % 2 ^ 16 then none else some segments
  else none

end ProverManager

end ChiaVdf
