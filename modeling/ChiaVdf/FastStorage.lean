import ChiaVdf.CheckpointFeed
import ChiaVdf.SegmentSlots

/-! An n-weso session: the squaring thread, the six threads of `FastStorage` that compute the
intermediates again, and the event loop that turns finished intermediates into segments. The
threads take turns at single accesses to what they share; a call of `OnIteration` is one access. -/
namespace ChiaVdf

open RepeatedSquare (Event Mode Feed Covered iterations indices lastDelivered submissions
  checkpointInterval)

/-- No operation reads `submitted`, the list of the calls of `SubmitCheckpoint`. -/
structure FastStorage (F : Type) where
  intermediatesStored : ℕ → Bool
  pendingIntermediates : List (ℕ × F)
  intermediatesIter : ℕ
  submitted : List (ℕ × F)

namespace FastStorage

variable {F : Type}

def capacity : ℕ := 2 ^ 19
def intermediatesThreads : ℕ := 6

def start : FastStorage F := ⟨fun _ => false, [], 0, []⟩

def getFlag (i : ℕ) (t : FastStorage F) : Exec Bool :=
  if i < capacity then .done (t.intermediatesStored i) else .fault .outOfBounds

/-- The index is an `int`. The event that tells the event loop is left out: the loop may look at
any time. -/
def addIntermediates (iter : ℕ) (t : FastStorage F) : Exec (FastStorage F) :=
  let bucket := Int.bmod (iter / 2 ^ 16 : ℕ) (2 ^ 32)
  let subbucket := if iter % 2 ^ 16 ≠ 0 then 1 else 0
  if 0 ≤ 2 * bucket + subbucket ∧ 2 * bucket + subbucket < capacity then
    .done { t with intermediatesStored :=
      Function.update t.intermediatesStored (2 * bucket + subbucket).toNat true }
  else .fault .outOfBounds

/-- An entry of a `std::map`. -/
def insert (key : ℕ) (value : F) : List (ℕ × F) → List (ℕ × F)
  | [] => [(key, value)]
  | (key', value') :: entries =>
    if key < key' then (key, value) :: (key', value') :: entries
    else if key = key' then (key, value) :: entries
    else (key', value') :: insert key value entries

def submitCheckpoint (y : F) (iteration : ℕ) (t : FastStorage F) : FastStorage F :=
  { t with
    pendingIntermediates := insert iteration y t.pendingIntermediates
    submitted := t.submitted ++ [(iteration, y)] }

end FastStorage

/-- A thread of `FastStorage`; `bucket` counts the inner loop. -/
inductive Worker (F : Type) where
  | idle
  | busy (y : F) (iterBegin iteration bucket : ℕ)

/-- The squarings of the loop and of the workers, and the copy that the listener reduces. -/
structure Routines (F : Type) where
  square : F → F
  nudupl : F → F
  setForm : F → F

/-- The state of a session. `vdfIteration`, `intermediatesIter` and `lastAppended` belong to the
event loop; `handed` lists the buckets and starts of the segments it made. -/
structure NWeso (F : Type) where
  weso : FastAlgorithmCallback F
  storage : FastStorage F
  workers : Fin FastStorage.intermediatesThreads → Worker F
  vdfIteration : ℕ
  intermediatesIter : ℕ
  lastAppended : ℕ → ℕ
  handed : List (ℕ × ℕ)

namespace NWeso

variable {F : Type}

/-- The squaring thread. -/
def handle (r : Routines F) (event : Event F) (s : NWeso F) : Exec (NWeso F) :=
  match event with
  | .onIteration form iteration => do
    let weso ← s.weso.onIteration r.setForm form iteration
    return { s with weso := weso }
  | .setIterations n => return { s with weso := { s.weso with iterations := n } }
  | .submitCheckpoint n => return { s with storage := s.storage.submitCheckpoint s.weso.yRet n }
  | .newEvent => return s
  | .increaseConstants _ => return s

def setWorker (w : Fin FastStorage.intermediatesThreads) (worker : Worker F) (s : NWeso F) : NWeso F :=
  { s with workers := Function.update s.workers w worker }

/-- A thread of `FastStorage`: waiting for a checkpoint, storing an intermediate, squaring, or
announcing that the intermediates are stored. -/
def work (r : Routines F) (w : Fin FastStorage.intermediatesThreads) (s : NWeso F) : Exec (NWeso F) :=
  match s.workers w with
  | .idle =>
    match s.storage.pendingIntermediates with
    | [] => return s
    | (iterBegin, y) :: entries => return { s with storage :=
        { s.storage with pendingIntermediates := entries } }.setWorker w (.busy y iterBegin iterBegin 0)
  | .busy y iterBegin iteration bucket =>
    if iteration < iterBegin + 2 ^ 15 then
      if bucket < s.weso.segments then do
        let weso ← s.weso.visit id y iteration bucket
        return { s with weso := weso }.setWorker w (.busy y iterBegin iteration (bucket + 1))
      else return s.setWorker w (.busy (r.nudupl y) iterBegin (iteration + 1) 0)
    else do
      let storage ← s.storage.addIntermediates iterBegin
      return { s with storage := storage }.setWorker w .idle

/-- One turn of the loop of `GetFinishedSegment`, which returns when a flag is missing; without
`FastStorage`, what the event loop does instead. -/
def getFinishedSegment (s : NWeso F) : Exec (NWeso F) :=
  if s.weso.multiProcMachine then do
    let i := 2 * (s.storage.intermediatesIter / 2 ^ 16)
    if ← s.storage.getFlag i then
      if ← s.storage.getFlag (i + 1) then
        return { s with storage :=
          { s.storage with intermediatesIter := s.storage.intermediatesIter + 2 ^ 16 } }
      else return { s with intermediatesIter := s.storage.intermediatesIter }
    else return { s with intermediatesIter := s.storage.intermediatesIter }
  else return { s with intermediatesIter := s.vdfIteration }

/-- A new segment of a bucket, if it has arrived. -/
def appendSegment (bucket : ℕ) (s : NWeso F) : Exec (NWeso F) :=
  if bucket < s.weso.segments then do
    let sgLength ← FastAlgorithmCallback.power2 bucket
    if s.lastAppended bucket + sgLength ≤ s.intermediatesIter then do
      let _x ← s.weso.getCheckpoint (s.lastAppended bucket / 2 ^ 16)
      let _y ← s.weso.getCheckpoint ((s.lastAppended bucket + sgLength) / 2 ^ 16)
      return { s with
        handed := s.handed ++ [(bucket, s.lastAppended bucket)]
        lastAppended := Function.update s.lastAppended bucket (s.lastAppended bucket + sgLength) }
    else return s
  else return s

/-- `Prove` looks up its last checkpoint when it has been reached. -/
def prove (iteration : ℕ) (s : NWeso F) : Exec (NWeso F) :=
  if s.vdfIteration ≥ iteration - iteration % 2 ^ 16 then do
    let _y ← s.weso.getCheckpoint (iteration / 2 ^ 16)
    return s
  else return s

inductive Step (F : Type) where
  | event (event : Event F)
  | work (w : Fin FastStorage.intermediatesThreads)
  | observe
  | getFinishedSegment
  | appendSegment (bucket : ℕ)
  | prove (iteration : ℕ)

/-- The threads of `FastStorage` only exist on a machine with many processors. -/
def step (r : Routines F) (s : NWeso F) : Step F → Exec (NWeso F)
  | .event event => s.handle r event
  | .work w => if s.weso.multiProcMachine then s.work r w else return s
  | .observe => return { s with vdfIteration := s.weso.iterations }
  | .getFinishedSegment => s.getFinishedSegment
  | .appendSegment bucket => s.appendSegment bucket
  | .prove iteration => s.prove iteration

/-- `repeated_square` with `fast_algorithm`. -/
def mode (multiProcMachine : Bool) (iterations : ℕ) : Mode := ⟨true, false, multiProcMachine, iterations⟩

def start (weso : FastAlgorithmCallback F) : NWeso F :=
  ⟨weso, FastStorage.start, fun _ => .idle, 0, 0, fun _ => 0, []⟩

/-- The states of a session, with the calls that the squaring thread has made. -/
inductive Reachable (IsPower : ℕ → F → Prop) (r : Routines F) (mode : Mode) (segments : ℕ) (f : F) :
    List (Event F) → NWeso F → Prop where
  | start {weso : FastAlgorithmCallback F} :
    FastAlgorithmCallback.start segments f mode.fastStorage = .done weso →
    Reachable IsPower r mode segments f [] (start weso)
  | event {sent : List (Event F)} {s t : NWeso F} {loop : RepeatedSquare.State F} {event : Event F} :
    Reachable IsPower r mode segments f sent s →
    RepeatedSquare.Reachable IsPower mode r.square f loop → sent ++ [event] <+: loop.events →
    s.step r (.event event) = .done t → Reachable IsPower r mode segments f (sent ++ [event]) t
  | other {sent : List (Event F)} {s t : NWeso F} {next : Step F} :
    Reachable IsPower r mode segments f sent s → (∀ event, next ≠ .event event) →
    s.step r next = .done t → Reachable IsPower r mode segments f sent t

end NWeso

/-- The routines are right on the forms they are meant for. -/
structure Routines.Right {F : Type} (IsPower : ℕ → F → Prop) (r : Routines F) : Prop where
  square : RepeatedSquare.Squares IsPower r.square
  nudupl : RepeatedSquare.Squares IsPower r.nudupl
  setForm : ∀ n f, IsPower n f → IsPower n (r.setForm f)

end ChiaVdf
