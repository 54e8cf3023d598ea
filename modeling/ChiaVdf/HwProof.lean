import Mathlib.NumberTheory.Padics.PadicVal.Defs
import ChiaVdf.FormArithmetic

/-! The intermediate values of a hardware VDF, as `hw_proof.cpp` collects them. The event loop takes
values from the hardware: one that lands on a multiple of the interval is stored as it is, and for the
multiples that were jumped over a work item is queued, which an aux thread turns into values by squaring.
A step of the system is one effect that other threads can see. -/
namespace ChiaVdf

def HW_VDF_VALUE_INTERVAL : ℕ := 4000

def skipThres : ℕ := 10

/-- `mpz_scan1` from bit zero; there is no one in the number zero. -/
def mpzScan1 (n : ℤ) : ℕ := if n = 0 then 2 ^ 64 - 1 else padicValInt 2 n

structure VdfValue where
  iters : ℕ
  a : ℤ
  b : ℤ

structure VdfWork where
  startVal : VdfValue
  startIters : ℕ
  nSteps : ℕ

/-- Where an aux thread is in the loop of `hw_proof_calc_values`. -/
inductive CalcPoint where
  | square
  | store
  | mark
  deriving DecidableEq

/-- The locals of `hw_proof_calc_values`. -/
structure CalcValues where
  f : Form
  iters : ℕ
  nextIters : ℕ
  endIters : ℕ
  point : CalcPoint

inductive AuxThread where
  | idle
  | computeProof
  | start (work : VdfWork)
  | calcValues (worker : CalcValues)

/-- Where the event loop is in `hw_proof_add_value` and what that calls. -/
inductive EventLoop where
  | reading
  | marking (val : VdfValue)
  | addingWork (val : VdfValue)
  | swapping (val : VdfValue)
  | startingProofs
  | startingWork (busy : ℕ → Bool) (i : ℕ)
  | restarting

structure VdfState where
  targetIters : ℕ
  itersOffset : ℕ
  curIters : ℕ
  doneValues : ℕ
  lastVal : VdfValue
  values : ℕ → Option Form
  validValues : ℕ → Bool
  wq : List VdfWork
  nBad : ℕ
  nSkipped : ℕ
  maxAuxThreads : ℕ
  auxThreads : ℕ → AuxThread
  completed : Bool
  eventLoop : EventLoop

/-- The test that a form `(a, b, c)` of the discriminant exists. -/
def verifyVdfValue (D : ℤ) (val : VdfValue) : Bool :=
  val.a ∣ val.b * val.b - D ∧ ¬mpzScan1 (val.b * val.b - D) < mpzScan1 val.a + 2

/-- The multiple of the interval up to which a work item has to go when the value after `iters`
iterations arrives. -/
def endIters (iters : ℕ) : ℕ :=
  let endIters := iters / HW_VDF_VALUE_INTERVAL * HW_VDF_VALUE_INTERVAL
  if iters = endIters ∧ endIters ≠ 0 then endIters - HW_VDF_VALUE_INTERVAL else endIters

namespace AuxThread

/-- The condition of the loop. -/
def again (worker : CalcValues) : AuxThread :=
  if worker.iters < worker.endIters then .calcValues { worker with point := .square } else .idle

end AuxThread

/-- The product of `interval` and `n_steps` has 32 bits. -/
def VdfWork.begin (D : ℤ) (work : VdfWork) : Exec CalcValues := do
  let f ← Form.fromAbd work.startVal.a work.startVal.b D
  return ⟨f, work.startVal.iters, work.startIters,
    (work.startIters + HW_VDF_VALUE_INTERVAL * work.nSteps % 2 ^ 32) % 2 ^ 64, .square⟩

def CalcValues.square (arith : FormArith) (D L : ℤ) (worker : CalcValues) : Exec AuxThread := do
  let f ← arith.nudupl worker.f D L
  let f ← arith.reduce f
  let worker := { worker with f := f, iters := worker.iters + 1 }
  return if worker.iters = worker.nextIters then .calcValues { worker with point := .store }
    else AuxThread.again worker

/-- What a step of an aux thread does to the thread itself. -/
def AuxThread.next (arith : FormArith) (D L : ℤ) : AuxThread → Exec AuxThread
  | idle => .done idle
  | computeProof => .done idle
  | start work => do
    let worker ← work.begin D
    return calcValues worker
  | calcValues worker =>
    match worker.point with
    | .square => worker.square arith D L
    | .store => if worker.f.disc = D then .done (calcValues { worker with point := .mark }) else .fault .assertion
    | .mark => .done (again { worker with nextIters := worker.nextIters + HW_VDF_VALUE_INTERVAL })

namespace VdfState

def setValue (vdf : VdfState) (pos : ℕ) (f : Form) : VdfState :=
  { vdf with values := Function.update vdf.values pos (some f) }

/-- What `hw_proof_add_intermediate` does once the value is in its place. `valid_values` is a vector
of bytes with a bit for each multiple of the interval up to `target_iters`. -/
def addIntermediate (vdf : VdfState) (pos : ℕ) : Exec VdfState :=
  if pos / 8 < (vdf.targetIters / HW_VDF_VALUE_INTERVAL + 1 + 7) / 8 then
    .done { vdf with
      validValues := Function.update vdf.validValues pos true
      doneValues := vdf.doneValues + 1 }
  else .fault .outOfBounds

/-- The part of `hw_proof_handle_value` that comes before the bit of the value is set. -/
def handleValue (D : ℤ) (vdf : VdfState) (val : VdfValue) : Exec VdfState :=
  if val.iters = val.iters / HW_VDF_VALUE_INTERVAL * HW_VDF_VALUE_INTERVAL then do
    let f ← Form.fromAbd val.a val.b D
    return { vdf.setValue (val.iters / HW_VDF_VALUE_INTERVAL) f with eventLoop := .marking val }
  else .done { vdf with eventLoop := .addingWork val }

def reportBadVdfValue (vdf : VdfState) : VdfState :=
  { vdf with nBad := vdf.nBad + 1, eventLoop := .restarting }

/-- The hardware counts from the form it was started with. -/
def totalIters (vdf : VdfState) (val : VdfValue) : ℕ := (val.iters + vdf.itersOffset) % 2 ^ 64

def addValue (D : ℤ) (vdf : VdfState) (val : VdfValue) : Exec VdfState :=
  let iters := vdf.totalIters val
  if iters = vdf.itersOffset ∨ iters = vdf.lastVal.iters then
    if vdf.nSkipped + 1 > skipThres then .done { vdf with nSkipped := 0, eventLoop := .restarting }
    else .done { vdf with nSkipped := vdf.nSkipped + 1 }
  else
    let vdf := { vdf with nSkipped := 0 }
    if val.a = 0 then .done vdf.reportBadVdfValue
    else do
      let b ← mpzMod val.b (2 * val.a)
      if verifyVdfValue D ⟨iters, val.a, b⟩ then vdf.handleValue D ⟨iters, val.a, b⟩
      else .done vdf.reportBadVdfValue

/-- The first multiple of the interval behind the last value. -/
def startIters (vdf : VdfState) : ℕ :=
  vdf.lastVal.iters / HW_VDF_VALUE_INTERVAL * HW_VDF_VALUE_INTERVAL + HW_VDF_VALUE_INTERVAL

/-- The number of steps has 32 bits. -/
def addWork (vdf : VdfState) (val : VdfValue) : Exec VdfState :=
  if endIters val.iters ≠ 0 ∧ vdf.startIters ≤ endIters val.iters then
    if vdf.startIters > vdf.targetIters then .fault .assertion
    else .done { vdf with
      wq := vdf.wq ++ [⟨vdf.lastVal, vdf.startIters,
        (endIters val.iters - vdf.startIters) / HW_VDF_VALUE_INTERVAL % 2 ^ 32⟩]
      eventLoop := .swapping val }
  else .done { vdf with eventLoop := .swapping val }

def swapValue (vdf : VdfState) (val : VdfValue) : VdfState :=
  { vdf with
    curIters := val.iters
    lastVal := val
    completed := vdf.completed || val.iters ≥ vdf.targetIters
    eventLoop := .startingProofs }

/-- `aux_threads_busy`. -/
def auxThreadsBusy (vdf : VdfState) (i : ℕ) : Bool :=
  match vdf.auxThreads i with
  | .idle => false
  | _ => true

def setAuxThread (vdf : VdfState) (i : ℕ) (thread : AuxThread) : VdfState :=
  { vdf with auxThreads := Function.update vdf.auxThreads i thread }

/-- A turn of the loop of `hw_proof_process_work` that hands out work. -/
def startWork (vdf : VdfState) (busy : ℕ → Bool) (i : ℕ) : VdfState :=
  if i < vdf.maxAuxThreads then
    if busy i then { vdf with eventLoop := .startingWork busy (i + 1) }
    else match vdf.wq with
      | [] => { vdf with eventLoop := .reading }
      | work :: wq => { vdf.setAuxThread i (.start work) with
          wq := wq
          eventLoop := .startingWork busy (i + 1) }
  else { vdf with eventLoop := .reading }

/-- The loop of `hw_proof_last_good_form`. -/
def lastGoodPos (vdf : VdfState) : ℕ → Exec ℕ
  | 0 => if vdf.validValues 0 then .done 0 else .fault .outOfBounds
  | pos + 1 => if vdf.validValues (pos + 1) then .done (pos + 1) else vdf.lastGoodPos pos

def restart (vdf : VdfState) : Exec VdfState := do
  let pos ← vdf.lastGoodPos (vdf.curIters / HW_VDF_VALUE_INTERVAL)
  return { vdf with itersOffset := pos * HW_VDF_VALUE_INTERVAL, eventLoop := .reading }

/-- What a step of an aux thread writes. -/
def auxWrite (vdf : VdfState) : AuxThread → Exec VdfState
  | .calcValues worker =>
    match worker.point with
    | .square => .done vdf
    | .store => .done (vdf.setValue (worker.iters / HW_VDF_VALUE_INTERVAL) worker.f)
    | .mark => vdf.addIntermediate (worker.iters / HW_VDF_VALUE_INTERVAL)
  | _ => .done vdf

def auxStep (arith : FormArith) (D L : ℤ) (vdf : VdfState) (i : ℕ) : Exec VdfState := do
  let thread ← (vdf.auxThreads i).next arith D L
  let vdf ← vdf.auxWrite (vdf.auxThreads i)
  return vdf.setAuxThread i thread

/-- A step of the event loop that needs nothing from the hardware. Which proofs are started does not
depend on the values, so that is an event of its own. -/
def loopStep (vdf : VdfState) : Exec VdfState :=
  match vdf.eventLoop with
  | .reading => .done vdf
  | .marking val => do
    let vdf ← vdf.addIntermediate (val.iters / HW_VDF_VALUE_INTERVAL)
    return { vdf with eventLoop := .addingWork val }
  | .addingWork val => vdf.addWork val
  | .swapping val => .done (vdf.swapValue val)
  | .startingProofs => .done { vdf with eventLoop := .startingWork vdf.auxThreadsBusy 0 }
  | .startingWork busy i => .done (vdf.startWork busy i)
  | .restarting => vdf.restart

inductive Event where
  | value (val : VdfValue)
  | loop
  | startProof (i : ℕ)
  | aux (i : ℕ)

def step (arith : FormArith) (D L : ℤ) (vdf : VdfState) : Event → Exec VdfState
  | .value val =>
    match vdf.eventLoop with
    | .reading => vdf.addValue D val
    | _ => .done vdf
  | .loop => vdf.loopStep
  | .startProof i =>
    match vdf.eventLoop with
    | .startingProofs => .done (if vdf.auxThreadsBusy i then vdf else vdf.setAuxThread i .computeProof)
    | _ => .done vdf
  | .aux i => vdf.auxStep arith D L i

/-- `init_vdf_state`, for the pair that the initial form was read as. -/
def initVdfState (D : ℤ) (nIters maxAuxThreads : ℕ) (a b : ℤ) : Exec VdfState := do
  let f ← Form.fromAbd a b D
  return {
    targetIters := (nIters + HW_VDF_VALUE_INTERVAL - 1) % 2 ^ 64 /
      HW_VDF_VALUE_INTERVAL * HW_VDF_VALUE_INTERVAL
    itersOffset := 0
    curIters := 0
    doneValues := 1
    lastVal := ⟨0, a, b⟩
    values := Function.update (fun _ => none) 0 (some f)
    validValues := Function.update (fun _ => false) 0 true
    wq := []
    nBad := 0
    nSkipped := 0
    maxAuxThreads := maxAuxThreads
    auxThreads := fun _ => .idle
    completed := false
    eventLoop := .reading }

end VdfState

end ChiaVdf
