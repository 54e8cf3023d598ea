import ChiaVdf.RepeatedSquare
import ChiaVdf.SlidingWindow

/-! `FastAlgorithmCallback` of `callback.h`: the checkpoints of an n-weso session, and for each
segment size a sliding window of intermediates. -/
namespace ChiaVdf

def kWindowSize : ℕ := 20

/-- No operation reads `stored`: it lists what was stored in `forms`, newest first, by bucket and
exponent. -/
structure FastAlgorithmCallback (F : Type) where
  segments : ℕ
  multiProcMachine : Bool
  forms : ℕ → Option F
  checkpoints : ℕ → Option F
  yRet : F
  iterations : ℕ
  stored : List ((ℕ × ℕ) × F)

namespace FastAlgorithmCallback

variable {F : Type}

def bucketSize1 : ℕ := 6554
def bucketSize2 : ℕ := 21846
def checkpointsCapacity : ℕ := 2 ^ 18

/-- The entries of `buckets_begin`. -/
def bucketsBegin : ℕ → ℕ
  | 0 => 0
  | 1 => bucketSize1 * kWindowSize
  | i + 2 => bucketsBegin (i + 1) + bucketSize2 * kWindowSize

def bucketSize (bucket : ℕ) : ℕ := if bucket = 0 then bucketSize1 else bucketSize2

def formsCapacity (segments : ℕ) : ℕ := kWindowSize * (bucketSize1 + bucketSize2 * (segments - 1))

/-- `1LL << (16 + 2 * bucket)` -/
def power2 (bucket : ℕ) : Exec ℕ :=
  if 16 + 2 * bucket ≥ 64 then .fault .overflow else .done (1 <<< (16 + 2 * bucket))

/-- The stride: it is narrowed to an `int`, and widened again where it divides a `uint64_t`. -/
def kl (bucket power2 : ℕ) : ℕ :=
  if bucket = 0 then 10 else (Int.bmod (12 * (power2 >>> 18) : ℕ) (2 ^ 32) % 2 ^ 64).toNat

def getPosition (exponent bucket : ℕ) : Exec ℕ := do
  let power2 ← power2 bucket
  if kl bucket power2 = 0 then .fault .divideByZero
  else
    let position := bucketsBegin bucket + exponent / power2 % kWindowSize * bucketSize bucket +
      exponent % power2 / kl bucket power2
    if position ≥ 2 ^ 31 then .fault .overflow else .done position

/-- A place in `forms`. -/
def formAt (exponent bucket segments : ℕ) : Exec ℕ := do
  let pos ← getPosition exponent bucket
  if pos < formsCapacity segments then .done pos else .fault .outOfBounds

/-- The test of the writers: has the bucket a slot for this exponent? -/
def wants (exponent bucket : ℕ) : Exec Bool := do
  let power2 ← power2 bucket
  if kl bucket power2 = 0 then .fault .divideByZero
  else .done (exponent % power2 % kl bucket power2 = 0)

def getForm (exponent bucket : ℕ) (c : FastAlgorithmCallback F) : Exec (Option F) := do
  let pos ← formAt exponent bucket c.segments
  return c.forms pos

def setForms (exponent bucket pos : ℕ) (form : F) (c : FastAlgorithmCallback F) :
    FastAlgorithmCallback F :=
  { c with
    forms := Function.update c.forms pos (some form)
    stored := ((bucket, exponent), form) :: c.stored }

/-- The loop of the constructor over the buckets. -/
def fill (f : F) : ℕ → FastAlgorithmCallback F → FastAlgorithmCallback F
  | 0, c => c
  | i + 1, c => (fill f i c).setForms 0 i (bucketsBegin i) f

def start (segments : ℕ) (f : F) (multiProcMachine : Bool) : Exec (FastAlgorithmCallback F) :=
  if segments < 1 then .thrown "FastAlgorithmCallback requires at least one segment"
  else if bucketsBegin (segments - 1) ≥ 2 ^ 31 then .fault .overflow
  else .done (fill f segments
    ⟨segments, multiProcMachine, fun _ => none, fun i => if i = 0 then some f else none, f, 0, []⟩)

def getCheckpoint (i : ℕ) (c : FastAlgorithmCallback F) : Exec (Option F) :=
  if i < checkpointsCapacity then .done (c.checkpoints i) else .fault .outOfBounds

def setCheckpoint (i : ℕ) (form : F) (c : FastAlgorithmCallback F) : Exec (FastAlgorithmCallback F) :=
  if i < checkpointsCapacity then
    .done { c with checkpoints := Function.update c.checkpoints i (some form) }
  else .fault .outOfBounds

/-- What both writers do for a bucket. -/
def visit (setForm : F → F) (form : F) (iteration bucket : ℕ) (c : FastAlgorithmCallback F) :
    Exec (FastAlgorithmCallback F) := do
  if ← wants iteration bucket then
    let pos ← formAt iteration bucket c.segments
    return c.setForms iteration bucket pos (setForm form)
  else return c

/-- The intermediates of an iteration, unless other threads store them. -/
def keepForms (setForm : F → F) (form : F) (iteration : ℕ) (c : FastAlgorithmCallback F) :
    Exec (FastAlgorithmCallback F) :=
  if c.multiProcMachine then
    .done (if iteration % 2 ^ 15 = 0 then { c with yRet := setForm form } else c)
  else Exec.forLoop c.segments (visit setForm form iteration) c

def onIteration (setForm : F → F) (form : F) (iteration : ℕ) (c : FastAlgorithmCallback F) :
    Exec (FastAlgorithmCallback F) := do
  let iteration := iteration + 1
  let c ← c.keepForms setForm form iteration
  if iteration % 2 ^ 16 = 0 then c.setCheckpoint (iteration / 2 ^ 16) (setForm form) else return c

end FastAlgorithmCallback

end ChiaVdf
