import ChiaVdf.Handover
import ChiaVdf.PhasedSquare

/-! The phased squaring of `vdf_fast.h` on two threads, and the same phases on one. Each use of a field of
`square_state_type` is a read or a write of its own; the threads wait for each other by `fence` and
publish by `advance`, and `gcd_unsigned` publishes its entries one by one. -/
namespace ChiaVdf
namespace SquareThreads

open Handover

/-- The two gcds of an iteration. -/
inductive Gcd where
  | gcd10
  | gcdST
  deriving DecidableEq

/-- The numbers of `square_state_type`. Those with a slot are arrays of two; `cofactor0` and `cofactor1`
are what the other thread makes of the entries of a gcd. -/
inductive Number where
  | as (slot : Bool)
  | bs (slot : Bool)
  | gcdAs (g : Gcd) (slot : Bool)
  | gcdBs (g : Gcd) (slot : Bool)
  | cofactor0 (g : Gcd) (slot : Bool)
  | cofactor1 (g : Gcd) (slot : Bool)
  | bB
  | a4
  | bBD
  | c
  | cRemainder
  | cV1
  | bT
  | bTCV1
  | h
  | v1H
  | tTS
  | v02
  | A2
  | sTV0
  | aSTV0
  | t2ASTV0
  | t2
  | t2ASTV0V1
  | e
  | v02H
  | f
  deriving DecidableEq

inductive Field where
  | number (x : Number)
  | abIndex
  | bHigher
  | numValid
  | uvEntry (g : Gcd) (i : ℕ)
  | endIndex (g : Gcd)
  | cofactorIndex (g : Gcd)
  deriving DecidableEq

abbrev Number.U0s : Bool → Number := cofactor0 .gcd10

abbrev Number.U1s : Bool → Number := cofactor1 .gcd10

abbrev Field.kIndex : Field := cofactorIndex .gcd10

abbrev Number.v0s : Bool → Number := cofactor0 .gcdST

abbrev Number.v1s : Bool → Number := cofactor1 .gcdST

abbrev Field.vIndex : Field := cofactorIndex .gcdST

/-- An index is one of two slots; an entry is a matrix and its `exit_flag`. -/
@[reducible] def Value : Field → Type
  | .number _ => ℤ
  | .abIndex => Bool
  | .bHigher => Bool
  | .numValid => ℕ
  | .uvEntry _ _ => GcdUvEntry × Bool
  | .endIndex _ => Bool
  | .cofactorIndex _ => Bool

abbrev Action := Code Value

section Actions

variable {α : Type} (t : Side) (n : ℕ)

/-- What thread `t` wrote to a field for turn `n`. -/
def fetch (field : Field) : Action (Value field) := .read field ⟨t, n⟩ .ret

def put (field : Field) (x : Value field) : Action Unit := .write field n x (.ret ())

def load (x : Number) : Action ℤ := fetch t n (.number x)

def store (x : Number) (v : ℤ) : Action Unit := put n (.number x) v

def fence (value : ℕ) : Action Unit := .fence value (.ret ())

def advance (value : ℕ) : Action Unit := .advance value (.ret ())

/-- A phase that returns false: the thread raises an error. `corruption_flag` is set right before that, if at
all, and nothing is said of what comes after. -/
def giveUp : Action α := .fail

/-- `negate` where the condition holds. -/
def negateIf (condition : Bool) (x : Number) : Action Unit :=
  if condition then do
    let v ← load t n x
    store n x (-v)
  else return

end Actions

def gcdSize : ℕ := 20

def gcdMaxIterations : ℕ := gcdSize * 2

def gcdNumCounter : ℕ := gcdMaxIterations + 1

def counterStartPhase0 : ℕ := 0
def counterStartPhase1 : ℕ := counterStartPhase0 + gcdNumCounter + 1
def counterStartPhase2 : ℕ := counterStartPhase1 + gcdNumCounter + 1
def counterStartPhase3 : ℕ := counterStartPhase2 + 1
def counterStartPhase4 : ℕ := counterStartPhase3 + 1
def counterStartPhase5 : ℕ := counterStartPhase4 + 1

def counterEnd : ℕ := counterStartPhase5

/-- `counter_start` in iteration `n`. -/
def counterStart (n : ℕ) : ℕ := counterEnd * n

/-- What `gcd_unsigned` computes: a matrix and the new numbers for each iteration, and whether it is stuck
behind the last of them. -/
structure GcdSteps where
  steps : List (GcdUvEntry × ℤ × ℤ)
  stuck : Bool

/-- The constants of a run, the gcd, what `mpz_divexact` makes of two numbers, and after which
iterations the listener calls `assign`. -/
structure Setting where
  D : ℤ
  L : ℤ
  gcd : ℤ → ℤ → ℤ → GcdSteps
  divideExact : ℤ → ℤ → ℤ
  listens : ℕ → Bool

/-- The thread that calls `gcd_unsigned`. -/
def Gcd.caller : Gcd → Side
  | gcd10 => .master
  | gcdST => .slave

/-- `counter_start_delta` -/
def Gcd.delta : Gcd → ℕ
  | gcd10 => counterStartPhase0
  | gcdST => counterStartPhase1

section Gcds

variable (g : Gcd) (n : ℕ)

/-- The loop of `gcd_unsigned` from entry `i` on: an entry is written before the counter is. -/
def publish (stuck : Bool) : ℕ → GcdUvEntry → List (GcdUvEntry × ℤ × ℤ) → Action Unit
  | i, entry, [] => do
    put n (.uvEntry g i) (entry, !stuck)
    advance (counterStart n + g.delta + i)
    if stuck then giveUp else return
  | i, entry, step :: steps => do
    put n (.uvEntry g i) (entry, false)
    advance (counterStart n + g.delta + i)
    if i ≥ gcdMaxIterations then giveUp
    else do
      store n (.gcdAs g (i + 1).bodd) step.2.1
      store n (.gcdBs g (i + 1).bodd) step.2.2
      publish stuck (i + 1) step.1 steps

/-- `finish`: the number stays as it is. -/
def finish (t : Side) (x : Number) : Action Unit := do
  let v ← load t n x
  store n x v

/-- `gcd_unsigned` on the numbers in the first slots, of which only the limbs count. Nothing is said of the
second slots, nor of the matrix of the first entry. -/
def gcdUnsigned (p : Setting) (threshold : ℤ) : Action Unit := do
  let a ← load g.caller n (.gcdAs g false)
  let b ← load g.caller n (.gcdBs g false)
  if SquareState.numLimbs a > gcdSize ∨ SquareState.numLimbs b > gcdSize then giveUp
  else do
    store n (.gcdAs g false) |a|
    store n (.gcdBs g false) |b|
    store n (.gcdAs g true) 0
    store n (.gcdBs g true) 0
    let r := p.gcd |a| |b| threshold
    publish g n r.stuck 0 ⟨0, 0, 0, 0, 0⟩ r.steps
    put n (.endIndex g) r.steps.length.bodd
    finish n g.caller (.gcdAs g false)
    finish n g.caller (.gcdAs g true)
    finish n g.caller (.gcdBs g false)
    finish n g.caller (.gcdBs g true)
    advance (counterStart n + g.delta + gcdNumCounter)

/-- One matrix, from the slot `index` to the other one. -/
def matrixMultiply (entry : GcdUvEntry) (index : Bool) : Action Unit := do
  let in0 ← load g.caller.other n (.cofactor0 g index)
  let in1 ← load g.caller.other n (.cofactor1 g index)
  store n (.cofactor0 g !index) (entry.matrixMultiply (in0, in1)).1
  store n (.cofactor1 g !index) (entry.matrixMultiply (in0, in1)).2

/-- The first entry has no matrix. -/
def applyEntry (i : ℕ) (index : Bool) : Action Bool :=
  if i = 0 then return index
  else do
    let entry : GcdUvEntry × Bool ← fetch g.caller n (.uvEntry g i)
    matrixMultiply g n entry.1 index
    return !index

/-- The loop over `get_entry` from entry `i` on, with the entries that there may still be; the result is
the slot of the last product. -/
def applyEntries : ℕ → ℕ → Bool → Action Bool
  | 0, _, _ => giveUp
  | left + 1, i, index => do
    fence (counterStart n + g.delta + i + 1)
    let index ← applyEntry g n i index
    let entry : GcdUvEntry × Bool ← fetch g.caller n (.uvEntry g i)
    if entry.2 then return index else applyEntries left (i + 1) index

end Gcds

section Phases

variable (p : Setting) (n : ℕ)

def phase0Master : Action Unit := do
  fence (counterStart n + counterStartPhase0)
  let i : Bool ← fetch .master n .abIndex
  let j : Bool ← fetch .master n .abIndex
  let a ← load .master n (.as i)
  let b ← load .master n (.bs j)
  if SquareState.phase0Master a b p.L = false then giveUp
  else do
    let bHigher : Bool ← fetch .master n .bHigher
    let x ← load .master n (if bHigher then .bs j else .as i)
    store n (.gcdAs .gcd10 false) x
    let bHigher : Bool ← fetch .master n .bHigher
    let x ← load .master n (if bHigher then .as i else .bs j)
    store n (.gcdBs .gcd10 false) x
    gcdUnsigned .gcd10 n p 0

/-- `c`, as the slave calculates it in each iteration, and as `assign` does. -/
def divideC (t : Side) (i j : Bool) : Action Unit := do
  let b ← load .master n (.bs j)
  store n .bB (b * b)
  let a ← load .master n (.as i)
  store n .a4 (a * 4)
  let bB ← load t n .bB
  store n .bBD (bB - p.D)
  let bBD ← load t n .bBD
  let a4 ← load t n .a4
  store n .c (bBD.fdiv a4)
  store n .cRemainder (bBD.fmod a4)

/-- `U0` and `U1` before the first matrix. -/
def startU (j : Bool) : Action Unit := do
  let higher0 : Bool ← fetch .master n .bHigher
  let higher1 : Bool ← fetch .master n .bHigher
  store n (if higher0 then .U0s false else .U1s false) 1
  store n (if higher1 then .U1s false else .U0s false) 0
  let b ← load .master n (.bs j)
  negateIf .slave n (b < 0) (.U0s false)
  negateIf .slave n (b < 0) (.U1s false)

/-- `k=(-U0*c)%a` -/
def finishK (i k : Bool) : Action Unit := do
  let U0 ← load .slave n (.U0s k)
  let c ← load .slave n .c
  store n (.U0s k) (U0 * c)
  negateIf .slave n true (.U0s k)
  let x ← load .slave n (.U0s k)
  let a ← load .master n (.as i)
  store n (.U0s k) (x % a)

def phase0Slave : Action Unit := do
  fence (counterStart n + counterStartPhase0)
  let i : Bool ← fetch .master n .abIndex
  let j : Bool ← fetch .master n .abIndex
  divideC p n .slave i j
  let remainder ← load .slave n .cRemainder
  if remainder ≠ 0 then giveUp
  else do
    let a ← load .master n (.as i)
    let c ← load .slave n .c
    if a < 0 ∨ c < 0 then giveUp
    else do
      startU n j
      let k ← applyEntries .gcd10 n gcdNumCounter 0 false
      finishK n i k
      put n .kIndex k

def phase1Master : Action Unit := do
  fence (counterStart n + counterStartPhase1)
  store n (.v0s false) 0
  store n (.v1s false) 1
  let v ← applyEntries .gcdST n gcdNumCounter 0 false
  put n .vIndex v

def phase1Slave : Action Unit := do
  fence (counterStart n + counterStartPhase0)
  let i : Bool ← fetch .master n .abIndex
  let k : Bool ← fetch .slave n .kIndex
  let a ← load .master n (.as i)
  store n (.gcdAs .gcdST false) a
  let x ← load .slave n (.U0s k)
  store n (.gcdBs .gcdST false) x
  gcdUnsigned .gcdST n p p.L

/-- `S_negative` -/
def loadSNegative : Action Bool := do
  let v : Bool ← fetch .master n .vIndex
  let v1 ← load .master n (.v1s v)
  return SquareState.sNegative v1

def phase2Master : Action Unit := do
  fence (counterStart n + counterStartPhase1)
  let i : Bool ← fetch .master n .abIndex
  let j : Bool ← fetch .master n .abIndex
  let v : Bool ← fetch .master n .vIndex
  let sNegative ← loadSNegative n
  let c ← load .slave n .c
  let v1 ← load .master n (.v1s v)
  store n .cV1 (c * v1)
  fence (counterStart n + counterStartPhase2)
  let last : Bool ← fetch .slave n (.endIndex .gcdST)
  let b ← load .master n (.bs j)
  let t ← load .slave n (.gcdBs .gcdST last)
  store n .bT (b * t)
  let bT ← load .master n .bT
  let cV1 ← load .master n .cV1
  store n .bTCV1 (bT + cV1)
  let bTCV1 ← load .master n .bTCV1
  let a ← load .master n (.as i)
  store n .h (p.divideExact bTCV1 a)
  negateIf .master n sNegative .h
  let v1 ← load .master n (.v1s v)
  let h ← load .master n .h
  store n .v1H (v1 * h)

def phase2Slave : Action Unit := do
  fence (counterStart n + counterStartPhase1)
  let last : Bool ← fetch .slave n (.endIndex .gcdST)
  let t ← load .slave n (.gcdBs .gcdST last)
  store n .tTS (t * t)
  fence (counterStart n + counterStartPhase2)
  let u : Bool ← fetch .master n .vIndex
  let sNegative ← loadSNegative n
  negateIf .slave n sNegative .tTS
  let v0 ← load .master n (.v0s u)
  store n .v02 (v0 * 2)

def phase3Master : Action Unit := do
  fence (counterStart n + counterStartPhase3)
  let i : Bool ← fetch .master n .abIndex
  let tTS ← load .slave n .tTS
  let v1H ← load .master n .v1H
  store (n + 1) (.as !i) (tTS + v1H)
  let A ← load .master (n + 1) (.as !i)
  store n .A2 (A * 2)

def phase3Slave : Action Unit := do
  fence (counterStart n + counterStartPhase2)
  let i : Bool ← fetch .master n .abIndex
  let j : Bool ← fetch .master n .abIndex
  let last : Bool ← fetch .slave n (.endIndex .gcdST)
  let u : Bool ← fetch .master n .vIndex
  let v : Bool ← fetch .master n .vIndex
  let sNegative ← loadSNegative n
  let t ← load .slave n (.gcdBs .gcdST last)
  let v0 ← load .master n (.v0s u)
  store n .sTV0 (t * v0)
  negateIf .slave n sNegative .sTV0
  let a ← load .master n (.as i)
  let sTV0 ← load .slave n .sTV0
  store n .aSTV0 (a + sTV0)
  let t ← load .slave n (.gcdBs .gcdST last)
  store n .t2 (t * 2)
  let t2 ← load .slave n .t2
  let aSTV0 ← load .slave n .aSTV0
  store n .t2ASTV0 (t2 * aSTV0)
  let t2ASTV0 ← load .slave n .t2ASTV0
  let v1 ← load .master n (.v1s v)
  store n .t2ASTV0V1 (p.divideExact t2ASTV0 v1)
  let b ← load .master n (.bs j)
  let quotient ← load .slave n .t2ASTV0V1
  store n .e (b + quotient)
  negateIf .slave n true .e

/-- The end of an iteration: what it writes is for the next one. -/
def phase4Master : Action Unit := do
  fence (counterStart n + counterStartPhase3)
  let i : Bool ← fetch .master n .abIndex
  let j : Bool ← fetch .master n .abIndex
  let last : Bool ← fetch .master n (.endIndex .gcd10)
  let aEnd ← load .master n (.gcdAs .gcd10 last)
  if aEnd ≠ 1 then giveUp
  else do
    let last : Bool ← fetch .master n (.endIndex .gcd10)
    let bEnd ← load .master n (.gcdBs .gcd10 last)
    if bEnd ≠ 0 then giveUp
    else do
      let v02 ← load .slave n .v02
      let h ← load .master n .h
      store n .v02H (v02 * h)
      fence (counterStart n + counterStartPhase4)
      let e ← load .slave n .e
      let v02H ← load .master n .v02H
      store n .f (e - v02H)
      let f ← load .master n .f
      let A2 ← load .master n .A2
      store (n + 1) (.bs !j) (f % A2)
      let A ← load .master (n + 1) (.as !i)
      store (n + 1) (.as !i) |A|
      let B ← load .master (n + 1) (.bs !j)
      let A ← load .master (n + 1) (.as !i)
      put (n + 1) .bHigher (decide (|B| ≥ |A|))
      let i : Bool ← fetch .master n .abIndex
      put (n + 1) .abIndex !i
      let v : ℕ ← fetch .master n .numValid
      put (n + 1) .numValid (v + 1)

def phase4Slave : Action Unit := return

end Phases

/-- `assign`, which the listener calls on the thread of the master: it writes what is the slave's. -/
def assign (p : Setting) (n : ℕ) : Action (Option (ℤ × ℤ × ℤ × ℕ)) := do
  let v : ℕ ← fetch .master n .numValid
  let i : Bool ← fetch .master n .abIndex
  let j : Bool ← fetch .master n .abIndex
  divideC p n .master i j
  let remainder ← load .master n .cRemainder
  let a ← load .master n (.as i)
  let c ← load .master n .c
  if remainder ≠ 0 ∨ a < 0 ∨ c < 0 then return none
  else do
    let a ← load .master n (.as i)
    let b ← load .master n (.bs j)
    let c ← load .master n .c
    return some (a, b, c, v)

section Threads

variable (p : Setting)

def getCounterStart : ℕ → ℕ
  | 0 => counterStartPhase0
  | 1 => counterStartPhase1
  | 2 => counterStartPhase2
  | 3 => counterStartPhase3
  | _ => counterStartPhase4

def callPhase (n phase : ℕ) : Side → Action Unit
  | .master =>
    match phase with
    | 0 => phase0Master p n
    | 1 => phase1Master n
    | 2 => phase2Master p n
    | 3 => phase3Master n
    | _ => phase4Master n
  | .slave =>
    match phase with
    | 0 => phase0Slave p n
    | 1 => phase1Slave p n
    | 2 => phase2Slave n
    | 3 => phase3Slave p n
    | _ => phase4Slave

def onIteration (t : Side) (n : ℕ) : Action Unit :=
  if t = .master ∧ p.listens n then do
    let _ ← assign p (n + 1)
    return
  else return

def startPhase (n phase : ℕ) : Action Unit := advance (counterStart n + getCounterStart phase)

/-- The phases of an iteration from `phase` on. -/
def phases (t : Side) (n : ℕ) : List ℕ → Action Unit
  | [] => return
  | phase :: rest => do
    startPhase n phase
    callPhase p n phase t
    phases t n rest

/-- `repeated_square_fast_work` from iteration `n` on. -/
def repeatedSquareFastWork (t : Side) : ℕ → ℕ → Action Unit
  | 0, _ => return
  | iterations + 1, n => do
    phases p t n (List.range 5)
    onIteration p t n
    repeatedSquareFastWork t iterations (n + 1)

end Threads

/-- `init`, whatever the other fields are. -/
def init (memory : (field : Field) → Cell (Value field)) (a b : ℤ) :
    (field : Field) → Cell (Value field)
  | .number (.as false) => ⟨a, some ⟨.master, 0⟩⟩
  | .number (.bs false) => ⟨b, some ⟨.master, 0⟩⟩
  | .abIndex => ⟨false, some ⟨.master, 0⟩⟩
  | .bHigher => ⟨decide (|b| ≥ |a|), some ⟨.master, 0⟩⟩
  | .numValid => ⟨0, some ⟨.master, 0⟩⟩
  | field => memory field

/-- The threads of `repeated_square_fast_multithread` before their first step. -/
def multithread (p : Setting) (iterations : ℕ) (memory : (field : Field) → Cell (Value field))
    (a b : ℤ) : State Value where
  memory := init memory a b
  thread t := ⟨repeatedSquareFastWork p t iterations 0, 0, 0⟩
  error := false

section SingleThread

variable (p : Setting)

/-- What is left out once an error is raised. -/
def unlessError (next : Shared Value → Shared Value) (s : Shared Value) : Shared Value :=
  if s.error then s else next s

/-- For gcds, the thread calling `gcd_unsigned` has to go first. -/
def singleThreadMasterFirst (phase : ℕ) : Bool := phase ≠ 1

/-- `c_thread_state` is a copy, so the fence that was passed last is not kept. -/
def singlePhase (n phase : ℕ) (s : Shared Value) : Shared Value :=
  let first : Side := if singleThreadMasterFirst phase then .master else .slave
  let s := (startPhase n phase).alone .master 0 s
  let s := (startPhase n phase).alone .slave 0 s
  let s := (callPhase p n phase first).alone first 0 s
  unlessError ((callPhase p n phase first.other).alone first.other 0) s

def singlePhases (n : ℕ) : List ℕ → Shared Value → Shared Value
  | [], s => s
  | phase :: rest, s => unlessError (singlePhases n rest) (singlePhase p n phase s)

/-- `repeated_square_fast_single_thread` from iteration `n` on. -/
def singleIterations : ℕ → ℕ → Shared Value → Shared Value
  | 0, _, s => s
  | iterations + 1, n, s =>
    unlessError (fun s => singleIterations iterations (n + 1) ((onIteration p .master n).alone .master 0 s))
      (singlePhases p n (List.range 5) s)

def singleThread (iterations : ℕ) (memory : (field : Field) → Cell (Value field)) (a b : ℤ) :
    Shared Value :=
  singleIterations p iterations 0 ⟨init memory a b, fun _ => 0, false⟩

end SingleThread

/-- The `a`, `b` and `num_valid_iterations` that the final `assign` finds. -/
def outcome (memory : (field : Field) → Cell (Value field)) : ℤ × ℤ × ℕ :=
  let i : Bool := (memory .abIndex).value
  ((memory (.number (.as i))).value, (memory (.number (.bs i))).value, (memory .numValid).value)

end SquareThreads
end ChiaVdf
