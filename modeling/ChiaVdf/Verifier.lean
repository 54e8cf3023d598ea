import ChiaVdf.FormArithmetic
import ChiaVdf.FormEncoding
import ChiaVdf.HashPrime

/-! The n-Wesolowski verifier of `verifier.h` and its three entry points. The arithmetic on
forms and `HashPrime` are parameters. -/
namespace ChiaVdf

/-- What the verifier is built on: the arithmetic, and `HashPrime` on the bytes of two forms. -/
structure VerifierEnv where
  arith : FormArith
  hashPrime : ByteString → Exec ℤ

/-- A read of `size` bytes at `offset` stays inside the buffer. -/
def readBytes (buffer : ByteString) (offset size : ℕ) : Exec ByteString :=
  if offset + size ≤ buffer.length then .done ((buffer.drop offset).take size)
  else .fault .outOfBounds

/-- `DeserializeForm` on the bytes from `offset` on, not strict. -/
def deserializeAt (D : ℤ) (buffer : ByteString) (offset : ℕ) : Exec Form := do
  let bytes ← readBytes buffer offset BQFC_FORM_SIZE
  deserializeForm D bytes false

/-- `BytesToInt64`, big endian. -/
def bytesToInt64 (buffer : ByteString) (offset : ℕ) : Exec UInt64 := do
  let bytes ← readBytes buffer offset 8
  return UInt64.ofNat (ByteString.ofMsbFirst bytes)

/-- `integer(const uint8_t*, size_t)`, big endian. -/
def integerOfBytes (buffer : ByteString) (offset size : ℕ) : Exec ℤ := do
  let bytes ← readBytes buffer offset size
  return ByteString.ofMsbFirst bytes

/-- `FastPow(2, b, c)`. -/
def fastPow (b : UInt64) (c : ℤ) : Exec ℤ :=
  if c = 0 then .thrown "Division by 0" else mpzPowmUi 2 b.toNat c

namespace VerifierEnv

variable (env : VerifierEnv)

def getB (D : ℤ) (x y : Form) : Exec ℤ := do
  let serialization ← serializeForm x (numBits D)
  let serializationY ← serializeForm y (numBits D)
  env.hashPrime (serialization ++ serializationY)

/-- `pi^B * x^(2^iters mod B)`, the end of a segment with proof `pi`. -/
def segmentEnd (D : ℤ) (x proof : Form) (B : ℤ) (iters : UInt64) : Exec Form := do
  let L ← mpzRoot4 (-D)
  let r ← fastPow iters B
  let f1 ← env.arith.fastPowFormNucomp proof D B L
  let f2 ← env.arith.fastPowFormNucomp x D r L
  Form.multiply f1 f2

/-- The return code and `out_y`. -/
def verifyWesoSegment (D : ℤ) (x proof : Form) (B : ℤ) (iters : UInt64) : Exec (ℤ × Form) := do
  let outY ← env.segmentEnd D x proof B iters
  let hash ← env.getB D x outY
  return (if B = hash then 0 else -1, outY)

def verifyWesolowskiProof (D : ℤ) (x y proof : Form) (iters : UInt64) : Exec Bool := do
  let L ← mpzRoot4 (-D)
  let B ← env.getB D x y
  let r ← fastPow iters B
  let f1 ← env.arith.fastPowFormNucomp proof D B L
  let f2 ← env.arith.fastPowFormNucomp x D r L
  let product ← Form.multiply f1 f2
  return product = y

/-- The last relation is a hash and the end of a segment. -/
theorem verifyWesolowskiProof_eq {D L : ℤ} (root : mpzRoot4 (-D) = .done L) (x y proof : Form) (iters : UInt64) :
    env.verifyWesolowskiProof D x y proof iters = do
      let B ← env.getB D x y
      let product ← env.segmentEnd D x proof B iters
      return product = y := by
  simp only [verifyWesolowskiProof, segmentEnd, root, Exec.done_bind, bind_assoc]

def segmentLen : ℕ := 8 + B_bytes + BQFC_FORM_SIZE

/-- The next `x` of the walk, or nothing when the segment is refused. -/
def nextForm (skipCheck : Bool) (D : ℤ) (x proof : Form) (B : ℤ) (iters : UInt64) :
    Exec (Option Form) :=
  if skipCheck then do
    let xnew ← env.segmentEnd D x proof B iters
    return some xnew
  else do
    let (ret, xnew) ← env.verifyWesoSegment D x proof B iters
    return if ret ≠ 0 then none else some xnew

/-- The `while` loop that all entry points contain: from offset `i` down to `base`, the form
reached and the iterations left. Nothing where the source returns false. -/
def walkSegments (skipCheck : Bool) (D : ℤ) (blob : ByteString) (base : ℕ) :
    ℕ → ℕ → Form → UInt64 → Exec (Option (Form × UInt64))
  | 0, _, _, _ => .diverged
  | fuel + 1, i, x, iterations =>
    if i > base then do
      let i := i - segmentLen
      let segmentIters ← bytesToInt64 blob i
      let proof ← deserializeAt D blob (i + 8 + B_bytes)
      let B ← integerOfBytes blob (i + 8) B_bytes
      match ← env.nextForm skipCheck D x proof B segmentIters with
      | none => return none
      | some xnew =>
        if segmentIters > iterations then return none
        else walkSegments skipCheck D blob base fuel i xnew (iterations - segmentIters)
    else .done (some (x, iterations))

end VerifierEnv

section Related

variable {R : ∀ γ : Type, (ℕ → Exec γ) → Exec γ → Prop} {arith : ℕ → FormArith} {limit : FormArith} {D : ℤ}

theorem FormArith.Related.segmentEnd (related : Related R arith limit)
    (hashPrime hashPrime' : ByteString → Exec ℤ) (x proof : Form) (B : ℤ) (iters : UInt64) :
    R Form (fun turns => VerifierEnv.segmentEnd ⟨arith turns, hashPrime⟩ D x proof B iters)
      (VerifierEnv.segmentEnd ⟨limit, hashPrime'⟩ D x proof B iters) := by
  apply related.rest
  intro L
  apply related.rest
  intro r
  apply related.bind (related.fastPow proof D B L)
  intro f1
  exact related.first (related.fastPow x D r L)

end Related

def isDiscSizeBitsInRange (discSizeBits : UInt64) : Bool :=
  0 < discSizeBits ∧ discSizeBits.toNat ≤ BQFC_MAX_D_BITS

def isDiscriminantInRange (D : ℤ) : Bool := 0 < numBits D ∧ numBits D ≤ BQFC_MAX_D_BITS

/-- `SIZE_MAX`. -/
def sizeMax : ℕ := 2 ^ 64 - 1

open VerifierEnv in
/-- The deepest chain whose length the guard before the length check admits. -/
def maxDepth (base : ℕ) : ℕ := (sizeMax - base) / segmentLen

/-- The length of a chain in `size_t`. -/
def expectedLen (base : ℕ) (depth : UInt64) : ℕ :=
  (base + depth.toNat * VerifierEnv.segmentLen) % 2 ^ 64

namespace VerifierEnv

variable (env : VerifierEnv)

def checkProofOfTimeNWesolowski (D : ℤ) (xS blob : ByteString) (iterations discSizeBits depth : UInt64) :
    Exec Bool :=
  if !isDiscSizeBitsInRange discSizeBits ∨ !isDiscriminantInRange D then .done false
  else
    let baseLen := 2 * BQFC_FORM_SIZE
    if depth.toNat > maxDepth baseLen then .done false
    else if blob.length ≠ expectedLen baseLen depth then .done false
    else do
      let x ← deserializeAt D xS 0
      match ← env.walkSegments false D blob baseLen (blob.length + 1) blob.length x iterations with
      | none => return false
      | some (x, iterations) =>
        let y ← deserializeAt D blob 0
        let proof ← deserializeAt D blob BQFC_FORM_SIZE
        env.verifyWesolowskiProof D x y proof iterations

def checkProofOfTimeNWesolowskiCommon (D : ℤ) (x : Form) (blob : ByteString) (iterations : UInt64)
    (lastSegment : ℕ) (skipCheck : Bool) : Exec (Option (Form × UInt64)) :=
  if blob.length < lastSegment then .done none
  else if (blob.length - lastSegment) % segmentLen ≠ 0 then .done none
  else env.walkSegments skipCheck D blob lastSegment (blob.length + 1) blob.length x iterations

/-- Accepted with the bytes of the form that the proof shows. -/
def checkProofOfTimeNWesolowskiWithB (D B : ℤ) (xS blob : ByteString) (iterations depth : UInt64) :
    Exec (Bool × ByteString) :=
  if !isDiscriminantInRange D then .done (false, [])
  else do
    let x ← deserializeAt D xS 0
    if depth.toNat > maxDepth BQFC_FORM_SIZE ∨ blob.length ≠ expectedLen BQFC_FORM_SIZE depth then
      return (false, [])
    else
      match ← env.checkProofOfTimeNWesolowskiCommon D x blob iterations BQFC_FORM_SIZE false with
      | none => return (false, [])
      | some (x, iterations) =>
        let proof ← deserializeAt D blob 0
        let (ret, y) ← env.verifyWesoSegment D x proof B iterations
        if ret = -1 then return (false, [])
        else
          let result ← serializeForm y (numBits D)
          return (true, result)

def getBFromProof (D : ℤ) (xS blob : ByteString) (iterations depth : UInt64) : Exec ℤ :=
  if !isDiscriminantInRange D then .thrown "Invalid proof."
  else do
    let x ← deserializeAt D xS 0
    if depth.toNat > maxDepth (2 * BQFC_FORM_SIZE) ∨
        blob.length ≠ expectedLen (2 * BQFC_FORM_SIZE) depth then .thrown "Invalid proof."
    else
      match ← env.checkProofOfTimeNWesolowskiCommon D x blob iterations (2 * BQFC_FORM_SIZE) true with
      | none => .thrown "Invalid proof."
      | some (x, _) =>
        let y ← deserializeAt D blob 0
        env.getB D x y

/-- The verifier with the arithmetic that always comes back. -/
def completed : VerifierEnv := { env with arith := env.arith.completed }

/-- The same hash, and each routine of the arithmetic that of the other one unless it does not come back. -/
structure Below (env env' : VerifierEnv) : Prop where
  arith : env.arith.Below env'.arith
  hashPrime : env.hashPrime = env'.hashPrime

theorem below_completed : env.Below env.completed := ⟨env.arith.below_completed, rfl⟩

section Below

variable {env env' : VerifierEnv} {D : ℤ}

theorem Below.getB (below : env.Below env') (D : ℤ) (x y : Form) : env.getB D x y = env'.getB D x y := by
  rw [VerifierEnv.getB, below.hashPrime]
  rfl

theorem Below.segmentEnd (below : env.Below env') (x proof : Form) (B : ℤ) (iters : UInt64) :
    Exec.Below (env.segmentEnd D x proof B iters) (env'.segmentEnd D x proof B iters) :=
  below.arith.related.segmentEnd env.hashPrime env'.hashPrime x proof B iters 0

theorem Below.verifyWesoSegment (below : env.Below env') (x proof : Form) (B : ℤ) (iters : UInt64) :
    Exec.Below (env.verifyWesoSegment D x proof B iters) (env'.verifyWesoSegment D x proof B iters) := by
  simp only [VerifierEnv.verifyWesoSegment, below.getB]
  exact (below.segmentEnd x proof B iters).first

theorem Below.verifyWesolowskiProof (below : env.Below env') (x y proof : Form) (iters : UInt64) :
    Exec.Below (env.verifyWesolowskiProof D x y proof iters) (env'.verifyWesolowskiProof D x y proof iters) := by
  cases root : mpzRoot4 (-D) with
  | done L =>
    rw [verifyWesolowskiProof_eq _ root, verifyWesolowskiProof_eq _ root, below.getB]
    apply Exec.Below.rest
    intro B
    exact (below.segmentEnd x proof B iters).first
  | _ => simp only [VerifierEnv.verifyWesolowskiProof, root]; rfl

theorem Below.nextForm (below : env.Below env') (skipCheck : Bool) (x proof : Form) (B : ℤ) (iters : UInt64) :
    Exec.Below (env.nextForm skipCheck D x proof B iters) (env'.nextForm skipCheck D x proof B iters) := by
  unfold VerifierEnv.nextForm
  split_ifs
  · exact (below.segmentEnd x proof B iters).first
  · exact (below.verifyWesoSegment x proof B iters).first

theorem Below.walkSegments (below : env.Below env') (skipCheck : Bool) (blob : ByteString) (base fuel i : ℕ)
    (x : Form) (iterations : UInt64) :
    Exec.Below (env.walkSegments skipCheck D blob base fuel i x iterations)
      (env'.walkSegments skipCheck D blob base fuel i x iterations) := by
  induction fuel generalizing i x iterations with
  | zero => rfl
  | succ fuel ih =>
    unfold VerifierEnv.walkSegments
    split_ifs
    · apply Exec.Below.rest
      intro segmentIters
      apply Exec.Below.rest
      intro proof
      apply Exec.Below.rest
      intro B
      apply (below.nextForm skipCheck x proof B segmentIters).bind
      intro next
      cases next with
      | none => rfl
      | some xnew =>
        dsimp only
        split_ifs
        · rfl
        · exact ih _ _ _
    · rfl

theorem Below.checkProofOfTimeNWesolowski (below : env.Below env') (xS blob : ByteString)
    (iterations discSizeBits depth : UInt64) :
    Exec.Below (env.checkProofOfTimeNWesolowski D xS blob iterations discSizeBits depth)
      (env'.checkProofOfTimeNWesolowski D xS blob iterations discSizeBits depth) := by
  unfold VerifierEnv.checkProofOfTimeNWesolowski
  split_ifs
  · rfl
  · dsimp only
    split_ifs
    · rfl
    · rfl
    · apply Exec.Below.rest
      intro x
      apply (below.walkSegments false blob _ _ _ x iterations).bind
      intro reached
      cases reached with
      | none => rfl
      | some reached =>
        apply Exec.Below.rest
        intro y
        apply Exec.Below.rest
        intro proof
        exact below.verifyWesolowskiProof reached.1 y proof reached.2

theorem Below.checkProofOfTimeNWesolowskiCommon (below : env.Below env') (x : Form) (blob : ByteString)
    (iterations : UInt64) (lastSegment : ℕ) (skipCheck : Bool) :
    Exec.Below (env.checkProofOfTimeNWesolowskiCommon D x blob iterations lastSegment skipCheck)
      (env'.checkProofOfTimeNWesolowskiCommon D x blob iterations lastSegment skipCheck) := by
  unfold VerifierEnv.checkProofOfTimeNWesolowskiCommon
  split_ifs
  · rfl
  · rfl
  · exact below.walkSegments skipCheck blob _ _ _ x iterations

theorem Below.checkProofOfTimeNWesolowskiWithB (below : env.Below env') (B : ℤ) (xS blob : ByteString)
    (iterations depth : UInt64) : Exec.Below (env.checkProofOfTimeNWesolowskiWithB D B xS blob iterations depth)
      (env'.checkProofOfTimeNWesolowskiWithB D B xS blob iterations depth) := by
  unfold VerifierEnv.checkProofOfTimeNWesolowskiWithB
  split_ifs
  · rfl
  · rfl
  · apply Exec.Below.rest
    intro x
    apply (below.checkProofOfTimeNWesolowskiCommon x blob iterations _ false).bind
    intro reached
    cases reached with
    | none => rfl
    | some reached =>
      apply Exec.Below.rest
      intro proof
      exact (below.verifyWesoSegment reached.1 proof B reached.2).first

theorem Below.getBFromProof (below : env.Below env') (xS blob : ByteString) (iterations depth : UInt64) :
    Exec.Below (env.getBFromProof D xS blob iterations depth) (env'.getBFromProof D xS blob iterations depth) := by
  unfold VerifierEnv.getBFromProof
  split_ifs
  · rfl
  · rfl
  · apply Exec.Below.rest
    intro x
    apply (below.checkProofOfTimeNWesolowskiCommon x blob iterations _ true).bind
    intro reached
    cases reached with
    | none => rfl
    | some reached =>
      apply Exec.Below.rest
      intro y
      rw [below.getB]

end Below

end VerifierEnv

end ChiaVdf
