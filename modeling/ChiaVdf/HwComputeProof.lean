import ChiaVdf.HwJobThread
import ChiaVdf.HwMessage
import ChiaVdf.ProofGenerators
import ChiaVdf.ProverSlow

/-! `hw_compute_proof`: a thread that computes the proof of one segment from the values that are collected, checks it
and writes it into the table. -/
namespace ChiaVdf

open VerifierEnv

def HW_VDF_VALUE_INTERVAL_DIVISORS : List ℕ := [2, 4, 5, 8, 10, 16, 20]

namespace Bqfc

/-- `bqfc_serialize` into an array that holds something else already. -/
def serializeInto (outStr : ByteString) (a b : ℤ) (dBits : ℕ) : Exec (ℤ × ByteString) :=
  let validSize := getComprSize dBits
  if validSize ≤ 0 ∨ validSize > BQFC_FORM_SIZE then .done (-1, outStr)
  else if b = 1 ∧ a ≤ 2 then .done (0, padded [if a = 2 then IS_GEN else IS_1])
  else do
    let c ← compr a b
    let (ret, written) ← serializeOnly c dBits
    return (ret, (written ++ outStr.drop written.length).take validSize.toNat ++
      List.replicate (BQFC_FORM_SIZE - validSize.toNat) 0)

end Bqfc

/-- The arrays of `struct vdf_proof`. -/
structure SegmentBytes where
  y : Vector UInt8 BQFC_FORM_SIZE
  proof : Vector UInt8 BQFC_FORM_SIZE
  B : Vector UInt8 HW_VDF_B_SIZE

/-- An array of `n` bytes. -/
def toArray (n : ℕ) (bytes : ByteString) : Exec (Vector UInt8 n) :=
  if size : bytes.length = n then .done ⟨bytes.toArray, by simpa using size⟩ else .fault .outOfBounds

namespace HwProver

/-- The loop of `FindK`. It ends before the first divisor with which there would be more steps. -/
def findKLoop (iters : ℕ) : ℕ → ℕ → List ℕ → ℕ
  | k, _, [] => k
  | k, nSteps, d :: divisors =>
    let nSteps2 := iters / d + (HW_VDF_VALUE_INTERVAL / d) <<< (d + 1)
    if nSteps2 > nSteps then k else findKLoop iters d nSteps2 divisors

def findK (iters : ℕ) : ℕ :=
  findKLoop iters 1 (iters + HW_VDF_VALUE_INTERVAL * 4) HW_VDF_VALUE_INTERVAL_DIVISORS

variable (env : VerifierEnv) (D : ℤ)

/-- `ParallelProver::GenerateProof` with the form that `GetForm` waits for at a position, which has 32 bits. -/
def generateProof (value : ℕ → Exec Form) (segm : Segment) : Exec Form := do
  let k := findK segm.length.toNat
  let l := HW_VDF_VALUE_INTERVAL / k
  let posOffset := segm.start.toNat / HW_VDF_VALUE_INTERVAL % 2 ^ 32
  let B ← env.getB D segm.x segm.y
  let L ← mpzRoot4 (-D)
  let id ← Form.identity D
  (GroupArith.ofForms env.arith id D L).parallelProof B (fun pos => value (pos + posOffset)) segm.length.toNat k l

/-- `VerifyWesolowskiProof`, where `GetB` reduces the copies that the two ends were passed as. -/
def verifyProof (segm : Segment) : Exec Bool := do
  let x ← segm.x.reduce
  let y ← segm.y.reduce
  env.verifyWesolowskiProof D x y segm.proof segm.length

/-- The loop from the last value before the end of the segment. -/
def squareOn (L : ℤ) (y : Form) (n : ℕ) : Exec Form :=
  Exec.forLoop n (fun _ y => do
    let y ← env.arith.nudupl y D L
    env.arith.reduce y) y

def checkValid (f : Form) : Exec Unit := if f.disc = D then .done () else .fault .assertion

/-- The part of `hw_compute_proof` before the table is written. -/
def computeSegment (value : ℕ → Exec Form) (iters segIters : ℕ) : Exec Segment := do
  let startIters := sub64 iters segIters
  let pos := iters / HW_VDF_VALUE_INTERVAL
  let x ← value (startIters / HW_VDF_VALUE_INTERVAL)
  let y ← value pos
  checkValid D y
  let L ← mpzRoot4 (-D)
  let y ← squareOn env D L y (iters - pos * HW_VDF_VALUE_INTERVAL)
  checkValid D y
  let segm (proof : Form) : Segment :=
    ⟨UInt64.ofNat startIters, UInt64.ofNat (sub64 iters startIters), x, y, proof, false⟩
  let proof ← generateProof env D value (segm ⟨0, 0, 0⟩)
  let isValid ← verifyProof env D (segm proof)
  if isValid then return segm proof else .fault .assertion

/-- `bqfc_serialize` into an entry; what it returns is not looked at. -/
def writeForm (f : Form) (out : Vector UInt8 BQFC_FORM_SIZE) : Exec (Vector UInt8 BQFC_FORM_SIZE) := do
  let (_, bytes) ← Bqfc.serializeInto out.toList f.a f.b (numBits D)
  toArray BQFC_FORM_SIZE bytes

/-- `mpz_export` into an entry. -/
def writeB (B : ℤ) (out : Vector UInt8 HW_VDF_B_SIZE) : Exec (Vector UInt8 HW_VDF_B_SIZE) := do
  let bytes ← HwMessage.blit out.toList 0 (toBytes B)
  toArray HW_VDF_B_SIZE bytes

/-- The part that writes the table. -/
def writeSegment (isReq : Bool) (segm : Segment) (out : SegmentBytes) : Exec SegmentBytes := do
  let y ← writeForm D segm.y out.y
  let proof ← writeForm D segm.proof out.proof
  if isReq then return ⟨y, proof, out.B⟩
  else do
    let B ← env.getB D segm.x segm.y
    let B ← writeB B out.B
    return ⟨y, proof, B⟩

def hwComputeProof (value : ℕ → Exec Form) (iters segIters : ℕ) (isReq : Bool) (out : SegmentBytes) :
    Exec SegmentBytes := do
  let segm ← computeSegment env D value iters segIters
  writeSegment env D isReq segm out

section Below

variable {env env' : VerifierEnv} {D : ℤ}

theorem generateProof_below (below : env.Below env') (value : ℕ → Exec Form) (segm : Segment) :
    Exec.Below (generateProof env D value segm) (generateProof env' D value segm) := by
  simp only [generateProof, below.getB]
  apply Exec.Below.rest
  intro B
  apply Exec.Below.rest
  intro L
  apply Exec.Below.rest
  intro id
  exact (GroupArith.ofForms_below below.arith id D L).parallelProof B _ _ _ _

theorem verifyProof_below (below : env.Below env') (segm : Segment) :
    Exec.Below (verifyProof env D segm) (verifyProof env' D segm) := by
  apply Exec.Below.rest
  intro x
  apply Exec.Below.rest
  intro y
  exact below.verifyWesolowskiProof x y segm.proof segm.length

theorem squareOn_below (below : env.Below env') (L : ℤ) (y : Form) (n : ℕ) :
    Exec.Below (squareOn env D L y n) (squareOn env' D L y n) := by
  apply Exec.Below.forLoop
  intro _ y
  exact (below.arith.nudupl y D L).bind below.arith.reduce

theorem computeSegment_below (below : env.Below env') (value : ℕ → Exec Form) (iters segIters : ℕ) :
    Exec.Below (computeSegment env D value iters segIters) (computeSegment env' D value iters segIters) := by
  apply Exec.Below.rest
  intro x
  apply Exec.Below.rest
  intro y
  apply Exec.Below.rest
  intro _
  apply Exec.Below.rest
  intro L
  apply (squareOn_below below L y _).bind
  intro y
  apply Exec.Below.rest
  intro _
  apply (generateProof_below below value _).bind
  intro proof
  exact (verifyProof_below below _).first

/-- A thread does not come to its end without the check of the proof. -/
theorem computeSegment_verified {value : ℕ → Exec Form} {iters segIters : ℕ} {segm : Segment}
    (run : computeSegment env D value iters segIters = .done segm) : verifyProof env D segm = .done true := by
  obtain ⟨x, -, run⟩ := Exec.bind_eq_done.mp run
  obtain ⟨y, -, run⟩ := Exec.bind_eq_done.mp run
  obtain ⟨-, -, run⟩ := Exec.bind_eq_done.mp run
  obtain ⟨L, -, run⟩ := Exec.bind_eq_done.mp run
  obtain ⟨y', -, run⟩ := Exec.bind_eq_done.mp run
  obtain ⟨-, -, run⟩ := Exec.bind_eq_done.mp run
  obtain ⟨proof, -, run⟩ := Exec.bind_eq_done.mp run
  obtain ⟨valid, checked, run⟩ := Exec.bind_eq_done.mp run
  cases valid with
  | true =>
    obtain rfl := Exec.done.inj run
    exact checked
  | false => cases run

end Below

section FindK

theorem findKLoop_mem (iters k nSteps : ℕ) (divisors : List ℕ) :
    findKLoop iters k nSteps divisors ∈ k :: divisors := by
  induction divisors generalizing k nSteps with
  | nil => simp [findKLoop]
  | cons d divisors ih =>
    simp only [findKLoop]
    split_ifs
    · simp
    · exact List.mem_cons_of_mem _ (ih d _)

/-- Each divisor divides the interval, so that blocks and values come out even. -/
theorem findK_divides (iters : ℕ) : 0 < findK iters ∧ findK iters ≤ 20 ∧
    findK iters * (HW_VDF_VALUE_INTERVAL / findK iters) = HW_VDF_VALUE_INTERVAL := by
  have all : ∀ k ∈ 1 :: HW_VDF_VALUE_INTERVAL_DIVISORS,
      0 < k ∧ k ≤ 20 ∧ k * (HW_VDF_VALUE_INTERVAL / k) = HW_VDF_VALUE_INTERVAL := by decide
  exact all _ (findKLoop_mem ..)

end FindK

section Segment

variable {d : Discriminant} {env : VerifierEnv} {x z z' : ReducedForm d} {value : ℕ → Exec Form} {segm : Segment}
  {first len : ℕ} {P : Form → Prop}

/-- The forms that a thread reads from the first position on up to the last are the right ones, and of the same kind as
those that `reduce` returns. -/
def Finds (P : Form → Prop) (x : ReducedForm d) (value : ℕ → Exec Form) (first last : ℕ) : Prop :=
  ∀ pos, first ≤ pos → pos ≤ last → ∃ f, value pos = .done f ∧
    Represents f (x ^ 2 ^ (pos * HW_VDF_VALUE_INTERVAL)) ∧ P f

theorem checkValid_done {D : ℤ} {f : Form} (disc : f.disc = D) : checkValid D f = .done () := if_pos disc

theorem parallelProof_reduces {forms : FormArith} (lawful : forms.Lawful d) (reduces : forms.ReducesTo d P) {id : Form}
    (identity : Represents id (1 : ReducedForm d)) {T k l B : ℕ} {getForm : ℕ → Exec Form}
    (fits : GroupArith.FitsWords T k l) (pos : 0 < B)
    (given : GroupArith.Given (fun f (y : ReducedForm d) => Represents f y) z T k l getForm) {proof : Form}
    (run : (GroupArith.ofForms forms id d.D d.L).parallelProof B getForm T k l = .done proof) : P proof := by
  have group := GroupArith.ofForms_lawful lawful identity
  obtain ⟨x0, run0, rep0⟩ := GroupArith.provePart_spec group fits pos given l (l / 2) le_rfl (Nat.div_le_self l 2)
  obtain ⟨x1, run1, rep1⟩ := GroupArith.provePart_spec group fits pos given (l - l / 2) (l - l / 2)
    (Nat.sub_le l _) le_rfl
  obtain ⟨h, product, rep⟩ := group.nucomp rep0 rep1
  simp only [GroupArith.parallelProof, run0, run1, product, Exec.done_bind] at run
  exact reduces h proof _ rep run

variable (segm) in
theorem generateProof_spec (bits : numBits d.D ≤ BQFC_MAX_D_BITS) (lawful : env.arith.Lawful d)
    (reduces : env.arith.ReducesTo d P) (top : HashTopBit env)
    (start : segm.start.toNat = first * HW_VDF_VALUE_INTERVAL)
    (length : segm.length.toNat = len) (small : first * HW_VDF_VALUE_INTERVAL + len < 2 ^ 43)
    (finds : Finds P x value first ((first * HW_VDF_VALUE_INTERVAL + len) / HW_VDF_VALUE_INTERVAL))
    (repX : Represents segm.x (x ^ 2 ^ (first * HW_VDF_VALUE_INTERVAL)))
    (repY : Represents segm.y (x ^ 2 ^ (first * HW_VDF_VALUE_INTERVAL + len))) :
    ∃ proof B, generateProof env d.D value segm = .done proof ∧
      HashesTo env (x ^ 2 ^ (first * HW_VDF_VALUE_INTERVAL)) (x ^ 2 ^ (first * HW_VDF_VALUE_INTERVAL + len)) B ∧
      Represents proof ((x ^ 2 ^ (first * HW_VDF_VALUE_INTERVAL)) ^ (2 ^ len / B)) ∧ P proof := by
  obtain ⟨B, hash, low⟩ := top.hashes bits (x ^ 2 ^ (first * HW_VDF_VALUE_INTERVAL))
    (x ^ 2 ^ (first * HW_VDF_VALUE_INTERVAL + len))
  have get : env.getB d.D segm.x segm.y = .done B := (repX.getB repY).trans hash
  obtain ⟨kpos, ks, product⟩ := findK_divides len
  have offset : segm.start.toNat / HW_VDF_VALUE_INTERVAL % 2 ^ 32 = first := by
    rw [start, Nat.mul_div_cancel first (by decide)]
    apply Nat.mod_eq_of_lt
    simp only [HW_VDF_VALUE_INTERVAL] at small
    omega
  have last (i : ℕ) (inside : i < (len + HW_VDF_VALUE_INTERVAL - 1) / HW_VDF_VALUE_INTERVAL) :
      i + first ≤ (first * HW_VDF_VALUE_INTERVAL + len) / HW_VDF_VALUE_INTERVAL := by
    simp only [HW_VDF_VALUE_INTERVAL] at inside ⊢
    omega
  have fits : GroupArith.FitsWords len (findK len) (HW_VDF_VALUE_INTERVAL / findK len) := by
    have positive : 0 < findK len * (HW_VDF_VALUE_INTERVAL / findK len) := product.symm ▸ by decide
    refine ⟨kpos, Nat.pos_of_mul_pos_left positive, by omega, product.symm ▸ by decide, ?_⟩
    rw [product, HW_VDF_VALUE_INTERVAL]
    omega
  have given : GroupArith.Given (fun f (y : ReducedForm d) => Represents f y) (x ^ 2 ^ (first * HW_VDF_VALUE_INTERVAL))
      len (findK len) (HW_VDF_VALUE_INTERVAL / findK len) fun pos => value (pos + first) := by
    intro i begins
    have inside := fits.index_lt begins
    rw [product] at inside ⊢
    obtain ⟨f, read, rep, -⟩ := finds (i + first) (Nat.le_add_left _ _) (last i inside)
    refine ⟨f, read, ?_⟩
    rwa [Nat.add_comm, Nat.add_mul, pow_add, pow_mul] at rep
  have large : 2 ^ findK len ≤ B := (Nat.pow_le_pow_right (by norm_num) (by omega)).trans low
  have identity := ReducedForm.represents (1 : ReducedForm d)
  obtain ⟨proof, run, rep⟩ := GroupArith.parallelProof_spec (GroupArith.ofForms_lawful lawful identity) fits large given
  refine ⟨proof, B, ?_, hash, rep, parallelProof_reduces lawful reduces identity fits (by omega) given run⟩
  simp only [generateProof, length, offset, get, mpzRoot4_neg_D, identity_run, Exec.done_bind]
  exact run

theorem squareOn_spec (lawful : env.arith.Lawful d) (reduces : env.arith.ReducesTo d P) {y : Form} {iters : ℕ}
    (rep : Represents y (x ^ 2 ^ iters)) (nearly : P y) (n : ℕ) :
    ∃ y', squareOn env d.D d.L y n = .done y' ∧ Represents y' (x ^ 2 ^ (iters + n)) ∧ P y' := by
  apply Exec.forLoop_done fun i y' => Represents y' (x ^ 2 ^ (iters + i)) ∧ P y'
  · exact ⟨rep, nearly⟩
  · intro i _ f inv
    obtain ⟨g, h, squared, reduced, rep', nearly'⟩ := lawful.square_done reduces inv.1
    exact ⟨h, by simp [squared, reduced], rep', nearly'⟩

theorem verifyProof_done (lawful : env.arith.Lawful d) (top : HashTopBit env) (honest : HonestSegment env z z' segm) :
    verifyProof env d.D segm = .done true := by
  obtain ⟨B, hash, rep⟩ := honest.proof
  have positive := hash.pos top.positive
  obtain ⟨f1, power, rep1⟩ := lawful.fastPow_nat rep B
  obtain ⟨f2, rest, rep2⟩ := lawful.fastPow_nat z.represents (2 ^ segm.length.toNat % B)
  simp only [verifyProof, honest.x.reduce, honest.y.reduce, Exec.done_bind]
  apply verifyWesolowskiProof_done.mpr
  refine ⟨B, hash, ?_⟩
  simp only [segmentEnd, mpzRoot4_neg_D, fastPow_done positive, Exec.done_bind, power, rest, rep1.multiply rep2]
  rw [pow_div_mul_pow_mod, honest.power]

theorem computeSegment_spec (bits : numBits d.D ≤ BQFC_MAX_D_BITS) (lawful : env.arith.Lawful d)
    (reduces : env.arith.ReducesTo d P) (top : HashTopBit env) (small : first * HW_VDF_VALUE_INTERVAL + len < 2 ^ 43)
    (finds : Finds P x value first ((first * HW_VDF_VALUE_INTERVAL + len) / HW_VDF_VALUE_INTERVAL)) :
    ∃ segm, computeSegment env d.D value (first * HW_VDF_VALUE_INTERVAL + len) len = .done segm ∧
      HonestSegment env (x ^ 2 ^ (first * HW_VDF_VALUE_INTERVAL))
        (x ^ 2 ^ (first * HW_VDF_VALUE_INTERVAL + len)) segm ∧
      segm.length = UInt64.ofNat len ∧ P segm.y ∧ P segm.proof := by
  have begins : sub64 (first * HW_VDF_VALUE_INTERVAL + len) len = first * HW_VDF_VALUE_INTERVAL := by
    unfold sub64
    omega
  have goes : sub64 (first * HW_VDF_VALUE_INTERVAL + len) (first * HW_VDF_VALUE_INTERVAL) = len := by
    unfold sub64
    omega
  have place : first * HW_VDF_VALUE_INTERVAL / HW_VDF_VALUE_INTERVAL = first := Nat.mul_div_cancel first (by decide)
  have start : (UInt64.ofNat (first * HW_VDF_VALUE_INTERVAL)).toNat = first * HW_VDF_VALUE_INTERVAL :=
    UInt64.toNat_ofNat_of_lt' (show _ < 2 ^ 64 by omega)
  have length : (UInt64.ofNat len).toNat = len := UInt64.toNat_ofNat_of_lt' (show _ < 2 ^ 64 by omega)
  have inside : first ≤ (first * HW_VDF_VALUE_INTERVAL + len) / HW_VDF_VALUE_INTERVAL :=
    place.ge.trans (Nat.div_le_div_right (Nat.le_add_right ..))
  obtain ⟨fx, readX, repX, -⟩ := finds first le_rfl inside
  obtain ⟨fy, readY, repLast, nearlyLast⟩ := finds _ inside le_rfl
  obtain ⟨y, squared, repY, nearlyY⟩ := squareOn_spec lawful reduces repLast nearlyLast
    (first * HW_VDF_VALUE_INTERVAL + len -
      (first * HW_VDF_VALUE_INTERVAL + len) / HW_VDF_VALUE_INTERVAL * HW_VDF_VALUE_INTERVAL)
  rw [Nat.add_sub_cancel' (Nat.div_mul_le_self ..)] at repY
  obtain ⟨proof, B, run, hash, rep, nearly⟩ := generateProof_spec
    ⟨UInt64.ofNat (first * HW_VDF_VALUE_INTERVAL), UInt64.ofNat len, fx, y, ⟨0, 0, 0⟩, false⟩
    bits lawful reduces top start length small finds repX repY
  have honest : HonestSegment env (x ^ 2 ^ (first * HW_VDF_VALUE_INTERVAL))
      (x ^ 2 ^ (first * HW_VDF_VALUE_INTERVAL + len))
      ⟨UInt64.ofNat (first * HW_VDF_VALUE_INTERVAL), UInt64.ofNat len, fx, y, proof, false⟩ := by
    refine ⟨repX, repY, ?_, B, hash, ?_⟩
    · rw [length, ← pow_mul, ← pow_add]
    · rwa [length]
  refine ⟨_, ?_, honest, rfl, nearlyY, nearly⟩
  simp only [computeSegment, begins, goes, place, readX, readY, checkValid_done repLast.disc, mpzRoot4_neg_D, squared,
    checkValid_done repY.disc, run, verifyProof_done lawful top honest, Exec.done_bind, if_true, Exec.pure_eq]

end Segment

section Written

variable {d : Discriminant} {env : VerifierEnv} {x z z' : ReducedForm d} {f : Form} {segm : Segment} {dBits : ℕ}
    {a b : ℤ}
  {s : ByteString}

/-- The one form of small coefficients that is not reduced, and that is not written as anything that can be read. -/
def Settled (f : Form) : Prop := ¬(f.a = 1 ∧ f.b = -1)

instance (f : Form) : Decidable (Settled f) := inferInstanceAs (Decidable ¬_)

theorem one_of_mul_eq_prime {m n : ℤ} (mpos : 0 < m) (npos : 0 < n) (product : m * n = d.p) : m = 1 ∨ n = 1 := by
  lift m to ℕ using mpos.le
  lift n to ℕ using npos.le
  have product : m * n = d.p := by exact_mod_cast product
  rcases Nat.prime_mul_iff.mp (product ▸ d.prime) with ⟨-, one⟩ | ⟨-, one⟩
  · simp [one]
  · simp [one]

/-- Of a prime discriminant there is no other form whose sign is open. -/
theorem reduced_of_settled (rep : Represents f x) (nearly : NearlyReduced f) (settled : Settled f) : f.Reduced := by
  obtain ⟨le, le'⟩ := nearly
  obtain ⟨above, below⟩ := abs_le.mp le
  have pos := rep.pos
  have disc : f.b ^ 2 - 4 * f.a * f.c = -d.p := rep.disc
  refine ⟨lt_of_le_of_ne above fun same => ?_, below, le', fun equal => not_lt.mp fun negative => ?_⟩
  · have product : f.a * (4 * f.c - f.a) = d.p := by
      rw [← same] at disc
      linear_combination -disc
    rcases one_of_mul_eq_prime pos (by omega) product with one | one
    · exact settled ⟨one, by omega⟩
    · omega
  · have product : (2 * f.a + f.b) * (2 * f.a - f.b) = d.p := by
      rw [← equal] at disc
      linear_combination -disc
    rcases one_of_mul_eq_prime (by omega) (by omega) product with one | one
    · exact settled ⟨by omega, by omega⟩
    · omega

theorem eq_of_settled (rep : Represents f x) (nearly : NearlyReduced f) (settled : Settled f) : f = x.form := by
  have reduced := Form.reduce_of_reduced (reduced_of_settled rep nearly settled)
  exact Exec.done.inj (reduced.symm.trans rep.reduce)

theorem check_of_verifyProof (honest : HonestSegment env z z' segm) (nearly : NearlyReduced segm.proof)
    (settled : Settled segm.proof) (run : verifyProof env d.D segm = .done true) :
    ∃ f, env.checkSegment d.D segm = .done f := by
  obtain ⟨B, hash, rep⟩ := honest.proof
  have proof := eq_of_settled rep nearly settled
  simp only [verifyProof, honest.x.reduce, honest.y.reduce, Exec.done_bind,
    verifyWesolowskiProof_eq env (mpzRoot4_neg_D d)] at run
  obtain ⟨B', get, run⟩ := Exec.bind_eq_done.mp run
  obtain ⟨f, ends, -⟩ := Exec.bind_eq_done.mp run
  rw [proof] at ends
  refine ⟨f, ?_⟩
  simp only [VerifierEnv.checkSegment, honest.x.reduce, rep.reduce, honest.x.getB honest.y, get, Exec.done_bind, ends]

theorem serializeInto_done (pos : 0 < dBits) (le : dBits ≤ BQFC_MAX_D_BITS) (outStr : ByteString)
    (run : Bqfc.serialize a b dBits = .done (0, s)) : Bqfc.serializeInto outStr a b dBits = .done (0, s) := by
  by_cases special : b = 1 ∧ a ≤ 2
  · rw [Bqfc.serialize, if_neg (Bqfc.getComprSize_ok pos le), if_pos special] at run
    rw [Bqfc.serializeInto, if_neg (Bqfc.getComprSize_ok pos le), if_pos special, run]
  · obtain ⟨c, compressed, fit, rfl⟩ := (Bqfc.serialize_done pos le special).mp run
    have only := (Bqfc.serializeOnly_done pos le).mpr ⟨fit, rfl⟩
    have size : (Bqfc.getComprSize dBits).toNat = (Bqfc.layout (Bqfc.words dBits) c).length := by
      rw [Bqfc.getComprSize, if_neg (by omega), Bqfc.length_layout fit, Bqfc.words, Int.toNat_natCast]
      omega
    rw [Bqfc.serializeInto, if_neg (Bqfc.getComprSize_ok pos le), if_neg special]
    simp only [compressed, only, Exec.done_bind, Exec.pure_eq, size, List.take_left, Bqfc.padded]

theorem toArray_done {n : ℕ} {bytes : ByteString} (size : bytes.length = n) :
    ∃ array, toArray n bytes = .done array ∧ array.toList = bytes :=
  ⟨_, dif_pos size, rfl⟩

/-- What the entry of a finished segment holds. -/
structure Written (env : VerifierEnv) (d : Discriminant) (isReq : Bool) (segm : Segment)
    (bytes : SegmentBytes) : Prop where
  y : serializeForm segm.y (numBits d.D) = .done bytes.y.toList
  proof : serializeForm segm.proof (numBits d.D) = .done bytes.proof.toList
  B : isReq = false → ∃ B : ℕ, env.getB d.D segm.x segm.y = .done B ∧ bytes.B.toList = toBytes B

theorem writeForm_settled (bits : numBits d.D ≤ BQFC_MAX_D_BITS) (rep : Represents f x) (nearly : NearlyReduced f)
    (settled : Settled f) (out : Vector UInt8 BQFC_FORM_SIZE) :
    ∃ array, writeForm d.D f out = .done array ∧ serializeForm f (numBits d.D) = .done array.toList := by
  obtain ⟨s, run, length, written, -⟩ := reduced_roundTrip bits x
  obtain ⟨array, made, same⟩ := toArray_done length
  refine ⟨array, ?_, by rw [rep.serializeForm, written, same]⟩
  rw [writeForm, eq_of_settled rep nearly settled, serializeInto_done (Bqfc.numBits_pos _) bits _ run]
  exact made

theorem HashesTo.range {B : ℕ} (hash : HashesTo env z z' B) (top : HashTopBit env) : 2 ^ 263 ≤ B ∧ B < 2 ^ 264 := by
  obtain ⟨s₁, -, rest⟩ := Exec.bind_eq_done.mp hash
  obtain ⟨s₂, -, rest⟩ := Exec.bind_eq_done.mp rest
  obtain ⟨B', run, low, high⟩ := top (s₁ ++ s₂)
  have same : B' = B := by exact_mod_cast Exec.done.inj (run.symm.trans rest)
  exact same ▸ ⟨low, high⟩

theorem writeB_done {B : ℕ} (low : 2 ^ 263 ≤ B) (high : B < 2 ^ 264) (out : Vector UInt8 HW_VDF_B_SIZE) :
    ∃ array, writeB B out = .done array ∧ array.toList = toBytes B := by
  have size : (toBytes (B : ℤ)).length = HW_VDF_B_SIZE := by
    rw [toBytes_eq low high, ByteString.length_msbFirst]
    rfl
  have all : out.toList.drop HW_VDF_B_SIZE = [] := List.drop_eq_nil_of_le (by simp)
  obtain ⟨array, made, same⟩ := toArray_done size
  refine ⟨array, ?_, same⟩
  simp [writeB, HwMessage.blit, size, all, made]

theorem writeSegment_spec (bits : numBits d.D ≤ BQFC_MAX_D_BITS) (top : HashTopBit env)
    (honest : HonestSegment env z z' segm) (nearlyY : NearlyReduced segm.y) (nearly : NearlyReduced segm.proof)
    (settledY : Settled segm.y) (settled : Settled segm.proof) (isReq : Bool) (out : SegmentBytes) :
    ∃ bytes, writeSegment env d.D isReq segm out = .done bytes ∧ Written env d isReq segm bytes := by
  obtain ⟨B, hash, rep⟩ := honest.proof
  obtain ⟨y, writtenY, formY⟩ := writeForm_settled bits honest.y nearlyY settledY out.y
  obtain ⟨proof, written, form⟩ := writeForm_settled bits rep nearly settled out.proof
  cases isReq with
  | true =>
    refine ⟨⟨y, proof, out.B⟩, ?_, formY, form, by simp⟩
    simp [writeSegment, writtenY, written]
  | false =>
    have get : env.getB d.D segm.x segm.y = .done B := (honest.x.getB honest.y).trans hash
    obtain ⟨low, high⟩ := HashesTo.range hash top
    obtain ⟨array, exported, bytes⟩ := writeB_done low high out.B
    refine ⟨⟨y, proof, array⟩, ?_, formY, form, fun _ => ⟨B, get, bytes⟩⟩
    simp [writeSegment, writtenY, written, get, exported]

end Written

end HwProver

end ChiaVdf
