import ChiaVdf.CWrapper
import ChiaVdf.IntegerText
import ChiaVdf.VerifierAgree

/-! The Python module of `fastvdf.cpp`, in which discriminants and hash primes are text, and the n-Wesolowski proof
that the script `test_n_weso_verifier.py` puts together from its functions. -/
namespace ChiaVdf

namespace FastVdf

variable (lib : Library)

def createDiscriminant (challengeHash : ByteString) (discriminantSizeBits : ℤ) : Exec ByteString := do
  let D ← lib.createDiscriminant challengeHash discriminantSizeBits
  integerToString D

def verifyWesolowski (discriminant xS yS proofS : ByteString) (numIterations : UInt64) : Exec Bool := do
  let D ← integerOfString discriminant
  let x ← deserializeForm D xS false
  let y ← deserializeForm D yS false
  let proof ← deserializeForm D proofS false
  lib.verifier.verifyWesolowskiProof D x y proof numIterations

def verifyNWesolowski (discriminant xS proofBlob : ByteString) (numIterations discSizeBits recursion : UInt64) :
    Exec Bool := do
  let D ← integerOfString discriminant
  lib.verifier.checkProofOfTimeNWesolowski D xS proofBlob numIterations discSizeBits recursion

/-- `CreateDiscriminantAndCheckProofOfTimeNWesolowski`; a size is converted to `uint32`. -/
def createDiscriminantAndVerifyNWesolowski (challengeHash : ByteString) (discriminantSizeBits : ℤ)
    (xS proofBlob : ByteString) (numIterations recursion : UInt64) : Exec Bool :=
  let discSizeBits := UInt64.ofNat (discriminantSizeBits % 2 ^ 32).toNat
  if !isDiscSizeBitsInRange discSizeBits then .done false
  else do
    let D ← lib.createDiscriminant challengeHash discSizeBits.toNat
    if !isDiscriminantInRange D then return false
    else lib.verifier.checkProofOfTimeNWesolowski D xS proofBlob numIterations discSizeBits recursion

/-- Without a shutdown file. -/
def prove (challengeHash xS : ByteString) (discriminantSizeBits : ℤ) (numIterations : UInt64) : Exec ByteString := do
  let D ← lib.createDiscriminant challengeHash discriminantSizeBits
  let x ← deserializeForm D xS false
  lib.proveSlow D x numIterations

def verifyNWesolowskiWithB (discriminant B xS proofBlob : ByteString) (numIterations recursion : UInt64) :
    Exec (Bool × ByteString) := do
  let D ← integerOfString discriminant
  let B ← integerOfString B
  lib.verifier.checkProofOfTimeNWesolowskiWithB D B xS proofBlob numIterations recursion

def getBFromNWesolowski (discriminant xS proofBlob : ByteString) (numIterations recursion : UInt64) :
    Exec ByteString := do
  let D ← integerOfString discriminant
  let B ← lib.verifier.getBFromProof D xS proofBlob numIterations recursion
  integerToString B

end FastVdf

/-! `test_n_weso_verifier.py`. A failed assertion is a fault. -/
namespace NWesoScript

open FastVdf VerifierEnv

/-- An entry of `partials`. -/
structure Partial where
  x : ByteString
  y : ByteString
  proof : ByteString

/-- `int(s, 16)` of a number without a sign. -/
def intOfHex (s : ByteString) : Exec ℕ :=
  match parseDigits 16 0 (if s.take 2 = [48, 120] then s.drop 2 else s) with
  | some n => .done n
  | none => .thrown "invalid literal for int() with base 16"

/-- `n.to_bytes(length, byteorder='big')`. -/
def toBytesBig (n length : ℕ) : Exec ByteString :=
  if n < 256 ^ length then .done (ByteString.msbFirst length n) else .thrown "int too big to convert"

def check (ok : Bool) : Exec Unit := if ok then .done () else .fault .assertion

variable (lib : Library)

/-- The loop that appends to `partials`: what it appended, and the `x` of the next turn. -/
def provePartials (challenge : ByteString) (size : ℤ) (formSize itersChunk witness : ℕ) (x : ByteString) :
    Exec (List Partial × ByteString) :=
  Exec.forLoop witness (fun _ (partials, x) => do
    let result ← prove lib challenge x size (UInt64.ofNat itersChunk)
    let y := result.take formSize
    let proof := (result.take (2 * formSize)).drop formSize
    return (partials ++ [⟨x, y, proof⟩], y)) ([], x)

/-- The loop over the reversed `partials`. -/
def innerProof (discriminant : ByteString) (itersChunk : ℕ) : List Partial → Exec ByteString
  | [] => .done []
  | ⟨x, y, proof⟩ :: partials => do
    let bHex ← getBFromNWesolowski lib discriminant x (y ++ proof) (UInt64.ofNat itersChunk) 0
    let b ← intOfHex bHex
    check (← verifyWesolowski lib discriminant x y proof (UInt64.ofNat itersChunk))
    let (isValid, yFromCompression) ← verifyNWesolowskiWithB lib discriminant bHex x proof (UInt64.ofNat itersChunk) 0
    check isValid
    check (y = yFromCompression)
    let iters ← toBytesBig itersChunk 8
    let bytes ← toBytesBig b 33
    let inner ← innerProof discriminant itersChunk partials
    return iters ++ bytes ++ proof ++ inner

/-- `prove_n_weso` without a wrong segment. -/
def proveNWeso (challenge x : ByteString) (size : ℤ) (formSize iters witness : ℕ) :
    Exec (ByteString × ByteString) := do
  let itersChunk := iters / (witness + 1)
  let discriminant ← FastVdf.createDiscriminant lib challenge size
  let (partials, x) ← provePartials lib challenge size formSize itersChunk witness x
  let iters := UInt64.ofNat (iters - itersChunk * witness)
  let result ← prove lib challenge x size iters
  let yResult := result.take formSize
  let yProof := (result.take (2 * formSize)).drop formSize
  check (← verifyWesolowski lib discriminant x yResult yProof iters)
  let bHex ← getBFromNWesolowski lib discriminant x (yResult ++ yProof) iters 0
  let (isValid, yFromCompression) ← verifyNWesolowskiWithB lib discriminant bHex x yProof iters 0
  check isValid
  check (yFromCompression = yResult)
  let inner ← innerProof lib discriminant itersChunk partials.reverse
  return (yResult, yProof ++ inner)

section Below

variable {lib : Library}

theorem verifyWesolowski_below (discriminant xS yS proofS : ByteString) (numIterations : UInt64) :
    Exec.Below (verifyWesolowski lib discriminant xS yS proofS numIterations)
      (verifyWesolowski lib.completed discriminant xS yS proofS numIterations) := by
  apply Exec.Below.rest
  intro D
  apply Exec.Below.rest
  intro x
  apply Exec.Below.rest
  intro y
  apply Exec.Below.rest
  intro proof
  exact lib.verifier_below.verifyWesolowskiProof x y proof numIterations

theorem verifyNWesolowski_below (discriminant xS proofBlob : ByteString)
    (numIterations discSizeBits recursion : UInt64) :
    Exec.Below (verifyNWesolowski lib discriminant xS proofBlob numIterations discSizeBits recursion)
      (verifyNWesolowski lib.completed discriminant xS proofBlob numIterations discSizeBits recursion) := by
  apply Exec.Below.rest
  intro D
  exact lib.verifier_below.checkProofOfTimeNWesolowski _ _ _ _ _

theorem createDiscriminantAndVerifyNWesolowski_below (challengeHash : ByteString) (size : ℤ) (xS proofBlob : ByteString)
    (numIterations recursion : UInt64) :
    Exec.Below (createDiscriminantAndVerifyNWesolowski lib challengeHash size xS proofBlob numIterations recursion)
      (createDiscriminantAndVerifyNWesolowski lib.completed challengeHash size xS proofBlob numIterations
        recursion) := by
  unfold createDiscriminantAndVerifyNWesolowski
  dsimp only
  split
  · rfl
  · apply Exec.Below.rest
    intro D
    split
    · rfl
    · exact lib.verifier_below.checkProofOfTimeNWesolowski _ _ _ _ _

theorem prove_below (challengeHash xS : ByteString) (size : ℤ) (numIterations : UInt64) :
    Exec.Below (prove lib challengeHash xS size numIterations)
      (prove lib.completed challengeHash xS size numIterations) := by
  apply Exec.Below.rest
  intro D
  apply Exec.Below.rest
  intro x
  exact lib.proveSlow_below D x numIterations

theorem verifyNWesolowskiWithB_below (discriminant B xS proofBlob : ByteString) (numIterations recursion : UInt64) :
    Exec.Below (verifyNWesolowskiWithB lib discriminant B xS proofBlob numIterations recursion)
      (verifyNWesolowskiWithB lib.completed discriminant B xS proofBlob numIterations recursion) := by
  apply Exec.Below.rest
  intro D
  apply Exec.Below.rest
  intro B
  exact lib.verifier_below.checkProofOfTimeNWesolowskiWithB _ _ _ _ _

theorem getBFromNWesolowski_below (discriminant xS proofBlob : ByteString) (numIterations recursion : UInt64) :
    Exec.Below (getBFromNWesolowski lib discriminant xS proofBlob numIterations recursion)
      (getBFromNWesolowski lib.completed discriminant xS proofBlob numIterations recursion) := by
  apply Exec.Below.rest
  intro D
  exact (lib.verifier_below.getBFromProof _ _ _ _).first

theorem provePartials_below (challenge : ByteString) (size : ℤ) (formSize itersChunk witness : ℕ) (x : ByteString) :
    Exec.Below (provePartials lib challenge size formSize itersChunk witness x)
      (provePartials lib.completed challenge size formSize itersChunk witness x) := by
  apply Exec.Below.forLoop
  intro _ s
  exact (prove_below challenge s.2 size _).first

theorem innerProof_below (discriminant : ByteString) (itersChunk : ℕ) (partials : List Partial) :
    Exec.Below (innerProof lib discriminant itersChunk partials)
      (innerProof lib.completed discriminant itersChunk partials) := by
  induction partials with
  | nil => rfl
  | cons p partials ih =>
    unfold innerProof
    apply (getBFromNWesolowski_below ..).bind
    intro bHex
    apply Exec.Below.rest
    intro b
    apply (verifyWesolowski_below ..).bind
    intro valid
    apply Exec.Below.rest
    intro _
    apply (verifyNWesolowskiWithB_below ..).bind
    intro result
    apply Exec.Below.rest
    intro _
    apply Exec.Below.rest
    intro _
    apply Exec.Below.rest
    intro iters
    apply Exec.Below.rest
    intro bytes
    exact ih.first

theorem proveNWeso_below (challenge x : ByteString) (size : ℤ) (formSize iters witness : ℕ) :
    Exec.Below (proveNWeso lib challenge x size formSize iters witness)
      (proveNWeso lib.completed challenge x size formSize iters witness) := by
  apply Exec.Below.rest
  intro discriminant
  apply (provePartials_below ..).bind
  intro made
  apply (prove_below ..).bind
  intro result
  apply (verifyWesolowski_below ..).bind
  intro valid
  apply Exec.Below.rest
  intro _
  apply (getBFromNWesolowski_below ..).bind
  intro bHex
  apply (verifyNWesolowskiWithB_below ..).bind
  intro checked
  apply Exec.Below.rest
  intro _
  apply Exec.Below.rest
  intro _
  exact (innerProof_below ..).first

end Below

section Segments

variable {lib : Library} {d : Discriminant} {env : VerifierEnv} {x z : ReducedForm d} {xS sy sp : ByteString}
    {t : UInt64}

/-- Where the whole blob is accepted, its hash prime as text stands for `y`. -/
theorem compressed (bits : numBits d.D ≤ BQFC_MAX_D_BITS) {text y rest : ByteString} {depth : UInt64}
    (reads : integerOfString text = .done d.D) (read : deserializeForm d.D y false = .done z.form)
    (written : serializeForm z.form (numBits d.D) = .done y) (addressable : y.length + rest.length < 2 ^ 64)
    (accepted : lib.verifier.checkProofOfTimeNWesolowski d.D xS (y ++ rest) t (UInt64.ofNat (numBits d.D)) depth =
      .done true) :
    ∃ B : ℕ, lib.verifier.getBFromProof d.D xS (y ++ rest) t depth = .done B ∧
      getBFromNWesolowski lib text xS (y ++ rest) t depth = .done (hexText B) ∧
      ∀ bText, integerOfString bText = .done B →
        verifyNWesolowskiWithB lib text bText xS rest t depth = .done (true, y) := by
  obtain ⟨B, f, s, get, read', written', checked⟩ :=
    checkWithB_of_check bits (length_of_deserialized read) addressable accepted
  cases read.symm.trans read'
  cases written.symm.trans written'
  have positive : 0 < B := by
    have whole : (y ++ rest).length < 2 ^ 64 := by rwa [List.length_append]
    obtain ⟨-, x', z', y', T', -, -, -, hash⟩ := (getBFromProof_done (discriminantInRange bits) whole).mp get
    obtain ⟨s, -, hash⟩ := Exec.bind_eq_done.mp hash
    obtain ⟨s', -, hash⟩ := Exec.bind_eq_done.mp hash
    exact lib.verifier_positive _ _ hash
  obtain ⟨n, rfl⟩ := Int.eq_ofNat_of_zero_le positive.le
  refine ⟨n, get, ?_, fun bText readB => ?_⟩
  · simp only [getBFromNWesolowski, reads, get, Exec.done_bind, integerToString_eq]
  · simp only [verifyNWesolowskiWithB, reads, readB, checked, Exec.done_bind]

theorem made_checked (made : Made lib.verifier x xS t sy sp) (bits : numBits d.D ≤ BQFC_MAX_D_BITS)
    (lawful : lib.arith.Lawful d) {text : ByteString} (reads : integerOfString text = .done d.D) :
    verifyWesolowski lib text xS sy sp t = .done true ∧ ∃ B : ℕ, HashesTo lib.verifier x (x ^ 2 ^ t.toNat) B ∧
      getBFromNWesolowski lib text xS (sy ++ sp) t 0 = .done (hexText B) ∧
      verifyNWesolowskiWithB lib text (hexText B) xS sp t 0 = .done (true, sy) := by
  have lawful : lib.verifier.arith.Lawful d := lawful
  obtain ⟨readY, writtenY, pi, readP, proves⟩ := made.decodes bits
  have length : (sy ++ sp).length = 2 * BQFC_FORM_SIZE := by
    simp [made.lengthY, made.lengthP, BQFC_FORM_SIZE, BQFC_MAX_D_BITS]
  have addressable : sy.length + sp.length < 2 ^ 64 := by
    rw [← List.length_append, length]
    norm_num [BQFC_FORM_SIZE, BQFC_MAX_D_BITS]
  constructor
  · simp only [verifyWesolowski, reads, made.start, readY, readP, Exec.done_bind]
    exact (proves_iff lawful lib.verifier_positive x _ pi t).mpr proves
  · obtain ⟨B, get, text, compressed⟩ := compressed bits reads (readY false) writtenY addressable
      (made.accepted bits lawful lib.verifier_positive)
    refine ⟨B, ?_, text, compressed _ (integerOfString_hexText B)⟩
    have whole : (sy ++ sp).length < 2 ^ 64 := by rwa [List.length_append]
    obtain ⟨-, x', z', y', T', decodeX, walked, decodeY, hash⟩ :=
      (getBFromProof_done (discriminantInRange bits) whole).mp get
    rw [length] at walked
    simp only [walkSegments, gt_iff_lt, lt_self_iff_false, if_false, Exec.done.injEq, Option.some.injEq,
      Prod.mk.injEq] at walked
    cases walked.1
    cases (decodesTo_of_read made.start).symm.trans decodeX
    rw [deserializeAt_front made.lengthY, readY false] at decodeY
    cases decodeY
    exact hash

end Segments

/-- Partial proofs of `t` iterations each, the last one first, from `x` to `z`. -/
inductive Partials {d : Discriminant} (env : VerifierEnv) (t : UInt64) (x : ReducedForm d) :
    List Partial → ReducedForm d → Prop where
  | nil : Partials env t x [] x
  | cons : Partials env t x partials z → Made env z p.x t p.y p.proof →
    Partials env t x (p :: partials) (z ^ 2 ^ t.toNat)

section Partials

variable {lib : Library} {d : Discriminant} {env : VerifierEnv} {x z : ReducedForm d} {challenge xS text : ByteString}

theorem prove_made (bits : numBits d.D ≤ BQFC_MAX_D_BITS) (lawful : lib.arith.Lawful d) (finds : lib.Finds)
    {size : ℤ} (created : lib.createDiscriminant challenge size = .done d.D) {t : UInt64}
    (estimates : lib.Estimates t.toNat) (start : deserializeForm d.D xS false = .done x.form) :
    ∃ sy sp, prove lib challenge xS size t = .done (sy ++ sp) ∧ Made lib.verifier x xS t sy sp := by
  rcases lib.proveSlow_outcome bits lawful estimates start with ⟨⟨seed, diverged⟩, -⟩ | ⟨sy, sp, run, made⟩
  · exact absurd diverged (finds seed)
  · exact ⟨sy, sp, by simp only [prove, created, start, run, Exec.done_bind], made⟩

theorem slices {sy sp : ByteString} (lengthY : sy.length = BQFC_FORM_SIZE) (lengthP : sp.length = BQFC_FORM_SIZE) :
    (sy ++ sp).take BQFC_FORM_SIZE = sy ∧ ((sy ++ sp).take (2 * BQFC_FORM_SIZE)).drop BQFC_FORM_SIZE = sp := by
  constructor
  · rw [← lengthY, List.take_left]
  · rw [List.take_of_length_le, ← lengthY, List.drop_left]
    simp [lengthY, lengthP]
    omega

theorem provePartials_spec (bits : numBits d.D ≤ BQFC_MAX_D_BITS) (lawful : lib.arith.Lawful d)
    (finds : lib.Finds) {size : ℤ} (created : lib.createDiscriminant challenge size = .done d.D)
    {chunk : ℕ} (small : chunk < 2 ^ 64) (estimates : lib.Estimates chunk)
    (start : deserializeForm d.D xS false = .done x.form) (witness : ℕ) :
    ∃ partials xS' z, provePartials lib challenge size BQFC_FORM_SIZE chunk witness xS = .done (partials, xS') ∧
      partials.length = witness ∧ Partials lib.verifier (UInt64.ofNat chunk) x partials.reverse z ∧
      deserializeForm d.D xS' false = .done z.form := by
  have value : (UInt64.ofNat chunk).toNat = chunk := UInt64.toNat_ofNat_of_lt' small
  obtain ⟨⟨partials, xS'⟩, run, length, z, chain, read⟩ : ∃ s : List Partial × ByteString,
      provePartials lib challenge size BQFC_FORM_SIZE chunk witness xS = .done s ∧ s.1.length = witness ∧
      ∃ z, Partials lib.verifier (UInt64.ofNat chunk) x s.1.reverse z ∧
        deserializeForm d.D s.2 false = .done z.form := by
    refine Exec.forLoop_done (fun i (s : List Partial × ByteString) => s.1.length = i ∧
      ∃ z, Partials lib.verifier (UInt64.ofNat chunk) x s.1.reverse z ∧
        deserializeForm d.D s.2 false = .done z.form) ⟨rfl, x, .nil, start⟩ ?_
    rintro i - ⟨partials, xS'⟩ ⟨length, z, chain, read⟩
    obtain ⟨sy, sp, run, made⟩ := prove_made bits lawful finds created (value.symm ▸ estimates) read
    obtain ⟨first, second⟩ := slices made.lengthY made.lengthP
    refine ⟨(partials ++ [⟨xS', sy, sp⟩], sy), ?_, by simp [length], z ^ 2 ^ (UInt64.ofNat chunk).toNat, ?_, ?_⟩
    · simp only [run, Exec.done_bind, first, second, Exec.pure_eq]
    · rw [List.reverse_append]
      exact .cons chain made
    · exact (made.decodes bits).1 false
  exact ⟨partials, xS', z, run, length, chain, read⟩

theorem intOfHex_hexText (n : ℕ) : intOfHex (hexText n) = .done n := by
  have shape : hexText n = [48, 120] ++ digitText 16 n := by simp [hexText]
  simp [intOfHex, shape, parseDigits_text (show 2 ≤ 16 by norm_num) le_rfl]

theorem Made.link (bits : numBits d.D ≤ BQFC_MAX_D_BITS) (top : HashTopBit env) {t : UInt64} {sy sp : ByteString}
    (made : Made env x xS t sy sp) {B : ℕ} (hash : HashesTo env x (x ^ 2 ^ t.toNat) B) :
    B < 256 ^ 33 ∧ ∀ front rest,
      segmentIters (front ++ (ByteString.msbFirst 8 t.toNat ++ ByteString.msbFirst 33 B ++ sp ++ rest)) front.length =
          t.toNat ∧
        Link env (front ++ (ByteString.msbFirst 8 t.toNat ++ ByteString.msbFirst 33 B ++ sp ++ rest)) front.length x
          (x ^ 2 ^ t.toNat) := by
  obtain ⟨y, proof, honest, -, writtenP⟩ := made.honest
  obtain ⟨B', p, get, written, -, read⟩ := honest.reads bits top
  cases writtenP.symm.trans written
  cases ((honest.x.getB honest.y).trans hash).symm.trans get
  obtain ⟨s, -, rest⟩ := Exec.bind_eq_done.mp hash
  obtain ⟨s', -, rest⟩ := Exec.bind_eq_done.mp rest
  obtain ⟨B', run, low, high⟩ := top (s ++ s')
  have same : B' = B := by exact_mod_cast Exec.done.inj (run.symm.trans rest)
  subst same
  rw [toBytes_eq low high] at read
  refine ⟨high.trans_eq (by rw [show (256 : ℕ) = 2 ^ 8 by norm_num, ← pow_mul]), fun front rest => ?_⟩
  exact ⟨(read front rest).iters, (read front rest).link⟩

/-- The bytes of the partial proofs are the chain behind the two forms. -/
theorem innerProof_spec (bits : numBits d.D ≤ BQFC_MAX_D_BITS) (lawful : lib.arith.Lawful d) (finds : lib.Finds)
    (reads : integerOfString text = .done d.D) {chunk : ℕ} (small : chunk < 2 ^ 64) {partials : List Partial}
    (chain : Partials lib.verifier (UInt64.ofNat chunk) x partials z) :
    ∃ W, innerProof lib text chunk partials = .done W ∧ W.length = partials.length * segmentLen ∧
      ∀ front, Walk lib.verifier (front ++ W) front.length partials.length x (partials.length * chunk) z := by
  have value : (UInt64.ofNat chunk).toNat = chunk := UInt64.toNat_ofNat_of_lt' small
  induction chain with
  | nil => exact ⟨[], rfl, by simp, fun front => by simpa using Walk.nil⟩
  | @cons partials z p chain made ih =>
    obtain ⟨W, run, length, walk⟩ := ih
    obtain ⟨verified, B, hash, get, checked⟩ := made_checked made bits lawful reads
    obtain ⟨fits, link⟩ := Made.link bits finds.top made hash
    rw [value] at link
    refine ⟨ByteString.msbFirst 8 chunk ++ ByteString.msbFirst 33 B ++ p.proof ++ W, ?_, ?_, fun front => ?_⟩
    · have eight : chunk < 256 ^ 8 := small.trans_eq (by norm_num)
      simp only [innerProof, get, intOfHex_hexText, verified, checked, check, toBytesBig, eight, fits, run,
        Exec.done_bind, decide_true, if_true, Exec.pure_eq]
    · simp [length, made.lengthP, segmentLen, BQFC_FORM_SIZE, BQFC_MAX_D_BITS, B_bytes, B_bits]
      ring
    · obtain ⟨iters, link⟩ := link front W
      have base : (front ++ (ByteString.msbFirst 8 chunk ++ ByteString.msbFirst 33 B ++ p.proof)).length =
          front.length + segmentLen := by
        simp [made.lengthP, segmentLen, BQFC_FORM_SIZE, BQFC_MAX_D_BITS, B_bytes, B_bits]
      have behind := walk (front ++ (ByteString.msbFirst 8 chunk ++ ByteString.msbFirst 33 B ++ p.proof))
      rw [base, List.append_assoc] at behind
      have whole := behind.snoc link
      rw [iters] at whole
      rw [value]
      simpa [Nat.succ_mul] using whole

theorem joined_accepted (bits : numBits d.D ≤ BQFC_MAX_D_BITS) (lawful : env.arith.Lawful d)
    (positive : HashPositive env)
    (start : deserializeForm d.D xS false = .done x.form) {xS' sy sp W : ByteString} {t T depth : UInt64} {sum : ℕ}
    (made : Made env z xS' t sy sp) (length : W.length = depth.toNat * segmentLen)
    (walk : ∀ front, Walk env (front ++ W) front.length depth.toNat x sum z)
    (addressable : 200 + depth.toNat * 141 < 2 ^ 64) (total : T.toNat = sum + t.toNat) :
    env.checkProofOfTimeNWesolowski d.D xS (sy ++ (sp ++ W)) T (UInt64.ofNat (numBits d.D)) depth = .done true := by
  obtain ⟨readY, -, pi, readP, proves⟩ := made.decodes bits
  have whole : (sy ++ (sp ++ W)).length = 2 * BQFC_FORM_SIZE + depth.toNat * segmentLen := by
    simp only [List.length_append, made.lengthY, made.lengthP, length]
    omega
  have small : (sy ++ (sp ++ W)).length < 2 ^ 64 := by
    have sizes : 2 * BQFC_FORM_SIZE = 200 ∧ segmentLen = 141 := ⟨rfl, rfl⟩
    rwa [whole, sizes.1, sizes.2]
  have inRange := (sizeBitsInRange_iff _).mp (sizeBits_of_bits bits (Bqfc.numBits_pos d.D))
  refine (check_iff bits lawful positive xS _ small T _ _).mpr ⟨inRange.1, inRange.2, whole, x, z, z ^ 2 ^ t.toNat, pi,
    sum, decodesTo_of_read start, ?_, by omega, ?_, ?_, ?_⟩
  · have behind := walk (sy ++ sp)
    simpa [made.lengthY, made.lengthP, two_mul] using behind
  · exact (deserializeAt_front made.lengthY _).trans (readY false)
  · have decode := decodesTo_written sy W made.lengthP readP
    rwa [made.lengthY] at decode
  · rwa [total, Nat.add_sub_cancel_left]

end Partials

/-- The script with an arithmetic that comes back. -/
theorem proveNWeso_spec (lawful : ∀ d, lib.arith.Lawful d) {challenge xS : ByteString}
    {size p iters witness : ℕ} {f : Form} (created : lib.createDiscriminant challenge size = .done (-p))
    (isPrime : p.Prime) (decoded : deserializeForm (-p) xS false = .done f) (finds : lib.Finds)
    (room : iters < 2 ^ 64) (addressable : 200 + witness * 141 < 2 ^ 64)
    (estimates : ∀ t ∈ [iters / (witness + 1), iters - iters / (witness + 1) * witness], lib.Estimates t) :
    ∃ text y proof bHex B, FastVdf.createDiscriminant lib challenge size = .done text ∧
      proveNWeso lib challenge xS size BQFC_FORM_SIZE iters witness = .done (y, proof) ∧
      verifyNWesolowski lib text xS (y ++ proof) (UInt64.ofNat iters) (UInt64.ofNat size) (UInt64.ofNat witness) =
        .done true ∧
      createDiscriminantAndVerifyNWesolowski lib challenge size xS (y ++ proof) (UInt64.ofNat iters)
        (UInt64.ofNat witness) = .done true ∧
      getBFromNWesolowski lib text xS (y ++ proof) (UInt64.ofNat iters) (UInt64.ofNat witness) = .done bHex ∧
      verifyNWesolowskiWithB lib text bHex xS proof (UInt64.ofNat iters) (UInt64.ofNat witness) = .done (true, y) ∧
      intOfHex bHex = .done B ∧
      verifyNWesolowskiWithB lib text (digitText 10 B) xS proof (UInt64.ofNat iters) (UInt64.ofNat witness) =
        .done (true, y) := by
  obtain ⟨p', same, ofSize⟩ := ChiaVdf.createDiscriminant_done created
  obtain rfl : p = p' := by omega
  let d : Discriminant := ⟨p, isPrime, ofSize.mod8⟩
  have lawful : lib.arith.Lawful d := lawful d
  have bits : numBits d.D ≤ BQFC_MAX_D_BITS := ofSize.numBits.trans_le ofSize.limit
  have created : lib.createDiscriminant challenge size = .done d.D := created
  have reads : integerOfString (hexText d.D) = .done d.D := integerOfString_hexText d.D
  obtain ⟨x, rfl⟩ := deserializeForm_reduced (d := d) decoded
  set chunk := iters / (witness + 1) with chunk_eq
  have most : chunk * witness ≤ iters :=
    (Nat.mul_le_mul_left _ (Nat.le_succ _)).trans (Nat.div_mul_le_self iters (witness + 1))
  have small : chunk < 2 ^ 64 := (Nat.div_le_self _ _).trans_lt room
  obtain ⟨partials, xS', z, ran, length, chain, read⟩ := provePartials_spec bits lawful finds created small
    (estimates _ (by simp)) decoded witness
  have last : (UInt64.ofNat (iters - chunk * witness)).toNat = iters - chunk * witness :=
    UInt64.toNat_ofNat_of_lt' (show _ < 2 ^ 64 by omega)
  have lastEstimates : lib.Estimates (UInt64.ofNat (iters - chunk * witness)).toNat := by
    rw [last]
    exact estimates _ (by simp)
  obtain ⟨sy, sp, proved, made⟩ := prove_made bits lawful finds created lastEstimates read
  obtain ⟨verified, B', -, get, checked⟩ := made_checked made bits lawful reads
  obtain ⟨W, inner, lengthW, walk⟩ := innerProof_spec bits lawful finds reads small chain
  obtain ⟨readY, writtenY, -⟩ := made.decodes bits
  obtain ⟨first, second⟩ := slices made.lengthY made.lengthP
  rw [List.length_reverse, length] at lengthW walk
  have depth : (UInt64.ofNat witness).toNat = witness := UInt64.toNat_ofNat_of_lt' (show _ < 2 ^ 64 by omega)
  have iterations : (UInt64.ofNat iters).toNat = iters := UInt64.toNat_ofNat_of_lt' room
  have accepted : lib.verifier.checkProofOfTimeNWesolowski d.D xS (sy ++ (sp ++ W)) (UInt64.ofNat iters)
      (UInt64.ofNat (numBits d.D)) (UInt64.ofNat witness) = .done true := by
    apply joined_accepted bits lawful lib.verifier_positive decoded made (by rwa [depth]) (by rwa [depth])
      (by rwa [depth])
    rw [iterations, last, Nat.mul_comm]
    omega
  have addressable : sy.length + (sp ++ W).length < 2 ^ 64 := by
    simp only [List.length_append, made.lengthY, made.lengthP, lengthW, segmentLen, BQFC_FORM_SIZE, BQFC_MAX_D_BITS,
      B_bytes, B_bits]
    omega
  obtain ⟨B, -, getB, compressed⟩ := compressed bits reads (readY false) writtenY addressable accepted
  have sizeBits : numBits d.D = size := ofSize.numBits
  rw [sizeBits] at accepted
  refine ⟨hexText d.D, sy, sp ++ W, hexText B, B, ?_, ?_, ?_, ?_, getB, compressed _ (integerOfString_hexText B),
    intOfHex_hexText B, compressed _ (integerOfString_decimal B)⟩
  · simp only [FastVdf.createDiscriminant, created, integerToString_eq, Exec.done_bind]
  · simp only [proveNWeso, FastVdf.createDiscriminant, created, integerToString_eq, ← chunk_eq, ran, proved, first,
      second,
      verified, get, checked, check, inner, Exec.done_bind, decide_true, if_true, Exec.pure_eq]
  · simp only [verifyNWesolowski, reads, accepted, Exec.done_bind]
  · have limit : size ≤ 1024 := ofSize.limit
    have converted : ((size : ℤ) % 2 ^ 32).toNat = size := by omega
    have value : (UInt64.ofNat size).toNat = size := UInt64.toNat_ofNat_of_lt' (show _ < 2 ^ 64 by omega)
    have inRange : isDiscSizeBitsInRange (UInt64.ofNat size) = true := by
      rw [sizeBitsInRange_iff, value]
      exact ⟨ofSize.positive, ofSize.limit⟩
    simp only [createDiscriminantAndVerifyNWesolowski, converted, inRange, value, created, discriminantInRange bits,
      accepted, Bool.not_true, Bool.false_eq_true, if_false, Exec.done_bind]

/-- The script in general. Whatever the challenge, the size, the first form, the iterations and the number of partial
proofs are, none of its assertions fails, and what it puts together is accepted in each of the ways that it tries: with
the discriminant as text or made again, and without `y` for the hash prime in either base. The reducer may not come
back in any of them. -/
theorem proveNWeso_verified (lib : Library) {turns : ℕ} (shipped : lib.arith = .inPlace turns)
    (challenge xS : ByteString) (size p iters witness : ℕ) (f : Form)
    (created : lib.createDiscriminant challenge size = .done (-p)) (isPrime : p.Prime)
    (decoded : deserializeForm (-p) xS false = .done f) (finds : lib.Finds) (room : iters < 2 ^ 64)
    (addressable : 200 + witness * 141 < 2 ^ 64)
    (estimates : ∀ t ∈ [iters / (witness + 1), iters - iters / (witness + 1) * witness], lib.Estimates t) :
    ∃ text y proof bHex B, FastVdf.createDiscriminant lib challenge size = .done text ∧
      Exec.Below (proveNWeso lib challenge xS size BQFC_FORM_SIZE iters witness) (.done (y, proof)) ∧
      Exec.Below (verifyNWesolowski lib text xS (y ++ proof) (UInt64.ofNat iters) (UInt64.ofNat size)
        (UInt64.ofNat witness)) (.done true) ∧
      Exec.Below (createDiscriminantAndVerifyNWesolowski lib challenge size xS (y ++ proof) (UInt64.ofNat iters)
        (UInt64.ofNat witness)) (.done true) ∧
      Exec.Below (getBFromNWesolowski lib text xS (y ++ proof) (UInt64.ofNat iters) (UInt64.ofNat witness))
        (.done bHex) ∧
      Exec.Below (verifyNWesolowskiWithB lib text bHex xS proof (UInt64.ofNat iters) (UInt64.ofNat witness))
        (.done (true, y)) ∧
      intOfHex bHex = .done B ∧
      Exec.Below (verifyNWesolowskiWithB lib text (digitText 10 B) xS proof (UInt64.ofNat iters) (UInt64.ofNat witness))
        (.done (true, y)) := by
  have lawful (d : Discriminant) : lib.completed.arith.Lawful d := by
    rw [Library.completed, shipped]
    exact (FormArith.inPlace_within turns d).completed
  have created' : lib.completed.createDiscriminant challenge size = .done (-p) := created
  have finds' : lib.completed.Finds := finds
  have estimates' : ∀ t ∈ [iters / (witness + 1), iters - iters / (witness + 1) * witness],
      lib.completed.Estimates t := estimates
  obtain ⟨text, y, proof, bHex, B, made, proved, verified, created, get, checked, parsed, checked'⟩ :=
    proveNWeso_spec lib.completed lawful created' isPrime decoded finds' room addressable estimates'
  refine ⟨text, y, proof, bHex, B, made, ?_, ?_, ?_, ?_, ?_, parsed, ?_⟩
  · exact proved ▸ proveNWeso_below ..
  · exact verified ▸ verifyNWesolowski_below ..
  · exact created ▸ createDiscriminantAndVerifyNWesolowski_below ..
  · exact get ▸ getBFromNWesolowski_below ..
  · exact checked ▸ verifyNWesolowskiWithB_below ..
  · exact checked' ▸ verifyNWesolowskiWithB_below ..

/-- Twelve iterations with a partial proof and thirteen after them, from the generator. -/
theorem proveNWeso_verified_151 : ∃ text y proof bHex B, FastVdf.createDiscriminant Rust.library151 [0] 8 = .done text ∧
    proveNWeso Rust.library151 [0] (Bqfc.padded [Bqfc.IS_GEN]) 8 BQFC_FORM_SIZE 25 1 = .done (y, proof) ∧
    verifyNWesolowski Rust.library151 text (Bqfc.padded [Bqfc.IS_GEN]) (y ++ proof) 25 8 1 = .done true ∧
    getBFromNWesolowski Rust.library151 text (Bqfc.padded [Bqfc.IS_GEN]) (y ++ proof) 25 1 = .done bHex ∧
    verifyNWesolowskiWithB Rust.library151 text bHex (Bqfc.padded [Bqfc.IS_GEN]) proof 25 1 = .done (true, y) ∧
    intOfHex bHex = .done B := by
  have made : proveNWeso Rust.library151 [0] (Bqfc.padded [Bqfc.IS_GEN]) 8 BQFC_FORM_SIZE 25 1 =
      .done (Bqfc.padded [3, 0, 4, 0, 1, 1], Bqfc.padded [Bqfc.IS_1] ++ [0, 0, 0, 0, 0, 0, 0, 12] ++
        List.replicate 33 0x97 ++ Bqfc.padded [Bqfc.IS_1]) := by decide +kernel
  have text : FastVdf.createDiscriminant Rust.library151 [0] 8 = .done [45, 48, 120, 57, 55] := by decide +kernel
  obtain ⟨D, y, proof, bHex, B, created, below, verified, -, get, checked, parsed, -⟩ :=
    proveNWeso_verified Rust.library151 rfl [0] (Bqfc.padded [Bqfc.IS_GEN]) 8 151 25 1 ⟨2, 1, 19⟩ (by decide +kernel)
      (by norm_num) (by decide +kernel) (by
        intro seed diverged
        simp [Library.verifier, Rust.library151, hashPrime, B_bits] at diverged) (by norm_num) (by norm_num) (by
        intro t inside
        simp only [List.mem_cons, List.not_mem_nil, or_false] at inside
        rcases inside with rfl | rfl
        · exact ⟨approximateParameters_twelve (by norm_num) (by norm_num), by decide⟩
        · exact ⟨approximateParameters_twelve (by norm_num) (by norm_num), by decide⟩)
  obtain rfl := Exec.done.inj (text.symm.trans created)
  obtain ⟨rfl, rfl⟩ := Prod.mk.inj (Exec.done.inj (below.done made))
  have getB : getBFromNWesolowski Rust.library151 [45, 48, 120, 57, 55] (Bqfc.padded [Bqfc.IS_GEN])
      (Bqfc.padded [3, 0, 4, 0, 1, 1] ++ (Bqfc.padded [Bqfc.IS_1] ++ [0, 0, 0, 0, 0, 0, 0, 12] ++
        List.replicate 33 0x97 ++ Bqfc.padded [Bqfc.IS_1])) 25 1 =
          .done ([48, 120] ++ (List.replicate 33 [57, 55]).flatten) := by
    decide +kernel
  obtain rfl := Exec.done.inj (get.done getB)
  refine ⟨_, _, _, _, B, text, made, verified.resolve_left ?_, getB, checked.resolve_left ?_, parsed⟩
  · decide +kernel
  · decide +kernel

end NWesoScript

end ChiaVdf
