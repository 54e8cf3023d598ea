import ChiaVdf.BqfcSafety
import ChiaVdf.CreateDiscriminant
import ChiaVdf.LazyPower
import ChiaVdf.PrimeTest
import ChiaVdf.ProverSlow

/-! The C functions of `c_wrapper.cpp` and the Rust functions that call them: a discriminant leaves the library as
the bytes of its absolute value, and every exception ends at the boundary. -/
namespace ChiaVdf

/-- What the library is built on: the arithmetic on forms, the hash, the primality test and how many candidates a
search for a prime may try, and the `l` and the `k` that are estimated for a number of iterations. -/
structure Library where
  arith : FormArith
  sha : ByteString → Vector UInt8 32
  prime : ℕ → Bool
  candidates : ℕ
  parameters : ℕ → ℤ × ℤ

/-- `catch (...)` around a body. -/
def Exec.catchAll (fallback : α) : Exec α → Exec α
  | .thrown _ => .done fallback
  | x => x

/-- `mpz_export` into a buffer, the most significant byte first. -/
def mpzExportMsb (buffer : ByteString) (n : ℤ) : Exec ByteString :=
  let bytes := (Bqfc.mpzExport n).reverse
  if bytes.length > buffer.length then .fault .outOfBounds else .done (bytes ++ buffer.drop bytes.length)

namespace Library

variable (lib : Library)

def verifier : VerifierEnv where
  arith := lib.arith
  hashPrime := hashPrime lib.sha lib.prime B_bits [B_bits - 1] lib.candidates

/-- The library with an arithmetic that goes on where the reducer does not come back. -/
def completed : Library := { lib with arith := lib.arith.completed }

def createDiscriminant (seed : ByteString) (length : ℤ) : Exec ℤ :=
  ChiaVdf.createDiscriminant lib.sha lib.prime lib.candidates seed length

/-- `ProveSlow` without a shutdown file. -/
def proveSlow (D : ℤ) (x : Form) (T : UInt64) : Exec ByteString :=
  lib.verifier.proveSlow D x T (lib.parameters T.toNat).1 (lib.parameters T.toNat).2

/-- What is returned, and what `result` holds afterwards. -/
def createDiscriminantWrapper (seed : ByteString) (sizeBits : ℕ) (result : ByteString) : Exec (Bool × ByteString) :=
  Exec.catchAll (false, result) do
    let bits ← PrimeTest.checkedCast sizeBits
    let discriminant ← lib.createDiscriminant seed bits
    let result ← mpzExportMsb result discriminant
    return (true, result)

/-- `none` for an array without data. -/
def proveWrapper (challengeHash xS : ByteString) (discriminantSizeBits : ℕ) (numIterations : UInt64) :
    Exec (Option ByteString) :=
  Exec.catchAll none do
    let bits ← PrimeTest.checkedCast discriminantSizeBits
    let discriminant ← lib.createDiscriminant challengeHash bits
    let x ← deserializeForm discriminant xS false
    let result ← lib.proveSlow discriminant x numIterations
    return some result

def verifyNWesolowskiWrapper (discriminantBytes xS proofBlob : ByteString) (numIterations recursion : UInt64) :
    Exec Bool :=
  Exec.catchAll false <|
    lib.verifier.checkProofOfTimeNWesolowski (-(ByteString.ofMsbFirst discriminantBytes)) xS proofBlob numIterations
      (UInt64.ofNat (discriminantBytes.length * 8)) recursion

end Library

/-! `lib.rs`. A slice brings its length. -/
namespace Rust

variable (lib : Library)

def createDiscriminant (seed result : ByteString) : Exec (Bool × ByteString) :=
  lib.createDiscriminantWrapper seed (result.length * 8) result

def verifyNWesolowski (discriminant xS proof : ByteString) (numIterations recursion : UInt64) : Exec Bool :=
  lib.verifyNWesolowskiWrapper discriminant xS proof numIterations recursion

def prove (challenge xS : ByteString) (discriminantSizeBits : ℕ) (numIterations : UInt64) :
    Exec (Option ByteString) :=
  lib.proveWrapper challenge xS discriminantSizeBits numIterations

end Rust

section Below

variable {lib : Library}

theorem Exec.Below.catchAll {fallback : α} {x y : Exec α} (below : Exec.Below x y) :
    Exec.Below (Exec.catchAll fallback x) (Exec.catchAll fallback y) := by
  rcases below with rfl | rfl
  · exact .inl rfl
  · exact .inr rfl

theorem Library.verifier_below (lib : Library) : lib.verifier.Below lib.completed.verifier :=
  lib.verifier.below_completed

theorem Library.proveSlow_below (lib : Library) (D : ℤ) (x : Form) (T : UInt64) :
    Exec.Below (lib.proveSlow D x T) (lib.completed.proveSlow D x T) := lib.verifier_below.proveSlow x T _ _

theorem Rust.prove_below (lib : Library) (challenge xS : ByteString) (size : ℕ) (T : UInt64) :
    Exec.Below (Rust.prove lib challenge xS size T) (Rust.prove lib.completed challenge xS size T) := by
  apply Exec.Below.catchAll
  apply Exec.Below.rest
  intro bits
  apply Exec.Below.rest
  intro D
  apply Exec.Below.rest
  intro x
  exact (lib.proveSlow_below D x T).first

theorem Rust.verifyNWesolowski_below (lib : Library) (discriminant xS proof : ByteString) (T recursion : UInt64) :
    Exec.Below (Rust.verifyNWesolowski lib discriminant xS proof T recursion)
      (Rust.verifyNWesolowski lib.completed discriminant xS proof T recursion) := by
  apply Exec.Below.catchAll
  exact lib.verifier_below.checkProofOfTimeNWesolowski _ _ _ _ _

end Below

namespace HashPrime

section Bits

variable {sha : ByteString → Vector UInt8 32} {prime : ℕ → Bool} {length : ℕ} {bitmask : List ℕ} {B : ℤ}

theorem testBit_setBit (p b i : ℕ) : (setBit p b).testBit i = (p.testBit i || decide (b = i)) := by
  simp [setBit, Nat.testBit_or, Nat.testBit_two_pow]

theorem testBit_foldl (bitmask : List ℕ) (p i : ℕ) :
    (bitmask.foldl setBit p).testBit i = (p.testBit i || decide (i ∈ bitmask)) := by
  induction bitmask generalizing p with
  | nil => simp
  | cons b bitmask ih => simp [ih, testBit_setBit, Bool.or_assoc, eq_comm]

/-- What a search returns: a number of as many bits as its mask leaves room for, which has passed the test. -/
theorem hashPrime_done {fuel : ℕ} {seed : ByteString} (run : hashPrime sha prime length bitmask fuel seed = .done B) :
    ∃ v, v < 2 ^ length ∧ B = setBit (bitmask.foldl setBit v) 0 ∧ prime (setBit (bitmask.foldl setBit v) 0) = true := by
  induction fuel generalizing seed with
  | zero => cases run
  | succ fuel ih =>
    simp only [hashPrime] at run
    split at run
    · cases run
    next whole =>
    split at run
    · next passed =>
      refine ⟨_, ?_, (Exec.done.inj run).symm, passed⟩
      have small := ByteString.ofMsbFirst_lt (expand sha (length / 8) (length / 8) seed []).2
      rw [length_expand _ _ _ _ _ (by simp) (by simp)] at small
      apply small.trans_eq
      rw [show (256 : ℕ) = 2 ^ 8 by norm_num, ← pow_mul]
      congr 1
      omega
    · exact ih run

end Bits

end HashPrime

/-- What `CreateDiscriminant` returns: it has the size that was asked for and is seven modulo eight. -/
structure OfSize (n p : ℕ) : Prop where
  positive : 0 < n
  limit : n ≤ BQFC_MAX_D_BITS
  whole : n % 8 = 0
  low : 2 ^ (n - 1) ≤ p
  high : p < 2 ^ n
  mod8 : p % 8 = 7

/-- The estimate for `t` iterations is one that the prover can compute with. -/
def Library.Estimates (lib : Library) (t : ℕ) : Prop :=
  ApproximateParameters t (lib.parameters t).1 (lib.parameters t).2 ∧ (lib.parameters t).2 < 31

/-- The search for a hash prime always ends. -/
def Library.Finds (lib : Library) : Prop := ∀ seed, lib.verifier.hashPrime seed ≠ .diverged

namespace OfSize

variable {n p : ℕ}

theorem numBits (size : OfSize n p) : numBits (-p : ℤ) = n := by
  have positive := size.positive
  have whole := size.whole
  have above : ¬mpzSizeinbase2 (-p : ℤ) ≤ n - 1 := by
    rw [← natAbs_lt_iff_sizeinbase2_le (by omega)]
    simpa using size.low
  have below : mpzSizeinbase2 (-p : ℤ) ≤ n := by
    rw [← natAbs_lt_iff_sizeinbase2_le positive]
    simpa using size.high
  simp only [ChiaVdf.numBits]
  omega

theorem exported (size : OfSize n p) {buffer : ByteString} (room : buffer.length * 8 = n) :
    mpzExportMsb buffer (-p) = .done (ByteString.msbFirst buffer.length p) := by
  have nonzero : ¬(-p : ℤ) = 0 := by
    have := size.mod8
    omega
  have bytes : (mpzSizeinbase2 (-p : ℤ) + 7) / 8 = buffer.length := by
    have := size.numBits
    simp only [ChiaVdf.numBits] at this
    omega
  simp [mpzExportMsb, Bqfc.mpzExport, nonzero, bytes, ByteString.msbFirst]

theorem imported (size : OfSize n p) {width : ℕ} (room : width * 8 = n) :
    ByteString.ofMsbFirst (ByteString.msbFirst width p) = p := by
  apply ByteString.ofMsbFirst_of_lt
  have high := size.high
  rwa [← room, Nat.mul_comm, pow_mul] at high

end OfSize

/-- Of the exceptions of `CreateDiscriminant` each concerns its arguments. -/
theorem createDiscriminant_done {sha : ByteString → Vector UInt8 32} {prime : ℕ → Bool} {fuel n : ℕ}
    {seed : ByteString} {D : ℤ} (run : createDiscriminant sha prime fuel seed n = .done D) :
    ∃ p : ℕ, D = -p ∧ OfSize n p := by
  unfold createDiscriminant at run
  split_ifs at run with negative large bits empty
  obtain ⟨B, found, rest⟩ := Exec.bind_eq_done.mp run
  obtain ⟨v, small, rfl, -⟩ := HashPrime.hashPrime_done found
  cases rest
  simp only [Int.toNat_natCast] at small ⊢
  set p := HashPrime.setBit ([0, 1, 2, n - 1].foldl HashPrime.setBit v) 0 with same
  have bit : ∀ i, i ∈ [0, 1, 2, n - 1] → p.testBit i = true := fun i masked => by
    rw [same, HashPrime.testBit_setBit, HashPrime.testBit_foldl]
    simp [masked]
  refine ⟨p, by ring, by omega, by omega, by omega, ?_, ?_, ?_⟩
  · exact Nat.ge_two_pow_of_testBit (bit (n - 1) (by simp))
  · apply Nat.lt_pow_two_of_testBit
    intro i above
    have : v.testBit i = false := Nat.testBit_lt_two_pow (small.trans_le (Nat.pow_le_pow_right (by norm_num) above))
    rw [same, HashPrime.testBit_setBit, HashPrime.testBit_foldl, this]
    simp
    omega
  · have zero := bit 0 (by simp)
    have one := bit 1 (by simp)
    have two := bit 2 (by simp)
    simp only [Nat.testBit_eq_decide_div_mod_eq, decide_eq_true_eq] at zero one two
    omega

section Boundary

variable {lib : Library} {d : Discriminant} {env : VerifierEnv} {challenge xS buffer disc : ByteString} {T : UInt64}

/-- A value that is not the fallback comes from the body. -/
theorem Exec.catchAll_done {fallback value : α} {x : Exec α} (other : value ≠ fallback) :
    Exec.catchAll fallback x = .done value ↔ x = .done value := by
  cases x with
  | thrown what => simp [Exec.catchAll, other.symm]
  | _ => simp [Exec.catchAll]

theorem Library.verifier_positive (lib : Library) : HashPositive lib.verifier := by
  intro seed B run
  have low := (hashPrime_bounds lib.candidates seed run).1
  apply lt_of_lt_of_le _ low
  positivity

theorem OfSize.checkedCast (size : OfSize n p) : PrimeTest.checkedCast n = .done n := by
  have small : ¬n > PrimeTest.INT_MAX := by
    have limit := size.limit
    simp only [BQFC_MAX_D_BITS, PrimeTest.INT_MAX] at limit ⊢
    omega
  simp [PrimeTest.checkedCast, small]

/-- The search for a hash prime ends or goes on. -/
theorem Library.hashPrime_cases (lib : Library) (seed : ByteString) :
    lib.verifier.hashPrime seed = .diverged ∨ ∃ B : ℕ, lib.verifier.hashPrime seed = .done B ∧ 2 ^ 263 ≤ B := by
  have ends : ∀ fuel seed, hashPrime lib.sha lib.prime B_bits [B_bits - 1] fuel seed = .diverged ∨
      ∃ B : ℕ, hashPrime lib.sha lib.prime B_bits [B_bits - 1] fuel seed = .done B := fun fuel => by
    induction fuel with
    | zero => exact fun _ => .inl rfl
    | succ fuel ih =>
      intro seed
      have whole : ¬B_bits % 8 ≠ 0 := by simp [B_bits]
      simp only [hashPrime, if_neg whole]
      split
      · exact .inr ⟨_, rfl⟩
      · exact ih _
  cases ends lib.candidates seed with
  | inl diverged => exact .inl diverged
  | inr found =>
    obtain ⟨B, run⟩ := found
    exact .inr ⟨B, run, by exact_mod_cast (hashPrime_bounds lib.candidates seed run).1⟩

theorem Library.Finds.top (finds : lib.Finds) : HashTopBit lib.verifier := by
  intro seed
  cases lib.hashPrime_cases seed with
  | inl diverged => exact absurd diverged (finds seed)
  | inr found =>
    obtain ⟨B, run, low⟩ := found
    exact ⟨B, run, low, by exact_mod_cast (hashPrime_bounds lib.candidates seed run).2⟩

theorem Rust.buffer_written (created : createDiscriminant lib challenge buffer = .done (true, disc)) :
    ∃ p : ℕ, OfSize (buffer.length * 8) p ∧ disc = ByteString.msbFirst buffer.length p ∧
      lib.createDiscriminant challenge (buffer.length * 8 : ℕ) = .done (-p) := by
  have body := (Exec.catchAll_done (by simp)).mp created
  obtain ⟨bits, cast, body⟩ := Exec.bind_eq_done.mp body
  obtain ⟨D, found, body⟩ := Exec.bind_eq_done.mp body
  obtain ⟨written, exported, same⟩ := Exec.bind_eq_done.mp body
  cases same
  have whole : bits = buffer.length * 8 := by
    simp only [PrimeTest.checkedCast] at cast
    split at cast
    · cases cast
    · exact (Exec.done.inj cast).symm
  subst whole
  obtain ⟨p, rfl, size⟩ := ChiaVdf.createDiscriminant_done found
  rw [size.exported rfl] at exported
  exact ⟨p, size, (Exec.done.inj exported).symm, found⟩

theorem HonestSegment.accepted (bits : numBits d.D ≤ BQFC_MAX_D_BITS) (lawful : env.arith.Lawful d)
    (positive : HashPositive env) {x z : ReducedForm d} {s : Segment} (honest : HonestSegment env x z s)
    (start : DecodesTo d xS 0 x) {sy sp : ByteString} (writtenY : serializeForm s.y (numBits d.D) = .done sy)
    (writtenP : serializeForm s.proof (numBits d.D) = .done sp) :
    env.checkProofOfTimeNWesolowski d.D xS (sy ++ sp) s.length (UInt64.ofNat (numBits d.D)) 0 = .done true := by
  obtain ⟨pi, repi, proves⟩ := honest.proves
  obtain ⟨sy', -, lengthY, writtenY', readY⟩ := reduced_roundTrip bits z
  obtain ⟨sp', -, lengthP, writtenP', readP⟩ := reduced_roundTrip bits pi
  rw [honest.y.serializeForm, writtenY'] at writtenY
  rw [repi.serializeForm, writtenP'] at writtenP
  cases writtenY
  cases writtenP
  have length : (sy ++ sp).length = 200 := by
    simp [lengthY, lengthP, BQFC_FORM_SIZE, BQFC_MAX_D_BITS]
  have inRange := (sizeBitsInRange_iff _).mp (sizeBits_of_bits bits (Bqfc.numBits_pos d.D))
  have decodeY : DecodesTo d (sy ++ sp) 0 z := by simpa using decodesTo_written [] sp lengthY (readY false)
  have decodeP : DecodesTo d (sy ++ sp) BQFC_FORM_SIZE pi := by
    simpa [lengthY] using decodesTo_written sy [] lengthP (readP false)
  refine (check_iff bits lawful positive xS _ (by omega) _ _ _).mpr ⟨inRange.1, inRange.2, ?_, ?_⟩
  · simpa [BQFC_FORM_SIZE, BQFC_MAX_D_BITS] using length
  · exact ⟨x, x, z, pi, 0, start, .nil, Nat.zero_le _, decodeY, decodeP, proves⟩

theorem length_of_deserialized {D : ℤ} {strict : Bool} {f : Form} (run : deserializeForm D xS strict = .done f) :
    xS.length = BQFC_FORM_SIZE := by
  obtain ⟨out, decoded, rest⟩ := Exec.bind_eq_done.mp run
  by_contra other
  have refused : out = none := by
    rw [Bqfc.deserialize] at decoded
    split_ifs at decoded
    all_goals exact (Exec.done.inj decoded).symm
  subst refused
  cases rest

/-- The clamped parameters are the ones that `ProveSlow` computes with. -/
theorem VerifierEnv.proveSlow_clamped (D : ℤ) (x : Form) (l k : ℤ) :
    env.proveSlow D x T l k = env.proveSlow D x T (max l 1) (max k 1) := by
  have clamp : ∀ v : ℤ, (if v ≤ 0 then 1 else v.toNat) = (if max v 1 ≤ 0 then 1 else (max v 1).toNat) := fun v => by
    split_ifs <;> omega
  simp only [VerifierEnv.proveSlow, clamp l, clamp k]

/-- The bytes `sy` and `sp` of an honest proof of `t` iterations from the form that `xS` decodes to. -/
structure Made (env : VerifierEnv) (x : ReducedForm d) (xS : ByteString) (t : UInt64) (sy sp : ByteString) : Prop where
  start : deserializeForm d.D xS false = .done x.form
  honest : ∃ y proof, HonestSegment env x (x ^ 2 ^ t.toNat) ⟨0, t, x.form, y, proof, false⟩ ∧
    serializeForm y (numBits d.D) = .done sy ∧ serializeForm proof (numBits d.D) = .done sp
  lengthY : sy.length = BQFC_FORM_SIZE
  lengthP : sp.length = BQFC_FORM_SIZE

theorem decodesTo_of_read {x : ReducedForm d} (read : deserializeForm d.D xS false = .done x.form) :
    DecodesTo d xS 0 x := by
  simpa using decodesTo_written [] [] (length_of_deserialized read) read

theorem Made.accepted {x : ReducedForm d} {sy sp : ByteString} (made : Made env x xS T sy sp)
    (bits : numBits d.D ≤ BQFC_MAX_D_BITS) (lawful : env.arith.Lawful d) (positive : HashPositive env) :
    env.checkProofOfTimeNWesolowski d.D xS (sy ++ sp) T (UInt64.ofNat (numBits d.D)) 0 = .done true := by
  obtain ⟨y, proof, honest, writtenY, writtenP⟩ := made.honest
  exact honest.accepted bits lawful positive (decodesTo_of_read made.start) writtenY writtenP

theorem Made.decodes {x : ReducedForm d} {t : UInt64} {sy sp : ByteString} (made : Made env x xS t sy sp)
    (bits : numBits d.D ≤ BQFC_MAX_D_BITS) :
    (∀ strict, deserializeForm d.D sy strict = .done (x ^ 2 ^ t.toNat).form) ∧
      serializeForm (x ^ 2 ^ t.toNat).form (numBits d.D) = .done sy ∧
      ∃ pi : ReducedForm d, deserializeForm d.D sp false = .done pi.form ∧
        Proves env x (x ^ 2 ^ t.toNat) pi t.toNat := by
  obtain ⟨y, proof, honest, writtenY, writtenP⟩ := made.honest
  obtain ⟨pi, repi, proves⟩ := honest.proves
  obtain ⟨sy', -, -, writtenY', readY⟩ := reduced_roundTrip bits (x ^ 2 ^ t.toNat)
  obtain ⟨sp', -, -, writtenP', readP⟩ := reduced_roundTrip bits pi
  rw [honest.y.serializeForm, writtenY'] at writtenY
  rw [repi.serializeForm, writtenP'] at writtenP
  cases writtenY
  cases writtenP
  exact ⟨readY, writtenY', pi, readP false, proves⟩

/-- `ProveSlow` on a form of the class group waits for the hash prime, and then has an honest proof. -/
theorem Library.proveSlow_outcome (bits : numBits d.D ≤ BQFC_MAX_D_BITS) (lawful : lib.arith.Lawful d)
    (estimates : lib.Estimates T.toNat) {x : ReducedForm d}
    (start : deserializeForm d.D xS false = .done x.form) :
    ((∃ seed, lib.verifier.hashPrime seed = .diverged) ∧ lib.proveSlow d.D x.form T = .diverged) ∨
    ∃ sy sp, lib.proveSlow d.D x.form T = .done (sy ++ sp) ∧ Made lib.verifier x xS T sy sp := by
  obtain ⟨estimated, few⟩ := estimates
  set l := (lib.parameters T.toNat).1
  set k := (lib.parameters T.toNat).2
  have lawful : lib.verifier.arith.Lawful d := lawful
  have lpos : 1 ≤ max l 1 := le_max_right _ _
  have kpos : 1 ≤ max k 1 := le_max_right _ _
  have fits : max k 1 * max l 1 < 2 ^ 31 := by
    have l_le : max l 1 ≤ 10 := max_le estimated.l_le.2 (by norm_num)
    have k_le : max k 1 ≤ 30 := max_le (by omega) (by norm_num)
    nlinarith
  have small : T.toNat < 2 ^ 62 := estimated.lt few
  obtain ⟨sx, -, -, writtenX, -⟩ := reduced_roundTrip bits x
  obtain ⟨sy, -, -, writtenY, -⟩ := reduced_roundTrip bits (x ^ 2 ^ T.toNat)
  have hash : lib.verifier.getB d.D x.form (x ^ 2 ^ T.toNat).form = lib.verifier.hashPrime (sx ++ sy) := by
    simp [VerifierEnv.getB, writtenX, writtenY]
  cases lib.hashPrime_cases (sx ++ sy) with
  | inl diverged =>
    obtain ⟨y, inter, repy, -, -, run⟩ := proveSlow_squared lawful x kpos lpos fits small
    have endless : lib.verifier.getB d.D x.form y = .diverged :=
      (x.represents.getB repy).trans (hash.trans diverged)
    refine .inl ⟨⟨_, diverged⟩, ?_⟩
    rw [Library.proveSlow, VerifierEnv.proveSlow_clamped, run]
    simp [VerifierEnv.generateWesolowski, endless]
  | inr found =>
    obtain ⟨B, found, low⟩ := found
    obtain ⟨y, proof, honest, sy, sp, writtenY, writtenP, lengthY, lengthP, run⟩ :=
      proveSlow_hashed bits lawful x kpos lpos
      (show max k 1 < 31 by omega) fits small (hash.trans found) low
    apply Or.inr
    refine ⟨sy, sp, ?_, start, ⟨y, proof, honest, writtenY, writtenP⟩, lengthY, lengthP⟩
    rw [Library.proveSlow, VerifierEnv.proveSlow_clamped, run]

end Boundary

namespace Rust

section RoundTrip

variable {lib : Library} {challenge buffer disc xS : ByteString} {T : UInt64}

theorem prove_created (created : createDiscriminant lib challenge buffer = .done (true, disc)) :
    prove lib challenge xS (buffer.length * 8) T = Exec.catchAll none (do
      let x ← deserializeForm (-ByteString.ofMsbFirst disc) xS false
      let result ← lib.proveSlow (-ByteString.ofMsbFirst disc) x T
      return some result) := by
  obtain ⟨p, size, rfl, found⟩ := buffer_written created
  rw [prove, Library.proveWrapper, size.checkedCast, Exec.done_bind, found, Exec.done_bind, size.imported rfl]

theorem prove_refused (created : createDiscriminant lib challenge buffer = .done (true, disc)) {what : String}
    (refused : deserializeForm (-ByteString.ofMsbFirst disc) xS false = .thrown what) :
    prove lib challenge xS (buffer.length * 8) T = .done none := by
  rw [prove_created created, refused]
  rfl

/-- With an arithmetic that comes back. -/
theorem prove_outcome (lawful : ∀ d, lib.arith.Lawful d) (xS : ByteString)
    (created : createDiscriminant lib challenge buffer = .done (true, disc))
    (isPrime : (ByteString.ofMsbFirst disc).Prime) (estimates : lib.Estimates T.toNat) :
    (∃ what, deserializeForm (-ByteString.ofMsbFirst disc) xS false = .thrown what) ∨
    (prove lib challenge xS (buffer.length * 8) T = .diverged ∧ ∃ seed, lib.verifier.hashPrime seed = .diverged) ∨
    ∃ blob, prove lib challenge xS (buffer.length * 8) T = .done (some blob) ∧ blob.length = 200 ∧
      verifyNWesolowski lib disc xS blob T 0 = .done true := by
  rw [prove_created created]
  obtain ⟨p, size, rfl, -⟩ := buffer_written created
  rw [size.imported rfl] at isPrime ⊢
  let d : Discriminant := ⟨p, isPrime, size.mod8⟩
  have bits : numBits d.D ≤ BQFC_MAX_D_BITS := size.numBits.trans_le size.limit
  cases deserializeForm_total d.D_neg bits xS false with
  | inl refused => exact .inl refused
  | inr decoded =>
    obtain ⟨f, decoded, -⟩ := decoded
    obtain ⟨x, rfl⟩ := deserializeForm_reduced decoded
    have decoded' : deserializeForm (-p) xS false = .done x.form := decoded
    cases lib.proveSlow_outcome bits (lawful d) estimates decoded with
    | inl endless =>
      obtain ⟨searching, diverged⟩ := endless
      have diverged : lib.proveSlow (-p) x.form T = .diverged := diverged
      exact .inr (.inl ⟨by simp [decoded', diverged, Exec.catchAll], searching⟩)
    | inr proved =>
      obtain ⟨sy, sp, proved, made⟩ := proved
      have proved : lib.proveSlow (-p) x.form T = .done (sy ++ sp) := proved
      refine .inr (.inr ⟨sy ++ sp, by simp [decoded', proved, Exec.catchAll], ?_, ?_⟩)
      · simp [made.lengthY, made.lengthP, BQFC_FORM_SIZE, BQFC_MAX_D_BITS]
      · have sizeBits : numBits d.D = buffer.length * 8 := size.numBits
        rw [verifyNWesolowski, Library.verifyNWesolowskiWrapper, size.imported rfl, ByteString.length_msbFirst,
          ← sizeBits]
        exact (Exec.catchAll_done (by simp)).mpr (made.accepted bits (lawful d) lib.verifier_positive)

/-- The round trip of the Rust interface. For a discriminant that `create_discriminant` has written and that is prime,
`prove` has no other outcomes than these: the bytes of the form are refused, the search for a hash prime goes on, or
there is a blob of two forms, and `verify_n_wesolowski` accepts it, unless one of them does not come back from the
reducer. -/
theorem prove_verified (lib : Library) {turns : ℕ} (shipped : lib.arith = .inPlace turns)
    (challenge buffer disc xS : ByteString) (T : UInt64)
    (created : createDiscriminant lib challenge buffer = .done (true, disc))
    (isPrime : (ByteString.ofMsbFirst disc).Prime) (estimates : lib.Estimates T.toNat) :
    (prove lib challenge xS (buffer.length * 8) T = .done none ∧
      ∃ what, deserializeForm (-ByteString.ofMsbFirst disc) xS false = .thrown what) ∨
    (prove lib challenge xS (buffer.length * 8) T = .diverged ∧ ∃ seed, lib.verifier.hashPrime seed = .diverged) ∨
    ∃ blob, Exec.Below (prove lib challenge xS (buffer.length * 8) T) (.done (some blob)) ∧ blob.length = 200 ∧
      Exec.Below (verifyNWesolowski lib disc xS blob T 0) (.done true) := by
  have lawful (d : Discriminant) : lib.completed.arith.Lawful d := by
    rw [Library.completed, shipped]
    exact (FormArith.inPlace_within turns d).completed
  have created' : createDiscriminant lib.completed challenge buffer = .done (true, disc) := created
  have estimates' : lib.completed.Estimates T.toNat := estimates
  have below := prove_below lib challenge xS (buffer.length * 8) T
  rcases prove_outcome lawful xS created' isPrime estimates' with
    ⟨what, refused⟩ | ⟨diverged, searching⟩ | ⟨blob, proved, length, verified⟩
  · exact .inl ⟨prove_refused created refused, what, refused⟩
  · rw [diverged] at below
    exact .inr (.inl ⟨below.elim id id, searching⟩)
  · refine .inr (.inr ⟨blob, proved ▸ below, length, ?_⟩)
    rw [← verified]
    exact verifyNWesolowski_below lib disc xS blob T 0

end RoundTrip

/-- A hash of which the first candidate of eight bits is the prime 151. -/
def library151 : Library where
  arith := .inPlace 4
  sha := fun _ => Vector.replicate 32 0x97
  prime := fun _ => true
  candidates := 1
  parameters := fun t => (1, if t < 100 then 2 else 3)

/-- 270 iterations from the generator. -/
theorem prove_verified_151 : ∃ blob, prove library151 [0] (Bqfc.padded [Bqfc.IS_GEN]) 8 270 = .done (some blob) ∧
    blob.length = 200 ∧ verifyNWesolowski library151 [0x97] (Bqfc.padded [Bqfc.IS_GEN]) blob 270 0 = .done true := by
  have isPrime : (ByteString.ofMsbFirst [0x97]).Prime := by
    rw [show ByteString.ofMsbFirst [0x97] = 151 from rfl]
    norm_num
  have made : prove library151 [0] (Bqfc.padded [Bqfc.IS_GEN]) 8 270 =
      .done (some (Bqfc.padded [Bqfc.IS_GEN] ++ Bqfc.padded [2, 0, 5, 0, 1, 1])) := by decide +kernel
  have outcome := prove_verified library151 rfl [0] [0] [0x97] (Bqfc.padded [Bqfc.IS_GEN]) 270
    (by decide +kernel) isPrime ⟨approximateParameters_some, by decide⟩
  rcases outcome with ⟨refused, -⟩ | ⟨diverged, -⟩ | ⟨blob, proved, length, verified⟩
  · cases made.symm.trans refused
  · cases made.symm.trans diverged
  · obtain rfl := Option.some.inj (Exec.done.inj (proved.done made))
    refine ⟨_, made, length, verified.resolve_left ?_⟩
    decide +kernel

end Rust

end ChiaVdf
