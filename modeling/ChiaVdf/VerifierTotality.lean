import ChiaVdf.BqfcSafety
import ChiaVdf.LazyPower
import ChiaVdf.Verifier

/-! Which calls of `CheckProofOfTimeNWesolowski` come back. For a negative discriminant every
division has a divisor and every loop an end, whatever the bytes are, but for the loop of the
reducer. For the others only a form that is refused on reading saves the process. -/
namespace ChiaVdf

open BinaryForm

/-- The verifier on the arithmetic it is built with; every reduction may take `turns` turns. -/
def verifierEnv (hashPrime : ByteString → Exec ℤ) (turns : ℕ) : VerifierEnv where
  arith := FormArith.inPlace turns
  hashPrime := hashPrime

/-- A reduced form of the discriminant. -/
structure ReducedOf (D : ℤ) (f : Form) : Prop where
  reduced : f.Reduced
  disc : f.disc = D

theorem ReducedOf.of {D : ℤ} {f : Form} (red : ReducedOf D f) : OfDisc D f :=
  ⟨red.reduced.pos, red.disc⟩

/-- The bound the verifier passes on. -/
def rootOf (D : ℤ) : ℤ := (-D).toNat.sqrt.sqrt

namespace VerifierTotality

open Exec VerifierEnv

section Negative

variable {D n : ℤ} {f g x proof : Form} {hashPrime : ByteString → Exec ℤ} {blob : ByteString}

theorem mpzRoot4_neg (neg : D < 0) : mpzRoot4 (-D) = .done (rootOf D) := by
  unfold mpzRoot4 rootOf
  rw [if_neg (by omega)]

theorem readBytes_done {offset size : ℕ} (within : offset + size ≤ blob.length) :
    ∃ bytes, readBytes blob offset size = .done bytes := ⟨_, if_pos within⟩

theorem deserializeAt_settles (neg : D < 0) (bits : numBits D ≤ BQFC_MAX_D_BITS) {offset : ℕ}
    (within : offset + BQFC_FORM_SIZE ≤ blob.length) :
    (deserializeAt D blob offset).Safe ∧ ∀ f, deserializeAt D blob offset = .done f → ReducedOf D f := by
  obtain ⟨bytes, read⟩ := readBytes_done within
  rw [deserializeAt, read, Exec.done_bind]
  rcases deserializeForm_total neg bits bytes false with ⟨what, run⟩ | ⟨f, run, red, disc⟩
  · rw [run]
    exact ⟨trivial, fun f same => nomatch same⟩
  · rw [run]
    exact ⟨trivial, fun g same => Exec.done.inj same ▸ ⟨red, disc⟩⟩

/-- The powers of `f` that a proof can ask for come back: the exponents have `B_bits` bits. -/
def PowersReturn (D : ℤ) (f : Form) : Prop :=
  ∀ n : ℤ, 0 < n → n < 2 ^ B_bits →
    ∃ turns g, (FormArith.inPlace turns).fastPowFormNucomp f D n (rootOf D) = .done g

theorem rootOf_nonneg (D : ℤ) : 0 ≤ rootOf D := Int.natCast_nonneg _

theorem power_settles (neg : D < 0) (base : OfDisc D f) (powers : PowersReturn D f) (nonneg : 0 ≤ n)
    (small : n < 2 ^ B_bits) :
    Settles (OfDisc D) fun turns => (FormArith.inPlace turns).fastPowFormNucomp f D n (rootOf D) := by
  by_cases zero : n = 0
  · have same (turns : ℕ) : (FormArith.inPlace turns).fastPowFormNucomp f D n (rootOf D) = Form.identity D := by
      rw [FormArith.fastPowFormNucomp, if_pos zero]
    simp only [same]
    rcases Form.fromAbd_total neg 1 1 with ⟨what, run⟩ | ⟨g, run, red, disc⟩
    · exact .const (by rw [Form.identity, run]; trivial) fun a done => by rw [Form.identity, run] at done; cases done
    · refine .const (by rw [Form.identity, run]; trivial) fun a done => ?_
      rw [Form.identity, run] at done
      exact Exec.done.inj done ▸ ⟨red.pos, disc⟩
  · obtain ⟨turns, g, run⟩ := powers n (by omega) small
    have of := ((base.fastPow_within neg (rootOf_nonneg D) zero turns).value run).1
    exact (Returns.of_extends (fun turns' le => FormArith.fastPow_mono le) run of).settles

theorem multiply_done (neg : D < 0) (of : OfDisc D f) (of' : OfDisc D g) :
    ∃ h, Form.multiply f g = .done h ∧ ReducedOf D h := by
  obtain ⟨z, -, spos, tpos, run⟩ := Form.multiply_eq_reduce of.pos of'.pos (of'.disc.trans of.disc.symm)
  have composite := of.composite z spos tpos
  obtain ⟨h, reduced, red, e⟩ := Form.reduce_spec composite.pos (composite.disc ▸ neg)
  exact ⟨h, run.trans reduced, red, e.disc_eq.trans composite.disc⟩

theorem serializeForm_done (neg : D < 0) (bits : numBits D ≤ BQFC_MAX_D_BITS) (red : ReducedOf D f) :
    ∃ bytes, serializeForm f (numBits D) = .done bytes := by
  have fits := Bqfc.reduced_a_fits red.reduced red.disc neg
  have wider : f.a.natAbs < 256 ^ (2 * Bqfc.words (numBits D) + 2) :=
    fits.trans_le (Nat.pow_le_pow_right (by norm_num) (by omega))
  have pos := red.reduced.pos
  obtain ⟨⟨ret, bytes⟩, run⟩ := Bqfc.serialize_total (b := f.b) (Bqfc.numBits_pos D) bits pos.le (by omega) wider
  exact ⟨bytes, by rw [serializeForm, Form.reduce_of_reduced red.reduced, Exec.done_bind, run]; rfl⟩

/-- Numbers of at most `B_bits` bits. -/
def InRange (B : ℤ) : Prop := 0 ≤ B ∧ B < 2 ^ B_bits

/-- `HashPrime` returns a number of its size or throws. -/
def Hashes (hashPrime : ByteString → Exec ℤ) : Prop :=
  ∀ s, (hashPrime s).Safe ∧ ∀ B, hashPrime s = .done B → InRange B

theorem getB_spec (hash : Hashes hashPrime) (neg : D < 0) (bits : numBits D ≤ BQFC_MAX_D_BITS)
    (red : ReducedOf D f) (red' : ReducedOf D g) (turns : ℕ) :
    ((verifierEnv hashPrime turns).getB D f g).Safe ∧
      ∀ B, (verifierEnv hashPrime turns).getB D f g = .done B → InRange B := by
  obtain ⟨first, run⟩ := serializeForm_done neg bits red
  obtain ⟨second, run'⟩ := serializeForm_done neg bits red'
  rw [getB, run, run', Exec.done_bind, Exec.done_bind]
  exact hash _

theorem fastPow_spec (b : UInt64) (range : InRange B) :
    (fastPow b B).Safe ∧ ∀ r, fastPow b B = .done r → InRange r := by
  unfold fastPow
  by_cases zero : B = 0
  · rw [if_pos zero]
    exact ⟨trivial, fun r run => nomatch run⟩
  · rw [if_neg zero, mpzPowmUi_done zero]
    refine ⟨trivial, fun r run => ?_⟩
    obtain rfl := Exec.done.inj run
    have low := Int.emod_nonneg (2 ^ b.toNat) zero
    have high := Int.emod_lt_of_pos (2 ^ b.toNat) (show 0 < B by have := range.1; omega)
    exact ⟨low, high.trans range.2⟩

variable (hash : Hashes hashPrime) (neg : D < 0) (powers : ∀ f, ReducedOf D f → PowersReturn D f)
include neg powers

theorem segmentEnd_settles {B : ℤ} {iters : UInt64} (redx : ReducedOf D x) (redp : ReducedOf D proof)
    (range : InRange B) :
    Settles (ReducedOf D) fun turns => (verifierEnv hashPrime turns).segmentEnd D x proof B iters := by
  simp only [segmentEnd, mpzRoot4_neg neg, Exec.done_bind]
  obtain ⟨safe, inRange⟩ := fastPow_spec iters range
  refine Settles.bind (.const (P := InRange) safe inRange) fun r _ _ ranger => ?_
  refine Settles.bind (power_settles neg redp.of (powers proof redp) range.1 range.2) fun f1 _ _ of1 => ?_
  refine Settles.bind (power_settles neg redx.of (powers x redx) ranger.1 ranger.2) fun f2 _ _ of2 => ?_
  obtain ⟨h, product, red⟩ := multiply_done neg of1 of2
  rw [product]
  exact .done red

include hash

theorem verifyWesoSegment_settles (bits : numBits D ≤ BQFC_MAX_D_BITS) {B : ℤ} {iters : UInt64}
    (redx : ReducedOf D x) (redp : ReducedOf D proof) (range : InRange B) :
    Settles (fun r => ReducedOf D r.2)
      fun turns => (verifierEnv hashPrime turns).verifyWesoSegment D x proof B iters := by
  unfold verifyWesoSegment
  apply (segmentEnd_settles neg powers redx redp range).bind
  intro outY _ _ red
  have same (turns : ℕ) : (verifierEnv hashPrime turns).getB D x outY = (verifierEnv hashPrime 0).getB D x outY := rfl
  simp only [same]
  obtain ⟨safe, inRange⟩ := getB_spec hash neg bits redx red 0
  exact Settles.bind (.const (P := InRange) safe inRange) fun b _ _ _ => .done red

theorem verifyWesolowskiProof_settles (bits : numBits D ≤ BQFC_MAX_D_BITS) {y : Form} {iters : UInt64}
    (redx : ReducedOf D x) (redy : ReducedOf D y) (redp : ReducedOf D proof) :
    Settles (fun _ => True) fun turns => (verifierEnv hashPrime turns).verifyWesolowskiProof D x y proof iters := by
  have same (turns : ℕ) : (verifierEnv hashPrime turns).getB D x y = (verifierEnv hashPrime 0).getB D x y := rfl
  simp only [verifyWesolowskiProof_eq _ (mpzRoot4_neg neg), same]
  obtain ⟨safe, inRange⟩ := getB_spec hash neg bits redx redy 0
  refine Settles.bind (.const (P := InRange) safe inRange) fun B _ _ range => ?_
  refine Settles.bind (segmentEnd_settles neg powers redx redp range) fun product _ _ _ => ?_
  exact .done trivial

end Negative

section Segments

variable {D : ℤ} {hashPrime : ByteString → Exec ℤ} {blob : ByteString} {x : Form}

theorem bytesToInt64_done {offset : ℕ} (within : offset + 8 ≤ blob.length) :
    ∃ iters, bytesToInt64 blob offset = .done iters := by
  obtain ⟨bytes, read⟩ := readBytes_done within
  exact ⟨_, by rw [bytesToInt64, read]; rfl⟩

theorem integerOfBytes_done {offset : ℕ} (within : offset + B_bytes ≤ blob.length) :
    ∃ B, integerOfBytes blob offset B_bytes = .done B ∧ InRange B := by
  obtain ⟨bytes, read⟩ := readBytes_done within
  refine ⟨_, by rw [integerOfBytes, read]; rfl, Int.natCast_nonneg _, ?_⟩
  have length : bytes.length = B_bytes := by
    rw [readBytes, if_pos within] at read
    obtain rfl := Exec.done.inj read
    rw [List.length_take, List.length_drop]
    omega
  have small := ByteString.ofMsbFirst_lt bytes
  rw [length, show (256 : ℕ) = 2 ^ 8 by norm_num, ← pow_mul] at small
  exact_mod_cast small

theorem walkSegments_settles (hash : Hashes hashPrime) (neg : D < 0) (bits : numBits D ≤ BQFC_MAX_D_BITS)
    (powers : ∀ f, ReducedOf D f → PowersReturn D f) (fuel k : ℕ) (iterations : UInt64) (enough : k < fuel)
    (inside : 2 * BQFC_FORM_SIZE + k * segmentLen ≤ blob.length) (red : ReducedOf D x) :
    Settles (fun out => ∀ r, out = some r → ReducedOf D r.1)
      fun turns => (verifierEnv hashPrime turns).walkSegments false D blob (2 * BQFC_FORM_SIZE) fuel
        (2 * BQFC_FORM_SIZE + k * segmentLen) x iterations := by
  induction fuel generalizing k x iterations with
  | zero => omega
  | succ fuel ih =>
    cases k with
    | zero =>
      simp only [walkSegments, zero_mul, add_zero, gt_iff_lt, lt_self_iff_false, if_false]
      exact .done fun r same => Option.some.inj same ▸ red
    | succ k =>
      have length : segmentLen = 8 + B_bytes + BQFC_FORM_SIZE := rfl
      have size : BQFC_FORM_SIZE = 100 := rfl
      have split : 2 * BQFC_FORM_SIZE + (k + 1) * segmentLen = 2 * BQFC_FORM_SIZE + k * segmentLen + segmentLen := by
        rw [Nat.add_one_mul k, Nat.add_assoc]
      have next (x : Form) (rest : UInt64) := @ih x k rest (by omega) (by omega)
      rw [split] at inside ⊢
      have least : 2 * BQFC_FORM_SIZE ≤ 2 * BQFC_FORM_SIZE + k * segmentLen := Nat.le_add_right _ _
      generalize 2 * BQFC_FORM_SIZE + k * segmentLen = i at *
      have more : i + segmentLen > 2 * BQFC_FORM_SIZE := by omega
      obtain ⟨iters, readIters⟩ := bytesToInt64_done (show i + 8 ≤ blob.length by omega)
      obtain ⟨B, readB, range⟩ := integerOfBytes_done (show i + 8 + B_bytes ≤ blob.length by omega)
      obtain ⟨safe, decoded⟩ := deserializeAt_settles neg bits
        (show i + 8 + B_bytes + BQFC_FORM_SIZE ≤ blob.length by omega)
      have back : i + segmentLen - segmentLen = i := Nat.add_sub_cancel i segmentLen
      simp only [walkSegments, if_pos more, back, readIters, readB, Exec.done_bind, nextForm,
        Bool.false_eq_true, if_false, bind_assoc, Exec.pure_eq]
      refine Settles.bind (.const (P := ReducedOf D) safe decoded) fun proof _ _ redp => ?_
      refine Settles.bind (verifyWesoSegment_settles hash neg powers bits red redp range) fun r _ _ redr => ?_
      by_cases refused : r.1 ≠ 0
      · simp only [if_pos refused]
        exact .done fun r same => by cases same
      simp only [if_neg refused]
      by_cases exceeds : iters > iterations
      · simp only [if_pos exceeds]
        exact .done fun r same => by cases same
      · simp only [if_neg exceeds]
        exact next r.2 _ redr

end Segments

/-- What the verifier refuses before it reads a form. -/
def Refused (D : ℤ) (blob : ByteString) (discSizeBits depth : UInt64) : Prop :=
  isDiscSizeBitsInRange discSizeBits = false ∨ isDiscriminantInRange D = false ∨
    depth.toNat > maxDepth (2 * BQFC_FORM_SIZE) ∨ blob.length ≠ expectedLen (2 * BQFC_FORM_SIZE) depth

/-- The arguments of the last check. Which of the two calls comes first is up to the compiler. -/
def lastForms (proofFirst : Bool) (D : ℤ) (blob : ByteString) : Exec (Form × Form) :=
  if proofFirst then do
    let proof ← deserializeAt D blob BQFC_FORM_SIZE
    let y ← deserializeAt D blob 0
    return (y, proof)
  else do
    let y ← deserializeAt D blob 0
    let proof ← deserializeAt D blob BQFC_FORM_SIZE
    return (y, proof)

/-- `CheckProofOfTimeNWesolowski` with the arguments of the last check read in either order. -/
def checkProofInOrder (proofFirst : Bool) (env : VerifierEnv) (D : ℤ) (xS blob : ByteString)
    (iterations discSizeBits depth : UInt64) : Exec Bool :=
  if !isDiscSizeBitsInRange discSizeBits ∨ !isDiscriminantInRange D then .done false
  else
    let baseLen := 2 * BQFC_FORM_SIZE
    if depth.toNat > maxDepth baseLen then .done false
    else if blob.length ≠ expectedLen baseLen depth then .done false
    else do
      let x ← deserializeAt D xS 0
      match ← env.walkSegments false D blob baseLen (blob.length + 1) blob.length x iterations with
      | none => return false
      | some (x, iterations) =>
        let forms ← lastForms proofFirst D blob
        env.verifyWesolowskiProof D x forms.1 forms.2 iterations

section Call

variable {D : ℤ} {hashPrime : ByteString → Exec ℤ} {blob xS : ByteString} {iterations discSizeBits depth : UInt64}
  {proofFirst : Bool}

theorem checkProofInOrder_false (env : VerifierEnv) :
    checkProofInOrder false env D xS blob iterations discSizeBits depth =
      env.checkProofOfTimeNWesolowski D xS blob iterations discSizeBits depth := by
  unfold checkProofInOrder checkProofOfTimeNWesolowski
  dsimp only
  split_ifs
  · rfl
  · rfl
  · rfl
  · refine bind_congr fun x => bind_congr fun out => ?_
    cases out with
    | none => rfl
    | some r => simp [lastForms]

theorem checkProof_refused (env : VerifierEnv) (refused : Refused D blob discSizeBits depth) :
    checkProofInOrder proofFirst env D xS blob iterations discSizeBits depth = .done false := by
  unfold checkProofInOrder
  by_cases range : !isDiscSizeBitsInRange discSizeBits ∨ !isDiscriminantInRange D
  · rw [if_pos range]
  · rw [if_neg range]
    dsimp only
    split_ifs with deep length
    · rfl
    · rfl
    · rcases refused with size | bits | deep' | length'
      · exact absurd (.inl (by rw [size]; rfl)) range
      · exact absurd (.inr (by rw [bits]; rfl)) range
      · exact absurd deep' deep
      · exact absurd length' length

/-- What is left to do for the others. -/
theorem checkProof_accepted (env : VerifierEnv) (accepted : ¬Refused D blob discSizeBits depth) :
    checkProofInOrder proofFirst env D xS blob iterations discSizeBits depth = (do
      let x ← deserializeAt D xS 0
      match ← env.walkSegments false D blob (2 * BQFC_FORM_SIZE) (blob.length + 1) blob.length x iterations with
      | none => return false
      | some (x, iterations) =>
        let forms ← lastForms proofFirst D blob
        env.verifyWesolowskiProof D x forms.1 forms.2 iterations) := by
  unfold Refused at accepted
  push Not at accepted
  obtain ⟨size, bits, deep, length⟩ := accepted
  unfold checkProofInOrder
  rw [if_neg (by simp [size, bits])]
  dsimp only
  rw [if_neg (not_lt.mpr deep)]
  exact if_neg (not_not.mpr length)

/-- The answer does not depend on the order, where both orders have one. -/
theorem checkProofInOrder_done (env : VerifierEnv) (answer : Bool) :
    checkProofInOrder proofFirst env D xS blob iterations discSizeBits depth = .done answer ↔
      env.checkProofOfTimeNWesolowski D xS blob iterations discSizeBits depth = .done answer := by
  have forms (r : Form × Form) : lastForms proofFirst D blob = .done r ↔ lastForms false D blob = .done r := by
    cases proofFirst with
    | false => exact Iff.rfl
    | true =>
      simp only [lastForms, if_true, Bool.false_eq_true, if_false, Exec.bind_eq_done]
      constructor
      · rintro ⟨proof, readp, y, ready, done⟩
        exact ⟨y, ready, proof, readp, done⟩
      · rintro ⟨y, ready, proof, readp, done⟩
        exact ⟨proof, readp, y, ready, done⟩
  rw [← checkProofInOrder_false]
  by_cases refused : Refused D blob discSizeBits depth
  · rw [checkProof_refused env refused, checkProof_refused env refused]
  rw [checkProof_accepted env refused, checkProof_accepted env refused]
  simp only [Exec.bind_eq_done]
  refine exists_congr fun x => and_congr_right fun _ => exists_congr fun out => and_congr_right fun _ => ?_
  cases out with
  | none => exact Iff.rfl
  | some r => simp only [Exec.bind_eq_done, forms]

theorem length_accepted (accepted : ¬Refused D blob discSizeBits depth) :
    numBits D ≤ BQFC_MAX_D_BITS ∧ blob.length = 2 * BQFC_FORM_SIZE + depth.toNat * segmentLen := by
  unfold Refused at accepted
  push Not at accepted
  obtain ⟨-, bits, deep, length⟩ := accepted
  have inRange : 0 < numBits D ∧ numBits D ≤ BQFC_MAX_D_BITS := by
    simpa [isDiscriminantInRange] using bits
  refine ⟨inRange.2, length.trans (Nat.mod_eq_of_lt ?_)⟩
  have size : segmentLen = 141 := rfl
  have base : BQFC_FORM_SIZE = 100 := rfl
  unfold maxDepth sizeMax at deep
  rw [size, base] at deep ⊢
  omega

theorem lastForms_settles (proofFirst : Bool) (neg : D < 0) (bits : numBits D ≤ BQFC_MAX_D_BITS)
    (room : 2 * BQFC_FORM_SIZE ≤ blob.length) :
    (lastForms proofFirst D blob).Safe ∧
      ∀ r, lastForms proofFirst D blob = .done r → ReducedOf D r.1 ∧ ReducedOf D r.2 := by
  obtain ⟨safey, decodedy⟩ := deserializeAt_settles neg bits (show 0 + BQFC_FORM_SIZE ≤ blob.length by omega)
  obtain ⟨safep, decodedp⟩ := deserializeAt_settles neg bits
    (show BQFC_FORM_SIZE + BQFC_FORM_SIZE ≤ blob.length by omega)
  cases proofFirst with
  | true =>
    simp only [lastForms, if_true]
    refine ⟨safep.bind fun proof _ => safey.bind fun y _ => trivial, fun r run => ?_⟩
    obtain ⟨proof, readp, run⟩ := Exec.bind_eq_done.mp run
    obtain ⟨y, ready, run⟩ := Exec.bind_eq_done.mp run
    obtain rfl := Exec.done.inj run
    exact ⟨decodedy y ready, decodedp proof readp⟩
  | false =>
    simp only [lastForms, Bool.false_eq_true, if_false]
    refine ⟨safey.bind fun y _ => safep.bind fun proof _ => trivial, fun r run => ?_⟩
    obtain ⟨y, ready, run⟩ := Exec.bind_eq_done.mp run
    obtain ⟨proof, readp, run⟩ := Exec.bind_eq_done.mp run
    obtain rfl := Exec.done.inj run
    exact ⟨decodedy y ready, decodedp proof readp⟩

/-- A negative discriminant: the verifier returns or throws, if the powers of its forms come back. -/
theorem checkProof_settles (hash : Hashes hashPrime) (neg : D < 0)
    (powers : ∀ f, ReducedOf D f → PowersReturn D f) (room : xS.length = BQFC_FORM_SIZE) :
    Settles (fun _ => True) fun turns =>
      checkProofInOrder proofFirst (verifierEnv hashPrime turns) D xS blob iterations discSizeBits depth := by
  by_cases refused : Refused D blob discSizeBits depth
  · simp only [checkProof_refused _ refused]
    exact .done trivial
  obtain ⟨bits, length⟩ := length_accepted refused
  obtain ⟨safe, decoded⟩ := deserializeAt_settles neg bits (show 0 + BQFC_FORM_SIZE ≤ xS.length by omega)
  simp only [checkProof_accepted _ refused]
  refine Settles.bind (.const (P := ReducedOf D) safe decoded) fun x _ _ red => ?_
  have enough : depth.toNat < blob.length + 1 := by
    have wide := Nat.le_mul_of_pos_right depth.toNat (show 0 < segmentLen by decide)
    omega
  have walk := walkSegments_settles hash neg bits powers (blob.length + 1) depth.toNat iterations enough
    length.ge red
  rw [← length] at walk
  apply walk.bind
  intro out _ _ reached
  cases out with
  | none => exact .done trivial
  | some r =>
    obtain ⟨safe, decoded⟩ := lastForms_settles proofFirst neg bits
      (show 2 * BQFC_FORM_SIZE ≤ blob.length by omega)
    refine Settles.bind (.const safe decoded) fun forms _ _ red => ?_
    exact verifyWesolowskiProof_settles hash neg powers bits (reached r rfl) red.1 red.2

end Call

section Indefinite

variable {D : ℤ} {hashPrime : ByteString → Exec ℤ} {blob xS : ByteString} {iterations discSizeBits depth : UInt64}
  {proofFirst : Bool}

/-- The forms that are read before the first root is taken. -/
def decodings (proofFirst : Bool) (D : ℤ) (xS blob : ByteString) : Exec Unit := do
  let _ ← deserializeAt D xS 0
  if blob.length > 2 * BQFC_FORM_SIZE then do
    let _ ← deserializeAt D blob (blob.length - BQFC_FORM_SIZE)
    return ()
  else do
    let _ ← lastForms proofFirst D blob
    return ()

theorem deserializeAt_indefinite (nonneg : 0 ≤ D) (bits : numBits D ≤ BQFC_MAX_D_BITS) {offset : ℕ}
    (within : offset + BQFC_FORM_SIZE ≤ blob.length) :
    (∃ what, deserializeAt D blob offset = .thrown what) ∨
      (0 < D ∧ ∃ f, deserializeAt D blob offset = .done f) ∨
      deserializeAt D blob offset = .fault .divideByZero := by
  obtain ⟨bytes, read⟩ := readBytes_done within
  obtain ⟨out, run⟩ := Bqfc.deserialize_total (Bqfc.numBits_pos D) bits D bytes false
  rw [deserializeAt, read, Exec.done_bind, deserializeForm, run, Exec.done_bind]
  rcases out with - | ⟨a, b⟩
  · exact .inl ⟨_, rfl⟩
  · dsimp only
    rcases Form.fromAbd_indefinite (a := a) (b := b) nonneg with ⟨what, thrown⟩ | ⟨pos, g, done⟩ | fault
    · exact .inl ⟨what, by rw [thrown]; rfl⟩
    · rw [done, Exec.done_bind]
      split
      · exact .inl ⟨_, rfl⟩
      · exact .inr (.inl ⟨pos, g, rfl⟩)
    · exact .inr (.inr (by rw [fault]; rfl))

theorem mpzRoot4_pos (pos : 0 < D) : mpzRoot4 (-D) = .fault .evenRootOfNegative := by
  rw [mpzRoot4, if_pos (by omega)]

theorem lastForms_indefinite (proofFirst : Bool) (nonneg : 0 ≤ D) (bits : numBits D ≤ BQFC_MAX_D_BITS)
    (room : 2 * BQFC_FORM_SIZE ≤ blob.length) :
    (∃ what, lastForms proofFirst D blob = .thrown what) ∨
      (0 < D ∧ ∃ r, lastForms proofFirst D blob = .done r) ∨
      lastForms proofFirst D blob = .fault .divideByZero := by
  have readY := deserializeAt_indefinite nonneg bits (show 0 + BQFC_FORM_SIZE ≤ blob.length by omega)
  have readP := deserializeAt_indefinite nonneg bits (show BQFC_FORM_SIZE + BQFC_FORM_SIZE ≤ blob.length by omega)
  cases proofFirst with
  | true =>
    rcases readP with ⟨what, thrown⟩ | ⟨pos, proof, done⟩ | fault
    · exact .inl ⟨what, by simp [lastForms, thrown]⟩
    · rcases readY with ⟨what, thrown⟩ | ⟨-, y, done'⟩ | fault
      · exact .inl ⟨what, by simp [lastForms, done, thrown]⟩
      · exact .inr (.inl ⟨pos, (y, proof), by simp [lastForms, done, done']⟩)
      · exact .inr (.inr (by simp [lastForms, done, fault]))
    · exact .inr (.inr (by simp [lastForms, fault]))
  | false =>
    rcases readY with ⟨what, thrown⟩ | ⟨pos, y, done⟩ | fault
    · exact .inl ⟨what, by simp [lastForms, thrown]⟩
    · rcases readP with ⟨what, thrown⟩ | ⟨-, proof, done'⟩ | fault
      · exact .inl ⟨what, by simp [lastForms, done, thrown]⟩
      · exact .inr (.inl ⟨pos, (y, proof), by simp [lastForms, done, done']⟩)
      · exact .inr (.inr (by simp [lastForms, done, fault]))
    · exact .inr (.inr (by simp [lastForms, fault]))

/-- Where no definite form exists, the call comes back if and only if a form that is read before the
first root is taken is refused. -/
theorem checkProof_indefinite (nonneg : 0 ≤ D) (room : xS.length = BQFC_FORM_SIZE)
    (accepted : ¬Refused D blob discSizeBits depth) (env : VerifierEnv) :
    (checkProofInOrder proofFirst env D xS blob iterations discSizeBits depth).Safe ↔
      ∃ what, decodings proofFirst D xS blob = .thrown what := by
  obtain ⟨bits, length⟩ := length_accepted accepted
  rw [checkProof_accepted env accepted, decodings]
  rcases deserializeAt_indefinite nonneg bits (show 0 + BQFC_FORM_SIZE ≤ xS.length by omega) with
    ⟨what, thrown⟩ | ⟨pos, x, done⟩ | fault
  · simp [thrown]
  · have root := mpzRoot4_pos pos
    rw [done, Exec.done_bind, Exec.done_bind]
    by_cases more : blob.length > 2 * BQFC_FORM_SIZE
    · have size : segmentLen = 8 + B_bytes + BQFC_FORM_SIZE := rfl
      have whole : 2 * BQFC_FORM_SIZE + segmentLen ≤ blob.length := by
        have one : 1 * segmentLen ≤ depth.toNat * segmentLen := Nat.mul_le_mul_right _ (by
          by_contra none
          have zero : depth.toNat = 0 := by omega
          rw [zero, zero_mul] at length
          omega)
        omega
      obtain ⟨iters, readIters⟩ := bytesToInt64_done
        (show blob.length - segmentLen + 8 ≤ blob.length by omega)
      obtain ⟨B, readB, -⟩ := integerOfBytes_done
        (show blob.length - segmentLen + 8 + B_bytes ≤ blob.length by omega)
      have place : blob.length - segmentLen + 8 + B_bytes = blob.length - BQFC_FORM_SIZE := by omega
      rw [if_pos more, walkSegments, if_pos more]
      simp only [readIters, Exec.done_bind, place]
      rcases deserializeAt_indefinite nonneg bits
          (show blob.length - BQFC_FORM_SIZE + BQFC_FORM_SIZE ≤ blob.length by omega)
        with ⟨what, thrown⟩ | ⟨-, proof, done⟩ | fault
      · simp [thrown]
      · simp [done, readB, nextForm, verifyWesoSegment, segmentEnd, root]
      · simp [fault]
    · rw [if_neg more, walkSegments, if_neg more, Exec.done_bind]
      dsimp only
      rcases lastForms_indefinite proofFirst nonneg bits (show 2 * BQFC_FORM_SIZE ≤ blob.length by omega)
        with ⟨what, thrown⟩ | ⟨-, forms, done⟩ | fault
      · simp [thrown]
      · simp [done, verifyWesolowskiProof, root]
      · simp [fault]
  · simp [fault]

end Indefinite

/-- A call comes back. -/
def ComesBack (hashPrime : ByteString → Exec ℤ) (proofFirst : Bool) (D : ℤ) (xS blob : ByteString)
    (iterations discSizeBits depth : UInt64) : Prop :=
  ∃ enough, ∀ turns ≥ enough, (checkProofInOrder proofFirst (verifierEnv hashPrime turns) D xS blob iterations
    discSizeBits depth).Safe

/-- All calls for a discriminant come back. -/
def AllComeBack (hashPrime : ByteString → Exec ℤ) (proofFirst : Bool) (D : ℤ) : Prop :=
  ∀ (xS blob : ByteString) (iterations discSizeBits depth : UInt64), xS.length = BQFC_FORM_SIZE →
    ComesBack hashPrime proofFirst D xS blob iterations discSizeBits depth

section Sender

variable {D n : ℤ} {f : Form} {hashPrime : ByteString → Exec ℤ} {proofFirst : Bool}

/-- A proof with one segment, whose form and whose `B` the sender chooses. -/
def chosen (s : ByteString) (n : ℤ) : ByteString :=
  s ++ s ++ (ByteString.msbFirst 8 0 ++ ByteString.msbFirst B_bytes n.toNat ++ s)

theorem length_chosen {s : ByteString} (length : s.length = BQFC_FORM_SIZE) :
    (chosen s n).length = 2 * BQFC_FORM_SIZE + segmentLen := by
  simp only [chosen, List.length_append, ByteString.length_msbFirst, length, segmentLen]
  omega

theorem readBytes_append (before bytes after : ByteString) :
    readBytes (before ++ (bytes ++ after)) before.length bytes.length = .done bytes := by
  rw [readBytes, if_pos (by simp), List.drop_left, List.take_left]

theorem deserializeAt_append {s : ByteString} (before after : ByteString) (length : s.length = BQFC_FORM_SIZE) :
    deserializeAt D (before ++ (s ++ after)) before.length = deserializeForm D s false := by
  rw [deserializeAt, ← length, readBytes_append, Exec.done_bind]

/-- What the loop over the segments reads in such a proof. -/
theorem chosen_reads {s : ByteString} (length : s.length = BQFC_FORM_SIZE) (pos : 0 < n) (small : n < 2 ^ B_bits) :
    (∃ iters, bytesToInt64 (chosen s n) (2 * BQFC_FORM_SIZE) = .done iters) ∧
      integerOfBytes (chosen s n) (2 * BQFC_FORM_SIZE + 8) B_bytes = .done n ∧
      deserializeAt D (chosen s n) (2 * BQFC_FORM_SIZE + 8 + B_bytes) = deserializeForm D s false := by
  have total := length_chosen (n := n) length
  have segment : segmentLen = 8 + B_bytes + BQFC_FORM_SIZE := rfl
  have two : (s ++ s).length = 2 * BQFC_FORM_SIZE := by rw [List.length_append, length, two_mul]
  have fits : n.toNat < 256 ^ B_bytes := by
    have same : 8 * B_bytes = B_bits := rfl
    rw [show (256 : ℕ) = 2 ^ 8 by norm_num, ← pow_mul, same]
    zify
    rwa [Int.toNat_of_nonneg pos.le]
  refine ⟨bytesToInt64_done (by omega), ?_, ?_⟩
  · have read := readBytes_append (s ++ s ++ ByteString.msbFirst 8 0) (ByteString.msbFirst B_bytes n.toNat) s
    rw [List.length_append, two, ByteString.length_msbFirst, ByteString.length_msbFirst] at read
    have shape : chosen s n = s ++ s ++ ByteString.msbFirst 8 0 ++ (ByteString.msbFirst B_bytes n.toNat ++ s) := by
      simp only [chosen, List.append_assoc]
    rw [integerOfBytes, shape, read, Exec.done_bind, ByteString.ofMsbFirst_of_lt fits, Int.toNat_of_nonneg pos.le]
    rfl
  · have read := deserializeAt_append (D := D)
      (s ++ s ++ ByteString.msbFirst 8 0 ++ ByteString.msbFirst B_bytes n.toNat) [] length
    rw [List.length_append, List.length_append, two, ByteString.length_msbFirst, ByteString.length_msbFirst,
      List.append_nil] at read
    rw [← read, chosen]
    simp only [List.append_assoc]

/-- The first thing that is done with such a proof is to raise its form to the power `B`. -/
theorem chosen_safe (neg : D < 0) (bits : numBits D ≤ BQFC_MAX_D_BITS) {s : ByteString}
    (length : s.length = BQFC_FORM_SIZE) (decoded : deserializeForm D s false = .done f) (pos : 0 < n)
    (small : n < 2 ^ B_bits) {turns : ℕ}
    (safe : (checkProofInOrder proofFirst (verifierEnv hashPrime turns) D s (chosen s n) 0 1 1).Safe) :
    ((FormArith.inPlace turns).fastPowFormNucomp f D n (rootOf D)).Safe := by
  have total := length_chosen (n := n) length
  have accepted : ¬Refused D (chosen s n) 1 1 := by
    have admitted : isDiscriminantInRange D = true := by
      simp [isDiscriminantInRange, Bqfc.numBits_pos, bits]
    rw [Refused, admitted, total]
    decide
  have readX : deserializeAt D s 0 = .done f := by
    have read := deserializeAt_append (D := D) [] [] length
    rwa [List.append_nil, decoded] at read
  obtain ⟨⟨iters, readIters⟩, readB, readProof⟩ := chosen_reads (D := D) length pos small
  have more : 2 * BQFC_FORM_SIZE + segmentLen > 2 * BQFC_FORM_SIZE := by decide
  rw [checkProof_accepted _ accepted, readX, Exec.done_bind, total, walkSegments, if_pos more,
    Nat.add_sub_cancel] at safe
  simp only [readIters, readB, readProof, decoded, Exec.done_bind, nextForm, Bool.false_eq_true, if_false,
    verifyWesoSegment, segmentEnd, mpzRoot4_neg neg, fastPow, if_neg pos.ne', mpzPowmUi_done pos.ne',
    bind_assoc] at safe
  exact safe.first

/-- The forms that some encoding stands for. -/
def Decoded (D : ℤ) (f : Form) : Prop := ∃ s, s.length = BQFC_FORM_SIZE ∧ deserializeForm D s false = .done f

/-- The powers of a form that can be sent have to come back. -/
theorem powers_of_all (neg : D < 0) (bits : numBits D ≤ BQFC_MAX_D_BITS) (decoded : Decoded D f)
    (all : AllComeBack hashPrime proofFirst D) : PowersReturn D f := by
  obtain ⟨s, length, read⟩ := decoded
  intro n pos small
  obtain ⟨turns, safe⟩ := all s (chosen s n) 0 1 1 length
  have first := chosen_safe neg bits length read pos small (safe turns le_rfl)
  have of : OfDisc D f := by
    rcases deserializeForm_total neg bits s false with ⟨what, thrown⟩ | ⟨g, run, red, disc⟩
    · cases thrown.symm.trans read
    · obtain rfl := Exec.done.inj (run.symm.trans read)
      exact ⟨red.pos, disc⟩
  have within := of.fastPow_within neg (rootOf_nonneg D) pos.ne' turns
  obtain ⟨g, run, -⟩ := within.done fun diverged => by rw [diverged] at first; exact first
  exact ⟨turns, g, run⟩

/-- Without a square divisor of the discriminant every reduced form can be sent. -/
theorem decoded_of_squarefree (neg : D < 0) (bits : numBits D ≤ BQFC_MAX_D_BITS) (free : Squarefree D)
    (red : ReducedOf D f) : Decoded D f := by
  obtain ⟨s, -, length, -, read⟩ := form_roundTrip neg free bits red.reduced red.disc
  exact ⟨s, length, read false⟩

end Sender
section Calls

variable {hashPrime : ByteString → Exec ℤ}

end Calls

section Seven

theorem reduced_seven {f : Form} (red : ReducedOf (-7) f) : f = ⟨1, 1, 2⟩ := by
  obtain ⟨reduced, disc⟩ := red
  have square := Reduced.three_sq_le reduced
  obtain ⟨low, high, -, -⟩ := reduced
  rw [disc] at square
  have one : f.a = 1 := by nlinarith
  have parity : f.b * f.b - 4 * f.a * f.c = -7 := by
    unfold BinaryForm.disc at disc
    linarith
  rw [one] at low high parity
  have b : f.b = 1 := by
    rcases (by omega : f.b = 0 ∨ f.b = 1) with zero | same
    · rw [zero] at parity
      omega
    · exact same
  rw [b] at parity
  ext
  · exact one
  · exact b
  · dsimp only
    omega

/-- Its powers go to and fro between two forms. -/
theorem powers_seven : PowersReturn (-7) ⟨1, 1, 2⟩ := by
  have root : rootOf (-7) = 1 := by
    change ((Nat.sqrt (Nat.sqrt 7) : ℕ) : ℤ) = 1
    norm_num
  have squares : (FormArith.inPlace 2).nudupl ⟨1, 1, 2⟩ (-7) 1 = .done ⟨2, 3, 2⟩ ∧
      (FormArith.inPlace 2).nudupl ⟨2, 3, 2⟩ (-7) 1 = .done ⟨1, 1, 2⟩ := by decide +kernel
  have small : (FormArith.inPlace 2).shrink (-7) ⟨1, 1, 2⟩ = .done ⟨1, 1, 2⟩ ∧
      (FormArith.inPlace 2).shrink (-7) ⟨2, 3, 2⟩ = .done ⟨1, 1, 2⟩ := by decide +kernel
  have product : (FormArith.inPlace 2).nucomp ⟨1, 1, 2⟩ ⟨1, 1, 2⟩ (-7) 1 = .done ⟨2, 3, 2⟩ := by decide +kernel
  have last : Reducer.run 2 ⟨1, 1, 2⟩ = .done ⟨1, 1, 2⟩ ∧ Reducer.run 2 ⟨2, 3, 2⟩ = .done ⟨1, 1, 2⟩ := by
    decide +kernel
  intro n pos _
  have step (i : ℕ) {res : Form} (either : res = ⟨1, 1, 2⟩ ∨ res = ⟨2, 3, 2⟩) :
      ∃ next, (FormArith.inPlace 2).powStep ⟨1, 1, 2⟩ (-7) n 1 i res = .done next ∧
        (next = ⟨1, 1, 2⟩ ∨ next = ⟨2, 3, 2⟩) := by
    have shrunk : ∃ s, (FormArith.inPlace 2).nudupl res (-7) 1 = .done s ∧
        (FormArith.inPlace 2).shrink (-7) s = .done ⟨1, 1, 2⟩ := by
      rcases either with rfl | rfl
      · exact ⟨_, squares.1, small.2⟩
      · exact ⟨_, squares.2, small.1⟩
    obtain ⟨s, double, shrunk⟩ := shrunk
    simp only [FormArith.powStep, double, shrunk, Exec.done_bind]
    split
    · exact ⟨_, product, .inr rfl⟩
    · exact ⟨_, rfl, .inl rfl⟩
  have loop (i : ℕ) {res : Form} (either : res = ⟨1, 1, 2⟩ ∨ res = ⟨2, 3, 2⟩) :
      ∃ out, (FormArith.inPlace 2).powLoop ⟨1, 1, 2⟩ (-7) n 1 i res = .done out ∧
        (out = ⟨1, 1, 2⟩ ∨ out = ⟨2, 3, 2⟩) := by
    induction i generalizing res with
    | zero => exact ⟨res, rfl, either⟩
    | succ i ih =>
      obtain ⟨next, run, either⟩ := step i either
      obtain ⟨out, rest, either⟩ := ih either
      exact ⟨out, by rw [FormArith.powLoop, run, Exec.done_bind, rest], either⟩
  obtain ⟨out, run, either⟩ := loop (numBits n - 1) (.inl rfl)
  refine ⟨2, ⟨1, 1, 2⟩, ?_⟩
  rw [root, FormArith.fastPowFormNucomp, if_neg pos.ne', run, Exec.done_bind]
  rcases either with rfl | rfl
  · exact last.1
  · exact last.2

end Seven

section Faults

/-- `DEFAULT_ELEMENT`, filled up to the size of a form. -/
def defaultElement : ByteString := Bqfc.padded [8]

/-- With `y` as the bytes of zeros and the pair `(3, 3)` as the proof, the order decides. -/
example : decodings false 9 defaultElement (Bqfc.padded [0] ++ Bqfc.padded [0, 0, 3]) =
      .thrown "Invalid form. Positive a" ∧
    decodings true 9 defaultElement (Bqfc.padded [0] ++ Bqfc.padded [0, 0, 3]) = .fault .divideByZero := by
  decide +kernel

end Faults

end VerifierTotality

end ChiaVdf
