import ChiaVdf.Reducer
import ChiaVdf.VerifierRelation

/-! The three entry points of the verifier agree: the one that is given the whole blob, the
one that is given its hash prime instead of `y`, and the one that computes that prime. -/
namespace ChiaVdf

open VerifierEnv

variable {d : Discriminant} {env : VerifierEnv}

section Ends

theorem segmentEnd_reduced (sound : env.arith.Sound d) (x pi : ReducedForm d) {B : ℤ} {iters : UInt64}
    {f : Form} (run : env.segmentEnd d.D x.form pi.form B iters = .done f) :
    ∃ y : ReducedForm d, f = y.form := by
  obtain ⟨L, root, run⟩ := Exec.bind_eq_done.mp run
  obtain rfl := Exec.done.inj ((mpzRoot4_neg_D d).symm.trans root)
  obtain ⟨r, -, run⟩ := Exec.bind_eq_done.mp run
  obtain ⟨f1, first, run⟩ := Exec.bind_eq_done.mp run
  obtain ⟨f2, second, run⟩ := Exec.bind_eq_done.mp run
  obtain ⟨e1, rep1, -⟩ := sound.fastPow pi.represents B first
  obtain ⟨e2, rep2, -⟩ := sound.fastPow x.represents r second
  exact ⟨_, (Exec.done.inj ((rep1.multiply rep2).symm.trans run)).symm⟩

theorem nextForm_skipped {D B : ℤ} {x pi y : Form} {iters : UInt64} :
    env.nextForm true D x pi B iters = .done (some y) ↔ env.segmentEnd D x pi B iters = .done y := by
  constructor
  · intro run
    obtain ⟨xnew, ends, rest⟩ := Exec.bind_eq_done.mp run
    obtain rfl := Option.some.inj (Exec.done.inj rest)
    exact ends
  · intro ends
    simp [nextForm, ends]

theorem nextForm_ends {skipCheck : Bool} {D B : ℤ} {x pi y : Form} {iters : UInt64}
    (run : env.nextForm skipCheck D x pi B iters = .done (some y)) :
    env.segmentEnd D x pi B iters = .done y := by
  cases skipCheck with
  | false => exact (nextForm_checked.mp run).1
  | true => exact nextForm_skipped.mp run

end Ends

section Walks

variable {blob : ByteString} {base : ℕ}

theorem walkSegments_turn {skipCheck : Bool} {D : ℤ} {n : ℕ}
    (inside : base + (n + 1) * segmentLen ≤ blob.length) {fuel : ℕ} {x : Form} {T : UInt64}
    {r : Form × UInt64}
    (run : env.walkSegments skipCheck D blob base (fuel + 1) (base + (n + 1) * segmentLen) x T =
      .done (some r)) :
    ∃ t pi x', t.toNat = segmentIters blob (base + n * segmentLen) ∧
      deserializeAt D blob (base + n * segmentLen + 8 + B_bytes) = .done pi ∧
      env.nextForm skipCheck D x pi (segmentB blob (base + n * segmentLen)) t = .done (some x') ∧
      ¬t > T ∧ env.walkSegments skipCheck D blob base fuel (base + n * segmentLen) x' (T - t) =
        .done (some r) := by
  obtain ⟨t, value, step⟩ := walkSegments_step env skipCheck D inside fuel x T
  rw [step] at run
  obtain ⟨pi, decode, run⟩ := Exec.bind_eq_done.mp run
  obtain ⟨next, ends, run⟩ := Exec.bind_eq_done.mp run
  cases next with
  | none => cases run
  | some x' =>
    dsimp only at run
    split at run
    · cases run
    next le => exact ⟨t, pi, x', value, decode, ends, le, run⟩

theorem walkSegments_reduced (sound : env.arith.Sound d) {skipCheck : Bool} (n : ℕ) {fuel : ℕ}
    (x : ReducedForm d) {T T' : UInt64} {f : Form} (inside : base + n * segmentLen ≤ blob.length)
    (run : env.walkSegments skipCheck d.D blob base fuel (base + n * segmentLen) x.form T =
      .done (some (f, T'))) : ∃ z : ReducedForm d, f = z.form := by
  induction n generalizing fuel x T with
  | zero =>
    cases fuel with
    | zero => cases run
    | succ fuel =>
      rw [zero_mul, add_zero, walkSegments, if_neg (lt_irrefl _)] at run
      exact ⟨x, (Prod.mk.inj (Option.some.inj (Exec.done.inj run))).1.symm⟩
  | succ n ih =>
    cases fuel with
    | zero => cases run
    | succ fuel =>
      obtain ⟨t, p, f', -, decode, ends, -, rest⟩ := walkSegments_turn inside run
      obtain ⟨pi, rfl⟩ := deserializeAt_reduced decode
      obtain ⟨x', rfl⟩ := segmentEnd_reduced sound x pi (nextForm_ends ends)
      exact ih x' (by rw [Nat.succ_mul] at inside; omega) rest

/-- A walk that passes its checks is the walk that skips them. -/
theorem walkSegments_skip {D : ℤ} (n : ℕ) {fuel : ℕ} {x : Form} {T : UInt64} {r : Form × UInt64}
    (inside : base + n * segmentLen ≤ blob.length)
    (run : env.walkSegments false D blob base fuel (base + n * segmentLen) x T = .done (some r)) :
    env.walkSegments true D blob base fuel (base + n * segmentLen) x T = .done (some r) := by
  induction n generalizing fuel x T with
  | zero =>
    cases fuel with
    | zero => cases run
    | succ fuel =>
      rw [zero_mul, add_zero, walkSegments, if_neg (lt_irrefl _)] at run ⊢
      exact run
  | succ n ih =>
    cases fuel with
    | zero => cases run
    | succ fuel =>
      obtain ⟨t, pi, x', value, decode, ends, le, rest⟩ := walkSegments_turn inside run
      obtain ⟨t', value', step⟩ := walkSegments_step env true D inside fuel x T
      obtain rfl : t = t' := UInt64.toNat_inj.mp (value.trans value'.symm)
      rw [step, decode, Exec.done_bind, nextForm_skipped.mpr (nextForm_ends ends), Exec.done_bind]
      dsimp only
      rw [if_neg le]
      exact ih (by rw [Nat.succ_mul] at inside; omega) rest

end Walks

section Shift

variable {y rest : ByteString}

theorem walkSegments_shift (env : VerifierEnv) (y : ByteString) (skipCheck : Bool) (D : ℤ) {base : ℕ} (n : ℕ)
    {fuel fuel' : ℕ} (x : Form)
    (T : UInt64) (inside : base + n * segmentLen ≤ rest.length) (enough : n < fuel) (enough' : n < fuel') :
    env.walkSegments skipCheck D (y ++ rest) (y.length + base) fuel
        (y.length + base + n * segmentLen) x T =
      env.walkSegments skipCheck D rest base fuel' (base + n * segmentLen) x T := by
  induction n generalizing fuel fuel' x T with
  | zero =>
    obtain ⟨fuel, rfl⟩ : ∃ m, fuel = m + 1 := ⟨fuel - 1, by omega⟩
    obtain ⟨fuel', rfl⟩ : ∃ m, fuel' = m + 1 := ⟨fuel' - 1, by omega⟩
    simp only [zero_mul, add_zero, walkSegments, gt_iff_lt, lt_irrefl, if_false]
  | succ n ih =>
    obtain ⟨fuel, rfl⟩ : ∃ m, fuel = m + 1 := ⟨fuel - 1, by omega⟩
    obtain ⟨fuel', rfl⟩ : ∃ m, fuel' = m + 1 := ⟨fuel' - 1, by omega⟩
    have longer : y.length + base + (n + 1) * segmentLen ≤ (y ++ rest).length := by
      rw [List.length_append]
      omega
    obtain ⟨t, value, step⟩ := walkSegments_step env skipCheck D longer fuel x T
    obtain ⟨t', value', step'⟩ := walkSegments_step env skipCheck D inside fuel' x T
    have shorter : base + n * segmentLen ≤ rest.length := by rw [Nat.succ_mul] at inside; omega
    rw [add_assoc y.length, segmentIters_shift] at value
    obtain rfl : t = t' := UInt64.toNat_inj.mp (value.trans value'.symm)
    have same (x : Form) (T : UInt64) := ih x T shorter (show n < fuel by omega) (show n < fuel' by omega)
    have front : y.length + base + n * segmentLen = y.length + (base + n * segmentLen) := add_assoc ..
    rw [step, step']
    simp only [same]
    simp only [front, add_assoc y.length, deserializeAt_shift, segmentB_shift]

end Shift

section Entries

variable {D : ℤ} {xS blob : ByteString} {T depth : UInt64}

/-- A blob that is a front and a chain passes the two guards of the shared loop. -/
theorem common_eq {base n : ℕ} (length : blob.length = base + n * segmentLen) (x : Form)
    (skipCheck : Bool) : env.checkProofOfTimeNWesolowskiCommon D x blob T base skipCheck =
      env.walkSegments skipCheck D blob base (blob.length + 1) blob.length x T := by
  rw [checkProofOfTimeNWesolowskiCommon, if_neg (by omega), if_neg]
  rw [length, Nat.add_sub_cancel_left]
  simp

theorem checkWithB_done (range : isDiscriminantInRange D = true) (addressable : blob.length < 2 ^ 64)
    {B : ℤ} {s : ByteString} :
    env.checkProofOfTimeNWesolowskiWithB D B xS blob T depth = .done (true, s) ↔
      blob.length = BQFC_FORM_SIZE + depth.toNat * segmentLen ∧
      ∃ x z y pi T', deserializeAt D xS 0 = .done x ∧
        env.walkSegments false D blob BQFC_FORM_SIZE (blob.length + 1) blob.length x T =
          .done (some (z, T')) ∧
        deserializeAt D blob 0 = .done pi ∧ env.verifyWesoSegment D z pi B T' = .done (0, y) ∧
        serializeForm y (numBits D) = .done s := by
  have guard := length_guard depth addressable (show BQFC_FORM_SIZE ≤ sizeMax by decide)
  have ret {z pi y : Form} {T' : UInt64} {r : ℤ} (run : env.verifyWesoSegment D z pi B T' = .done (r, y)) :
      r = 0 ∨ r = -1 := by
    obtain ⟨outY, -, run⟩ := Exec.bind_eq_done.mp run
    obtain ⟨hash, -, run⟩ := Exec.bind_eq_done.mp run
    rw [← (Prod.mk.inj (Exec.done.inj run)).1]
    by_cases same : B = hash <;> simp [same]
  unfold checkProofOfTimeNWesolowskiWithB
  rw [if_neg (by simp [range])]
  constructor
  · intro run
    obtain ⟨x, decodeX, run⟩ := Exec.bind_eq_done.mp run
    split at run
    · cases run
    next passed =>
    have length := guard.mp passed
    rw [common_eq length] at run
    obtain ⟨r, walked, run⟩ := Exec.bind_eq_done.mp run
    split at run
    · cases run
    next z T' =>
    obtain ⟨pi, decodePi, run⟩ := Exec.bind_eq_done.mp run
    obtain ⟨⟨code, y⟩, verified, run⟩ := Exec.bind_eq_done.mp run
    dsimp only at run
    split at run
    · cases run
    next nonzero =>
    obtain rfl := (ret verified).resolve_right nonzero
    obtain ⟨s', written, run⟩ := Exec.bind_eq_done.mp run
    obtain rfl := (Prod.mk.inj (Exec.done.inj run)).2
    exact ⟨length, x, z, y, pi, T', decodeX, walked, decodePi, verified, written⟩
  · rintro ⟨length, x, z, y, pi, T', decodeX, walked, decodePi, verified, written⟩
    rw [decodeX, Exec.done_bind, if_neg (guard.mpr length), common_eq length, walked]
    simp [decodePi, verified, written]

theorem getBFromProof_done (range : isDiscriminantInRange D = true)
    (addressable : blob.length < 2 ^ 64) {B : ℤ} :
    env.getBFromProof D xS blob T depth = .done B ↔
      blob.length = 2 * BQFC_FORM_SIZE + depth.toNat * segmentLen ∧
      ∃ x z y T', deserializeAt D xS 0 = .done x ∧
        env.walkSegments true D blob (2 * BQFC_FORM_SIZE) (blob.length + 1) blob.length x T =
          .done (some (z, T')) ∧
        deserializeAt D blob 0 = .done y ∧ env.getB D z y = .done B := by
  have guard := length_guard depth addressable (show 2 * BQFC_FORM_SIZE ≤ sizeMax by decide)
  unfold getBFromProof
  rw [if_neg (by simp [range])]
  constructor
  · intro run
    obtain ⟨x, decodeX, run⟩ := Exec.bind_eq_done.mp run
    split at run
    · cases run
    next passed =>
    have length := guard.mp passed
    rw [common_eq length] at run
    obtain ⟨r, walked, run⟩ := Exec.bind_eq_done.mp run
    split at run
    · cases run
    next z T' =>
    obtain ⟨y, decodeY, run⟩ := Exec.bind_eq_done.mp run
    exact ⟨length, x, z, y, T', decodeX, walked, decodeY, run⟩
  · rintro ⟨length, x, z, y, T', decodeX, walked, decodeY, run⟩
    rw [decodeX, Exec.done_bind, if_neg (guard.mpr length), common_eq length, walked]
    simp [decodeY, run]

end Entries

section Agree

variable {y rest : ByteString}

theorem deserializeAt_second (length : y.length = BQFC_FORM_SIZE) (D : ℤ) :
    deserializeAt D (y ++ rest) BQFC_FORM_SIZE = deserializeAt D rest 0 := by
  rw [← length]
  exact deserializeAt_shift D y rest 0

/-- The chain behind the two forms is the chain behind the second one alone. -/
theorem walk_front (length : y.length = BQFC_FORM_SIZE) (skipCheck : Bool) (D : ℤ) {n : ℕ} (x : Form)
    (T : UInt64) (chain : rest.length = BQFC_FORM_SIZE + n * segmentLen) :
    env.walkSegments skipCheck D (y ++ rest) (2 * BQFC_FORM_SIZE) ((y ++ rest).length + 1)
        (y ++ rest).length x T =
      env.walkSegments skipCheck D rest BQFC_FORM_SIZE (rest.length + 1) rest.length x T := by
  have positive : 0 < segmentLen := by decide
  have few : n ≤ n * segmentLen := Nat.le_mul_of_pos_right n positive
  have enough : n < (y ++ rest).length + 1 := by
    rw [List.length_append]
    omega
  have shift := walkSegments_shift env y skipCheck D n x T chain.ge enough
    (show n < rest.length + 1 by omega)
  rw [← chain, length, ← two_mul] at shift
  have total : 2 * BQFC_FORM_SIZE + n * segmentLen = (y ++ rest).length := by
    rw [List.length_append, length, chain]
    omega
  rw [total] at shift
  exact shift

variable {xS : ByteString} {T depth : UInt64}

/-- An accepted blob has a hash prime, and with it `y` need not be sent. -/
theorem checkWithB_of_check (bits : numBits d.D ≤ BQFC_MAX_D_BITS) (length : y.length = BQFC_FORM_SIZE)
    (addressable : y.length + rest.length < 2 ^ 64)
    (accepted : env.checkProofOfTimeNWesolowski d.D xS (y ++ rest) T (UInt64.ofNat (numBits d.D)) depth =
      .done true) :
    ∃ B f s, env.getBFromProof d.D xS (y ++ rest) T depth = .done B ∧
      deserializeForm d.D y false = .done f ∧ serializeForm f (numBits d.D) = .done s ∧
      env.checkProofOfTimeNWesolowskiWithB d.D B xS rest T depth = .done (true, s) := by
  have range := discriminantInRange bits
  have whole : (y ++ rest).length < 2 ^ 64 := by rw [List.length_append]; exact addressable
  obtain ⟨-, chain, x, z, fy, pi, T', decodeX, walked, decodeY, decodePi, run⟩ :=
    (check_done range whole).mp accepted
  have chain' : rest.length = BQFC_FORM_SIZE + depth.toNat * segmentLen := by
    rw [List.length_append, length] at chain
    omega
  obtain ⟨B, get, ends⟩ := verifyWesolowskiProof_done.mp run
  obtain ⟨w, rfl⟩ := deserializeAt_reduced decodeY
  obtain ⟨s, -, -, written, -⟩ := reduced_roundTrip bits w
  have skipped := walkSegments_skip depth.toNat chain.ge (chain ▸ walked)
  rw [← chain] at skipped
  rw [walk_front length _ _ _ _ chain'] at walked
  rw [deserializeAt_second length] at decodePi
  refine ⟨B, w.form, s, (getBFromProof_done range whole).mpr
    ⟨chain, x, z, w.form, T', decodeX, skipped, decodeY, get⟩,
    (deserializeAt_front length _).symm.trans decodeY, written, ?_⟩
  exact (checkWithB_done range (by omega)).mpr
    ⟨chain', x, z, w.form, pi, T', decodeX, walked, decodePi, verifyWesoSegment_done.mpr ⟨ends, get⟩,
      written⟩

/-- Whatever `B` led to acceptance, the bytes returned make the whole blob, and its hash prime
is `B`. -/
theorem check_of_checkWithB (bits : numBits d.D ≤ BQFC_MAX_D_BITS) (sound : env.arith.Sound d)
    (addressable : BQFC_FORM_SIZE + rest.length < 2 ^ 64) {B : ℤ}
    (accepted : env.checkProofOfTimeNWesolowskiWithB d.D B xS rest T depth = .done (true, y)) :
    env.checkProofOfTimeNWesolowski d.D xS (y ++ rest) T (UInt64.ofNat (numBits d.D)) depth =
        .done true ∧
      env.getBFromProof d.D xS (y ++ rest) T depth = .done B := by
  have range := discriminantInRange bits
  obtain ⟨chain', x, z, f, pi, T', decodeX, walked, decodePi, verified, written⟩ :=
    (checkWithB_done range (by omega)).mp accepted
  obtain ⟨x, rfl⟩ := deserializeAt_reduced decodeX
  obtain ⟨z, rfl⟩ := walkSegments_reduced sound depth.toNat x chain'.ge (chain' ▸ walked)
  obtain ⟨pi, rfl⟩ := deserializeAt_reduced decodePi
  obtain ⟨ends, get⟩ := verifyWesoSegment_done.mp verified
  obtain ⟨w, rfl⟩ := segmentEnd_reduced sound z pi ends
  obtain ⟨s, -, length, written', read⟩ := reduced_roundTrip bits w
  obtain rfl : s = y := Exec.done.inj (written'.symm.trans written)
  have chain : (s ++ rest).length = 2 * BQFC_FORM_SIZE + depth.toNat * segmentLen := by
    rw [List.length_append, length, chain']
    omega
  have whole : (s ++ rest).length < 2 ^ 64 := by rw [List.length_append, length]; exact addressable
  rw [← walk_front length _ _ _ _ chain'] at walked
  have skipped := walkSegments_skip depth.toNat chain.ge (chain ▸ walked)
  rw [← chain] at skipped
  have decodeY : deserializeAt d.D (s ++ rest) 0 = .done w.form :=
    (deserializeAt_front length _).trans (read false)
  rw [← deserializeAt_second length] at decodePi
  exact ⟨(check_done range whole).mpr ⟨sizeBits_of_bits bits (Bqfc.numBits_pos _), chain, _, _, _, _, T',
      decodeX, walked, decodeY, decodePi, verifyWesolowskiProof_done.mpr ⟨B, get, ends⟩⟩,
    (getBFromProof_done range whole).mpr ⟨chain, _, _, _, T', decodeX, skipped, decodeY, get⟩⟩

end Agree

/-- The entry points agree on every blob and for every `B`, with the arithmetic of `nucomp.h`
and `Reducer.h`, whatever `HashPrime` does and however many turns a reduction may take. -/
theorem verifier_entryPoints_agree (d : Discriminant) (bits : numBits d.D ≤ BQFC_MAX_D_BITS) (turns : ℕ)
    (hashPrime : ByteString → Exec ℤ) (xS y rest : ByteString) (length : y.length = BQFC_FORM_SIZE)
    (addressable : y.length + rest.length < 2 ^ 64) (T depth : UInt64) :
    let env : VerifierEnv := ⟨.pulmark turns, hashPrime⟩
    (env.checkProofOfTimeNWesolowski d.D xS (y ++ rest) T (UInt64.ofNat (numBits d.D)) depth = .done true →
      ∃ B f s, env.getBFromProof d.D xS (y ++ rest) T depth = .done B ∧
        deserializeForm d.D y false = .done f ∧ serializeForm f (numBits d.D) = .done s ∧
        env.checkProofOfTimeNWesolowskiWithB d.D B xS rest T depth = .done (true, s)) ∧
    ∀ (B : ℤ) (y' : ByteString),
      env.checkProofOfTimeNWesolowskiWithB d.D B xS rest T depth = .done (true, y') →
      env.checkProofOfTimeNWesolowski d.D xS (y' ++ rest) T (UInt64.ofNat (numBits d.D)) depth =
          .done true ∧
        env.getBFromProof d.D xS (y' ++ rest) T depth = .done B :=
  ⟨checkWithB_of_check bits length addressable, fun _ _ accepted =>
    check_of_checkWithB bits (FormArith.pulmark_sound turns d) (length ▸ addressable) accepted⟩

/-- A segment of three iterations from the generator and one after it, there and back. -/
theorem verifier_entryPoints_agree_segment :
    let env : VerifierEnv := ⟨.pulmark 9, fun _ => .done 5⟩
    let rest := Bqfc.padded [Bqfc.IS_1] ++ ([0, 0, 0, 0, 0, 0, 0, 3] ++ (List.replicate 32 0 ++ [5]) ++
      Bqfc.padded [Bqfc.IS_GEN])
    ∃ B f s, env.getBFromProof (-23) (Bqfc.padded [Bqfc.IS_GEN]) (Bqfc.padded [Bqfc.IS_GEN] ++ rest) 4 1 = .done B ∧
      deserializeForm (-23) (Bqfc.padded [Bqfc.IS_GEN]) false = .done f ∧ serializeForm f (numBits (-23)) = .done s ∧
      env.checkProofOfTimeNWesolowskiWithB (-23) B (Bqfc.padded [Bqfc.IS_GEN]) rest 4 1 = .done (true, s) ∧
      env.checkProofOfTimeNWesolowski (-23) (Bqfc.padded [Bqfc.IS_GEN]) (s ++ rest) 4 5 1 = .done true ∧
      env.getBFromProof (-23) (Bqfc.padded [Bqfc.IS_GEN]) (s ++ rest) 4 1 = .done B := by
  intro env rest
  have agree := verifier_entryPoints_agree ⟨23, by norm_num, rfl⟩ (by decide) 9 (fun _ => .done 5)
    (Bqfc.padded [Bqfc.IS_GEN]) (Bqfc.padded [Bqfc.IS_GEN]) rest (by decide) (by decide +kernel) 4 1
  obtain ⟨B, f, s, get, read, written, accepted⟩ := agree.1 (by decide +kernel)
  obtain ⟨checked, get'⟩ := agree.2 B s accepted
  have five : numBits (Discriminant.D ⟨23, by norm_num, rfl⟩) = 5 := by decide
  rw [five] at checked
  exact ⟨B, f, s, get, read, written, accepted, checked, get'⟩

end ChiaVdf
