import ChiaVdf.Verifier

/-! What the verifier decides: a chain of Wesolowski relations in the class group, read from
the end of the blob. -/
namespace ChiaVdf

open VerifierEnv

variable {d : Discriminant} {env : VerifierEnv}

/-- The three parts of a segment, as they stand in the blob. -/
def segmentIters (blob : ByteString) (offset : ℕ) : ℕ :=
  ByteString.ofMsbFirst ((blob.drop offset).take 8)

def segmentB (blob : ByteString) (offset : ℕ) : ℕ :=
  ByteString.ofMsbFirst ((blob.drop (offset + 8)).take B_bytes)

/-- The form that the bytes at `offset` decode to is `x`. -/
def DecodesTo (d : Discriminant) (blob : ByteString) (offset : ℕ) (x : ReducedForm d) : Prop :=
  deserializeAt d.D blob offset = .done x.form

/-- The hash prime of `x` and `y` is `B`. -/
def HashesTo (env : VerifierEnv) (x y : ReducedForm d) (B : ℕ) : Prop :=
  env.getB d.D x.form y.form = .done B

/-- The segment at `offset` leads from `x` to `x'`. -/
def Link (env : VerifierEnv) (blob : ByteString) (offset : ℕ) (x x' : ReducedForm d) : Prop :=
  ∃ pi : ReducedForm d, DecodesTo d blob (offset + 8 + B_bytes) pi ∧
    x' = pi ^ segmentB blob offset * x ^ (2 ^ segmentIters blob offset % segmentB blob offset) ∧
    HashesTo env x x' (segmentB blob offset)

/-- `n` segments behind `base`, the last one first, lead from `x` to `z` in `t` iterations. -/
inductive Walk (env : VerifierEnv) (blob : ByteString) (base : ℕ) :
    ℕ → ReducedForm d → ℕ → ReducedForm d → Prop where
  | nil : Walk env blob base 0 x 0 x
  | cons : Link env blob (base + n * segmentLen) x x' → Walk env blob base n x' t z →
    Walk env blob base (n + 1) x (segmentIters blob (base + n * segmentLen) + t) z

/-- `pi` proves that `y` is reached from `x` in `t` iterations. -/
def Proves (env : VerifierEnv) (x y pi : ReducedForm d) (t : ℕ) : Prop :=
  ∃ B : ℕ, HashesTo env x y B ∧ y = pi ^ B * x ^ (2 ^ t % B)

/-- A chain of `depth` segments and a last relation, of `T` iterations in total. -/
def ChainedProof (d : Discriminant) (env : VerifierEnv) (xS blob : ByteString) (T depth : ℕ) : Prop :=
  ∃ (x z y pi : ReducedForm d) (t : ℕ), DecodesTo d xS 0 x ∧
    Walk env blob (2 * BQFC_FORM_SIZE) depth x t z ∧ t ≤ T ∧
    DecodesTo d blob 0 y ∧ DecodesTo d blob BQFC_FORM_SIZE pi ∧ Proves env z y pi (T - t)

/-- `HashPrime` returns positive numbers. -/
def HashPositive (env : VerifierEnv) : Prop := ∀ seed B, env.hashPrime seed = .done B → 0 < B

section Decode

/-- Whatever is decoded is a reduced form of the discriminant. -/
theorem deserializeForm_reduced {s : ByteString} {strict : Bool} {f : Form}
    (run : deserializeForm d.D s strict = .done f) : ∃ x : ReducedForm d, f = x.form := by
  obtain ⟨out, -, rest⟩ := Exec.bind_eq_done.mp run
  split at rest
  · cases rest
  next a b =>
  obtain ⟨g, from_abd, rest⟩ := Exec.bind_eq_done.mp rest
  obtain ⟨c, pos, disc, reduced⟩ := Form.fromAbd_done from_abd
  obtain ⟨h, run', -⟩ := reduce_similar (d := d) pos disc
  split at rest
  · cases rest
  · obtain rfl := Exec.done.inj rest
    exact ⟨h, Exec.done.inj (reduced.symm.trans run')⟩

theorem deserializeAt_reduced {blob : ByteString} {offset : ℕ} {f : Form}
    (run : deserializeAt d.D blob offset = .done f) : ∃ x : ReducedForm d, f = x.form := by
  obtain ⟨bytes, -, rest⟩ := Exec.bind_eq_done.mp run
  exact deserializeForm_reduced rest

end Decode

section Segment

theorem fastPow_done {iters : UInt64} {B : ℕ} (pos : 0 < B) :
    fastPow iters B = .done ((2 ^ iters.toNat % B : ℕ) : ℤ) := by
  have nonzero : (B : ℤ) ≠ 0 := by exact_mod_cast pos.ne'
  rw [fastPow, if_neg nonzero, mpzPowmUi, if_neg nonzero]
  push_cast
  rfl

theorem segmentEnd_eq (lawful : env.arith.Lawful d) (x pi : ReducedForm d) {B : ℕ} (pos : 0 < B)
    (iters : UInt64) : env.segmentEnd d.D x.form pi.form B iters =
      .done (pi ^ B * x ^ (2 ^ iters.toNat % B)).form := by
  obtain ⟨f1, first, rep1⟩ := lawful.fastPow_nat pi.represents B
  obtain ⟨f2, second, rep2⟩ := lawful.fastPow_nat x.represents (2 ^ iters.toNat % B)
  simp only [segmentEnd, mpzRoot4_neg_D, fastPow_done pos, Exec.done_bind, first, second,
    rep1.multiply rep2]

theorem segmentEnd_zero (x pi : Form) (iters : UInt64) :
    env.segmentEnd d.D x pi 0 iters = .thrown "Division by 0" := by
  simp [segmentEnd, mpzRoot4_neg_D, fastPow]

/-- A segment is accepted when its prime is the hash of both ends. -/
theorem verifyWesoSegment_done {D B : ℤ} {x pi y : Form} {iters : UInt64} :
    env.verifyWesoSegment D x pi B iters = .done (0, y) ↔
      env.segmentEnd D x pi B iters = .done y ∧ env.getB D x y = .done B := by
  constructor
  · intro run
    obtain ⟨outY, ends, rest⟩ := Exec.bind_eq_done.mp run
    obtain ⟨hash, get, rest⟩ := Exec.bind_eq_done.mp rest
    obtain ⟨zero, rfl⟩ := Prod.mk.inj (Exec.done.inj rest)
    have same : B = hash := by by_contra ne; simp [ne] at zero
    rw [same]
    exact ⟨same ▸ ends, get⟩
  · rintro ⟨ends, get⟩
    simp [verifyWesoSegment, ends, get]

theorem nextForm_checked {D B : ℤ} {x pi y : Form} {iters : UInt64} :
    env.nextForm false D x pi B iters = .done (some y) ↔
      env.segmentEnd D x pi B iters = .done y ∧ env.getB D x y = .done B := by
  rw [← verifyWesoSegment_done]
  constructor
  · intro run
    simp only [nextForm, Bool.false_eq_true, if_false] at run
    obtain ⟨⟨ret, out⟩, verified, rest⟩ := Exec.bind_eq_done.mp run
    by_cases zero : ret = 0
    · subst zero
      obtain rfl := Option.some.inj (Exec.done.inj rest)
      exact verified
    · simp [zero] at rest
  · intro run
    simp [nextForm, run]

/-- The hash primes of an environment that keeps them positive are not zero. -/
theorem HashesTo.pos (positive : HashPositive env) {x y : ReducedForm d} {B : ℕ}
    (hash : HashesTo env x y B) : 0 < B := by
  obtain ⟨s, -, rest⟩ := Exec.bind_eq_done.mp hash
  obtain ⟨s', -, rest⟩ := Exec.bind_eq_done.mp rest
  exact_mod_cast positive _ _ rest

/-- In the class group: the segment ends where its proof says and its prime is the hash. -/
theorem nextForm_iff (lawful : env.arith.Lawful d) (positive : HashPositive env)
    (x pi : ReducedForm d) (B : ℕ) (iters : UInt64) (f : Form) :
    env.nextForm false d.D x.form pi.form B iters = .done (some f) ↔ ∃ x' : ReducedForm d,
      f = x'.form ∧ x' = pi ^ B * x ^ (2 ^ iters.toNat % B) ∧ HashesTo env x x' B := by
  rw [nextForm_checked]
  rcases Nat.eq_zero_or_pos B with rfl | pos
  · rw [Nat.cast_zero, segmentEnd_zero]
    constructor
    · rintro ⟨run, -⟩; cases run
    · rintro ⟨x', -, -, hash⟩; exact absurd (hash.pos positive) (lt_irrefl 0)
  · rw [segmentEnd_eq lawful x pi pos]
    constructor
    · rintro ⟨ends, get⟩
      obtain rfl := Exec.done.inj ends
      exact ⟨_, rfl, rfl, get⟩
    · rintro ⟨x', rfl, rfl, hash⟩
      exact ⟨rfl, hash⟩

end Segment

section Loop

theorem readBytes_done {buffer : ByteString} {offset size : ℕ} (inside : offset + size ≤ buffer.length) :
    readBytes buffer offset size = .done ((buffer.drop offset).take size) := if_pos inside

theorem segmentIters_lt (blob : ByteString) (offset : ℕ) : segmentIters blob offset < 2 ^ 64 := by
  have := ByteString.ofMsbFirst_lt ((blob.drop offset).take 8)
  have le : ((blob.drop offset).take 8).length ≤ 8 := List.length_take_le _ _
  exact this.trans_le ((Nat.pow_le_pow_right (by norm_num) le).trans_eq (by norm_num))

theorem bytesToInt64_done {blob : ByteString} {offset : ℕ} (inside : offset + 8 ≤ blob.length) :
    ∃ t : UInt64, bytesToInt64 blob offset = .done t ∧ t.toNat = segmentIters blob offset := by
  refine ⟨_, by rw [bytesToInt64, readBytes_done inside]; rfl, ?_⟩
  rw [UInt64.toNat_ofNat']
  exact Nat.mod_eq_of_lt (segmentIters_lt blob offset)

theorem integerOfBytes_done {blob : ByteString} {offset : ℕ}
    (inside : offset + 8 + B_bytes ≤ blob.length) :
    integerOfBytes blob (offset + 8) B_bytes = .done (segmentB blob offset : ℤ) := by
  rw [integerOfBytes, readBytes_done inside]
  rfl

theorem segmentLen_eq : segmentLen = 141 := rfl

theorem walkSegments_step (env : VerifierEnv) (skipCheck : Bool) (D : ℤ) {blob : ByteString}
    {base n : ℕ} (inside : base + (n + 1) * segmentLen ≤ blob.length) (fuel : ℕ) (x : Form) (T : UInt64) :
    ∃ t : UInt64, t.toNat = segmentIters blob (base + n * segmentLen) ∧
      env.walkSegments skipCheck D blob base (fuel + 1) (base + (n + 1) * segmentLen) x T =
      (deserializeAt D blob (base + n * segmentLen + 8 + B_bytes) >>= fun pi =>
        env.nextForm skipCheck D x pi (segmentB blob (base + n * segmentLen)) t >>= fun next =>
          match next with
          | none => .done none
          | some x' => if t > T then .done none
            else env.walkSegments skipCheck D blob base fuel (base + n * segmentLen) x' (T - t)) := by
  rw [segmentLen_eq] at *
  have bytes : B_bytes = 33 := rfl
  obtain ⟨t, read, value⟩ := bytesToInt64_done (show base + n * 141 + 8 ≤ blob.length by omega)
  refine ⟨t, value, ?_⟩
  have back : base + (n + 1) * 141 - 141 = base + n * 141 := by omega
  rw [walkSegments, if_pos (by omega)]
  simp only [segmentLen_eq, back, read, Exec.done_bind]
  rw [integerOfBytes_done (by omega)]
  rfl

/-- The loop walks the chain and stops where it is broken. -/
theorem walkSegments_iff (lawful : env.arith.Lawful d) (positive : HashPositive env)
    {blob : ByteString} {base : ℕ} (n : ℕ) (fuel : ℕ) (x : ReducedForm d) (T : UInt64)
    (inside : base + n * segmentLen ≤ blob.length) (enough : n < fuel) (f : Form) (T' : UInt64) :
    env.walkSegments false d.D blob base fuel (base + n * segmentLen) x.form T = .done (some (f, T')) ↔
      ∃ z t, Walk env blob base n x t z ∧ t ≤ T.toNat ∧ f = z.form ∧ T'.toNat = T.toNat - t := by
  induction n generalizing fuel x T with
  | zero =>
    obtain ⟨fuel, rfl⟩ : ∃ m, fuel = m + 1 := ⟨fuel - 1, by omega⟩
    rw [zero_mul, add_zero, walkSegments, if_neg (lt_irrefl _)]
    constructor
    · intro run
      obtain ⟨rfl, rfl⟩ := Prod.mk.inj (Option.some.inj (Exec.done.inj run))
      exact ⟨x, 0, .nil, Nat.zero_le _, rfl, (Nat.sub_zero _).symm⟩
    · rintro ⟨z, t, walk, -, rfl, rest⟩
      cases walk
      rw [Nat.sub_zero] at rest
      rw [UInt64.toNat_inj.mp rest]
  | succ n ih =>
    obtain ⟨fuel, rfl⟩ : ∃ m, fuel = m + 1 := ⟨fuel - 1, by omega⟩
    have shorter : base + n * segmentLen ≤ blob.length := by rw [Nat.succ_mul] at inside; omega
    obtain ⟨t₁, value, step⟩ := walkSegments_step env false d.D inside fuel x.form T
    rw [step]
    constructor
    · intro run
      obtain ⟨p, decode, run⟩ := Exec.bind_eq_done.mp run
      obtain ⟨pi, rfl⟩ := deserializeAt_reduced decode
      obtain ⟨next, link, run⟩ := Exec.bind_eq_done.mp run
      split at run
      · cases run
      next x'' =>
      obtain ⟨x', rfl, eq, hash⟩ := (nextForm_iff lawful positive x pi _ t₁ x'').mp link
      split at run
      · cases run
      next le =>
      rw [UInt64.not_lt, UInt64.le_iff_toNat_le] at le
      obtain ⟨z, t, walk, t_le, last, rest⟩ := (ih fuel x' (T - t₁) shorter (by omega)).mp run
      rw [UInt64.toNat_sub_of_le _ _ le] at t_le rest
      refine ⟨z, _, .cons ⟨pi, decode, ?_, hash⟩ walk, ?_, last, ?_⟩
      · rw [← value]; exact eq
      · omega
      · omega
    · rintro ⟨z, t, walk, t_le, last, rest⟩
      cases walk with
      | cons link walk =>
        obtain ⟨pi, decode, eq, hash⟩ := link
        rw [← value] at eq t_le rest
        have le : t₁ ≤ T := UInt64.le_iff_toNat_le.mpr (by omega)
        rw [DecodesTo] at decode
        rw [decode, Exec.done_bind, (nextForm_iff lawful positive x pi _ t₁ _).mpr ⟨_, rfl, eq, hash⟩,
          Exec.done_bind]
        dsimp only
        rw [if_neg (UInt64.not_lt.mpr le)]
        refine (ih fuel _ (T - t₁) shorter (by omega)).mpr ⟨z, _, walk, ?_, last, ?_⟩ <;>
          rw [UInt64.toNat_sub_of_le _ _ le] <;> omega

end Loop

section Shift

theorem drop_shift (y rest : ByteString) (offset : ℕ) :
    (y ++ rest).drop (y.length + offset) = rest.drop offset := by
  rw [← List.drop_drop, List.drop_left]

theorem readBytes_shift (y rest : ByteString) (offset size : ℕ) :
    readBytes (y ++ rest) (y.length + offset) size = readBytes rest offset size := by
  have same : y.length + offset + size ≤ (y ++ rest).length ↔ offset + size ≤ rest.length := by
    rw [List.length_append]
    omega
  simp only [readBytes, same, drop_shift]

theorem deserializeAt_shift (D : ℤ) (y rest : ByteString) (offset : ℕ) :
    deserializeAt D (y ++ rest) (y.length + offset) = deserializeAt D rest offset := by
  simp only [deserializeAt, readBytes_shift]

theorem segmentIters_shift (y rest : ByteString) (offset : ℕ) :
    segmentIters (y ++ rest) (y.length + offset) = segmentIters rest offset := by
  simp only [segmentIters, drop_shift]

theorem segmentB_shift (y rest : ByteString) (offset : ℕ) :
    segmentB (y ++ rest) (y.length + offset) = segmentB rest offset := by
  simp only [segmentB, add_assoc, drop_shift]

theorem deserializeAt_front {y rest : ByteString} (length : y.length = BQFC_FORM_SIZE) (D : ℤ) :
    deserializeAt D (y ++ rest) 0 = deserializeForm D y false := by
  rw [deserializeAt, readBytes_done (by rw [List.length_append]; omega), List.drop_zero, ← length,
    List.take_left]
  rfl

end Shift

section Check

theorem expectedLen_eq {base : ℕ} {depth : UInt64} (le : depth.toNat ≤ maxDepth base)
    (small : base ≤ sizeMax) : expectedLen base depth = base + depth.toNat * segmentLen := by
  have product : depth.toNat * segmentLen ≤ sizeMax - base :=
    (Nat.le_div_iff_mul_le (by decide)).mp le
  unfold expectedLen
  unfold sizeMax at *
  exact Nat.mod_eq_of_lt (by omega)

theorem length_guard {base : ℕ} (depth : UInt64) {blob : ByteString} (addressable : blob.length < 2 ^ 64)
    (small : base ≤ sizeMax) : ¬(depth.toNat > maxDepth base ∨ blob.length ≠ expectedLen base depth) ↔
      blob.length = base + depth.toNat * segmentLen := by
  constructor
  · intro guard
    push Not at guard
    rw [guard.2, expectedLen_eq guard.1 small]
  · intro length
    have le : depth.toNat ≤ maxDepth base := by
      apply (Nat.le_div_iff_mul_le (by decide)).mpr
      unfold sizeMax at *
      omega
    rw [length, expectedLen_eq le small]
    omega

theorem discriminantInRange (bits : numBits d.D ≤ BQFC_MAX_D_BITS) : isDiscriminantInRange d.D = true := by
  simp [isDiscriminantInRange, bits, Bqfc.numBits_pos]

/-- The last relation, as the verifier checks it. -/
theorem verifyWesolowskiProof_done {D : ℤ} {x y pi : Form} {iters : UInt64} :
    env.verifyWesolowskiProof D x y pi iters = .done true ↔
      ∃ B, env.getB D x y = .done B ∧ env.segmentEnd D x pi B iters = .done y := by
  constructor
  · intro run
    obtain ⟨L, root, -⟩ := Exec.bind_eq_done.mp run
    rw [verifyWesolowskiProof_eq env root] at run
    obtain ⟨B, get, run⟩ := Exec.bind_eq_done.mp run
    obtain ⟨product, ends, run⟩ := Exec.bind_eq_done.mp run
    obtain rfl : product = y := by simpa using run
    exact ⟨B, get, ends⟩
  · rintro ⟨B, get, ends⟩
    obtain ⟨L, root, -⟩ := Exec.bind_eq_done.mp ends
    rw [verifyWesolowskiProof_eq env root, get, Exec.done_bind, ends, Exec.done_bind]
    simp

theorem proves_iff (lawful : env.arith.Lawful d) (positive : HashPositive env) (x y pi : ReducedForm d)
    (iters : UInt64) : env.verifyWesolowskiProof d.D x.form y.form pi.form iters = .done true ↔
      Proves env x y pi iters.toNat := by
  rw [verifyWesolowskiProof_done]
  constructor
  · rintro ⟨B, get, ends⟩
    have pos : 0 < B := by
      obtain ⟨s, -, rest⟩ := Exec.bind_eq_done.mp get
      obtain ⟨s', -, rest⟩ := Exec.bind_eq_done.mp rest
      exact positive _ _ rest
    obtain ⟨n, rfl⟩ := Int.eq_ofNat_of_zero_le pos.le
    rw [segmentEnd_eq lawful x pi (by exact_mod_cast pos)] at ends
    exact ⟨n, get, ReducedForm.ext (Exec.done.inj ends).symm⟩
  · rintro ⟨B, hash, eq⟩
    refine ⟨B, hash, ?_⟩
    rw [segmentEnd_eq lawful x pi (hash.pos positive), ← eq]

theorem sizeBitsInRange_iff (discSizeBits : UInt64) : isDiscSizeBitsInRange discSizeBits = true ↔
    1 ≤ discSizeBits.toNat ∧ discSizeBits.toNat ≤ BQFC_MAX_D_BITS := by
  simp [isDiscSizeBitsInRange, UInt64.lt_iff_toNat_lt]
  omega

theorem sizeBits_of_bits {D : ℤ} (bits : numBits D ≤ BQFC_MAX_D_BITS) (pos : 0 < numBits D) :
    isDiscSizeBitsInRange (UInt64.ofNat (numBits D)) = true := by
  have value : (UInt64.ofNat (numBits D)).toNat = numBits D := by
    rw [UInt64.toNat_ofNat']
    unfold BQFC_MAX_D_BITS at bits
    exact Nat.mod_eq_of_lt (by omega)
  rw [sizeBitsInRange_iff, value]
  exact ⟨pos, bits⟩

theorem check_done {D : ℤ} (range : isDiscriminantInRange D = true) {xS blob : ByteString}
    (addressable : blob.length < 2 ^ 64) {T discSizeBits depth : UInt64} :
    env.checkProofOfTimeNWesolowski D xS blob T discSizeBits depth = .done true ↔
      isDiscSizeBitsInRange discSizeBits = true ∧
      blob.length = 2 * BQFC_FORM_SIZE + depth.toNat * segmentLen ∧
      ∃ x z y pi T', deserializeAt D xS 0 = .done x ∧
        env.walkSegments false D blob (2 * BQFC_FORM_SIZE) (blob.length + 1) blob.length x T =
          .done (some (z, T')) ∧
        deserializeAt D blob 0 = .done y ∧ deserializeAt D blob BQFC_FORM_SIZE = .done pi ∧
        env.verifyWesolowskiProof D z y pi T' = .done true := by
  have guard := length_guard depth addressable (show 2 * BQFC_FORM_SIZE ≤ sizeMax by decide)
  constructor
  · intro run
    unfold checkProofOfTimeNWesolowski at run
    split at run
    · cases run
    next ranges =>
    dsimp only at run
    split at run
    · cases run
    next shallow =>
    split at run
    · cases run
    next length =>
    obtain ⟨x, decodeX, run⟩ := Exec.bind_eq_done.mp run
    obtain ⟨r, walked, run⟩ := Exec.bind_eq_done.mp run
    split at run
    · cases run
    next z T' =>
    obtain ⟨y, decodeY, run⟩ := Exec.bind_eq_done.mp run
    obtain ⟨pi, decodePi, run⟩ := Exec.bind_eq_done.mp run
    refine ⟨?_, guard.mp (by push Not; exact ⟨not_lt.mp shallow, not_not.mp length⟩),
      x, z, y, pi, T', decodeX, walked, decodeY, decodePi, run⟩
    simpa [range] using ranges
  · rintro ⟨size, length, x, z, y, pi, T', decodeX, walked, decodeY, decodePi, run⟩
    have passed := guard.mpr length
    push Not at passed
    unfold checkProofOfTimeNWesolowski
    rw [if_neg (by simp [size, range])]
    dsimp only
    rw [if_neg (not_lt.mpr passed.1), if_neg (not_not.mpr passed.2), decodeX, Exec.done_bind, walked]
    simp only [Exec.done_bind, decodeY, decodePi, run]

/-- The verifier over any environment whose hash primes are positive. -/
theorem check_iff (bits : numBits d.D ≤ BQFC_MAX_D_BITS) (lawful : env.arith.Lawful d)
    (positive : HashPositive env) (xS blob : ByteString) (addressable : blob.length < 2 ^ 64)
    (T discSizeBits depth : UInt64) :
    env.checkProofOfTimeNWesolowski d.D xS blob T discSizeBits depth = .done true ↔
      1 ≤ discSizeBits.toNat ∧ discSizeBits.toNat ≤ BQFC_MAX_D_BITS ∧
      blob.length = 2 * BQFC_FORM_SIZE + depth.toNat * segmentLen ∧
      ChainedProof d env xS blob T.toNat depth.toNat := by
  rw [check_done (discriminantInRange bits) addressable, sizeBitsInRange_iff, and_assoc]
  refine and_congr_right fun _ => and_congr_right fun _ => and_congr_right fun length => ?_
  have walk := fun (x : ReducedForm d) => walkSegments_iff lawful positive depth.toNat (blob.length + 1)
    x T length.ge (by rw [length, segmentLen_eq]; omega)
  rw [← length] at walk
  constructor
  · rintro ⟨fx, fz, fy, fpi, T', decodeX, walked, decodeY, decodePi, run⟩
    obtain ⟨x, rfl⟩ := deserializeAt_reduced decodeX
    obtain ⟨z, t, chain, t_le, rfl, rest⟩ := (walk x fz T').mp walked
    obtain ⟨y, rfl⟩ := deserializeAt_reduced decodeY
    obtain ⟨pi, rfl⟩ := deserializeAt_reduced decodePi
    have proves := (proves_iff lawful positive z y pi T').mp run
    rw [rest] at proves
    exact ⟨x, z, y, pi, t, decodeX, chain, t_le, decodeY, decodePi, proves⟩
  · rintro ⟨x, z, y, pi, t, decodeX, chain, t_le, decodeY, decodePi, proves⟩
    have rest : (T - UInt64.ofNat t).toNat = T.toNat - t := by
      have small := T.toNat_lt
      have value : (UInt64.ofNat t).toNat = t := by
        rw [UInt64.toNat_ofNat']
        exact Nat.mod_eq_of_lt (by omega)
      rw [UInt64.toNat_sub_of_le _ _ (UInt64.le_iff_toNat_le.mpr (by omega)), value]
    rw [← rest] at proves
    exact ⟨_, _, _, _, _, decodeX, (walk x z.form _).mpr ⟨z, t, chain, t_le, rfl, rest⟩, decodeY,
      decodePi, (proves_iff lawful positive z y pi _).mpr proves⟩

end Check

/-- The verifier decides the chained relation, for blobs of any depth, whatever the hash
inside `HashPrime`, the primality test and the number of candidates it may try. -/
theorem checkProofOfTimeNWesolowski_iff (d : Discriminant) (bits : numBits d.D ≤ BQFC_MAX_D_BITS)
    (arith : FormArith) (lawful : arith.Lawful d) (sha : ByteString → Vector UInt8 32)
    (prime : ℕ → Bool) (candidates : ℕ) (xS blob : ByteString) (addressable : blob.length < 2 ^ 64)
    (T discSizeBits depth : UInt64) :
    let env : VerifierEnv := ⟨arith, hashPrime sha prime B_bits [B_bits - 1] candidates⟩
    env.checkProofOfTimeNWesolowski d.D xS blob T discSizeBits depth = .done true ↔
      1 ≤ discSizeBits.toNat ∧ discSizeBits.toNat ≤ 1024 ∧
      blob.length = 200 + depth.toNat * 141 ∧ ChainedProof d env xS blob T.toNat depth.toNat := by
  intro env
  have positive : HashPositive env := fun seed B run => by
    have := (hashPrime_bounds candidates seed run).1
    have : (0 : ℤ) < 2 ^ 263 := by positivity
    omega
  exact check_iff bits lawful positive xS blob addressable T discSizeBits depth

/-- A segment of 526 iterations from the generator, whose proof is the generator, and one iteration
after it, with a hash of zeros. -/
theorem checkProofOfTimeNWesolowski_segment :
    let env : VerifierEnv :=
      ⟨.plain, hashPrime (fun _ => Vector.replicate 32 0) (fun _ => true) B_bits [B_bits - 1] 1⟩
    let blob := Bqfc.padded [1, 0, 2, 0, 1, 1] ++ Bqfc.padded [Bqfc.IS_1] ++ ([0, 0, 0, 0, 0, 0, 2, 14] ++
      ([0x80] ++ List.replicate 31 0 ++ [1]) ++ Bqfc.padded [Bqfc.IS_GEN])
    env.checkProofOfTimeNWesolowski (-23) (Bqfc.padded [Bqfc.IS_GEN]) blob 527 5 1 = .done true ∧
      ChainedProof ⟨23, by norm_num, rfl⟩ env (Bqfc.padded [Bqfc.IS_GEN]) blob 527 1 := by
  intro env blob
  have run : env.checkProofOfTimeNWesolowski (-23) (Bqfc.padded [Bqfc.IS_GEN]) blob 527 5 1 = .done true := by
    decide +kernel
  obtain ⟨-, -, -, chained⟩ := (checkProofOfTimeNWesolowski_iff ⟨23, by norm_num, rfl⟩ (by decide) .plain
    (FormArith.plain_lawful _) _ _ 1 _ blob (by decide +kernel) 527 5 1).mp run
  exact ⟨run, chained⟩

end ChiaVdf
