import ChiaVdf.Prover
import ChiaVdf.LazyPower
import ChiaVdf.VdfOriginal
import ChiaVdf.TwoWesolowskiCallback

/-! `ProveTwoWeso` of `vdf.h` and the `TwoWesolowskiProver`s it starts: three segments whose
intermediates are looked up in the callback while the main loop goes on. -/
namespace ChiaVdf

open RepeatedSquare (kMaxItersAllowed kSwitchIters)

/-- A call of `GetFormCopy`: by `ProveTwoWeso` itself at some depth, or by the prover it starts
there, in the turn `j` for the block `i`. -/
structure Site where
  depth : ℕ
  block : Option (ℕ × ℕ)

/-- What `GetFormCopy` returns at a site for a power; the wait for so many iterations is over. -/
abbrev Lookup := Site → (needed power : ℕ) → Exec Form

/-- `GenerateProof` of a `TwoWesolowskiProver`. -/
def VerifierEnv.twoWesolowskiProver (env : VerifierEnv) (D : ℤ) (segm : Segment)
    (getFormCopy : ℕ × ℕ → ℕ → Exec Form) : Exec Form :=
  let k := 10
  let l := if segm.length < 10000000 then 1 else 10
  env.generateProof D segm k l fun j i => getFormCopy (j, i) ((segm.start.toNat + i * k * l) % 2 ^ 64)

/-- The length of the first segment: two thirds, rounded to a multiple of 100. -/
def iterations1 (iters : UInt64) : UInt64 := iters * 2 / 3 - iters * 2 / 3 % 100

def Form.unset : Form := ⟨0, 0, 0⟩

/-- `ProveTwoWeso` at depth `2 - rest`, without a stop signal. -/
def VerifierEnv.proveTwoWeso (env : VerifierEnv) (D : ℤ) (look : Lookup) :
    (rest : ℕ) → (x : Form) → (iters doneIterations : UInt64) → Exec ProofBytes
  | 0, x, iters, doneIterations => do
    let checkpoint := doneIterations + iters - (doneIterations + iters) % 100
    let y ← look ⟨2, none⟩ (doneIterations + iters).toNat checkpoint.toNat
    let y ← VdfOriginal.repeatedSquare y ((doneIterations + iters) % 100).toNat
    let proof ← env.twoWesolowskiProver D ⟨doneIterations, iters, x, y, .unset, false⟩
      fun block => look ⟨2, some block⟩ (doneIterations + iters).toNat
    let yBytes ← serializeForm y (numBits D)
    let proofBytes ← serializeForm proof (numBits D)
    return ⟨yBytes, proofBytes, 0⟩
  | rest + 1, x, iters, doneIterations => do
    let depth := 1 - rest
    let reached := doneIterations + iterations1 iters
    let y1 ← look ⟨depth, none⟩ reached.toNat reached.toNat
    let proof2 ← proveTwoWeso env D look rest y1 (iters - iterations1 iters) reached
    let proof ← env.twoWesolowskiProver D ⟨doneIterations, iterations1 iters, x, y1, .unset, false⟩
      fun block => look ⟨depth, some block⟩ reached.toNat
    let B ← env.getB D x y1
    let proofBytes ← serializeForm proof (numBits D)
    return ⟨proof2.y, proof2.proof ++ int64ToBytes (iterations1 iters) ++ toBytes B ++ proofBytes,
      if depth = 0 then 2 else 0⟩

section Chain

variable {d : Discriminant} {env : VerifierEnv} {x z z' : ReducedForm d} {s : Segment}

theorem HonestChain.cons {segments : List Segment} (honest : HonestSegment env x z s)
    (chain : HonestChain env z segments z') : HonestChain env x (s :: segments) z' := by
  induction chain with
  | nil => exact HonestChain.nil.snoc honest
  | snoc _ last ih => exact ih.snoc last

theorem appendSegments_cons (D : ℤ) (s : Segment) (segments : List Segment) (n : ℕ)
    (bytes : ByteString) : env.appendSegments D (s :: segments) (n + 1) bytes =
      (env.appendSegments D segments n bytes >>= env.appendSegments D [s] 1) := by
  induction n generalizing bytes with
  | zero => rfl
  | succ n ih =>
    rw [VerifierEnv.appendSegments, VerifierEnv.appendSegments, List.getElem?_cons_succ]
    cases segments[n]? with
    | none => rfl
    | some t => simp only [ih, bind_assoc]

theorem serializeProof_cons (D : ℤ) (y : Form) (s : Segment) {segments : List Segment}
    (nonempty : segments ≠ []) {proof : ProofBytes} {B : ℤ} {p : ByteString}
    (run : env.serializeProof D y segments = .done proof) (hash : env.getB D s.x s.y = .done B)
    (written : serializeForm s.proof (numBits D) = .done p) :
    env.serializeProof D y (s :: segments) =
      .done ⟨proof.y, proof.proof ++ int64ToBytes s.length ++ toBytes B ++ p,
        UInt8.ofNat segments.length⟩ := by
  obtain ⟨n, length⟩ : ∃ n, segments.length = n + 1 :=
    Nat.exists_eq_succ_of_ne_zero (by simpa using nonempty)
  unfold VerifierEnv.serializeProof at run ⊢
  obtain ⟨ySerialized, writtenY, rest⟩ := Exec.bind_eq_done.mp run
  rw [length, Nat.add_sub_cancel] at rest
  rw [writtenY, Exec.done_bind, List.length_cons, length, Nat.add_sub_cancel, List.getElem?_cons_succ]
  cases last : segments[n]? with
  | none =>
    rw [last] at rest
    cases rest
  | some t =>
    rw [last] at rest
    obtain ⟨q, writtenQ, rest⟩ := Exec.bind_eq_done.mp rest
    obtain ⟨bytes, appended, rest⟩ := Exec.bind_eq_done.mp rest
    obtain rfl := Exec.done.inj rest
    simp only [writtenQ, Exec.done_bind, appendSegments_cons, appended]
    simp only [VerifierEnv.appendSegments, List.getElem?_cons_zero, hash, written, Exec.done_bind,
      Exec.pure_eq]

end Chain

section Lookups

/-- The powers that are kept whenever the switch came, if it came at `kSwitchIters` or later. -/
def Safe (needed power : ℕ) : Prop :=
  power ≤ needed ∧ (power % 100 = 0 ∨ power % 10 = 0 ∧ power ≤ kSwitchIters)

/-- Safe lookups are answered with the form after so many squarings. -/
def Answering {d : Discriminant} (x : ReducedForm d) (total : ℕ) (look : Lookup) : Prop :=
  ∀ site needed power, needed ≤ total → Safe needed power →
    look site needed power = .done (x ^ 2 ^ power).form

variable {d : Discriminant} {env : VerifierEnv} {x : ReducedForm d} {look : Lookup} {total : ℕ}

theorem iterations1_toNat {iters : UInt64} (bound : iters.toNat < kMaxItersAllowed) :
    (iterations1 iters).toNat = iters.toNat * 2 / 3 - iters.toNat * 2 / 3 % 100 := by
  have double : (iters * 2).toNat = iters.toNat * 2 := by
    rw [UInt64.toNat_mul]
    exact Nat.mod_eq_of_lt (by simp only [kMaxItersAllowed] at bound; simp; omega)
  have third : (iters * 2 / 3).toNat = iters.toNat * 2 / 3 := by
    rw [UInt64.toNat_div, double]
    rfl
  have rest : (iters * 2 / 3 % 100).toNat = iters.toNat * 2 / 3 % 100 := by
    rw [UInt64.toNat_mod, third]
    rfl
  rw [iterations1, UInt64.toNat_sub_of_le _ _ (UInt64.le_iff_toNat_le.mpr (by rw [third, rest]; exact Nat.mod_le _ _)),
    third, rest]

theorem pow_two_pow_add (x : ReducedForm d) (m n : ℕ) : (x ^ 2 ^ m) ^ 2 ^ n = x ^ 2 ^ (m + n) := by
  rw [← pow_mul, ← pow_add]

/-- A block of a segment that starts at a multiple of 100 is looked up under a power that is kept:
with the short stride because the segment ends before the switch, with the long one always. -/
theorem Answering.found (answering : Answering x total look) {start T l i j depth : ℕ}
    (hundred : start % 100 = 0) (fits : start + T ≤ total) (range : total < 2 ^ 64)
    (stride : l = 10 ∨ l = 1 ∧ start + T ≤ kSwitchIters) (inside : 10 * (i * l + j + 1) ≤ T) :
    look ⟨depth, some (j, i)⟩ (start + T) ((start + i * 10 * l) % 2 ^ 64) =
      .done (x ^ 2 ^ (start + i * 10 * l)).form := by
  have below : i * 10 * l ≤ T := by
    have : 10 * (i * l + j + 1) = i * 10 * l + 10 * j + 10 := by ring
    omega
  have safe : Safe (start + T) (start + i * 10 * l) := by
    refine ⟨by omega, ?_⟩
    rcases stride with rfl | ⟨rfl, early⟩
    · exact .inl (by omega)
    · exact .inr ⟨by omega, by omega⟩
  rw [Nat.mod_eq_of_lt (by omega), answering _ _ _ fits safe]

theorem Answering.answers (answering : Answering x total look) {start T l j depth : ℕ}
    (hundred : start % 100 = 0) (fits : start + T ≤ total) (range : total < 2 ^ 64)
    (stride : l = 10 ∨ l = 1 ∧ start + T ≤ kSwitchIters) :
    Prover.Answers (x ^ 2 ^ start) T 10 l j fun i =>
      look ⟨depth, some (j, i)⟩ (start + T) ((start + i * 10 * l) % 2 ^ 64) := by
  intro i inside
  refine ⟨_, answering.found hundred fits range stride inside, ?_⟩
  rw [pow_two_pow_add, mul_assoc]
  exact ReducedForm.represents _

/-- All powers, as they ought to be. -/
def powers (x : ReducedForm d) : ℕ × ℕ → ℕ → Exec Form := fun _ power => .done (x ^ 2 ^ power).form

theorem answering_powers (x : ReducedForm d) (total : ℕ) :
    Answering x total fun site _ power => powers x (site.block.getD (0, 0)) power := fun _ _ _ _ _ => rfl

variable (env) in
/-- A prover does the same with what is looked up as with all powers. -/
theorem Answering.prover_eq (answering : Answering x total look) (depth : ℕ) {s : Segment}
    (hundred : s.start.toNat % 100 = 0) (fits : s.start.toNat + s.length.toNat ≤ total)
    (range : total < kMaxItersAllowed)
    (early : s.length.toNat < 10000000 → s.start.toNat + s.length.toNat ≤ kSwitchIters) :
    env.twoWesolowskiProver d.D s (fun block => look ⟨depth, some block⟩ (s.start.toNat + s.length.toNat)) =
      env.twoWesolowskiProver d.D s (powers x) := by
  have small : total < 2 ^ 32 := range.trans (by decide)
  obtain ⟨l, hl, stride, positive, le⟩ : ∃ l, (if s.length < 10000000 then 1 else 10) = l ∧
      (l = 10 ∨ l = 1 ∧ s.start.toNat + s.length.toNat ≤ kSwitchIters) ∧ 0 < l ∧ l ≤ 10 := by
    by_cases short : s.length < 10000000
    · exact ⟨1, if_pos short, .inr ⟨rfl, early (UInt64.lt_iff_toNat_lt.mp short)⟩, by norm_num, by norm_num⟩
    · exact ⟨10, if_neg short, .inl rfl, by norm_num, le_rfl⟩
  rw [VerifierEnv.twoWesolowskiProver, VerifierEnv.twoWesolowskiProver, hl]
  apply Prover.generateProof_congr (by norm_num) positive (by omega) (by omega)
  intro j _ i inside
  rw [answering.found hundred fits (by omega) stride inside, powers, Nat.mod_eq_of_lt]
  have below : 10 * (i * l + j + 1) = i * 10 * l + 10 * j + 10 := by ring
  omega

/-- A prover whose segment starts at a multiple of 100 finds an honest proof. -/
theorem twoWesolowskiProver_spec (depth : ℕ) (lawful : env.arith.Lawful d) (top : HashTopBit env)
    (bits : numBits d.D ≤ BQFC_MAX_D_BITS) (answering : Answering x total look) {s : Segment}
    (hundred : s.start.toNat % 100 = 0) (fits : s.start.toNat + s.length.toNat ≤ total)
    (range : total < kMaxItersAllowed)
    (early : s.length.toNat < 10000000 → s.start.toNat + s.length.toNat ≤ kSwitchIters)
    (sx : Represents s.x (x ^ 2 ^ s.start.toNat))
    (sy : Represents s.y (x ^ 2 ^ (s.start.toNat + s.length.toNat))) :
    ∃ proof, env.twoWesolowskiProver d.D s (fun block => look ⟨depth, some block⟩
        (s.start.toNat + s.length.toNat)) = .done proof ∧
      HonestSegment env (x ^ 2 ^ s.start.toNat) (x ^ 2 ^ (s.start.toNat + s.length.toNat))
        { s with proof := proof } := by
  obtain ⟨B, hash, low⟩ := top.hashes bits (x ^ 2 ^ s.start.toNat)
    (x ^ 2 ^ (s.start.toNat + s.length.toNat))
  have large : 2 ^ 10 ≤ B := le_trans (Nat.pow_le_pow_right (by norm_num) (by norm_num)) low
  have hash' : env.getB d.D s.x s.y = .done B := (sx.getB sy).trans hash
  have small : total < 2 ^ 32 := range.trans (by decide)
  obtain ⟨l, hl, stride, positive, le⟩ : ∃ l, (if s.length < 10000000 then 1 else 10) = l ∧
      (l = 10 ∨ l = 1 ∧ s.start.toNat + s.length.toNat ≤ kSwitchIters) ∧ 0 < l ∧ l ≤ 10 := by
    by_cases short : s.length < 10000000
    · exact ⟨1, if_pos short, .inr ⟨rfl, early (UInt64.lt_iff_toNat_lt.mp short)⟩, by norm_num, by norm_num⟩
    · exact ⟨10, if_neg short, .inl rfl, by norm_num, le_rfl⟩
  obtain ⟨proof, run, rep⟩ := Prover.generateProof_spec
    (fun j i => look ⟨depth, some (j, i)⟩ (s.start.toNat + s.length.toNat)
      ((s.start.toNat + i * 10 * l) % 2 ^ 64)) (k := 10) lawful hash' large (by norm_num)
    (by norm_num) positive (by omega) (by omega) fun j _ => answering.answers hundred fits (by omega) stride
  refine ⟨proof, by rw [VerifierEnv.twoWesolowskiProver, hl]; exact run, sx, sy,
    (pow_two_pow_add x _ _).symm, B, hash, rep⟩

theorem FormArith.Related.twoWesolowskiProver {R : ∀ γ : Type, (ℕ → Exec γ) → Exec γ → Prop}
    {arith : ℕ → FormArith} {limit : FormArith} (related : Related R arith limit) (hashPrime : ByteString → Exec ℤ)
    (D : ℤ) (segm : Segment) (getFormCopy : ℕ × ℕ → ℕ → Exec Form) :
    R Form (fun turns => VerifierEnv.twoWesolowskiProver ⟨arith turns, hashPrime⟩ D segm getFormCopy)
      (VerifierEnv.twoWesolowskiProver ⟨limit, hashPrime⟩ D segm getFormCopy) := by
  simp only [VerifierEnv.twoWesolowskiProver]
  apply related.generateProof

theorem twoWesolowskiProver_below {env env' : VerifierEnv} (below : env.Below env') (D : ℤ) (segm : Segment)
    (getFormCopy : ℕ × ℕ → ℕ → Exec Form) : Exec.Below (env.twoWesolowskiProver D segm getFormCopy)
      (env'.twoWesolowskiProver D segm getFormCopy) := by
  simp only [VerifierEnv.twoWesolowskiProver]
  apply Prover.generateProof_below below

/-- Where the arithmetic need not come back, that is all that a prover may miss. -/
theorem twoWesolowskiProver_within (depth : ℕ) (within : env.arith.Within d) (top : HashTopBit env)
    (bits : numBits d.D ≤ BQFC_MAX_D_BITS) (answering : Answering x total look) {s : Segment}
    (hundred : s.start.toNat % 100 = 0) (fits : s.start.toNat + s.length.toNat ≤ total)
    (range : total < kMaxItersAllowed)
    (early : s.length.toNat < 10000000 → s.start.toNat + s.length.toNat ≤ kSwitchIters)
    (sx : Represents s.x (x ^ 2 ^ s.start.toNat))
    (sy : Represents s.y (x ^ 2 ^ (s.start.toNat + s.length.toNat))) :
    Exec.Within (fun proof => HonestSegment env (x ^ 2 ^ s.start.toNat)
        (x ^ 2 ^ (s.start.toNat + s.length.toNat)) { s with proof := proof })
      (env.twoWesolowskiProver d.D s fun block => look ⟨depth, some block⟩ (s.start.toNat + s.length.toNat)) := by
  have lawful : env.completed.arith.Lawful d := within.completed
  have top' : HashTopBit env.completed := top
  obtain ⟨proof, run, honest⟩ := twoWesolowskiProver_spec depth lawful top' bits
    answering hundred fits range early sx sy
  exact (twoWesolowskiProver_below env.below_completed d.D s _).within run
    ⟨honest.x, honest.y, honest.power, honest.proof⟩

end Lookups

section Depths

variable {d : Discriminant} {env : VerifierEnv} {x : ReducedForm d} {look : Lookup} {total : ℕ}

theorem toNat_add_of_le {a b : UInt64} {n : ℕ} (le : a.toNat + b.toNat ≤ n) (range : n < kMaxItersAllowed) :
    (a + b).toNat = a.toNat + b.toNat := by
  rw [UInt64.toNat_add]
  exact Nat.mod_eq_of_lt (by simp only [kMaxItersAllowed] at range; omega)

/-- The lengths of the segments: all but the last one are multiples of 100. -/
structure Lengths (iters : ℕ) (segments : List Segment) : Prop where
  sum : (segments.map fun s => s.length.toNat).sum = iters
  multiple : ∀ s ∈ segments.dropLast, s.length.toNat % 100 = 0

/-- The hash prime of two forms. -/
def VerifierEnv.primeOf (env : VerifierEnv) (y z : ReducedForm d) : ℕ :=
  match env.getB d.D y.form z.form with
  | .done B => B.toNat
  | _ => 0

/-- The segment of `length` iterations from `start` on, with the proof that it ought to have. -/
def VerifierEnv.segmentOf (env : VerifierEnv) (x : ReducedForm d) (start length : UInt64) : Segment :=
  let y := x ^ 2 ^ start.toNat
  let z := x ^ 2 ^ (start.toNat + length.toNat)
  ⟨start, length, y.form, z.form, (y ^ (2 ^ length.toNat / env.primeOf y z)).form, false⟩

/-- The segments that a proof for `iters` iterations consists of. -/
def VerifierEnv.twoWesoSegments (env : VerifierEnv) (x : ReducedForm d) (iters : UInt64) : List Segment :=
  let first := iterations1 iters
  let second := iterations1 (iters - first)
  [env.segmentOf x 0 first, env.segmentOf x first second, env.segmentOf x (first + second) (iters - first - second)]

/-- The prover of a segment comes back, if all powers are there. -/
def Makes (env : VerifierEnv) (x : ReducedForm d) (s : Segment) : Prop :=
  ∃ proof, env.twoWesolowskiProver d.D s (powers x) = .done proof

/-- What `ProveTwoWeso` writes at a depth is what a chain of honest segments is written as, the wanted ones up to the
choice of the proofs in their classes. -/
structure Writes (env : VerifierEnv) (x : ReducedForm d) (start total : ℕ) (proof : ProofBytes)
    (segments wanted : List Segment) : Prop where
  bytes : env.serializeProof d.D (x ^ 2 ^ total).form segments =
    .done { proof with witnessType := UInt8.ofNat (segments.length - 1) }
  chain : HonestChain env (x ^ 2 ^ start) segments (x ^ 2 ^ total)
  lengths : Lengths (total - start) segments
  nonempty : segments ≠ []
  check : env.checkSegments d.D segments = env.checkSegments d.D wanted

theorem primeOf_eq {y z : ReducedForm d} {B : ℕ} (hash : HashesTo env y z B) : env.primeOf y z = B := by
  rw [HashesTo] at hash
  rw [VerifierEnv.primeOf, hash]
  rfl

/-- The verifier does the same for all honest segments between two powers. -/
theorem HonestSegment.check_eq {s : Segment} (honest : HonestSegment env (x ^ 2 ^ s.start.toNat)
    (x ^ 2 ^ (s.start.toNat + s.length.toNat)) s) :
    env.checkSegment d.D s = env.checkSegment d.D (env.segmentOf x s.start s.length) := by
  obtain ⟨B, hash, rep⟩ := honest.proof
  simp only [VerifierEnv.checkSegment, VerifierEnv.segmentOf, primeOf_eq hash, honest.x.reduce, rep.reduce,
    honest.x.getB honest.y, (ReducedForm.represents _).reduce]

theorem segmentOf_honest (top : HashTopBit env) (bits : numBits d.D ≤ BQFC_MAX_D_BITS) (start length : UInt64) :
    HonestSegment env (x ^ 2 ^ start.toNat) (x ^ 2 ^ (start.toNat + length.toNat))
      (env.segmentOf x start length) := by
  obtain ⟨B, hash, -⟩ := top.hashes bits (x ^ 2 ^ start.toNat) (x ^ 2 ^ (start.toNat + length.toNat))
  refine ⟨ReducedForm.represents _, ReducedForm.represents _, (pow_two_pow_add x _ _).symm, B, hash, ?_⟩
  simp only [VerifierEnv.segmentOf, primeOf_eq hash]
  exact ReducedForm.represents _

theorem Makes.segment {start length : UInt64} (makes : Makes env x (env.segmentOf x start length))
    (within : env.arith.Within d) (top : HashTopBit env) (bits : numBits d.D ≤ BQFC_MAX_D_BITS)
    (range : total < kMaxItersAllowed) (hundred : start.toNat % 100 = 0)
    (fits : start.toNat + length.toNat ≤ total)
    (early : length.toNat < 10000000 → start.toNat + length.toNat ≤ kSwitchIters) :
    ∃ proof, env.twoWesolowskiProver d.D
        ⟨start, length, (x ^ 2 ^ start.toNat).form, (x ^ 2 ^ (start.toNat + length.toNat)).form, .unset, false⟩
        (powers x) = .done proof ∧
      HonestSegment env (x ^ 2 ^ start.toNat) (x ^ 2 ^ (start.toNat + length.toNat))
        ⟨start, length, (x ^ 2 ^ start.toNat).form, (x ^ 2 ^ (start.toNat + length.toNat)).form, proof, false⟩ ∧
      env.checkSegment d.D
          ⟨start, length, (x ^ 2 ^ start.toNat).form, (x ^ 2 ^ (start.toNat + length.toNat)).form, proof, false⟩ =
        env.checkSegment d.D (env.segmentOf x start length) := by
  obtain ⟨proof, run⟩ := makes
  have honest := (twoWesolowskiProver_within 0 (s := env.segmentOf x start length) within top bits
    (answering_powers x total) hundred fits range early (ReducedForm.represents _) (ReducedForm.represents _)).value run
  exact ⟨proof, run, honest, honest.check_eq⟩

section Last

variable {iters doneIterations : UInt64} {f : Form}

/-- At the last depth only the prover computes with forms that are not looked up. -/
theorem proveTwoWeso_last_eq (answering : Answering x total look) (range : total < kMaxItersAllowed)
    (hundred : doneIterations.toNat % 100 = 0) (whole : doneIterations.toNat + iters.toNat = total)
    (share : total ≤ 9 * iters.toNat) :
    env.proveTwoWeso d.D look 0 f iters doneIterations = (do
      let proof ← env.twoWesolowskiProver d.D ⟨doneIterations, iters, f, (x ^ 2 ^ total).form, .unset, false⟩
        (powers x)
      let yBytes ← serializeForm (x ^ 2 ^ total).form (numBits d.D)
      let proofBytes ← serializeForm proof (numBits d.D)
      return ⟨yBytes, proofBytes, 0⟩) := by
  have sum := toNat_add_of_le whole.le range
  have rest : ((doneIterations + iters) % 100).toNat = total % 100 := by
    rw [UInt64.toNat_mod, sum, whole]
    rfl
  have checkpoint : (doneIterations + iters - (doneIterations + iters) % 100).toNat = total - total % 100 := by
    rw [UInt64.toNat_sub_of_le _ _ (UInt64.le_iff_toNat_le.mpr (by rw [rest, sum, whole]; exact Nat.mod_le _ _)),
      rest, sum, whole]
  have found := answering ⟨2, none⟩ total (total - total % 100) le_rfl ⟨Nat.sub_le _ _, .inl (by omega)⟩
  have squares := VdfOriginal.repeatedSquare_reduced (x ^ 2 ^ (total - total % 100)) (total % 100)
  rw [pow_two_pow_add, Nat.sub_add_cancel (Nat.mod_le _ _)] at squares
  have prover := answering.prover_eq env 2
    (s := ⟨doneIterations, iters, f, (x ^ 2 ^ total).form, .unset, false⟩) hundred whole.le range fun short => by
      simp only [kSwitchIters] at short ⊢
      omega
  simp only [whole] at prover
  simp only [VerifierEnv.proveTwoWeso, checkpoint, rest, sum, whole, found, squares, prover, Exec.done_bind]

theorem proveTwoWeso_last (within : env.arith.Within d) (top : HashTopBit env)
    (bits : numBits d.D ≤ BQFC_MAX_D_BITS) (answering : Answering x total look)
    (range : total < kMaxItersAllowed) (hundred : doneIterations.toNat % 100 = 0)
    (whole : doneIterations.toNat + iters.toNat = total) (share : total ≤ 9 * iters.toNat)
    (makes : Makes env x (env.segmentOf x doneIterations iters)) :
    ∃ segments proof, env.proveTwoWeso d.D look 0 (x ^ 2 ^ doneIterations.toNat).form iters doneIterations =
        .done proof ∧ Writes env x doneIterations.toNat total proof segments [env.segmentOf x doneIterations iters] ∧
      segments.length = 1 := by
  obtain ⟨proof, made, honest, check⟩ := makes.segment within top bits range hundred whole.le fun short => by
    simp only [kSwitchIters]
    omega
  rw [whole] at made honest check
  obtain ⟨B, p, -, written, -⟩ := honest.reads bits top
  obtain ⟨sy, -, -, writtenY, -⟩ := reduced_roundTrip bits (x ^ 2 ^ total)
  dsimp only at written
  refine ⟨_, ⟨sy, p, 0⟩, ?_, ⟨?_, HonestChain.nil.snoc honest, ⟨?_, ?_⟩, List.cons_ne_nil _ _, ?_⟩, rfl⟩
  · rw [proveTwoWeso_last_eq answering range hundred whole share, made, Exec.done_bind, writtenY, Exec.done_bind,
      written]
    rfl
  · simp only [List.nil_append, VerifierEnv.serializeProof, writtenY, written, VerifierEnv.appendSegments,
      List.length_singleton, Nat.sub_self, List.getElem?_cons_zero, Exec.done_bind, Exec.pure_eq]
  · simp only [List.nil_append, List.map_cons, List.map_nil, List.sum_singleton]
    omega
  · simp
  · rw [List.nil_append, checkSegments_cons, checkSegments_cons, check]

end Last

section First

variable {iters doneIterations : UInt64} {f : Form} {rest : ℕ}

theorem reached_toNat (whole : doneIterations.toNat + iters.toNat = total) (range : total < kMaxItersAllowed) :
    (doneIterations + iterations1 iters).toNat = doneIterations.toNat + (iterations1 iters).toNat ∧
      doneIterations.toNat + (iterations1 iters).toNat ≤ total ∧ (iterations1 iters).toNat % 100 = 0 := by
  have length := iterations1_toNat (show iters.toNat < kMaxItersAllowed by omega)
  exact ⟨toNat_add_of_le (n := total) (by omega) range, by omega, by omega⟩

theorem proveTwoWeso_first_eq (answering : Answering x total look) (range : total < kMaxItersAllowed)
    (hundred : doneIterations.toNat % 100 = 0) (whole : doneIterations.toNat + iters.toNat = total)
    (share : total ≤ 3 * iters.toNat) :
    env.proveTwoWeso d.D look (rest + 1) f iters doneIterations = (do
      let y1 := (x ^ 2 ^ (doneIterations.toNat + (iterations1 iters).toNat)).form
      let proof2 ← env.proveTwoWeso d.D look rest y1 (iters - iterations1 iters) (doneIterations + iterations1 iters)
      let proof ← env.twoWesolowskiProver d.D ⟨doneIterations, iterations1 iters, f, y1, .unset, false⟩ (powers x)
      let B ← env.getB d.D f y1
      let proofBytes ← serializeForm proof (numBits d.D)
      return ⟨proof2.y, proof2.proof ++ int64ToBytes (iterations1 iters) ++ toBytes B ++ proofBytes,
        if 1 - rest = 0 then 2 else 0⟩) := by
  obtain ⟨sum, inside, multiple⟩ := reached_toNat whole range
  have found := answering ⟨1 - rest, none⟩ (doneIterations.toNat + (iterations1 iters).toNat)
    (doneIterations.toNat + (iterations1 iters).toNat) inside ⟨le_rfl, .inl (by omega)⟩
  have length := iterations1_toNat (show iters.toNat < kMaxItersAllowed by omega)
  have prover := answering.prover_eq env (1 - rest) (s := ⟨doneIterations, iterations1 iters, f,
    (x ^ 2 ^ (doneIterations.toNat + (iterations1 iters).toNat)).form, .unset, false⟩) hundred inside range
    fun short => by
      simp only [kSwitchIters] at short ⊢
      omega
  dsimp only at prover
  simp only [VerifierEnv.proveTwoWeso, sum, found, prover, Exec.done_bind]

/-- A segment of two thirds, and what the next depth writes for the rest. -/
theorem proveTwoWeso_first (within : env.arith.Within d) (top : HashTopBit env)
    (bits : numBits d.D ≤ BQFC_MAX_D_BITS) (answering : Answering x total look)
    (range : total < kMaxItersAllowed) (hundred : doneIterations.toNat % 100 = 0)
    (whole : doneIterations.toNat + iters.toNat = total) (share : total ≤ 3 * iters.toNat)
    (makes : Makes env x (env.segmentOf x doneIterations (iterations1 iters)))
    {segments wanted : List Segment} {proof2 : ProofBytes}
    (recursive : env.proveTwoWeso d.D look rest
      (x ^ 2 ^ (doneIterations + iterations1 iters).toNat).form (iters - iterations1 iters)
      (doneIterations + iterations1 iters) = .done proof2)
    (writes : Writes env x (doneIterations + iterations1 iters).toNat total proof2 segments wanted) :
    ∃ s proof, env.proveTwoWeso d.D look (rest + 1) (x ^ 2 ^ doneIterations.toNat).form iters doneIterations =
        .done proof ∧ Writes env x doneIterations.toNat total proof (s :: segments)
        (env.segmentOf x doneIterations (iterations1 iters) :: wanted) ∧
      proof.witnessType = if 1 - rest = 0 then 2 else 0 := by
  obtain ⟨sum, inside, multiple⟩ := reached_toNat whole range
  have length := iterations1_toNat (show iters.toNat < kMaxItersAllowed by omega)
  obtain ⟨proof, made, honest, check⟩ := makes.segment within top bits range hundred inside fun short => by
    simp only [kSwitchIters]
    omega
  obtain ⟨B, p, hash, written, -⟩ := honest.reads bits top
  rw [sum] at recursive writes
  refine ⟨_, ⟨proof2.y, proof2.proof ++ int64ToBytes (iterations1 iters) ++ toBytes B ++ p,
    if 1 - rest = 0 then 2 else 0⟩, ?_, ⟨?_, writes.chain.cons honest, ⟨?_, ?_⟩, List.cons_ne_nil _ _, ?_⟩, rfl⟩
  · dsimp only at hash written
    rw [proveTwoWeso_first_eq answering range hundred whole share]
    simp only [recursive, made, hash, written, Exec.done_bind, Exec.pure_eq]
  · exact serializeProof_cons d.D _ _ writes.nonempty writes.bytes hash written
  · rw [List.map_cons, List.sum_cons, writes.lengths.sum]
    dsimp only
    omega
  · rw [List.dropLast_cons_of_ne_nil writes.nonempty]
    intro s member
    rcases List.mem_cons.mp member with rfl | later
    · exact multiple
    · exact writes.lengths.multiple s later
  · rw [checkSegments_cons, checkSegments_cons, ← writes.check, check]

end First

theorem thirds {iters : UInt64} (bound : iters.toNat < kMaxItersAllowed) :
    let first := iterations1 iters
    let second := iterations1 (iters - first)
    first.toNat % 100 = 0 ∧ first.toNat + (iters - first).toNat = iters.toNat ∧
      iters.toNat ≤ 3 * (iters - first).toNat ∧ 2 * (iters - first).toNat < 3 * (second.toNat + 100) ∧
      (first + second).toNat = first.toNat + second.toNat ∧ (first + second).toNat % 100 = 0 ∧
      (first + second).toNat + (iters - first - second).toNat = iters.toNat ∧
      iters.toNat ≤ 9 * (iters - first - second).toNat := by
  intro first second
  have length : first.toNat = _ := iterations1_toNat bound
  have left : (iters - first).toNat = iters.toNat - first.toNat :=
    UInt64.toNat_sub_of_le _ _ (UInt64.le_iff_toNat_le.mpr (by omega))
  have length' : second.toNat = _ := iterations1_toNat (show (iters - first).toNat < kMaxItersAllowed by omega)
  have left' : (iters - first - second).toNat = (iters - first).toNat - second.toNat :=
    UInt64.toNat_sub_of_le _ _ (UInt64.le_iff_toNat_le.mpr (by omega))
  have sum : (first + second).toNat = first.toNat + second.toNat := toNat_add_of_le (n := iters.toNat) (by omega) bound
  omega

/-- The three depths together, where the provers come back. -/
theorem proveTwoWeso_spec (within : env.arith.Within d) (top : HashTopBit env)
    (bits : numBits d.D ≤ BQFC_MAX_D_BITS) {iters : UInt64} (range : iters.toNat < kMaxItersAllowed)
    (answering : Answering x iters.toNat look)
    (makes : ∀ s ∈ env.twoWesoSegments x iters, Makes env x s) :
    ∃ segments proof, env.proveTwoWeso d.D look 2 x.form iters 0 = .done proof ∧
      env.serializeProof d.D (x ^ 2 ^ iters.toNat).form segments = .done proof ∧
      HonestChain env x segments (x ^ 2 ^ iters.toNat) ∧ Lengths iters.toNat segments ∧
      segments.length = 3 ∧ env.checkSegments d.D segments = env.checkSegments d.D (env.twoWesoSegments x iters) := by
  obtain ⟨hundred, whole, share, two, sum, hundred', whole', share'⟩ := thirds range
  have zero : (0 : UInt64).toNat = 0 := rfl
  have start : 0 + iterations1 iters = iterations1 iters := UInt64.zero_add _
  simp only [VerifierEnv.twoWesoSegments, List.forall_mem_cons, List.not_mem_nil, false_implies, implies_true,
    and_true] at makes
  obtain ⟨makes₀, makes₁, makes₂⟩ := makes
  obtain ⟨last, proof₂, run₂, writes₂, length⟩ := proveTwoWeso_last within top bits answering range hundred'
    whole' share' makes₂
  obtain ⟨second, proof₁, run₁, writes₁, -⟩ := proveTwoWeso_first within top bits answering range hundred
    whole share makes₁ run₂ writes₂
  have run₁ : env.proveTwoWeso d.D look 1 (x ^ 2 ^ (0 + iterations1 iters).toNat).form (iters - iterations1 iters)
      (0 + iterations1 iters) = .done proof₁ := by
    rw [start]
    exact run₁
  rw [← start] at writes₁
  obtain ⟨first, proof, run, writes, witness⟩ := proveTwoWeso_first within top bits answering range (by simp)
    (by simp) (by omega) makes₀ run₁ writes₁
  have base : x ^ 2 ^ (0 : UInt64).toNat = x := by rw [zero, pow_zero, pow_one]
  rw [base] at run
  refine ⟨first :: second :: last, proof, run, ?_, ?_, ?_, by simp [length], ?_⟩
  · have bytes := writes.bytes
    have same : UInt8.ofNat ((first :: second :: last).length - 1) = proof.witnessType := by
      rw [witness]
      simp [length]
    rwa [same] at bytes
  · have chain := writes.chain
    rwa [base] at chain
  · simpa using writes.lengths
  · have check := writes.check
    rw [start] at check
    exact check

/-- Where `ProveTwoWeso` comes back, so did its provers. -/
theorem proveTwoWeso_makes {iters : UInt64} (range : iters.toNat < kMaxItersAllowed)
    (answering : Answering x iters.toNat look) {proof : ProofBytes}
    (run : env.proveTwoWeso d.D look 2 x.form iters 0 = .done proof) :
    ∀ s ∈ env.twoWesoSegments x iters, Makes env x s := by
  obtain ⟨hundred, whole, share, two, sum, hundred', whole', share'⟩ := thirds range
  have zero : (0 : UInt64).toNat = 0 := rfl
  have start : 0 + iterations1 iters = iterations1 iters := UInt64.zero_add _
  rw [proveTwoWeso_first_eq answering range rfl (by simp) (by omega)] at run
  simp only [zero, Nat.zero_add, start] at run
  obtain ⟨proof₁, run₁, run⟩ := Exec.bind_eq_done.mp run
  obtain ⟨p, made, -⟩ := Exec.bind_eq_done.mp run
  rw [proveTwoWeso_first_eq answering range hundred whole share] at run₁
  obtain ⟨proof₂, run₂, run₁⟩ := Exec.bind_eq_done.mp run₁
  obtain ⟨p₁, made₁, -⟩ := Exec.bind_eq_done.mp run₁
  rw [proveTwoWeso_last_eq answering range hundred' whole' share', ← sum, ← whole'] at run₂
  obtain ⟨p₂, made₂, -⟩ := Exec.bind_eq_done.mp run₂
  simp only [VerifierEnv.twoWesoSegments, List.forall_mem_cons, List.not_mem_nil, false_implies, implies_true, and_true]
  refine ⟨⟨p, ?_⟩, ⟨p₁, made₁⟩, ⟨p₂, made₂⟩⟩
  simp only [VerifierEnv.segmentOf, zero, Nat.zero_add, pow_zero, pow_one]
  exact made

theorem makes_of_lawful (lawful : env.arith.Lawful d) (top : HashTopBit env)
    (bits : numBits d.D ≤ BQFC_MAX_D_BITS) {iters : UInt64} (range : iters.toNat < kMaxItersAllowed) :
    ∀ s ∈ env.twoWesoSegments x iters, Makes env x s := by
  obtain ⟨hundred, whole, share, two, sum, hundred', whole', share'⟩ := thirds range
  have makes {start length : UInt64} (hundred : start.toNat % 100 = 0)
      (fits : start.toNat + length.toNat ≤ iters.toNat)
      (early : length.toNat < 10000000 → start.toNat + length.toNat ≤ kSwitchIters) :
      Makes env x (env.segmentOf x start length) := by
    obtain ⟨proof, run, -⟩ := twoWesolowskiProver_spec 0 (s := env.segmentOf x start length) lawful top bits
      (answering_powers x iters.toNat) hundred fits range early (ReducedForm.represents _) (ReducedForm.represents _)
    exact ⟨proof, run⟩
  simp only [VerifierEnv.twoWesoSegments, List.forall_mem_cons, List.not_mem_nil, false_implies, implies_true,
    and_true]
  simp only [kSwitchIters] at makes
  have zero : (0 : UInt64).toNat = 0 := rfl
  exact ⟨makes rfl (by omega) fun short => by omega, makes hundred (by omega) fun short => by omega,
    makes hundred' (by omega) fun short => by omega⟩

theorem proveTwoWeso_alike {iters : UInt64} (range : iters.toNat < kMaxItersAllowed) {look' : Lookup}
    (answering : Answering x iters.toNat look) (answering' : Answering x iters.toNat look') :
    env.proveTwoWeso d.D look 2 x.form iters 0 = env.proveTwoWeso d.D look' 2 x.form iters 0 := by
  obtain ⟨hundred, whole, share, two, sum, hundred', whole', share'⟩ := thirds range
  have zero : (0 : UInt64).toNat = 0 := rfl
  have start : 0 + iterations1 iters = iterations1 iters := UInt64.zero_add _
  rw [proveTwoWeso_first_eq answering range rfl (by simp) (by omega),
    proveTwoWeso_first_eq answering' range rfl (by simp) (by omega)]
  simp only [start]
  rw [proveTwoWeso_first_eq answering range hundred whole share,
    proveTwoWeso_first_eq answering' range hundred whole share]
  dsimp only
  rw [proveTwoWeso_last_eq answering range hundred' whole' share',
    proveTwoWeso_last_eq answering' range hundred' whole' share']

end Depths

theorem proveTwoWeso_below {env env' : VerifierEnv} (below : env.Below env') (D : ℤ) (look : Lookup) (rest : ℕ)
    (f : Form) (iters doneIterations : UInt64) : Exec.Below (env.proveTwoWeso D look rest f iters doneIterations)
      (env'.proveTwoWeso D look rest f iters doneIterations) := by
  induction rest generalizing f iters doneIterations with
  | zero =>
    rw [VerifierEnv.proveTwoWeso, VerifierEnv.proveTwoWeso]
    apply Exec.Below.rest
    intro y
    apply Exec.Below.rest
    intro y
    exact (twoWesolowskiProver_below below D _ _).first
  | succ rest ih =>
    rw [VerifierEnv.proveTwoWeso, VerifierEnv.proveTwoWeso]
    simp only [below.getB]
    apply Exec.Below.rest
    intro y1
    apply (ih y1 _ _).bind
    intro proof2
    exact (twoWesolowskiProver_below below D _ _).first

section Proof

variable {d : Discriminant} {env : VerifierEnv} {x : ReducedForm d} {look : Lookup} {iters : UInt64}

/-- What `ProveTwoWeso` returns is a proof of three segments, on which the verifier computes what it computes for the
segments as they ought to be. -/
theorem proveTwoWeso_check (within : env.arith.Within d) (top : HashTopBit env)
    (bits : numBits d.D ≤ BQFC_MAX_D_BITS) (range : iters.toNat < kMaxItersAllowed)
    (answering : Answering x iters.toNat look) {proof : ProofBytes}
    (run : env.proveTwoWeso d.D look 2 x.form iters 0 = .done proof) :
    ∃ segments xS, env.serializeProof d.D (x ^ 2 ^ iters.toNat).form segments = .done proof ∧
      segments.length = 3 ∧ Lengths iters.toNat segments ∧ serializeForm x.form (numBits d.D) = .done xS ∧
      env.checkProofOfTimeNWesolowski d.D xS (proof.y ++ proof.proof) iters (UInt64.ofNat (numBits d.D)) 2 =
        (env.checkSegments d.D (env.twoWesoSegments x iters) >>= fun _ => .done true) := by
  obtain ⟨segments, proof', run', written, chain, lengths, three, check⟩ :=
    proveTwoWeso_spec within top bits range answering (proveTwoWeso_makes range answering run)
  obtain rfl := Exec.done.inj (run.symm.trans run')
  obtain ⟨proof', xS, written', writtenX, accepted⟩ := serializeProof_checked bits within top chain
    (by simp [← List.length_pos_iff, three]) (by omega) (ReducedForm.represents _) lengths.sum.symm
  obtain rfl := Exec.done.inj (written.symm.trans written')
  rw [three, check] at accepted
  exact ⟨segments, xS, written, three, lengths, writtenX, accepted⟩

/-- `ProveTwoWeso` ends with a proof, or does not come back from a reduction. -/
theorem proveTwoWeso_within (within : env.arith.Within d) (top : HashTopBit env)
    (bits : numBits d.D ≤ BQFC_MAX_D_BITS) (range : iters.toNat < kMaxItersAllowed)
    (answering : Answering x iters.toNat look) :
    Exec.Within (fun proof => ∃ segments, env.serializeProof d.D (x ^ 2 ^ iters.toNat).form segments = .done proof ∧
        segments.length = 3 ∧ Lengths iters.toNat segments)
      (env.proveTwoWeso d.D look 2 x.form iters 0) := by
  have lawful : env.completed.arith.Lawful d := within.completed
  have top' : HashTopBit env.completed := top
  obtain ⟨segments, proof, run, -⟩ := proveTwoWeso_spec lawful.within top' bits range answering
    (makes_of_lawful lawful top' bits range)
  have below := proveTwoWeso_below env.below_completed d.D look 2 x.form iters 0
  rw [run] at below
  rcases below with endless | run
  · rw [endless]
    trivial
  · obtain ⟨segments, xS, written, three, lengths, -⟩ := proveTwoWeso_check within top bits range answering run
    rw [run]
    exact ⟨segments, written, three, lengths⟩

/-- Where the reducer comes back on the forms of the discriminant, so do all provers and the verifier. -/
theorem segments_return (returns : Reducer.Returns d.D) (bits : numBits d.D ≤ BQFC_MAX_D_BITS)
    {hashPrime : ByteString → Exec ℤ} (top : ∀ turns, HashTopBit ⟨.inPlace turns, hashPrime⟩)
    (range : iters.toNat < kMaxItersAllowed) :
    let env (turns : ℕ) : VerifierEnv := ⟨.inPlace turns, hashPrime⟩
    ∃ turns, ∀ s ∈ (env turns).twoWesoSegments x iters,
      Makes (env turns) x s ∧ ∃ f, (env turns).checkSegment d.D s = .done f := by
  intro env
  obtain ⟨limit, lawful, tends⟩ := returns.limit
  let last : VerifierEnv := ⟨limit, hashPrime⟩
  have top' : HashTopBit last := top 0
  have makes : ∀ s ∈ last.twoWesoSegments x iters, Makes last x s := makes_of_lawful lawful top' bits range
  have check (start length : UInt64) : ∃ f, last.checkSegment d.D (last.segmentOf x start length) = .done f :=
    ⟨_, (segmentOf_honest top' bits start length).check_done lawful top'.positive⟩
  have checks : ∀ s ∈ last.twoWesoSegments x iters, ∃ f, last.checkSegment d.D s = .done f := by
    simp only [VerifierEnv.twoWesoSegments, List.forall_mem_cons, List.not_mem_nil, false_implies, implies_true,
      and_true]
    exact ⟨check _ _, check _ _, check _ _⟩
  have each : ∀ s ∈ last.twoWesoSegments x iters, ∀ᶠ turns in Filter.atTop,
      Makes (env turns) x s ∧ ∃ f, (env turns).checkSegment d.D s = .done f := by
    intro s member
    obtain ⟨proof, made⟩ := makes s member
    obtain ⟨f, checked⟩ := checks s member
    obtain ⟨enough, run⟩ := tends.twoWesolowskiProver hashPrime d.D s (powers x) proof made
    obtain ⟨enough', run'⟩ := tends.checkSegment hashPrime d.D s f checked
    refine Filter.eventually_atTop.mpr ⟨max enough enough', fun turns le => ⟨⟨proof, ?_⟩, f, ?_⟩⟩
    · exact run turns (le_of_max_le_left le)
    · exact run' turns (le_of_max_le_right le)
  exact ((last.twoWesoSegments x iters).finite_toSet.eventually_all.mpr each).exists

end Proof

section Callback

variable {d : Discriminant} {α : Type}

/-- A state of the callback in which a lookup may find it. -/
structure Snapshot (α : Type) where
  callback : TwoWesolowskiCallback Form
  sent : List α
  switch : Option ℕ

/-- The state belongs to a run that delivers the right forms, switches at `kSwitchIters` or later
and has delivered as many of them as the caller waited for. -/
structure Snapshot.Valid (setForm : α → Form) (x : ReducedForm d) (needed : ℕ) (s : Snapshot α) : Prop where
  run : TwoWesolowskiCallback.Run setForm x.form s.callback s.sent s.switch
  right : ∀ i (lt : i < s.sent.length), setForm s.sent[i] = (x ^ 2 ^ (i + 1)).form
  late : ∀ n ∈ s.switch, kSwitchIters ≤ n
  waited : needed ≤ s.sent.length

instance (switch : Option ℕ) (p : ℕ) : Decidable (TwoWesolowskiCallback.Retained switch p) := by
  unfold TwoWesolowskiCallback.Retained
  infer_instance

/-- `GetFormCopy` in the state in which each site finds the callback. -/
def getFormCopy (snapshot : Site → ℕ → Snapshot α) : Lookup := fun site needed power => do
  let form ← (snapshot site needed).callback.getFormCopy power
  return form.getD .unset

/-- The same, but with a fault for a power that has not been delivered or is not kept. -/
def getRetained (snapshot : Site → ℕ → Snapshot α) : Lookup := fun site needed power =>
  if power ≤ (snapshot site needed).sent.length ∧
      TwoWesolowskiCallback.Retained (snapshot site needed).switch power then
    getFormCopy snapshot site needed power
  else .fault .assertion

/-- A safe power is kept, wherever the switch came. -/
theorem Safe.retained {needed power : ℕ} {switch : Option ℕ} (safe : Safe needed power)
    (late : ∀ n ∈ switch, kSwitchIters ≤ n) : TwoWesolowskiCallback.Retained switch power := by
  obtain ⟨-, stride⟩ := safe
  cases switch with
  | none => exact .inr (.inl ⟨by omega, by simp⟩)
  | some n =>
    have after := late n rfl
    by_cases before : power ≤ n
    · exact .inr (.inl ⟨by omega, by simpa using before⟩)
    · exact .inr (.inr ⟨by omega, n, rfl, by omega⟩)

theorem Snapshot.Valid.answering {setForm : α → Form} {x : ReducedForm d} {total : ℕ}
    {snapshot : Site → ℕ → Snapshot α}
    (valid : ∀ site needed, needed ≤ total → (snapshot site needed).Valid setForm x needed) :
    Answering x total (getRetained snapshot) := by
  intro site needed power le safe
  obtain ⟨run, right, late, waited⟩ := valid site needed le
  have stores := run.stores
  obtain ⟨room, stored⟩ := stores.kept power (safe.1.trans waited) (safe.retained late)
  have form : TwoWesolowskiCallback.formAfter setForm x.form (snapshot site needed).sent power =
      some (x ^ 2 ^ power).form := by
    cases power with
    | zero => simp [TwoWesolowskiCallback.formAfter]
    | succ p =>
      have inside : p < (snapshot site needed).sent.length := by have := safe.1; omega
      rw [TwoWesolowskiCallback.formAfter, List.getElem?_eq_getElem inside, Option.map_some, right p inside]
  rw [getRetained, if_pos ⟨safe.1.trans waited, safe.retained late⟩, getFormCopy,
    TwoWesolowskiCallback.getFormCopy, stores.switched.getPosition, if_neg (by omega), stored, form]
  rfl

/-- The powers of `x` up to `x ^ 2 ^ n`. -/
def squarings (x : ReducedForm d) (n : ℕ) : List Form := (List.range n).map fun i => (x ^ 2 ^ (i + 1)).form

@[simp] theorem squarings_length (x : ReducedForm d) (n : ℕ) : (squarings x n).length = n := by simp [squarings]

theorem squarings_append (x : ReducedForm d) {m n : ℕ} (le : m ≤ n) :
    squarings x m ++ (squarings x n).drop m = squarings x n := by
  have front : squarings x m = (squarings x n).take m := by
    rw [squarings, squarings, ← List.map_take, List.take_range, min_eq_left le]
  rw [front, List.take_append_drop]

/-- A run over any number of iterations that the array has room for, with the switch at `kSwitchIters`. -/
theorem Snapshot.exists_valid (x : ReducedForm d) {n : ℕ} (range : n < kMaxItersAllowed - 500000) :
    ∃ s : Snapshot Form, s.Valid id x n ∧ s.switch = if n ≤ kSwitchIters then none else some kSwitchIters := by
  have right : ∀ i (lt : i < (squarings x n).length), id (squarings x n)[i] = (x ^ 2 ^ (i + 1)).form := by
    intro i lt
    simp [squarings]
  have begun : TwoWesolowskiCallback.Run id x.form (.start x.form) [] none := .start
  have capacity : (TwoWesolowskiCallback.start x.form).formsCapacity = 16190000 := rfl
  simp only [kMaxItersAllowed] at range
  by_cases short : n ≤ kSwitchIters
  · obtain ⟨c, run, -⟩ := begun.proceed (squarings x n) fun p le => by
        simp only [List.length_nil, zero_add, squarings_length] at le
        simp only [kSwitchIters, TwoWesolowskiCallback.slot, capacity] at short ⊢
        omega
    exact ⟨⟨c, _, none⟩, ⟨run, right, by simp, by simp⟩, (if_pos short).symm⟩
  · obtain ⟨c, run, -, sameC⟩ := begun.proceed (squarings x kSwitchIters) fun p le => by
        simp only [List.length_nil, zero_add, squarings_length, kSwitchIters] at le
        simp only [TwoWesolowskiCallback.slot, capacity]
        omega
    rw [List.nil_append] at run
    have there : (squarings x kSwitchIters).length = kSwitchIters := squarings_length x _
    obtain ⟨c', switched, -, sameC'⟩ := TwoWesolowskiCallback.increaseConstants_done (c := c)
      (n := (squarings x kSwitchIters).length) (by rw [there]; exact Nat.le_add_right _ _)
    have run' := run.increaseConstants (by rw [there]; rfl) switched
    rw [there] at run'
    obtain ⟨last, run'', -⟩ := run'.proceed ((squarings x n).drop kSwitchIters) fun p le => by
      rw [List.length_drop, there, squarings_length] at le
      rw [sameC', sameC, capacity]
      apply (TwoWesolowskiCallback.slot_some_le _ p).trans_lt
      simp only [kSwitchIters] at le short ⊢
      omega
    rw [squarings_append x (by omega)] at run''
    exact ⟨⟨last, _, some kSwitchIters⟩, ⟨run'', right, by simp, by simp⟩, (if_neg short).symm⟩

theorem Answering.unchecked {x : ReducedForm d} {total : ℕ} {snapshot : Site → ℕ → Snapshot α}
    (answering : Answering x total (getRetained snapshot)) : Answering x total (getFormCopy snapshot) := by
  intro site needed power le safe
  have found := answering site needed power le safe
  unfold getRetained at found
  split_ifs at found
  exact found

end Callback

section Endless

/-- `-D` for a square that the reducer does not bring to an end. -/
theorem prime_square : Nat.Prime 3734821725340799453702868135539131025183 := by
  have first : Nat.Prime 100881105695970005033 :=
    prime_of_lucas 3 67 [2, 2, 2, 11, 11, 137, 2437, 2531, 2969] (show Nat.Prime 41539 by norm_num) (by norm_num)
      (by decide +kernel)
  have second : Nat.Prime 1412335479743580070463 :=
    prime_of_lucas 5 71 [2, 7] first (by norm_num) (by decide +kernel)
  have third : Nat.Prime 2824670959487160140927 := prime_of_lucas 5 72 [2] second (by norm_num) (by decide +kernel)
  have middle : Nat.Prime 747059737 :=
    prime_of_lucas 5 30 [2, 2, 2, 3, 47] (show Nat.Prime 662287 by norm_num) (by norm_num) (by decide +kernel)
  have fourth : Nat.Prime 50176286714952836791021148071299823 :=
    prime_of_lucas 3 116 [747059737, 2, 3, 3, 1321] third
      (List.forall_mem_cons.mpr ⟨middle, by norm_num⟩) (by decide +kernel)
  exact prime_of_lucas 5 132 [2, 37217] fourth (by norm_num) (by decide +kernel)

theorem checkSegment_one {d : Discriminant} {env : VerifierEnv} {x : ReducedForm d} (top : HashTopBit env)
    (bits : numBits d.D ≤ BQFC_MAX_D_BITS) {f : Form} (run : env.checkSegment d.D (env.segmentOf x 0 1) = .done f) :
    ∃ g, env.arith.fastPowFormNucomp x.form d.D 2 d.L = .done g := by
  have zero : (0 : UInt64).toNat = 0 := rfl
  have one : (1 : UInt64).toNat = 1 := rfl
  obtain ⟨B, hashed, low⟩ := top.hashes bits (x ^ 2 ^ 0) (x ^ 2 ^ (0 + 1))
  have exponent : fastPow 1 B = .done 2 := by
    rw [fastPow_done ((Nat.two_pow_pos 263).trans_le low), one, Nat.mod_eq_of_lt]
    · rfl
    · exact (Nat.pow_lt_pow_right one_lt_two (by norm_num)).trans_le low
  rw [HashesTo] at hashed
  simp only [VerifierEnv.checkSegment, VerifierEnv.segmentOf, zero, one, hashed, (ReducedForm.represents _).reduce,
    VerifierEnv.segmentEnd, mpzRoot4_neg_D, exponent, Exec.done_bind] at run
  obtain ⟨f1, -, run⟩ := Exec.bind_eq_done.mp run
  obtain ⟨f2, power, -⟩ := Exec.bind_eq_done.mp run
  rw [pow_zero, pow_one] at power
  exact ⟨f2, power⟩

theorem nudupl_square (turns : ℕ) : (FormArith.inPlace turns).nudupl
      ⟨5940009717, -5940009715, 157189209415429625202840044906⟩ (-3734821725340799453702868135539131025183)
      7817492425 = .done ⟨35283715438054420089, 35283715438054420091, 35283715438054420094⟩ := by
  have run : (FormArith.inPlace 0).nudupl
      ⟨5940009717, -5940009715, 157189209415429625202840044906⟩ (-3734821725340799453702868135539131025183)
      7817492425 = .done ⟨35283715438054420089, 35283715438054420091, 35283715438054420094⟩ := by decide +kernel
  exact run

theorem run_square (turns : ℕ) :
    Reducer.run turns ⟨35283715438054420089, 35283715438054420091, 35283715438054420094⟩ = .diverged := by
  have there : Reducer.isReduced ⟨35283715438054420089, 35283715438054420091, 35283715438054420094⟩ = none ∧
      Reducer.turn ⟨35283715438054420089, 35283715438054420091, 35283715438054420094⟩ =
        .done ⟨35283715438054420094, 35283715438054420097, 35283715438054420092⟩ := by decide +kernel
  have back : Reducer.isReduced ⟨35283715438054420094, 35283715438054420097, 35283715438054420092⟩ = none ∧
      Reducer.turn ⟨35283715438054420094, 35283715438054420097, 35283715438054420092⟩ =
        .done ⟨35283715438054420089, 35283715438054420091, 35283715438054420094⟩ := by decide +kernel
  exact Reducer.run_diverges there back turns

end Endless

end ChiaVdf
