import ChiaVdf.VerifierRelation

/-! The proof that `ProverManager::Prove` writes for a chain of segments, and that the verifier
reads back what was written and accepts it. -/
namespace ChiaVdf

open VerifierEnv

/-- `struct Segment`. -/
structure Segment where
  start : UInt64
  length : UInt64
  x : Form
  y : Form
  proof : Form
  isEmpty : Bool

/-- `struct Proof`. -/
structure ProofBytes where
  y : ByteString
  proof : ByteString
  witnessType : UInt8

def int64ToBytes (input : UInt64) : ByteString := ByteString.msbFirst 8 input.toNat

/-- `integer::to_bytes`, as many bytes as the number needs. -/
def toBytes (n : ℤ) : ByteString := ByteString.msbFirst ((mpzSizeinbase2 n + 7) / 8) n.natAbs

namespace VerifierEnv

variable (env : VerifierEnv)

/-- The segments below index `i`, from the last one to the first, behind what has been written. -/
def appendSegments (D : ℤ) (segments : List Segment) : ℕ → ByteString → Exec ByteString
  | 0, bytes => .done bytes
  | i + 1, bytes =>
    match segments[i]? with
    | none => .fault .outOfBounds
    | some s => do
      let B ← env.getB D s.x s.y
      let proof ← serializeForm s.proof (numBits D)
      appendSegments D segments i (bytes ++ int64ToBytes s.length ++ toBytes B ++ proof)

/-- The end of `ProverManager::Prove`, once the segments are selected. -/
def serializeProof (D : ℤ) (y : Form) (segments : List Segment) : Exec ProofBytes := do
  let ySerialized ← serializeForm y (numBits D)
  match segments[segments.length - 1]? with
  | none => .fault .outOfBounds
  | some last =>
    let proofSerialized ← serializeForm last.proof (numBits D)
    let proofSerialized ← env.appendSegments D segments (segments.length - 1) proofSerialized
    return ⟨ySerialized, proofSerialized, UInt8.ofNat (segments.length - 1)⟩

section Below

variable {env env' : VerifierEnv} {D : ℤ}

theorem Below.appendSegments (below : env.Below env') (segments : List Segment) (i : ℕ) (bytes : ByteString) :
    env.appendSegments D segments i bytes = env'.appendSegments D segments i bytes := by
  induction i generalizing bytes with
  | zero => rfl
  | succ i ih => simp only [VerifierEnv.appendSegments, below.getB, ih]

/-- What is written takes nothing of the arithmetic but the hash. -/
theorem Below.serializeProof (below : env.Below env') (y : Form) (segments : List Segment) :
    env.serializeProof D y segments = env'.serializeProof D y segments := by
  simp only [VerifierEnv.serializeProof, below.appendSegments]

end Below

end VerifierEnv

variable {d : Discriminant} {env : VerifierEnv}

/-- A segment from `z` to `z'` with the proof an honest prover finds for it. -/
structure HonestSegment (env : VerifierEnv) (z z' : ReducedForm d) (s : Segment) : Prop where
  x : Represents s.x z
  y : Represents s.y z'
  power : z' = z ^ 2 ^ s.length.toNat
  proof : ∃ B : ℕ, HashesTo env z z' B ∧ Represents s.proof (z ^ (2 ^ s.length.toNat / B))

/-- Honest segments, each of which starts where the one before it ends. -/
inductive HonestChain (env : VerifierEnv) (x : ReducedForm d) : List Segment → ReducedForm d → Prop where
  | nil : HonestChain env x [] x
  | snoc : HonestChain env x segments z → HonestSegment env z z' s →
    HonestChain env x (segments ++ [s]) z'

/-- The segment stands at `offset`, and it leads from `z` to `z'`. -/
structure Reads (env : VerifierEnv) (blob : ByteString) (offset : ℕ) (z z' : ReducedForm d) (s : Segment) : Prop where
  honest : HonestSegment env z z' s
  iters : segmentIters blob offset = s.length.toNat
  prime : HashesTo env z z' (segmentB blob offset)
  rep : Represents s.proof (z ^ (2 ^ s.length.toNat / segmentB blob offset))
  proof : DecodesTo d blob (offset + 8 + B_bytes) (z ^ (2 ^ s.length.toNat / segmentB blob offset))

/-- The segments stand behind `base`, the last one first. -/
inductive ReadChain (env : VerifierEnv) (blob : ByteString) (base : ℕ) :
    ℕ → ReducedForm d → List Segment → ReducedForm d → Prop where
  | nil : ReadChain env blob base 0 x [] x
  | cons : Reads env blob (base + n * segmentLen) x x' s → ReadChain env blob base n x' segments z →
    ReadChain env blob base (n + 1) x (s :: segments) z

variable {x z z' : ReducedForm d} {s : Segment}

/-- `HashPrime` returns a number whose top bit, the 264th, is set. -/
def HashTopBit (env : VerifierEnv) : Prop :=
  ∀ seed, ∃ B : ℕ, env.hashPrime seed = .done B ∧ 2 ^ 263 ≤ B ∧ B < 2 ^ 264

theorem HashTopBit.positive (top : HashTopBit env) : HashPositive env := by
  intro seed B run
  obtain ⟨B', run', low, -⟩ := top seed
  obtain rfl := Exec.done.inj (run'.symm.trans run)
  have : (0 : ℕ) < 2 ^ 263 := by positivity
  exact_mod_cast this.trans_le low

section Group

theorem pow_div_mul_pow_mod (z : ReducedForm d) (e B : ℕ) : (z ^ (e / B)) ^ B * z ^ (e % B) = z ^ e := by
  rw [← pow_mul, ← pow_add, mul_comm, Nat.div_add_mod]

/-- What is honest does not depend on whether the arithmetic comes back. -/
theorem HonestSegment.completed (honest : HonestSegment env.completed z z' s) : HonestSegment env z z' s :=
  ⟨honest.x, honest.y, honest.power, honest.proof⟩

theorem HonestSegment.proves (honest : HonestSegment env z z' s) : ∃ pi : ReducedForm d,
    Represents s.proof pi ∧ Proves env z z' pi s.length.toNat := by
  obtain ⟨B, hash, rep⟩ := honest.proof
  exact ⟨_, rep, B, hash, by rw [pow_div_mul_pow_mod, honest.power]⟩

end Group

section Bytes

/-- All members of a class are written alike. -/
theorem Represents.serializeForm {f : Form} (rep : Represents f x) (dBits : ℕ) :
    serializeForm f dBits = ChiaVdf.serializeForm x.form dBits := by
  simp only [ChiaVdf.serializeForm, rep.reduce, x.represents.reduce]

theorem Represents.getB {f g : Form} (rep : Represents f x) (rep' : Represents g z) :
    env.getB d.D f g = env.getB d.D x.form z.form := by
  simp only [VerifierEnv.getB, rep.serializeForm, rep'.serializeForm]

theorem toBytes_eq {B : ℕ} (low : 2 ^ 263 ≤ B) (high : B < 2 ^ 264) :
    toBytes B = ByteString.msbFirst B_bytes B := by
  have bits : mpzSizeinbase2 B ≤ 264 :=
    (natAbs_lt_iff_sizeinbase2_le (by norm_num)).mp (by rwa [Int.natAbs_natCast])
  have bits' : ¬mpzSizeinbase2 B ≤ 263 := by
    rw [← natAbs_lt_iff_sizeinbase2_le (by norm_num), Int.natAbs_natCast]
    omega
  have width : (mpzSizeinbase2 B + 7) / 8 = B_bytes := by
    have : B_bytes = 33 := rfl
    omega
  rw [toBytes, width, Int.natAbs_natCast]

theorem toBytes_read {B : ℕ} (high : B < 2 ^ 264) :
    ByteString.ofMsbFirst (ByteString.msbFirst B_bytes B) = B := by
  apply ByteString.ofMsbFirst_of_lt
  have : 256 ^ B_bytes = 2 ^ 264 := by
    rw [show B_bytes = 33 from rfl, show 256 = 2 ^ 8 by norm_num, ← pow_mul]
  rwa [this]

variable (front rest : ByteString)

theorem segmentIters_written (t : UInt64) :
    segmentIters (front ++ (int64ToBytes t ++ rest)) front.length = t.toNat := by
  have shift := segmentIters_shift front (int64ToBytes t ++ rest) 0
  rw [add_zero] at shift
  have length : (int64ToBytes t).length = 8 := ByteString.length_msbFirst _ _
  rw [shift, segmentIters, List.drop_zero, ← length, List.take_left, int64ToBytes]
  exact ByteString.ofMsbFirst_of_lt (t.toNat_lt.trans_eq (by norm_num))

theorem segmentB_written (t : UInt64) {B : ℕ} (high : B < 2 ^ 264) :
    segmentB (front ++ (int64ToBytes t ++ (ByteString.msbFirst B_bytes B ++ rest))) front.length = B := by
  have shift := segmentB_shift front (int64ToBytes t ++ (ByteString.msbFirst B_bytes B ++ rest)) 0
  rw [add_zero] at shift
  have length : (int64ToBytes t).length = 8 := ByteString.length_msbFirst _ _
  rw [shift, segmentB, zero_add, ← length, List.drop_left, List.take_left' (ByteString.length_msbFirst _ _)]
  exact toBytes_read high

theorem decodesTo_written {s : ByteString} (length : s.length = BQFC_FORM_SIZE)
    (read : deserializeForm d.D s false = .done x.form) :
    DecodesTo d (front ++ (s ++ rest)) front.length x := by
  have shift := deserializeAt_shift d.D front (s ++ rest) 0
  rw [add_zero, deserializeAt_front length] at shift
  exact shift.trans read

end Bytes

section Writer

theorem Walk.snoc {blob : ByteString} {base n t : ℕ} (walk : Walk env blob (base + segmentLen) n x t z)
    (link : Link env blob base z z') : Walk env blob base (n + 1) x (t + segmentIters blob base) z' := by
  generalize behind : base + segmentLen = base' at walk
  induction walk with
  | nil =>
    have start : base + 0 * segmentLen = base := by omega
    have step := Walk.cons (start ▸ link) Walk.nil
    rwa [start, add_comm (segmentIters blob base)] at step
  | @cons n _ _ t _ first walk ih =>
    have offset : base' + n * segmentLen = base + (n + 1) * segmentLen := by
      rw [← behind, Nat.succ_mul]
      omega
    rw [offset] at first ⊢
    rw [add_assoc (segmentIters blob _)]
    exact .cons first (ih link)

theorem Reads.link {blob : ByteString} {offset : ℕ} (reads : Reads env blob offset z z' s) :
    Link env blob offset z z' :=
  ⟨_, reads.proof, by rw [reads.iters, pow_div_mul_pow_mod, reads.honest.power], reads.prime⟩

theorem ReadChain.snoc {blob : ByteString} {base n : ℕ} {segments : List Segment}
    (chain : ReadChain env blob (base + segmentLen) n x segments z) (reads : Reads env blob base z z' s) :
    ReadChain env blob base (n + 1) x (segments ++ [s]) z' := by
  generalize behind : base + segmentLen = base' at chain
  induction chain with
  | nil =>
    have start : base + 0 * segmentLen = base := by omega
    exact .cons (start ▸ reads) .nil
  | @cons n _ _ _ _ _ first _ ih =>
    have offset : base' + n * segmentLen = base + (n + 1) * segmentLen := by
      rw [← behind, Nat.succ_mul]
      omega
    exact .cons (offset ▸ first) (ih reads)

theorem HonestSegment.reads (bits : numBits d.D ≤ BQFC_MAX_D_BITS) (top : HashTopBit env)
    (honest : HonestSegment env z z' s) : ∃ B p, env.getB d.D s.x s.y = .done B ∧
      serializeForm s.proof (numBits d.D) = .done p ∧
      (int64ToBytes s.length ++ toBytes B ++ p).length = segmentLen ∧
      ∀ front rest,
        Reads env (front ++ (int64ToBytes s.length ++ toBytes B ++ p ++ rest)) front.length z z' s := by
  obtain ⟨B, hash, rep⟩ := honest.proof
  obtain ⟨p, -, length, written, read⟩ := reduced_roundTrip bits (z ^ (2 ^ s.length.toNat / B))
  have range : 2 ^ 263 ≤ B ∧ B < 2 ^ 264 := by
    obtain ⟨s₁, -, rest⟩ := Exec.bind_eq_done.mp hash
    obtain ⟨s₂, -, rest⟩ := Exec.bind_eq_done.mp rest
    obtain ⟨B', run, low, high⟩ := top (s₁ ++ s₂)
    have same : B' = B := by exact_mod_cast Exec.done.inj (run.symm.trans rest)
    exact same ▸ ⟨low, high⟩
  have lengthT : (int64ToBytes s.length).length = 8 := ByteString.length_msbFirst _ _
  have lengthB : (ByteString.msbFirst B_bytes B).length = B_bytes := ByteString.length_msbFirst _ _
  refine ⟨B, p, (honest.x.getB honest.y).trans hash, (rep.serializeForm _).trans written, ?_, ?_⟩
  · rw [toBytes_eq range.1 range.2]
    simp only [List.length_append, lengthT, lengthB, length, segmentLen]
  · intro front rest
    rw [toBytes_eq range.1 range.2]
    have iters := segmentIters_written front (ByteString.msbFirst B_bytes B ++ (p ++ rest)) s.length
    have prime := segmentB_written front (p ++ rest) s.length range.2
    have decodes := decodesTo_written (front ++ (int64ToBytes s.length ++ ByteString.msbFirst B_bytes B))
      rest length (read false)
    simp only [List.append_assoc, List.length_append, lengthT, lengthB] at iters prime decodes ⊢
    exact ⟨honest, iters, by rwa [prime], by rwa [prime], by rwa [prime]⟩

/-- The loop of the writer produces what the loop of the reader walks, in the other direction. -/
theorem appendSegments_reads (bits : numBits d.D ≤ BQFC_MAX_D_BITS) (top : HashTopBit env)
    {segments : List Segment} (chain : HonestChain env x segments z) (more : List Segment)
    (bytes : ByteString) : ∃ W, env.appendSegments d.D (segments ++ more) segments.length bytes =
        .done (bytes ++ W) ∧ W.length = segments.length * segmentLen ∧
      ∀ front, ReadChain env (front ++ (bytes ++ W)) (front ++ bytes).length segments.length x segments z := by
  induction chain generalizing more bytes with
  | nil => exact ⟨[], by simp [appendSegments], by simp, fun _ => .nil⟩
  | @snoc segments z z' s chain honest ih =>
    obtain ⟨B, p, get, written, length, read⟩ := honest.reads bits top
    obtain ⟨W, run, size, walk⟩ := ih (s :: more) (bytes ++ int64ToBytes s.length ++ toBytes B ++ p)
    have index : (segments ++ [s] ++ more)[segments.length]? = some s := by simp
    refine ⟨int64ToBytes s.length ++ toBytes B ++ p ++ W, ?_, ?_, fun front => ?_⟩
    · rw [List.length_append, List.length_singleton, appendSegments, index]
      simp only [get, written, Exec.done_bind]
      rw [List.append_assoc segments, List.singleton_append, run]
      simp only [List.append_assoc]
    · rw [List.length_append, length, size, List.length_append, List.length_singleton]
      ring
    · have reads := read (front ++ bytes) W
      have walk := walk front
      have blob : front ++ (bytes ++ int64ToBytes s.length ++ toBytes B ++ p ++ W) =
          front ++ bytes ++ (int64ToBytes s.length ++ toBytes B ++ p ++ W) := by
        simp only [List.append_assoc]
      have base : (front ++ (bytes ++ int64ToBytes s.length ++ toBytes B ++ p)).length =
          (front ++ bytes).length + segmentLen := by
        rw [← length]
        simp only [List.length_append]
        omega
      rw [blob, base] at walk
      have whole := walk.snoc reads
      simpa only [List.append_assoc, List.length_append, List.length_singleton] using whole

end Writer

section Check

/-- What the verifier computes for a segment. -/
def VerifierEnv.checkSegment (env : VerifierEnv) (D : ℤ) (s : Segment) : Exec Form := do
  let x ← s.x.reduce
  let proof ← s.proof.reduce
  let B ← env.getB D s.x s.y
  env.segmentEnd D x proof B s.length

theorem FormArith.Related.checkSegment {R : ∀ γ : Type, (ℕ → Exec γ) → Exec γ → Prop} {arith : ℕ → FormArith}
    {limit : FormArith} (related : Related R arith limit) (hashPrime : ByteString → Exec ℤ) (D : ℤ) (s : Segment) :
    R Form (fun turns => VerifierEnv.checkSegment ⟨arith turns, hashPrime⟩ D s)
      (VerifierEnv.checkSegment ⟨limit, hashPrime⟩ D s) := by
  apply related.rest
  intro x
  apply related.rest
  intro proof
  -- the hash takes nothing of the arithmetic
  apply related.rest (y := VerifierEnv.getB ⟨limit, hashPrime⟩ D s.x s.y)
  intro B
  exact related.segmentEnd hashPrime hashPrime x proof B s.length

theorem segmentEnd_within (within : env.arith.Within d) (x pi : ReducedForm d) {B : ℕ} (pos : 0 < B) (iters : UInt64) :
    Exec.Within (fun f => f = (pi ^ B * x ^ (2 ^ iters.toNat % B)).form)
      (env.segmentEnd d.D x.form pi.form B iters) := by
  have lawful : env.completed.arith.Lawful d := within.completed
  exact (env.below_completed.segmentEnd x.form pi.form B iters).within (segmentEnd_eq lawful x pi pos iters) rfl

/-- The end of an honest segment, if its computation comes back. -/
theorem HonestSegment.check (within : env.arith.Within d) (positive : HashPositive env)
    (honest : HonestSegment env z z' s) : Exec.Within (fun f => f = z'.form) (env.checkSegment d.D s) := by
  obtain ⟨B, hash, rep⟩ := honest.proof
  have ends := segmentEnd_within within z (z ^ (2 ^ s.length.toNat / B)) (hash.pos positive) s.length
  rw [pow_div_mul_pow_mod, ← honest.power] at ends
  rw [VerifierEnv.checkSegment, honest.x.reduce, Exec.done_bind, rep.reduce, Exec.done_bind, honest.x.getB honest.y]
  rw [HashesTo] at hash
  rw [hash]
  exact ends

theorem HonestSegment.check_done (lawful : env.arith.Lawful d) (positive : HashPositive env)
    (honest : HonestSegment env z z' s) : env.checkSegment d.D s = .done z'.form := by
  obtain ⟨B, hash, rep⟩ := honest.proof
  have ends := segmentEnd_eq lawful z (z ^ (2 ^ s.length.toNat / B)) (hash.pos positive) s.length
  rw [pow_div_mul_pow_mod, ← honest.power] at ends
  rw [HashesTo] at hash
  simp only [VerifierEnv.checkSegment, honest.x.reduce, rep.reduce, honest.x.getB honest.y, hash, Exec.done_bind, ends]

/-- The walk goes on behind a segment just where its computation comes back. -/
theorem Reads.nextForm (within : env.arith.Within d) (positive : HashPositive env) {blob : ByteString} {offset : ℕ}
    (reads : Reads env blob offset z z' s) {t : UInt64} (iters : t.toNat = segmentIters blob offset) :
    (deserializeAt d.D blob (offset + 8 + B_bytes) >>= fun pi =>
        env.nextForm false d.D z.form pi (segmentB blob offset) t) =
      (env.checkSegment d.D s >>= fun _ => .done (some z'.form)) := by
  obtain rfl : t = s.length := UInt64.toNat_inj.mp (iters.trans reads.iters)
  have hash := reads.prime
  have decodes := reads.proof
  have check := reads.honest.check within positive
  rw [HashesTo] at hash
  rw [DecodesTo] at decodes
  have same : env.checkSegment d.D s = env.segmentEnd d.D z.form
      (z ^ (2 ^ s.length.toNat / segmentB blob offset)).form (segmentB blob offset) s.length := by
    simp only [VerifierEnv.checkSegment, reads.honest.x.reduce, reads.rep.reduce,
      reads.honest.x.getB reads.honest.y, hash, Exec.done_bind]
  rw [decodes, Exec.done_bind, VerifierEnv.nextForm, if_neg (by simp), VerifierEnv.verifyWesoSegment, ← same]
  cases ends : env.checkSegment d.D s with
  | done f =>
    obtain rfl := check.value ends
    simp [hash]
  | diverged => rfl
  | thrown =>
    rw [ends] at check
    exact check.elim
  | fault =>
    rw [ends] at check
    exact check.elim

/-- The computations for a chain of segments. -/
def VerifierEnv.checkSegments (env : VerifierEnv) (D : ℤ) (segments : List Segment) : Exec Unit :=
  segments.forM fun s => do
    let _ ← env.checkSegment D s

theorem checkSegments_cons (D : ℤ) (s : Segment) (segments : List Segment) :
    env.checkSegments D (s :: segments) = (env.checkSegment D s >>= fun _ => env.checkSegments D segments) := by
  simp only [VerifierEnv.checkSegments, List.forM_eq_forM, List.forM_cons, bind_assoc]
  rfl

theorem checkSegments_done {D : ℤ} {segments : List Segment} :
    env.checkSegments D segments = .done () ↔ ∀ s ∈ segments, ∃ f, env.checkSegment D s = .done f := by
  induction segments with
  | nil => simp [VerifierEnv.checkSegments]
  | cons s segments ih =>
    rw [checkSegments_cons, Exec.bind_eq_done, List.forall_mem_cons, ← ih]
    exact exists_and_right

/-- The walk over what was written for a chain is the computations for its segments. -/
theorem ReadChain.walkSegments (within : env.arith.Within d) (positive : HashPositive env) {blob : ByteString}
    {base n : ℕ} {segments : List Segment} (chain : ReadChain env blob base n x segments z) {fuel : ℕ} {T : UInt64}
    (inside : base + n * segmentLen ≤ blob.length) (enough : n < fuel)
    (le : (segments.map fun s => s.length.toNat).sum ≤ T.toNat) :
    ∃ T' : UInt64, T'.toNat = T.toNat - (segments.map fun s => s.length.toNat).sum ∧
      env.walkSegments false d.D blob base fuel (base + n * segmentLen) x.form T =
        (env.checkSegments d.D segments >>= fun _ => .done (some (z.form, T'))) := by
  induction chain generalizing fuel T with
  | nil =>
    obtain ⟨fuel, rfl⟩ : ∃ m, fuel = m + 1 := ⟨fuel - 1, by omega⟩
    refine ⟨T, by simp, ?_⟩
    rw [zero_mul, add_zero, VerifierEnv.walkSegments, if_neg (lt_irrefl _)]
    rfl
  | @cons n x x' s segments z reads chain ih =>
    obtain ⟨fuel, rfl⟩ : ∃ m, fuel = m + 1 := ⟨fuel - 1, by omega⟩
    have shorter : base + n * segmentLen ≤ blob.length := by
      rw [Nat.succ_mul] at inside
      omega
    rw [List.map_cons, List.sum_cons] at le ⊢
    obtain ⟨t, value, step⟩ := walkSegments_step env false d.D inside fuel x.form T
    have iters : t.toNat = s.length.toNat := value.trans reads.iters
    have below : t ≤ T := UInt64.le_iff_toNat_le.mpr (by omega)
    obtain ⟨T', rest, walk⟩ := @ih fuel (T - t) shorter (by omega)
      (by rw [UInt64.toNat_sub_of_le _ _ below]; omega)
    refine ⟨T', by rw [rest, UInt64.toNat_sub_of_le _ _ below]; omega, ?_⟩
    rw [step, ← bind_assoc, reads.nextForm within positive value, checkSegments_cons]
    simp only [bind_assoc, Exec.done_bind, if_neg (UInt64.not_lt.mpr below), walk]

/-- The last relation holds just where its computation comes back. -/
theorem HonestSegment.verify (within : env.arith.Within d) (positive : HashPositive env)
    (honest : HonestSegment env z z' s) {pi : Form} (read : s.proof.reduce = .done pi) :
    env.verifyWesolowskiProof d.D z.form z'.form pi s.length =
      (env.checkSegment d.D s >>= fun _ => .done true) := by
  have check := honest.check within positive
  have get : env.getB d.D s.x s.y = env.getB d.D z.form z'.form := honest.x.getB honest.y
  rw [verifyWesolowskiProof_eq env (mpzRoot4_neg_D d)]
  simp only [VerifierEnv.checkSegment, honest.x.reduce, read, get, Exec.done_bind] at check ⊢
  obtain ⟨B, hash, -⟩ := honest.proof
  rw [HashesTo] at hash
  simp only [hash, Exec.done_bind] at check ⊢
  cases ends : env.segmentEnd d.D z.form pi B s.length with
  | done f =>
    obtain rfl := check.value ends
    simp
  | diverged => rfl
  | thrown =>
    rw [ends] at check
    exact check.elim
  | fault =>
    rw [ends] at check
    exact check.elim

/-- What is written for an honest chain is accepted for the sum of its lengths, if the computations for its segments
come back, and otherwise the verifier does not come back. -/
theorem serializeProof_checked (bits : numBits d.D ≤ BQFC_MAX_D_BITS) (within : env.arith.Within d)
    (top : HashTopBit env) {segments : List Segment} (chain : HonestChain env x segments z)
    (nonempty : segments ≠ []) (few : segments.length ≤ 64) {y : Form} (rep : Represents y z) {T : UInt64}
    (total : T.toNat = (segments.map fun s => s.length.toNat).sum) :
    ∃ proof xS, env.serializeProof d.D y segments = .done proof ∧
      serializeForm x.form (numBits d.D) = .done xS ∧
      env.checkProofOfTimeNWesolowski d.D xS (proof.y ++ proof.proof) T (UInt64.ofNat (numBits d.D))
        (UInt64.ofNat (segments.length - 1)) = (env.checkSegments d.D segments >>= fun _ => .done true) := by
  cases chain with
  | nil => exact absurd rfl nonempty
  | @snoc segments w z s chain honest =>
    obtain ⟨B, hash, repi⟩ := honest.proof
    obtain ⟨sx, -, lengthX, writtenX, readX⟩ := reduced_roundTrip bits x
    obtain ⟨sy, -, lengthY, writtenY, readY⟩ := reduced_roundTrip bits z
    obtain ⟨sp, -, lengthP, writtenP, readP⟩ := reduced_roundTrip bits (w ^ (2 ^ s.length.toNat / B))
    obtain ⟨W, run, size, walk⟩ := appendSegments_reads bits top chain [s] sp
    have count : (segments ++ [s]).length - 1 = segments.length := by simp
    have last : (segments ++ [s])[segments.length]? = some s := by simp
    refine ⟨⟨sy, sp ++ W, UInt8.ofNat segments.length⟩, sx, ?_, writtenX, ?_⟩
    · simp only [serializeProof, rep.serializeForm, writtenY, repi.serializeForm, writtenP, run, count,
        last, Exec.done_bind, Exec.pure_eq]
    · have length : (sy ++ (sp ++ W)).length = 2 * BQFC_FORM_SIZE + segments.length * segmentLen := by
        simp only [List.length_append, lengthY, lengthP, size]
        omega
      have short : segments.length ≤ 63 := by
        rw [List.length_append, List.length_singleton] at few
        omega
      have depth : (UInt64.ofNat segments.length).toNat = segments.length := by
        rw [UInt64.toNat_ofNat']
        exact Nat.mod_eq_of_lt (by omega)
      have sizes : 2 * BQFC_FORM_SIZE = 200 ∧ segmentLen = 141 := ⟨rfl, rfl⟩
      simp only [List.map_append, List.map_cons, List.map_nil, List.sum_append, List.sum_singleton]
        at total
      have base : (sy ++ sp).length = 2 * BQFC_FORM_SIZE := by
        rw [List.length_append, lengthY, lengthP]
        omega
      have addressable : (sy ++ (sp ++ W)).length < 2 ^ 64 := by
        rw [length, sizes.1, sizes.2]
        omega
      have guards := (length_guard (UInt64.ofNat segments.length) addressable
        (show 2 * BQFC_FORM_SIZE ≤ sizeMax by decide)).mpr (by rw [depth]; exact length)
      have reads := walk sy
      rw [base] at reads
      obtain ⟨T', rest, walked⟩ := @ReadChain.walkSegments _ _ _ _ within top.positive _ _ _ _ reads
        ((sy ++ (sp ++ W)).length + 1) T length.ge (by rw [length, sizes.1, sizes.2]; omega) (by omega)
      rw [← length] at walked
      have decodeX : DecodesTo d sx 0 x := by simpa using decodesTo_written [] [] lengthX (readX false)
      have decodeY : deserializeAt d.D (sy ++ (sp ++ W)) 0 = .done z.form :=
        decodesTo_written [] (sp ++ W) lengthY (readY false)
      have decodeP : deserializeAt d.D (sy ++ (sp ++ W)) BQFC_FORM_SIZE =
          .done (w ^ (2 ^ s.length.toNat / B)).form := by
        have decode := decodesTo_written sy W lengthP (readP false)
        rwa [lengthY] at decode
      obtain rfl : T' = s.length := UInt64.toNat_inj.mp (by omega)
      rw [DecodesTo] at decodeX
      push Not at guards
      have ranges : isDiscSizeBitsInRange (UInt64.ofNat (numBits d.D)) = true ∧ isDiscriminantInRange d.D = true :=
        ⟨sizeBits_of_bits bits (Bqfc.numBits_pos d.D), discriminantInRange bits⟩
      rw [count, VerifierEnv.checkProofOfTimeNWesolowski, if_neg (by simp [ranges])]
      dsimp only
      rw [if_neg (not_lt.mpr guards.1), if_neg (not_not.mpr guards.2), decodeX, Exec.done_bind, walked]
      simp only [bind_assoc, Exec.done_bind, decodeY, decodeP, honest.verify within top.positive repi.reduce]
      simp only [VerifierEnv.checkSegments, List.forM_eq_forM, List.forM_append, List.forM_cons, List.forM_nil,
        bind_assoc, Exec.pure_eq, Exec.done_bind]

theorem HonestChain.checkSegments (lawful : env.arith.Lawful d) (positive : HashPositive env) {segments : List Segment}
    (chain : HonestChain env x segments z) : env.checkSegments d.D segments = .done () := by
  rw [checkSegments_done]
  induction chain with
  | nil => simp
  | snoc _ honest ih =>
    intro s member
    rcases List.mem_append.mp member with old | new
    · exact ih s old
    · obtain rfl := List.mem_singleton.mp new
      exact ⟨_, honest.check_done lawful positive⟩

/-- What is written for an honest chain is accepted, for the sum of its lengths. -/
theorem serializeProof_accepted (bits : numBits d.D ≤ BQFC_MAX_D_BITS) (lawful : env.arith.Lawful d)
    (top : HashTopBit env) {segments : List Segment} (chain : HonestChain env x segments z)
    (nonempty : segments ≠ []) (few : segments.length ≤ 64) {y : Form} (rep : Represents y z) {T : UInt64}
    (total : T.toNat = (segments.map fun s => s.length.toNat).sum) :
    ∃ proof xS, env.serializeProof d.D y segments = .done proof ∧
      serializeForm x.form (numBits d.D) = .done xS ∧
      env.checkProofOfTimeNWesolowski d.D xS (proof.y ++ proof.proof) T (UInt64.ofNat (numBits d.D))
        (UInt64.ofNat (segments.length - 1)) = .done true := by
  obtain ⟨proof, xS, run, written, check⟩ := serializeProof_checked bits lawful.within top chain nonempty few rep total
  rw [chain.checkSegments lawful top.positive] at check
  exact ⟨proof, xS, run, written, check⟩

end Check

/-- The writer of `ProverManager::Prove` and the parser of the verifier agree on every honest
chain, for any hash with the top bit set. -/
theorem honestChain_accepted (d : Discriminant) (bits : numBits d.D ≤ BQFC_MAX_D_BITS) (arith : FormArith)
    (lawful : arith.Lawful d) (hash : ByteString → ℕ) (top : ∀ seed, 2 ^ 263 ≤ hash seed ∧ hash seed < 2 ^ 264)
    (segments : List Segment) (nonempty : segments ≠ []) (few : segments.length ≤ 64) (x z : ReducedForm d)
    (chain : HonestChain ⟨arith, fun seed => .done (hash seed)⟩ x segments z) (y : Form)
    (rep : Represents y z) (T : UInt64) (total : T.toNat = (segments.map fun s => s.length.toNat).sum) :
    let env : VerifierEnv := ⟨arith, fun seed => .done (hash seed)⟩
    ∃ proof xS, env.serializeProof d.D y segments = .done proof ∧
      serializeForm x.form (numBits d.D) = .done xS ∧
      env.checkProofOfTimeNWesolowski d.D xS (proof.y ++ proof.proof) T (UInt64.ofNat (numBits d.D))
        (UInt64.ofNat (segments.length - 1)) = .done true :=
  serializeProof_accepted bits lawful (fun seed => ⟨hash seed, rfl, top seed⟩) chain nonempty few rep total

/-- From the generator, 264 iterations and one more; the proof of the first segment is the square of the generator. -/
theorem honestChain_accepted_cube : ∃ proof xS,
    (⟨.plain, fun _ => .done (2 ^ 263 : ℕ)⟩ : VerifierEnv).serializeProof (-23) ⟨2, -1, 3⟩
        [⟨0, 264, ⟨2, 1, 3⟩, ⟨2, 1, 3⟩, ⟨2, -1, 3⟩, false⟩, ⟨264, 1, ⟨2, 1, 3⟩, ⟨2, -1, 3⟩, ⟨1, 1, 6⟩, false⟩] =
      .done proof ∧ serializeForm ⟨2, 1, 3⟩ 5 = .done xS ∧
      (⟨.plain, fun _ => .done (2 ^ 263 : ℕ)⟩ : VerifierEnv).checkProofOfTimeNWesolowski (-23) xS
        (proof.y ++ proof.proof) 265 5 1 = .done true := by
  let d : Discriminant := ⟨23, by norm_num, rfl⟩
  let x : ReducedForm d := ⟨⟨2, 1, 3⟩, by decide, rfl⟩
  let y : ReducedForm d := ⟨⟨2, -1, 3⟩, by decide, rfl⟩
  have one : (1 : ReducedForm d).form = ⟨1, 1, 6⟩ :=
    Exec.done.inj ((identity_run d).symm.trans (show Form.identity (-23) = _ by decide +kernel))
  have square : x * x = y := ReducedForm.ext
    (Exec.done.inj ((multiply_run x x).symm.trans (show Form.multiply ⟨2, 1, 3⟩ ⟨2, 1, 3⟩ = _ by decide +kernel)))
  have cube : x ^ 3 = 1 := by
    rw [pow_succ, pow_two, square]
    apply ReducedForm.ext
    rw [one]
    exact Exec.done.inj ((multiply_run y x).symm.trans (show Form.multiply ⟨2, -1, 3⟩ ⟨2, 1, 3⟩ = _ by decide +kernel))
  have first : HonestSegment (⟨.plain, fun _ => .done (2 ^ 263 : ℕ)⟩ : VerifierEnv) x x
      ⟨0, 264, ⟨2, 1, 3⟩, ⟨2, 1, 3⟩, ⟨2, -1, 3⟩, false⟩ := by
    refine ⟨x.represents, x.represents, ?_, 2 ^ 263, by unfold HashesTo; decide +kernel, ?_⟩
    · rw [pow_eq_pow_mod _ cube, show 2 ^ UInt64.toNat 264 % 3 = 1 by decide +kernel, pow_one]
    · rw [show 2 ^ UInt64.toNat 264 / 2 ^ 263 = 2 by decide +kernel, pow_two, square]
      exact y.represents
  have second : HonestSegment (⟨.plain, fun _ => .done (2 ^ 263 : ℕ)⟩ : VerifierEnv) x y
      ⟨264, 1, ⟨2, 1, 3⟩, ⟨2, -1, 3⟩, ⟨1, 1, 6⟩, false⟩ := by
    refine ⟨x.represents, y.represents, ?_, 2 ^ 263, by unfold HashesTo; decide +kernel, ?_⟩
    · rw [show 2 ^ UInt64.toNat 1 = 2 by decide, pow_two, square]
    · rw [show 2 ^ UInt64.toNat 1 / 2 ^ 263 = 0 by decide +kernel, pow_zero]
      exact one ▸ ReducedForm.represents 1
  obtain ⟨proof, xS, run, written, check⟩ := honestChain_accepted d (by decide) .plain (FormArith.plain_lawful d)
    (fun _ => 2 ^ 263) (fun _ => ⟨le_rfl, Nat.pow_lt_pow_right Nat.one_lt_two (Nat.lt_succ_self 263)⟩)
    [⟨0, 264, ⟨2, 1, 3⟩, ⟨2, 1, 3⟩, ⟨2, -1, 3⟩, false⟩, ⟨264, 1, ⟨2, 1, 3⟩, ⟨2, -1, 3⟩, ⟨1, 1, 6⟩, false⟩]
    (by simp) (by simp) x y (.snoc (.snoc .nil first) second) ⟨2, -1, 3⟩ y.represents 265 (by decide)
  have five : numBits d.D = 5 := by decide
  rw [five] at written check
  exact ⟨proof, xS, run, written, check⟩

end ChiaVdf
