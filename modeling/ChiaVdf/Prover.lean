import ChiaVdf.ProverSlow

/-! `Prover::GenerateProof` of `prover_impl.hpp`: the algorithm of the slow prover, which asks for
the intermediates one at a time. Stopping and pausing between two steps is left out. -/
namespace ChiaVdf

open ProverSlow Finset

namespace Prover

section Rounds

variable (arith : FormArith) (D L : ℤ)

/-- Drops the intermediate with index `i` into the bucket of its digit. -/
def bucketStep (B : ℤ) (getForm : ℕ → Exec Form) (numIterations k l j i : ℕ) (ys : List Form) :
    Exec (List Form) :=
  if numIterations ≥ k * (i * l + j + 1) % 2 ^ 64 then do
    let b ← getBlock (i * l + j) k numIterations B
    if b ≥ 2 ^ k then .thrown "GenerateProof block index out of bounds"
    else do
      let tmp ← getForm i
      let y ← entry ys b
      let y ← arith.nucomp y tmp D L
      return ys.set b y
  else .done ys

/-- How many intermediates there are. -/
def limit (numIterations k l : ℕ) : ℕ :=
  numIterations / (k * l % 2 ^ 32) + if numIterations % (k * l % 2 ^ 32) ≠ 0 then 1 else 0

/-- One turn of the loop over `j`. -/
def digitRound (B : ℤ) (id : Form) (getForm : ℕ → Exec Form) (numIterations k l j : ℕ) (x : Form) :
    Exec Form := do
  let k1 := k / 2
  let k0 := k - k1
  let x ← arith.fastPowFormNucomp x D (Int.bmod (2 ^ k) (2 ^ 32)) L
  let ys ← Exec.forLoop (limit numIterations k l)
    (bucketStep arith D L B getForm numIterations k l j) (List.replicate (2 ^ k) id)
  let x ← Exec.forLoop (2 ^ k1) (fun b1 x => do
    let z ← collect arith D L ys id (fun b0 => b1 * 2 ^ k0 + b0) (2 ^ k0)
    let z ← arith.fastPowFormNucomp z D (b1 * 2 ^ k0 : ℕ) L
    arith.nucomp x z D L) x
  Exec.forLoop (2 ^ k0) (fun b0 x => do
    let z ← collect arith D L ys id (fun b1 => b1 * 2 ^ k0 + b0) (2 ^ k1)
    let z ← arith.fastPowFormNucomp z D b0 L
    arith.nucomp x z D L) x

end Rounds

end Prover

/-- The proof for a segment; `getForm j i` is what `GetForm(i)` returns in the turn for `j`. -/
def VerifierEnv.generateProof (env : VerifierEnv) (D : ℤ) (segm : Segment) (k l : ℕ)
    (getForm : ℕ → ℕ → Exec Form) : Exec Form := do
  let B ← env.getB D segm.x segm.y
  let L ← mpzRoot4 (-D)
  let id ← Form.identity D
  let x ← Exec.forLoop l (fun r => Prover.digitRound env.arith D L B id (getForm (l - 1 - r))
    segm.length.toNat k l (l - 1 - r)) id
  env.arith.reduce x

namespace Prover

section Extends

variable {arith : FormArith} {D L : ℤ} {k l : ℕ}

/-- More answers to `GetForm` do not change a proof that was found. -/
theorem bucketStep_extends {getForm getForm' : ℕ → Exec Form} (more : ∀ i, (getForm i).Extends (getForm' i))
    (B : ℤ) (T j i : ℕ) (ys : List Form) : (bucketStep arith D L B getForm T k l j i ys).Extends
      (bucketStep arith D L B getForm' T k l j i ys) := by
  unfold bucketStep
  split_ifs
  · refine (Exec.Extends.refl _).bind fun b => ?_
    split_ifs
    · exact Exec.Extends.refl _
    · exact (more i).bind fun _ => Exec.Extends.refl _
  · exact Exec.Extends.refl _

theorem digitRound_extends {getForm getForm' : ℕ → Exec Form} (more : ∀ i, (getForm i).Extends (getForm' i))
    (B : ℤ) (id : Form) (T j : ℕ) (f : Form) : (digitRound arith D L B id getForm T k l j f).Extends
      (digitRound arith D L B id getForm' T k l j f) := by
  refine (Exec.Extends.refl _).bind fun x => Exec.Extends.bind ?_ fun ys => Exec.Extends.refl _
  exact Exec.Extends.forLoop _ fun i ys => bucketStep_extends more B T j i ys

theorem generateProof_extends (env : VerifierEnv) {getForm getForm' : ℕ → ℕ → Exec Form}
    (more : ∀ j i, (getForm j i).Extends (getForm' j i)) (segm : Segment) :
    (env.generateProof D segm k l getForm).Extends (env.generateProof D segm k l getForm') := by
  refine (Exec.Extends.refl _).bind fun B => (Exec.Extends.refl _).bind fun L =>
    (Exec.Extends.refl _).bind fun id => Exec.Extends.bind ?_ fun x => Exec.Extends.refl _
  exact Exec.Extends.forLoop _ fun r f => digitRound_extends (more _) B id _ _ f

end Extends

end Prover

section Related

variable {R : ∀ γ : Type, (ℕ → Exec γ) → Exec γ → Prop} {arith : ℕ → FormArith} {limit : FormArith} {D L : ℤ}

theorem FormArith.Related.bucketStep (related : Related R arith limit) (B : ℤ) (getForm : ℕ → Exec Form)
    (T k l j i : ℕ) (ys : List Form) :
    R (List Form) (fun turns => Prover.bucketStep (arith turns) D L B getForm T k l j i ys)
      (Prover.bucketStep limit D L B getForm T k l j i ys) := by
  apply Exec.Stepwise.ite _ (related.const _)
  apply related.rest
  intro b
  apply Exec.Stepwise.ite (related.const _)
  apply related.rest
  intro tmp
  apply related.rest
  intro y
  exact related.first (related.nucomp y tmp D L)

theorem FormArith.Related.digitRound (related : Related R arith limit) (B : ℤ) (id : Form) (getForm : ℕ → Exec Form)
    (T k l j : ℕ) (x : Form) :
    R Form (fun turns => Prover.digitRound (arith turns) D L B id getForm T k l j x)
      (Prover.digitRound limit D L B id getForm T k l j x) := by
  apply related.bind (related.fastPow x D _ L)
  intro x
  apply related.bind (related.forLoop _ (related.bucketStep B getForm T k l j))
  intro ys
  apply related.bind (related.gather L ys id x (fun b1 b0 => _) (fun b1 => _) _ _)
  intro x
  exact related.gather L ys id x (fun b0 b1 => _) (fun b0 => _) _ _

theorem FormArith.Related.generateProof (related : Related R arith limit) (hashPrime : ByteString → Exec ℤ)
    (getForm : ℕ → ℕ → Exec Form) (segm : Segment) (k l : ℕ) :
    R Form (fun turns => VerifierEnv.generateProof ⟨arith turns, hashPrime⟩ D segm k l getForm)
      (VerifierEnv.generateProof ⟨limit, hashPrime⟩ D segm k l getForm) := by
  -- the hash takes nothing of the arithmetic
  apply related.rest (y := VerifierEnv.getB ⟨limit, hashPrime⟩ D segm.x segm.y)
  intro B
  apply related.rest
  intro L
  apply related.rest
  intro id
  apply related.bind (related.forLoop id fun r x => related.digitRound B id _ _ _ _ _ x)
  exact related.reduce

end Related

namespace Prover

theorem generateProof_below {env env' : VerifierEnv} (below : env.Below env') {D : ℤ} {k l : ℕ}
    (getForm : ℕ → ℕ → Exec Form) (segm : Segment) :
    Exec.Below (env.generateProof D segm k l getForm) (env'.generateProof D segm k l getForm) := by
  obtain ⟨arith, hashPrime⟩ := env
  obtain ⟨arith', hashPrime'⟩ := env'
  obtain rfl : hashPrime = hashPrime' := below.hashPrime
  exact below.arith.related.generateProof hashPrime getForm segm k l 0

variable {d : Discriminant} {arith : FormArith} {x : ReducedForm d} {T k l j B : ℕ}
  {getForm : ℕ → Exec Form}

theorem limit_eq (small : k * l < 2 ^ 32) (pos : 0 < k * l) :
    limit T k l = (T + k * l - 1) / (k * l) := by
  rw [limit, Nat.mod_eq_of_lt small, count_eq pos]
  by_cases exact : T % (k * l) = 0 <;> simp [exact]

/-- Asking for the intermediates one at a time is the same as having them in a list. -/
theorem bucketStep_eq {D L : ℤ} (pos : 0 < B) (ks : k < 31) (Ts : T < 2 ^ 64) {inter : List Form} {i : ℕ}
    (word : k * (i * l + j + 1) < 2 ^ 64)
    (given : k * (i * l + j + 1) ≤ T → getForm i = entry inter i) (ys : List Form) (length : ys.length = 2 ^ k) :
    bucketStep arith D L B getForm T k l j i ys = ProverSlow.bucketStep arith D L B inter T k l j i ys := by
  unfold bucketStep ProverSlow.bucketStep
  rw [Nat.mod_eq_of_lt word]
  split_ifs with le
  · obtain ⟨get, small⟩ := getBlock_spec (i := i * l + j) pos ks le Ts
    have inside : ¬block T k B (i * l + j) ≥ 2 ^ k := by omega
    have bound : block T k B (i * l + j) < ys.length := by omega
    have read : entry ys (block T k B (i * l + j)) = .done ys[block T k B (i * l + j)] := by
      rw [entry, List.getElem?_eq_getElem bound]
    simp only [get, Exec.done_bind, if_neg inside, given le, read]
  · rfl

/-- `GetForm` is asked for the blocks inside the segment only. -/
theorem generateProof_congr {env : VerifierEnv} {D : ℤ} {segm : Segment} {getForm getForm' : ℕ → ℕ → Exec Form}
    (kpos : 0 < k) (lpos : 0 < l) (small : k * l < 2 ^ 32) (fits : segm.length.toNat + k * l ≤ 2 ^ 64)
    (same : ∀ j < l, ∀ i, k * (i * l + j + 1) ≤ segm.length.toNat → getForm j i = getForm' j i) :
    env.generateProof D segm k l getForm = env.generateProof D segm k l getForm' := by
  have klpos : 0 < k * l := Nat.mul_pos kpos lpos
  have buckets {L : ℤ} (B : ℤ) (id : Form) {j : ℕ} (jl : j < l) :
      Exec.forLoop (limit segm.length.toNat k l)
          (bucketStep env.arith D L B (getForm j) segm.length.toNat k l j) (List.replicate (2 ^ k) id) =
        Exec.forLoop (limit segm.length.toNat k l)
          (bucketStep env.arith D L B (getForm' j) segm.length.toNat k l j) (List.replicate (2 ^ k) id) := by
    refine (Exec.forLoop_congr (fun _ => True) trivial (fun _ _ _ _ _ _ => trivial) fun i lt ys _ => ?_).1
    rw [limit_eq small klpos] at lt
    have word := index_le klpos jl lt
    unfold bucketStep
    rw [Nat.mod_eq_of_lt (by omega)]
    split_ifs with inside
    · rw [same j jl i inside]
    · rfl
  have turn {L : ℤ} (B : ℤ) (id : Form) {j : ℕ} (jl : j < l) (x : Form) :
      digitRound env.arith D L B id (getForm j) segm.length.toNat k l j x =
        digitRound env.arith D L B id (getForm' j) segm.length.toNat k l j x := by
    simp only [digitRound, buckets B id jl]
  have loop {L : ℤ} (B : ℤ) (id : Form) :
      Exec.forLoop l (fun r => digitRound env.arith D L B id (getForm (l - 1 - r)) segm.length.toNat k l (l - 1 - r))
        id =
        Exec.forLoop l (fun r => digitRound env.arith D L B id (getForm' (l - 1 - r)) segm.length.toNat k l
          (l - 1 - r)) id :=
    (Exec.forLoop_congr (fun _ => True) trivial (fun _ _ _ _ _ _ => trivial) fun r lt x _ => turn B id (by omega) x).1
  simp only [VerifierEnv.generateProof, loop]

theorem bucketStep_length {D L : ℤ} {inter ys ys' : List Form} {i : ℕ}
    (run : ProverSlow.bucketStep arith D L B inter T k l j i ys = .done ys') : ys'.length = ys.length := by
  unfold ProverSlow.bucketStep at run
  split_ifs at run
  · obtain ⟨b, -, run⟩ := Exec.bind_eq_done.mp run
    obtain ⟨y, -, run⟩ := Exec.bind_eq_done.mp run
    obtain ⟨f, -, run⟩ := Exec.bind_eq_done.mp run
    obtain ⟨z, -, run⟩ := Exec.bind_eq_done.mp run
    obtain rfl := Exec.done.inj run
    exact List.length_set
  · exact congrArg List.length (Exec.done.inj run).symm

/-- What `GetForm` has to return in the turn for `j`. -/
def Answers (x : ReducedForm d) (T k l j : ℕ) (getForm : ℕ → Exec Form) : Prop :=
  ∀ i, k * (i * l + j + 1) ≤ T → ∃ f, getForm i = .done f ∧ Represents f (x ^ 2 ^ (i * (k * l)))

theorem Answers.list (answers : Answers x T k l j getForm) (n : ℕ) : ∃ inter : List Form,
    inter.length = n ∧ Holds x inter (fun i => 2 ^ (i * (k * l))) ∧
      ∀ i < n, k * (i * l + j + 1) ≤ T → getForm i = entry inter i := by
  have pick : ∀ i, ∃ f, Represents f (x ^ 2 ^ (i * (k * l))) ∧
      (k * (i * l + j + 1) ≤ T → getForm i = .done f) := by
    intro i
    by_cases le : k * (i * l + j + 1) ≤ T
    · obtain ⟨f, run, rep⟩ := answers i le
      exact ⟨f, rep, fun _ => run⟩
    · exact ⟨_, ReducedForm.represents _, fun le' => absurd le' le⟩
  choose f rep run using pick
  refine ⟨(List.range n).map f, by simp, ?_, ?_⟩
  · intro i g found
    obtain ⟨inside, rfl⟩ := List.getElem?_eq_some_iff.mp found
    rw [List.getElem_map, List.getElem_range]
    exact rep i
  · intro i lt le
    rw [run i le, entry, List.getElem?_map, List.getElem?_range lt]
    rfl

theorem digitRound_spec (lawful : arith.Lawful d) {one f : Form} {e : ℕ}
    (identity : Represents one (1 : ReducedForm d)) (pos : 0 < B) (kpos : 0 < k) (ks : k < 31) (jl : j < l)
    (Ts : T + k * l ≤ 2 ^ 64) (small : k * l < 2 ^ 32) (answers : Answers x T k l j getForm)
    (rep : Represents f (x ^ e)) :
    ∃ g, digitRound arith d.D d.L B one getForm T k l j f = .done g ∧
      Represents g (x ^ (2 ^ k * e + digitSum T k l B j ((T + k * l - 1) / (k * l)))) := by
  have klpos : 0 < k * l := Nat.mul_pos kpos (by omega)
  obtain ⟨inter, length, holds, given⟩ := answers.list ((T + k * l - 1) / (k * l))
  obtain ⟨g, run, repg⟩ := ChiaVdf.digitRound_spec lawful identity pos kpos ks jl Ts holds length rep
  refine ⟨g, ?_, repg⟩
  rw [← run]
  have wrap : (T + k * l - 1) % 2 ^ 64 = T + k * l - 1 := Nat.mod_eq_of_lt (by omega)
  obtain ⟨loop, -⟩ := @Exec.forLoop_congr _ ((T + k * l - 1) / (k * l))
    (bucketStep arith d.D d.L B getForm T k l j)
    (ProverSlow.bucketStep arith d.D d.L B inter T k l j)
    (List.replicate (2 ^ k) one) (fun ys => ys.length = 2 ^ k) List.length_replicate
    (fun i _ ys ys' same step => (bucketStep_length step).trans same)
    (fun i below ys same => by
      have word := index_le klpos jl below
      exact bucketStep_eq pos ks (by omega) (by omega) (given i below) ys same)
  simp only [digitRound, ProverSlow.digitRound, limit_eq small klpos, wrap, loop]

variable {env : VerifierEnv}

/-- `GenerateProof` finds the power with exponent `2^T / B`, whatever `GetForm` returns for blocks
that the proof does not use. -/
theorem generateProof_spec (getForm : ℕ → ℕ → Exec Form) (lawful : env.arith.Lawful d) {segm : Segment}
    {l : ℕ} (hash : env.getB d.D segm.x segm.y = .done B) (large : 2 ^ k ≤ B) (kpos : 0 < k) (ks : k < 31)
    (lpos : 0 < l) (Ts : segm.length.toNat + k * l ≤ 2 ^ 64) (small : k * l < 2 ^ 32)
    (answers : ∀ j < l, Answers x segm.length.toNat k l j (getForm j)) :
    ∃ proof, env.generateProof d.D segm k l getForm = .done proof ∧
      Represents proof (x ^ (2 ^ segm.length.toNat / B)) := by
  have identity : Represents (1 : ReducedForm d).form (1 : ReducedForm d) := ReducedForm.represents 1
  have pos : 0 < B := lt_of_lt_of_le (by positivity) large
  obtain ⟨T, length⟩ : ∃ T, segm.length.toNat = T := ⟨_, rfl⟩
  rw [length] at Ts answers ⊢
  obtain ⟨f, run, rep⟩ : ∃ f, Exec.forLoop l (fun r => digitRound env.arith d.D d.L B
        (1 : ReducedForm d).form (getForm (l - 1 - r)) T k l (l - 1 - r)) (1 : ReducedForm d).form = .done f ∧
      Represents f (x ^ ∑ j ∈ range l, 2 ^ (k * j) *
        digitSum T k l B (l - l + j) ((T + k * l - 1) / (k * l))) :=
    countdown_spec (fun j => digitRound env.arith d.D d.L B _ (getForm j) T k l j)
      (fun j => digitSum T k l B j _) identity le_rfl fun j jl _ _ rep =>
        digitRound_spec lawful identity pos kpos ks jl Ts small (answers j jl) rep
  simp only [Nat.sub_self, zero_add, sum_digitSum kpos lpos large] at rep
  obtain ⟨g, last⟩ := lawful.reduce_done rep
  exact ⟨g, by simp only [VerifierEnv.generateProof, hash, mpzRoot4_neg_D, Exec.done_bind, identity_run,
    length, run, last], lawful.reduce rep last⟩

end Prover

end ChiaVdf
