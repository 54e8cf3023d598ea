import Mathlib.Analysis.Complex.ExponentialBounds
import Mathlib.Analysis.SpecialFunctions.Log.Base
import ChiaVdf.ProofChain

/-! `prover_slow.h`: the prover that keeps every `k*l`-th power, finds the digits of the
quotient `2^T / B` to the base `2^k` without computing it, and gathers the powers of each digit
in buckets. -/
namespace ChiaVdf

open Finset

/-- What `ApproximateParameters` yields for `T`. The source computes both estimates in floating
point; here they are real numbers, and `k` is within one of its estimate after rounding. -/
def ApproximateParameters (T : ℕ) (l k : ℤ) : Prop :=
  let log_memory : ℝ := 23.25349666
  (l = if Real.logb 2 T - log_memory > 0.000001 then ⌈(2 : ℝ) ^ (log_memory - 20)⌉ else 1) ∧
    let intermediate : ℝ := T * 0.6931471 / (2 * l)
    (intermediate ≤ 1 → k = 1) ∧
    (1 < intermediate →
      |(k : ℝ) - max (Real.log intermediate - Real.log (Real.log intermediate) + 0.25) 1| ≤ 1)

namespace ProverSlow

/-- An entry of a vector. -/
def entry (forms : List Form) (i : ℕ) : Exec Form :=
  match forms[i]? with
  | some f => .done f
  | none => .fault .outOfBounds

/-- The digit of `2^T / B` with index `i`, counted from the highest. -/
def getBlock (i k T : ℕ) (B : ℤ) : Exec ℕ := do
  let res ← fastPow (UInt64.ofNat (Bqfc.sizeSub T (k * (i + 1) % 2 ^ 64))) B
  let res ← mpzFdivQ (res * 2 ^ k) B
  return res.natAbs % 2 ^ 64

section Prover

variable (arith : FormArith) (D L : ℤ)

/-- The product of the buckets that `index` lists. -/
def collect (ys : List Form) (one : Form) (index : ℕ → ℕ) (n : ℕ) : Exec Form :=
  Exec.forLoop n (fun b z => do
    let y ← entry ys (index b)
    arith.nucomp z y D L) one

/-- Drops the intermediate with index `i` into the bucket of its digit. -/
def bucketStep (B : ℤ) (intermediates : List Form) (T k l j i : ℕ) (ys : List Form) : Exec (List Form) :=
  if T ≥ k * (i * l + j + 1) % 2 ^ 64 then do
    let b ← getBlock (i * l + j) k T B
    let y ← entry ys b
    let f ← entry intermediates i
    let y ← arith.nucomp y f D L
    return ys.set b y
  else .done ys

/-- One turn of the loop over `j`. -/
def digitRound (B : ℤ) (one : Form) (intermediates : List Form) (T k l j : ℕ) (x : Form) : Exec Form := do
  let k1 := k / 2
  let k0 := k - k1
  let x ← arith.fastPowFormNucomp x D (Int.bmod (2 ^ k) (2 ^ 32)) L
  let ys ← Exec.forLoop ((T + k * l - 1) % 2 ^ 64 / (k * l)) (bucketStep arith D L B intermediates T k l j)
    (List.replicate (2 ^ k) one)
  let x ← Exec.forLoop (2 ^ k1) (fun b1 x => do
    let z ← collect arith D L ys one (fun b0 => b1 * 2 ^ k0 + b0) (2 ^ k0)
    let z ← arith.fastPowFormNucomp z D (b1 * 2 ^ k0 : ℕ) L
    arith.nucomp x z D L) x
  Exec.forLoop (2 ^ k0) (fun b0 x => do
    let z ← collect arith D L ys one (fun b1 => b1 * 2 ^ k0 + b0) (2 ^ k1)
    let z ← arith.fastPowFormNucomp z D b0 L
    arith.nucomp x z D L) x

/-- One squaring, which is stored first every `kl` turns. -/
def squareStep (kl sizeVec i : ℕ) (s : Form × List Form) : Exec (Form × List Form) :=
  if i % kl = 0 ∧ sizeVec ≤ s.2.length then .fault .outOfBounds
  else do
    let intermediates := if i % kl = 0 then s.2 ++ [s.1] else s.2
    let y ← arith.nudupl s.1 D L
    let y ← arith.reduce y
    return (y, intermediates)

end Prover

end ProverSlow

open ProverSlow

namespace VerifierEnv

variable (env : VerifierEnv)

def generateWesolowski (D : ℤ) (y xInit : Form) (intermediates : List Form) (T k l : ℕ) : Exec Form := do
  let B ← env.getB D xInit y
  let L ← mpzRoot4 (-D)
  if k = 0 ∨ l = 0 then .fault .assertion
  else do
    let one ← Form.identity D
    let x ← Exec.forLoop l (fun r => digitRound env.arith D L B one intermediates T k l (l - 1 - r)) one
    env.arith.reduce x

/-- `ProveSlow` without a shutdown file, with the parameters that were estimated. -/
def proveSlow (D : ℤ) (x : Form) (T : UInt64) (l k : ℤ) : Exec ByteString := do
  let L ← mpzRoot4 (-D)
  let y ← Form.fromAbd x.a x.b D
  let k := if k ≤ 0 then 1 else k.toNat
  let l := if l ≤ 0 then 1 else l.toNat
  if k * l ≥ 2 ^ 31 then .fault .overflow
  else do
    let sizeVec := (T.toNat + k * l - 1) % 2 ^ 64 / (k * l)
    let (y, intermediates) ← Exec.forLoop T.toNat (squareStep env.arith D L (k * l) sizeVec) (y, [])
    let proof ← env.generateWesolowski D y x intermediates T.toNat k l
    let result ← serializeForm y (numBits D)
    let proofBytes ← serializeForm proof (numBits D)
    return result ++ proofBytes

end VerifierEnv

section Related

variable {R : ∀ γ : Type, (ℕ → Exec γ) → Exec γ → Prop} {arith : ℕ → FormArith} {limit : FormArith} {D : ℤ}

theorem FormArith.Related.collect (related : Related R arith limit) (L : ℤ) (ys : List Form) (one : Form)
    (index : ℕ → ℕ) (n : ℕ) : R Form (fun turns => ProverSlow.collect (arith turns) D L ys one index n)
      (ProverSlow.collect limit D L ys one index n) := by
  apply related.forLoop
  intro b z
  apply related.rest
  intro y
  exact related.nucomp z y D L

theorem FormArith.Related.gather (related : Related R arith limit) (L : ℤ) (ys : List Form) (one x : Form)
    (index : ℕ → ℕ → ℕ) (e : ℕ → ℤ) (m n : ℕ) : R Form
      (fun turns => Exec.forLoop m (fun b x => do
        let z ← ProverSlow.collect (arith turns) D L ys one (index b) n
        let z ← (arith turns).fastPowFormNucomp z D (e b) L
        (arith turns).nucomp x z D L) x)
      (Exec.forLoop m (fun b x => do
        let z ← ProverSlow.collect limit D L ys one (index b) n
        let z ← limit.fastPowFormNucomp z D (e b) L
        limit.nucomp x z D L) x) := by
  apply related.forLoop
  intro b x
  apply related.bind (related.collect L ys one _ n)
  intro z
  apply related.bind (related.fastPow z D _ L)
  intro z
  exact related.nucomp x z D L

end Related

section Below

open VerifierEnv

variable {arith arith' : FormArith} {env env' : VerifierEnv} {D : ℤ}

namespace ProverSlow

theorem bucketStep_below (below : arith.Below arith') (L B : ℤ) (intermediates : List Form) (T k l j i : ℕ)
    (ys : List Form) : Exec.Below (bucketStep arith D L B intermediates T k l j i ys)
      (bucketStep arith' D L B intermediates T k l j i ys) := by
  unfold bucketStep
  split_ifs
  · apply Exec.Below.rest
    intro b
    apply Exec.Below.rest
    intro y
    apply Exec.Below.rest
    intro f
    exact (below.nucomp y f D L).first
  · rfl

theorem gather_below (below : arith.Below arith') (L : ℤ) (ys : List Form) (one x : Form) (index : ℕ → ℕ → ℕ)
    (e : ℕ → ℤ) (m n : ℕ) : Exec.Below
      (Exec.forLoop m (fun b x => do
        let z ← collect arith D L ys one (index b) n
        let z ← arith.fastPowFormNucomp z D (e b) L
        arith.nucomp x z D L) x)
      (Exec.forLoop m (fun b x => do
        let z ← collect arith' D L ys one (index b) n
        let z ← arith'.fastPowFormNucomp z D (e b) L
        arith'.nucomp x z D L) x) :=
  below.related.gather L ys one x index e m n 0

theorem digitRound_below (below : arith.Below arith') (L B : ℤ) (one : Form) (intermediates : List Form)
    (T k l j : ℕ) (x : Form) : Exec.Below (digitRound arith D L B one intermediates T k l j x)
      (digitRound arith' D L B one intermediates T k l j x) := by
  apply (below.fastPow x D _ L).bind
  intro x
  apply (Exec.Below.forLoop _ (bucketStep_below below L B intermediates T k l j)).bind
  intro ys
  apply (gather_below below L ys one x (fun b1 b0 => _) (fun b1 => _) _ _).bind
  intro x
  exact gather_below below L ys one x (fun b0 b1 => _) (fun b0 => _) _ _

theorem squareStep_below (below : arith.Below arith') (L : ℤ) (kl sizeVec i : ℕ) (s : Form × List Form) :
    Exec.Below (squareStep arith D L kl sizeVec i s) (squareStep arith' D L kl sizeVec i s) := by
  unfold squareStep
  split_ifs
  · rfl
  · apply (below.nudupl s.1 D L).bind
    intro y
    exact (below.reduce y).first
  · apply (below.nudupl s.1 D L).bind
    intro y
    exact (below.reduce y).first

end ProverSlow

theorem VerifierEnv.Below.generateWesolowski (below : env.Below env') (y xInit : Form) (intermediates : List Form)
    (T k l : ℕ) : Exec.Below (env.generateWesolowski D y xInit intermediates T k l)
      (env'.generateWesolowski D y xInit intermediates T k l) := by
  simp only [VerifierEnv.generateWesolowski, below.getB]
  apply Exec.Below.rest
  intro B
  apply Exec.Below.rest
  intro L
  split_ifs
  · rfl
  · apply Exec.Below.rest
    intro one
    apply (Exec.Below.forLoop one fun r x => digitRound_below below.arith L B one intermediates T k l _ x).bind
    exact below.arith.reduce

theorem VerifierEnv.Below.proveSlow (below : env.Below env') (x : Form) (T : UInt64) (l k : ℤ) :
    Exec.Below (env.proveSlow D x T l k) (env'.proveSlow D x T l k) := by
  apply Exec.Below.rest
  intro L
  apply Exec.Below.rest
  intro y
  dsimp only
  generalize (if k ≤ 0 then 1 else k.toNat) = k
  generalize (if l ≤ 0 then 1 else l.toNat) = l
  split_ifs
  · rfl
  · apply (Exec.Below.forLoop _ fun i s => squareStep_below below.arith L _ _ i s).bind
    intro s
    exact (below.generateWesolowski s.1 x s.2 _ _ _).first

end Below

section Digits

/-- The digit that `GetBlock` finds. -/
def block (T k B i : ℕ) : ℕ := 2 ^ k * (2 ^ (T - k * (i + 1)) % B) / B

theorem two_pow_add_div (e k B : ℕ) : 2 ^ (e + k) / B = 2 ^ k * (2 ^ e / B) + 2 ^ k * (2 ^ e % B) / B := by
  rcases Nat.eq_zero_or_pos B with rfl | pos
  · simp
  · have split : 2 ^ (e + k) = 2 ^ k * (2 ^ e % B) + B * (2 ^ k * (2 ^ e / B)) := by
      calc 2 ^ (e + k) = 2 ^ k * (B * (2 ^ e / B) + 2 ^ e % B) := by rw [Nat.div_add_mod]; ring
        _ = _ := by ring
    rw [split, Nat.add_mul_div_left _ _ pos, add_comm]

theorem sum_block (T k B m : ℕ) (le : k * m ≤ T) :
    ∑ i ∈ range m, block T k B i * 2 ^ (k * i) + 2 ^ (k * m) * (2 ^ (T - k * m) / B) = 2 ^ T / B := by
  induction m with
  | zero => simp
  | succ m ih =>
    have le' : k * m ≤ T := (Nat.mul_le_mul_left k (Nat.le_succ m)).trans le
    have step : T - k * m = T - k * (m + 1) + k := by
      rw [Nat.mul_succ] at le ⊢
      omega
    rw [← ih le', sum_range_succ, step, two_pow_add_div, block]
    ring

/-- All digits make up the quotient when `B` exceeds `2^k`. -/
theorem sum_digits {T k B M : ℕ} (kpos : 0 < k) (large : 2 ^ k ≤ B) (enough : T / k ≤ M) :
    ∑ i ∈ range M, (if k * (i + 1) ≤ T then block T k B i * 2 ^ (k * i) else 0) = 2 ^ T / B := by
  have upTo : ∀ i, k * (i + 1) ≤ T ↔ i < T / k := fun i => by
    rw [mul_comm, ← Nat.le_div_iff_mul_le kpos, Nat.succ_le_iff]
  have rest : 2 ^ (T - k * (T / k)) / B = 0 := by
    apply Nat.div_eq_of_lt
    have : T - k * (T / k) < k := by
      have := Nat.mod_lt T kpos
      have := Nat.div_add_mod T k
      omega
    exact (Nat.pow_lt_pow_right (by norm_num) this).trans_le large
  have whole := sum_block T k B (T / k) (Nat.mul_div_le T k)
  rw [rest, mul_zero, add_zero] at whole
  rw [← whole, ← sum_filter]
  congr 1
  ext i
  simp only [mem_filter, mem_range, upTo]
  omega

end Digits

section Powers

variable {d : Discriminant} {arith : FormArith} {x : ReducedForm d}

/-- A list of members of the classes of `x ^ E 0`, `x ^ E 1` and so on. -/
def Holds (x : ReducedForm d) (forms : List Form) (E : ℕ → ℕ) : Prop :=
  ∀ i f, forms[i]? = some f → Represents f (x ^ E i)

theorem Holds.entry {forms : List Form} {E : ℕ → ℕ} (holds : Holds x forms E) {i : ℕ}
    (inside : i < forms.length) : ∃ f, entry forms i = .done f ∧ Represents f (x ^ E i) := by
  have some := List.getElem?_eq_getElem inside
  exact ⟨forms[i], by rw [ProverSlow.entry, some], holds i _ some⟩

theorem Holds.set {forms : List Form} {E : ℕ → ℕ} (holds : Holds x forms E) {b e : ℕ} {f : Form}
    (rep : Represents f (x ^ e)) : Holds x (forms.set b f) (Function.update E b e) := by
  intro i g at_i
  rw [List.getElem?_set] at at_i
  by_cases same : b = i
  · subst same
    rw [if_pos rfl] at at_i
    split_ifs at at_i
    rw [Function.update_self]
    exact Option.some.inj at_i ▸ rep
  · rw [if_neg same] at at_i
    rw [Function.update_of_ne (Ne.symm same)]
    exact holds i g at_i

theorem getBlock_spec {i k T B : ℕ} (pos : 0 < B) (ks : k < 31) (le : k * (i + 1) ≤ T) (Ts : T < 2 ^ 64) :
    getBlock i k T B = .done (block T k B i) ∧ block T k B i < 2 ^ k := by
  have small : block T k B i < 2 ^ k := by
    apply Nat.div_lt_of_lt_mul
    rw [mul_comm B]
    exact Nat.mul_lt_mul_of_pos_left (Nat.mod_lt _ pos) (by positivity)
  refine ⟨?_, small⟩
  have exponent : (UInt64.ofNat (Bqfc.sizeSub T (k * (i + 1) % 2 ^ 64))).toNat = T - k * (i + 1) := by
    rw [Nat.mod_eq_of_lt (by omega), Bqfc.sizeSub_of_le le Ts, UInt64.toNat_ofNat']
    exact Nat.mod_eq_of_lt (by omega)
  have word : block T k B i < 2 ^ 64 := small.trans (Nat.pow_lt_pow_right (by norm_num) (by omega))
  have quotient : ((2 ^ (T - k * (i + 1)) % B : ℕ) : ℤ) * 2 ^ k / B = (block T k B i : ℕ) := by
    rw [block, mul_comm (2 ^ k)]
    push_cast
    rfl
  rw [getBlock, fastPow_done pos, exponent, Exec.done_bind, mpzFdivQ_pos (by exact_mod_cast pos), quotient,
    Exec.done_bind, Int.natAbs_natCast, Nat.mod_eq_of_lt word]
  rfl

theorem collect_spec (lawful : arith.Lawful d) {ys : List Form} {one : Form} {E index : ℕ → ℕ} {n : ℕ}
    (identity : Represents one (1 : ReducedForm d)) (holds : Holds x ys E)
    (inside : ∀ b < n, index b < ys.length) :
    ∃ z, collect arith d.D d.L ys one index n = .done z ∧
      Represents z (x ^ ∑ b ∈ range n, E (index b)) := by
  refine Exec.forLoop_done (fun i z => Represents z (x ^ ∑ b ∈ range i, E (index b))) ?_ ?_
  · simpa using identity
  · intro b lt z rep
    obtain ⟨y, read, repy⟩ := holds.entry (inside b lt)
    obtain ⟨w, mul⟩ := lawful.nucomp_done rep repy
    refine ⟨w, by rw [read, Exec.done_bind, mul], ?_⟩
    rw [sum_range_succ, pow_add]
    exact lawful.nucomp rep repy mul

/-- The exponent that the buckets stand for grows by digit times power. -/
theorem sum_update {n b : ℕ} (E : ℕ → ℕ) (e : ℕ) (inside : b < n) :
    ∑ i ∈ range n, i * Function.update E b (E b + e) i = ∑ i ∈ range n, i * E i + b * e := by
  rw [← sum_erase_add _ _ (mem_range.mpr inside), ← sum_erase_add _ _ (mem_range.mpr inside),
    Function.update_self, mul_add, add_assoc]
  congr 1
  apply sum_congr rfl
  intro i hi
  rw [Function.update_of_ne (ne_of_mem_erase hi)]

/-- The digits of one residue of the index, weighted with the powers they stand at. -/
def digitSum (T k l B j n : ℕ) : ℕ :=
  ∑ i ∈ range n, if k * (i * l + j + 1) ≤ T then block T k B (i * l + j) * 2 ^ (i * (k * l)) else 0

theorem index_le {T k l i j : ℕ} (klpos : 0 < k * l) (jl : j < l)
    (below : i < (T + k * l - 1) / (k * l)) : k * (i * l + j + 1) ≤ T + k * l - 1 :=
  calc k * (i * l + j + 1) ≤ k * (i * l + l) := Nat.mul_le_mul_left k (by omega)
    _ = (i + 1) * (k * l) := by ring
    _ ≤ T + k * l - 1 := (Nat.le_div_iff_mul_le klpos).mp below

/-- One turn of the bucket loop, for an intermediate with a digit and for one behind the end. -/
theorem bucketStep_spec (lawful : arith.Lawful d) {inter : List Form} {T k l B i j : ℕ} (pos : 0 < B)
    (ks : k < 31) (jl : j < l) (klpos : 0 < k * l) (Ts : T + k * l ≤ 2 ^ 64)
    (below : i < (T + k * l - 1) / (k * l)) (holds : Holds x inter fun i => 2 ^ (i * (k * l)))
    (inside : i < inter.length) {ys : List Form} {E : ℕ → ℕ} (length : ys.length = 2 ^ k)
    (buckets : Holds x ys E) (sum : ∑ b ∈ range (2 ^ k), b * E b = digitSum T k l B j i) :
    ∃ ys', bucketStep arith d.D d.L B inter T k l j i ys = .done ys' ∧ ys'.length = 2 ^ k ∧
      ∃ E', Holds x ys' E' ∧ ∑ b ∈ range (2 ^ k), b * E' b = digitSum T k l B j (i + 1) := by
  have word := index_le klpos jl below
  rw [bucketStep, Nat.mod_eq_of_lt (by omega)]
  rw [digitSum, sum_range_succ, ← digitSum]
  split
  · next le =>
    obtain ⟨get, small⟩ := getBlock_spec (i := i * l + j) pos ks le (by omega)
    obtain ⟨y, read, repy⟩ := buckets.entry (length ▸ small)
    obtain ⟨f, read', repf⟩ := holds.entry inside
    obtain ⟨w, mul⟩ := lawful.nucomp_done repy repf
    have repw := lawful.nucomp repy repf mul
    rw [← pow_add] at repw
    refine ⟨ys.set (block T k B (i * l + j)) w, ?_, by simpa using length, _, buckets.set repw, ?_⟩
    · simp only [get, read, read', mul, Exec.done_bind, Exec.pure_eq]
    · rw [sum_update E _ small, sum]
  · next gt =>
    rw [add_zero]
    exact ⟨ys, rfl, length, E, buckets, sum⟩

theorem bucketLoop_spec (lawful : arith.Lawful d) {one : Form} {inter : List Form} {T k l B j : ℕ}
    (identity : Represents one (1 : ReducedForm d)) (pos : 0 < B) (kpos : 0 < k) (ks : k < 31) (jl : j < l)
    (Ts : T + k * l ≤ 2 ^ 64) (holds : Holds x inter fun i => 2 ^ (i * (k * l)))
    (length : inter.length = (T + k * l - 1) / (k * l)) :
    ∃ ys, Exec.forLoop ((T + k * l - 1) / (k * l)) (bucketStep arith d.D d.L B inter T k l j)
        (List.replicate (2 ^ k) one) = .done ys ∧
      ys.length = 2 ^ k ∧ ∃ E, Holds x ys E ∧
      ∑ b ∈ range (2 ^ k), b * E b = digitSum T k l B j ((T + k * l - 1) / (k * l)) := by
  refine Exec.forLoop_done (fun i ys => ys.length = 2 ^ k ∧ ∃ E, Holds x ys E ∧
    ∑ b ∈ range (2 ^ k), b * E b = digitSum T k l B j i) ?_ ?_
  · refine ⟨List.length_replicate, fun _ => 0, fun i f at_i => ?_, by simp [digitSum]⟩
    rw [List.getElem?_replicate] at at_i
    split_ifs at at_i
    obtain rfl := Option.some.inj at_i
    simpa using identity
  · rintro i below ys ⟨length', E, buckets, sum⟩
    exact bucketStep_spec lawful pos ks jl (Nat.mul_pos kpos (by omega)) Ts below holds
      (length ▸ below) length' buckets sum

theorem gather_spec (lawful : arith.Lawful d) {ys : List Form} {one f : Form} {E : ℕ → ℕ}
    (weight : ℕ → ℕ) (index : ℕ → ℕ → ℕ) {n m e : ℕ} (identity : Represents one (1 : ReducedForm d))
    (holds : Holds x ys E)
    (inside : ∀ a < n, ∀ b < m, index a b < ys.length) (rep : Represents f (x ^ e)) :
    ∃ g, Exec.forLoop n (fun a f => do
        let z ← collect arith d.D d.L ys one (index a) m
        let z ← arith.fastPowFormNucomp z d.D (weight a : ℕ) d.L
        arith.nucomp f z d.D d.L) f = .done g ∧
      Represents g (x ^ (e + ∑ a ∈ range n, weight a * ∑ b ∈ range m, E (index a b))) := by
  refine Exec.forLoop_done
    (fun i g => Represents g (x ^ (e + ∑ a ∈ range i, weight a * ∑ b ∈ range m, E (index a b)))) ?_ ?_
  · simpa using rep
  · intro a lt g repg
    obtain ⟨z, product, repz⟩ := collect_spec lawful identity holds (inside a lt)
    obtain ⟨w, power, repw⟩ := lawful.fastPow_nat repz (weight a)
    obtain ⟨h, mul⟩ := lawful.nucomp_done repg repw
    have reph := lawful.nucomp repg repw mul
    rw [← pow_mul, ← pow_add, add_assoc, mul_comm _ (weight a)] at reph
    refine ⟨h, by simp only [product, power, mul, Exec.done_bind], ?_⟩
    rwa [sum_range_succ]

theorem sum_range_mul_eq (n m : ℕ) (g : ℕ → ℕ) :
    ∑ b ∈ range (n * m), g b = ∑ a ∈ range n, ∑ b ∈ range m, g (a * m + b) := by
  induction n with
  | zero => simp
  | succ n ih => rw [Nat.succ_mul, sum_range_add, ih, sum_range_succ]

/-- High and low halves of the digit are gathered apart. -/
theorem sum_halves (n m : ℕ) (E : ℕ → ℕ) :
    ∑ a ∈ range n, a * m * ∑ b ∈ range m, E (a * m + b) +
      ∑ b ∈ range m, b * ∑ a ∈ range n, E (a * m + b) = ∑ b ∈ range (n * m), b * E b := by
  have swap : ∑ b ∈ range m, b * ∑ a ∈ range n, E (a * m + b) =
      ∑ a ∈ range n, ∑ b ∈ range m, b * E (a * m + b) := by
    simp only [mul_sum]
    exact sum_comm
  rw [sum_range_mul_eq, swap, ← sum_add_distrib]
  apply sum_congr rfl
  intro a _
  rw [mul_sum, ← sum_add_distrib]
  apply sum_congr rfl
  intro b _
  ring

theorem pow_halves (k : ℕ) : 2 ^ (k / 2) * 2 ^ (k - k / 2) = 2 ^ k := by
  rw [← pow_add, Nat.add_sub_cancel' (Nat.div_le_self k 2)]

theorem halves_lt {k a b : ℕ} (ha : a < 2 ^ (k / 2)) (hb : b < 2 ^ (k - k / 2)) :
    a * 2 ^ (k - k / 2) + b < 2 ^ k :=
  calc a * 2 ^ (k - k / 2) + b < (a + 1) * 2 ^ (k - k / 2) := by rw [Nat.succ_mul]; omega
    _ ≤ 2 ^ (k / 2) * 2 ^ (k - k / 2) := Nat.mul_le_mul_right _ ha
    _ = 2 ^ k := pow_halves k

theorem shifted_eq {k : ℕ} (ks : k < 31) : Int.bmod (2 ^ k) (2 ^ 32) = ((2 ^ k : ℕ) : ℤ) := by
  have small : 2 ^ k < 2 ^ 31 := Nat.pow_lt_pow_right (by norm_num) ks
  push_cast
  rw [← Nat.cast_ofNat, ← Nat.cast_pow]
  generalize 2 ^ k = n at *
  rw [Int.bmod_def]
  omega

/-- A turn of the loop over `j` shifts the exponent by a digit and adds the digits of `j`. -/
theorem digitRound_spec (lawful : arith.Lawful d) {one f : Form} {inter : List Form} {T k l B j e : ℕ}
    (identity : Represents one (1 : ReducedForm d)) (pos : 0 < B) (kpos : 0 < k) (ks : k < 31) (jl : j < l)
    (Ts : T + k * l ≤ 2 ^ 64) (holds : Holds x inter fun i => 2 ^ (i * (k * l)))
    (length : inter.length = (T + k * l - 1) / (k * l)) (rep : Represents f (x ^ e)) :
    ∃ g, digitRound arith d.D d.L B one inter T k l j f = .done g ∧
      Represents g (x ^ (2 ^ k * e + digitSum T k l B j ((T + k * l - 1) / (k * l)))) := by
  have klpos : 0 < k * l := Nat.mul_pos kpos (by omega)
  obtain ⟨f', power, rep'⟩ := lawful.fastPow_nat rep (2 ^ k)
  obtain ⟨ys, buckets, lengthYs, E, holdsYs, sum⟩ :=
    bucketLoop_spec lawful identity pos kpos ks jl Ts holds length
  have inside (a b : ℕ) (ha : a < 2 ^ (k / 2)) (hb : b < 2 ^ (k - k / 2)) :
      a * 2 ^ (k - k / 2) + b < ys.length := lengthYs ▸ halves_lt ha hb
  rw [← pow_mul] at rep'
  obtain ⟨g, high, repg⟩ := gather_spec lawful (fun a => a * 2 ^ (k - k / 2))
    (fun a b => a * 2 ^ (k - k / 2) + b) identity holdsYs (fun a ha b hb => inside a b ha hb) rep'
  obtain ⟨h, low, reph⟩ := gather_spec lawful (fun b => b)
    (fun b a => a * 2 ^ (k - k / 2) + b) identity holdsYs (fun b hb a ha => inside a b ha hb) repg
  refine ⟨h, ?_, ?_⟩
  · have wrap : (T + k * l - 1) % 2 ^ 64 = T + k * l - 1 := Nat.mod_eq_of_lt (by omega)
    simp only [digitRound, shifted_eq ks, wrap, power, buckets, Exec.done_bind]
    rw [high]
    exact low
  · rw [add_assoc, sum_halves, pow_halves, sum, mul_comm e] at reph
    exact reph

theorem le_count_mul {T m : ℕ} (pos : 0 < m) : T ≤ (T + m - 1) / m * m := by
  have := Nat.div_add_mod (T + m - 1) m
  have := Nat.mod_lt (T + m - 1) pos
  rw [mul_comm]
  omega

/-- The digits of all residues together make up the quotient. -/
theorem sum_digitSum {T k l B : ℕ} (kpos : 0 < k) (lpos : 0 < l) (large : 2 ^ k ≤ B) :
    ∑ j ∈ range l, 2 ^ (k * j) * digitSum T k l B j ((T + k * l - 1) / (k * l)) = 2 ^ T / B := by
  have enough : T / k ≤ (T + k * l - 1) / (k * l) * l := by
    apply Nat.div_le_of_le_mul
    have := le_count_mul (T := T) (Nat.mul_pos kpos lpos)
    calc T ≤ (T + k * l - 1) / (k * l) * (k * l) := this
      _ = k * ((T + k * l - 1) / (k * l) * l) := by ring
  rw [← sum_digits kpos large enough, sum_range_mul_eq, sum_comm]
  simp only [digitSum, mul_sum]
  apply sum_congr rfl
  intro j _
  apply sum_congr rfl
  intro i _
  split
  · rw [show k * (i * l + j) = k * j + i * (k * l) by ring, pow_add]
    ring
  · rw [mul_zero]

/-- The exponent after `r` turns of the loop over `j`, which counts down from `l - 1`. -/
theorem exponent_succ (S : ℕ → ℕ) {k l r : ℕ} (below : r < l) :
    2 ^ k * (∑ j ∈ range r, 2 ^ (k * j) * S (l - r + j)) + S (l - 1 - r) =
      ∑ j ∈ range (r + 1), 2 ^ (k * j) * S (l - (r + 1) + j) := by
  rw [sum_range_succ', mul_zero, pow_zero, one_mul, add_zero, mul_sum, Nat.sub_sub, add_comm 1 r]
  congr 1
  apply sum_congr rfl
  intro j _
  rw [show l - (r + 1) + (j + 1) = l - r + j by omega, Nat.mul_succ, pow_add]
  ring

/-- A loop over `j` that counts down: where each turn shifts the exponent by a digit and adds the digits
of its `j`, the result has the digits of all of them. -/
theorem countdown_spec {α G : Type} [Monoid G] {Rep : α → G → Prop} {y : G} {one : α}
    (round : ℕ → α → Exec α) (S : ℕ → ℕ) {k start len : ℕ} (identity : Rep one 1) (le : len ≤ start)
    (step : ∀ j < start, ∀ e f, Rep f (y ^ e) → ∃ g, round j f = .done g ∧ Rep g (y ^ (2 ^ k * e + S j))) :
    ∃ f, Exec.forLoop len (fun r => round (start - 1 - r)) one = .done f ∧
      Rep f (y ^ ∑ j ∈ range len, 2 ^ (k * j) * S (start - len + j)) := by
  refine Exec.forLoop_done (fun r f => Rep f (y ^ ∑ j ∈ range r, 2 ^ (k * j) * S (start - r + j)))
    (by simpa using identity) ?_
  intro r below f rep
  obtain ⟨g, turn, repg⟩ := step (start - 1 - r) (by omega) _ f rep
  rw [exponent_succ S (show r < start by omega)] at repg
  exact ⟨g, turn, repg⟩

variable {env : VerifierEnv}

/-- `GenerateWesolowski` finds the power with exponent `2^T / B`. -/
theorem generateWesolowski_spec (lawful : env.arith.Lawful d) {y xInit : Form} {inter : List Form}
    {T k l B : ℕ} (hash : env.getB d.D xInit y = .done B) (large : 2 ^ k ≤ B) (kpos : 0 < k)
    (ks : k < 31) (lpos : 0 < l) (Ts : T + k * l ≤ 2 ^ 64)
    (holds : Holds x inter fun i => 2 ^ (i * (k * l)))
    (length : inter.length = (T + k * l - 1) / (k * l)) :
    ∃ proof, env.generateWesolowski d.D y xInit inter T k l = .done proof ∧
      Represents proof (x ^ (2 ^ T / B)) := by
  have identity : Represents (1 : ReducedForm d).form (1 : ReducedForm d) := ReducedForm.represents 1
  have pos : 0 < B := lt_of_lt_of_le (by positivity) large
  obtain ⟨f, run, rep⟩ : ∃ f, Exec.forLoop l (fun r => digitRound env.arith d.D d.L B
        (1 : ReducedForm d).form inter T k l (l - 1 - r)) (1 : ReducedForm d).form = .done f ∧
      Represents f (x ^ ∑ j ∈ range l, 2 ^ (k * j) *
        digitSum T k l B (l - l + j) ((T + k * l - 1) / (k * l))) :=
    countdown_spec _ (fun j => digitSum T k l B j _) identity le_rfl fun _ jl _ _ rep =>
      digitRound_spec lawful identity pos kpos ks jl Ts holds length rep
  simp only [Nat.sub_self, zero_add, sum_digitSum kpos lpos large] at rep
  obtain ⟨g, last⟩ := lawful.reduce_done rep
  refine ⟨g, ?_, lawful.reduce rep last⟩
  have given : ¬(k = 0 ∨ l = 0) := by omega
  simp only [VerifierEnv.generateWesolowski, hash, mpzRoot4_neg_D, Exec.done_bind, if_neg given,
    identity_run, run, last]

theorem count_eq {m : ℕ} (pos : 0 < m) (i : ℕ) :
    (i + m - 1) / m = if i % m = 0 then i / m else i / m + 1 := by
  have split := Nat.div_add_mod i m
  have small := Nat.mod_lt i pos
  generalize i / m = q at *
  generalize i % m = r at *
  split_ifs with zero
  · rw [show i + m - 1 = m - 1 + m * q by omega, Nat.add_mul_div_left _ _ pos,
      Nat.div_eq_of_lt (by omega), zero_add]
  · rw [show i + m - 1 = r - 1 + m * (q + 1) by rw [Nat.mul_succ]; omega, Nat.add_mul_div_left _ _ pos,
      Nat.div_eq_of_lt (by omega), zero_add]

theorem count_succ {m : ℕ} (pos : 0 < m) (i : ℕ) : (i + 1 + m - 1) / m = i / m + 1 := by
  rw [show i + 1 + m - 1 = i + m by omega, Nat.add_div_right i pos]

theorem Holds.append {forms : List Form} {E : ℕ → ℕ} {f : Form} (holds : Holds x forms E)
    (rep : Represents f (x ^ E forms.length)) : Holds x (forms ++ [f]) E := by
  intro i g at_i
  by_cases inside : i < forms.length
  · rw [List.getElem?_append_left inside] at at_i
    exact holds i g at_i
  · rw [List.getElem?_append_right (by omega), List.getElem?_singleton] at at_i
    split_ifs at at_i with last
    obtain rfl : i = forms.length := by omega
    exact Option.some.inj at_i ▸ rep

theorem squareLoop_spec (lawful : arith.Lawful d) {f : Form} {T kl : ℕ} (klpos : 0 < kl)
    (rep : Represents f x) :
    ∃ s : Form × List Form,
      Exec.forLoop T (squareStep arith d.D d.L kl ((T + kl - 1) / kl)) (f, []) = .done s ∧
      Represents s.1 (x ^ 2 ^ T) ∧ s.2.length = (T + kl - 1) / kl ∧
      Holds x s.2 fun i => 2 ^ (i * kl) := by
  refine Exec.forLoop_done (fun i (s : Form × List Form) => Represents s.1 (x ^ 2 ^ i) ∧
    s.2.length = (i + kl - 1) / kl ∧ Holds x s.2 fun i => 2 ^ (i * kl)) ?_ ?_
  · refine ⟨by simpa using rep, ?_, fun i f at_i => by simp at at_i⟩
    rw [zero_add, Nat.div_eq_of_lt (by omega), List.length_nil]
  · rintro i below ⟨y, inter⟩ ⟨repy, length, holds⟩
    obtain ⟨g, double⟩ := lawful.nudupl_done repy
    obtain ⟨h, small⟩ := lawful.reduce_done (lawful.nudupl repy double)
    have reph := lawful.reduce (lawful.nudupl repy double) small
    rw [← pow_add, ← mul_two, ← pow_succ] at reph
    rw [count_eq klpos] at length
    simp only [squareStep, double, small, Exec.done_bind, Exec.pure_eq]
    by_cases multiple : i % kl = 0
    · have room : ¬(T + kl - 1) / kl ≤ inter.length := by
        rw [length, if_pos multiple, not_le, Nat.lt_iff_add_one_le, ← count_succ klpos]
        exact Nat.div_le_div_right (by omega)
      have stored : inter.length * kl = i := by
        rw [length, if_pos multiple]
        exact Nat.div_mul_cancel (Nat.dvd_of_mod_eq_zero multiple)
      rw [if_neg (by tauto)]
      refine ⟨_, rfl, reph, ?_, ?_⟩
      · rw [if_pos multiple, List.length_append, length, if_pos multiple, count_succ klpos,
          List.length_singleton]
      · rw [if_pos multiple]
        exact holds.append (by rwa [stored])
    · rw [if_neg (by tauto)]
      refine ⟨_, rfl, reph, ?_, ?_⟩
      · rw [if_neg multiple, length, if_neg multiple, count_succ klpos]
      · rwa [if_neg multiple]

end Powers

section Parameters

theorem two_rpow_le : (2 : ℝ) ^ (23.25349666 - 20 : ℝ) ≤ 10 := by
  rw [← Real.log_le_log_iff (by positivity) (by norm_num), Real.log_rpow (by norm_num)]
  have quarter := Real.one_sub_inv_le_log_of_pos (show (0 : ℝ) < 5 / 4 by norm_num)
  have ten : Real.log 10 = 3 * Real.log 2 + Real.log (5 / 4) := by
    rw [show (10 : ℝ) = 2 ^ 3 * (5 / 4) by norm_num, Real.log_mul (by norm_num) (by norm_num), Real.log_pow]
    norm_num
  have := Real.log_two_lt_d9
  rw [ten]
  norm_num at *
  linarith

theorem ApproximateParameters.l_le {T : ℕ} {l k : ℤ} (approx : ApproximateParameters T l k) :
    0 < l ∧ l ≤ 10 := by
  rw [approx.1]
  split
  · exact ⟨Int.ceil_pos.mpr (by positivity), Int.ceil_le.mpr (by exact_mod_cast two_rpow_le)⟩
  · norm_num

theorem ApproximateParameters.lt {T : ℕ} {l k : ℤ} (approx : ApproximateParameters T l k) (ks : k < 31) :
    T < 2 ^ 62 := by
  by_contra large
  rw [not_lt] at large
  have lpos : (0 : ℝ) < l ∧ (l : ℝ) ≤ 10 := by exact_mod_cast approx.l_le
  obtain ⟨-, -, estimate⟩ := approx
  have big : (2 : ℝ) ^ 56 ≤ T * 0.6931471 / (2 * l) := by
    have cast : (2 : ℝ) ^ 62 ≤ T := by exact_mod_cast large
    rw [le_div_iff₀ (by linarith)]
    nlinarith
  generalize (T : ℝ) * 0.6931471 / (2 * l) = I at *
  have one : 1 < I := lt_of_lt_of_le (by norm_num) big
  have log_big : 38 ≤ Real.log I := by
    have := Real.log_le_log (by positivity) big
    rw [Real.log_pow] at this
    have := Real.log_two_gt_d9
    push_cast at *
    linarith
  have log_log : Real.log (Real.log I) ≤ Real.log I / 8 + 2 := by
    have tangent := Real.log_le_sub_one_of_pos (show 0 < Real.log I / 8 by linarith)
    rw [Real.log_div (by linarith) (by norm_num)] at tangent
    have eight : Real.log 8 ≤ 3 := by
      rw [show (8 : ℝ) = 2 ^ 3 by norm_num, Real.log_pow]
      have := Real.log_two_lt_d9
      push_cast
      linarith
    linarith
  have close := (abs_le.mp (estimate one)).1
  have := le_max_left (Real.log I - Real.log (Real.log I) + 0.25) 1
  have : (k : ℝ) ≤ 30 := by exact_mod_cast Int.le_of_lt_add_one ks
  linarith

theorem log_between {i : ℝ} {a b : ℕ} (low : 2 ^ a ≤ i) (high : i ≤ 2 ^ b) :
    a * (0.693147 : ℝ) ≤ Real.log i ∧ Real.log i ≤ b * (0.693148 : ℝ) := by
  have positive : (0 : ℝ) < 2 ^ a := by positivity
  have lowLog := Real.log_le_log positive low
  have highLog := Real.log_le_log (positive.trans_le low) high
  rw [Real.log_pow] at lowLog highLog
  have under := mul_le_mul_of_nonneg_left
    (show (0.693147 : ℝ) ≤ Real.log 2 by linarith [Real.log_two_gt_d9]) a.cast_nonneg
  have above := mul_le_mul_of_nonneg_left
    (show Real.log 2 ≤ (0.693148 : ℝ) by linarith [Real.log_two_lt_d9]) b.cast_nonneg
  exact ⟨under.trans lowLog, highLog.trans above⟩

theorem k_between {i : ℝ} {k : ℤ} (a b a' b' : ℕ) (low : 2 ^ a ≤ i) (high : i ≤ 2 ^ b)
    (low' : 2 ^ a' ≤ a * (0.693147 : ℝ)) (high' : b * (0.693148 : ℝ) ≤ 2 ^ b')
    (under : (k : ℝ) - 1 ≤ max (a * (0.693147 : ℝ) - b' * 0.693148 + 0.25) 1)
    (above : b * 0.693148 - a' * 0.693147 + 0.25 ≤ (k : ℝ) + 1) (positive : 0 ≤ k) :
    |(k : ℝ) - max (Real.log i - Real.log (Real.log i) + 0.25) 1| ≤ 1 := by
  obtain ⟨lowLog, highLog⟩ := log_between low high
  obtain ⟨lowLog', highLog'⟩ := log_between (low'.trans lowLog) (highLog.trans high')
  have one : (0 : ℝ) ≤ k := by exact_mod_cast positive
  rw [abs_le]
  constructor
  · have upper : max (Real.log i - Real.log (Real.log i) + 0.25) 1 ≤ (k : ℝ) + 1 := max_le (by linarith) (by linarith)
    linarith
  · have less : a * (0.693147 : ℝ) - b' * 0.693148 + 0.25 ≤ Real.log i - Real.log (Real.log i) + 0.25 := by linarith
    have lower := under.trans (max_le_max_right 1 less)
    linarith

theorem approximateParameters_one {T : ℕ} {k : ℤ} (few : T < 2 ^ 23) (many : 2 < T)
    (near : let i : ℝ := T * 0.6931471 / 2
      |(k : ℝ) - max (Real.log i - Real.log (Real.log i) + 0.25) 1| ≤ 1) : ApproximateParameters T 1 k := by
  have positive : (0 : ℝ) < T := by exact_mod_cast (by omega : 0 < T)
  have small : Real.logb 2 T < 23 := by
    rw [Real.logb_lt_iff_lt_rpow (by norm_num) positive]
    exact_mod_cast few
  have three : (3 : ℝ) ≤ T := by exact_mod_cast many
  refine ⟨by rw [if_neg (by norm_num; linarith)], fun low => ?_, fun _ => ?_⟩
  · norm_num at low
    linarith
  · simpa using near

theorem approximateParameters_twelve {T : ℕ} (low : 12 ≤ T) (high : T ≤ 23) : ApproximateParameters T 1 2 := by
  have twelve : (12 : ℝ) ≤ T := by exact_mod_cast low
  have more : (T : ℝ) ≤ 23 := by exact_mod_cast high
  apply approximateParameters_one (by omega) (by omega)
  apply k_between 2 3 0 2 <;> norm_num
  · linarith
  · linarith

theorem approximateParameters_some : ApproximateParameters 270 1 3 := by
  apply approximateParameters_one (by norm_num) (by norm_num)
  apply k_between 6 7 2 3 <;> norm_num

/-- More iterations have ten digits in a block; here the top block is a partial one. -/
theorem approximateParameters_many : ApproximateParameters (2 ^ 25 + 3) 10 12 := by
  have large : (23.25349666 : ℝ) + 0.000001 < Real.logb 2 (2 ^ 25 + 3 : ℕ) := by
    apply lt_of_lt_of_le (show (23.25349666 : ℝ) + 0.000001 < 24 by norm_num)
    rw [Real.le_logb_iff_rpow_le (by norm_num) (by norm_num)]
    norm_num
  have nine : (9 : ℝ) < 2 ^ (23.25349666 - 20 : ℝ) := by
    have fourth : (9 : ℝ) ^ 4 < (2 ^ (23.25349666 - 20 : ℝ)) ^ 4 := by
      rw [← Real.rpow_natCast (2 ^ (23.25349666 - 20 : ℝ)), ← Real.rpow_mul (by norm_num)]
      apply lt_of_lt_of_le (show (9 : ℝ) ^ 4 < 2 ^ (13 : ℝ) by norm_num)
      exact Real.rpow_le_rpow_of_exponent_le (by norm_num) (by norm_num)
    exact lt_of_pow_lt_pow_left₀ 4 (by positivity) fourth
  refine ⟨?_, fun low => ?_, fun _ => ?_⟩
  · rw [if_pos (by linarith)]
    symm
    exact Int.ceil_eq_iff.mpr ⟨by norm_num at nine ⊢; linarith, by exact_mod_cast two_rpow_le⟩
  · norm_num at low
  · apply k_between 20 21 3 4 <;> norm_num
end Parameters

section Accepted

variable {d : Discriminant} {env : VerifierEnv}

theorem HashTopBit.hashes (bits : numBits d.D ≤ BQFC_MAX_D_BITS) (top : HashTopBit env)
    (x z : ReducedForm d) : ∃ B, HashesTo env x z B ∧ 2 ^ 263 ≤ B := by
  obtain ⟨s, -, -, written, -⟩ := reduced_roundTrip bits x
  obtain ⟨s', -, -, written', -⟩ := reduced_roundTrip bits z
  obtain ⟨B, run, low, -⟩ := top (s ++ s')
  exact ⟨B, by simp only [HashesTo, VerifierEnv.getB, written, written', Exec.done_bind, run], low⟩

/-- A run of `ProveSlow`, for parameters with which no counter wraps around, up to the proof: the squarings and
the powers that they keep. -/
theorem proveSlow_squared (lawful : env.arith.Lawful d) (x : ReducedForm d) {T : UInt64} {l k : ℤ} (kpos : 1 ≤ k)
    (lpos : 1 ≤ l) (fits : k * l < 2 ^ 31) (Ts : T.toNat < 2 ^ 62) :
    ∃ y inter, Represents y (x ^ 2 ^ T.toNat) ∧ Holds x inter (fun i => 2 ^ (i * (k.toNat * l.toNat))) ∧
      inter.length = (T.toNat + k.toNat * l.toNat - 1) / (k.toNat * l.toNat) ∧
      env.proveSlow d.D x.form T l k = (do
        let proof ← env.generateWesolowski d.D y x.form inter T.toNat k.toNat l.toNat
        let result ← serializeForm y (numBits d.D)
        let proofBytes ← serializeForm proof (numBits d.D)
        return result ++ proofBytes) := by
  obtain ⟨k, rfl⟩ := Int.eq_ofNat_of_zero_le (show 0 ≤ k by omega)
  obtain ⟨l, rfl⟩ := Int.eq_ofNat_of_zero_le (show 0 ≤ l by omega)
  have fits : k * l < 2 ^ 31 := by exact_mod_cast fits
  have klpos : 0 < k * l := Nat.mul_pos (by omega) (by omega)
  obtain ⟨⟨y, inter⟩, squares, repy, length, holds⟩ := squareLoop_spec lawful klpos x.represents (T := T.toNat)
  have wrap : (T.toNat + k * l - 1) % 2 ^ 64 = T.toNat + k * l - 1 := Nat.mod_eq_of_lt (by omega)
  have hk : ¬(k : ℤ) ≤ 0 := by omega
  have hl : ¬(l : ℤ) ≤ 0 := by omega
  have small : ¬k * l ≥ 2 ^ 31 := by omega
  refine ⟨y, inter, repy, holds, length, ?_⟩
  simp only [VerifierEnv.proveSlow, mpzRoot4_neg_D, Exec.done_bind, fromAbd_reduced, if_neg hk, if_neg hl,
    Int.toNat_natCast, if_neg small, wrap, squares]

theorem proveSlow_hashed (bits : numBits d.D ≤ BQFC_MAX_D_BITS) (lawful : env.arith.Lawful d) {B : ℕ}
    (x : ReducedForm d) {T : UInt64} {l k : ℤ} (kpos : 1 ≤ k) (lpos : 1 ≤ l) (ks : k < 31) (fits : k * l < 2 ^ 31)
    (Ts : T.toNat < 2 ^ 62) (hash : HashesTo env x (x ^ 2 ^ T.toNat) B) (low : 2 ^ 263 ≤ B) :
    ∃ y proof, HonestSegment env x (x ^ 2 ^ T.toNat) ⟨0, T, x.form, y, proof, false⟩ ∧
      ∃ sy sp, serializeForm y (numBits d.D) = .done sy ∧ serializeForm proof (numBits d.D) = .done sp ∧
        sy.length = BQFC_FORM_SIZE ∧ sp.length = BQFC_FORM_SIZE ∧
        env.proveSlow d.D x.form T l k = .done (sy ++ sp) := by
  obtain ⟨y, inter, repy, holds, length, run⟩ := proveSlow_squared lawful x kpos lpos fits Ts
  obtain ⟨k, rfl⟩ := Int.eq_ofNat_of_zero_le (show 0 ≤ k by omega)
  obtain ⟨l, rfl⟩ := Int.eq_ofNat_of_zero_le (show 0 ≤ l by omega)
  have fits : k * l < 2 ^ 31 := by exact_mod_cast fits
  simp only [Int.toNat_natCast] at holds length run
  have large : 2 ^ k ≤ B := le_trans (Nat.pow_le_pow_right (by norm_num) (by omega)) low
  have hash' : env.getB d.D x.form y = .done B := (x.represents.getB repy).trans hash
  obtain ⟨proof, generated, rep⟩ := generateWesolowski_spec lawful hash' large (by omega) (by omega)
    (show 0 < l by omega) (by omega) holds length
  obtain ⟨sy, -, lengthY, writtenY, -⟩ := reduced_roundTrip bits (x ^ 2 ^ T.toNat)
  obtain ⟨sp, -, lengthP, writtenP, -⟩ := reduced_roundTrip bits (x ^ (2 ^ T.toNat / B))
  rw [← repy.serializeForm] at writtenY
  rw [← rep.serializeForm] at writtenP
  refine ⟨y, proof, ⟨x.represents, repy, rfl, B, hash, rep⟩, sy, sp, writtenY, writtenP,
    lengthY, lengthP, ?_⟩
  simp only [run, Exec.done_bind, generated, writtenY, writtenP, Exec.pure_eq]

/-- What `ProveSlow` writes, for parameters with which no counter wraps around. -/
theorem proveSlow_spec (bits : numBits d.D ≤ BQFC_MAX_D_BITS) (lawful : env.arith.Lawful d)
    (top : HashTopBit env) (x : ReducedForm d) {T : UInt64} {l k : ℤ} (kpos : 1 ≤ k) (lpos : 1 ≤ l)
    (ks : k < 31) (fits : k * l < 2 ^ 31) (Ts : T.toNat < 2 ^ 62) :
    ∃ y proof, HonestSegment env x (x ^ 2 ^ T.toNat) ⟨0, T, x.form, y, proof, false⟩ ∧
      ∃ sy sp, serializeForm y (numBits d.D) = .done sy ∧ serializeForm proof (numBits d.D) = .done sp ∧
        sy.length = BQFC_FORM_SIZE ∧ sp.length = BQFC_FORM_SIZE ∧
        env.proveSlow d.D x.form T l k = .done (sy ++ sp) := by
  obtain ⟨B, hash, low⟩ := top.hashes bits x (x ^ 2 ^ T.toNat)
  exact proveSlow_hashed bits lawful x kpos lpos ks fits Ts hash low

end Accepted

/-- The slow prover is complete: for every number of iterations its proof has two forms and the
verifier accepts it. -/
theorem proveSlow_accepted (d : Discriminant) (bits : numBits d.D ≤ BQFC_MAX_D_BITS) (arith : FormArith)
    (lawful : arith.Lawful d) (hash : ByteString → ℕ)
    (top : ∀ seed, 2 ^ 263 ≤ hash seed ∧ hash seed < 2 ^ 264) (x : ReducedForm d) (T : UInt64) (l k : ℤ)
    (approx : ApproximateParameters T.toNat l k) (kpos : 1 ≤ k) (lpos : 1 ≤ l) (ks : k < 31)
    (fits : k * l < 2 ^ 31) :
    let env : VerifierEnv := ⟨arith, fun seed => .done (hash seed)⟩
    ∃ blob xS, env.proveSlow d.D x.form T l k = .done blob ∧ blob.length = 200 ∧
      serializeForm x.form (numBits d.D) = .done xS ∧
      env.checkProofOfTimeNWesolowski d.D xS blob T (UInt64.ofNat (numBits d.D)) 0 = .done true := by
  intro env
  have top' : HashTopBit env := fun seed => ⟨hash seed, rfl, top seed⟩
  obtain ⟨y, proof, honest, sy, sp, writtenY, writtenP, lengthY, lengthP, run⟩ :=
    proveSlow_spec bits lawful top' x kpos lpos ks fits (approx.lt ks)
  obtain ⟨bytes, xS, serialized, writtenX, accepted⟩ := serializeProof_accepted bits lawful top'
    (HonestChain.nil.snoc honest) (by simp) (by simp) honest.y (show T.toNat = _ by simp)
  have written : env.serializeProof d.D y [⟨0, T, x.form, y, proof, false⟩] = .done ⟨sy, sp, 0⟩ := by
    simp [VerifierEnv.serializeProof, writtenY, writtenP, VerifierEnv.appendSegments]
  obtain rfl := Exec.done.inj (written.symm.trans serialized)
  refine ⟨sy ++ sp, xS, run, ?_, writtenX, accepted⟩
  rw [List.length_append, lengthY, lengthP]
  rfl

/-- From the generator, with the parameters for many iterations. -/
theorem proveSlow_accepted_many : ∃ blob xS,
    (⟨.plain, fun _ => .done (2 ^ 263 : ℕ)⟩ : VerifierEnv).proveSlow (-23) ⟨2, 1, 3⟩ 33554435 10 12 = .done blob ∧
      blob.length = 200 ∧ serializeForm ⟨2, 1, 3⟩ 5 = .done xS ∧
      (⟨.plain, fun _ => .done (2 ^ 263 : ℕ)⟩ : VerifierEnv).checkProofOfTimeNWesolowski (-23) xS blob 33554435 5 0 =
        .done true := by
  let d : Discriminant := ⟨23, by norm_num, rfl⟩
  have many : ApproximateParameters (UInt64.toNat 33554435) 10 12 := approximateParameters_many
  obtain ⟨blob, xS, run, length, written, check⟩ := proveSlow_accepted d (by decide) .plain
    (FormArith.plain_lawful d) (fun _ => 2 ^ 263)
    (fun _ => ⟨le_rfl, Nat.pow_lt_pow_right Nat.one_lt_two (Nat.lt_succ_self 263)⟩)
    ⟨⟨2, 1, 3⟩, by decide, rfl⟩ 33554435 10 12 many (by norm_num) (by norm_num) (by norm_num) (by norm_num)
  have five : numBits d.D = 5 := by decide
  rw [five] at written check
  exact ⟨blob, xS, run, length, written, check⟩

end ChiaVdf
