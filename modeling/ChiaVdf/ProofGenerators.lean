import ChiaVdf.Nucomp
import ChiaVdf.Prover

/-! The three generators of Wesolowski proofs over any group: `GenerateWesolowski`,
`Prover::GenerateProof` and `ParallelProver::GenerateProof`. The counters keep the widths that the
source gives them; the challenge `B` is an argument. -/
namespace ChiaVdf

open Finset ProverSlow

/-- What the generators ask of the objects that they multiply. -/
structure GroupArith (α : Type) where
  one : α
  nudupl : α → Exec α
  nucomp : α → α → Exec α
  fastPow : α → ℤ → Exec α
  reduce : α → Exec α

namespace GroupArith

variable {α : Type}

/-- The elements of a group themselves. -/
def ofGroup (G : Type) [CommGroup G] : GroupArith G where
  one := 1
  nudupl x := .done (x * x)
  nucomp x y := .done (x * y)
  fastPow x n := if n < 0 then .fault .overflow else .done (x ^ n.toNat)
  reduce x := .done x

/-- The forms of a discriminant under one of the arithmetics. -/
def ofForms (arith : FormArith) (one : Form) (D L : ℤ) : GroupArith Form where
  one := one
  nudupl f := arith.nudupl f D L
  nucomp f g := arith.nucomp f g D L
  fastPow f n := arith.fastPowFormNucomp f D n L
  reduce := arith.reduce

/-- An entry of a vector. -/
def slot (xs : List α) (i : ℕ) : Exec α :=
  match xs[i]? with
  | some x => .done x
  | none => .fault .outOfBounds

variable (arith : GroupArith α)

/-- The product of the buckets that `index` lists. -/
def collect (ys : List α) (index : ℕ → ℕ) (n : ℕ) : Exec α :=
  Exec.forLoop n (fun b z => do
    let y ← slot ys (index b)
    arith.nucomp z y) arith.one

/-- Drops the intermediate with index `i` into the bucket of its digit; one of the generators looks
at the digit first. -/
def bucketStep (checked : Bool) (B : ℤ) (getForm : ℕ → Exec α) (T k l j i : ℕ) (ys : List α) :
    Exec (List α) :=
  if T ≥ k * (i * l + j + 1) % 2 ^ 64 then do
    let b ← getBlock (i * l + j) k T B
    if checked ∧ b ≥ 2 ^ k then .thrown "GenerateProof block index out of bounds"
    else do
      let tmp ← getForm i
      let y ← slot ys b
      let y ← arith.nucomp y tmp
      return ys.set b y
  else .done ys

/-- One turn of the loop over `j`, with `count` intermediates. -/
def digitRound (checked : Bool) (count : Exec ℕ) (B : ℤ) (getForm : ℕ → Exec α) (T k l j : ℕ)
    (x : α) : Exec α := do
  let k1 := k / 2
  let k0 := k - k1
  let x ← arith.fastPow x (Int.bmod (2 ^ k) (2 ^ 32))
  let limit ← count
  let ys ← Exec.forLoop limit (arith.bucketStep checked B getForm T k l j)
    (List.replicate (2 ^ k) arith.one)
  let x ← Exec.forLoop (2 ^ k1) (fun b1 x => do
    let z ← arith.collect ys (fun b0 => b1 * 2 ^ k0 + b0) (2 ^ k0)
    let z ← arith.fastPow z (b1 * 2 ^ k0 : ℕ)
    arith.nucomp x z) x
  Exec.forLoop (2 ^ k0) (fun b0 x => do
    let z ← arith.collect ys (fun b1 => b1 * 2 ^ k0 + b0) (2 ^ k1)
    let z ← arith.fastPow z (b0 : ℕ)
    arith.nucomp x z) x

/-- The number of intermediates in `GenerateWesolowski`, in 64-bit arithmetic. -/
def countSlow (T k l : ℕ) : Exec ℕ :=
  if k * l % 2 ^ 64 = 0 then .fault .divideByZero
  else .done ((T + k * l - 1) % 2 ^ 64 / (k * l % 2 ^ 64))

/-- The same in the provers, whose `k` and `l` have 32 bits. -/
def limit (T k l : ℕ) : Exec ℕ :=
  if k * l % 2 ^ 32 = 0 then .fault .divideByZero
  else .done (T / (k * l % 2 ^ 32) + if T % (k * l % 2 ^ 32) ≠ 0 then 1 else 0)

def generateWesolowski (B : ℤ) (intermediates : List α) (T k l : ℕ) : Exec α :=
  if k = 0 ∨ l = 0 then .fault .assertion
  else do
    let x ← Exec.forLoop l
      (fun r => arith.digitRound false (countSlow T k l) B (slot intermediates) T k l (l - 1 - r)) arith.one
    arith.reduce x

/-- `Prover::GenerateProof`. -/
def generateProof (B : ℤ) (getForm : ℕ → Exec α) (T k l : ℕ) : Exec α := do
  let x ← Exec.forLoop l
    (fun r => arith.digitRound true (limit T k l) B getForm T k l (l - 1 - r)) arith.one
  arith.reduce x

def squareFormN (f : α) (cnt : ℕ) : Exec α :=
  Exec.forLoop cnt (fun _ f => do
    let f ← arith.nudupl f
    arith.reduce f) f

/-- The digits with `start - len ≤ j < start`, shifted to their place. -/
def provePart (B : ℤ) (getForm : ℕ → Exec α) (T k l start len : ℕ) : Exec α := do
  let x ← Exec.forLoop len
    (fun r => arith.digitRound false (limit T k l) B getForm T k l (start - 1 - r)) arith.one
  arith.squareFormN x ((start - len) * k)

/-- `ParallelProver::GenerateProof`; its two parts touch nothing in common. -/
def parallelProof (B : ℤ) (getForm : ℕ → Exec α) (T k l : ℕ) : Exec α := do
  let l0 := l / 2
  let l1 := l - l0
  let x0 ← arith.provePart B getForm T k l l l0
  let x1 ← arith.provePart B getForm T k l l1 l1
  let proof ← arith.nucomp x0 x1
  arith.reduce proof

variable {arith} {arith' : GroupArith α}

/-- The same `one`, and each routine that of the other arithmetic unless it does not come back. -/
structure Below (arith arith' : GroupArith α) : Prop where
  one : arith.one = arith'.one
  nudupl : ∀ f, Exec.Below (arith.nudupl f) (arith'.nudupl f)
  nucomp : ∀ f g, Exec.Below (arith.nucomp f g) (arith'.nucomp f g)
  fastPow : ∀ f n, Exec.Below (arith.fastPow f n) (arith'.fastPow f n)
  reduce : ∀ f, Exec.Below (arith.reduce f) (arith'.reduce f)

theorem ofForms_below {forms forms' : FormArith} (below : forms.Below forms') (one : Form) (D L : ℤ) :
    (ofForms forms one D L).Below (ofForms forms' one D L) where
  one := rfl
  nudupl f := below.nudupl f D L
  nucomp f g := below.nucomp f g D L
  fastPow f n := below.fastPow f D n L
  reduce := below.reduce

section Below

theorem Below.collect (below : arith.Below arith') (ys : List α) (index : ℕ → ℕ) (n : ℕ) :
    Exec.Below (arith.collect ys index n) (arith'.collect ys index n) := by
  unfold GroupArith.collect
  rw [below.one]
  apply Exec.Below.forLoop
  intro b z
  apply Exec.Below.rest
  intro y
  exact below.nucomp z y

theorem Below.bucketStep (below : arith.Below arith') (checked : Bool) (B : ℤ) (getForm : ℕ → Exec α)
    (T k l j i : ℕ) (ys : List α) : Exec.Below (arith.bucketStep checked B getForm T k l j i ys)
      (arith'.bucketStep checked B getForm T k l j i ys) := by
  unfold GroupArith.bucketStep
  split_ifs
  · apply Exec.Below.rest
    intro b
    split_ifs
    · rfl
    · apply Exec.Below.rest
      intro tmp
      apply Exec.Below.rest
      intro y
      exact (below.nucomp y tmp).first
  · rfl

theorem Below.gather (below : arith.Below arith') (ys : List α) (x : α) (index : ℕ → ℕ → ℕ) (e : ℕ → ℤ) (m n : ℕ) :
    Exec.Below
      (Exec.forLoop m (fun b x => do
        let z ← arith.collect ys (index b) n
        let z ← arith.fastPow z (e b)
        arith.nucomp x z) x)
      (Exec.forLoop m (fun b x => do
        let z ← arith'.collect ys (index b) n
        let z ← arith'.fastPow z (e b)
        arith'.nucomp x z) x) := by
  apply Exec.Below.forLoop
  intro b x
  apply (below.collect ys _ n).bind
  intro z
  apply (below.fastPow z _).bind
  intro z
  exact below.nucomp x z

theorem Below.digitRound (below : arith.Below arith') (checked : Bool) (count : Exec ℕ) (B : ℤ)
    (getForm : ℕ → Exec α) (T k l j : ℕ) (x : α) :
    Exec.Below (arith.digitRound checked count B getForm T k l j x)
      (arith'.digitRound checked count B getForm T k l j x) := by
  unfold GroupArith.digitRound
  apply (below.fastPow x _).bind
  intro x
  apply Exec.Below.rest
  intro limit
  rw [below.one]
  apply (Exec.Below.forLoop _ (below.bucketStep checked B getForm T k l j)).bind
  intro ys
  apply (below.gather ys x (fun b1 b0 => _) (fun b1 => _) _ _).bind
  intro x
  exact below.gather ys x (fun b0 b1 => _) (fun b0 => _) _ _

theorem Below.squareFormN (below : arith.Below arith') (f : α) (cnt : ℕ) :
    Exec.Below (arith.squareFormN f cnt) (arith'.squareFormN f cnt) := by
  apply Exec.Below.forLoop
  intro _ f
  exact (below.nudupl f).bind below.reduce

theorem Below.generateProof (below : arith.Below arith') (B : ℤ) (getForm : ℕ → Exec α) (T k l : ℕ) :
    Exec.Below (arith.generateProof B getForm T k l) (arith'.generateProof B getForm T k l) := by
  unfold GroupArith.generateProof
  rw [below.one]
  exact (Exec.Below.forLoop _ fun r x => below.digitRound true _ B getForm T k l _ x).bind below.reduce

theorem Below.provePart (below : arith.Below arith') (B : ℤ) (getForm : ℕ → Exec α) (T k l start len : ℕ) :
    Exec.Below (arith.provePart B getForm T k l start len) (arith'.provePart B getForm T k l start len) := by
  unfold GroupArith.provePart
  rw [below.one]
  apply (Exec.Below.forLoop _ fun r x => below.digitRound false _ B getForm T k l _ x).bind
  intro x
  exact below.squareFormN x _

theorem Below.parallelProof (below : arith.Below arith') (B : ℤ) (getForm : ℕ → Exec α) (T k l : ℕ) :
    Exec.Below (arith.parallelProof B getForm T k l) (arith'.parallelProof B getForm T k l) := by
  apply (below.provePart B getForm T k l l _).bind
  intro x0
  apply (below.provePart B getForm T k l _ _).bind
  intro x1
  exact (below.nucomp x0 x1).bind below.reduce

end Below

variable {G : Type} [CommGroup G] {Rep : α → G → Prop}

/-- The objects stand for elements of the group, and the arithmetic computes in it. -/
structure Lawful (arith : GroupArith α) (Rep : α → G → Prop) : Prop where
  one : Rep arith.one 1
  nudupl : ∀ {f x}, Rep f x → ∃ g, arith.nudupl f = .done g ∧ Rep g (x * x)
  nucomp : ∀ {f g x y}, Rep f x → Rep g y → ∃ h, arith.nucomp f g = .done h ∧ Rep h (x * y)
  fastPow : ∀ {f x}, Rep f x → ∀ n : ℕ, ∃ g, arith.fastPow f n = .done g ∧ Rep g (x ^ n)
  reduce : ∀ {f x}, Rep f x → ∃ g, arith.reduce f = .done g ∧ Rep g x

theorem ofGroup_lawful (G : Type) [CommGroup G] : (ofGroup G).Lawful (fun x y : G => x = y) where
  one := rfl
  nudupl eq := ⟨_, rfl, by rw [eq]⟩
  nucomp eq eq' := ⟨_, rfl, by rw [eq, eq']⟩
  fastPow {f x} eq n := by
    have nonneg : ¬(n : ℤ) < 0 := by omega
    exact ⟨f ^ n, by simp only [ofGroup, if_neg nonneg, Int.toNat_natCast], by rw [eq]⟩
  reduce eq := ⟨_, rfl, eq⟩

theorem ofForms_lawful {d : Discriminant} {forms : FormArith} (lawful : forms.Lawful d) {one : Form}
    (identity : Represents one (1 : ReducedForm d)) :
    (ofForms forms one d.D d.L).Lawful (fun f (x : ReducedForm d) => Represents f x) where
  one := identity
  nudupl rep := by
    obtain ⟨g, run⟩ := lawful.nudupl_done rep
    exact ⟨g, run, lawful.nudupl rep run⟩
  nucomp rep rep' := by
    obtain ⟨h, run⟩ := lawful.nucomp_done rep rep'
    exact ⟨h, run, lawful.nucomp rep rep' run⟩
  fastPow rep n := lawful.fastPow_nat rep n
  reduce rep := by
    obtain ⟨g, run⟩ := lawful.reduce_done rep
    exact ⟨g, run, lawful.reduce rep run⟩

/-- The forms of the identity alone, in the trivial group. -/
theorem ofForms_lawful_one {forms : FormArith} {one : Form} {D L : ℤ} (fixes : forms.Fixes one D L) :
    (ofForms forms one D L).Lawful (fun f (_ : Unit) => f = one) where
  one := rfl
  nudupl same := ⟨one, same ▸ fixes.nudupl, rfl⟩
  nucomp {f g _ _} same same' := ⟨one, by rw [same, same']; exact fixes.nucomp, rfl⟩
  fastPow {f _} same n := ⟨one, by rw [same]; exact fixes.fastPow n, rfl⟩
  reduce same := ⟨one, same ▸ fixes.reduce, rfl⟩

section Generators

variable {x : G} {T k l B : ℕ} {getForm : ℕ → Exec α}

/-- A list whose entries stand for the powers `x ^ E i`. -/
def Holds (Rep : α → G → Prop) (x : G) (xs : List α) (E : ℕ → ℕ) : Prop :=
  ∀ i f, xs[i]? = some f → Rep f (x ^ E i)

theorem Holds.slot {xs : List α} {E : ℕ → ℕ} (holds : Holds Rep x xs E) {i : ℕ}
    (inside : i < xs.length) : ∃ f, slot xs i = .done f ∧ Rep f (x ^ E i) := by
  have some := List.getElem?_eq_getElem inside
  exact ⟨xs[i], by rw [GroupArith.slot, some], holds i _ some⟩

theorem Holds.set {xs : List α} {E : ℕ → ℕ} (holds : Holds Rep x xs E) {b e : ℕ} {f : α}
    (rep : Rep f (x ^ e)) : Holds Rep x (xs.set b f) (Function.update E b e) := by
  intro i g at_i
  rw [List.getElem?_set] at at_i
  by_cases same : b = i
  · subst same
    rw [if_pos rfl] at at_i
    split_ifs at at_i
    rw [Function.update_self]
    exact Option.some.inj at_i ▸ rep
  · rw [if_neg same] at at_i
    rw [Function.update_of_ne (Ne.symm same)]
    exact holds i g at_i

theorem Lawful.collect (lawful : arith.Lawful Rep) {ys : List α} {E index : ℕ → ℕ} {n : ℕ}
    (holds : Holds Rep x ys E) (inside : ∀ b < n, index b < ys.length) :
    ∃ z, arith.collect ys index n = .done z ∧ Rep z (x ^ ∑ b ∈ range n, E (index b)) := by
  refine Exec.forLoop_done (fun i z => Rep z (x ^ ∑ b ∈ range i, E (index b))) ?_ ?_
  · simpa using lawful.one
  · intro b lt z rep
    obtain ⟨y, read, repy⟩ := holds.slot (inside b lt)
    obtain ⟨w, mul, repw⟩ := lawful.nucomp rep repy
    refine ⟨w, by rw [read, Exec.done_bind, mul], ?_⟩
    rwa [sum_range_succ, pow_add]

/-- The parameters for which no counter of the source wraps around. -/
structure FitsWords (T k l : ℕ) : Prop where
  kpos : 0 < k
  lpos : 0 < l
  ks : k < 31
  small : k * l < 2 ^ 32
  Ts : T + k * l ≤ 2 ^ 64

/-- What the generators are given: the powers with an index at which a whole block begins. -/
def Given (Rep : α → G → Prop) (x : G) (T k l : ℕ) (getForm : ℕ → Exec α) : Prop :=
  ∀ i, k * (i * l + 1) ≤ T → ∃ f, getForm i = .done f ∧ Rep f (x ^ 2 ^ (i * (k * l)))

theorem FitsWords.index_lt (fits : FitsWords T k l) {i : ℕ} (begins : k * (i * l + 1) ≤ T) :
    i < (T + k * l - 1) / (k * l) := by
  have pos := Nat.mul_pos fits.kpos fits.lpos
  have kpos := fits.kpos
  have split : k * (i * l + 1) = i * (k * l) + k := by ring
  apply (Nat.le_div_iff_mul_le pos).mpr
  rw [Nat.succ_mul]
  omega

theorem countSlow_eq (fits : FitsWords T k l) : countSlow T k l = .done ((T + k * l - 1) / (k * l)) := by
  have pos := Nat.mul_pos fits.kpos fits.lpos
  have small := fits.small
  have Ts := fits.Ts
  rw [countSlow, Nat.mod_eq_of_lt (show k * l < 2 ^ 64 by omega), if_neg pos.ne',
    Nat.mod_eq_of_lt (by omega)]

theorem limit_eq (fits : FitsWords T k l) : limit T k l = .done ((T + k * l - 1) / (k * l)) := by
  have pos := Nat.mul_pos fits.kpos fits.lpos
  rw [limit, Nat.mod_eq_of_lt fits.small, if_neg pos.ne', count_eq pos]
  by_cases exact : T % (k * l) = 0 <;> simp [exact]

theorem bucketStep_spec (lawful : arith.Lawful Rep) (checked : Bool) (fits : FitsWords T k l)
    (pos : 0 < B) (given : Given Rep x T k l getForm) {i j : ℕ} (jl : j < l)
    (below : i < (T + k * l - 1) / (k * l)) {ys : List α} {E : ℕ → ℕ} (length : ys.length = 2 ^ k)
    (buckets : Holds Rep x ys E) (sum : ∑ b ∈ range (2 ^ k), b * E b = digitSum T k l B j i) :
    ∃ ys', arith.bucketStep checked B getForm T k l j i ys = .done ys' ∧ ys'.length = 2 ^ k ∧
      ∃ E', Holds Rep x ys' E' ∧ ∑ b ∈ range (2 ^ k), b * E' b = digitSum T k l B j (i + 1) := by
  have Ts := fits.Ts
  have word := index_le (Nat.mul_pos fits.kpos fits.lpos) jl below
  have klpos := Nat.mul_pos fits.kpos fits.lpos
  rw [bucketStep, Nat.mod_eq_of_lt (by omega)]
  rw [digitSum, sum_range_succ, ← digitSum]
  split
  · next le =>
    obtain ⟨get, small⟩ := getBlock_spec (i := i * l + j) pos fits.ks le (by omega)
    have inside : ¬(checked = true ∧ block T k B (i * l + j) ≥ 2 ^ k) := by
      rintro ⟨_, large⟩
      omega
    obtain ⟨y, read, repy⟩ := buckets.slot (length ▸ small)
    obtain ⟨f, read', repf⟩ := given i ((Nat.mul_le_mul_left k (by omega)).trans le)
    obtain ⟨w, mul, repw⟩ := lawful.nucomp repy repf
    rw [← pow_add] at repw
    refine ⟨ys.set (block T k B (i * l + j)) w, ?_, by simpa using length, _, buckets.set repw, ?_⟩
    · simp only [get, Exec.done_bind, if_neg inside, read, read', mul, Exec.pure_eq]
    · rw [sum_update E _ small, sum]
  · next gt =>
    rw [add_zero]
    exact ⟨ys, rfl, length, E, buckets, sum⟩

theorem bucketLoop_spec (lawful : arith.Lawful Rep) (checked : Bool) (fits : FitsWords T k l)
    (pos : 0 < B) (given : Given Rep x T k l getForm) {j : ℕ} (jl : j < l) :
    ∃ ys, Exec.forLoop ((T + k * l - 1) / (k * l)) (arith.bucketStep checked B getForm T k l j)
        (List.replicate (2 ^ k) arith.one) = .done ys ∧
      ys.length = 2 ^ k ∧ ∃ E, Holds Rep x ys E ∧
      ∑ b ∈ range (2 ^ k), b * E b = digitSum T k l B j ((T + k * l - 1) / (k * l)) := by
  refine Exec.forLoop_done (fun i ys => ys.length = 2 ^ k ∧ ∃ E, Holds Rep x ys E ∧
    ∑ b ∈ range (2 ^ k), b * E b = digitSum T k l B j i) ?_ ?_
  · refine ⟨List.length_replicate, fun _ => 0, fun i f at_i => ?_, by simp [digitSum]⟩
    rw [List.getElem?_replicate] at at_i
    split_ifs at at_i
    obtain rfl := Option.some.inj at_i
    simpa using lawful.one
  · rintro i below ys ⟨length, E, buckets, sum⟩
    exact bucketStep_spec lawful checked fits pos given jl below length buckets sum

theorem gather_spec (lawful : arith.Lawful Rep) {ys : List α} {f : α} {E : ℕ → ℕ}
    (weight : ℕ → ℕ) (index : ℕ → ℕ → ℕ) {n m e : ℕ} (holds : Holds Rep x ys E)
    (inside : ∀ a < n, ∀ b < m, index a b < ys.length) (rep : Rep f (x ^ e)) :
    ∃ g, Exec.forLoop n (fun a f => do
        let z ← arith.collect ys (index a) m
        let z ← arith.fastPow z (weight a : ℕ)
        arith.nucomp f z) f = .done g ∧
      Rep g (x ^ (e + ∑ a ∈ range n, weight a * ∑ b ∈ range m, E (index a b))) := by
  refine Exec.forLoop_done
    (fun i g => Rep g (x ^ (e + ∑ a ∈ range i, weight a * ∑ b ∈ range m, E (index a b)))) ?_ ?_
  · simpa using rep
  · intro a lt g repg
    obtain ⟨z, product, repz⟩ := lawful.collect holds (inside a lt)
    obtain ⟨w, power, repw⟩ := lawful.fastPow repz (weight a)
    obtain ⟨h, mul, reph⟩ := lawful.nucomp repg repw
    rw [← pow_mul, ← pow_add, add_assoc, mul_comm _ (weight a)] at reph
    refine ⟨h, by simp only [product, power, mul, Exec.done_bind], ?_⟩
    rwa [sum_range_succ]

theorem digitRound_spec (lawful : arith.Lawful Rep) (checked : Bool) (fits : FitsWords T k l)
    (pos : 0 < B) (given : Given Rep x T k l getForm) {count : Exec ℕ}
    (all : count = .done ((T + k * l - 1) / (k * l))) {j e : ℕ} (jl : j < l) {f : α}
    (rep : Rep f (x ^ e)) :
    ∃ g, arith.digitRound checked count B getForm T k l j f = .done g ∧
      Rep g (x ^ (2 ^ k * e + digitSum T k l B j ((T + k * l - 1) / (k * l)))) := by
  obtain ⟨f', power, rep'⟩ := lawful.fastPow rep (2 ^ k)
  obtain ⟨ys, buckets, lengthYs, E, holdsYs, sum⟩ := bucketLoop_spec lawful checked fits pos given jl
  have inside (a b : ℕ) (ha : a < 2 ^ (k / 2)) (hb : b < 2 ^ (k - k / 2)) :
      a * 2 ^ (k - k / 2) + b < ys.length := lengthYs ▸ halves_lt ha hb
  rw [← pow_mul] at rep'
  obtain ⟨g, high, repg⟩ := gather_spec lawful (fun a => a * 2 ^ (k - k / 2))
    (fun a b => a * 2 ^ (k - k / 2) + b) holdsYs (fun a ha b hb => inside a b ha hb) rep'
  obtain ⟨h, low, reph⟩ := gather_spec lawful (fun b => b)
    (fun b a => a * 2 ^ (k - k / 2) + b) holdsYs (fun b hb a ha => inside a b ha hb) repg
  refine ⟨h, ?_, ?_⟩
  · simp only [digitRound, shifted_eq fits.ks, all, power, buckets, Exec.done_bind]
    rw [high]
    exact low
  · rw [add_assoc, sum_halves, pow_halves, sum, mul_comm e] at reph
    exact reph

/-- The digits of `start - len ≤ j < start` in the order in which the loops take them. -/
theorem digitLoop_spec (lawful : arith.Lawful Rep) (checked : Bool) (fits : FitsWords T k l)
    (pos : 0 < B) (given : Given Rep x T k l getForm) {count : Exec ℕ}
    (all : count = .done ((T + k * l - 1) / (k * l))) {start : ℕ} (inside : start ≤ l) (len : ℕ)
    (le : len ≤ start) :
    ∃ f, Exec.forLoop len (fun r => arith.digitRound checked count B getForm T k l (start - 1 - r))
        arith.one = .done f ∧ Rep f (x ^ ∑ j ∈ range len, 2 ^ (k * j) *
          digitSum T k l B (start - len + j) ((T + k * l - 1) / (k * l))) :=
  countdown_spec _ (fun j => digitSum T k l B j _) lawful.one le fun _ js _ _ rep =>
    digitRound_spec lawful checked fits pos given all (js.trans_le inside) rep

theorem squareFormN_spec (lawful : arith.Lawful Rep) {f : α} {y : G} (rep : Rep f y) (cnt : ℕ) :
    ∃ g, arith.squareFormN f cnt = .done g ∧ Rep g (y ^ 2 ^ cnt) := by
  refine Exec.forLoop_done (fun i g => Rep g (y ^ 2 ^ i)) (by simpa using rep) ?_
  intro i _ g repg
  obtain ⟨h, double, reph⟩ := lawful.nudupl repg
  obtain ⟨h', last, reph'⟩ := lawful.reduce reph
  refine ⟨h', by rw [double, Exec.done_bind, last], ?_⟩
  rwa [pow_succ, pow_mul, pow_two]

theorem provePart_spec (lawful : arith.Lawful Rep) (fits : FitsWords T k l) (pos : 0 < B)
    (given : Given Rep x T k l getForm) (start len : ℕ) (inside : start ≤ l)
    (le : len ≤ start) : ∃ f, arith.provePart B getForm T k l start len = .done f ∧
      Rep f (x ^ ((∑ j ∈ range len, 2 ^ (k * j) *
        digitSum T k l B (start - len + j) ((T + k * l - 1) / (k * l))) * 2 ^ ((start - len) * k))) := by
  obtain ⟨f, run, rep⟩ := digitLoop_spec lawful false fits pos given (limit_eq fits) inside len le
  obtain ⟨g, run', repg⟩ := squareFormN_spec lawful rep ((start - len) * k)
  refine ⟨g, by rw [provePart, run, Exec.done_bind, run'], ?_⟩
  rwa [← pow_mul] at repg

theorem generateWesolowski_spec (lawful : arith.Lawful Rep) (fits : FitsWords T k l)
    (large : 2 ^ k ≤ B) {intermediates : List α} (given : Given Rep x T k l (slot intermediates)) :
    ∃ proof, arith.generateWesolowski B intermediates T k l = .done proof ∧
      Rep proof (x ^ (2 ^ T / B)) := by
  have pos : 0 < B := lt_of_lt_of_le (by positivity) large
  obtain ⟨f, run, rep⟩ := digitLoop_spec lawful false fits pos given (countSlow_eq fits) le_rfl l le_rfl
  simp only [Nat.sub_self, zero_add, sum_digitSum fits.kpos fits.lpos large] at rep
  obtain ⟨g, last, repg⟩ := lawful.reduce rep
  have some : ¬(k = 0 ∨ l = 0) := by
    have := fits.kpos
    have := fits.lpos
    omega
  exact ⟨g, by rw [generateWesolowski, if_neg some, run, Exec.done_bind, last], repg⟩

theorem generateProof_spec (lawful : arith.Lawful Rep) (fits : FitsWords T k l) (large : 2 ^ k ≤ B)
    (given : Given Rep x T k l getForm) :
    ∃ proof, arith.generateProof B getForm T k l = .done proof ∧ Rep proof (x ^ (2 ^ T / B)) := by
  have pos : 0 < B := lt_of_lt_of_le (by positivity) large
  obtain ⟨f, run, rep⟩ := digitLoop_spec lawful true fits pos given (limit_eq fits) le_rfl l le_rfl
  simp only [Nat.sub_self, zero_add, sum_digitSum fits.kpos fits.lpos large] at rep
  obtain ⟨g, last, repg⟩ := lawful.reduce rep
  exact ⟨g, by rw [generateProof, run, Exec.done_bind, last], repg⟩

/-- The two parts share the digits out; with a single one the first part has none. -/
theorem parallelProof_spec (lawful : arith.Lawful Rep) (fits : FitsWords T k l) (large : 2 ^ k ≤ B)
    (given : Given Rep x T k l getForm) :
    ∃ proof, arith.parallelProof B getForm T k l = .done proof ∧ Rep proof (x ^ (2 ^ T / B)) := by
  have pos : 0 < B := lt_of_lt_of_le (by positivity) large
  obtain ⟨x0, run0, rep0⟩ := provePart_spec lawful fits pos given l (l / 2) le_rfl
    (Nat.div_le_self l 2)
  obtain ⟨x1, run1, rep1⟩ := provePart_spec lawful fits pos given (l - l / 2)
    (l - l / 2) (Nat.sub_le l _) le_rfl
  obtain ⟨h, mul, reph⟩ := lawful.nucomp rep0 rep1
  obtain ⟨proof, last, repp⟩ := lawful.reduce reph
  refine ⟨proof, by simp only [parallelProof, run0, run1, mul, last, Exec.done_bind], ?_⟩
  rw [← pow_add] at repp
  convert repp using 2
  have parts : range l = range ((l - l / 2) + l / 2) := by
    rw [Nat.sub_add_cancel (Nat.div_le_self l 2)]
  rw [← sum_digitSum fits.kpos fits.lpos large, parts, sum_range_add, Nat.sub_self, zero_mul, pow_zero,
    mul_one, add_comm, sum_mul]
  simp only [zero_add]
  congr 1
  apply sum_congr rfl
  intro j _
  rw [mul_add, pow_add, mul_comm k (l - l / 2)]
  ring

/-- With fewer iterations than a digit has bits there is nothing to look up. -/
theorem given_short (Rep : α → G → Prop) (x : G) (short : T < k) (l : ℕ) (getForm : ℕ → Exec α) :
    Given Rep x T k l getForm := by
  intro i begins
  have more : k ≤ k * (i * l + 1) := Nat.le_mul_of_pos_right k (Nat.succ_pos _)
  omega

theorem generateProof_short {forms : FormArith} {one : Form} {D L : ℤ} (fixes : forms.Fixes one D L)
    (fits : FitsWords T k l) (large : 2 ^ k ≤ B) (short : T < k) (getForm : ℕ → Exec Form) :
    (ofForms forms one D L).generateProof B getForm T k l = .done one := by
  obtain ⟨proof, run, rfl⟩ :=
    generateProof_spec (ofForms_lawful_one fixes) fits large (given_short _ () short l getForm)
  exact run

theorem parallelProof_short {forms : FormArith} {one : Form} {D L : ℤ} (fixes : forms.Fixes one D L)
    (fits : FitsWords T k l) (large : 2 ^ k ≤ B) (short : T < k) (getForm : ℕ → Exec Form) :
    (ofForms forms one D L).parallelProof B getForm T k l = .done one := by
  obtain ⟨proof, run, rfl⟩ :=
    parallelProof_spec (ofForms_lawful_one fixes) fits large (given_short _ () short l getForm)
  exact run

/-- On forms all three return a member of the class of the proof. -/
theorem generators_forms {d : Discriminant} {forms : FormArith} (lawful : forms.Lawful d)
    {x : ReducedForm d} {getForm : ℕ → Exec Form} {intermediates : List Form}
    (fits : FitsWords T k l) (large : 2 ^ k ≤ B)
    (given : Given (fun f (x : ReducedForm d) => Represents f x) x T k l getForm)
    (given' : Given (fun f (x : ReducedForm d) => Represents f x) x T k l (slot intermediates)) :
    ∃ f g h, (ofForms forms (1 : ReducedForm d).form d.D d.L).generateWesolowski B intermediates T k l =
        .done f ∧
      (ofForms forms (1 : ReducedForm d).form d.D d.L).generateProof B getForm T k l = .done g ∧
      (ofForms forms (1 : ReducedForm d).form d.D d.L).parallelProof B getForm T k l = .done h ∧
      Represents f (x ^ (2 ^ T / B)) ∧ Represents g (x ^ (2 ^ T / B)) ∧ Represents h (x ^ (2 ^ T / B)) := by
  have lawful' := ofForms_lawful lawful (ReducedForm.represents (1 : ReducedForm d))
  obtain ⟨f, runf, repf⟩ := generateWesolowski_spec lawful' fits large given'
  obtain ⟨g, rung, repg⟩ := generateProof_spec lawful' fits large given
  obtain ⟨h, runh, reph⟩ := parallelProof_spec lawful' fits large given
  exact ⟨f, g, h, runf, rung, runh, repf, repg, reph⟩

theorem slot_forms (forms : List Form) : slot forms = entry forms := by
  funext i
  unfold slot entry
  cases forms[i]? <;> rfl

theorem collect_ofForms (forms : FormArith) (D L : ℤ) (one : Form) (ys : List Form) (index : ℕ → ℕ) (n : ℕ) :
    (ofForms forms one D L).collect ys index n = ProverSlow.collect forms D L ys one index n := by
  simp only [GroupArith.collect, slot_forms]
  rfl

theorem bucketStep_ofForms (forms : FormArith) (D L C : ℤ) (one : Form) (getForm : ℕ → Exec Form) (T k l j i : ℕ)
    (ys : List Form) : Prover.bucketStep forms D L C getForm T k l j i ys =
      (ofForms forms one D L).bucketStep true C getForm T k l j i ys := by
  simp only [Prover.bucketStep, GroupArith.bucketStep, true_and, slot_forms]
  rfl

theorem digitRound_ofForms (forms : FormArith) (D L C : ℤ) (one : Form) (getForm : ℕ → Exec Form)
    (fits : FitsWords T k l) (j : ℕ) (f : Form) : Prover.digitRound forms D L C one getForm T k l j f =
      (ofForms forms one D L).digitRound true (limit T k l) C getForm T k l j f := by
  have count : limit T k l = .done (Prover.limit T k l) := by
    have pos := Nat.mul_pos fits.kpos fits.lpos
    rw [limit, Nat.mod_eq_of_lt fits.small, if_neg pos.ne', Prover.limit, Nat.mod_eq_of_lt fits.small]
  have step : Prover.bucketStep forms D L C getForm T k l j =
      (ofForms forms one D L).bucketStep true C getForm T k l j := by
    funext i ys
    exact bucketStep_ofForms forms D L C one getForm T k l j i ys
  simp only [Prover.digitRound, GroupArith.digitRound, count, Exec.done_bind, step, collect_ofForms]
  simp only [ofForms]

/-- The generator of `Prover` where its answers do not depend on the turn. -/
theorem generateProof_ofForms (env : VerifierEnv) (D : ℤ) (segm : Segment) (getForm : ℕ → Exec Form)
    (fits : FitsWords segm.length.toNat k l) : env.generateProof D segm k l (fun _ => getForm) = (do
      let B ← env.getB D segm.x segm.y
      let L ← mpzRoot4 (-D)
      let id ← Form.identity D
      (ofForms env.arith id D L).generateProof B getForm segm.length.toNat k l) := by
  have round (C : ℤ) (L : ℤ) (one : Form) (j : ℕ) :
      Prover.digitRound env.arith D L C one getForm segm.length.toNat k l j =
        (ofForms env.arith one D L).digitRound true (limit segm.length.toNat k l) C getForm segm.length.toNat k l
          j := by
    funext f
    exact digitRound_ofForms env.arith D L C one getForm fits j f
  simp only [VerifierEnv.generateProof, GroupArith.generateProof, round]
  rfl

/-- A proof for fewer iterations than a digit has bits is the identity. -/
theorem generateProof_fixed {env : VerifierEnv} {D L : ℤ} {one : Form} (segm : Segment) (root : mpzRoot4 (-D) = .done L)
    (fixes : env.arith.Fixes one D L) (hash : env.getB D segm.x segm.y = .done B) (getForm : ℕ → Exec Form)
    (fits : FitsWords segm.length.toNat k l) (large : 2 ^ k ≤ B) (short : segm.length.toNat < k) :
    env.generateProof D segm k l (fun _ => getForm) = .done one := by
  rw [generateProof_ofForms env D segm getForm fits]
  simp only [hash, root, fixes.identity, Exec.done_bind]
  exact generateProof_short fixes fits large short getForm

end Generators

/-- The intermediates of `x`, and nothing behind them. -/
def powers {G : Type} [CommGroup G] (x : G) (T k l : ℕ) : List G :=
  (List.range ((T + k * l - 1) / (k * l))).map fun i => x ^ 2 ^ (i * (k * l))

theorem powers_given {G : Type} [CommGroup G] (x : G) {T k l : ℕ} (fits : FitsWords T k l) :
    Given (fun a b : G => a = b) x T k l (slot (powers x T k l)) := by
  intro i begins
  refine ⟨_, ?_, rfl⟩
  rw [slot, powers, List.getElem?_map, List.getElem?_range (fits.index_lt begins)]
  rfl

/-- In every abelian group the three generators find the power with exponent `2^T / B`; they ask
for no intermediate beyond the given ones and for no bucket beyond the last. -/
theorem proof_generators_agree {G : Type} [CommGroup G] (x : G) {T k l B : ℕ}
    (fits : FitsWords T k l) (large : 2 ^ k ≤ B) :
    (ofGroup G).generateWesolowski B (powers x T k l) T k l = .done (x ^ (2 ^ T / B)) ∧
    (ofGroup G).generateProof B (slot (powers x T k l)) T k l = .done (x ^ (2 ^ T / B)) ∧
    (ofGroup G).parallelProof B (slot (powers x T k l)) T k l = .done (x ^ (2 ^ T / B)) ∧
    ∀ i, k * (i + 1) ≤ T → ∃ b < 2 ^ k, getBlock i k T B = .done b := by
  have lawful := ofGroup_lawful G
  have given := powers_given x fits
  obtain ⟨f, runf, rfl⟩ := generateWesolowski_spec lawful fits large given
  obtain ⟨g, rung, rfl⟩ := generateProof_spec lawful fits large given
  obtain ⟨h, runh, rfl⟩ := parallelProof_spec lawful fits large given
  refine ⟨runf, rung, runh, fun i le => ?_⟩
  have pos : 0 < B := lt_of_lt_of_le (by positivity) large
  have := fits.Ts
  have := Nat.mul_pos fits.kpos fits.lpos
  obtain ⟨get, small⟩ := getBlock_spec pos fits.ks le (by omega)
  exact ⟨_, small, get⟩

/-- An odd number of passes and a partial digit at the top. -/
theorem proof_generators_agree_odd :
    FitsWords 7 2 3 ∧ 2 ^ 2 ≤ 5 ∧
    (ofGroup (Multiplicative ℤ)).parallelProof (5 : ℕ) (slot (powers (Multiplicative.ofAdd 1) 7 2 3)) 7 2 3 =
      .done (Multiplicative.ofAdd 1 ^ 25) := by
  have fits : FitsWords 7 2 3 := ⟨by decide, by decide, by decide, by decide, by decide⟩
  obtain ⟨-, -, run, -⟩ := proof_generators_agree (Multiplicative.ofAdd (1 : ℤ)) (B := 5) fits (by decide)
  exact ⟨fits, by decide, run⟩

theorem forLoop_fault {β : Type} {n : ℕ} (body : ℕ → β → Exec β) {init : β} {reason : Fault}
    (first : body 0 init = .fault reason) : Exec.forLoop (n + 1) body init = .fault reason := by
  induction n with
  | zero => simpa [Exec.forLoop] using first
  | succ n ih => rw [Exec.forLoop, ih, Exec.fault_bind]

/-- A product `k * l` of 33 bits is zero for `Prover::GenerateProof`. -/
theorem product_wraps :
    0 < 2 ∧ 0 < 2 ^ 31 ∧ 2 ^ 2 ≤ 4 ∧
    (ofGroup (Multiplicative ℤ)).generateProof (4 : ℕ)
      (slot (powers (Multiplicative.ofAdd 1) 1 2 (2 ^ 31))) 1 2 (2 ^ 31) = .fault .divideByZero := by
  refine ⟨by decide, by positivity, by decide, ?_⟩
  have limit : limit 1 2 (2 ^ 31) = .fault .divideByZero := by decide
  have first : (ofGroup (Multiplicative ℤ)).digitRound true (GroupArith.limit 1 2 (2 ^ 31)) (4 : ℕ)
      (slot (powers (Multiplicative.ofAdd 1) 1 2 (2 ^ 31))) 1 2 (2 ^ 31) (2 ^ 31 - 1 - 0)
      (ofGroup (Multiplicative ℤ)).one = .fault .divideByZero := by
    have shifted : ¬Int.bmod (2 ^ 2) (2 ^ 32) < 0 := by decide
    simp only [digitRound, ofGroup, if_neg shifted, limit, Exec.done_bind, Exec.fault_bind]
  have loop := forLoop_fault (n := 2 ^ 31 - 1)
    (fun r => (ofGroup (Multiplicative ℤ)).digitRound true (GroupArith.limit 1 2 (2 ^ 31)) (4 : ℕ)
      (slot (powers (Multiplicative.ofAdd 1) 1 2 (2 ^ 31))) 1 2 (2 ^ 31) (2 ^ 31 - 1 - r)) first
  rw [Nat.sub_add_cancel (by norm_num)] at loop
  rw [generateProof, loop, Exec.fault_bind]

end GroupArith

end ChiaVdf
