import ChiaVdf.Nucomp

/-! The squaring of `vdf_fast.h` in five phases, as one thread runs them. The two calls of
`gcd_unsigned` are a parameter: what they return is the divisions of Euclid's algorithm, some of
them at a time, as matrices without signs. -/
namespace ChiaVdf

/-- `gcd_uv_entry`: the parity is one where the matrix stands for an odd number of divisions. -/
structure GcdUvEntry where
  u0 : ℕ
  u1 : ℕ
  v0 : ℕ
  v1 : ℕ
  parity : ℕ

def GcdUvEntry.matrixMultiply (entry : GcdUvEntry) (inp : ℤ × ℤ) : ℤ × ℤ :=
  let (inA, inB) := inp
  let even : Prop := entry.parity = 0
  ((if even then inA else inB) * (if even then entry.u0 else entry.v0 : ℕ) -
      (if even then inB else inA) * (if even then entry.v0 else entry.u0 : ℕ),
    (if even then inB else inA) * (if even then entry.v1 else entry.u1 : ℕ) -
      (if even then inA else inB) * (if even then entry.u1 else entry.v1 : ℕ))

/-- `gcd_results_type`: the entries from index one on, and where the gcd stopped. -/
structure GcdResults where
  entries : List GcdUvEntry
  aEnd : ℤ
  bEnd : ℤ

/-- The matrices one after the other. -/
def GcdResults.multiply (gcd : GcdResults) (inp : ℤ × ℤ) : ℤ × ℤ :=
  gcd.entries.foldl (fun x entry => entry.matrixMultiply x) inp

/-- `gcd_unsigned` on two numbers and a threshold; nothing where it raises an error. -/
abbrev GcdUnsigned := ℤ → ℤ → ℤ → Option GcdResults

def maxBitsBase : ℕ := 1024

def numExtraBitsAb : ℕ := 3

namespace SquareState

/-- Why an iteration ends without a result: a phase gave up, or `corruption_flag` is set. -/
inductive Stop where
  | gaveUp
  | corrupted

def numLimbs (n : ℤ) : ℕ := (mpSize n).natAbs

/-- The tests of `phase_0_master` before it starts the gcd. -/
def phase0Master (a b L : ℤ) : Bool :=
  let maxBitsAb := maxBitsBase + numExtraBitsAb
  (numBits a ≤ maxBitsAb ∧ numBits b ≤ maxBitsAb ∧ 0 ≤ a) ∧ numLimbs a > numLimbs L

/-- The start of the gcd of `b` and `a`: the limbs carry no sign. -/
def gcdStart (a b : ℤ) (bHigher : Bool) : ℤ × ℤ := if bHigher then (|b|, |a|) else (|a|, |b|)

/-- `c`, now and then with a test of the remainder. -/
def divideC (bbD a4 : ℤ) (validate : Bool) : Exec (Option ℤ) :=
  if validate then do
    let c ← mpzFdivQ bbD a4
    let remainder ← mpzFdivR bbD a4
    return if remainder ≠ 0 then none else some c
  else do
    let c ← mpzDivexact bbD a4
    return some c

/-- The numbers `c` and `k`; nothing where the state is found to be corrupted. -/
def phase0Slave (D a b : ℤ) (bHigher validate : Bool) (gcd10 : GcdResults) :
    Exec (Option (ℤ × ℤ)) := do
  match ← divideC (b * b - D) (a * 4) validate with
  | none => return none
  | some c =>
    if a < 0 ∨ c < 0 then return none
    else do
      let (U0, U1) : ℤ × ℤ := if bHigher then (1, 0) else (0, 1)
      let (U0, U1) := if b < 0 then (-U0, -U1) else (U0, U1)
      let (U0, _) := gcd10.multiply (U0, U1)
      let k ← mpzMod (-(U0 * c)) a
      return some (c, k)

/-- The cofactors `v0` and `v1`. -/
def phase1Master (gcdST : GcdResults) : ℤ × ℤ := gcdST.multiply (0, 1)

def sNegative (v1 : ℤ) : Bool := v1 ≤ 0

/-- The numbers `h` and `v1_h`. -/
def phase2Master (a b c t v1 : ℤ) : Exec (ℤ × ℤ) := do
  let h ← mpzDivexact (b * t + c * v1) a
  let h := if sNegative v1 then -h else h
  return (h, v1 * h)

/-- The numbers `t_t_S` and `v0_2`. -/
def phase2Slave (t v0 v1 : ℤ) : ℤ × ℤ :=
  let ttS := t * t
  (if sNegative v1 then -ttS else ttS, v0 * 2)

/-- The numbers `A` and `A_2`. -/
def phase3Master (v1h ttS : ℤ) : ℤ × ℤ :=
  let A := ttS + v1h
  (A, A * 2)

/-- The number `e`. -/
def phase3Slave (a b t v0 v1 : ℤ) : Exec ℤ := do
  let sTV0 := t * v0
  let sTV0 := if sNegative v1 then -sTV0 else sTV0
  let quotient ← mpzDivexact (t * 2 * (a + sTV0)) v1
  return -(b + quotient)

/-- The new `a`, `b` and `b_higher_magnitude_than_a`; nothing where the first gcd did not end in one
and zero. -/
def phase4Master (gcd10 : GcdResults) (v02 h A A2 e : ℤ) : Exec (Option (ℤ × ℤ × Bool)) :=
  if gcd10.aEnd ≠ 1 ∨ gcd10.bEnd ≠ 0 then .done none
  else do
    let B ← mpzMod (e - v02 * h) A2
    return some (|A|, B, |B| ≥ |A|)

/-- One iteration. In the second phase the slave calls the gcd, so it goes first. -/
def iteration (gcdUnsigned : GcdUnsigned) (D L a b : ℤ) (bHigher validate : Bool) :
    Exec (Except Stop (ℤ × ℤ × Bool)) :=
  if phase0Master a b L = false then .done (.error .gaveUp)
  else
    let (aStart, bStart) := gcdStart a b bHigher
    match gcdUnsigned aStart bStart 0 with
    | none => .done (.error .gaveUp)
    | some gcd10 => do
      match ← phase0Slave D a b bHigher validate gcd10 with
      | none => return .error .corrupted
      | some (c, k) =>
        match gcdUnsigned |a| |k| L with
        | none => return .error .gaveUp
        | some gcdST => do
          let t := gcdST.bEnd
          let (v0, v1) := phase1Master gcdST
          let (h, v1h) ← phase2Master a b c t v1
          let (ttS, v02) := phase2Slave t v0 v1
          let (A, A2) := phase3Master v1h ttS
          let e ← phase3Slave a b t v0 v1
          match ← phase4Master gcd10 v02 h A A2 e with
          | none => return .error .corrupted
          | some state => return .ok state

end SquareState

section Gcd

open Xgcd

/-- One division with the quotient `q`. -/
def divide (x : ℤ × ℤ) (q : ℤ) : ℤ × ℤ := (x.2, x.1 - q * x.2)

/-- Euclid's algorithm from one pair to another, with the quotients on the way. -/
inductive Divisions : ℤ × ℤ → List ℤ → ℤ × ℤ → Prop
  | nil (x : ℤ × ℤ) : Divisions x [] x
  | cons {a b : ℤ} {qs : List ℤ} {y : ℤ × ℤ} (pos : 0 < b)
      (rest : Divisions (divide (a, b) (a / b)) qs y) : Divisions (a, b) (a / b :: qs) y

/-- Entries that stand for the divisions from one pair to another. -/
inductive GcdRun : List GcdUvEntry → ℤ × ℤ → ℤ × ℤ → Prop
  | nil (x : ℤ × ℤ) : GcdRun [] x x
  | cons {entry : GcdUvEntry} {entries : List GcdUvEntry} {x y z : ℤ × ℤ} {qs : List ℤ}
      (steps : Divisions x qs y) (same : ∀ p, entry.matrixMultiply p = qs.foldl divide p)
      (rest : GcdRun entries y z) : GcdRun (entry :: entries) x z

theorem Divisions.fold (steps : Divisions x qs y) : qs.foldl divide x = y := by
  induction steps with
  | nil => rfl
  | cons pos rest ih => exact ih

variable {N b : ℤ}

/-- The cofactors of the second number, kept with the opposite sign, as the partial gcd keeps
them. -/
def cofactorState (p x : ℤ × ℤ) : State := ⟨-p.1, -p.2, x.1, x.2⟩

theorem cofactorState_divide (p : ℤ × ℤ) {r2 r1 : ℤ} (r2s : 0 ≤ r2) :
    divisionStep (cofactorState p (r2, r1)) =
      cofactorState (divide p (r2 / r1)) (divide (r2, r1) (r2 / r1)) := by
  simp only [divisionStep, cofactorState, divide, Int.tdiv_eq_ediv_of_nonneg r2s,
    Int.tmod_eq_emod_of_nonneg r2s, Int.emod_def]
  congr 1 <;> ring

theorem Divisions.inv (steps : Divisions x qs y) {p : ℤ × ℤ} (inv : Inv N b 0 τ (cofactorState p x)) :
    ∃ τ', Inv N b 0 τ' (cofactorState (qs.foldl divide p) y) := by
  induction steps generalizing p τ with
  | nil => exact ⟨τ, inv⟩
  | @cons r2 r1 _ _ pos rest ih =>
    obtain ⟨⟨weak, strict⟩, -⟩ := divisionStep_spec inv.weak le_rfl pos
    have r2s : 0 ≤ r2 := inv.nonneg.trans inv.le
    rw [cofactorState_divide p r2s] at weak strict
    exact ih (weak.inv (strict inv.co1))

theorem GcdRun.inv (run : GcdRun entries x y) {p : ℤ × ℤ} (inv : Inv N b 0 τ (cofactorState p x)) :
    ∃ τ', Inv N b 0 τ' (cofactorState (entries.foldl (fun p entry => entry.matrixMultiply p) p) y) := by
  induction run generalizing p τ with
  | nil => exact ⟨τ, inv⟩
  | cons steps same rest ih =>
    obtain ⟨τ', inv'⟩ := steps.inv inv
    rw [← same] at inv'
    exact ih inv'

theorem GcdRun.fold (run : GcdRun entries x y) :
    entries.foldl (fun p entry => entry.matrixMultiply p) x = y := by
  induction run with
  | nil => rfl
  | cons steps same rest ih => rw [List.foldl_cons, same, steps.fold, ih]

theorem GcdUvEntry.matrixMultiply_linear (entry : GcdUvEntry) : ∃ p q r s : ℤ, ∀ x : ℤ × ℤ,
    entry.matrixMultiply x = (x.1 * p + x.2 * q, x.1 * r + x.2 * s) := by
  by_cases even : entry.parity = 0
  · refine ⟨entry.u0, -entry.v0, -entry.u1, entry.v1, fun x => ?_⟩
    simp only [GcdUvEntry.matrixMultiply, even, if_true]
    congr 1 <;> ring
  · refine ⟨-entry.u0, entry.v0, entry.u1, -entry.v1, fun x => ?_⟩
    simp only [GcdUvEntry.matrixMultiply, even, if_false]
    congr 1 <;> ring

theorem multiply_cong (gcd : GcdResults) {x U : ℤ × ℤ} {β : ℤ} (first : N ∣ x.1 - U.1 * β)
    (second : N ∣ x.2 - U.2 * β) : N ∣ (gcd.multiply x).1 - (gcd.multiply U).1 * β ∧
      N ∣ (gcd.multiply x).2 - (gcd.multiply U).2 * β := by
  unfold GcdResults.multiply
  induction gcd.entries generalizing x U with
  | nil => exact ⟨first, second⟩
  | cons entry entries ih =>
    obtain ⟨p, q, r, s, linear⟩ := entry.matrixMultiply_linear
    obtain ⟨i, hi⟩ := first
    obtain ⟨j, hj⟩ := second
    rw [List.foldl_cons, List.foldl_cons]
    apply ih
    · rw [linear, linear]
      exact ⟨p * i + q * j, by linear_combination p * hi + q * hj⟩
    · rw [linear, linear]
      exact ⟨r * i + s * j, by linear_combination r * hi + s * hj⟩

end Gcd

section Square

open BinaryForm Xgcd SquareState

variable {f : Form} {k : ℤ}

/-- The discriminant and the first coefficients determine the last one. -/
theorem eq_of_disc {g h : BinaryForm} (a : g.a = h.a) (b : g.b = h.b) (nonzero : g.a ≠ 0)
    (disc : g.disc = h.disc) : g = h := by
  unfold BinaryForm.disc at disc
  rw [← a, ← b] at disc
  have c : g.c = h.c := mul_left_cancel₀ (mul_ne_zero four_ne_zero nonzero) (by linarith)
  exact BinaryForm.ext a b c

/-- The square of a form with coprime `a` and `b`, by any `k` with `b * k ≡ -c` modulo `a`. -/
theorem square_composes (pos : 0 < f.a) (neg : f.disc < 0) (coprime : Int.gcd f.a f.b = 1)
    (ks : 0 ≤ k) (lt : k < f.a) (residue : f.a ∣ f.b * k + f.c) :
    ∃ F, Composes f.a f.a f.b f.c k F ∧ F.disc = f.disc ∧ 0 < F.a ∧
      ∀ H, ProperlyEquivalent F H → ∃ g, Form.reduce H = .done g ∧ Form.square f = .done g := by
  obtain ⟨m, hm⟩ := residue
  have comp : Composes f.a f.a f.b f.c k ⟨f.a * f.a, f.b + 2 * (f.a * k), k * k + m⟩ :=
    ⟨pos, ks, lt, rfl, rfl, by linear_combination -hm⟩
  have disc : (⟨f.a * f.a, f.b + 2 * (f.a * k), k * k + m⟩ : Form).disc = f.disc := by
    unfold BinaryForm.disc
    linear_combination 4 * f.a * hm
  refine ⟨_, comp, disc, mul_pos pos pos, fun H e => ?_⟩
  have Hneg : H.disc < 0 := by rw [e.disc_eq, disc]; exact neg
  obtain ⟨g, run, red, e'⟩ := Form.reduce_spec (equivalent_pos (mul_pos pos pos) (disc ▸ neg) e) Hneg
  refine ⟨g, run, ?_⟩
  rw [Int.gcd_comm] at coprime
  obtain ⟨z, w, spos, tpos, squared⟩ := Form.square_eq_reduce pos coprime
  have first := z.first
  have second := z.second
  have mean := z.mean
  have last := z.last
  rw [w, one_mul] at first second mean
  -- `k` and `-z.k` solve the same congruence
  have unit : Int.gcd f.a f.b = 1 := by rw [Int.gcd_comm]; exact coprime
  obtain ⟨j, hj⟩ : f.a ∣ k + z.k := by
    have whole : z.u = f.b := by linarith
    rw [whole, ← first] at last
    exact Int.dvd_of_dvd_mul_right_of_gcd_one ⟨m + z.m, by linear_combination hm - last⟩ unit
  have moved := equivalent_translate ⟨f.a * f.a, f.b + 2 * (f.a * k), k * k + m⟩ (-j)
  have lead : z.result.a = f.a * f.a := by rw [Composition.result, ← first, ← second]
  have middle : z.result.b = f.b + 2 * (f.a * k) + 2 * (f.a * f.a) * -j := by
    rw [z.result_b_right, ← second]
    linear_combination -(2 * f.a) * hj
  have same : (⟨f.a * f.a, f.b + 2 * (f.a * k) + 2 * (f.a * f.a) * -j,
      f.a * f.a * (-j) ^ 2 + (f.b + 2 * (f.a * k)) * -j + (k * k + m)⟩ : Form) = z.result := by
    apply eq_of_disc lead.symm middle.symm (mul_pos pos pos).ne'
    rw [moved.disc_eq, disc, z.result_disc]
  rw [same] at moved
  rw [squared]
  exact Form.reduce_eq_of_equivalent (mul_pos spos tpos) (z.result_disc.trans_lt neg) red
    (moved.symm.trans (e.trans e'))

theorem divideC_spec (pos : 0 < f.a) (validate : Bool) :
    divideC (f.b * f.b - f.disc) (f.a * 4) validate = .done (some f.c) := by
  have value : f.b * f.b - f.disc = f.a * 4 * f.c := by unfold BinaryForm.disc; ring
  have nonzero : f.a * 4 ≠ 0 := by omega
  rw [value]
  cases validate
  · simp only [divideC, mpzDivexact_exact nonzero f.c rfl, Exec.done_bind]
    rfl
  · simp only [divideC, mpzFdivQ_exact nonzero f.c rfl, mpzFdivR_pos (show 0 < f.a * 4 by omega),
      Int.mul_emod_right, Exec.done_bind]
    rfl

/-- The vectors that the first gcd starts from: multiples of `b` modulo `a`, with either order of
the two and either sign of `b`. -/
theorem gcdStart_cong (pos : 0 < f.a) (bHigher : Bool) {U : ℤ × ℤ}
    (eq : U = if f.b < 0 then (if bHigher then (-1, 0) else (0, -1))
      else if bHigher then (1, 0) else (0, 1)) :
    f.a ∣ (gcdStart f.a f.b bHigher).1 - U.1 * f.b ∧ f.a ∣ (gcdStart f.a f.b bHigher).2 - U.2 * f.b := by
  subst eq
  rcases lt_or_ge f.b 0 with minus | plus
  · cases bHigher <;> simp [gcdStart, minus, abs_of_neg minus, abs_of_pos pos]
  · cases bHigher <;> simp [gcdStart, not_lt.mpr plus, abs_of_nonneg plus, abs_of_pos pos]

theorem phase0Slave_spec (pos : 0 < f.a) (neg : f.disc < 0) (bHigher validate : Bool)
    {gcd10 : GcdResults} (ends : gcd10.multiply (gcdStart f.a f.b bHigher) = (1, 0)) :
    ∃ k, phase0Slave f.disc f.a f.b bHigher validate gcd10 = .done (some (f.c, k)) ∧
      0 ≤ k ∧ k < f.a ∧ f.a ∣ f.b * k + f.c := by
  obtain ⟨U, hU⟩ : ∃ U : ℤ × ℤ, U = if f.b < 0 then (if bHigher then (-1, 0) else (0, -1))
      else if bHigher then (1, 0) else (0, 1) := ⟨_, rfl⟩
  obtain ⟨first, second⟩ := gcdStart_cong pos bHigher hU
  obtain ⟨⟨j, hj⟩, -⟩ := multiply_cong gcd10 first second
  rw [ends] at hj
  have keep : ¬(f.a < 0 ∨ f.c < 0) := by
    have := Form.c_pos pos neg
    omega
  refine ⟨-((gcd10.multiply U).1 * f.c) % f.a, ?_, Int.emod_nonneg _ pos.ne',
    Int.emod_lt_of_pos _ pos, ?_⟩
  · simp only [phase0Slave, divideC_spec pos, Exec.done_bind, if_neg keep]
    rcases lt_or_ge f.b 0 with minus | plus
    · cases bHigher <;> simp [hU, minus, mpzMod_done pos.ne']
    · cases bHigher <;> simp [hU, not_lt.mpr plus, mpzMod_done pos.ne']
  · rw [Int.emod_def]
    refine ⟨f.c * j - f.b * (-((gcd10.multiply U).1 * f.c) / f.a), ?_⟩
    linear_combination f.c * hj

theorem sNegative_sign {N : ℤ} {v0 v1 : ℤ} {x : ℤ × ℤ}
    (inv : Xgcd.Inv N k 0 τ (cofactorState (v0, v1) x)) (y : ℤ) :
    (if sNegative v1 then -y else y) = τ * y := by
  have co1 : τ * -v1 ≤ -1 := inv.co1
  rcases inv.sign with rfl | rfl
  · have plus : ¬v1 ≤ 0 := by omega
    simp [sNegative, plus]
  · have minus : v1 ≤ 0 := by omega
    simp [sNegative, minus]

/-- Phases two to four: each division is exact, and they end in the class of the square. -/
theorem later_phases {F : Form} {s t v0 v1 : ℤ} (comp : Composes f.a f.a f.b f.c k F) (Fpos : 0 < F.a)
    (neg : F.disc < 0) (residue : f.a ∣ f.b * k + f.c)
    (inv : Xgcd.Inv f.a k 0 τ (cofactorState (v0, v1) (s, t))) :
    ∃ (h e : ℤ) (H : Form), phase2Master f.a f.b f.c t v1 = .done (h, v1 * h) ∧
      phase3Slave f.a f.b t v0 v1 = .done e ∧ ProperlyEquivalent F H ∧ 0 < H.a ∧
      (phase3Master (v1 * h) (phase2Slave t v0 v1).1).2 = τ * H.a * 2 ∧
      |(phase3Master (v1 * h) (phase2Slave t v0 v1).1).1| = H.a ∧
      mpzMod (e - (phase2Slave t v0 v1).2 * h) (τ * H.a * 2) = .done H.b := by
  obtain ⟨G, equiv, lead, middle⟩ := comp.act inv
  have Gpos := equivalent_pos Fpos neg equiv
  have unit : τ * τ = 1 := by rcases inv.sign with rfl | rfl <;> norm_num
  have sign := sNegative_sign inv
  have co1 : τ * -v1 ≤ -1 := inv.co1
  have v1_ne : v1 ≠ 0 := by
    rintro rfl
    simp at co1
  have total := inv.total
  simp only [cofactorState] at lead middle total
  -- the first division: `k` takes the place of `t`
  obtain ⟨P, hP⟩ := inv.cong1
  obtain ⟨m, hm⟩ := residue
  have exact : f.b * t + f.c * v1 = f.a * (f.b * P + v1 * m) := by
    simp only [cofactorState] at hP
    linear_combination f.b * hP + v1 * hm
  generalize f.b * P + v1 * m = h0 at exact
  have value : G.a = t ^ 2 + v1 * h0 := by
    apply mul_left_cancel₀ comp.pos.ne'
    linear_combination lead + v1 * exact
  have exact' : t * 2 * (f.a + τ * (t * v0)) = v1 * (2 * τ * t * s) := by
    linear_combination -2 * t * τ * total - 2 * t * f.a * unit
  have b_eq : G.b = -(f.b + 2 * τ * t * s) - v0 * 2 * (τ * h0) := by
    apply mul_left_cancel₀ (neg_ne_zero.mpr v1_ne)
    linear_combination middle + 2 * τ * v0 * value + exact'
  have A_eq : τ * (t * t) + v1 * (τ * h0) = τ * G.a := by rw [value]; ring
  have moved := G.equivalent_translate (-(τ * (G.b / (τ * G.a * 2))))
  refine ⟨τ * h0, -(f.b + 2 * τ * t * s), _, ?_, ?_, equiv.trans moved, Gpos, ?_, ?_, ?_⟩
  · simp only [phase2Master, mpzDivexact_exact comp.pos.ne' _ exact, Exec.done_bind, sign]
    rfl
  · simp only [phase3Slave, sign, mpzDivexact_exact v1_ne _ exact', Exec.done_bind]
    rfl
  · simp only [phase3Master, phase2Slave, sign, A_eq]
  · simp only [phase3Master, phase2Slave, sign, A_eq]
    rw [abs_of_sign inv.sign (by rw [← mul_assoc, unit, one_mul]; exact Gpos.le), ← mul_assoc, unit,
      one_mul]
  · have nonzero : τ * G.a * 2 ≠ 0 := by rcases inv.sign with rfl | rfl <;> omega
    simp only [phase2Slave]
    rw [← b_eq, mpzMod_done nonzero, Int.emod_def]
    congr 1
    ring

theorem iteration_of_runs (pos : 0 < f.a) (neg : f.disc < 0) (coprime : Int.gcd f.a f.b = 1) {L k : ℤ}
    {gcdUnsigned : GcdUnsigned} {gcd10 gcdST : GcdResults} {bHigher validate : Bool}
    (starts : phase0Master f.a f.b L = true)
    (called : gcdUnsigned (gcdStart f.a f.b bHigher).1 (gcdStart f.a f.b bHigher).2 0 = some gcd10)
    (aEnd : gcd10.aEnd = 1) (bEnd : gcd10.bEnd = 0)
    (slave : phase0Slave f.disc f.a f.b bHigher validate gcd10 = .done (some (f.c, k)))
    (ks : 0 ≤ k) (lt : k < f.a) (residue : f.a ∣ f.b * k + f.c) (called' : gcdUnsigned f.a k L = some gcdST)
    (run : GcdRun gcdST.entries (f.a, k) (gcdST.aEnd, gcdST.bEnd)) :
    ∃ (A B : ℤ) (g : Form),
      iteration gcdUnsigned f.disc L f.a f.b bHigher validate = .done (.ok (A, B, decide (|B| ≥ A))) ∧
      0 < A ∧ 4 * A ∣ B ^ 2 - f.disc ∧
      Form.reduce ⟨A, B, (B ^ 2 - f.disc) / (4 * A)⟩ = .done g ∧ Form.square f = .done g := by
  obtain ⟨F, comp, disc, Fpos, classes⟩ := square_composes pos neg coprime ks lt residue
  have start : Xgcd.Inv f.a k 0 1 (cofactorState (0, 1) (f.a, k)) := by
    constructor <;> simp [cofactorState] <;> omega
  obtain ⟨τ, inv⟩ := run.inv start
  obtain ⟨h, e, H, phase2, phase3, equiv, Hpos, A2, A, mod⟩ :=
    later_phases comp Fpos (disc ▸ neg) residue inv
  obtain ⟨g, reduced, squared⟩ := classes H equiv
  have Hdisc := equiv.disc_eq.trans disc
  have last : H.b ^ 2 - f.disc = 4 * H.a * H.c := by
    rw [← Hdisc]
    unfold BinaryForm.disc
    ring
  refine ⟨H.a, H.b, g, ?_, Hpos, ⟨H.c, last⟩, ?_, squared⟩
  · have ended : ¬(gcd10.aEnd ≠ 1 ∨ gcd10.bEnd ≠ 0) := by simp [aEnd, bEnd]
    have proceed : ¬phase0Master f.a f.b L = false := by simp [starts]
    simp only [iteration, if_neg proceed, called, slave, Exec.done_bind, abs_of_pos pos,
      abs_of_nonneg ks, called', phase1Master, GcdResults.multiply, phase2, phase3, phase4Master,
      if_neg ended, A2, mod, A]
    rfl
  · rw [last, Int.mul_ediv_cancel_left _ (by omega)]
    exact reduced

/-- Where both calls of the gcd return divisions of Euclid's algorithm, down to one and zero and to
the first number within `L`, the five phases end in the class of the square. -/
theorem iteration_squares (pos : 0 < f.a) (neg : f.disc < 0) (coprime : Int.gcd f.a f.b = 1) {L : ℤ}
    {gcdUnsigned : GcdUnsigned} (bHigher validate : Bool) (starts : phase0Master f.a f.b L = true)
    (first : ∃ r, gcdUnsigned (gcdStart f.a f.b bHigher).1 (gcdStart f.a f.b bHigher).2 0 = some r ∧
      GcdRun r.entries (gcdStart f.a f.b bHigher) (1, 0) ∧ r.aEnd = 1 ∧ r.bEnd = 0)
    (second : ∀ k, 0 ≤ k → k < f.a → f.a ∣ f.b * k + f.c → ∃ r, gcdUnsigned f.a k L = some r ∧
      GcdRun r.entries (f.a, k) (r.aEnd, r.bEnd) ∧ L < r.aEnd ∧ r.bEnd ≤ L) :
    ∃ (gcd10 : GcdResults) (k A B : ℤ) (g : Form),
      gcdUnsigned (gcdStart f.a f.b bHigher).1 (gcdStart f.a f.b bHigher).2 0 = some gcd10 ∧
      phase0Slave f.disc f.a f.b bHigher validate gcd10 = .done (some (f.c, k)) ∧
      0 ≤ k ∧ k < f.a ∧ f.a ∣ f.b * k + f.c ∧
      iteration gcdUnsigned f.disc L f.a f.b bHigher validate = .done (.ok (A, B, decide (|B| ≥ A))) ∧
      0 < A ∧ 4 * A ∣ B ^ 2 - f.disc ∧
      Form.reduce ⟨A, B, (B ^ 2 - f.disc) / (4 * A)⟩ = .done g ∧ Form.square f = .done g := by
  obtain ⟨gcd10, called, run, aEnd, bEnd⟩ := first
  have ends : gcd10.multiply (gcdStart f.a f.b bHigher) = (1, 0) := run.fold
  obtain ⟨k, slave, ks, lt, residue⟩ := phase0Slave_spec pos neg bHigher validate ends
  obtain ⟨gcdST, called', run', -, -⟩ := second k ks lt residue
  obtain ⟨A, B, g, iterates⟩ :=
    iteration_of_runs pos neg coprime starts called aEnd bEnd slave ks lt residue called' run'
  exact ⟨gcd10, k, A, B, g, called, slave, ks, lt, residue, iterates⟩

/-- One division. -/
def oneDivision (q : ℕ) : GcdUvEntry := ⟨0, 1, 1, q, 1⟩

theorem oneDivision_multiply (q : ℕ) (x : ℤ × ℤ) : (oneDivision q).matrixMultiply x = divide x q := by
  simp [GcdUvEntry.matrixMultiply, oneDivision, divide, mul_comm]

theorem GcdRun.cons_one {x y : ℤ × ℤ} {entries : List GcdUvEntry} (pos : 0 < x.2) {q : ℕ}
    (quotient : x.1 / x.2 = q) (rest : GcdRun entries (divide x q) y) :
    GcdRun (oneDivision q :: entries) x y := by
  have steps : Divisions (x.1, x.2) [x.1 / x.2] (divide x q) := .cons pos (quotient ▸ .nil _)
  refine .cons steps (fun p => ?_) rest
  rw [oneDivision_multiply, quotient]
  rfl

/-- The squaring of a form with a negative `b`, with one division in the second gcd. -/
theorem iteration_squares_negative :
    ∃ gcdUnsigned : GcdUnsigned, ∃ A B g,
      iteration gcdUnsigned (-5708990770839416414812389305241871132343140355) 274877906944 1180591620718485045249
        (-1099511627777) false true =
        .done (.ok (A, B, decide (|B| ≥ A))) ∧ 0 < A ∧
      Form.square ⟨1180591620718485045249, -1099511627777, 1208925819616828197961729⟩ = .done g := by
  let gcdUnsigned : GcdUnsigned := fun _ _ threshold =>
    if threshold = 0 then some ⟨[oneDivision 1073741824, oneDivision 1099511627777], 1, 0⟩
    else some ⟨[oneDivision 1073741824], 1099511627777, 1⟩
  have disc : (⟨1180591620718485045249, -1099511627777, 1208925819616828197961729⟩ : Form).disc =
      -5708990770839416414812389305241871132343140355 := by decide
  have second (k : ℤ) (ks : 0 ≤ k) (lt : k < 1180591620718485045249)
      (residue : (1180591620718485045249 : ℤ) ∣ -1099511627777 * k + 1208925819616828197961729) :
      ∃ r, gcdUnsigned 1180591620718485045249 k 274877906944 = some r ∧
        GcdRun r.entries (1180591620718485045249, k) (r.aEnd, r.bEnd) ∧ 274877906944 < r.aEnd ∧
        r.bEnd ≤ 274877906944 := by
    obtain ⟨j, hj⟩ := residue
    obtain rfl : k = 1099511627777 := by omega
    exact ⟨_, rfl, .cons_one (by decide) (by decide) (.nil _), by decide, by decide⟩
  obtain ⟨-, -, A, B, g, -, -, -, -, -, run, Apos, -, -, squared⟩ := iteration_squares
    (f := ⟨1180591620718485045249, -1099511627777, 1208925819616828197961729⟩)
    (L := 274877906944) (by decide) (by decide) (by decide +kernel)
    false true (by decide +kernel)
    ⟨_, rfl, .cons_one (by decide) (by decide) (.cons_one (by decide) (by decide) (.nil _)), rfl, rfl⟩
    second
  exact ⟨gcdUnsigned, A, B, g, disc ▸ run, Apos, squared⟩

end Square

end ChiaVdf
