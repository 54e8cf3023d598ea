import Mathlib.Tactic

/-! Euclid's algorithm on two numbers of which only the leading digits are known. The quotients of the
leading digits are those of the numbers themselves, whatever the digits behind them, where the last
remainders leave room for the cofactors: the condition of Collins and Jebelean. -/
namespace Lehmer

/-- Euclid's algorithm from one pair to another, with the quotients on the way. -/
inductive Quotients : ℤ → ℤ → List ℤ → ℤ → ℤ → Prop
  | nil (a b : ℤ) : Quotients a b [] a b
  | cons {a b a' b' : ℤ} {qs : List ℤ} (pos : 0 < b) (rest : Quotients b (a % b) qs a' b') :
      Quotients a b (a / b :: qs) a' b'

/-- Two cofactors without their signs, one quotient further. -/
def step (x : ℤ × ℤ) (q : ℤ) : ℤ × ℤ := (x.2, x.1 + q * x.2)

def cofactors (qs : List ℤ) (x : ℤ × ℤ) : ℤ × ℤ := qs.foldl step x

/-- The cofactors of the first number. -/
def us (qs : List ℤ) : ℤ × ℤ := cofactors qs (1, 0)

/-- The cofactors of the second number. -/
def vs (qs : List ℤ) : ℤ × ℤ := cofactors qs (0, 1)

/-- The sign of the first cofactor of the first number. -/
def sign (qs : List ℤ) : ℤ := (-1) ^ qs.length

variable {a b a' b' A B q : ℤ} {qs rs : List ℤ}

@[simp] theorem us_nil : us [] = (1, 0) := rfl

@[simp] theorem vs_nil : vs [] = (0, 1) := rfl

@[simp] theorem sign_nil : sign [] = 1 := rfl

@[simp] theorem sign_cons : sign (q :: qs) = -sign qs := by
  rw [sign, List.length_cons, pow_succ, mul_neg_one]
  rfl

theorem cofactors_append (qs rs : List ℤ) (x : ℤ × ℤ) :
    cofactors (qs ++ rs) x = cofactors rs (cofactors qs x) := List.foldl_append

theorem cofactors_eq (qs : List ℤ) (x : ℤ × ℤ) : cofactors qs x =
    (x.1 * (us qs).1 + x.2 * (vs qs).1, x.1 * (us qs).2 + x.2 * (vs qs).2) := by
  induction qs generalizing x with
  | nil => simp [cofactors]
  | cons q qs ih =>
    have first : us (q :: qs) = cofactors qs (step (1, 0) q) := rfl
    have second : vs (q :: qs) = cofactors qs (step (0, 1) q) := rfl
    have whole : cofactors (q :: qs) x = cofactors qs (step x q) := rfl
    rw [whole, first, second, ih, ih, ih]
    simp only [step]
    ext <;> ring

theorem us_append (qs rs : List ℤ) : us (qs ++ rs) =
    ((us qs).1 * (us rs).1 + (us qs).2 * (vs rs).1, (us qs).1 * (us rs).2 + (us qs).2 * (vs rs).2) := by
  rw [us, cofactors_append, cofactors_eq]
  rfl

theorem vs_append (qs rs : List ℤ) : vs (qs ++ rs) =
    ((vs qs).1 * (us rs).1 + (vs qs).2 * (vs rs).1, (vs qs).1 * (us rs).2 + (vs qs).2 * (vs rs).2) := by
  rw [vs, cofactors_append, cofactors_eq]
  rfl

theorem sign_append (qs rs : List ℤ) : sign (qs ++ rs) = sign qs * sign rs := by
  rw [sign, List.length_append, pow_add]
  rfl

theorem us_cons (q : ℤ) (qs : List ℤ) : us (q :: qs) = vs qs := by
  change cofactors qs (step (1, 0) q) = _
  rw [cofactors_eq]
  simp [step]

theorem vs_cons (q : ℤ) (qs : List ℤ) :
    vs (q :: qs) = ((us qs).1 + q * (vs qs).1, (us qs).2 + q * (vs qs).2) := by
  change cofactors qs (step (0, 1) q) = _
  rw [cofactors_eq]
  simp [step]

theorem Quotients.append (first : Quotients a b qs A B) (second : Quotients A B rs a' b') :
    Quotients a b (qs ++ rs) a' b' := by
  induction first with
  | nil => exact second
  | cons pos rest ih => exact .cons pos (ih second)

theorem Quotients.remainders (run : Quotients a b qs a' b') :
    a' = sign qs * ((us qs).1 * a - (vs qs).1 * b) ∧
      b' = sign qs * ((vs qs).2 * b - (us qs).2 * a) := by
  induction run with
  | nil => simp
  | @cons a b a' b' qs pos rest ih =>
    rw [sign_cons, us_cons, vs_cons, ih.1, ih.2, Int.emod_def]
    constructor <;> ring

theorem Quotients.one_le (run : Quotients a b qs a' b') (le : b ≤ a) : ∀ q ∈ qs, 1 ≤ q := by
  induction run with
  | nil => simp
  | cons pos rest ih =>
    intro q member
    rcases List.mem_cons.mp member with rfl | later
    · rw [Int.le_ediv_iff_mul_le pos]
      omega
    · exact ih (Int.emod_lt_of_pos _ pos).le q later

/-- The signs that the cofactors are without. -/
theorem cofactors_nonneg (quotients : ∀ q ∈ qs, 1 ≤ q) :
    0 ≤ (us qs).1 ∧ 0 ≤ (us qs).2 ∧ 0 ≤ (vs qs).1 ∧ 1 ≤ (vs qs).2 ∧ (qs ≠ [] → 1 ≤ (us qs).2) := by
  induction qs with
  | nil => simp
  | cons q qs ih =>
    obtain ⟨u1, u2, v1, v2, -⟩ := ih fun q member => quotients q (List.mem_cons_of_mem _ member)
    have one := quotients q List.mem_cons_self
    rw [us_cons, vs_cons]
    have grow : (vs qs).2 ≤ q * (vs qs).2 := le_mul_of_one_le_left (by omega) one
    exact ⟨v1, by omega, add_nonneg u1 (mul_nonneg (by omega) v1), by linarith, fun _ => v2⟩

/-- The last remainders decide whether positive numbers are the quotients of a pair. -/
theorem quotients_of_lt (quotients : ∀ q ∈ qs, 1 ≤ q)
    (first : a' = sign qs * ((us qs).1 * a - (vs qs).1 * b))
    (second : b' = sign qs * ((vs qs).2 * b - (us qs).2 * a)) (pos : 0 < b') (lt : b' < a') :
    0 < b ∧ b < a ∧ Quotients a b qs a' b' := by
  induction qs generalizing a b with
  | nil =>
    simp only [sign_nil, us_nil, vs_nil] at first second
    obtain rfl : a' = a := by linarith
    obtain rfl : b' = b := by linarith
    exact ⟨pos, lt, .nil _ _⟩
  | cons q qs ih =>
    have one := quotients q List.mem_cons_self
    rw [sign_cons, us_cons, vs_cons] at first second
    obtain ⟨posRest, ltRest, run⟩ := ih (a := b) (b := a - q * b)
      (fun q member => quotients q (List.mem_cons_of_mem _ member))
      (by rw [first]; ring) (by rw [second]; ring)
    have posB : 0 < b := posRest.trans ltRest
    have grow : b ≤ q * b := le_mul_of_one_le_left posB.le one
    obtain ⟨quotient, remainder⟩ : a / b = q ∧ a % b = a - q * b :=
      (Int.ediv_emod_unique posB).mpr ⟨by ring, posRest.le, ltRest⟩
    refine ⟨posB, by linarith, ?_⟩
    rw [← quotient]
    exact .cons posB (by rw [remainder]; exact run)

theorem Quotients.bounds (run : Quotients a b qs a' b') (nonneg : 0 ≤ b) (le : b ≤ a) :
    0 ≤ b' ∧ b' ≤ a' ∧ b' ≤ b ∧ a' ≤ a ∧ (qs ≠ [] → b' < a' ∧ b' < b ∧ a' ≤ b) := by
  induction run with
  | nil => simp [nonneg, le]
  | @cons a b a' b' qs pos rest ih =>
    have small := Int.emod_lt_of_pos a pos
    obtain ⟨low, order, lower, first, strict⟩ := ih (Int.emod_nonneg _ pos.ne') small.le
    refine ⟨low, order, by omega, by omega, fun _ => ⟨?_, by omega, first⟩⟩
    cases rest with
    | nil => exact small
    | cons pos' rest' => exact (strict (List.cons_ne_nil _ _)).1

/-- The room that the last remainders leave for the cofactors. -/
def Passes (qs : List ℤ) (a b : ℤ) : Prop :=
  if qs.length % 2 = 0 then (us qs).2 ≤ b ∧ (vs qs).2 + (vs qs).1 ≤ a - b
  else (vs qs).2 ≤ b ∧ (us qs).2 + (us qs).1 ≤ a - b

theorem sign_even (even : qs.length % 2 = 0) : sign qs = 1 :=
  Even.neg_one_pow (Nat.even_iff.mpr even)

theorem sign_odd (odd : ¬qs.length % 2 = 0) : sign qs = -1 :=
  Odd.neg_one_pow (Nat.odd_iff.mpr (by omega))

/-- A remainder stays above a cofactor when digits are put behind both numbers. -/
theorem room {M d x y e e' : ℤ} (ys : 0 ≤ y) (xs : 0 ≤ x) (e0 : 0 ≤ e) (e'0 : 0 ≤ e')
    (lt : e' < M) (le : y ≤ d) : y ≤ M * d + x * e - y * e' := by
  have gain : M * y ≤ M * d := mul_le_mul_of_nonneg_left le (by omega)
  have loss : y * e' ≤ y * (M - 1) := mul_le_mul_of_nonneg_left (by omega) ys
  have extra := mul_nonneg xs e0
  linarith

/-- The quotients of the leading digits are those of the numbers. -/
theorem quotients_of_passes {M α β : ℤ} (run : Quotients A B qs a b) (le : B ≤ A)
    (passes : Passes qs a b) (α0 : 0 ≤ α) (αM : α < M) (β0 : 0 ≤ β) (βM : β < M) (any : qs ≠ []) :
    ∃ a' b', 0 < b' ∧ Quotients (A * M + α) (B * M + β) qs a' b' := by
  have ones := run.one_le le
  obtain ⟨u1, u2, v1, v2, u2pos⟩ := cofactors_nonneg ones
  obtain ⟨first, second⟩ := run.remainders
  suffices wide : 0 < sign qs * ((vs qs).2 * (B * M + β) - (us qs).2 * (A * M + α)) ∧
      sign qs * ((vs qs).2 * (B * M + β) - (us qs).2 * (A * M + α)) <
        sign qs * ((us qs).1 * (A * M + α) - (vs qs).1 * (B * M + β)) from
    ⟨_, _, wide.1, (quotients_of_lt ones rfl rfl wide.1 wide.2).2.2⟩
  have u2one := u2pos any
  unfold Passes at passes
  split at passes
  case isTrue even =>
    rw [sign_even even] at first second ⊢
    have last := room u2 (by omega) β0 α0 αM passes.1 (x := (vs qs).2)
    have gap := room (by omega) (add_nonneg u1 u2) α0 β0 βM passes.2
    constructor
    · calc 0 < (us qs).2 := u2one
        _ ≤ _ := last
        _ = _ := by rw [second]; ring
    · refine sub_pos.mp ?_
      calc 0 < (vs qs).2 + (vs qs).1 := by omega
        _ ≤ _ := gap
        _ = _ := by rw [first, second]; ring
  case isFalse odd =>
    rw [sign_odd odd] at first second ⊢
    have last := room (by omega) u2 α0 β0 βM passes.1 (y := (vs qs).2)
    have gap := room (by omega) (add_nonneg v1 (by omega)) β0 α0 αM passes.2 (x := (vs qs).1 + (vs qs).2)
    constructor
    · calc 0 < (vs qs).2 := by omega
        _ ≤ _ := last
        _ = _ := by rw [second]; ring
    · refine sub_pos.mp ?_
      calc 0 < (us qs).2 + (us qs).1 := by omega
        _ ≤ _ := gap
        _ = _ := by rw [first, second]; ring

end Lehmer
