import ChiaVdf.XgcdPartial

/-! `mpz_xgcd_partial` for limbs of any size, with every operation on words checked: a value
that a signed limb cannot hold is a fault. No such fault occurs, so how a limb wraps around
does not matter. -/
namespace ChiaVdf

namespace Xgcd

/-- A value of type `mp_limb_signed_t` where a limb has `n` bits. -/
def signedLimb (n : ℕ) (x : ℤ) : Exec ℤ :=
  if -2 ^ (n - 1) ≤ x ∧ x < 2 ^ (n - 1) then .done x else .fault .overflow

/-- `turn`, operation by operation. -/
def checkedTurn (n i : ℕ) (s : Words) : Exec (Option Words) := do
  let qq ← signedLimb n (s.rr2.tdiv s.rr1)
  let p1 ← signedLimb n (qq * s.rr1)
  let t1 ← signedLimb n (s.rr2 - p1)
  let p2 ← signedLimb n (qq * s.aa1)
  let t2 ← signedLimb n (s.aa2 - p2)
  let p3 ← signedLimb n (qq * s.bb1)
  let t3 ← signedLimb n (s.bb2 - p3)
  let low ← signedLimb n (if i % 2 = 1 then -t3 else -t2)
  if t1 < low then return none
  else do
    let left ← signedLimb n (s.rr1 - t1)
    let right ← signedLimb n (if i % 2 = 1 then t2 - s.aa1 else t3 - s.bb1)
    return if left < right then none else some ⟨s.rr1, t1, s.aa1, t2, s.bb1, t3⟩

def checkedWordLoop (n : ℕ) (bb : ℤ) : ℕ → ℕ → Words → Exec (ℕ × Words)
  | 0, _, _ => .diverged
  | fuel + 1, i, s =>
    if s.rr1 ≠ 0 ∧ s.rr1 > bb then do
      match ← checkedTurn n i s with
      | none => .done (i, s)
      | some s' => checkedWordLoop n bb fuel (i + 1) s'
    else .done (i, s)

/-- `bits`: the shift for limbs of `n` bits. -/
def limbShift (n : ℕ) (s : State) : ℕ := max (mpzSizeinbase2 s.r2) (mpzSizeinbase2 s.r1) - (n - 1)

/-- The words the inner loop starts from. -/
def limbWords (n : ℕ) (s : State) : Exec Words := do
  let rr2 ← signedLimb n (s.r2.natAbs / 2 ^ limbShift n s : ℕ)
  let rr1 ← signedLimb n (s.r1.natAbs / 2 ^ limbShift n s : ℕ)
  return ⟨rr2, rr1, 0, 1, 1, 0⟩

/-- What the inner loop does to the words of `s`. -/
def limbRun (n : ℕ) (L : ℤ) (s : State) : Exec (ℕ × Words) := do
  let w ← limbWords n s
  let bb ← signedLimb n (L.natAbs / 2 ^ limbShift n s : ℕ)
  checkedWordLoop n bb (w.rr1.natAbs + 1) 0 w

def limbStep (n : ℕ) (L : ℤ) (s : State) : Exec State := do
  let (i, w) ← limbRun n L s
  return if i = 0 then divisionStep s else wordStep w s

def limbLoop (n : ℕ) (L : ℤ) : ℕ → State → Exec State
  | 0, _ => .diverged
  | fuel + 1, s =>
    if s.r1 ≠ 0 ∧ s.r1 > L then do
      let s ← limbStep n L s
      limbLoop n L fuel s
    else .done s

end Xgcd

open Xgcd in
/-- `mpz_xgcd_partial` of a build with `GMP_LIMB_BITS = n`. -/
def mpzXgcdPartialLimb (n : ℕ) (r2 r1 L : ℤ) : Exec State := do
  let s ← limbLoop n L (r1.natAbs + 1) ⟨0, -1, r2, r1⟩
  return if s.r2 < 0 then ⟨-s.co2, -s.co1, -s.r2, s.r1⟩ else s

namespace Xgcd

section Words

variable {n : ℕ} {R2 R1 : ℤ}

theorem signedLimb_done (small : |x| < 2 ^ (n - 1)) : signedLimb n x = .done x := by
  rw [abs_lt] at small
  exact if_pos ⟨small.1.le, small.2⟩

/-- The values of a turn, all below `B`; the last two matter where the new remainder is positive. -/
structure Fits (B q : ℤ) (s s' : Words) : Prop where
  quotient : |q| < B
  rr : |q * s.rr1| < B
  rr1 : |s'.rr1| < B
  aa : |q * s.aa1| < B
  aa1 : |s'.aa1| < B
  bb : |q * s.bb1| < B
  bb1 : |s'.bb1| < B
  left : |s.rr1 - s'.rr1| < B
  right_a : 1 ≤ s'.rr1 → |s'.aa1 - s.aa1| < B
  right_b : 1 ≤ s'.rr1 → |s'.bb1 - s.bb1| < B

theorem abs_le_abs_sub {x y : ℤ} (sign : σ = 1 ∨ σ = -1) (xs : σ * x ≤ 0) (ys : 0 ≤ σ * y) :
    |y| ≤ |x - y| := by
  rw [abs_of_sign sign ys, abs_sub_comm, abs_of_sign sign (by linarith)]
  linarith

theorem turn_fits (co : Cofactors σ s) (tr : Truncated R2 R1 s) (pos : 0 < s.rr1)
    (fits : R2 < B) (fits' : R1 < B) :
    Fits B (s.rr2 / s.rr1) s (divided s (s.rr2 / s.rr1)) := by
  have quotient := tr.one_le_quotient pos
  have co' := co.divided quotient
  have tr' := tr.divided pos
  have nonneg := tr'.nonneg
  have le := tr'.le
  have le' := tr.le
  have rr2' : (divided s (s.rr2 / s.rr1)).rr2 = s.rr1 := rfl
  have rr2_le : s.rr2 ≤ R2 := by
    refine le_of_total (y := s.rr1) (u := σ * s.aa1) (v := -(σ * s.aa2)) ?_ (by linarith) pos.le
      co.aa1 (by linarith [co.aa2])
    linarith [co.total_a tr]
  have rest : (divided s (s.rr2 / s.rr1)).rr1 = s.rr2 - s.rr2 / s.rr1 * s.rr1 := rfl
  have aa1_lt := (co'.abs_aa1_le tr' pos).trans_lt fits
  have bb1_lt := (co'.abs_bb1_le tr' pos).trans_lt fits'
  have upper := Int.ediv_le_self s.rr1 (show 0 ≤ s.rr2 by linarith)
  have product : 0 ≤ s.rr2 / s.rr1 * s.rr1 := mul_nonneg (by linarith) pos.le
  constructor
  case quotient => rw [abs_of_nonneg (by linarith)]; linarith
  case rr => rw [abs_of_nonneg product]; linarith
  case rr1 => rw [abs_of_nonneg nonneg]; linarith
  case aa =>
    refine (abs_le_abs_sub (x := s.aa2) co.sign co.aa2 ?_).trans_lt aa1_lt
    have := mul_nonneg (by linarith : 0 ≤ s.rr2 / s.rr1) (by linarith [co.aa1] : 0 ≤ σ * s.aa1)
    linarith
  case aa1 => exact aa1_lt
  case bb =>
    refine (abs_le_abs_sub (x := s.bb2) (σ := -σ) ?_ (by linarith [co.bb2]) ?_).trans_lt bb1_lt
    · rcases co.sign with rfl | rfl <;> norm_num
    · have := mul_nonneg (by linarith : 0 ≤ s.rr2 / s.rr1) (by linarith [co.bb1] : 0 ≤ -(σ * s.bb1))
      linarith
  case bb1 => exact bb1_lt
  case left => rw [abs_of_nonneg (by linarith)]; linarith
  case right_a => exact fun positive => (co'.abs_aa1_sub_le tr' pos positive).trans_lt fits
  case right_b => exact fun positive => (co'.abs_bb1_sub_le tr' pos positive).trans_lt fits'

/-- No word of a turn overflows, and the turn breaks unless the division step is exact. -/
theorem checkedTurn_spec (co : Cofactors (turnSign i) s) (tr : Truncated R2 R1 s) (pos : 0 < s.rr1)
    (fits : R2 < 2 ^ (n - 1)) (fits' : R1 < 2 ^ (n - 1)) :
    ¬Exactly i s (divided s (s.rr2 / s.rr1)) ∧ checkedTurn n i s = .done none ∨
      Exactly i s (divided s (s.rr2 / s.rr1)) ∧
        checkedTurn n i s = .done (some (divided s (s.rr2 / s.rr1))) := by
  have quotient := tr.one_le_quotient pos
  have fit := turn_fits co tr pos fits fits'
  have aa1_pos := (co.divided quotient).aa1
  have bb1_pos := co.divided_bb1 quotient
  have floor : s.rr2.tdiv s.rr1 = s.rr2 / s.rr1 :=
    Int.tdiv_eq_ediv_of_nonneg (by linarith [tr.le])
  have eq : divided s (s.rr2 / s.rr1) = ⟨s.rr1, s.rr2 - s.rr2 / s.rr1 * s.rr1, s.aa1,
    s.aa2 - s.rr2 / s.rr1 * s.aa1, s.bb1, s.bb2 - s.rr2 / s.rr1 * s.bb1⟩ := rfl
  rw [eq] at fit aa1_pos bb1_pos ⊢
  simp only [checkedTurn, floor, signedLimb_done fit.quotient, signedLimb_done fit.rr,
    signedLimb_done fit.rr1, signedLimb_done fit.aa, signedLimb_done fit.aa1, signedLimb_done fit.bb,
    signedLimb_done fit.bb1, Exec.done_bind, Exec.pure_eq, Exactly]
  by_cases odd : i % 2 = 1
  · have sign : turnSign i = -1 := if_pos odd
    rw [sign] at bb1_pos
    simp only [if_pos odd, signedLimb_done ((abs_neg _).trans_lt fit.bb1), Exec.done_bind]
    split
    · next low => exact .inl ⟨fun exact => absurd exact.1 (not_le.mpr low), rfl⟩
    · next low =>
      simp only [signedLimb_done fit.left, signedLimb_done (fit.right_a (by linarith)), Exec.done_bind]
      split
      · next apart => exact .inl ⟨fun exact => absurd exact.2 (not_le.mpr apart), rfl⟩
      · next exact => exact .inr ⟨⟨not_lt.mp low, not_lt.mp exact⟩, rfl⟩
  · have sign : turnSign i = 1 := if_neg odd
    rw [sign] at aa1_pos
    simp only [if_neg odd, signedLimb_done ((abs_neg _).trans_lt fit.aa1), Exec.done_bind]
    split
    · next low => exact .inl ⟨fun exact => absurd exact.1 (not_le.mpr low), rfl⟩
    · next low =>
      simp only [signedLimb_done fit.left, signedLimb_done (fit.right_b (by linarith)), Exec.done_bind]
      split
      · next apart => exact .inl ⟨fun exact => absurd exact.2 (not_le.mpr apart), rfl⟩
      · next exact => exact .inr ⟨⟨not_lt.mp low, not_lt.mp exact⟩, rfl⟩

/-- Division by division, words of two numbers and the cofactors that go with them. -/
def divisions (w : Words) (i : ℕ) : Words := (fun w => divided w (w.rr2 / w.rr1))^[i] w

/-- The words vouch for division `i`: the divisor is above `bb`, and Jebelean's condition holds. -/
def Vouches (bb : ℤ) (w : Words) (i : ℕ) : Prop :=
  bb < (divisions w i).rr1 ∧ Exactly i (divisions w i) (divisions w (i + 1))

/-- The inner loop makes the divisions that the words vouch for, up to the first that they do not. -/
theorem checkedWordLoop_vouches {bb : ℤ} {w : Words} (bbs : 0 ≤ bb) (fits : R2 < 2 ^ (n - 1))
    (fits' : R1 < 2 ^ (n - 1)) (fuel i : ℕ) (co : Cofactors (turnSign i) (divisions w i))
    (tr : Truncated R2 R1 (divisions w i)) {i' : ℕ} {w' : Words}
    (run : checkedWordLoop n bb fuel i (divisions w i) = .done (i', w')) :
    (∀ j, i ≤ j → j < i' → Vouches bb w j) ∧ ¬Vouches bb w i' := by
  induction fuel generalizing i with
  | zero => cases run
  | succ fuel ih =>
    have after : divisions w (i + 1) = divided (divisions w i) ((divisions w i).rr2 / (divisions w i).rr1) :=
      Function.iterate_succ_apply' ..
    rw [checkedWordLoop] at run
    by_cases go : (divisions w i).rr1 ≠ 0 ∧ (divisions w i).rr1 > bb
    · have pos : 0 < (divisions w i).rr1 := by omega
      rw [if_pos go] at run
      rcases checkedTurn_spec co tr pos fits fits' with ⟨inexact, stop⟩ | ⟨exactly, next⟩
      · rw [stop, Exec.done_bind] at run
        cases run
        rw [← after] at inexact
        exact ⟨fun j low high => by omega, fun vouches => inexact vouches.2⟩
      · rw [next, Exec.done_bind] at run
        rw [← after] at exactly run
        obtain ⟨rest, last⟩ := ih (i + 1)
          (by rw [turnSign_succ, after]; exact co.divided (tr.one_le_quotient pos))
          (by rw [after]; exact tr.divided pos) run
        refine ⟨fun j low high => ?_, last⟩
        rcases low.eq_or_lt with rfl | more
        · exact ⟨go.2, exactly⟩
        · exact rest j more high
    · rw [if_neg go] at run
      cases run
      exact ⟨fun j low high => by omega, fun vouches => go ⟨by have := vouches.1; omega, vouches.1⟩⟩

end Words

section Sequence

variable {n : ℕ} {L : ℤ} {s : State}

/-- `k` divisions from `s` are steps of Euclid's algorithm: every remainder is below the last. -/
def Descends (s : State) (k : ℕ) : Prop :=
  ∀ j < k, 0 ≤ (divisionStep^[j + 1] s).r1 ∧ (divisionStep^[j + 1] s).r1 < (divisionStep^[j] s).r1

structure Ordered (s : State) : Prop where
  nonneg : 0 ≤ s.r1
  le : s.r1 ≤ s.r2

theorem Ordered.divisionStep (ord : Ordered s) (pos : 0 < s.r1) :
    Ordered (divisionStep s) ∧ (Xgcd.divisionStep s).r1 < s.r1 := by
  have r1_eq : (Xgcd.divisionStep s).r1 = s.r2 % s.r1 :=
    Int.tmod_eq_emod_of_nonneg (ord.nonneg.trans ord.le)
  have low := Int.emod_nonneg s.r2 pos.ne'
  have high := Int.emod_lt_of_pos s.r2 pos
  have r2_eq : (Xgcd.divisionStep s).r2 = s.r1 := rfl
  exact ⟨⟨by omega, by omega⟩, by omega⟩

theorem Descends.ordered {k : ℕ} (ord : Ordered s) (desc : Descends s k) :
    Ordered (divisionStep^[k] s) := by
  induction k with
  | zero => exact ord
  | succ k ih =>
    obtain ⟨low, lt⟩ := desc k (Nat.lt_succ_self k)
    have before := ih fun j below => desc j (by omega)
    rw [Function.iterate_succ_apply']
    exact (before.divisionStep (by omega)).1

theorem Descends.add {k m : ℕ} (first : Descends s k) (rest : Descends (divisionStep^[k] s) m) :
    Descends s (k + m) := by
  intro j below
  rcases Nat.lt_or_ge j k with early | late
  · exact first j early
  · have later := rest (j - k) (by omega)
    rwa [← Function.iterate_add_apply, ← Function.iterate_add_apply, Nat.sub_add_cancel late,
      show j - k + 1 + k = j + 1 by omega] at later

theorem Descends.drop {k m : ℕ} (desc : Descends s m) (le : k ≤ m) : Descends (divisionStep^[k] s) (m - k) := by
  intro j below
  have later := desc (j + k) (by omega)
  rw [← Function.iterate_add_apply, ← Function.iterate_add_apply]
  rwa [show j + 1 + k = j + k + 1 by omega]

theorem Descends.le {k : ℕ} (desc : Descends s k) : (divisionStep^[k] s).r1 ≤ s.r1 := by
  induction k with
  | zero => exact le_rfl
  | succ k ih => exact (desc k (Nat.lt_succ_self k)).2.le.trans (ih fun j below => desc j (by omega))

theorem Descends.le_at {k m : ℕ} (desc : Descends s m) (le : k ≤ m) :
    (divisionStep^[m] s).r1 ≤ (divisionStep^[k] s).r1 := by
  have later := (desc.drop le).le
  rwa [← Function.iterate_add_apply, Nat.sub_add_cancel le] at later

theorem combined_divided {w : Words} (q : ℤ) (nonneg : 0 ≤ (combined (divided w q) s).r1)
    (lt : (combined (divided w q) s).r1 < (combined w s).r1)
    (le : (combined w s).r1 ≤ (combined w s).r2) :
    combined (divided w q) s = divisionStep (combined w s) := by
  have rest : (combined (divided w q) s).r1 = (combined w s).r2 - q * (combined w s).r1 := by
    simp only [combined, Xgcd.divided]; ring
  have pos : 0 < (combined w s).r1 := nonneg.trans_lt lt
  have quotient : (combined w s).r2 / (combined w s).r1 = q := by
    rw [rest] at nonneg lt
    exact Int.ediv_eq_iff_of_pos pos |>.mpr ⟨by linarith, by linarith⟩
  have r2s : 0 ≤ (combined w s).r2 := pos.le.trans le
  rw [divisionStep, Int.tdiv_eq_ediv_of_nonneg r2s, Int.tmod_eq_emod_of_nonneg r2s, Int.emod_def,
    quotient]
  simp only [combined, Xgcd.divided]
  congr 1 <;> ring

/-- The words after `i` turns and the divisions of `s` that they stand for. -/
structure Tracks (s : State) (i : ℕ) (w : Words) : Prop where
  same : combined w s = divisionStep^[i] s
  descends : Descends s i

theorem checkedWordLoop_spec {M R2 R1 e2 e1 bb : ℤ} (fits : R2 < 2 ^ (n - 1))
    (fits' : R1 < 2 ^ (n - 1)) (bbs : 0 ≤ bb) (e2s : 0 ≤ e2) (e2_lt : e2 < M) (e1s : 0 ≤ e1)
    (e1_lt : e1 < M) (r2 : s.r2 = M * R2 + e2) (r1 : s.r1 = M * R1 + e1) (ord : Ordered s)
    (fuel i : ℕ) (w : Words) (co : Cofactors (turnSign i) w) (tr : Truncated R2 R1 w)
    (ex : Exact (M * R2 + e2) (M * R1 + e1) bb i w) (tracks : Tracks s i w)
    (enough : w.rr1.natAbs < fuel) :
    ∃ i' w', checkedWordLoop n bb fuel i w = .done (i', w') ∧ Tracks s i' w' ∧
      (M = 1 → ∀ j, i ≤ j → j < i' → bb < (divisionStep^[j] s).r1) := by
  induction fuel generalizing i w with
  | zero => omega
  | succ fuel ih =>
    by_cases go : w.rr1 ≠ 0 ∧ w.rr1 > bb
    · have pos : 0 < w.rr1 := by omega
      simp only [checkedWordLoop, if_pos go]
      rcases checkedTurn_spec co tr pos fits fits' with ⟨-, stop⟩ | ⟨exactly, next⟩
      · exact ⟨i, w, by rw [stop, Exec.done_bind], tracks, fun _ j low high => by omega⟩
      · rw [next, Exec.done_bind]
        have ex' := ex.next co tr pos go.2 e2s e2_lt e1s e1_lt exactly
        have old : (combined w s).r1 = w.bb1 * (M * R2 + e2) + w.aa1 * (M * R1 + e1) := by
          simp only [combined, r2, r1]; ring
        have new : (combined (divided w (w.rr2 / w.rr1)) s).r1 =
            (divided w (w.rr2 / w.rr1)).bb1 * (M * R2 + e2) +
              (divided w (w.rr2 / w.rr1)).aa1 * (M * R1 + e1) := by
          simp only [combined, r2, r1]; ring
        have nonneg := ex'.nonneg (Nat.succ_pos i)
        have lt : (combined (divided w (w.rr2 / w.rr1)) s).r1 < (combined w s).r1 := by
          rw [new, old]; exact ex'.lt (Nat.succ_pos i)
        have le := (tracks.descends.ordered ord).le
        rw [← tracks.same] at le
        have step := combined_divided (w.rr2 / w.rr1) (by rw [new]; exact nonneg) lt le
        have same : combined (divided w (w.rr2 / w.rr1)) s = divisionStep^[i + 1] s := by
          rw [step, tracks.same, Function.iterate_succ_apply']
        have whole (one : M = 1) : bb < (divisionStep^[i] s).r1 := by
          rw [← tracks.same, old, one, one_mul, one_mul, show e2 = 0 by omega, show e1 = 0 by omega,
            add_zero, add_zero, ← tr.rr1]
          exact go.2
        have later := ih (i + 1) (divided w (w.rr2 / w.rr1)) ?_ (tr.divided pos) ex'
          ⟨same, fun j below => ?_⟩ ?_
        · obtain ⟨i', w', run, tracks', above⟩ := later
          refine ⟨i', w', run, tracks', fun one j low high => ?_⟩
          rcases low.eq_or_lt with rfl | more
          · exact whole one
          · exact above one j more high
        · rw [turnSign_succ]; exact co.divided (tr.one_le_quotient pos)
        · rcases Nat.lt_succ_iff_lt_or_eq.mp below with early | rfl
          · exact tracks.descends j early
          · rw [← same, ← tracks.same]
            exact ⟨by rw [new]; exact nonneg, lt⟩
        · have := Int.emod_lt_of_pos w.rr2 pos
          have := Int.emod_nonneg w.rr2 pos.ne'
          rw [Int.emod_def] at *
          simp only [Xgcd.divided, mul_comm (w.rr2 / w.rr1)]
          omega
    · exact ⟨i, w, by simp only [checkedWordLoop, if_neg go], tracks, fun _ j low high => by omega⟩

theorem signedLimb_shifted {x : ℤ} {k : ℕ} (xs : 0 ≤ x) (fits : x < 2 ^ (k + (n - 1))) :
    signedLimb n (x.natAbs / 2 ^ k : ℕ) = .done (x / 2 ^ k) := by
  have cast : ((x.natAbs / 2 ^ k : ℕ) : ℤ) = x / 2 ^ k := by
    push_cast
    rw [abs_of_nonneg xs]
  rw [cast]
  apply signedLimb_done
  rw [abs_of_nonneg (by positivity), Int.ediv_lt_iff_lt_mul (by positivity)]
  rwa [pow_add, mul_comm] at fits

/-- What the inner loop starts from, with the cofactors of no division. -/
def leadingWords (n : ℕ) (s : State) : Words :=
  ⟨s.r2 / 2 ^ limbShift n s, s.r1 / 2 ^ limbShift n s, 0, 1, 1, 0⟩

theorem leadingWords_cofactors (n : ℕ) (s : State) : Cofactors (turnSign 0) (leadingWords n s) := by
  constructor <;> simp [turnSign, leadingWords]

theorem leadingWords_truncated (n : ℕ) (ord : Ordered s) :
    Truncated (leadingWords n s).rr2 (leadingWords n s).rr1 (leadingWords n s) := by
  have positive : (0 : ℤ) < 2 ^ limbShift n s := by positivity
  exact ⟨by simp [leadingWords], by simp [leadingWords], Int.ediv_nonneg ord.nonneg positive.le,
    Int.ediv_le_ediv positive ord.le⟩

theorem leadingWords_lt (n : ℕ) (ord : Ordered s) :
    (leadingWords n s).rr2 < 2 ^ (n - 1) ∧ (leadingWords n s).rr1 < 2 ^ (n - 1) := by
  have positive : (0 : ℤ) < 2 ^ limbShift n s := by positivity
  have fits : s.r2 < 2 ^ (limbShift n s + (n - 1)) :=
    (lt_two_pow_sizeinbase2 (ord.nonneg.trans ord.le)).trans_le (pow_le_pow_right₀ (by norm_num) (by
      unfold limbShift; omega))
  have word_lt (x : ℤ) (small : x < 2 ^ (limbShift n s + (n - 1))) : x / 2 ^ limbShift n s < 2 ^ (n - 1) := by
    rw [Int.ediv_lt_iff_lt_mul positive]
    rwa [pow_add, mul_comm] at small
  exact ⟨word_lt _ fits, word_lt _ (ord.le.trans_lt fits)⟩

theorem limbRun_eq (n : ℕ) (ord : Ordered s) (Ls : 0 ≤ L) (above : L < s.r1) :
    limbRun n L s = checkedWordLoop n (L / 2 ^ limbShift n s) ((leadingWords n s).rr1.natAbs + 1) 0
      (leadingWords n s) := by
  have r2s : 0 ≤ s.r2 := ord.nonneg.trans ord.le
  have fits2 : s.r2 < 2 ^ (limbShift n s + (n - 1)) :=
    (lt_two_pow_sizeinbase2 r2s).trans_le (pow_le_pow_right₀ (by norm_num) (by
      unfold limbShift; omega))
  have fits1 : s.r1 < 2 ^ (limbShift n s + (n - 1)) := ord.le.trans_lt fits2
  simp only [limbRun, limbWords, signedLimb_shifted r2s fits2, signedLimb_shifted ord.nonneg fits1,
    signedLimb_shifted Ls (above.trans fits1), Exec.done_bind, Exec.pure_eq, leadingWords]

/-- The inner loop ends without a fault, and what it found are divisions of the remainders. If no bit
was shifted out, none of them divides by a remainder within the bound. -/
theorem limbRun_spec (ord : Ordered s) (Ls : 0 ≤ L) (above : L < s.r1) :
    ∃ i w, limbRun n L s = .done (i, w) ∧ Tracks s i w ∧
      (limbShift n s = 0 → ∀ j < i, L < (divisionStep^[j] s).r1) := by
  have positive : (0 : ℤ) < 2 ^ limbShift n s := by positivity
  obtain ⟨fits2, fits1⟩ := leadingWords_lt n ord
  have split2 := Int.mul_ediv_add_emod s.r2 (2 ^ limbShift n s)
  have split1 := Int.mul_ediv_add_emod s.r1 (2 ^ limbShift n s)
  obtain ⟨i, w, run, tracks, whole⟩ := checkedWordLoop_spec fits2 fits1
    (Int.ediv_nonneg Ls positive.le) (Int.emod_nonneg s.r2 positive.ne') (Int.emod_lt_of_pos s.r2 positive)
    (Int.emod_nonneg s.r1 positive.ne') (Int.emod_lt_of_pos s.r1 positive) split2.symm split1.symm ord
    ((leadingWords n s).rr1.natAbs + 1) 0 _ (leadingWords_cofactors n s) (leadingWords_truncated n ord)
    ⟨by simp [leadingWords], by simp [leadingWords], by simp, by simp, by simp⟩
    ⟨by simp [combined, leadingWords], fun j below => absurd below (Nat.not_lt_zero j)⟩ (Nat.lt_succ_self _)
  refine ⟨i, w, by rw [limbRun_eq n ord Ls above, run], tracks, fun zero j below => ?_⟩
  rw [zero, pow_zero, Int.ediv_one] at whole
  exact whole rfl j (Nat.zero_le j) below

/-- The number of turns that the inner loop makes from `s`. -/
def limbTurns (n : ℕ) (L : ℤ) (s : State) : ℕ :=
  match limbRun n L s with
  | .done (i, _) => i
  | _ => 0

/-- The leading words of `s` vouch for the division `i` of Euclid's algorithm from `s`. -/
def Vouched (n : ℕ) (L : ℤ) (s : State) (i : ℕ) : Prop := Vouches (L / 2 ^ limbShift n s) (leadingWords n s) i

/-- The inner loop makes as many turns as the leading words vouch for. -/
theorem limbTurns_vouches (ord : Ordered s) (Ls : 0 ≤ L) (above : L < s.r1) :
    (∀ i < limbTurns n L s, Vouched n L s i) ∧ ¬Vouched n L s (limbTurns n L s) := by
  obtain ⟨i, w, run, -, -⟩ := limbRun_spec (n := n) ord Ls above
  have turns : limbTurns n L s = i := by simp only [limbTurns, run]
  obtain ⟨fits2, fits1⟩ := leadingWords_lt n ord
  rw [limbRun_eq n ord Ls above] at run
  obtain ⟨made, last⟩ := checkedWordLoop_vouches (Int.ediv_nonneg Ls (by positivity)) fits2 fits1 _ 0
    (leadingWords_cofactors n s) (leadingWords_truncated n ord) run
  rw [turns]
  exact ⟨fun j below => made j (Nat.zero_le j) below, last⟩

/-- One pass of the outer loop: as many divisions as the inner loop made turns, or one. -/
theorem limbStep_spec (ord : Ordered s) (Ls : 0 ≤ L) (above : L < s.r1) :
    limbStep n L s = .done (divisionStep^[max 1 (limbTurns n L s)] s) ∧
      Descends s (max 1 (limbTurns n L s)) := by
  obtain ⟨i, w, run, tracks, -⟩ := limbRun_spec (n := n) ord Ls above
  have turns : limbTurns n L s = i := by simp only [limbTurns, run]
  rw [turns]
  simp only [limbStep, run, Exec.done_bind, Exec.pure_eq]
  rcases Nat.eq_zero_or_pos i with rfl | some
  · obtain ⟨next, lt⟩ := ord.divisionStep (by omega)
    refine ⟨by simp, fun j below => ?_⟩
    obtain rfl : j = 0 := by omega
    exact ⟨next.nonneg, lt⟩
  · rw [max_eq_right some, if_neg some.ne']
    refine ⟨?_, tracks.descends⟩
    have after := tracks.descends.ordered ord
    rw [← tracks.same] at after ⊢
    have keep1 : ¬(combined w s).r1 < 0 := not_lt.mpr after.nonneg
    have keep2 : ¬(combined w s).r2 < 0 := not_lt.mpr (after.nonneg.trans after.le)
    simp only [combined] at keep1 keep2
    simp only [wordStep, combined, if_neg keep1, if_neg keep2]

/-- The stages of Euclid's algorithm at which leading words are taken: the first one, and behind each
of them the one up to which its words vouch for the divisions, or the next one if they vouch for none. -/
inductive Block (n : ℕ) (L : ℤ) (s : State) : ℕ → Prop
  | first : Block n L s 0
  | next {j i : ℕ} : Block n L s j → L < (divisionStep^[j] s).r1 →
      (∀ k < i, Vouched n L (divisionStep^[j] s) k) → ¬Vouched n L (divisionStep^[j] s) i →
      Block n L s (j + max 1 i)

/-- The states in which the outer loop tests its condition. -/
def Visits (n : ℕ) (L : ℤ) : State → State → Prop :=
  Relation.ReflTransGen fun s s' => L < s.r1 ∧ limbStep n L s = .done s'

/-- A turn of the inner loop from `s` divides by a remainder that is within the bound already:
its leading word is above the leading word of the bound. -/
def Passes (n : ℕ) (L : ℤ) (s : State) : Prop :=
  ∃ j < limbTurns n L s, (divisionStep^[j] s).r1 ≤ L

theorem forall_lt_add {P : ℕ → Prop} (k m : ℕ) :
    (∀ j < k + m, P j) ↔ (∀ j < k, P j) ∧ ∀ j < m, P (j + k) := by
  constructor
  · exact fun all => ⟨fun j below => all j (by omega), fun j below => all (j + k) (by omega)⟩
  · rintro ⟨first, rest⟩ j below
    rcases Nat.lt_or_ge j k with early | late
    · exact first j early
    · rw [← Nat.sub_add_cancel late]
      exact rest (j - k) (by omega)

theorem above_iff_not_passes (above : L < s.r1) :
    (∀ j < max 1 (limbTurns n L s), L < (divisionStep^[j] s).r1) ↔ ¬Passes n L s := by
  constructor
  · rintro all ⟨j, below, low⟩
    exact absurd (all j (by omega)) (not_lt.mpr low)
  · intro none j below
    rcases Nat.lt_or_ge j (limbTurns n L s) with turn | stop
    · exact not_le.mp fun low => none ⟨j, turn, low⟩
    · obtain rfl : j = 0 := by omega
      exact above

theorem limbShift_eq_zero (wide : 1 < n) (ord : Ordered s) (fits : s.r2 < 2 ^ (n - 1)) : limbShift n s = 0 := by
  have r1s := ord.nonneg
  have le := ord.le
  have size {x : ℤ} (xs : 0 ≤ x) (small : x < 2 ^ (n - 1)) : mpzSizeinbase2 x ≤ n - 1 := by
    rw [← natAbs_lt_iff_sizeinbase2_le (by omega)]
    zify
    rwa [abs_of_nonneg xs]
  have second := size (r1s.trans le) fits
  have first := size r1s (le.trans_lt fits)
  unfold limbShift
  omega

theorem not_passes_of_fits (wide : 1 < n) (ord : Ordered s) (Ls : 0 ≤ L) (above : L < s.r1)
    (fits : s.r2 < 2 ^ (n - 1)) : ¬Passes n L s := by
  obtain ⟨i, w, run, -, whole⟩ := limbRun_spec (n := n) ord Ls above
  have turns : limbTurns n L s = i := by simp only [limbTurns, run]
  rintro ⟨j, below, low⟩
  rw [turns] at below
  exact absurd (whole (limbShift_eq_zero wide ord fits) j below) (not_lt.mpr low)

theorem visits_ordered (ord : Ordered s) (Ls : 0 ≤ L) {t : State} (visit : Visits n L s t) :
    Ordered t ∧ t.r2 ≤ s.r2 := by
  induction visit with
  | refl => exact ⟨ord, le_rfl⟩
  | @tail t u _ last ih =>
    obtain ⟨above, step⟩ := last
    obtain ⟨ord', le⟩ := ih
    obtain ⟨run, desc⟩ := limbStep_spec (n := n) ord' Ls above
    obtain rfl := Exec.done.inj (run.symm.trans step)
    obtain ⟨k, hk⟩ : ∃ k, max 1 (limbTurns n L t) = k + 1 := ⟨max 1 (limbTurns n L t) - 1, by omega⟩
    have ord'' := desc.ordered ord'
    rw [hk] at desc ord'' ⊢
    have before : Descends t k := fun j below => desc j (by omega)
    have same : (divisionStep^[k + 1] t).r2 = (divisionStep^[k] t).r1 := by
      rw [Function.iterate_succ_apply']
      rfl
    exact ⟨ord'', by rw [same]; exact (before.le.trans ord'.le).trans le⟩

/-- The outer loop only visits stages of Euclid's algorithm. -/
theorem visits_stage (ord : Ordered s) (Ls : 0 ≤ L) {t : State} (visit : Visits n L s t) :
    ∃ j, Block n L s j ∧ Descends s j ∧ t = divisionStep^[j] s := by
  induction visit with
  | refl => exact ⟨0, .first, fun j below => absurd below (Nat.not_lt_zero j), rfl⟩
  | tail _ last ih =>
    obtain ⟨above, step⟩ := last
    obtain ⟨j, block, desc, rfl⟩ := ih
    have ord' := desc.ordered ord
    obtain ⟨run, desc'⟩ := limbStep_spec (n := n) ord' Ls above
    obtain rfl := Exec.done.inj (run.symm.trans step)
    obtain ⟨made, last⟩ := limbTurns_vouches (n := n) ord' Ls above
    exact ⟨_, block.next above made last, desc.add desc', by rw [add_comm, Function.iterate_add_apply]⟩

theorem Block.visits {j : ℕ} (block : Block n L s j) (ord : Ordered s) (Ls : 0 ≤ L) :
    Visits n L s (divisionStep^[j] s) := by
  induction block with
  | first => exact .refl
  | next _ above made last ih =>
    obtain ⟨ord', -⟩ := visits_ordered ord Ls ih
    obtain ⟨made', last'⟩ := limbTurns_vouches (n := n) ord' Ls above
    rcases lt_trichotomy _ (limbTurns n L _) with less | same | more
    · exact absurd (made' _ less) last
    · rw [add_comm, Function.iterate_add_apply, same]
      exact ih.tail ⟨above, (limbStep_spec ord' Ls above).1⟩
    · exact absurd (made _ more) last'

theorem visits_iff {P : State → Prop} {s' : State} (above : L < s.r1)
    (step : limbStep n L s = .done s') :
    (∀ t, Visits n L s t → P t) ↔ P s ∧ ∀ t, Visits n L s' t → P t := by
  constructor
  · exact fun all => ⟨all s .refl, fun t visit => all t (.head ⟨above, step⟩ visit)⟩
  · rintro ⟨here, rest⟩ t visit
    rcases Relation.ReflTransGen.cases_head visit with rfl | ⟨s'', ⟨-, step'⟩, visit⟩
    · exact here
    · obtain rfl := Exec.done.inj (step.symm.trans step')
      exact rest t visit

/-- The outer loop makes divisions until a remainder is within the bound; it makes more of them
exactly if an inner loop passed the bound. -/
theorem limbLoop_spec (fuel : ℕ) (s : State) (ord : Ordered s) (Ls : 0 ≤ L)
    (enough : s.r1.natAbs < fuel) :
    ∃ m, limbLoop n L fuel s = .done (divisionStep^[m] s) ∧ Descends s m ∧
      (divisionStep^[m] s).r1 ≤ L ∧ ((∀ j < m, L < (divisionStep^[j] s).r1) ↔
        ∀ t, Visits n L s t → L < t.r1 → ¬Passes n L t) := by
  induction fuel generalizing s with
  | zero => omega
  | succ fuel ih =>
    by_cases go : s.r1 ≠ 0 ∧ s.r1 > L
    · obtain ⟨step, desc⟩ := limbStep_spec (n := n) ord Ls go.2
      have turns : 1 ≤ max 1 (limbTurns n L s) := le_max_left ..
      obtain ⟨k, hk⟩ : ∃ k, k = max 1 (limbTurns n L s) := ⟨_, rfl⟩
      have first := above_iff_not_passes (n := n) go.2
      rw [← hk] at step desc first turns
      have ord' := desc.ordered ord
      have := ord.nonneg
      have := ord'.nonneg
      have lower : (divisionStep^[k] s).r1 < s.r1 := by
        have later : Descends (divisionStep^[1] s) (k - 1) := fun j below => by
          have := desc (j + 1) (by omega)
          rwa [← Function.iterate_add_apply, ← Function.iterate_add_apply]
        have := later.le
        rw [← Function.iterate_add_apply, Nat.sub_add_cancel turns] at this
        exact this.trans_lt (desc 0 (by omega)).2
      obtain ⟨m, run, desc', low, rest⟩ := ih _ ord' (by omega)
      refine ⟨k + m, ?_, desc.add desc', ?_, ?_⟩
      · rw [limbLoop, if_pos go, step, Exec.done_bind, run, ← Function.iterate_add_apply, add_comm]
      · rwa [add_comm, Function.iterate_add_apply]
      · simp only [← Function.iterate_add_apply] at rest
        rw [forall_lt_add, first, rest, visits_iff go.2 step]
        exact ⟨fun ⟨here, later⟩ => ⟨fun _ => here, later⟩, fun ⟨here, later⟩ => ⟨here go.2, later⟩⟩
    · have low : s.r1 ≤ L := by
        have := ord.nonneg
        omega
      refine ⟨0, by simp only [limbLoop, if_neg go, Function.iterate_zero, id], ?_, low, ?_⟩
      · exact fun j below => absurd below (Nat.not_lt_zero j)
      · refine ⟨fun _ t visit above => ?_, fun _ j below => absurd below (Nat.not_lt_zero j)⟩
        rcases Relation.ReflTransGen.cases_head visit with rfl | ⟨s'', ⟨above', -⟩, -⟩
        · omega
        · omega

end Sequence

section Cofactor

variable {s : State}

/-- The signs of the cofactors, which alternate from one remainder to the next. -/
structure Alternates (τ : ℤ) (s : State) : Prop where
  sign : τ = 1 ∨ τ = -1
  co1 : 1 ≤ -(τ * s.co1)
  co2 : 0 ≤ τ * s.co2

theorem Alternates.divisionStep (alt : Alternates τ s) (ord : Ordered s) (pos : 0 < s.r1) :
    Alternates (-τ) (divisionStep s) ∧
      -(-τ * (Xgcd.divisionStep s).co1) = τ * s.co2 + -(τ * s.co1) * (s.r2 / s.r1) ∧
      1 ≤ s.r2 / s.r1 := by
  have quotient : 1 ≤ s.r2 / s.r1 := by
    rw [Int.le_ediv_iff_mul_le pos]; linarith [ord.le]
  have r2s : 0 ≤ s.r2 := ord.nonneg.trans ord.le
  have grows : -(-τ * (Xgcd.divisionStep s).co1) = τ * s.co2 + -(τ * s.co1) * (s.r2 / s.r1) := by
    simp only [Xgcd.divisionStep, Int.tdiv_eq_ediv_of_nonneg r2s]; ring
  have product : -(τ * s.co1) * 1 ≤ -(τ * s.co1) * (s.r2 / s.r1) :=
    mul_le_mul_of_nonneg_left quotient (by linarith [alt.co1])
  refine ⟨⟨?_, ?_, ?_⟩, grows, quotient⟩
  · rcases alt.sign with rfl | rfl <;> norm_num
  · rw [grows]; linarith [alt.co1, alt.co2]
  · simp only [Xgcd.divisionStep]; linarith [alt.co1]

theorem Descends.pos {k : ℕ} (desc : Descends s (k + 1)) : 0 < (divisionStep^[k] s).r1 := by
  obtain ⟨low, lt⟩ := desc k (Nat.lt_succ_self k)
  omega

theorem Descends.le_of_le {k m : ℕ} (desc : Descends s m) (le : k ≤ m) : Descends s k :=
  fun j below => desc j (by omega)

theorem Descends.alternates {k : ℕ} (desc : Descends s k) (ord : Ordered s) (alt : Alternates τ s) :
    Alternates (τ * (-1) ^ k) (divisionStep^[k] s) := by
  induction k with
  | zero => simpa using alt
  | succ k ih =>
    have before := desc.le_of_le (Nat.le_succ k)
    rw [Function.iterate_succ_apply', pow_succ, ← mul_assoc, mul_neg_one]
    exact ((ih before).divisionStep (before.ordered ord) desc.pos).1

/-- From the second division on the cofactors grow. -/
theorem Descends.cofactor_lt {d : ℕ} (desc : Descends s (d + 2)) (ord : Ordered s)
    (alt : Alternates τ s) :
    -(τ * s.co1) < -(τ * (-1) ^ (d + 2) * (divisionStep^[d + 2] s).co1) := by
  induction d with
  | zero =>
    have first := desc.le_of_le (show 1 ≤ 0 + 2 by omega)
    obtain ⟨alt', -, -⟩ := alt.divisionStep ord (desc.le_of_le (show 0 + 1 ≤ 0 + 2 by omega)).pos
    obtain ⟨-, grows, quotient⟩ := alt'.divisionStep (first.ordered ord) (Descends.pos desc)
    have co2 : (Xgcd.divisionStep s).co2 = s.co1 := rfl
    rw [co2] at grows
    have product := mul_le_mul_of_nonneg_left quotient (by linarith [alt'.co1] :
      0 ≤ -(-τ * (Xgcd.divisionStep s).co1))
    have eq : -(τ * (-1) ^ (0 + 2) * (Xgcd.divisionStep^[0 + 2] s).co1) =
        -(- -τ * (Xgcd.divisionStep (Xgcd.divisionStep s)).co1) := by
      simp only [Nat.zero_add, Function.iterate_succ_apply', Function.iterate_zero, id]; ring
    rw [eq, grows]
    linarith [alt'.co1]
  | succ d ih =>
    have before := desc.le_of_le (show d + 2 ≤ d + 1 + 2 by omega)
    have alt' := before.alternates ord alt
    obtain ⟨-, grows, quotient⟩ := alt'.divisionStep (before.ordered ord) (Descends.pos desc)
    have product := mul_le_mul_of_nonneg_left quotient (by linarith [alt'.co1] :
      0 ≤ -(τ * (-1) ^ (d + 2) * (Xgcd.divisionStep^[d + 2] s).co1))
    have eq : -(τ * (-1) ^ (d + 1 + 2) * (Xgcd.divisionStep^[d + 1 + 2] s).co1) =
        -(-(τ * (-1) ^ (d + 2)) * (Xgcd.divisionStep (Xgcd.divisionStep^[d + 2] s)).co1) := by
      rw [show d + 1 + 2 = d + 2 + 1 by omega, Function.iterate_succ_apply']; ring
    rw [eq, grows]
    linarith [ih before, alt'.co2]

/-- Different remainders have different cofactors. -/
theorem Descends.cofactor_inj {k m : ℕ} (desc : Descends s m) (ord : Ordered s)
    (alt : Alternates τ s) (le : k ≤ m) :
    (divisionStep^[m] s).co1 = (divisionStep^[k] s).co1 ↔ m = k := by
  refine ⟨fun same => ?_, fun eq => by rw [eq]⟩
  by_contra ne
  have ordk := (desc.le_of_le le).ordered ord
  have altk := (desc.le_of_le le).alternates ord alt
  have altm := desc.alternates ord alt
  have desck := desc.drop le
  rcases Nat.lt_or_ge m (k + 2) with next | later
  · obtain rfl : m = k + 1 := by omega
    have one := altk.co1
    have two := altm.co1
    rw [same, pow_succ] at two
    linarith
  · obtain ⟨d, hd⟩ : ∃ d, m - k = d + 2 := ⟨m - k - 2, by omega⟩
    rw [hd] at desck
    have grows := desck.cofactor_lt ordk altk
    rw [← Function.iterate_add_apply, show d + 2 + k = m by omega, same] at grows
    have power : ((-1 : ℤ) ^ (d + 2) = 1 ∨ (-1 : ℤ) ^ (d + 2) = -1) := neg_one_pow_eq_or ℤ (d + 2)
    rcases power with one | minus
    · rw [one] at grows; linarith
    · rw [minus] at grows; linarith [altk.co1]

end Cofactor

section Wrapped

theorem word_of_signedLimb (run : signedLimb 64 x = .done y) : word x = y := by
  unfold signedLimb at run
  split at run
  · next fits =>
    obtain rfl := Exec.done.inj run
    unfold word gmpLimbBits
    apply Int.bmod_eq_of_le <;> norm_num at fits ⊢ <;> omega
  · cases run

theorem turn_of_checked {o : Option Words} (run : checkedTurn 64 i s = .done o) : turn i s = o := by
  obtain ⟨qq, hqq, run⟩ := Exec.bind_eq_done.mp run
  obtain ⟨p1, hp1, run⟩ := Exec.bind_eq_done.mp run
  obtain ⟨t1, ht1, run⟩ := Exec.bind_eq_done.mp run
  obtain ⟨p2, hp2, run⟩ := Exec.bind_eq_done.mp run
  obtain ⟨t2, ht2, run⟩ := Exec.bind_eq_done.mp run
  obtain ⟨p3, hp3, run⟩ := Exec.bind_eq_done.mp run
  obtain ⟨t3, ht3, run⟩ := Exec.bind_eq_done.mp run
  obtain ⟨low, hlow, run⟩ := Exec.bind_eq_done.mp run
  have exact {x y : ℤ} (run : signedLimb 64 x = .done y) : y = x := by
    unfold signedLimb at run
    split at run
    · exact (Exec.done.inj run).symm
    · cases run
  have hqq := word_of_signedLimb hqq
  have ht1 := word_of_signedLimb ht1
  have ht2 := word_of_signedLimb ht2
  have ht3 := word_of_signedLimb ht3
  rw [exact hp1] at ht1
  rw [exact hp2] at ht2
  rw [exact hp3] at ht3
  simp only [turn, hqq, ht1, ht2, ht3]
  by_cases odd : i % 2 = 1
  all_goals
    simp only [odd, ↓reduceIte] at hlow run ⊢
    rw [word_of_signedLimb hlow]
    split at run
    · next small => rw [if_pos (.inl small)]; exact Exec.done.inj run
    · next large =>
      obtain ⟨left, hleft, run⟩ := Exec.bind_eq_done.mp run
      obtain ⟨right, hright, run⟩ := Exec.bind_eq_done.mp run
      rw [word_of_signedLimb hleft, word_of_signedLimb hright]
      simp only [large, false_or]
      exact Exec.done.inj run

theorem wordLoop_of_checked {bb : ℤ} (fuel i : ℕ) (s : Words) {r : ℕ × Words}
    (run : checkedWordLoop 64 bb fuel i s = .done r) : wordLoop bb fuel i s = .done r := by
  induction fuel generalizing i s with
  | zero => cases run
  | succ fuel ih =>
    simp only [checkedWordLoop, wordLoop] at run ⊢
    split_ifs at run ⊢ with go
    · obtain ⟨o, step, run⟩ := Exec.bind_eq_done.mp run
      rw [turn_of_checked step]
      cases o with
      | none => exact run
      | some s' => exact ih _ _ run
    · exact run

theorem step_of_limbStep {L : ℤ} {s s' : State} (run : limbStep 64 L s = .done s') :
    step L s = .done s' := by
  obtain ⟨⟨i, w⟩, inner, run⟩ := Exec.bind_eq_done.mp run
  obtain ⟨start, words, inner⟩ := Exec.bind_eq_done.mp inner
  obtain ⟨bb, hbb, inner⟩ := Exec.bind_eq_done.mp inner
  obtain ⟨rr2, hrr2, words⟩ := Exec.bind_eq_done.mp words
  obtain ⟨rr1, hrr1, words⟩ := Exec.bind_eq_done.mp words
  obtain rfl := Exec.done.inj words
  have same : limbShift 64 s = shift s := rfl
  rw [same] at hbb hrr2 hrr1
  simp only [step, extractUwordFromShift, word_of_signedLimb hbb, word_of_signedLimb hrr2,
    word_of_signedLimb hrr1, wordLoop_of_checked _ _ _ inner, Exec.done_bind]
  exact run

theorem loop_of_limbLoop {L : ℤ} (fuel : ℕ) (s : State) {s' : State}
    (run : limbLoop 64 L fuel s = .done s') : loop L fuel s = .done s' := by
  induction fuel generalizing s with
  | zero => cases run
  | succ fuel ih =>
    simp only [limbLoop, loop] at run ⊢
    split_ifs at run ⊢ with go
    · obtain ⟨t, step, run⟩ := Exec.bind_eq_done.mp run
      rw [step_of_limbStep step, Exec.done_bind]
      exact ih _ run
    · exact run

end Wrapped

/-- The numbers and cofactors before the first division. -/
def start (r2 r1 : ℤ) : State := ⟨0, -1, r2, r1⟩

theorem start_ordered {b N : ℤ} (bs : 0 ≤ b) (le : b ≤ N) : Ordered (start N b) := ⟨bs, le⟩

theorem start_alternates (N b : ℤ) : Alternates 1 (start N b) := by
  constructor <;> simp [start]

end Xgcd

open Xgcd

variable {N b L : ℤ}

/-- For limbs of every size the result is a stage of Euclid's algorithm on the arguments. -/
theorem mpzXgcdPartialLimb_spec (n : ℕ) (bs : 0 ≤ b) (le : b ≤ N) (Ls : 0 ≤ L) :
    ∃ m, mpzXgcdPartialLimb n N b L = .done (divisionStep^[m] (start N b)) ∧
      Descends (start N b) m ∧ (divisionStep^[m] (start N b)).r1 ≤ L ∧
      ((∀ j < m, L < (divisionStep^[j] (start N b)).r1) ↔
        ∀ t, Visits n L (start N b) t → L < t.r1 → ¬Passes n L t) := by
  have ord := start_ordered bs le
  obtain ⟨m, run, desc, low, rest⟩ := limbLoop_spec (n := n) (b.natAbs + 1) (start N b) ord Ls
    (Nat.lt_succ_self _)
  have after := desc.ordered ord
  have keep : ¬(divisionStep^[m] (start N b)).r2 < 0 := not_lt.mpr (after.nonneg.trans after.le)
  refine ⟨m, ?_, desc, low, rest⟩
  change (limbLoop n L (b.natAbs + 1) (start N b) >>= _) = _
  rw [run, Exec.done_bind, if_neg keep]
  rfl

theorem mpzXgcdPartial_of_limb {s : State} (run : mpzXgcdPartialLimb 64 N b L = .done s) :
    mpzXgcdPartial N b L = .done s := by
  obtain ⟨t, inner, run⟩ := Exec.bind_eq_done.mp run
  rw [mpzXgcdPartial, loop_of_limbLoop _ _ inner, Exec.done_bind]
  exact run

/-- The remainders keep the greatest common divisor: the cofactors have determinant one. -/
theorem Xgcd.Inv.gcd_eq {τ : ℤ} {s : State} (inv : Inv N b L τ s) (pos : 0 < N) :
    Int.gcd s.r1 s.r2 = Int.gcd b N := by
  obtain ⟨P, hP⟩ := inv.cong1
  obtain ⟨Q, hQ⟩ := inv.cong2
  have square : τ * τ = 1 := by rcases inv.sign with rfl | rfl <;> norm_num
  have det : P * s.co2 - Q * s.co1 = τ := by
    apply mul_left_cancel₀ pos.ne'
    linear_combination inv.total - s.co2 * hP + s.co1 * hQ
  apply Nat.dvd_antisymm
  · apply Int.natCast_dvd_natCast.mp
    have d1 := Int.gcd_dvd_left s.r1 s.r2
    have d2 := Int.gcd_dvd_right s.r1 s.r2
    refine Int.dvd_coe_gcd ?_ ?_
    · have eq : b = τ * (s.r1 * Q - s.r2 * P) := by
        linear_combination -b * square - τ * Q * hP + τ * P * hQ - τ * b * det
      rw [eq]
      exact Dvd.dvd.mul_left (dvd_sub (d1.mul_right _) (d2.mul_right _)) _
    · have eq : N = τ * (s.co2 * s.r1 - s.co1 * s.r2) := by
        linear_combination -τ * inv.total - N * square
      rw [eq]
      exact Dvd.dvd.mul_left (dvd_sub (d1.mul_left _) (d2.mul_left _)) _
  · apply Int.natCast_dvd_natCast.mp
    have d1 := Int.gcd_dvd_left b N
    have d2 := Int.gcd_dvd_right b N
    refine Int.dvd_coe_gcd ?_ ?_
    · rw [show s.r1 = N * P - s.co1 * b by linarith]
      exact dvd_sub (d2.mul_right _) (d1.mul_left _)
    · rw [show s.r2 = N * Q - s.co2 * b by linarith]
      exact dvd_sub (d2.mul_right _) (d1.mul_left _)

/-- The contract of `mpz_xgcd_partial`, on 64-bit limbs none of whose values overflows. -/
theorem mpzXgcdPartial_contract {r1 r2 : ℤ} (nonneg : 0 ≤ r1) (le : r1 ≤ r2) (Ls : 0 ≤ L)
    (above : L < r2) :
    ∃ s : State, mpzXgcdPartial r2 r1 L = .done s ∧ mpzXgcdPartialLimb 64 r2 r1 L = .done s ∧
      0 ≤ s.r1 ∧ s.r1 ≤ L ∧ 0 < s.r2 ∧ Int.gcd s.r1 s.r2 = Int.gcd r1 r2 ∧
      r2 ∣ s.r1 + s.co1 * r1 ∧ r2 ∣ s.r2 + s.co2 * r1 ∧ s.co1 ≠ 0 ∧
      (s.co1 * s.co2 < 0 ∨ s.co2 = 0) ∧ |s.co1| * s.r2 + |s.co2| * s.r1 = r2 ∧
      |s.co1| * (L + 1) ≤ r2 := by
  obtain ⟨τ, s, run, inv, low⟩ := mpzXgcdPartial_spec nonneg le Ls above
  obtain ⟨m, run', -⟩ := mpzXgcdPartialLimb_spec 64 nonneg le Ls
  have same := Exec.done.inj (run.symm.trans (mpzXgcdPartial_of_limb run'))
  have pos : 0 < r2 := by omega
  have square : τ * τ = 1 := by rcases inv.sign with rfl | rfl <;> norm_num
  have co1 := inv.co1
  have co2 := inv.co2
  have size1 : |s.co1| = -(τ * s.co1) := by
    rw [← abs_neg, abs_of_sign inv.sign (by linarith)]; ring
  have size2 : |s.co2| = τ * s.co2 := abs_of_sign inv.sign co2
  have total : |s.co1| * s.r2 + |s.co2| * s.r1 = r2 := by
    rw [size1, size2]
    linear_combination τ * inv.total + r2 * square
  refine ⟨s, run, by rw [run', same], inv.nonneg, low, ?_, inv.gcd_eq pos, inv.cong1, inv.cong2, ?_,
    ?_, total, by rw [size1]; exact inv.small⟩
  · -- a remainder zero would leave nothing of `r2` in the sum
    refine lt_of_le_of_ne (inv.nonneg.trans inv.le) fun zero => ?_
    have both : s.r1 = 0 := le_antisymm (zero ▸ inv.le) inv.nonneg
    rw [← zero, both] at total
    omega
  · intro zero
    rw [zero] at co1
    omega
  · rcases eq_or_ne s.co2 0 with zero | some
    · exact .inr zero
    · left
      rcases inv.sign with rfl | rfl
      · exact mul_neg_of_neg_of_pos (by omega) (by omega)
      · exact mul_neg_of_pos_of_neg (by omega) (by omega)

/-- A 70-bit pair, which takes passes with a shift. -/
theorem mpzXgcdPartial_contract_shifted :
    (0 : ℤ) ≤ 1131034257156268161106 ∧ (1131034257156268161106 : ℤ) ≤ 1150325635519743374004 ∧
    (33916450215 : ℤ) < 1150325635519743374004 ∧
    ∃ s : State, mpzXgcdPartial 1150325635519743374004 1131034257156268161106 33916450215 = .done s ∧
      s.r1 ≤ 33916450215 ∧ |s.co1| * (33916450215 + 1) ≤ 1150325635519743374004 := by
  obtain ⟨s, run, -, -, low, -, -, -, -, -, -, -, small⟩ :=
    mpzXgcdPartial_contract (show (0 : ℤ) ≤ 1131034257156268161106 by norm_num)
      (show (1131034257156268161106 : ℤ) ≤ 1150325635519743374004 by norm_num)
      (show (0 : ℤ) ≤ 33916450215 by norm_num) (by norm_num)
  exact ⟨by norm_num, by norm_num, by norm_num, s, run, low, small⟩

end ChiaVdf
