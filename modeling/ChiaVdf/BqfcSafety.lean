import ChiaVdf.FormEncoding

/-! Decoding for any negative discriminant. The bytes are not trusted: the decoded `b` may be far
larger than `a` when the canonical encoding is computed from it, and nothing says that the
discriminant is a square modulo `a`. -/
namespace ChiaVdf

namespace Xgcd

section Exchange

/-- The words with the columns of the two remainders exchanged. -/
def swapWords (w : Words) : Words := ⟨w.rr2, w.rr1, w.bb2, w.bb1, w.aa2, w.aa1⟩

def exchange (s : State) : State := ⟨s.co1, s.co2, s.r1, s.r2⟩

/-- The roles of the columns change with the parity of the turn. -/
theorem turn_swapWords (i : ℕ) (w : Words) :
    turn (i + 1) (swapWords w) = (turn i w).map swapWords := by
  rcases Nat.mod_two_eq_zero_or_one i with even | odd
  · have next : (i + 1) % 2 = 1 := by omega
    simp only [turn, even, next, swapWords, if_true, zero_ne_one, if_false,
      apply_ite (Option.map swapWords), Option.map_none, Option.map_some]
    rfl
  · have next : (i + 1) % 2 = 0 := by omega
    simp only [turn, odd, next, swapWords, if_true, zero_ne_one, if_false,
      apply_ite (Option.map swapWords), Option.map_none, Option.map_some]
    rfl

theorem wordLoop_swapWords (bb : ℤ) (fuel i : ℕ) (w : Words) {j : ℕ} {w' : Words}
    (run : wordLoop bb fuel i w = .done (j, w')) :
    wordLoop bb fuel (i + 1) (swapWords w) = .done (j + 1, swapWords w') := by
  induction fuel generalizing i w with
  | zero => cases run
  | succ fuel ih =>
    have same : (swapWords w).rr1 = w.rr1 := rfl
    rw [wordLoop] at run ⊢
    rw [same, turn_swapWords]
    split_ifs at run ⊢ with go
    · cases next : turn i w with
      | none =>
        rw [next] at run
        obtain ⟨rfl, rfl⟩ := Prod.mk.inj (Exec.done.inj run)
        rfl
      | some w'' =>
        rw [next] at run
        exact ih _ _ run
    · obtain ⟨rfl, rfl⟩ := Prod.mk.inj (Exec.done.inj run)
      rfl

theorem wordLoop_mono {bb : ℤ} {fuel fuel' i : ℕ} {w : Words} {r : ℕ × Words}
    (run : wordLoop bb fuel i w = .done r) (le : fuel ≤ fuel') : wordLoop bb fuel' i w = .done r := by
  induction fuel generalizing i w fuel' with
  | zero => cases run
  | succ fuel ih =>
    obtain ⟨fuel', rfl⟩ : ∃ m, fuel' = m + 1 := ⟨fuel' - 1, by omega⟩
    rw [wordLoop] at run ⊢
    split_ifs at run ⊢ with go
    · cases next : turn i w with
      | none => rwa [next] at run
      | some w'' =>
        rw [next] at run
        exact ih run (by omega)
    · exact run

theorem wordLoop_count {bb : ℤ} {fuel i j : ℕ} {w w' : Words}
    (run : wordLoop bb fuel i w = .done (j, w')) : i < j ∨ i = j ∧ w = w' := by
  induction fuel generalizing i w with
  | zero => cases run
  | succ fuel ih =>
    rw [wordLoop] at run
    split_ifs at run with go
    · cases next : turn i w with
      | none =>
        rw [next] at run
        obtain ⟨rfl, rfl⟩ := Prod.mk.inj (Exec.done.inj run)
        exact .inr ⟨rfl, rfl⟩
      | some w'' =>
        rw [next] at run
        rcases ih run with later | ⟨same, -⟩ <;> left <;> omega
    · obtain ⟨rfl, rfl⟩ := Prod.mk.inj (Exec.done.inj run)
      exact .inr ⟨rfl, rfl⟩

theorem wordLoop_zero {bb : ℤ} {fuel : ℕ} {w w' : Words}
    (run : wordLoop bb fuel 0 w = .done (0, w')) : w' = w := by
  rcases wordLoop_count run with later | ⟨-, same⟩
  · omega
  · exact same.symm

theorem wordStep_swapWords (w : Words) (s : State) :
    wordStep (swapWords w) s = wordStep w (exchange s) := by
  simp only [wordStep, swapWords, exchange, add_comm]
  rfl

variable {s : State} {L : ℤ}

theorem divisionStep_exchange (r2s : 0 ≤ s.r2) (lt : s.r2 < s.r1) : divisionStep s = exchange s := by
  simp only [divisionStep, exchange, Int.tdiv_eq_zero_of_lt r2s lt, Int.tmod_eq_of_lt r2s lt, mul_zero,
    sub_zero]

theorem wordStep_one (r1s : 0 ≤ s.r1) (r2s : 0 ≤ s.r2) (rr2 rr1 : ℤ) :
    wordStep ⟨rr2, rr1, 0, 1, 1, 0⟩ s = s := by
  have keep1 : ¬s.r1 < 0 := not_lt.mpr r1s
  have keep2 : ¬s.r2 < 0 := not_lt.mpr r2s
  simp only [wordStep, mul_one, mul_zero, add_zero, if_neg keep1, if_neg keep2]

theorem leading_lt {x : ℤ} {k : ℕ} (fits : x < 2 ^ (k + 63)) : x / 2 ^ k < 2 ^ 63 := by
  rw [Int.ediv_lt_iff_lt_mul (by positivity), mul_comm, ← pow_add]
  exact fits

theorem turn_tie {x : ℤ} (pos : 0 < x) (small : ∀ z, |z| ≤ x → word z = z) :
    turn 0 ⟨x, x, 0, 1, 1, 0⟩ = none := by
  have one : word 1 = 1 := small 1 (by rw [abs_one]; omega)
  have minus : word (-1) = -1 := small (-1) (by rw [abs_neg, abs_one]; omega)
  have zero : word 0 = 0 := small 0 (by rw [abs_zero]; omega)
  simp [turn, Int.tdiv_self pos.ne', one, minus, zero]

theorem turn_exchange {x y : ℤ} (nonneg : 0 ≤ x) (lt : x < y) (small : ∀ z, |z| ≤ y → word z = z) :
    turn 0 ⟨x, y, 0, 1, 1, 0⟩ = some (swapWords ⟨y, x, 0, 1, 1, 0⟩) := by
  have zero : word 0 = 0 := small 0 (by rw [abs_zero]; omega)
  have one : word 1 = 1 := small 1 (by rw [abs_one]; omega)
  have self : word x = x := small x (by rw [abs_of_nonneg nonneg]; exact lt.le)
  have rest : word (y - x) = y - x := small (y - x) (by rw [abs_of_nonneg (by omega)]; omega)
  have first : ¬(x < 0 ∨ y - x < 1) := by omega
  simp only [turn, Int.tdiv_eq_zero_of_lt nonneg lt, zero, zero_mul, sub_zero, self, one, rest,
    neg_zero, Nat.zero_mod, zero_ne_one, if_false, if_neg first, swapWords]

theorem natAbs_succ_le {x y : ℤ} (nonneg : 0 ≤ x) (lt : x < y) : x.natAbs + 1 ≤ y.natAbs := by omega

theorem step_exchange (r2s : 0 ≤ s.r2) (lt : s.r2 < s.r1) (Ls : 0 ≤ L) (above : L < s.r1) :
    step L s = .done (exchange s) ∨ L < s.r2 ∧ step L s = step L (exchange s) := by
  have r1s : 0 ≤ s.r1 := r2s.trans lt.le
  have Mpos : (0 : ℤ) < 2 ^ shift s := by positivity
  have fits1 : s.r1 < 2 ^ (shift s + 63) :=
    (lt_two_pow_sizeinbase2 r1s).trans_le (pow_le_pow_right₀ (by norm_num) (by
      unfold shift gmpLimbBits; omega))
  have fits2 := lt.trans fits1
  have same : shift (exchange s) = shift s := by simp only [shift, exchange, max_comm]
  have word_lt := leading_lt fits1
  have divided := divisionStep_exchange r2s lt
  have words2 := extract_eq r2s fits2
  have words1 := extract_eq r1s fits1
  have wordsL := extract_eq Ls (above.trans fits1)
  have le : s.r2 / 2 ^ shift s ≤ s.r1 / 2 ^ shift s := Int.ediv_le_ediv Mpos lt.le
  have low2 : 0 ≤ s.r2 / 2 ^ shift s := Int.ediv_nonneg r2s Mpos.le
  have lowL : 0 ≤ L / 2 ^ shift s := Int.ediv_nonneg Ls Mpos.le
  have mono : s.r2 ≤ L → s.r2 / 2 ^ shift s ≤ L / 2 ^ shift s := Int.ediv_le_ediv Mpos
  have ex2 : (exchange s).r2 = s.r1 := rfl
  have ex1 : (exchange s).r1 = s.r2 := rfl
  simp only [step, same, ex2, ex1, words2, words1, wordsL]
  generalize s.r2 / 2 ^ shift s = x at *
  generalize s.r1 / 2 ^ shift s = y at *
  generalize L / 2 ^ shift s = bb at *
  by_cases go : y ≠ 0 ∧ y > bb
  · have small (z : ℤ) (h : |z| ≤ y) : word z = z := word_eq (h.trans_lt word_lt)
    rcases le.eq_or_lt with tie | order
    · left
      subst tie
      have refused := turn_tie (lowL.trans_lt go.2) small
      simp only [wordLoop, if_pos go, refused, Exec.done_bind, Exec.pure_eq, if_true, divided]
    · have taken := turn_exchange low2 order small
      have start : Cofactors (turnSign 0) ⟨y, x, 0, 1, 1, 0⟩ := by constructor <;> simp [turnSign]
      obtain ⟨j, w, run, -⟩ := wordLoop_spec word_lt (order.trans word_lt)
        lowL (le_refl (0 : ℤ)) one_pos le_rfl one_pos (x.natAbs + 1) 0 ⟨y, x, 0, 1, 1, 0⟩ start
        ⟨by simp, by simp, low2, le⟩ ⟨by simp, by simp, by simp, by simp, by simp⟩ (Nat.lt_succ_self _)
      have run' := wordLoop_swapWords bb _ _ _ (wordLoop_mono run (natAbs_succ_le low2 order))
      have next : wordLoop bb (y.natAbs + 1) 0 ⟨x, y, 0, 1, 1, 0⟩ = .done (j + 1, swapWords w) := by
        rw [wordLoop, if_pos go, taken]
        exact run'
      simp only [next, run, Exec.done_bind, Exec.pure_eq, Nat.succ_ne_zero, if_false,
        wordStep_swapWords]
      by_cases none : j = 0
      · subst none
        left
        have unchanged := wordLoop_zero run
        rw [unchanged, wordStep_one (s := exchange s) r2s r1s]
      · right
        rw [if_neg none]
        refine ⟨not_le.mp fun within => none ?_, rfl⟩
        have stop : ¬(x ≠ 0 ∧ x > bb) := fun more => absurd (mono within) (not_le.mpr more.2)
        rw [wordLoop, if_neg stop] at run
        exact (congrArg Prod.fst (Exec.done.inj run)).symm
  · left
    simp only [wordLoop, if_neg go, Exec.done_bind, Exec.pure_eq, if_true, divided]

end Exchange

end Xgcd

open Xgcd in
/-- On a pair in the wrong order `mpz_xgcd_partial` ends as well. -/
theorem mpzXgcdPartial_reversed (pos : 0 < N) (lt : N < b) (Ls : 0 ≤ L) (Lt : L ≤ N) :
    ∃ τ s, mpzXgcdPartial N b L = .done s ∧ Weak N b L τ s ∧ s.r1 ≤ L := by
  have exchanged : Weak N b L (-1) ⟨-1, 0, b, N⟩ := by
    constructor <;> simp <;> omega
  have go : b ≠ 0 ∧ b > L := by omega
  have ends {τ : ℤ} {s : State} (first : step L ⟨0, -1, N, b⟩ = .done s) (inv : Weak N b L τ s)
      (low : s.r1 ≤ N) : ∃ τ s, mpzXgcdPartial N b L = .done s ∧ Weak N b L τ s ∧ s.r1 ≤ L := by
    have enough : s.r1.natAbs < b.natAbs := by
      have := inv.nonneg
      omega
    obtain ⟨τ', s', run, ⟨inv', -⟩, within⟩ := loop_spec b.natAbs s inv Ls enough
    refine ⟨τ', s', ?_, inv', within⟩
    have keep : ¬s'.r2 < 0 := by linarith [inv'.nonneg, inv'.le]
    simp only [mpzXgcdPartial, loop, if_pos go, first, Exec.done_bind, run, Exec.pure_eq, if_neg keep]
  have order := step_exchange (s := ⟨0, -1, N, b⟩) pos.le lt Ls (by simpa using go.2)
  rcases order with first | ⟨above, first⟩
  · exact ends first exchanged le_rfl
  · obtain ⟨τ, s, run, ⟨inv, -⟩, lower⟩ := step_spec exchanged Ls above
    exact ends (first.trans run) inv lower.le

namespace Bqfc

section Total

/-- A cofactor of zero would leave a remainder that `a` divides. -/
theorem cofactor_bound (two : 2 ≤ a) (inv : Xgcd.Weak a b a.toNat.sqrt τ s)
    (low : s.r1 ≤ a.toNat.sqrt) : s.co1 ≠ 0 ∧ |s.co1| * (a.toNat.sqrt + 1) ≤ a := by
  constructor
  · intro zero
    have divides := inv.cong1
    rw [zero, zero_mul, add_zero] at divides
    have none := Int.eq_zero_of_dvd_of_nonneg_of_lt inv.nonneg (low.trans_lt (sqrt_lt two)) divides
    have total := inv.total
    rw [zero, none] at total
    rcases inv.sign with rfl | rfl <;> omega
  · rw [← abs_neg, Xgcd.abs_of_sign inv.sign (by linarith [inv.co1])]
    linarith [inv.small]

theorem cofactor_total (pos : 0 < a) (b : ℤ) :
    ∃ s, mpzXgcdPartial a |b| a.toNat.sqrt = .done s ∧ (Int.gcd a (-s.co1) : ℤ) ≤ a.toNat.sqrt := by
  have ends : ∃ s, mpzXgcdPartial a |b| a.toNat.sqrt = .done s ∧
      (2 ≤ a → s.co1 ≠ 0 ∧ |s.co1| * (a.toNat.sqrt + 1) ≤ a) := by
    have root_le : (a.toNat.sqrt : ℤ) ≤ a := by
      have := sqrt_sq_le pos.le
      nlinarith
    rcases lt_or_ge a |b| with large | small
    · obtain ⟨τ, s, run, inv, low⟩ :=
        mpzXgcdPartial_reversed pos large (Int.natCast_nonneg _) root_le
      exact ⟨s, run, fun two => cofactor_bound two inv low⟩
    · rcases (by omega : a = 1 ∨ 2 ≤ a) with rfl | two
      · have root : ((1 : ℤ).toNat.sqrt : ℤ) = 1 := rfl
        rw [root, mpzXgcdPartial_stop small]
        exact ⟨_, rfl, fun two => absurd two (by norm_num)⟩
      · obtain ⟨τ, s, run, inv, low⟩ := mpzXgcdPartial_spec (abs_nonneg b) small
          (Int.natCast_nonneg a.toNat.sqrt) (sqrt_lt two)
        exact ⟨s, run, fun two => cofactor_bound two inv.weak low⟩
  obtain ⟨s, run, bound⟩ := ends
  refine ⟨s, run, ?_⟩
  rcases (by omega : a = 1 ∨ 2 ≤ a) with rfl | two
  · simp
  · obtain ⟨nonzero, small⟩ := bound two
    have divides : (Int.gcd a (-s.co1) : ℤ) ∣ |s.co1| :=
      (dvd_abs _ _).mpr ((Int.gcd_dvd_right a (-s.co1)).trans (neg_dvd.mpr dvd_rfl))
    have le := Int.le_of_dvd (abs_pos.mpr nonzero) divides
    have := lt_succ_sqrt pos.le
    have root : (0 : ℤ) ≤ a.toNat.sqrt := Int.natCast_nonneg _
    nlinarith

theorem compr_total (pos : 0 < a) (ne : a ≠ b) :
    ∃ c, compr a b = .done c ∧ 1 ≤ c.g ∧ c.g ≤ a.toNat.sqrt := by
  have aSqrt := mpzSqrt_done pos.le
  obtain ⟨s, run, small⟩ := cofactor_total pos b
  have gpos : 0 < (Int.gcd a (-s.co1) : ℤ) := by
    exact_mod_cast Int.gcd_pos_of_ne_zero_left _ pos.ne'
  obtain ⟨a', ha⟩ := Int.gcd_dvd_left a (-s.co1)
  obtain ⟨t', ht⟩ := Int.gcd_dvd_right a (-s.co1)
  set g : ℤ := ((Int.gcd a (-s.co1) : ℕ) : ℤ) with g_def
  have a'pos : 0 < a' := by nlinarith
  simp only [compr, if_neg ne, aSqrt, Exec.done_bind, sign_abs, run, ← g_def]
  by_cases one : g = 1
  · rw [if_pos one]
    exact ⟨_, rfl, gpos, small⟩
  · rw [if_neg one, mpzDivexact_exact gpos.ne' a' ha, Exec.done_bind,
      mpzDivexact_exact gpos.ne' t' ht, Exec.done_bind, mpzTdivQ_done a'pos.ne']
    exact ⟨_, rfl, gpos, small⟩

theorem bqfcExport_total {out : ByteString} (room : out.length + size ≤ BQFC_FORM_SIZE) :
    bqfcExport out size n = .done (-1, out) ∨
      ∃ s, bqfcExport out size n = .done (0, s) ∧ s.length = out.length + size := by
  by_cases fits : Fits size n
  · right
    refine ⟨_, bqfcExport_done.mpr ⟨fits, room, rfl⟩, ?_⟩
    rw [List.length_append, ByteString.length_lsbFirst]
  · left
    have needed := (needed_le_iff size n).not.mpr fits
    rw [bqfcExport, if_pos (by omega)]

theorem exportFields_total {out : ByteString} (fields : List (ℕ × ℤ))
    (room : out.length + (fields.map Prod.fst).sum ≤ BQFC_FORM_SIZE) :
    ∃ r, exportFields out fields = .done r := by
  induction fields generalizing out with
  | nil => exact ⟨_, rfl⟩
  | cons field fields ih =>
    obtain ⟨size, n⟩ := field
    rw [List.map_cons, List.sum_cons] at room
    rcases bqfcExport_total (n := n) (by omega : out.length + size ≤ BQFC_FORM_SIZE) with
      refused | ⟨s, written, length⟩
    · exact ⟨(-1, out), by simp [exportFields, refused]⟩
    · have rest : s.length + (fields.map Prod.fst).sum ≤ BQFC_FORM_SIZE := by omega
      obtain ⟨r, run⟩ := ih rest
      exact ⟨r, by simp [exportFields, written, run]⟩

/-- The fields of any compressed form are written without a fault as long as `g` takes one byte
more than its half of the width of `t` at most. -/
theorem serializeOnly_total (pos : 0 < dBits) (le : dBits ≤ BQFC_MAX_D_BITS)
    (width : gSize c ≤ words dBits) : ∃ r, serializeOnly c dBits = .done r := by
  have kle := words_le le
  have size : BQFC_FORM_SIZE = 100 := rfl
  have guard : ¬(dBits = 0 ∨ dBits > BQFC_MAX_D_BITS) := by omega
  have guard' : ¬roundBits dBits > BQFC_MAX_D_BITS := by
    rw [roundBits_eq]; unfold BQFC_MAX_D_BITS; omega
  have large : ¬gSize c > 255 := by omega
  have wide : roundBits dBits / 16 = 2 * words dBits := by rw [roundBits_eq]; omega
  have narrow : roundBits dBits / 32 = words dBits := by rw [roundBits_eq]; omega
  simp only [serializeOnly, if_neg guard, if_neg guard', if_neg large]
  apply exportFields_total
  rw [fields, wide, narrow, sizeSub_of_le (by omega) (by omega), sizeSub_of_le (by omega) (by omega),
    sum_widths, size, List.length_cons, List.length_cons, List.length_nil]
  omega

theorem gSize_le {c : QfbC} (nonneg : 0 ≤ c.g) (small : c.g.natAbs < 256 ^ (k + 1)) : gSize c ≤ k := by
  rcases nonneg.eq_or_lt with zero | pos
  · simp [gSize, ← zero, mpzSizeinbase2]
  · have low := (gSize_spec c pos).1
    have := (Nat.pow_lt_pow_iff_right (by norm_num)).mp (low.trans_lt small)
    omega

theorem serialize_total (pos : 0 < dBits) (le : dBits ≤ BQFC_MAX_D_BITS) (as : 0 ≤ a)
    (zero : a = 0 → b = 0) (small : a.natAbs < 256 ^ (2 * words dBits + 2)) :
    ∃ r, serialize a b dBits = .done r := by
  rw [serialize, if_neg (getComprSize_ok pos le)]
  split
  · exact ⟨_, rfl⟩
  · have compressed : ∃ c, compr a b = .done c ∧ 0 ≤ c.g ∧ c.g ≤ a.toNat.sqrt := by
      by_cases same : a = b
      · rw [same, compr_self]
        exact ⟨_, rfl, le_rfl, Int.natCast_nonneg _⟩
      · have apos : 0 < a := by
          rcases as.eq_or_lt with rfl | apos
          · exact absurd (zero rfl).symm same
          · exact apos
        obtain ⟨c, run, one, bound⟩ := compr_total apos same
        exact ⟨c, run, by omega, bound⟩
    obtain ⟨c, run, gs, bound⟩ := compressed
    have root : a.toNat.sqrt < 256 ^ (words dBits + 1) := by
      apply lt_pow_of_sq_lt
      have := Nat.sqrt_le a.toNat
      rw [show 2 * (words dBits + 1) = 2 * words dBits + 2 by omega]
      omega
    obtain ⟨r, written⟩ := serializeOnly_total pos le (gSize_le gs (by omega))
    exact ⟨(r.1, padded r.2), by rw [run, Exec.done_bind, written]; rfl⟩

theorem verifyCanon_total (pos : 0 < dBits) (le : dBits ≤ BQFC_MAX_D_BITS) (as : 0 ≤ a)
    (zero : a = 0 → b = 0) (small : a.natAbs < 256 ^ (2 * words dBits + 2)) (str : ByteString) :
    ∃ ret, verifyCanon a b str dBits = .done ret := by
  obtain ⟨r, run⟩ := serialize_total pos le as zero small
  exact ⟨_, by rw [verifyCanon, run]; rfl⟩

theorem importField_bounds (str : ByteString) (offset size : ℕ) :
    0 ≤ importField str offset size ∧ importField str offset size < 256 ^ size := by
  have length : ((str.drop offset).take size).length ≤ size := List.length_take_le _ _
  have small := (ByteString.ofLsbFirst_lt ((str.drop offset).take size)).trans_le
    (Nat.pow_le_pow_right (by norm_num) length)
  refine ⟨Int.natCast_nonneg _, ?_⟩
  unfold importField
  exact_mod_cast small

/-- What the bytes of any string can hold; `n` is the byte for the size of `g`. -/
theorem deserializeOnly_bounds {str : ByteString} (only : deserializeOnly str dBits = some c) :
    ∃ n < words dBits, 0 ≤ c.a ∧ c.a < 256 ^ (2 * words dBits - n) ∧ 0 ≤ c.g ∧
      c.g < 256 ^ (n + 1) := by
  have wide : roundBits dBits / 16 = 2 * words dBits := by rw [roundBits_eq]; omega
  have narrow : roundBits dBits / 32 = words dBits := by rw [roundBits_eq]; omega
  unfold deserializeOnly at only
  rw [wide, narrow] at only
  split at only
  · cases only
  split at only
  · cases only
  dsimp only at only
  split at only
  · cases only
  next width =>
  obtain rfl := Option.some.inj only
  obtain ⟨as, a_lt⟩ := importField_bounds str 2 (2 * words dBits - (str.getD 1 0).toNat)
  obtain ⟨gs, g_lt⟩ := importField_bounds str (2 + (2 * words dBits - (str.getD 1 0).toNat) +
    (words dBits - (str.getD 1 0).toNat)) ((str.getD 1 0).toNat + 1)
  exact ⟨(str.getD 1 0).toNat, not_le.mp width, as, a_lt, gs, g_lt⟩

/-- Zero moduli, roots of numbers that are no squares and cofactors without an inverse are all
refused before they are used. -/
theorem decompr_total (D : ℤ) {c : QfbC} (as : 0 ≤ c.a) (gs : 0 ≤ c.g) (strict : Bool) :
    ∃ out, decompr D c strict = .done out ∧ ∀ a b, out = some (a, b) →
      0 ≤ a ∧ (a = 0 → b = 0) ∧ a ≤ c.a * (c.g + 1) := by
  have wide : c.a * 1 ≤ c.a * (c.g + 1) := mul_le_mul_of_nonneg_left (by omega) as
  by_cases none : c.t = 0
  · refine ⟨_, by rw [decompr, if_pos none], ?_⟩
    rintro a b ⟨⟩
    exact ⟨as, id, by omega⟩
  by_cases zero : c.a = 0
  · exact ⟨.none, by simp only [decompr, if_neg none, if_pos zero], by simp⟩
  have pos : 0 < c.a := by omega
  simp only [decompr, if_neg none, if_neg zero]
  generalize mpzGcdext (if c.t < 0 then c.t + c.a else c.t) c.a = r
  by_cases unit : r.gcd = 1
  swap
  · exact ⟨.none, by rw [if_pos unit], by simp⟩
  rw [if_neg (not_not.mpr unit), mpzMod_done zero, Exec.done_bind, mpzPowmUi_done zero,
    Exec.done_bind, mpzTdivR_done zero, Exec.done_bind]
  have nonneg : 0 ≤ (c.t ^ 2 % c.a * (D % c.a)).tmod c.a :=
    Int.tmod_nonneg _ (mul_nonneg (Int.emod_nonneg _ zero) (Int.emod_nonneg _ zero))
  generalize (c.t ^ 2 % c.a * (D % c.a)).tmod c.a = tmp at *
  by_cases square : mpzPerfectSquareP tmp = true
  swap
  · exact ⟨.none, by rw [if_pos (by simpa using square)]; rfl, by simp⟩
  rw [if_neg (by simpa using square), mpzSqrt_done nonneg, Exec.done_bind, mpzTdivR_done zero,
    Exec.done_bind]
  generalize Int.tmod (_ * _) c.a = low
  generalize (if c.bSign = true then -(if c.b0 > 0 then low + c.a * c.b0 else low)
    else if c.b0 > 0 then low + c.a * c.b0 else low) = b
  have outA : 0 < (if c.g > 1 then c.a * c.g else c.a) ∧
      (if c.g > 1 then c.a * c.g else c.a) ≤ c.a * (c.g + 1) := by
    split
    · exact ⟨mul_pos pos (by omega), by linarith⟩
    · exact ⟨pos, by omega⟩
  generalize (if c.g > 1 then c.a * c.g else c.a) = a at *
  by_cases outside : strict = true ∧ |b| > |a|
  · exact ⟨.none, by rw [if_pos outside]; rfl, by simp⟩
  · refine ⟨some (a, b), by rw [if_neg outside]; rfl, ?_⟩
    rintro a b ⟨⟩
    exact ⟨outA.1.le, fun zero => absurd zero outA.1.ne', outA.2⟩

theorem deserialize_total (pos : 0 < dBits) (le : dBits ≤ BQFC_MAX_D_BITS) (D : ℤ)
    (str : ByteString) (strict : Bool) : ∃ out, deserialize D str dBits strict = .done out := by
  have guard : ¬(dBits = 0 ∨ dBits > BQFC_MAX_D_BITS) := by omega
  rw [deserialize, if_neg guard]
  split
  · exact ⟨_, rfl⟩
  split
  · exact ⟨_, rfl⟩
  cases only : deserializeOnly str dBits with
  | none => exact ⟨_, rfl⟩
  | some c =>
    obtain ⟨n, width, as, a_lt, gs, g_lt⟩ := deserializeOnly_bounds only
    obtain ⟨out, dec, bounds⟩ := decompr_total D as gs strict
    simp only [dec, Exec.done_bind]
    rcases out with - | ⟨a, b⟩
    · exact ⟨_, rfl⟩
    · obtain ⟨a_nonneg, zero, a_le⟩ := bounds a b rfl
      have total : (256 : ℤ) ^ (2 * words dBits - n) * 256 ^ (n + 1) ≤ 256 ^ (2 * words dBits + 2) := by
        rw [← pow_add]
        exact pow_le_pow_right₀ (by norm_num) (by omega)
      have product : c.a * (c.g + 1) < 256 ^ (2 * words dBits - n) * 256 ^ (n + 1) :=
        mul_lt_mul_of_lt_of_le_of_nonneg_of_pos a_lt g_lt as (by omega)
      have small : a.natAbs < 256 ^ (2 * words dBits + 2) := by
        zify
        rw [abs_of_nonneg a_nonneg]
        omega
      obtain ⟨ret, canon⟩ := verifyCanon_total pos le a_nonneg zero small str
      exact ⟨_, by simp only [canon]; rfl⟩

end Total

end Bqfc

/-- `from_abd` refuses a pair that belongs to no form of the discriminant and reduces the others. -/
theorem Form.fromAbd_total {D : ℤ} (neg : D < 0) (a b : ℤ) :
    (∃ what, fromAbd a b D = .thrown what) ∨
      ∃ f : Form, fromAbd a b D = .done f ∧ f.Reduced ∧ f.disc = D := by
  by_cases pos : 0 < a
  · have nonzero : 4 * a ≠ 0 := by omega
    by_cases exact : (b * b - D) % (4 * a) = 0
    · right
      obtain ⟨c, hc⟩ := Int.dvd_of_emod_eq_zero exact
      have disc : (⟨a, b, c⟩ : Form).disc = D := by
        unfold BinaryForm.disc
        dsimp only
        linarith
      obtain ⟨g, run, red, e⟩ := reduce_spec (f := ⟨a, b, c⟩) pos (disc.trans_lt neg)
      refine ⟨g, ?_, red, e.disc_eq.trans disc⟩
      rw [← run, ← disc]
      exact fromAbd_eq_reduce (f := ⟨a, b, c⟩) pos
    · left
      exact ⟨_, by rw [fromAbd, if_neg (not_le.mpr pos), mpzMod_done nonzero, Exec.done_bind, if_pos exact]⟩
  · exact .inl ⟨_, by rw [fromAbd, if_pos (not_lt.mp pos)]⟩

theorem deserializeForm_total {D : ℤ} (neg : D < 0) (bits : numBits D ≤ BQFC_MAX_D_BITS)
    (bytes : ByteString) (strict : Bool) :
    (∃ what, deserializeForm D bytes strict = .thrown what) ∨
      ∃ f : Form, deserializeForm D bytes strict = .done f ∧ f.Reduced ∧ f.disc = D := by
  obtain ⟨out, run⟩ := Bqfc.deserialize_total (Bqfc.numBits_pos D) bits D bytes strict
  rcases out with - | ⟨a, b⟩
  · exact .inl ⟨_, by simp only [deserializeForm, run, Exec.done_bind]; rfl⟩
  · rcases Form.fromAbd_total neg a b with ⟨what, refused⟩ | ⟨f, returned, red, disc⟩
    · exact .inl ⟨what, by simp only [deserializeForm, run, Exec.done_bind, refused]; rfl⟩
    · refine .inr ⟨f, ?_, red, disc⟩
      simp [deserializeForm, run, returned, Form.isReduced_of_reduced red]

/-- Every string is refused with an exception or decoded to a reduced form, for every negative
discriminant that the format has room for. -/
theorem deserializeForm_sound {D : ℤ} (neg : D < 0) (bits : numBits D ≤ BQFC_MAX_D_BITS)
    (bytes : ByteString) (strict : Bool) :
    (∃ what, deserializeForm D bytes strict = .thrown what) ∨
      ∃ f : Form, deserializeForm D bytes strict = .done f ∧ f.Reduced ∧ 0 < f.a ∧
        f.b ^ 2 - 4 * f.a * f.c = D := by
  rcases deserializeForm_total neg bits bytes strict with refused | ⟨f, returned, red, disc⟩
  · exact .inl refused
  · exact .inr ⟨f, returned, red, red.pos, disc⟩

/-- The bytes of the form `(2, 0, 3)` of the discriminant `-24`, which is not prime. -/
theorem deserializeForm_sound_24 :
    (∃ what, deserializeForm (-24) (Bqfc.padded [0, 0, 2, 0, 1, 1, 0]) true = .thrown what) ∨
      ∃ f : Form, deserializeForm (-24) (Bqfc.padded [0, 0, 2, 0, 1, 1, 0]) true = .done f ∧
        f.Reduced ∧ 0 < f.a ∧ f.b ^ 2 - 4 * f.a * f.c = -24 :=
  deserializeForm_sound (by norm_num) (by decide) _ true

end ChiaVdf
